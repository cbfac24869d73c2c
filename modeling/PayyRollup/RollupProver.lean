import PayyRollup.ProverBatch

/-!
The proof of a block. The transactions are padded with proofs of the padding UTXO and go in
two groups through the same tree; each group is aggregated with its batch, and the two
aggregates are aggregated twice more. The snark of an aggregate of UTXO proofs is made from
the default aggregate, which makes three default UTXO proofs first. The default UTXO has an
address that is not the hash of its key, so proof generation never meets a satisfied circuit
there: a prover that looked at its witness would refuse every block.
-/
namespace PayyRollup.RollupProver

open ScalarField ConstraintProgram Layouter SparseMerkle ElementHash Notes UtxoCircuit
  InsertCircuit Aggregation SnarkStatement SmirkNode SmirkTree SmirkValues NodeBlocks ProverBatch

def utxoAggregations : ℕ := 2

def maximumTxns : ℕ := utxoAggNumber * utxoAggregations

inductive Error
  | smirkCollision (source : CollisionError)
  | zk
  deriving DecidableEq

/-- Proof generation. It is known to succeed on a witness that satisfies its circuit; on
another one it either fails or yields bytes that prove nothing. Calls are numbered, since
every proof is blinded anew. -/
structure ProofSystem (Proof : Type) where
  createProof : CircuitKind → ℕ → List Fr → Proof
  checksWitness : Bool

variable {Proof Accumulator : Type} {D : ℕ}

/-- The snark of a circuit; a failure is unwrapped. -/
def ProofSystem.create {α : Type} (S : ProofSystem Proof) (hash : List Fr → Fr)
    (kind : CircuitKind) (call : ℕ) (inst : List Fr) (circuit : Layouter Fr α) :
    Outcome Error (Snark Proof) :=
  if S.checksWitness = true ∧ (run hash inst circuit).isSome = false then .error .panic
  else .ok (Snark.fromWitness kind [inst] (S.createProof kind call inst))

/-- The proof for the contract, with the error handed on. -/
def ProofSystem.genProof {α : Type} (S : ProofSystem Proof) (hash : List Fr → Fr)
    (kind : CircuitKind) (call : ℕ) (inst : List Fr) (circuit : Layouter Fr α) :
    Outcome Error Proof :=
  if S.checksWitness = true ∧ (run hash inst circuit).isSome = false then
    .error (.err Error.zk)
  else .ok (S.createProof kind call inst)

/-- The proof of a block with what it exposes. -/
structure RollupProof (Proof : Type) where
  proof : Proof
  aggInstances : List Element
  oldRoot : Element
  newRoot : Element
  utxoHashes : List Element

section Generation

variable (S : ProofSystem Proof) (V : SnarkVerifier Proof Accumulator) (hash : List Fr → Fr)

/-- A transaction, or the padding UTXO with a proof of its own. -/
def padTxn (D call : ℕ) : Option (Transaction Proof) → Outcome Error (Transaction Proof)
  | some txn => .ok txn
  | none => do
      let padding := Utxo.newPadding hash D
      let snark ← S.create hash .utxo call (padding.publicInputs hash)
        (padding.enforceConstraints hash)
      return ⟨snark.instances.map fun column => column.map Element.fromBase, snark.proof⟩

def padTxns (D call : ℕ) : List (Option (Transaction Proof)) →
    Outcome Error (List (Transaction Proof))
  | [] => .ok []
  | txn :: rest => do
      let first ← padTxn S hash D call txn
      let others ← padTxns D (call + 1) rest
      return first :: others

/-- The next three transactions of the padded ones. -/
def takeTxns (D call : ℕ) (txns : List (Option (Transaction Proof))) :
    Outcome Error (Vector (Transaction Proof) utxoAggNumber) := do
  let padded ← padTxns S hash D call (txns.take utxoAggNumber)
  if h : padded.length = utxoAggNumber then return ⟨padded.toArray, by simpa using h⟩
  else .error .panic

/-- The witness of a transaction as a snark of the UTXO circuit. -/
def Transaction.toSnark (txn : Transaction Proof) : Snark Proof :=
  Snark.fromWitness .utxo (txn.instances.map fun column => column.map Element.toBase) txn.proof

def aggregateUtxo (tree : ValueTree D SmirkMetadata)
    (utxos : Vector (Transaction Proof) utxoAggNumber) (currentBlock : ℕ) :
    Outcome Error (AggregateUtxo Proof utxoAggNumber D utxoAggLeaves × ValueTree D SmirkMetadata) := do
  let out ← (genBatch hash tree utxos currentBlock).mapError (Failure.map Error.smirkCollision)
  return (AggregateUtxo.new V (utxos.map Transaction.toSnark) out.1.batch, out.2)

/-- The proofs of the default UTXO that the default aggregate is made of. -/
def defaultProofs (D call : ℕ) : Outcome Error (Vector Proof utxoAggNumber) := do
  let utxo := Utxo.default hash D
  let first ← S.create hash .utxo call (utxo.publicInputs hash) (utxo.enforceConstraints hash)
  let second ← S.create hash .utxo (call + 1) (utxo.publicInputs hash)
    (utxo.enforceConstraints hash)
  let third ← S.create hash .utxo (call + 2) (utxo.publicInputs hash)
    (utxo.enforceConstraints hash)
  return #v[first.proof, second.proof, third.proof]

/-- The snark of an aggregate: its own instances, the circuit of the default one. -/
def aggregateUtxoProof (call : ℕ) (self : AggregateUtxo Proof utxoAggNumber D utxoAggLeaves) :
    Outcome Error (Snark Proof) := do
  let proofs ← defaultProofs S hash D call
  let pair := aggregateUtxoSnark V hash proofs self
  S.create hash .aggUtxo (call + 3) pair.2 (pair.1.enforceConstraints V hash)

def aggregateAggregateUtxo (call : ℕ)
    (first second : AggregateUtxo Proof utxoAggNumber D utxoAggLeaves) :
    Outcome Error (AggregateAgg Proof utxoAggregations) := do
  let one ← aggregateUtxoProof S V hash call first
  let two ← aggregateUtxoProof S V hash (call + 4) second
  return AggregateAgg.new V #v[one, two]

def generateAggregateProof (tree : ValueTree D SmirkMetadata)
    (txns : Vector (Option (Transaction Proof)) maximumTxns) (currentBlock : ℕ) :
    Outcome Error (AggregateAgg Proof 1 × Proof) := do
  let firstTxns ← takeTxns S hash D 0 txns.toList
  let first ← aggregateUtxo V hash tree firstTxns currentBlock
  let secondTxns ← takeTxns S hash D utxoAggNumber (txns.toList.drop utxoAggNumber)
  let second ← aggregateUtxo V hash first.2 secondTxns currentBlock
  let agg ← aggregateAggregateUtxo S V hash maximumTxns first.1 second.1
  let snark ← S.create hash .aggAgg 14 agg.publicInputs (agg.enforceConstraints V)
  let aggAggAgg := AggregateAgg.new V #v[snark]
  let proof ← S.genProof hash .aggAgg 15 aggAggAgg.publicInputs (aggAggAgg.enforceConstraints V)
  return (aggAggAgg, proof)

/-- Prove a block on a copy of the tree. -/
def prove (notesTree : ValueTree D SmirkMetadata) (height : ℕ)
    (txns : Vector (Option (Transaction Proof)) maximumTxns) :
    Outcome Error (RollupProof Proof) := do
  let (agg, proof) ← generateAggregateProof S V hash notesTree txns height
  return { proof, aggInstances := agg.aggInstances, oldRoot := Element.fromBase agg.oldRoot,
           newRoot := Element.fromBase agg.newRoot,
           utxoHashes := agg.utxoValues.map Element.fromBase }

end Generation

theorem bind_ok {ε α β : Type} (x : Except ε α) (f : α → Except ε β) (b : β) :
    (x >>= f) = .ok b ↔ ∃ a, x = .ok a ∧ f a = .ok b := by
  cases x with
  | error e => simp [Bind.bind, Except.bind]
  | ok a => simp [Bind.bind, Except.bind]

section Refusal

variable (hash : List Fr → Fr)

/-- The address of the default note is not the hash of its key. -/
theorem run_default_input (inst : List Fr) (h : hash [0, 0] ≠ 0) :
    run hash inst ((InputNote.default hash D).enforceConstraints hash) = none := by
  have hkey : hash [Element.zero.toBase, 0] ≠ Element.zero.toBase := by
    rw [Element.toBase_zero]
    exact h
  have hnote : ∃ cells, run hash inst (Note.default.enforceConstraints hash) = some cells ∧
      cells.address = Element.zero.toBase := by
    simp [Note.enforceConstraints, Note.default, Gadgets.poseidonHashGadget]
  obtain ⟨cells, hcells, haddress⟩ := hnote
  have hstop : ∀ x : Option Fr, (x.bind fun _ => (none : Option InputNoteConstraintCells)) = none :=
    fun x => by cases x <;> rfl
  simp only [InputNote.enforceConstraints, InputNote.default, run_bind, hcells, Option.bind_some,
    run_assignAdvice, Gadgets.poseidonHashGadget, run_hashGadget, run_constrainEqual, haddress,
    if_neg hkey, Option.bind_none, hstop]

theorem run_default_utxo (inst : List Fr) (h : hash [0, 0] ≠ 0) :
    run hash inst ((Utxo.default hash D).enforceConstraints hash) = none := by
  have hinputs : ∀ root zero, run hash inst (forEach (Utxo.enforceInput hash root zero)
      (Utxo.default hash D).inputs.toList) = none := by
    intro root zero
    have hlist : (Utxo.default hash D).inputs.toList =
        [InputNote.default hash D, InputNote.default hash D] := rfl
    rw [hlist, forEach, run_bind, Utxo.enforceInput, run_bind, run_default_input hash inst h]
    rfl
  simp only [Utxo.enforceConstraints, run_bind, run_assignAdvice, Option.bind_some,
    Chips.run_isConstant, hinputs, Option.bind_none]

variable (S : ProofSystem Proof) (V : SnarkVerifier Proof Accumulator) (h : hash [0, 0] ≠ 0)

include h

theorem unchecked_of_defaultProofs (call : ℕ) (proofs : Vector Proof utxoAggNumber)
    (hok : defaultProofs S hash D call = .ok proofs) : S.checksWitness = false := by
  unfold defaultProofs at hok
  obtain ⟨first, hfirst, -⟩ := (bind_ok _ _ _).mp hok
  unfold ProofSystem.create at hfirst
  split at hfirst
  · cases hfirst
  · rename_i hnot
    rw [run_default_utxo hash _ h] at hnot
    simpa using hnot

/-- A prover that looks at its witness makes no aggregate. -/
theorem unchecked_of_prove (notesTree : ValueTree D SmirkMetadata) (height : ℕ)
    (txns : Vector (Option (Transaction Proof)) maximumTxns) (out : RollupProof Proof)
    (hok : prove S V hash notesTree height txns = .ok out) : S.checksWitness = false := by
  unfold prove generateAggregateProof at hok
  obtain ⟨generated, hgenerated, -⟩ := (bind_ok _ _ _).mp hok
  obtain ⟨firstTxns, -, hgenerated⟩ := (bind_ok _ _ _).mp hgenerated
  obtain ⟨first, -, hgenerated⟩ := (bind_ok _ _ _).mp hgenerated
  obtain ⟨secondTxns, -, hgenerated⟩ := (bind_ok _ _ _).mp hgenerated
  obtain ⟨second, -, hgenerated⟩ := (bind_ok _ _ _).mp hgenerated
  obtain ⟨agg, hagg, -⟩ := (bind_ok _ _ _).mp hgenerated
  unfold aggregateAggregateUtxo aggregateUtxoProof at hagg
  obtain ⟨one, hone, -⟩ := (bind_ok _ _ _).mp hagg
  obtain ⟨proofs, hproofs, -⟩ := (bind_ok _ _ _).mp hone
  exact unchecked_of_defaultProofs hash S h _ proofs hproofs

end Refusal

section Padding

/-- A transaction, or the padding UTXO with the proof of a call. -/
def paddedTxn (S : ProofSystem Proof) (call : ℕ) : Option (Transaction Proof) → Transaction Proof
  | some txn => txn
  | none => ⟨[List.replicate 7 Element.zero], S.createProof .utxo call (List.replicate 7 0)⟩

def paddedTxns (S : ProofSystem Proof) (call : ℕ) :
    List (Option (Transaction Proof)) → List (Transaction Proof)
  | [] => []
  | txn :: rest => paddedTxn S call txn :: paddedTxns S (call + 1) rest

def slotInstances : Option (Transaction Proof) → List (List Element)
  | some txn => txn.instances
  | none => [List.replicate 7 Element.zero]

def slotLeaves : Option (Transaction Proof) → List Element
  | some txn => txn.leaves
  | none => List.replicate 4 Element.zero

/-- The recent root, the hash and the value that a slot exposes. -/
def slotValues (slot : Option (Transaction Proof)) : List Fr :=
  let column := ((slotInstances slot).map fun column => column.map Element.toBase).headD []
  [cellAt column 0, cellAt column 1, cellAt column 2]

theorem newPadding_publicInputs (hash : List Fr → Fr) :
    (Utxo.newPadding hash D).publicInputs hash = List.replicate 7 0 := by
  have hnullifier : (InputNote.paddingNote hash D).nullifer hash = Element.zero := by
    rw [InputNote.nullifer, Note.nullifier, if_pos, Note.paddingNote_commitment]
    simp [Note.isPadding, InputNote.paddingNote]
  simp [Utxo.publicInputs, Utxo.newPadding, Utxo.leafs, utxoInputs, utxoOutputs, hnullifier,
    List.replicate_succ]

theorem paddedTxns_length (S : ProofSystem Proof) (call : ℕ)
    (txns : List (Option (Transaction Proof))) :
    (paddedTxns S call txns).length = txns.length := by
  induction txns generalizing call with
  | nil => rfl
  | cons txn rest ih => rw [paddedTxns, List.length_cons, ih, List.length_cons]

theorem paddedTxns_instances (S : ProofSystem Proof) (call : ℕ)
    (txns : List (Option (Transaction Proof))) :
    (paddedTxns S call txns).map Transaction.instances = txns.map slotInstances := by
  induction txns generalizing call with
  | nil => rfl
  | cons txn rest ih =>
    rw [paddedTxns, List.map_cons, ih, List.map_cons]
    cases txn <;> rfl

theorem paddedTxns_leaves (S : ProofSystem Proof) (call : ℕ)
    (txns : List (Option (Transaction Proof))) :
    (paddedTxns S call txns).flatMap Transaction.leaves = txns.flatMap slotLeaves := by
  have hzero : Element.fromBase (0 : Fr) = Element.zero := rfl
  induction txns generalizing call with
  | nil => rfl
  | cons txn rest ih =>
    rw [paddedTxns, List.flatMap_cons, ih, List.flatMap_cons]
    cases txn with
    | some txn => rfl
    | none => simp [paddedTxn, Transaction.leaves, slotLeaves, hzero]

/-- What the snarks of the padded transactions expose. -/
theorem paddedTxns_values (S : ProofSystem Proof) (call : ℕ)
    (txns : List (Option (Transaction Proof))) :
    (paddedTxns S call txns).flatMap (fun txn =>
        let column := (Transaction.toSnark txn).column
        [cellAt column 0, cellAt column 1, cellAt column 2]) = txns.flatMap slotValues := by
  induction txns generalizing call with
  | nil => rfl
  | cons txn rest ih =>
    rw [paddedTxns, List.flatMap_cons, ih, List.flatMap_cons]
    cases txn <;> rfl

end Padding

section Unchecked

variable (S : ProofSystem Proof) (V : SnarkVerifier Proof Accumulator) (hash : List Fr → Fr)
  (hS : S.checksWitness = false)

include hS

theorem create_unchecked {α : Type} (kind : CircuitKind) (call : ℕ) (inst : List Fr)
    (circuit : Layouter Fr α) :
    S.create hash kind call inst circuit =
      .ok (Snark.fromWitness kind [inst] (S.createProof kind call inst)) := by
  simp [ProofSystem.create, hS]

theorem padTxns_unchecked (call : ℕ) (txns : List (Option (Transaction Proof))) :
    padTxns S hash D call txns = .ok (paddedTxns S call txns) := by
  have hone : ∀ call txn, padTxn S hash D call txn = .ok (paddedTxn S call txn) := by
    intro call txn
    cases txn with
    | some txn => rfl
    | none =>
      have hzero : Element.fromBase (0 : Fr) = Element.zero := rfl
      simp only [padTxn, create_unchecked S hash hS, newPadding_publicInputs, Snark.fromWitness,
        Bind.bind, Except.bind, pure, Except.pure, paddedTxn, List.map_cons, List.map_nil,
        List.map_replicate, hzero]
  induction txns generalizing call with
  | nil => rfl
  | cons txn rest ih =>
    simp only [padTxns, hone, ih, Bind.bind, Except.bind, pure, Except.pure, paddedTxns]

theorem takeTxns_unchecked (call : ℕ) (txns : List (Option (Transaction Proof)))
    (hlen : utxoAggNumber ≤ txns.length) :
    ∃ padded, takeTxns S hash D call txns = .ok padded ∧
      padded.toList = paddedTxns S call (txns.take utxoAggNumber) := by
  have hpadded : (paddedTxns S call (txns.take utxoAggNumber)).length = utxoAggNumber := by
    rw [paddedTxns_length, List.length_take, Nat.min_eq_left hlen]
  refine ⟨⟨(paddedTxns S call (txns.take utxoAggNumber)).toArray, by simpa using hpadded⟩, ?_, rfl⟩
  simp only [takeTxns, padTxns_unchecked S hash hS, Bind.bind, Except.bind, pure, Except.pure]
  rw [dif_pos hpadded]

theorem aggregateUtxoProof_unchecked (call : ℕ)
    (self : AggregateUtxo Proof utxoAggNumber D utxoAggLeaves) :
    ∃ proof, aggregateUtxoProof S V hash call self =
      .ok (Snark.fromWitness .aggUtxo [self.publicInputs hash] proof) := by
  simp only [aggregateUtxoProof, defaultProofs, create_unchecked S hash hS, Bind.bind, Except.bind,
    pure, Except.pure]
  exact ⟨_, rfl⟩

omit hS in
/-- The rows of an aggregate after its twelve limbs. -/
theorem rows_of_limbs (limbs values : List Fr) (old new : Fr) (hlen : limbs.length = 12) :
    cellAt (limbs ++ [old, new] ++ values) 12 = old ∧
      cellAt (limbs ++ [old, new] ++ values) 13 = new ∧
      (limbs ++ [old, new] ++ values).drop 14 = values := by
  have hrest : limbs ++ [old, new] ++ values = limbs ++ (old :: new :: values) := by simp
  rw [hrest]
  refine ⟨?_, ?_, ?_⟩
  · rw [cellAt, List.getD_eq_getElem?_getD, List.getElem?_append_right (by omega), hlen]
    rfl
  · rw [cellAt, List.getD_eq_getElem?_getD, List.getElem?_append_right (by omega), hlen]
    rfl
  · rw [List.drop_append, List.drop_eq_nil_of_le (by omega), hlen]
    rfl

/-- The outermost aggregate exposes the ends of the two batches and the values of both. -/
theorem generateAggregateProof_unchecked (hlimbs : ∀ acc, (V.limbs acc).length = 12)
    (tree : ValueTree D SmirkMetadata) (txns : Vector (Option (Transaction Proof)) maximumTxns)
    (currentBlock : ℕ) (firstTxns secondTxns : Vector (Transaction Proof) utxoAggNumber)
    (first second : AggregateUtxo Proof utxoAggNumber D utxoAggLeaves × ValueTree D SmirkMetadata)
    (hfirstTxns : takeTxns S hash D 0 txns.toList = .ok firstTxns)
    (hfirst : aggregateUtxo V hash tree firstTxns currentBlock = .ok first)
    (hsecondTxns : takeTxns S hash D utxoAggNumber (txns.toList.drop utxoAggNumber) =
      .ok secondTxns)
    (hsecond : aggregateUtxo V hash first.2 secondTxns currentBlock = .ok second)
    (hfirstLimbs : first.1.aggInstances.length = 12)
    (hsecondLimbs : second.1.aggInstances.length = 12) :
    ∃ agg proof, generateAggregateProof S V hash tree txns currentBlock = .ok (agg, proof) ∧
      agg.oldRoot = first.1.insert.oldRoot hash ∧ agg.newRoot = second.1.insert.newRoot hash ∧
      agg.utxoValues = first.1.utxoPublicInputs ++ second.1.utxoPublicInputs := by
  obtain ⟨p, hp⟩ := aggregateUtxoProof_unchecked S V hash hS maximumTxns first.1
  obtain ⟨q, hq⟩ := aggregateUtxoProof_unchecked S V hash hS (maximumTxns + 4) second.1
  let one := Snark.fromWitness CircuitKind.aggUtxo [first.1.publicInputs hash] p
  let two := Snark.fromWitness CircuitKind.aggUtxo [second.1.publicInputs hash] q
  let agg : AggregateAgg Proof utxoAggregations := AggregateAgg.new V #v[one, two]
  have hagg : aggregateAggregateUtxo S V hash maximumTxns first.1 second.1 = .ok agg := by
    simp only [aggregateAggregateUtxo, hp, hq, Bind.bind, Except.bind, pure, Except.pure]
    rfl
  obtain ⟨hold, -, hfirstValues⟩ := rows_of_limbs first.1.aggInstances first.1.utxoPublicInputs
    (first.1.insert.oldRoot hash) (first.1.insert.newRoot hash) hfirstLimbs
  obtain ⟨-, hnew, hsecondValues⟩ := rows_of_limbs second.1.aggInstances
    second.1.utxoPublicInputs (second.1.insert.oldRoot hash) (second.1.insert.newRoot hash)
    hsecondLimbs
  have haggOld : agg.oldRoot = first.1.insert.oldRoot hash := hold
  have haggNew : agg.newRoot = second.1.insert.newRoot hash := hnew
  have haggValues : agg.utxoValues =
      first.1.utxoPublicInputs ++ second.1.utxoPublicInputs := by
    have hboth : agg.utxoValues = (first.1.publicInputs hash).drop 14 ++
        ((second.1.publicInputs hash).drop 14 ++ []) := rfl
    rw [hboth, List.append_nil]
    exact congrArg₂ _ hfirstValues hsecondValues
  have haggLimbs : (agg.aggInstances.map Element.toBase).length = 12 := by
    have hinstances : agg.aggInstances = (V.limbs (V.create
        ([one, two].flatMap V.accumulators)).1).map Element.fromBase := rfl
    rw [hinstances, List.length_map, List.length_map, hlimbs]
  obtain ⟨hrowOld, hrowNew, hrowValues⟩ := rows_of_limbs (agg.aggInstances.map Element.toBase)
    agg.utxoValues agg.oldRoot agg.newRoot haggLimbs
  let snark := Snark.fromWitness CircuitKind.aggAgg [agg.publicInputs]
    (S.createProof .aggAgg 14 agg.publicInputs)
  let outer : AggregateAgg Proof 1 := AggregateAgg.new V #v[snark]
  refine ⟨outer, S.createProof .aggAgg 15 outer.publicInputs, ?_, ?_, ?_, ?_⟩
  · simp only [generateAggregateProof, hfirstTxns, hfirst, hsecondTxns, hsecond, hagg,
      create_unchecked S hash hS, ProofSystem.genProof, hS, Bind.bind, Except.bind, pure,
      Except.pure, Bool.false_eq_true, false_and, if_false]
    rfl
  · rw [← haggOld]
    exact hrowOld
  · rw [← haggNew]
    exact hrowNew
  · rw [← haggValues]
    have houter : outer.utxoValues = agg.publicInputs.drop 14 ++ [] := rfl
    rw [houter, List.append_nil]
    exact hrowValues

end Unchecked

/-- The root of an assignment once the slot of zero is emptied. -/
def rootWithoutZero (hash : List Fr → Fr) (D : ℕ) (σ : List Bool → Element) : Element :=
  root (elementNode hash) (D - 1) (Function.update σ (bits D Element.zero) Element.zero)

section Roots

variable (hash : List Fr → Fr)

/-- A tree of more than one leaf has a hash for a root. -/
theorem fromBase_root (hD : 1 < D) (σ : List Bool → Element) :
    Element.fromBase (root (elementNode hash) (D - 1) σ).toBase =
      root (elementNode hash) (D - 1) σ := by
  apply Element.fromBase_toBase
  obtain ⟨height, hheight⟩ : ∃ height, D - 1 = height + 1 := ⟨D - 2, by omega⟩
  rw [hheight]
  exact hashMerge_toNat_lt hash _

theorem slotLeaves_length (slots : List (Option (Transaction Proof)))
    (h : ∀ slot ∈ slots, (slotLeaves slot).length = 4) :
    (slots.flatMap slotLeaves).length = 4 * slots.length := by
  induction slots with
  | nil => rfl
  | cons slot rest ih =>
    obtain ⟨hslot, hrest⟩ := List.forall_mem_cons.mp h
    rw [List.flatMap_cons, List.length_append, hslot, ih hrest, List.length_cons]
    omega

/-- Leaves that only pad start with a zero. -/
theorem head?_of_nonNull_nil (leaves : List Element) (h : nonNull leaves = [])
    (hlen : 0 < leaves.length) : leaves.head? = some Element.zero := by
  cases leaves with
  | nil => cases hlen
  | cons leaf rest =>
    by_contra hne
    have hmem : leaf ∈ nonNull (leaf :: rest) := by
      refine (mem_nonNull _ leaf).mpr ⟨List.mem_cons_self .., fun hzero => hne ?_⟩
      exact congrArg some hzero
    rw [h] at hmem
    cases hmem

variable (S : ProofSystem Proof) (V : SnarkVerifier Proof Accumulator)
  (hlimbs : ∀ acc, (V.limbs acc).length = 12)

/-- Slots whose leaves fit the tree. -/
structure SlotsFit {t : ValueTree D SmirkMetadata} (h : t.keyed.Valid hash)
    (slots : List (Option (Transaction Proof))) : Prop where
  instances : ∀ slot ∈ slots, slotInstances slot ≠ []
  leaves : ∀ slot ∈ slots, (slotLeaves slot).length = 4
  free : h.sparse.Free (nonNull (slots.flatMap slotLeaves))

include hlimbs

/-- Three padded transactions aggregate with the batch of their leaves. -/
theorem aggregateUtxo_padded (hD : D ≤ 257) (t : ValueTree D SmirkMetadata)
    (h : t.keyed.Valid hash) (hcache : SmirkValues.Faithful hash t.cache) (call currentBlock : ℕ)
    (slots : List (Option (Transaction Proof))) (hslots : slots.length = utxoAggNumber)
    (hfit : SlotsFit hash h slots) (utxos : Vector (Transaction Proof) utxoAggNumber)
    (hutxos : utxos.toList = paddedTxns S call slots) :
    ∃ agg final mp, aggregateUtxo V hash t utxos currentBlock = .ok (agg, final) ∧
      merklePath (t.pathFor hash Element.zero) = .ok mp ∧
      Generated hash mp currentBlock h (slots.flatMap slotLeaves) final
        agg.insert.inserts.toList ∧
      agg.aggInstances.length = 12 ∧ agg.utxoPublicInputs = slots.flatMap slotValues := by
  have hleaves : utxos.toList.flatMap Transaction.leaves = slots.flatMap slotLeaves := by
    rw [hutxos, paddedTxns_leaves]
  have hinstances : ∀ txn ∈ utxos.toList, txn.instances ≠ [] := by
    intro txn htxn
    have hmem : txn.instances ∈ slots.map slotInstances := by
      rw [← paddedTxns_instances S call, ← hutxos]
      exact List.mem_map_of_mem htxn
    obtain ⟨slot, hslot, heq⟩ := List.mem_map.mp hmem
    rw [← heq]
    exact hfit.instances slot hslot
  have hcount : (utxos.toList.flatMap Transaction.leaves).length = utxoAggLeaves := by
    rw [hleaves, slotLeaves_length slots hfit.leaves, hslots]
    rfl
  have hfree := hfit.free
  rw [← hleaves] at hfree
  obtain ⟨batch, final, mp, hok, hmp, hgen⟩ := genBatch_generated hash hD t h hcache utxos
    currentBlock hinstances hcount hfree
  rw [hleaves] at hgen
  refine ⟨AggregateUtxo.new V (utxos.map Transaction.toSnark) batch, final, mp, ?_, hmp, hgen,
    hlimbs _, ?_⟩
  · simp only [aggregateUtxo, hok, Except.mapError, Bind.bind, Except.bind, pure, Except.pure]
  · rw [← paddedTxns_values S call slots, ← hutxos]
    change ((utxos.map Transaction.toSnark).toList.flatMap _) = _
    rw [Vector.toList_map, List.flatMap_map]

/-- What an unchecked proof of fitting transactions exposes. Its old root is wrong when the
first leaf is zero and the slot of zero is taken, and its new root when the last three slots
only pad and the slot of zero is taken by then. -/
theorem prove_unchecked (hS : S.checksWitness = false) (hD : 1 < D) (hD' : D ≤ 257)
    (t : ValueTree D SmirkMetadata) (h : t.keyed.Valid hash)
    (hcache : SmirkValues.Faithful hash t.cache) (height : ℕ)
    (txns : Vector (Option (Transaction Proof)) maximumTxns)
    (hfit : SlotsFit hash h txns.toList) :
    let σ := (h.sparse.laid (nonNull (txns.toList.flatMap slotLeaves))).leaf
    ∃ out, prove S V hash t height txns = .ok out ∧
      out.utxoHashes = (txns.toList.flatMap slotValues).map Element.fromBase ∧
      out.oldRoot = (if (txns.toList.flatMap slotLeaves).head? = some Element.zero then
        rootWithoutZero hash D t.tree.leafAt else t.rootHash hash) ∧
      out.newRoot = (if nonNull ((txns.toList.drop utxoAggNumber).flatMap slotLeaves) = [] then
        rootWithoutZero hash D σ else root (elementNode hash) (D - 1) σ) := by
  intro σ
  let slots := txns.toList
  have hlen : slots.length = maximumTxns := Vector.length_toList
  have hsplit : slots.take utxoAggNumber ++ slots.drop utxoAggNumber = slots :=
    List.take_append_drop _ _
  have hfirstLen : (slots.take utxoAggNumber).length = utxoAggNumber := by
    rw [List.length_take, hlen]
    rfl
  have hsecondLen : (slots.drop utxoAggNumber).length = utxoAggNumber := by
    rw [List.length_drop, hlen]
    rfl
  have hleaves : slots.flatMap slotLeaves = (slots.take utxoAggNumber).flatMap slotLeaves ++
      (slots.drop utxoAggNumber).flatMap slotLeaves := by
    rw [← List.flatMap_append, hsplit]
  have hnonNull : nonNull (slots.flatMap slotLeaves) =
      nonNull ((slots.take utxoAggNumber).flatMap slotLeaves) ++
        nonNull ((slots.drop utxoAggNumber).flatMap slotLeaves) := by
    rw [hleaves, nonNull_append]
  have hfree := hfit.free
  rw [show txns.toList = slots from rfl, hnonNull] at hfree
  have hne : ∀ leaves : List Element, ∀ e ∈ nonNull leaves, e ≠ 0 := fun leaves e he =>
    ((mem_nonNull leaves e).mp he).2
  have hfirstFit : SlotsFit hash h (slots.take utxoAggNumber) :=
    ⟨fun slot hslot => hfit.instances slot (List.mem_of_mem_take hslot),
      fun slot hslot => hfit.leaves slot (List.mem_of_mem_take hslot), hfree.of_append⟩
  obtain ⟨firstTxns, hfirstTxns, hfirstList⟩ := takeTxns_unchecked S hash hS 0 slots
    (by rw [hlen]; decide) (D := D)
  obtain ⟨first, mid, mp, hfirst, hmp, hfirstGen, hfirstLimbs, hfirstValues⟩ :=
    aggregateUtxo_padded hash S V hlimbs hD' t h hcache 0 height _ hfirstLen hfirstFit firstTxns
      hfirstList
  have hrest := SparseTree.free_of_append _ _ (hne _) (hne _) hfree
  rw [← hfirstGen.laid] at hrest
  have hsecondFit : SlotsFit hash hfirstGen.valid (slots.drop utxoAggNumber) :=
    ⟨fun slot hslot => hfit.instances slot (List.mem_of_mem_drop hslot),
      fun slot hslot => hfit.leaves slot (List.mem_of_mem_drop hslot), hrest⟩
  obtain ⟨secondTxns, hsecondTxns, hsecondList⟩ := takeTxns_unchecked S hash hS utxoAggNumber
    (slots.drop utxoAggNumber) (by rw [hsecondLen]) (D := D)
  rw [List.take_of_length_le (by rw [hsecondLen])] at hsecondList
  have hmidCache : SmirkValues.Faithful hash mid.cache := hfirstGen.cache_eq ▸ hcache
  obtain ⟨second, final, mp', hsecond, hmp', hsecondGen, hsecondLimbs, hsecondValues⟩ :=
    aggregateUtxo_padded hash S V hlimbs hD' mid hfirstGen.valid hmidCache utxoAggNumber height _
      hsecondLen hsecondFit secondTxns hsecondList
  obtain ⟨agg, proof, hagg, hold, hnew, hvalues⟩ := generateAggregateProof_unchecked S V hash hS
    hlimbs t txns height firstTxns secondTxns (first, mid) (second, final) hfirstTxns hfirst
    hsecondTxns hsecond hfirstLimbs hsecondLimbs
  have hlaid : hsecondGen.valid.sparse.leaf = σ := by
    obtain ⟨-, hboth⟩ := SparseTree.laid_append _ _ (hne _) (hne _) hfirstFit.free
      (hfirstGen.laid ▸ hrest)
    rw [hsecondGen.laid, hfirstGen.laid, ← hboth, ← hnonNull]
  have hfinal : final.rootHash hash = root (elementNode hash) (D - 1) σ := by
    rw [← hlaid]
    exact hsecondGen.valid.rootHash_eq
  have hhead : ((slots.take utxoAggNumber).flatMap slotLeaves).head? =
      (slots.flatMap slotLeaves).head? := by
    have hcount := slotLeaves_length _ hfirstFit.leaves
    rw [hleaves, List.head?_append]
    cases hlist : (slots.take utxoAggNumber).flatMap slotLeaves with
    | nil =>
      rw [hlist, hfirstLen] at hcount
      cases hcount
    | cons leaf rest => rfl
  have hroot : t.rootHash hash = root (elementNode hash) (D - 1) t.tree.leafAt := h.rootHash_eq
  refine ⟨_, by simp only [prove, hagg, Bind.bind, Except.bind, pure, Except.pure]; rfl,
    ?_, ?_, ?_⟩
  · dsimp only
    rw [hvalues, hfirstValues, hsecondValues, ← List.flatMap_append, hsplit]
  · dsimp only
    rw [hold, oldRoot_generated (by decide) first.insert h mp hmp height _ mid hfirstGen, hhead,
      apply_ite Element.fromBase, fromBase_root hash hD, hroot, fromBase_root hash hD]
    rfl
  · have hbatch := newRoot_generated second.insert hfirstGen.valid mp' height _ final hsecondGen
    dsimp only
    rw [hnew, hbatch, apply_ite Element.fromBase, hfinal, fromBase_root hash hD]
    by_cases hpads : nonNull ((slots.drop utxoAggNumber).flatMap slotLeaves) = []
    · have hzero : ((slots.drop utxoAggNumber).flatMap slotLeaves).head? = some Element.zero := by
        have hcount := slotLeaves_length _ hsecondFit.leaves
        rw [hsecondLen] at hcount
        exact head?_of_nonNull_nil _ hpads (by rw [hcount]; decide)
      have hsame : mid.tree.leafAt = σ := by
        rw [← hlaid, hsecondGen.laid, hpads, SparseTree.laid_nil]
        rfl
      rw [if_pos hpads, if_pos hpads, oldRoot_generated (by decide) second.insert
        hfirstGen.valid mp' hmp' height _ final hsecondGen, if_pos hzero, fromBase_root hash hD,
        hsame]
      rfl
    · rw [if_neg hpads, if_neg hpads]

end Roots
end PayyRollup.RollupProver
