import PayyRollup.Aggregation

/-!
What the `snark` methods of the batch and of the aggregate of UTXO proofs prove. Both
hand the prover the public inputs of the value and the circuit of the default value. The
default circuit inserts padding into the empty tree and aggregates default UTXO proofs,
so the pair is satisfied exactly when the value exposes what the default one exposes.
-/
namespace PayyRollup.SnarkStatement

open BitLists ScalarField ConstraintProgram Layouter Chips Gadgets SparseMerkle ElementHash
  Notes UtxoCircuit InsertCircuit Aggregation

/-- The honest synthesis of a circuit meets every constraint against the instances. -/
def Satisfied {α : Type} (hash : List Fr → Fr) (inst : List Fr) (x : Layouter Fr α) : Prop :=
  (run hash inst x).isSome

section Pairs

variable {Proof Accumulator : Type} {N D L : ℕ} (V : SnarkVerifier Proof Accumulator)
  (hash : List Fr → Fr)

/-- The circuit and the instances of the batch's `snark`. -/
def batchSnark (self : Batch N D) : Batch N D × List Fr :=
  (Batch.default hash N D, self.publicInputs hash)

/-- The default UTXO snarks; their proofs are made afresh by every call. -/
def defaultUtxoSnarks (D : ℕ) (proofs : Vector Proof N) : Vector (Snark Proof) N :=
  proofs.map (Snark.fromWitness .utxo [(Utxo.default hash D).publicInputs hash])

def aggregateUtxoDefault (D L : ℕ) (proofs : Vector Proof N) : AggregateUtxo Proof N D L :=
  AggregateUtxo.new V (defaultUtxoSnarks hash D proofs) (Batch.default hash L D)

/-- The circuit and the instances of the aggregate's `snark`. -/
def aggregateUtxoSnark (proofs : Vector Proof N) (self : AggregateUtxo Proof N D L) :
    AggregateUtxo Proof N D L × List Fr :=
  (aggregateUtxoDefault V hash D L proofs, self.publicInputs hash)

end Pairs

/-- What the circuits rely on in the external verifier: an accumulator has twelve limbs, and
a folding proof made for a list of accumulators folds that list. -/
structure Faithful {Proof Accumulator : Type} (V : SnarkVerifier Proof Accumulator) : Prop where
  limbs_length : ∀ acc, (V.limbs acc).length = 12
  fold_create : ∀ accs, V.fold accs (V.create accs).2 = some (V.create accs).1

section Inserts

variable (hash : List Fr → Fr) (inst : List Fr) {D : ℕ}

theorem lexLt_modulusBits (x : Fr) : lexLt (toBits 256 x.val).reverse modulusBits = true := by
  rw [lexLt_reverse _ _ (by simp [modulusBits]), List.reverse_reverse, modulusBits,
    List.reverse_reverse, ofBits_toBits_of_lt 256 modulus modulus_lt,
    ofBits_toBits_of_lt 256 _ (val_lt x)]
  exact ZMod.val_lt x

/-- The steps the honest prover climbs for an insert. -/
def insertSteps (self : Insert D) : List (Bool × Fr) :=
  leafSteps D self.leaf.toBase (self.path.siblings.map Element.toBase)

theorem run_insert (hD : D ≤ 257) (self : Insert D) :
    run hash inst (self.enforceConstraints hash) =
      some
        { newLeaf := self.leaf.toBase
          oldRoot := climbUp (fieldNode hash) 0 (insertSteps self)
          newRoot := climbUp (fieldNode hash) self.leaf.toBase (insertSteps self)
          isPadding := bitCell (decide (self.leaf.toBase = 0)) } := by
  have hless : run hash inst (IsLessThanChip.assign (modulusBits.map bitCell)
      ((toBits 256 self.leaf.toBase.val).reverse.map bitCell)) = some () := by
    apply run_isLessThan
    exact lexLt_modulusBits self.leaf.toBase
  have hsteps := canonicalSteps D hD self.leaf.toBase (self.path.siblings.map Element.toBase)
  simp only [Insert.enforceConstraints, run_bind, run_assignAdvice, Option.bind_some,
    run_copyDecompose, ← List.map_reverse, hless,
    run_forEach_assignAdvice, hsteps, run_merkleRoot, Note.paddingConstant_eq,
    run_isConstant, run_pure]
  rfl

/-- Padding inserts keep the last root. -/
theorem run_enforceInserts_padding (hD : D ≤ 257) (inserts : List (Insert D)) (last : Fr)
    (hzero : ∀ insert ∈ inserts, insert.leaf.toBase = 0) :
    run hash inst (Batch.enforceInserts hash last inserts) =
      some (last, inserts.map fun insert => insert.leaf.toBase) := by
  induction inserts with
  | nil => rfl
  | cons insert rest ih =>
    have hfirst := hzero insert (List.mem_cons_self ..)
    have hrest := ih fun i hi => hzero i (List.mem_cons_of_mem _ hi)
    simp only [Batch.enforceInserts, run_bind, run_insert hash inst hD, Option.bind_some,
      hfirst, decide_true, run_swapAssigned, swapped, if_true, run_constrainEqual, hrest,
      run_pure, List.map_cons]

theorem run_batch_padding {N : ℕ} (hD : D ≤ 257) (self : Batch N D)
    (hzero : ∀ leaf ∈ self.leafs, leaf = 0) :
    run hash inst (self.enforceConstraints hash) =
      some ⟨self.oldRoot hash, self.oldRoot hash, self.leafs⟩ := by
  have hinserts : ∀ insert ∈ self.inserts.toList, insert.leaf.toBase = 0 := by
    intro insert hinsert
    exact hzero _ (List.mem_map_of_mem hinsert)
  simp only [Batch.enforceConstraints, run_bind, run_assignAdvice, Option.bind_some,
    run_enforceInserts_padding hash inst hD _ _ hinserts, run_pure]
  rfl

/-- The siblings of the default path are the empty trees. -/
theorem climbUp_default (k n : ℕ) :
    climbUp (fieldNode hash) (emptyTreeCache hash k).toBase
        ((List.replicate n false).zip
          (((List.range' (k + 1) n).map (emptyTreeHash hash)).map Element.toBase)) =
      (emptyTreeCache hash (k + n)).toBase := by
  induction n generalizing k with
  | zero => rfl
  | succ n ih =>
    have hnode : fieldNode hash (emptyTreeCache hash k).toBase (emptyTreeCache hash k).toBase =
        (emptyTreeCache hash (k + 1)).toBase := by
      rw [emptyTreeCache, toBase_hashMerge]
      rfl
    have hrest := ih (k + 1)
    rw [← hnode] at hrest
    rw [show k + (n + 1) = k + 1 + n by omega, ← hrest]
    rfl

theorem default_oldRoot {N : ℕ} (hN : 0 < N) :
    (Batch.default hash N D).oldRoot hash = (emptyTreeHash hash D).toBase := by
  have hhead : (Batch.default hash N D).inserts.toList.head? = some (Insert.default hash D) := by
    obtain ⟨n, rfl⟩ : ∃ n, N = n + 1 := ⟨N - 1, by omega⟩
    simp [Batch.default, List.replicate_succ]
  have hbits : MerklePath.leastSignificantBits D Element.zero = List.replicate (D - 1) false := by
    rw [MerklePath.leastSignificantBits_eq]
    exact toBits_zero (D - 1)
  have hclimb := climbUp_default hash 0 (D - 1)
  simp only [Nat.zero_add] at hclimb
  rw [Batch.oldRoot, hhead, Option.map_some, Option.getD_some, Insert.computeNullRoot,
    MerklePath.computeNullRoot, MerklePath.computeRootFromLeaf_toBase, MerklePath.steps]
  change climbUp _ _ ((MerklePath.leastSignificantBits D Element.zero).zip _) = _
  rw [hbits]
  exact hclimb

theorem default_leafs {N : ℕ} : (Batch.default hash N D).leafs = List.replicate N 0 := by
  simp [Batch.leafs, Batch.default, Insert.default]

/-- Copying a list to consecutive rows succeeds when the rows hold the list. -/
theorem run_exposeRows (cells : List Fr) (base : ℕ) :
    (run hash inst (forAll (fun cell : Fr × ℕ => constrainInstance cell.1 (cell.2 + base))
        cells.zipIdx)).isSome ↔ ∀ i < cells.length, inst[i + base]? = cells[i]? := by
  simp only [run_forAll_isSome, run_constrainInstance_isSome]
  constructor
  · intro h i hi
    have hcell := List.getElem?_eq_getElem hi
    rw [hcell]
    exact h (cells[i], i) (List.mk_mem_zipIdx_iff_getElem?.mpr hcell)
  · intro h cell hcell
    obtain ⟨a, i⟩ := cell
    have hget := List.mk_mem_zipIdx_iff_getElem?.mp hcell
    obtain ⟨hi, -⟩ := List.getElem?_eq_some_iff.mp hget
    rw [← hget]
    exact h i hi

/-- Rows that repeat one value hold a list exactly when the list is constant. -/
theorem forall_getElem?_eq_some {α : Type} (xs : List α) (a : α) :
    (∀ i < xs.length, xs[i]? = some a) ↔ ∀ x ∈ xs, x = a := by
  constructor
  · intro h x hx
    obtain ⟨i, hi, rfl⟩ := List.getElem_of_mem hx
    have hrow := h i hi
    rw [List.getElem?_eq_getElem hi] at hrow
    exact Option.some.inj hrow
  · intro h i hi
    rw [List.getElem?_eq_getElem hi, h _ (List.getElem_mem hi)]

/-- A batch of padding is satisfied by instances that expose its old root twice. -/
theorem satisfied_batch_padding {N : ℕ} (hD : D ≤ 257) (self : Batch N D)
    (hzero : ∀ leaf ∈ self.leafs, leaf = 0) :
    Satisfied hash inst (self.synthesize hash) ↔
      inst[0]? = some (self.oldRoot hash) ∧ inst[1]? = some (self.oldRoot hash) ∧
        ∀ i < N, inst[i + 2]? = some 0 := by
  have hlen : self.leafs.length = N := by simp [Batch.leafs]
  have hleafs : (run hash inst (forAll (fun leaf : Fr × ℕ =>
        constrainInstance leaf.1 (leaf.2 + 2)) self.leafs.zipIdx)).isSome ↔
      ∀ i < N, inst[i + 2]? = some 0 := by
    rw [run_exposeRows, hlen]
    apply forall₂_congr
    intro i hi
    have hi' : i < self.leafs.length := by omega
    rw [List.getElem?_eq_getElem hi', hzero _ (List.getElem_mem hi')]
  unfold Satisfied
  rw [Batch.synthesize, run_bind, run_batch_padding hash inst hD self hzero, Option.bind_some,
    run_check_isSome, Batch.enforceInstances, run_check_isSome, run_check_isSome,
    run_constrainInstance_isSome, run_constrainInstance_isSome, hleafs]
  simp

end Inserts

section Batches

variable (hash : List Fr → Fr) {N D : ℕ}

theorem publicInputs_leaf (self : Batch N D) (i : ℕ) :
    (self.publicInputs hash)[i + 2]? = self.leafs[i]? := rfl

theorem batch_newRoot (hD : D ≤ 257) (self : Batch N D)
    (hown : Satisfied hash (self.publicInputs hash) (self.synthesize hash))
    (hzero : ∀ leaf ∈ self.leafs, leaf = 0) : self.newRoot hash = self.oldRoot hash := by
  have hrows := (satisfied_batch_padding hash _ hD self hzero).mp hown
  exact Option.some.inj hrows.2.1

/-- The snark of a batch proves its statement exactly for padding on the empty tree. -/
theorem batch_snark_iff (hD : D ≤ 257) (hN : 0 < N) (self : Batch N D)
    (hown : Satisfied hash (self.publicInputs hash) (self.synthesize hash)) :
    Satisfied hash (batchSnark hash self).2 ((batchSnark hash self).1.synthesize hash) ↔
      self.oldRoot hash = (emptyTreeHash hash D).toBase ∧ ∀ leaf ∈ self.leafs, leaf = 0 := by
  have hlen : self.leafs.length = N := by simp [Batch.leafs]
  have hdefault : ∀ leaf ∈ (Batch.default hash N D).leafs, leaf = 0 := by
    intro leaf hleaf
    rw [default_leafs] at hleaf
    exact List.eq_of_mem_replicate hleaf
  unfold batchSnark
  rw [satisfied_batch_padding hash _ hD _ hdefault, default_oldRoot hash hN]
  simp only [publicInputs_leaf]
  rw [← forall_getElem?_eq_some self.leafs 0, hlen]
  constructor
  · intro h
    exact ⟨Option.some.inj h.1, h.2.2⟩
  · intro h
    have hleafs := (forall_getElem?_eq_some self.leafs 0).mp (by rw [hlen]; exact h.2)
    have hnew := batch_newRoot hash hD self hown hleafs
    refine ⟨congrArg some h.1, ?_, h.2⟩
    change some (self.newRoot hash) = _
    rw [hnew, h.1]

end Batches

section Aggregates

variable {Proof Accumulator : Type} {N D L : ℕ} (V : SnarkVerifier Proof Accumulator)
  (hash : List Fr → Fr) (inst : List Fr)

theorem aggInstances_new (utxo : Vector (Snark Proof) N) (insert : Batch L D) :
    (AggregateUtxo.new V utxo insert).aggInstances =
      V.limbs (V.create (utxo.toList.flatMap V.accumulators)).1 := rfl

theorem aggInstances_length (hV : Faithful V) (utxo : Vector (Snark Proof) N)
    (insert : Batch L D) : (AggregateUtxo.new V utxo insert).aggInstances.length = 12 :=
  hV.limbs_length _

theorem run_enforceSnark (counter : ℕ) (snark : List (List Fr) × ℕ) :
    (run hash inst (AggregateUtxo.enforceSnark counter snark)).isSome ↔
      ∀ j < 3, inst[counter + snark.2 * 3 + j]? = some (cellAt (snark.1.headD []) j) := by
  have hrows : (∀ j < 3, inst[counter + snark.2 * 3 + j]? =
        some (cellAt (snark.1.headD []) j)) ↔
      inst[counter + snark.2 * 3]? = some (cellAt (snark.1.headD []) 0) ∧
        inst[counter + snark.2 * 3 + 1]? = some (cellAt (snark.1.headD []) 1) ∧
          inst[counter + snark.2 * 3 + 2]? = some (cellAt (snark.1.headD []) 2) := by
    constructor
    · intro h
      exact ⟨h 0 (by omega), h 1 (by omega), h 2 (by omega)⟩
    · intro h j hj
      obtain rfl | rfl | rfl : j = 0 ∨ j = 1 ∨ j = 2 := by omega
      · exact h.1
      · exact h.2.1
      · exact h.2.2
  rw [hrows, AggregateUtxo.enforceSnark, run_check_isSome, run_check_isSome,
    run_constrainInstance_isSome, run_constrainInstance_isSome, run_constrainInstance_isSome]

/-- An aggregate made by `new` over a batch of padding, row by row. -/
theorem satisfied_aggregate_padding (hV : Faithful V) (hD : D ≤ 257)
    (utxo : Vector (Snark Proof) N) (insert : Batch L D)
    (hzero : ∀ leaf ∈ insert.leafs, leaf = 0) :
    Satisfied hash inst ((AggregateUtxo.new V utxo insert).enforceConstraints V hash) ↔
      (∀ i < 12, inst[i]? = (AggregateUtxo.new V utxo insert).aggInstances[i]?) ∧
      inst[12]? = some (insert.oldRoot hash) ∧ inst[13]? = some (insert.oldRoot hash) ∧
      (∀ snark ∈ (utxo.toList.map Snark.instances).zipIdx, ∀ j < 3,
        inst[14 + snark.2 * 3 + j]? = some (cellAt (snark.1.headD []) j)) ∧
      ∀ leaf ∈ (((utxo.toList.map Snark.instances).flatMap fun snark =>
        (snark.headD []).drop 3).zip insert.leafs).take L, leaf.1 = leaf.2 := by
  let accs := utxo.toList.flatMap V.accumulators
  have hlimbs := hV.limbs_length (V.create accs).1
  have hfold : V.fold ((AggregateUtxo.new V utxo insert).utxo.toList.flatMap V.accumulators)
      (AggregateUtxo.new V utxo insert).proof = some (V.create accs).1 := hV.fold_create accs
  have hbatch : run hash inst
      ((AggregateUtxo.new V utxo insert).insert.enforceConstraints hash) =
        some ⟨insert.oldRoot hash, insert.oldRoot hash, insert.leafs⟩ :=
    run_batch_padding hash inst hD insert hzero
  have hrows := run_exposeRows hash inst (V.limbs (V.create accs).1) 0
  simp only [Nat.add_zero, hlimbs] at hrows
  have hsnarks := run_forAll_isSome hash inst (AggregateUtxo.enforceSnark 14)
    (utxo.toList.map Snark.instances).zipIdx
  simp only [run_enforceSnark] at hsnarks
  have hleafs := run_forAll_isSome hash inst (fun leaf : Fr × Fr => constrainEqual leaf.1 leaf.2)
    ((((utxo.toList.map Snark.instances).flatMap fun snark =>
      (snark.headD []).drop 3).zip insert.leafs).take L)
  simp only [run_constrainEqual_isSome] at hleafs
  rw [aggInstances_new, ← hrows, ← hsnarks, ← hleafs]
  unfold Satisfied
  rw [AggregateUtxo.enforceConstraints, run_bind, V.run_aggregate, hfold, Option.map_some,
    Option.bind_some]
  dsimp only
  rw [run_bind, hbatch, Option.bind_some, hlimbs, run_check_isSome, run_check_isSome,
    run_check_isSome, run_check_isSome, run_check_isSome, run_constrainInstance_isSome,
    run_constrainInstance_isSome]
  simp [AggregateUtxo.new]

theorem utxo_default_publicInputs :
    (Utxo.default hash D).publicInputs hash = List.replicate 7 0 := by
  have hcommitment : Note.default.commitment hash = Element.zero := by
    simp [Note.default, Note.commitment]
  have hnullifier : (InputNote.default hash D).nullifer hash = Element.zero := by
    rw [InputNote.nullifer, Note.nullifier, if_pos, Note.paddingNote_commitment]
    simp [Note.isPadding, InputNote.default, hcommitment]
  simp [Utxo.publicInputs, Utxo.default, Utxo.leafs, utxoInputs, utxoOutputs, hcommitment,
    hnullifier, List.replicate_succ]

theorem defaultUtxoSnarks_instances (proofs : Vector Proof N) :
    (defaultUtxoSnarks hash D proofs).toList.map Snark.instances =
      List.replicate N [List.replicate 7 0] := by
  rw [List.eq_replicate_iff]
  constructor
  · simp
  · intro column hcolumn
    simp only [defaultUtxoSnarks, Vector.toList_map, List.map_map, List.mem_map,
      Function.comp_apply, Snark.fromWitness, utxo_default_publicInputs] at hcolumn
    obtain ⟨π, -, rfl⟩ := hcolumn
    rfl

theorem utxoPublicInputs_length (self : AggregateUtxo Proof N D L) :
    self.utxoPublicInputs.length = N * 3 := by
  simp [AggregateUtxo.utxoPublicInputs, List.length_flatMap]

/-- Three rows for each default UTXO proof expose zeros. -/
theorem default_rows_iff (column : List Fr) (values : List Fr) (hlen : values.length = N * 3)
    (hrows : ∀ k, column[14 + k]? = values[k]?) :
    (∀ snark ∈ (List.replicate N [List.replicate 7 (0 : Fr)]).zipIdx, ∀ j < 3,
        column[14 + snark.2 * 3 + j]? = some (cellAt (snark.1.headD []) j)) ↔
      ∀ v ∈ values, v = 0 := by
  have hcell : ∀ j < 3, cellAt (List.replicate 7 (0 : Fr)) j = 0 := by
    intro j hj
    obtain rfl | rfl | rfl : j = 0 ∨ j = 1 ∨ j = 2 := by omega
    all_goals rfl
  rw [← forall_getElem?_eq_some, hlen]
  constructor
  · intro h k hk
    have hmem : ([List.replicate 7 (0 : Fr)], k / 3) ∈
        (List.replicate N [List.replicate 7 (0 : Fr)]).zipIdx := by
      rw [List.mk_mem_zipIdx_iff_getElem?, List.getElem?_replicate]
      exact if_pos (by omega)
    have hrow := h _ hmem (k % 3) (by omega)
    dsimp only at hrow
    rw [show 14 + k / 3 * 3 + k % 3 = 14 + k by omega, hrows] at hrow
    rw [hrow]
    exact congrArg some (hcell _ (by omega))
  · intro h snark hsnark j hj
    obtain ⟨instances, i⟩ := snark
    have hget := List.mk_mem_zipIdx_iff_getElem?.mp hsnark
    rw [List.getElem?_replicate] at hget
    by_cases hi : i < N
    · rw [if_pos hi] at hget
      obtain rfl := Option.some.inj hget
      dsimp only
      rw [show 14 + i * 3 + j = 14 + (i * 3 + j) by omega, hrows, h _ (by omega)]
      exact congrArg some (hcell j hj).symm
    · rw [if_neg hi] at hget
      cases hget

theorem aggregateUtxo_rows (hV : Faithful V) (utxo : Vector (Snark Proof) N)
    (insert : Batch L D) :
    let self := AggregateUtxo.new V utxo insert
    (∀ i < 12, (self.publicInputs hash)[i]? = self.aggInstances[i]?) ∧
      (self.publicInputs hash)[12]? = some (insert.oldRoot hash) ∧
      (self.publicInputs hash)[13]? = some (insert.newRoot hash) ∧
      ∀ k, (self.publicInputs hash)[14 + k]? = self.utxoPublicInputs[k]? := by
  intro self
  have hlen : self.aggInstances.length = 12 := aggInstances_length V hV utxo insert
  have hinputs : self.publicInputs hash = self.aggInstances ++
      (insert.oldRoot hash :: insert.newRoot hash :: self.utxoPublicInputs) := by
    simp [AggregateUtxo.publicInputs, self, AggregateUtxo.new]
  rw [hinputs]
  refine ⟨?_, ?_, ?_, ?_⟩
  · intro i hi
    exact List.getElem?_append_left (by omega)
  · rw [List.getElem?_append_right (by omega), hlen]
    rfl
  · rw [List.getElem?_append_right (by omega), hlen]
    rfl
  · intro k
    rw [List.getElem?_append_right (by omega), hlen, show 14 + k - 12 = k + 2 by omega]
    rfl

/-- The snark of an aggregate proves its statement exactly when the aggregate exposes what
the default one exposes. -/
theorem aggregateUtxo_snark_iff (hV : Faithful V) (hD : D ≤ 257) (hL : 0 < L)
    (proofs : Vector Proof N) (utxo : Vector (Snark Proof) N) (insert : Batch L D) :
    let self := AggregateUtxo.new V utxo insert
    let pair := aggregateUtxoSnark V hash proofs self
    Satisfied hash pair.2 (pair.1.enforceConstraints V hash) ↔
      self.aggInstances = (aggregateUtxoDefault V hash D L proofs).aggInstances ∧
        insert.oldRoot hash = (emptyTreeHash hash D).toBase ∧
        insert.newRoot hash = (emptyTreeHash hash D).toBase ∧
        ∀ v ∈ self.utxoPublicInputs, v = 0 := by
  intro self pair
  have hdefault : ∀ leaf ∈ (Batch.default hash L D).leafs, leaf = 0 := by
    intro leaf hleaf
    rw [default_leafs] at hleaf
    exact List.eq_of_mem_replicate hleaf
  have hlen : self.aggInstances.length = 12 := aggInstances_length V hV utxo insert
  have hlen' : (aggregateUtxoDefault V hash D L proofs).aggInstances.length = 12 :=
    aggInstances_length V hV _ _
  obtain ⟨hlimbs, hold, hnew, hvalues⟩ := aggregateUtxo_rows V hash hV utxo insert
  have hsat := satisfied_aggregate_padding V hash (self.publicInputs hash) hV hD
    (defaultUtxoSnarks hash D proofs) (Batch.default hash L D) hdefault
  rw [defaultUtxoSnarks_instances, default_rows_iff (self.publicInputs hash)
    self.utxoPublicInputs (utxoPublicInputs_length self) hvalues, hold, hnew,
    default_oldRoot hash hL] at hsat
  refine hsat.trans ?_
  constructor
  · intro h
    refine ⟨?_, Option.some.inj h.2.1, Option.some.inj h.2.2.1, h.2.2.2.1⟩
    apply List.ext_getElem?
    intro i
    by_cases hi : i < 12
    · rw [← hlimbs i hi, h.1 i hi]
      rfl
    · rw [List.getElem?_eq_none (by omega), List.getElem?_eq_none (by omega)]
  · intro h
    refine ⟨?_, congrArg some h.2.1, congrArg some h.2.2.1, h.2.2.2, ?_⟩
    · intro i hi
      rw [hlimbs i hi, h.1]
      rfl
    · intro leaf hleaf
      have hzip := List.mem_of_mem_take hleaf
      have hleft := (List.of_mem_zip hzip).1
      have hright := (List.of_mem_zip hzip).2
      rw [List.mem_flatMap] at hleft
      obtain ⟨instances, hinstances, hmem⟩ := hleft
      rw [List.eq_of_mem_replicate hinstances] at hmem
      rw [hdefault _ hright]
      exact List.eq_of_mem_replicate (List.mem_of_mem_drop hmem)

/-- The `snark` of a satisfied batch proves its statement exactly for padding on the empty
tree, and the one of an aggregate exactly when its public inputs are the default ones. -/
theorem snark_proves_own_statement_iff (hV : Faithful V) (hD : D ≤ 257) (hL : 0 < L)
    (batch : Batch L D)
    (hbatch : Satisfied hash (batch.publicInputs hash) (batch.synthesize hash))
    (proofs : Vector Proof N) (utxo : Vector (Snark Proof) N) (insert : Batch L D) :
    let self := AggregateUtxo.new V utxo insert
    let pair := aggregateUtxoSnark V hash proofs self
    (Satisfied hash (batchSnark hash batch).2 ((batchSnark hash batch).1.synthesize hash) ↔
      batch.oldRoot hash = (emptyTreeHash hash D).toBase ∧ ∀ leaf ∈ batch.leafs, leaf = 0) ∧
    (Satisfied hash pair.2 (pair.1.enforceConstraints V hash) ↔
      self.aggInstances = (aggregateUtxoDefault V hash D L proofs).aggInstances ∧
        insert.oldRoot hash = (emptyTreeHash hash D).toBase ∧
        insert.newRoot hash = (emptyTreeHash hash D).toBase ∧
        ∀ v ∈ self.utxoPublicInputs, v = 0) :=
  ⟨batch_snark_iff hash hD hL batch hbatch,
    aggregateUtxo_snark_iff V hash hV hD hL proofs utxo insert⟩

end Aggregates

section PaddingTransfers

/-- A verifier whose accumulators carry nothing. -/
private def unitVerifier : SnarkVerifier Unit Unit where
  succinctVerify := fun _ _ _ => ()
  read := fun _ => ()
  limbs := fun _ => List.replicate 12 0
  create := fun _ => ((), ())
  fold := fun _ _ => some ()

private theorem unitVerifier_faithful : Faithful unitVerifier :=
  ⟨fun _ => rfl, fun _ => rfl⟩

private def zeroHash : List Fr → Fr := fun _ => 0

/-- Transfers of padding notes against the recent root 5. -/
private def paddingTransfers : Vector (Snark Unit) 3 :=
  Vector.replicate 3 (Snark.fromWitness .utxo [[5, 0, 0, 0, 0, 0, 0]] ())

private def paddingAggregate : AggregateUtxo Unit 3 161 12 :=
  AggregateUtxo.new unitVerifier paddingTransfers (Batch.default zeroHash 12 161)

private theorem default_newRoot (hash : List Fr → Fr) (N D : ℕ) :
    (Batch.default hash N D).newRoot hash = (Batch.default hash N D).oldRoot hash := by
  have hpadding : (Insert.default hash D).isPadding hash = true := by
    simp [Insert.isPadding, Insert.default]
  have hnone : ((Batch.default hash N D).inserts.toList.reverse.find?
      fun insert => !insert.isPadding hash) = none := by
    rw [List.find?_eq_none]
    intro insert hinsert
    have hmem : insert ∈ List.replicate N (Insert.default hash D) := by
      simpa [Batch.default] using hinsert
    rw [List.eq_of_mem_replicate hmem, hpadding]
    decide
  rw [Batch.newRoot, hnone]
  rfl

private theorem paddingAggregate_values :
    paddingAggregate.utxoPublicInputs = [5, 0, 0, 5, 0, 0, 5, 0, 0] := rfl

private theorem paddingAggregate_satisfied :
    Satisfied zeroHash (paddingAggregate.publicInputs zeroHash)
      (paddingAggregate.enforceConstraints unitVerifier zeroHash) := by
  have hzero : ∀ leaf ∈ (Batch.default zeroHash 12 161).leafs, leaf = 0 := by
    intro leaf hleaf
    rw [default_leafs] at hleaf
    exact List.eq_of_mem_replicate hleaf
  obtain ⟨hlimbs, hold, hnew, hvalues⟩ := aggregateUtxo_rows unitVerifier zeroHash
    unitVerifier_faithful paddingTransfers (Batch.default zeroHash 12 161)
  refine (satisfied_aggregate_padding unitVerifier zeroHash _ unitVerifier_faithful
    (by norm_num) paddingTransfers (Batch.default zeroHash 12 161) hzero).mpr
    ⟨hlimbs, hold, ?_, ?_, ?_⟩
  · rw [← default_newRoot]
    exact hnew
  · intro snark hsnark j hj
    rw [show 14 + snark.2 * 3 + j = 14 + (snark.2 * 3 + j) by omega]
    refine (hvalues _).trans ?_
    have hinstances : (paddingTransfers.toList.map Snark.instances).zipIdx =
        [([[5, 0, 0, 0, 0, 0, 0]], 0), ([[5, 0, 0, 0, 0, 0, 0]], 1),
          ([[5, 0, 0, 0, 0, 0, 0]], 2)] := rfl
    rw [hinstances] at hsnark
    change paddingAggregate.utxoPublicInputs[_]? = _
    rw [paddingAggregate_values]
    simp only [List.mem_cons, List.not_mem_nil, or_false] at hsnark
    obtain rfl | rfl | rfl := hsnark
    all_goals
      obtain rfl | rfl | rfl : j = 0 ∨ j = 1 ∨ j = 2 := by omega
      all_goals rfl
  · intro leaf hleaf
    have hzip := List.mem_of_mem_take hleaf
    have hleft : leaf.1 ∈ List.replicate 12 (0 : Fr) := (List.of_mem_zip hzip).1
    rw [List.eq_of_mem_replicate hleft, hzero _ (List.of_mem_zip hzip).2]

private theorem root_five_ne_zero : (5 : Fr) ≠ 0 := by decide

/-- An aggregate of padding transfers meets its constraints, its `snark` does not. -/
theorem paddingAggregate_snark_unsatisfied :
    Satisfied zeroHash (paddingAggregate.publicInputs zeroHash)
        (paddingAggregate.enforceConstraints unitVerifier zeroHash) ∧
      ¬Satisfied zeroHash
        (aggregateUtxoSnark unitVerifier zeroHash #v[(), (), ()] paddingAggregate).2
        ((aggregateUtxoSnark unitVerifier zeroHash #v[(), (), ()] paddingAggregate).1
          |>.enforceConstraints unitVerifier zeroHash) := by
  refine ⟨paddingAggregate_satisfied, ?_⟩
  intro hsat
  have hcondition := (aggregateUtxo_snark_iff unitVerifier zeroHash unitVerifier_faithful
    (by norm_num) (by norm_num) #v[(), (), ()] paddingTransfers
    (Batch.default zeroHash 12 161)).mp hsat
  have hfirst := hcondition.2.2.2 5 (List.mem_cons_self ..)
  exact root_five_ne_zero hfirst

/-- At the deployed sizes, for the default batch and the aggregate above. -/
theorem snark_proves_own_statement_padding :
    (Satisfied zeroHash (batchSnark zeroHash (Batch.default zeroHash 12 161)).2
        ((batchSnark zeroHash (Batch.default zeroHash 12 161)).1.synthesize zeroHash) ↔
      (Batch.default zeroHash 12 161).oldRoot zeroHash = (emptyTreeHash zeroHash 161).toBase ∧
        ∀ leaf ∈ (Batch.default zeroHash 12 161).leafs, leaf = 0) ∧
    (Satisfied zeroHash
        (aggregateUtxoSnark unitVerifier zeroHash #v[(), (), ()] paddingAggregate).2
        ((aggregateUtxoSnark unitVerifier zeroHash #v[(), (), ()] paddingAggregate).1
          |>.enforceConstraints unitVerifier zeroHash) ↔
      paddingAggregate.aggInstances =
          (aggregateUtxoDefault unitVerifier zeroHash 161 12 #v[(), (), ()]).aggInstances ∧
        (Batch.default zeroHash 12 161).oldRoot zeroHash = (emptyTreeHash zeroHash 161).toBase ∧
        (Batch.default zeroHash 12 161).newRoot zeroHash = (emptyTreeHash zeroHash 161).toBase ∧
        ∀ v ∈ paddingAggregate.utxoPublicInputs, v = 0) := by
  have hleafs : ∀ leaf ∈ (Batch.default zeroHash 12 161).leafs, leaf = 0 := by
    intro leaf hleaf
    rw [default_leafs] at hleaf
    exact List.eq_of_mem_replicate hleaf
  have hbatch : Satisfied zeroHash ((Batch.default zeroHash 12 161).publicInputs zeroHash)
      ((Batch.default zeroHash 12 161).synthesize zeroHash) := by
    refine (satisfied_batch_padding zeroHash _ (by norm_num) _ hleafs).mpr ⟨rfl, ?_, ?_⟩
    · change some ((Batch.default zeroHash 12 161).newRoot zeroHash) = _
      rw [default_newRoot]
    · intro i hi
      rw [publicInputs_leaf, default_leafs, List.getElem?_replicate, if_pos hi]
  exact snark_proves_own_statement_iff unitVerifier zeroHash unitVerifier_faithful (by norm_num)
    (by norm_num) (Batch.default zeroHash 12 161) hbatch #v[(), (), ()] paddingTransfers
    (Batch.default zeroHash 12 161)

end PaddingTransfers
end PayyRollup.SnarkStatement
