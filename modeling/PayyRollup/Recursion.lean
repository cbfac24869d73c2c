import PayyRollup.Aggregation
import PayyRollup.VerifierContracts

/-!
Recursion behind an accepted rollup proof. A proof verifies when its own accumulator passes
the pairing check. Each aggregation level folds the accumulators of the proofs below it and
exposes the limbs of the result, but every protocol is compiled with the number of its
instances alone, so the limbs below are carried and neither folded nor paired again.
-/
namespace PayyRollup.Recursion

open ScalarField ConstraintProgram Layouter InsertCircuit Aggregation VerifierContracts

variable {Proof EvmProof Accumulator : Type}

/-- The symbolic accumulation scheme: limbs are read back, and the pairing check of a folded
accumulator decides every accumulator folded into it. -/
structure Accumulates (V : SnarkVerifier Proof Accumulator) (pairs : Accumulator → Bool) :
    Prop where
  limbs_length : ∀ acc, (V.limbs acc).length = 12
  read_limbs : ∀ acc, V.read (V.limbs acc) = acc
  fold_pairs : ∀ accs asProof acc, V.fold accs asProof = some acc →
    (pairs acc = true ↔ ∀ a ∈ accs, pairs a = true)

/-- The generated verifier pairs what a verification of its protocol yields; the number of
instances is all the protocol is compiled with. -/
def generateVerifier (evm : SnarkVerifier EvmProof Accumulator) (pairs : Accumulator → Bool)
    (vk : CircuitKind) : List Fr → EvmProof → Bool := fun instances proof =>
  (evm.accumulators (Snark.fromWitness vk [instances] proof)).all pairs

theorem generateVerifier_eq (evm : SnarkVerifier EvmProof Accumulator)
    (pairs : Accumulator → Bool) (vk : CircuitKind) (instances : List Fr) (proof : EvmProof) :
    generateVerifier evm pairs vk instances proof =
      pairs (evm.own (Snark.fromWitness vk [instances] proof)) := by
  rw [generateVerifier, evm.accumulators_fromWitness, List.all_cons, List.all_nil,
    Bool.and_true]

section Nestings

variable (V : SnarkVerifier Proof Accumulator) (pairs : Accumulator → Bool)
  (O : HashOracle Fr)

/-- The accumulator that stands for the snark passes the pairing check. -/
def Verifies (s : Snark Proof) : Prop := pairs (V.own s) = true

/-- Witnesses behind a list of snarks: the inner snarks they hold and the limbs carried in
the instances of the aggregates they open. A snark may also stay unopened. -/
inductive Nested : List (Snark Proof) → List (Snark Proof) → List (List Fr) → Prop
  | nil : Nested [] [] []
  | unopened (s : Snark Proof) (rest inner : List (Snark Proof)) (carried : List (List Fr)) :
      Nested rest inner carried → Nested (s :: rest) inner carried
  | aggregateUtxo {N D L : ℕ} (s : Snark Proof) (rest inner : List (Snark Proof))
      (carried : List (List Fr)) (circuit : AggregateUtxo Proof N D L)
      (cells : BatchConstraintCells) :
      s.Shaped .aggUtxo (14 + 3 * N) →
      (∀ snark ∈ circuit.utxo.toList, snark.Shaped .utxo 7) →
      Sat O s.column (circuit.enforceConstraints V O.hash) cells →
      Nested rest inner carried →
      Nested (s :: rest) (circuit.utxo.toList ++ inner) (s.column.take 12 :: carried)
  | aggregateAgg {N : ℕ} (s : Snark Proof) (rest inner below : List (Snark Proof))
      (carried carriedBelow : List (List Fr)) (circuit : AggregateAgg Proof N) (rows : ℕ) :
      s.Shaped .aggAgg rows →
      (∀ snark ∈ circuit.aggregates.toList, ∃ vk rows, snark.Shaped vk rows) →
      Sat O s.column (circuit.enforceConstraints V) () →
      Nested circuit.aggregates.toList below carriedBelow →
      Nested rest inner carried →
      Nested (s :: rest) (circuit.aggregates.toList ++ below ++ inner)
        (s.column.take 12 :: carriedBelow ++ carried)

/-- A nesting of witnesses behind the outermost aggregate with these instances. -/
structure NestedBehind (N : ℕ) (column : List Fr) (inner : List (Snark Proof))
    (carried : List (List Fr)) : Prop where
  opened : ∃ (circuit : AggregateAgg Proof N) (below : List (Snark Proof))
      (carriedBelow : List (List Fr)),
    (∀ snark ∈ circuit.aggregates.toList, ∃ vk rows, snark.Shaped vk rows) ∧
    Sat O column (circuit.enforceConstraints V) () ∧
    Nested V O circuit.aggregates.toList below carriedBelow ∧
    inner = circuit.aggregates.toList ++ below ∧ carried = column.take 12 :: carriedBelow

end Nestings

section Soundness

variable {V : SnarkVerifier Proof Accumulator} {pairs : Accumulator → Bool} {O : HashOracle Fr}

theorem take_eq_limbs (column limbs : List Fr) (n : ℕ) (hlen : limbs.length = n)
    (h : ∀ cell ∈ limbs.zipIdx, column[cell.2]? = some cell.1) : column.take n = limbs := by
  apply List.ext_getElem?
  intro i
  by_cases hi : i < limbs.length
  · have hmem : (limbs[i], i) ∈ limbs.zipIdx :=
      List.mk_mem_zipIdx_iff_getElem?.mpr (List.getElem?_eq_getElem hi)
    rw [List.getElem?_take_of_lt (by omega), h _ hmem, List.getElem?_eq_getElem hi]
  · have htake : (column.take n).length ≤ n := List.length_take_le ..
    rw [List.getElem?_eq_none (by omega), List.getElem?_eq_none (by omega)]

/-- The limbs an aggregate exposes pair exactly when every snark it folds verifies. -/
theorem folded_iff (hV : Accumulates V pairs) (snarks : List (Snark Proof)) (asProof : Proof)
    (acc : Accumulator) (column : List Fr)
    (hshaped : ∀ s ∈ snarks, ∃ vk rows, s.Shaped vk rows)
    (hfold : V.fold (snarks.flatMap V.accumulators) asProof = some acc)
    (hlimb : ∀ cell ∈ (V.limbs acc).zipIdx, column[cell.2]? = some cell.1) :
    pairs (V.read (column.take 12)) = true ↔ ∀ s ∈ snarks, Verifies V pairs s := by
  have hown : snarks.flatMap V.accumulators = snarks.map V.own := by
    rw [← List.flatMap_singleton' (snarks.map V.own), List.flatMap_map]
    apply List.flatMap_congr
    intro s hs
    obtain ⟨vk, rows, h⟩ := hshaped s hs
    exact V.accumulators_shaped s vk rows h
  rw [take_eq_limbs column _ 12 (hV.limbs_length acc) hlimb, hV.read_limbs,
    hV.fold_pairs _ _ _ hfold, hown, List.forall_mem_map]
  rfl

/-- One level: what an aggregate of aggregates folds. -/
theorem aggregateAgg_iff {N : ℕ} (hV : Accumulates V pairs) (circuit : AggregateAgg Proof N)
    (column : List Fr)
    (hshaped : ∀ snark ∈ circuit.aggregates.toList, ∃ vk rows, snark.Shaped vk rows)
    (hsat : Sat O column (circuit.enforceConstraints V) ()) :
    pairs (V.read (column.take 12)) = true ↔
      ∀ s ∈ circuit.aggregates.toList, Verifies V pairs s := by
  obtain ⟨acc, h⟩ := (sat_aggregateAgg V O column circuit).mp hsat
  exact folded_iff hV _ _ acc column hshaped h.fold h.limb

theorem aggregateUtxo_iff {N D L : ℕ} (hV : Accumulates V pairs)
    (circuit : AggregateUtxo Proof N D L) (cells : BatchConstraintCells) (column : List Fr)
    (hshaped : ∀ snark ∈ circuit.utxo.toList, snark.Shaped .utxo 7)
    (hsat : Sat O column (circuit.enforceConstraints V O.hash) cells) :
    pairs (V.read (column.take 12)) = true ↔
      ∀ s ∈ circuit.utxo.toList, Verifies V pairs s := by
  obtain ⟨acc, h⟩ := (sat_aggregateUtxo V O column circuit cells).mp hsat
  refine folded_iff hV _ _ acc column ?_ h.fold h.limb
  intro s hs
  exact ⟨_, _, hshaped s hs⟩

/-- Below any list of snarks, all inner snarks verify exactly when all carried limbs pair. -/
theorem nested_iff (hV : Accumulates V pairs) (snarks inner : List (Snark Proof))
    (carried : List (List Fr)) (h : Nested V O snarks inner carried) :
    (∀ s ∈ inner, Verifies V pairs s) ↔ ∀ limbs ∈ carried, pairs (V.read limbs) = true := by
  induction h with
  | nil => simp
  | unopened s rest inner carried _ ih => exact ih
  | aggregateUtxo s rest inner carried circuit cells _ hshaped hsat _ ih =>
    rw [List.forall_mem_append, List.forall_mem_cons, ih,
      aggregateUtxo_iff hV circuit cells s.column hshaped hsat]
  | aggregateAgg s rest inner below carried carriedBelow circuit rows _ hshaped hsat _ _ ihBelow
      ih =>
    rw [List.forall_mem_append, List.forall_mem_append, List.cons_append, List.forall_mem_cons,
      List.forall_mem_append, ih, ihBelow, aggregateAgg_iff hV circuit s.column hshaped hsat,
      and_assoc]

theorem nestedBehind_iff {N : ℕ} (hV : Accumulates V pairs) (column : List Fr)
    (inner : List (Snark Proof)) (carried : List (List Fr))
    (h : NestedBehind V O N column inner carried) :
    (∀ s ∈ inner, Verifies V pairs s) ↔ ∀ limbs ∈ carried, pairs (V.read limbs) = true := by
  obtain ⟨circuit, below, carriedBelow, hshaped, hsat, hnested, rfl, rfl⟩ := h.opened
  rw [List.forall_mem_append, List.forall_mem_cons, nested_iff hV _ _ _ hnested,
    aggregateAgg_iff hV circuit column hshaped hsat]

/-- Behind every accepted rollup proof the outermost proof verifies, and the inner snarks
verify exactly when the accumulators passed to the contract and carried below pair. -/
theorem accepted_inner_snarks_verify_iff (hV : Accumulates V pairs)
    (evm : SnarkVerifier EvmProof Accumulator) (N : ℕ) (aggrProof : EvmProof)
    (aggrInstances : Vector Element 12) (oldRoot newRoot : Element)
    (utxoHashes : Vector Element 18) (inner : List (Snark Proof)) (carried : List (List Fr))
    (haccept : AggregateVerifierV1.verify (generateVerifier evm pairs .aggAgg) aggrProof
      aggrInstances oldRoot newRoot utxoHashes = .ok ())
    (hnested : NestedBehind V O N ((AggregateVerifierV1.instances aggrInstances oldRoot newRoot
      utxoHashes).map Element.toBase) inner carried) :
    Verifies evm pairs (Snark.fromWitness .aggAgg [(AggregateVerifierV1.instances aggrInstances
      oldRoot newRoot utxoHashes).map Element.toBase] aggrProof) ∧
    (∃ below, carried = aggrInstances.toList.map Element.toBase :: below) ∧
    ((∀ s ∈ inner, Verifies V pairs s) ↔ ∀ limbs ∈ carried, pairs (V.read limbs) = true) := by
  refine ⟨?_, ?_, nestedBehind_iff hV _ inner carried hnested⟩
  · have hpairs := ((verifyInstances_ok _ aggrProof _ ()).mp haccept).2
    rw [generateVerifier_eq] at hpairs
    exact hpairs
  · obtain ⟨circuit, below, carriedBelow, -, -, -, -, rfl⟩ := hnested.opened
    refine ⟨carriedBelow, ?_⟩
    rw [← List.map_take, AggregateVerifierV1.instances, List.append_assoc,
      List.take_left' (by simp)]

end Soundness

section Forgery

/-- A scheme whose proofs and accumulators are the truth of what they stand for. -/
private def boolVerifier : SnarkVerifier Bool Bool where
  succinctVerify := fun _ _ valid => valid
  read := fun limbs => decide (limbs.headD 0 = 1)
  limbs := fun valid => (if valid then 1 else 0) :: List.replicate 11 0
  create := fun accs => (accs.all id, true)
  fold := fun accs _ => some (accs.all id)

private theorem boolVerifier_accumulates : Accumulates boolVerifier id := by
  refine ⟨fun _ => rfl, ?_, ?_⟩
  · intro acc
    cases acc <;> decide
  · intro accs asProof acc h
    obtain rfl : accs.all id = acc := Option.some.inj h
    exact List.all_eq_true

private def noOracle : HashOracle Fr := ⟨fun _ => 0, Set.univ⟩

/-- The column of a forged aggregate that moves the root from 0 to 7. -/
private def forgedColumn : List Fr := List.replicate 13 0 ++ [7] ++ List.replicate 18 0

private def forgedAggregate : Snark Bool := Snark.fromWitness .aggAgg [forgedColumn] false

private def forgedInstances : Vector Element 12 := Vector.replicate 12 0#256

private def forgedHashes : Vector Element 18 := Vector.replicate 18 0#256

private def forgedOuter : AggregateAgg Bool 1 := ⟨#v[forgedAggregate], [], true⟩

private theorem forged_instances :
    (AggregateVerifierV1.instances forgedInstances 0#256 7#256 forgedHashes).map
      Element.toBase = forgedColumn := by
  change (List.replicate 12 (0#256 : Element) ++ [0#256, 7#256] ++
    List.replicate 18 (0#256 : Element)).map Element.toBase = forgedColumn
  decide

private theorem forgedOuter_sat :
    Sat noOracle forgedColumn (forgedOuter.enforceConstraints boolVerifier) () := by
  rw [sat_aggregateAgg]
  have hroots : RootsChained 0 [forgedColumn] 7 := by
    refine ⟨?_, ?_⟩
    · decide
    · change (7 : Fr) = cellAt forgedColumn 13
      decide
  refine ⟨false, rfl, ?_, ⟨0, 7, by decide, by decide, by decide,
    hroots⟩, ?_⟩
  · change ∀ cell ∈ (List.replicate 12 (0 : Fr)).zipIdx, forgedColumn[cell.2]? = some cell.1
    decide
  · change ∀ v ∈ (List.replicate 18 (0 : Fr)).zipIdx, forgedColumn[14 + v.2]? = some v.1
    decide

private theorem forged_nested :
    NestedBehind boolVerifier noOracle 1
      ((AggregateVerifierV1.instances forgedInstances 0#256 7#256 forgedHashes).map
        Element.toBase) [forgedAggregate] [List.replicate 12 0] := by
  rw [forged_instances]
  refine ⟨forgedOuter, [], [], ?_, forgedOuter_sat, ?_, rfl, rfl⟩
  · intro snark hsnark
    obtain rfl : snark = forgedAggregate := List.mem_singleton.mp hsnark
    exact ⟨.aggAgg, 32, rfl, rfl, rfl⟩
  · exact Nested.unopened _ _ _ _ Nested.nil

private theorem forgedWord_zero : (0#256 : Element).toNat < modulus := by decide

private theorem forgedWord_seven : (7#256 : Element).toNat < modulus := by decide

private theorem forged_accepted :
    AggregateVerifierV1.verify (generateVerifier boolVerifier id .aggAgg) true forgedInstances
      0#256 7#256 forgedHashes = .ok () := by
  refine (verifyInstances_ok _ true _ ()).mpr ⟨?_, ?_⟩
  · change ∀ x ∈ List.replicate 12 (0#256 : Element) ++ [0#256, 7#256] ++
      List.replicate 18 (0#256 : Element), x.toNat < modulus
    intro x hx
    have hcases : x = 0#256 ∨ x = 7#256 := by
      simp only [List.mem_append, List.mem_replicate, List.mem_cons, List.not_mem_nil] at hx
      tauto
    rcases hcases with rfl | rfl
    · exact forgedWord_zero
    · exact forgedWord_seven
  · rw [generateVerifier_eq]
    rfl

/-- The contract accepts a proof over a forged aggregate, which does not verify. -/
theorem accepted_forged_aggregate :
    Accumulates boolVerifier id ∧
    AggregateVerifierV1.verify (generateVerifier boolVerifier id .aggAgg) true forgedInstances
      0#256 7#256 forgedHashes = .ok () ∧
    NestedBehind boolVerifier noOracle 1
      ((AggregateVerifierV1.instances forgedInstances 0#256 7#256 forgedHashes).map
        Element.toBase) [forgedAggregate] [List.replicate 12 0] ∧
    ¬∀ s ∈ [forgedAggregate], Verifies boolVerifier id s := by
  refine ⟨boolVerifier_accumulates, forged_accepted, forged_nested, ?_⟩
  intro h
  cases h forgedAggregate (List.mem_singleton.mpr rfl)

/-- For the forged aggregate the accumulator passed to the contract does not pair. -/
theorem accepted_inner_snarks_verify_forged :
    Verifies boolVerifier id (Snark.fromWitness .aggAgg [(AggregateVerifierV1.instances
      forgedInstances 0#256 7#256 forgedHashes).map Element.toBase] true) ∧
    (∃ below, [List.replicate 12 0] = forgedInstances.toList.map Element.toBase :: below) ∧
    ((∀ s ∈ [forgedAggregate], Verifies boolVerifier id s) ↔
      ∀ limbs ∈ [List.replicate 12 0], id (boolVerifier.read limbs) = true) :=
  accepted_inner_snarks_verify_iff boolVerifier_accumulates boolVerifier 1 true forgedInstances
    0#256 7#256 forgedHashes [forgedAggregate] [List.replicate 12 0] forged_accepted
    forged_nested

end Forgery
end PayyRollup.Recursion
