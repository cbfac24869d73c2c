import PayyRollup.RollupProof

/-!
Rollup proofs from their parts. With a verifier whose accumulators carry nothing, the rows of
twelve zero limbs, two roots and the values of six transactions are accepted when their UTXO
proofs are, and when their leaves can be inserted one after the other between the two roots.
-/
namespace PayyRollup.PlainProofs

open ScalarField ConstraintProgram Layouter Chips Gadgets SparseMerkle InsertCircuit UtxoCircuit
  BatchSoundness BridgeCircuits Aggregation RollupProof

variable {O : HashOracle Fr} {D : ℕ}

/-- A verifier whose accumulators carry nothing. -/
def plainVerifier : SnarkVerifier Unit Unit where
  succinctVerify := fun _ _ _ => ()
  read := fun _ => ()
  limbs := fun _ => List.replicate 12 0
  create := fun _ => ((), ())
  fold := fun _ _ => some ()

def snarkOf (vk : CircuitKind) (column : List Fr) : Snark Unit :=
  Snark.fromWitness vk [column] ()

theorem snarkOf_shaped (vk : CircuitKind) (column : List Fr) :
    (snarkOf vk column).Shaped vk column.length := by
  refine ⟨?_, rfl, rfl⟩
  simp [snarkOf, Snark.fromWitness]

section Inserts

variable (hD : D ≤ 257) (inst : List Fr)

include hD

/-- A leaf that is not zero moves the root; a zero leaf keeps any. -/
theorem insertLeaf_sat (insert : Insert D) (rest : List (Insert D)) (cells : InsertConstraintCells)
    (siblings : List Fr) (hinserts : Inserts O D cells siblings) (root out : Fr)
    (leafs : List Fr) (hold : cells.newLeaf ≠ 0 → root = cells.oldRoot)
    (hrest : Sat O inst (Batch.enforceInserts O.hash
      (if cells.newLeaf = 0 then root else cells.newRoot) rest) (out, leafs)) :
    Sat O inst (Batch.enforceInserts O.hash root (insert :: rest))
      (out, cells.newLeaf :: leafs) := by
  simp only [Batch.enforceInserts, sat_bind, sat_swapAssigned, sat_constrainEqual, sat_pure]
  have hflag := hinserts.is_padding
  refine ⟨cells, (sat_insert O O.hash inst hD insert cells).mpr ⟨siblings, hinserts⟩, _,
    ⟨decide (cells.newLeaf = 0), hflag, rfl⟩, _, ⟨decide (cells.newLeaf = 0), hflag, rfl⟩, (), ?_,
    (out, leafs), ?_, rfl⟩
  · rw [swapped_fst]
    by_cases hleaf : cells.newLeaf = 0
    · simp [hleaf]
    · simp [hleaf, hold hleaf]
  · rw [swapped_fst, swapped_fst]
    by_cases hleaf : cells.newLeaf = 0
    · simpa [hleaf] using hrest
    · simpa [hleaf] using hrest

/-- Padding keeps the root. -/
theorem insertPadding_sat (cells : InsertConstraintCells) (hzero : cells.newLeaf = 0)
    (siblings : List Fr) (hinserts : Inserts O D cells siblings) (inserts : List (Insert D))
    (root : Fr) :
    Sat O inst (Batch.enforceInserts O.hash root inserts)
      (root, List.replicate inserts.length 0) := by
  induction inserts with
  | nil => rfl
  | cons insert rest ih =>
    have h := insertLeaf_sat hD inst insert rest cells siblings hinserts root root
      (List.replicate rest.length 0) (fun hne => absurd hzero hne)
      (by rw [if_pos hzero]; exact ih)
    rw [hzero] at h
    exact h

omit hD in
theorem batch_sat (root out : Fr) (leafs : List Fr)
    (h : ∀ insert : Insert D, Sat O inst
      (Batch.enforceInserts O.hash root (List.replicate 12 insert)) (out, leafs)) :
    Sat O inst ((Batch.default O.hash 12 D).enforceConstraints O.hash) ⟨root, out, leafs⟩ := by
  simp only [Batch.enforceConstraints, sat_bind, sat_assignAdvice, sat_pure, true_and]
  refine ⟨root, (out, leafs), ?_, rfl⟩
  rw [Batch.default, Vector.toList_replicate]
  exact h _

end Inserts

theorem aggregateUtxo_accepts (columns : Vector (List Fr) 3) (cells : BatchConstraintCells)
    (column : List Fr)
    (haccepts : ∀ c ∈ columns.toList, c.length = 7 ∧ UtxoAccepts O D c)
    (hbatch : Sat O column ((Batch.default O.hash 12 D).enforceConstraints O.hash) cells)
    (hlimb : ∀ cell ∈ (List.replicate 12 (0 : Fr)).zipIdx, column[cell.2]? = some cell.1)
    (hroots : column[12]? = some cells.oldRoot ∧ column[13]? = some cells.newRoot)
    (hvalue : ∀ c ∈ columns.toList.zipIdx, ∀ j < 3,
      column[14 + c.2 * 3 + j]? = some (cellAt c.1 j))
    (hleaf : (columns.toList.flatMap fun c => c.drop 3) = cells.leafs) :
    AggregateUtxoAccepts plainVerifier O D column := by
  have hinstances : ((columns.map (snarkOf .utxo)).toList.map Snark.instances) =
      columns.toList.map fun c => [c] := by
    rw [Vector.toList_map, List.map_map]
    rfl
  refine ⟨⟨columns.map (snarkOf .utxo), Batch.default O.hash 12 D, [], ()⟩, cells,
    fun s hs => ?_, (sat_aggregateUtxo plainVerifier O _ _ _).mpr
      ⟨(), rfl, hbatch, hlimb, hroots.1, hroots.2, ?_, ?_⟩⟩
  · rw [Vector.toList_map] at hs
    obtain ⟨c, hc, rfl⟩ := List.mem_map.mp hs
    obtain ⟨hlen, hsat⟩ := haccepts c hc
    refine ⟨?_, hsat⟩
    rw [← hlen]
    exact snarkOf_shaped _ _
  · rw [hinstances]
    rintro ⟨instances, i⟩ hsnark j hj
    rw [List.zipIdx_map] at hsnark
    obtain ⟨⟨c, k⟩, hc, heq⟩ := List.mem_map.mp hsnark
    cases heq
    exact hvalue _ hc j hj
  · rw [hinstances, List.flatMap_map]
    intro leaf hmem
    have hzip := List.mem_of_mem_take hmem
    change leaf ∈ (columns.toList.flatMap fun c => c.drop 3).zip cells.leafs at hzip
    rw [← hleaf] at hzip
    obtain ⟨i, hi, rfl⟩ := List.getElem_of_mem hzip
    rw [List.getElem_zip]

theorem aggregateAgg_accepts {N rows : ℕ} {vk : CircuitKind} {inner : List Fr → Prop}
    (columns : Vector (List Fr) N) (column : List Fr) (oldRoot newRoot : Fr)
    (hinner : ∀ c ∈ columns.toList, c.length = rows ∧ inner c)
    (hlimb : ∀ cell ∈ (List.replicate 12 (0 : Fr)).zipIdx, column[cell.2]? = some cell.1)
    (hroots : column[12]? = some oldRoot ∧ column[13]? = some newRoot)
    (hhead : oldRoot = cellAt (columns.toList.headD []) 12)
    (hchain : RootsChained oldRoot columns.toList newRoot)
    (hvalue : ∀ v ∈ (columns.toList.flatMap fun c => c.drop 14).zipIdx,
      column[14 + v.2]? = some v.1) :
    AggregateAggAccepts plainVerifier O N vk rows inner column := by
  have hcolumns : ((columns.map (snarkOf vk)).toList.map Snark.column) = columns.toList := by
    rw [Vector.toList_map, List.map_map]
    exact List.map_id _
  refine ⟨⟨columns.map (snarkOf vk), [], ()⟩, fun s hs => ?_,
    (sat_aggregateAgg plainVerifier O _ _).mpr ⟨(), rfl, hlimb, ?_, ?_⟩⟩
  · rw [Vector.toList_map] at hs
    obtain ⟨c, hc, rfl⟩ := List.mem_map.mp hs
    obtain ⟨hlen, haccepts⟩ := hinner c hc
    refine ⟨?_, haccepts⟩
    rw [← hlen]
    exact snarkOf_shaped _ _
  · rw [hcolumns]
    exact ⟨oldRoot, newRoot, hroots.1, hroots.2, hhead, hchain⟩
  · rw [hcolumns]
    exact hvalue

section Rows

/-- The rows of an accumulator that carries nothing, of two roots and of some values. -/
def rowsOf (oldRoot newRoot : Fr) (values : List Fr) : List Fr :=
  List.replicate 12 0 ++ oldRoot :: newRoot :: values

theorem rowsOf_limbs (oldRoot newRoot : Fr) (values : List Fr) :
    ∀ cell ∈ (List.replicate 12 (0 : Fr)).zipIdx,
      (rowsOf oldRoot newRoot values)[cell.2]? = some cell.1 := by
  rintro ⟨limb, i⟩ hcell
  have hlimb := List.mk_mem_zipIdx_iff_getElem?.mp hcell
  have hlt : i < (List.replicate 12 (0 : Fr)).length := (List.getElem?_eq_some_iff.mp hlimb).1
  rw [rowsOf, List.getElem?_append_left hlt]
  exact hlimb

theorem rowsOf_value (oldRoot newRoot : Fr) (values : List Fr) (i : ℕ) :
    (rowsOf oldRoot newRoot values)[14 + i]? = values[i]? := by
  rw [rowsOf, List.getElem?_append_right (by simp; omega), List.length_replicate]
  have hrow : 14 + i - 12 = i + 1 + 1 := by omega
  rw [hrow]
  rfl

/-- The values that a UTXO proof exposes. -/
def exposed (column : List Fr) : List Fr := [cellAt column 0, cellAt column 1, cellAt column 2]

theorem aggregateRows_accepts (a b c : List Fr) (oldRoot newRoot : Fr)
    (haccepts : ∀ column ∈ [a, b, c], column.length = 7 ∧ UtxoAccepts O D column)
    (leafs : List Fr) (hleafs : ([a, b, c].flatMap fun column => column.drop 3) = leafs)
    (hbatch : ∀ inst, ∀ insert : Insert D, Sat O inst (Batch.enforceInserts O.hash oldRoot
      (List.replicate 12 insert)) (newRoot, leafs)) :
    AggregateUtxoAccepts plainVerifier O D
      (rowsOf oldRoot newRoot ([a, b, c].flatMap exposed)) := by
  refine aggregateUtxo_accepts #v[a, b, c] ⟨oldRoot, newRoot, leafs⟩ _ haccepts
    (batch_sat _ oldRoot newRoot leafs (hbatch _)) (rowsOf_limbs _ _ _) ⟨rfl, rfl⟩ ?_ hleafs
  rintro ⟨column, i⟩ hcolumn j hj
  have hat : [a, b, c][i]? = some column := List.mk_mem_zipIdx_iff_getElem?.mp hcolumn
  have hi : i < 3 := (List.getElem?_eq_some_iff.mp hat).1
  rw [Nat.add_assoc, rowsOf_value]
  obtain rfl | rfl | rfl : j = 0 ∨ j = 1 ∨ j = 2 := by omega
  all_goals
    obtain rfl | rfl | rfl : i = 0 ∨ i = 1 ∨ i = 2 := by omega
  all_goals
    obtain rfl := Option.some.inj hat
    rfl

/-- A rollup proof of two aggregates, the second of which goes on from the root of the first. -/
theorem rollupRows_accepts (oldRoot midRoot newRoot : Fr) (first second : List Fr)
    (hlength : first.length = 9 ∧ second.length = 9)
    (hfirst : AggregateUtxoAccepts plainVerifier O D (rowsOf oldRoot midRoot first))
    (hsecond : AggregateUtxoAccepts plainVerifier O D (rowsOf midRoot newRoot second)) :
    RollupAccepts plainVerifier O D (rowsOf oldRoot newRoot (first ++ second)) := by
  have hvalues : ∀ values : List Fr, ∀ v ∈ values.zipIdx,
      (rowsOf oldRoot newRoot values)[14 + v.2]? = some v.1 := by
    rintro values ⟨v, i⟩ hv
    rw [rowsOf_value]
    exact List.mk_mem_zipIdx_iff_getElem?.mp hv
  have hinner : AggregateAggAccepts plainVerifier O 2 .aggUtxo 23
      (AggregateUtxoAccepts plainVerifier O D) (rowsOf oldRoot newRoot (first ++ second)) := by
    refine aggregateAgg_accepts #v[rowsOf oldRoot midRoot first, rowsOf midRoot newRoot second] _
      oldRoot newRoot ?_ (rowsOf_limbs _ _ _) ⟨rfl, rfl⟩ rfl ⟨rfl, rfl, rfl⟩ ?_
    · intro c hc
      simp only [Vector.toList_mk, List.mem_cons, List.not_mem_nil, or_false] at hc
      rcases hc with rfl | rfl
      · exact ⟨by simp [rowsOf, hlength.1], hfirst⟩
      · exact ⟨by simp [rowsOf, hlength.2], hsecond⟩
    · have htwo : ([rowsOf oldRoot midRoot first, rowsOf midRoot newRoot second].flatMap
          fun c => c.drop 14) = first ++ second := by simp [rowsOf]
      intro v hv
      change v ∈ ([rowsOf oldRoot midRoot first, rowsOf midRoot newRoot second].flatMap
        fun c => c.drop 14).zipIdx at hv
      rw [htwo] at hv
      exact hvalues _ v hv
  refine aggregateAgg_accepts #v[rowsOf oldRoot newRoot (first ++ second)] _ oldRoot newRoot ?_
    (rowsOf_limbs _ _ _) ⟨rfl, rfl⟩ rfl ⟨rfl, rfl⟩ ?_
  · intro c hc
    obtain rfl := List.mem_singleton.mp hc
    exact ⟨by simp [rowsOf, hlength.1, hlength.2], hinner⟩
  · have hone : ([rowsOf oldRoot newRoot (first ++ second)].flatMap fun c => c.drop 14) =
        first ++ second := by simp [rowsOf]
    intro v hv
    change v ∈ ([rowsOf oldRoot newRoot (first ++ second)].flatMap fun c => c.drop 14).zipIdx at hv
    rw [hone] at hv
    exact hvalues _ v hv

end Rows
end PayyRollup.PlainProofs
