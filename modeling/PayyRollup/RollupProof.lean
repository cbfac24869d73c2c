import PayyRollup.Aggregation
import PayyRollup.BatchSoundness
import PayyRollup.BridgeCircuits

/-!
What an accepted rollup proof moves when every snark inside it is satisfied by its circuit.
The outermost aggregate holds one aggregate of two aggregates of three UTXO proofs. Its
roots are those of a tree before and after the insertion of the non-zero leaves of the six
UTXO proofs, and its last eighteen rows are their roots, hashes and values.
-/
namespace PayyRollup.RollupProof

open ScalarField ConstraintProgram Layouter SparseMerkle InsertCircuit BatchSoundness
  BridgeCircuits Aggregation

variable {Proof Accumulator : Type} (V : SnarkVerifier Proof Accumulator) (O : HashOracle Fr)
  (D : ℕ)

/-- An aggregate of three UTXO proofs satisfied down to the UTXO circuit. -/
def AggregateUtxoAccepts (column : List Fr) : Prop :=
  ∃ (circuit : AggregateUtxo Proof 3 D 12) (cells : BatchConstraintCells),
    (∀ s ∈ circuit.utxo.toList, s.Shaped .utxo 7 ∧ UtxoAccepts O D s.column) ∧
      Sat O column (circuit.enforceConstraints V O.hash) cells

/-- An aggregate of aggregates satisfied down to what its aggregates accept. -/
def AggregateAggAccepts (N : ℕ) (vk : CircuitKind) (rows : ℕ) (inner : List Fr → Prop)
    (column : List Fr) : Prop :=
  ∃ circuit : AggregateAgg Proof N,
    (∀ s ∈ circuit.aggregates.toList, s.Shaped vk rows ∧ inner s.column) ∧
      Sat O column (circuit.enforceConstraints V) ()

/-- The proofs the contract accepts: every snark inside is satisfied by its circuit. -/
def RollupAccepts (column : List Fr) : Prop :=
  AggregateAggAccepts V O 1 .aggAgg 32
    (AggregateAggAccepts V O 2 .aggUtxo 23 (AggregateUtxoAccepts V O D)) column

/-- The leaves of UTXO columns in slot order. -/
def utxoLeafs (utxos : List (List Fr)) : List Fr := utxos.flatMap fun column => column.drop 3

/-- The roots, hashes and values of UTXO columns in order. -/
def utxoValues (utxos : List (List Fr)) : List Fr := utxos.flatMap fun column => column.take 3

/-- A column moves a root over the leaves of satisfied UTXO proofs whose values it exposes. -/
structure MovesRoot (column : List Fr) (utxos : List (List Fr)) : Prop where
  accepts : ∀ utxo ∈ utxos, utxo.length = 7 ∧ UtxoAccepts O D utxo
  values : column.drop 14 = utxoValues utxos
  moves : ∀ T : NotesTree D, TreeHashed O D T → cellAt column 12 = notesRoot O D T →
    ∃ S, T.insertAll (nonZero (utxoLeafs utxos)) = some S ∧ TreeHashed O D S ∧
      cellAt column 13 = notesRoot O D S

section Lists

/-- Rows that hold a list from some row on, up to the end of the column. -/
theorem drop_eq_of_rows (column values : List Fr) (base : ℕ)
    (hlen : column.length = base + values.length)
    (h : ∀ v ∈ values.zipIdx, column[base + v.2]? = some v.1) : column.drop base = values := by
  apply List.ext_getElem?
  intro i
  rw [List.getElem?_drop]
  by_cases hi : i < values.length
  · have hmem : (values[i], i) ∈ values.zipIdx :=
      List.mk_mem_zipIdx_iff_getElem?.mpr (List.getElem?_eq_getElem hi)
    rw [h _ hmem, List.getElem?_eq_getElem hi]
  · rw [List.getElem?_eq_none (by omega), List.getElem?_eq_none (by omega)]

theorem cellAt_of_row (column : List Fr) (row : ℕ) (v : Fr) (h : column[row]? = some v) :
    cellAt column row = v := by
  rw [cellAt, List.getD_eq_getElem?_getD, h, Option.getD_some]

theorem eq_of_zip_eq (xs ys : List Fr) (hlen : xs.length = ys.length)
    (h : ∀ p ∈ xs.zip ys, p.1 = p.2) : xs = ys := by
  induction xs generalizing ys with
  | nil => exact (List.length_eq_zero_iff.mp hlen.symm).symm
  | cons x xs ih =>
    cases ys with
    | nil => simp at hlen
    | cons y ys =>
      rw [List.zip_cons_cons, List.forall_mem_cons] at h
      obtain ⟨hxy, hrest⟩ := h
      have htail := ih ys (by simpa using hlen) hrest
      dsimp only at hxy
      rw [hxy, htail]

theorem flatMap_length (xs : List (List Fr)) (f : List Fr → List Fr) (n : ℕ)
    (h : ∀ x ∈ xs, (f x).length = n) : (xs.flatMap f).length = xs.length * n := by
  induction xs with
  | nil => simp
  | cons x rest ih =>
    have hx := h x (List.mem_cons_self ..)
    have hrest := ih fun y hy => h y (List.mem_cons_of_mem _ hy)
    rw [List.flatMap_cons, List.length_append, hx, hrest, List.length_cons, Nat.succ_mul]
    omega

end Lists

variable {V O D}

/-- The three rows of each UTXO proof, written as one list. -/
theorem values_of_rows (column : List Fr) (utxos : List (List Fr)) (base : ℕ)
    (hlen : column.length = base + utxos.length * 3)
    (hutxo : ∀ utxo ∈ utxos, utxo.length = 7)
    (h : ∀ utxo ∈ utxos.zipIdx, ∀ j < 3,
      column[base + utxo.2 * 3 + j]? = some (cellAt utxo.1 j)) :
    column.drop base = utxoValues utxos := by
  induction utxos generalizing base with
  | nil =>
    rw [List.drop_eq_nil_of_le (by simp at hlen; omega)]
    rfl
  | cons utxo rest ih =>
    have hlen7 := hutxo utxo (List.mem_cons_self ..)
    have hrest := ih (base + 3) (by rw [hlen, List.length_cons]; omega)
      (fun u hu => hutxo u (List.mem_cons_of_mem _ hu)) (by
        intro u hu j hj
        have hmem : (u.1, u.2 + 1) ∈ (utxo :: rest).zipIdx := by
          rw [List.mk_mem_zipIdx_iff_getElem?, List.getElem?_cons_succ]
          exact List.mk_mem_zipIdx_iff_getElem?.mp hu
        have hrow := h _ hmem j hj
        dsimp only at hrow
        rw [show base + 3 + u.2 * 3 + j = base + (u.2 + 1) * 3 + j by omega]
        exact hrow)
    have hfirst : ∀ j < 3, column[base + j]? = utxo[j]? := by
      intro j hj
      have hmem : (utxo, 0) ∈ (utxo :: rest).zipIdx :=
        List.mk_mem_zipIdx_iff_getElem?.mpr rfl
      have hrow := h _ hmem j hj
      dsimp only at hrow
      rw [Nat.zero_mul, Nat.add_zero] at hrow
      rw [hrow, cellAt, List.getD_eq_getElem?_getD, List.getElem?_eq_getElem (by omega),
        Option.getD_some]
    rw [utxoValues, List.flatMap_cons, ← utxoValues, ← hrest]
    apply List.ext_getElem?
    intro i
    rw [List.getElem?_drop]
    have htake : (utxo.take 3).length = 3 := by rw [List.length_take]; omega
    by_cases hi : i < 3
    · rw [List.getElem?_append_left (by omega), List.getElem?_take_of_lt hi, hfirst i hi]
    · rw [List.getElem?_append_right (by omega), htake, List.getElem?_drop,
        show base + 3 + (i - 3) = base + i by omega]

/-- One aggregate of UTXO proofs inserts every non-zero leaf of its UTXO proofs. -/
theorem aggregateUtxo_moves (hlimbs : ∀ acc, (V.limbs acc).length = 12) (hO : O.CollisionFree)
    (hD : D ≤ 257) (column : List Fr) (hlen : column.length = 23)
    (h : AggregateUtxoAccepts V O D column) :
    ∃ utxos, utxos.length = 3 ∧ MovesRoot O D column utxos := by
  obtain ⟨circuit, cells, hutxo, hsat⟩ := h
  obtain ⟨acc, hagg⟩ := (sat_aggregateUtxo V O column circuit cells).mp hsat
  have hinstances : circuit.utxo.toList.map Snark.instances =
      circuit.utxo.toList.map fun s => [s.column] := by
    apply List.map_congr_left
    intro s hs
    exact (hutxo s hs).1.instances_eq
  have haccepts : ∀ utxo ∈ circuit.utxo.toList.map Snark.column,
      utxo.length = 7 ∧ UtxoAccepts O D utxo := by
    intro utxo hmem
    obtain ⟨s, hs, rfl⟩ := List.mem_map.mp hmem
    exact ⟨(hutxo s hs).1.column_length, (hutxo s hs).2⟩
  have hcount : (circuit.utxo.toList.map Snark.column).length = 3 := by simp
  have hleafs : ((circuit.utxo.toList.map Snark.instances).flatMap fun snark =>
      (snark.headD []).drop 3) = utxoLeafs (circuit.utxo.toList.map Snark.column) := by
    rw [hinstances, List.flatMap_map, utxoLeafs, List.flatMap_map]
    rfl
  refine ⟨circuit.utxo.toList.map Snark.column, hcount, haccepts, ?_, ?_⟩
  · apply values_of_rows column _ 14 (by rw [hcount, hlen]) (fun u hu => (haccepts u hu).1)
    intro utxo hmem j hj
    have hvalue := hagg.value
    rw [hinstances, hlimbs] at hvalue
    have hmem' : ([utxo.1], utxo.2) ∈ (circuit.utxo.toList.map fun s => [s.column]).zipIdx := by
      rw [List.mk_mem_zipIdx_iff_getElem?, List.getElem?_map]
      have hget := List.mk_mem_zipIdx_iff_getElem?.mp hmem
      rw [List.getElem?_map] at hget
      obtain ⟨s, hs, hcol⟩ := Option.map_eq_some_iff.mp hget
      rw [hs, ← hcol]
      rfl
    exact hvalue _ hmem' j hj
  · intro T hT hroot
    have hold := hagg.old_root
    have hnew := hagg.new_root
    rw [hlimbs] at hold hnew
    rw [cellAt_of_row column 12 _ hold] at hroot
    obtain ⟨hleafLen, S, hS, hnewRoot, hShashed⟩ := batch_run O hO hD circuit.insert column cells
      T hT hagg.batch hroot
    have hequal := hagg.leaf
    rw [hleafs] at hequal
    have hutxoLen : (utxoLeafs (circuit.utxo.toList.map Snark.column)).length = 12 := by
      rw [utxoLeafs, flatMap_length _ _ 4, hcount]
      intro u hu
      rw [List.length_drop, (haccepts u hu).1]
    have hleafEq : utxoLeafs (circuit.utxo.toList.map Snark.column) = cells.leafs := by
      apply eq_of_zip_eq _ _ (by rw [hutxoLen, hleafLen])
      rw [List.take_of_length_le (by rw [List.length_zip, hutxoLen, hleafLen]; omega)] at hequal
      exact hequal
    rw [hleafEq, cellAt_of_row column 13 _ hnew]
    exact ⟨S, hS, hShashed, hnewRoot⟩

/-- A chain of columns moves the root over all their UTXO proofs in order. -/
theorem chain_moves (columns : List (List Fr)) (count : ℕ) (old new : Fr)
    (hmoves : ∀ column ∈ columns, ∃ utxos, utxos.length = count ∧ MovesRoot O D column utxos)
    (hchain : RootsChained old columns new) :
    ∃ utxos, utxos.length = columns.length * count ∧
      (∀ utxo ∈ utxos, utxo.length = 7 ∧ UtxoAccepts O D utxo) ∧
      (columns.flatMap fun column => column.drop 14) = utxoValues utxos ∧
      ∀ T : NotesTree D, TreeHashed O D T → old = notesRoot O D T →
        ∃ S, T.insertAll (nonZero (utxoLeafs utxos)) = some S ∧ TreeHashed O D S ∧
          new = notesRoot O D S := by
  induction columns generalizing old with
  | nil =>
    obtain rfl : new = old := hchain
    exact ⟨[], by simp, by simp, rfl, fun T hT hroot => ⟨T, rfl, hT, hroot⟩⟩
  | cons column rest ih =>
    obtain ⟨hold, hrest⟩ := hchain
    obtain ⟨utxos, hcount, hfirst⟩ := hmoves column (List.mem_cons_self ..)
    obtain ⟨others, hothers, haccepts, hvalues, hmove⟩ :=
      ih _ (fun c hc => hmoves c (List.mem_cons_of_mem _ hc)) hrest
    refine ⟨utxos ++ others, ?_, ?_, ?_, ?_⟩
    · rw [List.length_append, hcount, hothers, List.length_cons, Nat.succ_mul]
      omega
    · rw [List.forall_mem_append]
      exact ⟨hfirst.accepts, haccepts⟩
    · rw [List.flatMap_cons, hfirst.values, hvalues, utxoValues, utxoValues, utxoValues,
        List.flatMap_append]
    · intro T hT hroot
      rw [hold] at hroot
      obtain ⟨S, hS, hShashed, hmid⟩ := hfirst.moves T hT hroot
      obtain ⟨S', hS', hShashed', hnew⟩ := hmove S hShashed hmid
      refine ⟨S', ?_, hShashed', hnew⟩
      rw [utxoLeafs, List.flatMap_append, nonZero_append, SparseTree.insertAll_append]
      change ((T.insertAll (nonZero (utxoLeafs utxos))).bind _) = _
      rw [hS]
      exact hS'

/-- An aggregate of aggregates inserts what its aggregates insert. -/
theorem aggregateAgg_moves {N rows count : ℕ} {vk : CircuitKind} {inner : List Fr → Prop}
    (column : List Fr) (hlen : column.length = 14 + N * count * 3)
    (hinner : ∀ c, c.length = rows → inner c →
      ∃ utxos, utxos.length = count ∧ MovesRoot O D c utxos)
    (h : AggregateAggAccepts V O N vk rows inner column) :
    ∃ utxos, utxos.length = N * count ∧ MovesRoot O D column utxos := by
  obtain ⟨circuit, haggregates, hsat⟩ := h
  obtain ⟨acc, hagg⟩ := (sat_aggregateAgg V O column circuit).mp hsat
  obtain ⟨oldRoot, newRoot, hold, hnew, -, hchain⟩ := hagg.root
  have hmoves : ∀ c ∈ circuit.aggregates.toList.map Snark.column,
      ∃ utxos, utxos.length = count ∧ MovesRoot O D c utxos := by
    intro c hc
    obtain ⟨s, hs, rfl⟩ := List.mem_map.mp hc
    obtain ⟨hshaped, haccepts⟩ := haggregates s hs
    exact hinner _ hshaped.column_length haccepts
  obtain ⟨utxos, hcount, haccepts, hvalues, hmove⟩ := chain_moves _ count _ _ hmoves hchain
  rw [List.length_map, Vector.length_toList] at hcount
  have hvaluesLen : (utxoValues utxos).length = N * count * 3 := by
    rw [utxoValues, flatMap_length _ _ 3, hcount]
    intro u hu
    rw [List.length_take, (haccepts u hu).1]
    omega
  refine ⟨utxos, hcount, haccepts, ?_, ?_⟩
  · rw [← hvalues] at hvaluesLen ⊢
    exact drop_eq_of_rows column _ 14 (by omega) hagg.value
  · intro T hT hroot
    rw [cellAt_of_row column 12 _ hold] at hroot
    rw [cellAt_of_row column 13 _ hnew]
    exact hmove T hT hroot

/-- An accepted rollup proof inserts every non-zero leaf of its six UTXO proofs. -/
theorem rollup_moves (hlimbs : ∀ acc, (V.limbs acc).length = 12) (hO : O.CollisionFree)
    (hD : D ≤ 257) (column : List Fr) (hlen : column.length = 32)
    (h : RollupAccepts V O D column) :
    ∃ utxos, utxos.length = 6 ∧ MovesRoot O D column utxos := by
  have houter : ∀ outer : List Fr, outer.length = 32 →
      AggregateAggAccepts V O 2 .aggUtxo 23 (AggregateUtxoAccepts V O D) outer →
      ∃ utxos, utxos.length = 2 * 3 ∧ MovesRoot O D outer utxos := by
    intro outer hrows haggregate
    refine aggregateAgg_moves outer (by omega) ?_ haggregate
    intro inner hinner hutxo
    exact aggregateUtxo_moves hlimbs hO hD inner hinner hutxo
  have hcolumn : ∃ utxos, utxos.length = 1 * (2 * 3) ∧ MovesRoot O D column utxos :=
    aggregateAgg_moves column (by omega) houter h
  exact hcolumn

end PayyRollup.RollupProof
