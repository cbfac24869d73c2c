import PayyRollup.InsertCircuit
import PayyRollup.SparseTree

/-!
Soundness of the batch circuit against sparse trees. One insert finds its slot empty and
moves the root of the tree to the root after the insertion; a padding insert keeps the
root. The batch follows by induction over the chain of roots.
-/
namespace PayyRollup.BatchSoundness

open BitLists ScalarField ConstraintProgram Layouter Chips Gadgets SparseMerkle InsertCircuit

/-- The sparse tree of depth `D` over field elements. -/
abbrev NotesTree (D : ℕ) := SparseTree Fr (slot (D - 1))

/-- The root of a notes tree, as the circuits hash it. -/
def notesRoot (O : HashOracle Fr) (D : ℕ) (T : NotesTree D) : Fr :=
  root (pairHash O).node (D - 1) T.leaf

/-- Every pair of the tree is among the hashed messages. -/
def TreeHashed (O : HashOracle Fr) (D : ℕ) (T : NotesTree D) : Prop :=
  RootHashed (pairHash O) (D - 1) T.leaf

/-- The elements of a batch: its leaves that are not padding, in order. -/
def nonZero (leafs : List Fr) : List Fr := leafs.filter fun leaf => leaf ≠ 0

@[simp] theorem nonZero_nil : nonZero [] = [] := rfl

@[simp] theorem nonZero_cons_zero (rest : List Fr) : nonZero (0 :: rest) = nonZero rest := by
  simp [nonZero]

theorem nonZero_cons (leaf : Fr) (rest : List Fr) (h : leaf ≠ 0) :
    nonZero (leaf :: rest) = leaf :: nonZero rest := by
  simp [nonZero, h]

theorem nonZero_append (xs ys : List Fr) : nonZero (xs ++ ys) = nonZero xs ++ nonZero ys := by
  simp [nonZero]

theorem mem_nonZero (leafs : List Fr) (x : Fr) : x ∈ nonZero leafs ↔ x ∈ leafs ∧ x ≠ 0 := by
  simp [nonZero]

section Soundness

variable (O : HashOracle Fr) (hO : O.CollisionFree) {D : ℕ}

theorem leafSteps_sides (leaf : Fr) (siblings : List Fr) (h : siblings.length = D - 1) :
    (leafSteps D leaf siblings).reverse.map Prod.fst = slot (D - 1) leaf := by
  rw [List.map_reverse, leafSteps, List.map_fst_zip (by simp [h]), slot]

include hO in
/-- The old root of an insert whose leaf is not padding fixes the slot of the leaf. -/
theorem insert_step (T : NotesTree D) (cells : InsertConstraintCells) (siblings : List Fr)
    (hT : TreeHashed O D T) (hins : Inserts O D cells siblings)
    (hroot : cells.oldRoot = notesRoot O D T) :
    ∃ S, T.insert cells.newLeaf = some S ∧ cells.newRoot = notesRoot O D S ∧
      TreeHashed O D S := by
  have hlen : (leafSteps D cells.newLeaf siblings).reverse.length = D - 1 := by
    rw [List.length_reverse, leafSteps_length D _ _ hins.siblings_length]
  have hold := hins.old_hashed
  have hnew := hins.new_hashed
  rw [pathHashedUp_iff] at hold hnew
  have hclimb : climb (pairHash O).node (leafSteps D cells.newLeaf siblings).reverse 0 =
      notesRoot O D T := by
    rw [← climbUp_eq_climb, ← hins.old_root, hroot]
  have hresult := SparseTree.insert_of_climb (pairHash O) (pairHash_injective O hO) T
    cells.newLeaf (leafSteps D cells.newLeaf siblings).reverse
    (leafSteps_sides _ _ hins.siblings_length)
  rw [hlen] at hresult
  obtain ⟨S, hS, hnewRoot, hhashed⟩ := hresult hT hold hnew hclimb
  refine ⟨S, hS, ?_, hhashed⟩
  rw [hins.new_root, climbUp_eq_climb, hnewRoot, notesRoot]

include hO in
/-- A chain of inserts takes the root of a tree to the root after its insertions. -/
theorem inserts_run (hD : D ≤ 257) (hash : List Fr → Fr) (inst : List Fr)
    (inserts : List (Insert D)) (T : NotesTree D) (out : Fr × List Fr) (hT : TreeHashed O D T)
    (hsat : Sat O inst (Batch.enforceInserts hash (notesRoot O D T) inserts) out) :
    out.2.length = inserts.length ∧ ∃ S, T.insertAll (nonZero out.2) = some S ∧
      out.1 = notesRoot O D S ∧ TreeHashed O D S := by
  induction inserts generalizing T out with
  | nil =>
    simp only [Batch.enforceInserts, sat_pure] at hsat
    subst hsat
    exact ⟨rfl, T, rfl, rfl, hT⟩
  | cons insert rest ih =>
    simp only [Batch.enforceInserts, sat_bind, sat_insert O hash inst hD, sat_swapAssigned,
      sat_constrainEqual, sat_pure] at hsat
    obtain ⟨cells, ⟨siblings, hins⟩, oldRoot, ⟨p, hp, rfl⟩, newRoot, ⟨q, hq, rfl⟩, ⟨⟩, heq,
      last, hlast, rfl⟩ := hsat
    rw [hins.is_padding, bitCell_inj] at hp hq
    subst hp hq
    by_cases hzero : cells.newLeaf = 0
    · simp only [hzero, decide_true, swapped, if_true] at hlast
      obtain ⟨hlen, S, hS, hout, hhashed⟩ := ih T last hT hlast
      refine ⟨by simp [hlen], S, ?_, hout, hhashed⟩
      rw [hzero, nonZero_cons_zero]
      exact hS
    · simp only [hzero, decide_false, swapped, Bool.false_eq_true, if_false] at heq hlast
      obtain ⟨S, hS, hnew, hShashed⟩ := insert_step O hO T cells siblings hT hins heq.symm
      rw [hnew] at hlast
      obtain ⟨hlen, S', hS', hout, hhashed⟩ := ih S last hShashed hlast
      refine ⟨by simp [hlen], S', ?_, hout, hhashed⟩
      rw [nonZero_cons _ _ hzero, SparseTree.insertAll, hS]
      exact hS'

include hO in
/-- The constraints of a batch, before its cells meet the instance column. -/
theorem batch_run (hD : D ≤ 257) {N : ℕ} (self : Batch N D) (inst : List Fr)
    (cells : BatchConstraintCells) (T : NotesTree D) (hT : TreeHashed O D T)
    (hsat : Sat O inst (self.enforceConstraints O.hash) cells)
    (hroot : cells.oldRoot = notesRoot O D T) :
    cells.leafs.length = N ∧ ∃ S, T.insertAll (nonZero cells.leafs) = some S ∧
      cells.newRoot = notesRoot O D S ∧ TreeHashed O D S := by
  simp only [Batch.enforceConstraints, sat_bind, sat_assignAdvice, sat_pure, true_and] at hsat
  obtain ⟨oldRoot, last, hlast, rfl⟩ := hsat
  dsimp only at hroot ⊢
  subst hroot
  obtain ⟨hlen, S, hS, hout, hhashed⟩ := inserts_run O hO hD O.hash inst _ T last hT hlast
  exact ⟨by simpa using hlen, S, hS, hout, hhashed⟩

end Soundness

theorem leafs_eq_drop (inst leafs : List Fr)
    (h : ∀ leaf ∈ leafs.zipIdx, inst[leaf.2 + 2]? = some leaf.1) :
    (inst.drop 2).take leafs.length = leafs := by
  apply List.ext_getElem?
  intro i
  by_cases hi : i < leafs.length
  · have hmem : (leafs[i], i) ∈ leafs.zipIdx :=
      List.mk_mem_zipIdx_iff_getElem?.mpr (List.getElem?_eq_getElem hi)
    have hget := h _ hmem
    rw [List.getElem?_take_of_lt hi, List.getElem?_drop, Nat.add_comm 2 i, hget,
      List.getElem?_eq_getElem hi]
  · have htake : ((inst.drop 2).take leafs.length).length ≤ i := by
      rw [List.length_take]
      omega
    rw [List.getElem?_eq_none htake, List.getElem?_eq_none (by omega)]

/-- Whatever satisfies the batch circuit inserts its non-zero leaves, in order, each into
the empty slot of its canonical value, and exposes the root of the resulting tree. -/
theorem batch_sound (O : HashOracle Fr) (hO : O.CollisionFree) (N D : ℕ) (hD : D ≤ 257)
    (self : Batch N D) (inst : List Fr) (cells : BatchConstraintCells) (T : NotesTree D)
    (hT : TreeHashed O D T) (hsat : Sat O inst (self.synthesize O.hash) cells)
    (hroot : inst[0]? = some (notesRoot O D T)) :
    ∃ S, T.insertAll (nonZero ((inst.drop 2).take N)) = some S ∧
      inst[1]? = some (notesRoot O D S) ∧ TreeHashed O D S := by
  simp only [Batch.synthesize, Batch.enforceInstances, sat_bind, sat_constrainInstance,
    sat_forAll, sat_pure] at hsat
  obtain ⟨cells', hcells, ⟨⟩, ⟨⟨⟩, hold, ⟨⟩, hnew, hleafs⟩, rfl⟩ := hsat
  have holdRoot : cells'.oldRoot = notesRoot O D T := by
    rw [hroot, Option.some.injEq] at hold
    exact hold.symm
  obtain ⟨hlen, S, hS, hout, hhashed⟩ := batch_run O hO hD self inst cells' T hT hcells holdRoot
  refine ⟨S, ?_, ?_, hhashed⟩
  · rw [← hlen, leafs_eq_drop inst cells'.leafs hleafs]
    exact hS
  · rw [hnew, hout]

section OneInsert

/-- Two leaves below one root: the empty pair hashes to 1, the pair with 5 to 2. -/
private def pairOracle : HashOracle Fr :=
  HashOracle.ofDecoder (fun m => if m = [0, 0] then 1 else 2)
    (fun x => if x = 1 then [0, 0] else [0, 5])

private def oneInsert : Batch 1 2 := ⟨#v[⟨5#256, ⟨[Element.zero], rfl⟩⟩]⟩

private def oneInsertCells : InsertConstraintCells := ⟨5, 1, 2, 0⟩

private theorem five_side : toBits 1 (5 : Fr).val = [true] := by decide

private theorem zero_zero_mem : [0, 0] ∈ pairOracle.messages := by
  change (if (if ([0, 0] : List Fr) = [0, 0] then (1 : Fr) else 2) = 1 then _ else _) = _
  decide

private theorem zero_five_mem : [0, 5] ∈ pairOracle.messages := by
  change (if (if ([0, 5] : List Fr) = [0, 0] then (1 : Fr) else 2) = 1 then _ else _) = _
  decide

private theorem oneInsert_inserts : Inserts pairOracle 2 oneInsertCells [0] := by
  have hsteps : leafSteps 2 oneInsertCells.newLeaf [0] = [(true, 0)] := by
    change (toBits 1 (5 : Fr).val).zip [0] = _
    rw [five_side]
    rfl
  refine ⟨rfl, ?_, ?_, ?_, ?_, ?_⟩
  · rw [hsteps]
    exact ⟨zero_zero_mem, trivial⟩
  · rw [hsteps]
    rfl
  · rw [hsteps]
    exact ⟨zero_five_mem, trivial⟩
  · rw [hsteps]
    change (2 : Fr) = if ([0, 5] : List Fr) = [0, 0] then 1 else 2
    decide
  · change (0 : Fr) = bitCell (decide ((5 : Fr) = 0))
    decide

private theorem oneInsert_sat :
    Sat pairOracle [1, 2, 5] (oneInsert.synthesize pairOracle.hash) ⟨1, 2, [5]⟩ := by
  have hflag : oneInsertCells.isPadding = bitCell false := rfl
  simp only [Batch.synthesize, Batch.enforceInstances, Batch.enforceConstraints, sat_bind,
    sat_assignAdvice, sat_constrainInstance, sat_forAll, sat_pure, true_and]
  refine ⟨⟨1, 2, [5]⟩, ⟨1, (2, [5]), ?_, rfl⟩, (), ⟨(), rfl, (), rfl, ?_⟩, rfl⟩
  · change Sat pairOracle _ (Batch.enforceInserts pairOracle.hash 1
      [⟨5#256, ⟨[Element.zero], rfl⟩⟩]) _
    simp only [Batch.enforceInserts, sat_bind,
      sat_insert pairOracle _ _ (by norm_num : 2 ≤ 257), sat_swapAssigned, sat_constrainEqual,
      sat_pure]
    exact ⟨oneInsertCells, ⟨[0], oneInsert_inserts⟩, _, ⟨false, hflag, rfl⟩, _,
      ⟨false, hflag, rfl⟩, (), rfl, _, rfl, rfl⟩
  · simp

/-- The leaf 5 goes to the right slot of the empty tree of depth 2. -/
theorem batch_sound_one_insert :
    ∃ S : NotesTree 2, (SparseTree.empty (slot (2 - 1))).insertAll
        (nonZero ((([1, 2, 5] : List Fr).drop 2).take 1)) = some S ∧
      ([1, 2, 5] : List Fr)[1]? = some (notesRoot pairOracle 2 S) ∧ TreeHashed pairOracle 2 S :=
  batch_sound pairOracle (HashOracle.ofDecoder_collisionFree _ _) 1 2 (by norm_num) oneInsert
    [1, 2, 5] ⟨1, 2, [5]⟩ (SparseTree.empty (slot (2 - 1)))
    ⟨zero_zero_mem, trivial, trivial⟩ oneInsert_sat rfl

end OneInsert
end PayyRollup.BatchSoundness
