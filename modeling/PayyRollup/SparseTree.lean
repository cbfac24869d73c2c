import PayyRollup.SparseMerkle

/-!
A sparse tree is an assignment of leaves in which every non-zero leaf lies in its own
slot, so the tree is determined by the set of its elements. Inserting succeeds exactly
when the slot of the new element is empty.
-/
namespace PayyRollup.SparseMerkle


variable {F : Type} [Zero F]

/-- Every occupied slot holds an element of that slot. -/
structure SparseTree (F : Type) [Zero F] (slot : F → List Bool) where
  leaf : List Bool → F
  placed : ∀ p, leaf p ≠ 0 → slot (leaf p) = p

namespace SparseTree

variable {slot : F → List Bool}

theorem ext_leaf (S T : SparseTree F slot) (h : S.leaf = T.leaf) : S = T := by
  cases S
  cases T
  simpa using h

instance : Membership F (SparseTree F slot) where
  mem T x := x ≠ 0 ∧ T.leaf (slot x) = x

theorem mem_iff (T : SparseTree F slot) (x : F) : x ∈ T ↔ x ≠ 0 ∧ T.leaf (slot x) = x :=
  Iff.rfl

theorem leaf_mem (T : SparseTree F slot) (p : List Bool) (h : T.leaf p ≠ 0) :
    T.leaf p ∈ T := by
  refine ⟨h, ?_⟩
  rw [T.placed p h]

/-- A sparse tree is the tree of its elements. -/
theorem ext_mem (S T : SparseTree F slot) (h : ∀ x, x ∈ S ↔ x ∈ T) : S = T := by
  apply ext_leaf
  funext p
  by_cases hS : S.leaf p = 0
  · by_contra hne
    have hT : T.leaf p ≠ 0 := fun hT => hne (hS.trans hT.symm)
    have hmem := (h _).mpr (T.leaf_mem p hT)
    rw [mem_iff, T.placed p hT, hS] at hmem
    exact hT hmem.2.symm
  · have hmem := (h _).mp (S.leaf_mem p hS)
    rw [mem_iff, S.placed p hS] at hmem
    exact hmem.2.symm

def empty (slot : F → List Bool) : SparseTree F slot where
  leaf := fun _ => 0
  placed := fun _ h => absurd rfl h

@[simp] theorem empty_leaf (p : List Bool) : (empty slot).leaf p = 0 := rfl

theorem not_mem_empty (x : F) : x ∉ empty slot := fun h => h.1 h.2.symm

variable [DecidableEq F]

/-- Place an element in its slot, if the slot is empty. -/
def insert (T : SparseTree F slot) (x : F) : Option (SparseTree F slot) :=
  if T.leaf (slot x) = 0 then
    some
      { leaf := Function.update T.leaf (slot x) x
        placed := by
          intro p hp
          by_cases h : p = slot x
          · subst h
            rw [Function.update_self]
          · rw [Function.update_of_ne h] at hp ⊢
            exact T.placed p hp }
  else none

def insertAll (T : SparseTree F slot) : List F → Option (SparseTree F slot)
  | [] => some T
  | x :: rest => (T.insert x).bind fun S => S.insertAll rest

theorem insert_eq_some (S T : SparseTree F slot) (x : F) :
    S.insert x = some T ↔
      S.leaf (slot x) = 0 ∧ T.leaf = Function.update S.leaf (slot x) x := by
  unfold insert
  by_cases h : S.leaf (slot x) = 0
  · rw [if_pos h]
    constructor
    · intro hT
      cases hT
      exact ⟨h, rfl⟩
    · intro hT
      exact congrArg some (ext_leaf _ _ hT.2.symm)
  · simp [h]

theorem insertAll_append (T : SparseTree F slot) (xs ys : List F) :
    T.insertAll (xs ++ ys) = (T.insertAll xs).bind fun S => S.insertAll ys := by
  induction xs generalizing T with
  | nil => rfl
  | cons x rest ih =>
    simp only [List.cons_append, insertAll]
    cases T.insert x with
    | none => rfl
    | some S => exact ih S

theorem insert_mem (S T : SparseTree F slot) (x y : F) (hx : x ≠ 0)
    (h : S.insert x = some T) : y ∈ T ↔ y = x ∨ y ∈ S := by
  obtain ⟨hempty, hleaf⟩ := (insert_eq_some S T x).mp h
  rw [mem_iff, mem_iff, hleaf]
  by_cases hslot : slot y = slot x
  · rw [hslot, Function.update_self, hempty]
    constructor
    · intro hy
      exact Or.inl hy.2.symm
    · intro hy
      rcases hy with rfl | hy
      · exact ⟨hx, rfl⟩
      · exact absurd hy.2.symm hy.1
  · rw [Function.update_of_ne hslot]
    constructor
    · exact Or.inr
    · intro hy
      rcases hy with rfl | hy
      · exact absurd rfl hslot
      · exact hy

theorem insert_not_mem (S T : SparseTree F slot) (x : F) (h : S.insert x = some T) :
    x ∉ S := by
  intro hx
  have hempty := ((insert_eq_some S T x).mp h).1
  exact hx.1 (hx.2.symm.trans hempty)

/-- The elements after a run of insertions are the old ones and the inserted ones. -/
theorem insertAll_mem (S T : SparseTree F slot) (xs : List F) (y : F)
    (hxs : ∀ x ∈ xs, x ≠ 0) (h : S.insertAll xs = some T) : y ∈ T ↔ y ∈ xs ∨ y ∈ S := by
  induction xs generalizing S with
  | nil =>
    cases h
    simp
  | cons x rest ih =>
    obtain ⟨S', hS', hrest⟩ := Option.bind_eq_some_iff.mp h
    have hx := hxs x (List.mem_cons_self ..)
    rw [ih S' (fun z hz => hxs z (List.mem_cons_of_mem _ hz)) hrest,
      insert_mem S S' x y hx hS', List.mem_cons]
    tauto

/-- A run of insertions places no element twice and none that was there before. -/
theorem insertAll_nodup (S T : SparseTree F slot) (xs : List F)
    (hxs : ∀ x ∈ xs, x ≠ 0) (h : S.insertAll xs = some T) :
    xs.Nodup ∧ ∀ x ∈ xs, x ∉ S := by
  induction xs generalizing S with
  | nil => simp
  | cons x rest ih =>
    obtain ⟨S', hS', hrest⟩ := Option.bind_eq_some_iff.mp h
    have hx := hxs x (List.mem_cons_self ..)
    obtain ⟨hnodup, hfresh⟩ := ih S' (fun z hz => hxs z (List.mem_cons_of_mem _ hz)) hrest
    have hmem := insert_mem S S' x
    refine ⟨List.nodup_cons.mpr ⟨?_, hnodup⟩, ?_⟩
    · intro hin
      exact hfresh x hin ((hmem x hx hS').mpr (Or.inl rfl))
    · intro y hy hyS
      rcases List.mem_cons.mp hy with rfl | hy
      · exact insert_not_mem S S' y hS' hyS
      · exact hfresh y hy ((hmem y hx hS').mpr (Or.inr hyS))

/-- Climbing from the null leaf to the root of a tree shows the slot of the path empty, and
climbing the same path from its element gives the root after the insertion. -/
theorem insert_of_climb (N : NodeHash F) (hN : N.Injective) (T : SparseTree F slot) (x : F)
    (path : List (Bool × F)) (hslot : path.map Prod.fst = slot x)
    (hT : RootHashed N path.length T.leaf) (hold : PathHashed N path 0)
    (hnew : PathHashed N path x) (h : climb N.node path 0 = root N.node path.length T.leaf) :
    ∃ S, T.insert x = some S ∧ climb N.node path x = root N.node path.length S.leaf ∧
      RootHashed N path.length S.leaf := by
  obtain ⟨hleaf, hsibs⟩ := climb_eq_root N hN T.leaf path 0 hT hold h
  have hempty : T.leaf (slot x) = 0 := by rw [← hslot, ← hleaf]
  obtain ⟨S, hS⟩ : ∃ S, T.insert x = some S := by
    unfold insert
    rw [if_pos hempty]
    exact ⟨_, rfl⟩
  have hSleaf := ((insert_eq_some T S x).mp hS).2
  refine ⟨S, hS, ?_, ?_⟩
  · rw [hSleaf, ← hslot]
    exact climb_update N hN T.leaf path 0 x hT hold h
  · have hzip : path = (path.map Prod.fst).zip (siblings N.node T.leaf (path.map Prod.fst)) :=
      List.zip_of_prod rfl hsibs
    have hlen : (path.map Prod.fst).length = path.length := List.length_map _
    rw [hSleaf, ← hslot, ← hlen]
    refine rootHashed_update N T.leaf (path.map Prod.fst) x ?_ ?_
    · rw [hlen]
      exact hT
    · rw [← hzip]
      exact hnew

end SparseTree
end PayyRollup.SparseMerkle
