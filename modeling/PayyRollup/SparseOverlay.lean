import PayyRollup.SparseTree

/-!
Elements laid over a sparse assignment. An occupied slot keeps its leaf and an empty one
takes the first element that belongs there; two elements that belong to one empty slot
crowd it. A run of insertions succeeds exactly when its slots are empty and distinct, and
then it builds the overlay.
-/
namespace PayyRollup.SparseMerkle

variable {F : Type} [Zero F] (slot : F → List Bool)

/-- The first of the elements that belongs to a slot. -/
def resident (xs : List F) (p : List Bool) : F := (xs.find? fun x => slot x = p).getD 0

def overlay [DecidableEq F] (σ : List Bool → F) (xs : List F) : List Bool → F :=
  fun p => if σ p = 0 then resident slot xs p else σ p

/-- Some empty slot is claimed twice. -/
def Crowded (σ : List Bool → F) (xs : List F) : Prop :=
  ∃ p, σ p = 0 ∧ 2 ≤ (xs.filter fun x => slot x = p).length

@[simp] theorem overlay_nil [DecidableEq F] (σ : List Bool → F) : overlay slot σ [] = σ := by
  funext p
  unfold overlay resident
  by_cases h : σ p = 0 <;> simp [h]

theorem not_crowded_nil (σ : List Bool → F) : ¬Crowded slot σ [] := by
  rintro ⟨p, -, hp⟩
  simp at hp

theorem resident_slot (xs : List F) (p : List Bool) (h : resident slot xs p ≠ 0) :
    slot (resident slot xs p) = p := by
  unfold resident at h ⊢
  cases hfind : xs.find? fun x => slot x = p with
  | none => simp [hfind] at h
  | some x =>
    have hx := List.find?_some hfind
    simpa using hx

theorem resident_mem (xs : List F) (p : List Bool) (h : resident slot xs p ≠ 0) :
    resident slot xs p ∈ xs := by
  unfold resident at h ⊢
  cases hfind : xs.find? fun x => slot x = p with
  | none => simp [hfind] at h
  | some x => exact List.mem_of_find?_eq_some hfind

section Children

variable (σ : List Bool → F) (xs : List F) (side : F → Bool) (rest : F → List Bool)
  (hslot : ∀ x ∈ xs, slot x = side x :: rest x)

include hslot

omit [Zero F] in
theorem filter_slot_cons (right : Bool) (p : List Bool) :
    (xs.filter fun x => slot x = right :: p) =
      (xs.filter fun x => side x = right).filter fun x => rest x = p := by
  rw [List.filter_filter]
  apply List.filter_congr
  intro x hx
  rw [hslot x hx]
  simp [Bool.and_comm]

theorem resident_cons (right : Bool) (p : List Bool) :
    resident slot xs (right :: p) = resident rest (xs.filter fun x => side x = right) p := by
  unfold resident
  rw [← List.head?_filter, filter_slot_cons slot xs side rest hslot, List.head?_filter]

/-- The overlay seen from a child is the overlay of the elements on its side. -/
theorem child_overlay [DecidableEq F] (right : Bool) :
    child (overlay slot σ xs) right =
      overlay rest (child σ right) (xs.filter fun x => side x = right) := by
  funext p
  unfold overlay
  rw [child_apply, resident_cons slot xs side rest hslot]
  rfl

theorem crowded_iff_children :
    Crowded slot σ xs ↔
      ∃ right, Crowded rest (child σ right) (xs.filter fun x => side x = right) := by
  constructor
  · rintro ⟨p, hp, hcount⟩
    cases p with
    | nil =>
      have hnone : (xs.filter fun x => slot x = []) = [] := by
        apply List.filter_eq_nil_iff.mpr
        intro x hx
        simp [hslot x hx]
      rw [hnone] at hcount
      simp at hcount
    | cons right p =>
      rw [filter_slot_cons slot xs side rest hslot] at hcount
      exact ⟨right, p, hp, hcount⟩
  · rintro ⟨right, p, hp, hcount⟩
    rw [← filter_slot_cons slot xs side rest hslot] at hcount
    exact ⟨right :: p, hp, hcount⟩

end Children

omit [Zero F] in
/-- The elements that belong to one slot, pair by pair. -/
theorem two_le_filter (xs : List F) (p : List Bool) :
    2 ≤ (xs.filter fun x => slot x = p).length ↔
      ¬xs.Pairwise fun x y => slot x = p → slot y ≠ p := by
  induction xs with
  | nil => simp
  | cons x rest ih =>
    rw [List.pairwise_cons]
    by_cases hx : slot x = p
    · have hpos : 1 ≤ (rest.filter fun y => slot y = p).length ↔ ∃ y ∈ rest, slot y = p := by
        rw [Nat.one_le_iff_ne_zero, Ne, List.length_eq_zero_iff, List.filter_eq_nil_iff]
        simp
      rw [List.filter_cons_of_pos (by simpa using hx), List.length_cons]
      constructor
      · intro hcount hpairs
        obtain ⟨y, hy, hslot⟩ := hpos.mp (by omega)
        exact hpairs.1 y hy hx hslot
      · intro hpairs
        by_cases hnone : ∃ y ∈ rest, slot y = p
        · have h := hpos.mpr hnone
          omega
        · exfalso
          apply hpairs
          refine ⟨fun y hy _ hslot => hnone ⟨y, hy, hslot⟩, ?_⟩
          rw [List.pairwise_iff_getElem]
          intro i j hi hj hij _ hslot
          exact hnone ⟨rest[j], List.getElem_mem hj, hslot⟩
    · rw [List.filter_cons_of_neg (by simpa using hx), ih]
      simp [hx]

/-- No slot is crowded when two elements of one slot find it occupied. -/
theorem not_crowded_iff (σ : List Bool → F) (xs : List F) :
    ¬Crowded slot σ xs ↔ xs.Pairwise fun x y => slot x = slot y → σ (slot x) ≠ 0 := by
  constructor
  · intro h
    by_contra hpairs
    apply h
    rw [List.pairwise_iff_getElem] at hpairs
    push Not at hpairs
    obtain ⟨i, j, hi, hj, hij, hslot, hzero⟩ := hpairs
    refine ⟨slot xs[i], hzero, (two_le_filter slot xs _).mpr ?_⟩
    intro hpairs
    exact List.pairwise_iff_getElem.mp hpairs i j hi hj hij rfl hslot.symm
  · rintro hpairs ⟨p, hzero, hcount⟩
    rw [two_le_filter] at hcount
    apply hcount
    apply hpairs.imp
    intro x y hxy hx hy
    exact hxy (hx.trans hy.symm) (hx ▸ hzero)

theorem Crowded.perm {σ : List Bool → F} {xs ys : List F} (hperm : xs.Perm ys)
    (h : Crowded slot σ xs) : Crowded slot σ ys := by
  obtain ⟨p, hzero, hcount⟩ := h
  refine ⟨p, hzero, ?_⟩
  rw [← (hperm.filter _).length_eq]
  exact hcount

/-- Without crowding the overlay does not depend on the order of the elements. -/
theorem overlay_perm [DecidableEq F] (σ : List Bool → F) (xs ys : List F) (hperm : xs.Perm ys)
    (h : ¬Crowded slot σ xs) : overlay slot σ xs = overlay slot σ ys := by
  funext p
  unfold overlay resident
  by_cases hzero : σ p = 0
  · rw [if_pos hzero, if_pos hzero, ← List.head?_filter, ← List.head?_filter]
    have hfilter := hperm.filter fun x => decide (slot x = p)
    have hcount : ¬2 ≤ (xs.filter fun x => slot x = p).length := fun hcount =>
      h ⟨p, hzero, hcount⟩
    cases hxs : xs.filter fun x => slot x = p with
    | nil =>
      rw [hxs] at hfilter
      rw [hfilter.nil_eq]
    | cons x rest =>
      rw [hxs, List.length_cons] at hcount
      have hrest : rest = [] := List.length_eq_zero_iff.mp (by omega)
      rw [hxs, hrest] at hfilter
      rw [hrest, List.singleton_perm.mp hfilter]
  · rw [if_neg hzero, if_neg hzero]

namespace SparseTree

variable [DecidableEq F] {slot} (T : SparseTree F slot)

/-- The tree with the elements laid over it. -/
def laid (xs : List F) : SparseTree F slot where
  leaf := overlay slot T.leaf xs
  placed := by
    intro p hp
    unfold overlay at hp ⊢
    by_cases h : T.leaf p = 0
    · rw [if_pos h] at hp ⊢
      exact resident_slot slot xs p hp
    · rw [if_neg h]
      exact T.placed p h

@[simp] theorem laid_leaf (xs : List F) : (T.laid xs).leaf = overlay slot T.leaf xs := rfl

@[simp] theorem laid_nil : T.laid [] = T := by
  apply ext_leaf
  exact overlay_nil slot T.leaf

/-- The slots of the elements are empty and distinct. -/
structure Free (xs : List F) : Prop where
  distinct : xs.Pairwise fun x y => slot x ≠ slot y
  vacant : ∀ x ∈ xs, T.leaf (slot x) = 0

variable {T}

omit [DecidableEq F] in
theorem Free.not_crowded {xs : List F} (h : T.Free xs) : ¬Crowded slot T.leaf xs := by
  rw [not_crowded_iff]
  apply h.distinct.imp
  intro x y hne heq
  exact absurd heq hne

omit [DecidableEq F] in
/-- Elements that crowd no slot are free once their own slots are. -/
theorem Free.of_not_crowded {xs : List F} (h : ¬Crowded slot T.leaf xs)
    (hvacant : ∀ x ∈ xs, T.leaf (slot x) = 0) : T.Free xs := by
  refine ⟨((not_crowded_iff slot _ _).mp h).imp_of_mem ?_, hvacant⟩
  intro x y hx _ hxy heq
  exact hxy heq (hvacant x hx)

omit [DecidableEq F] in
theorem Free.of_append {xs ys : List F} (h : T.Free (xs ++ ys)) : T.Free xs :=
  ⟨(List.pairwise_append.mp h.distinct).1, fun x hx => h.vacant x (List.mem_append_left _ hx)⟩

theorem laid_of_insert (S : SparseTree F slot) (x : F) (xs : List F) (hx : x ≠ 0)
    (h : T.insert x = some S) : S.laid xs = T.laid (x :: xs) := by
  obtain ⟨hempty, hleaf⟩ := (insert_eq_some T S x).mp h
  apply ext_leaf
  funext p
  simp only [laid_leaf, overlay, hleaf, resident]
  by_cases hp : p = slot x
  · subst hp
    simp [hempty, hx]
  · rw [Function.update_of_ne hp, List.find?_cons_of_neg (by simpa using Ne.symm hp)]

theorem free_of_insert (S : SparseTree F slot) (x : F) (xs : List F) (hx : x ≠ 0)
    (h : T.insert x = some S) : S.Free xs ↔ T.Free (x :: xs) := by
  obtain ⟨hempty, hleaf⟩ := (insert_eq_some T S x).mp h
  have hvacant : ∀ y, S.leaf (slot y) = 0 ↔ slot x ≠ slot y ∧ T.leaf (slot y) = 0 := by
    intro y
    rw [hleaf]
    by_cases hy : slot y = slot x
    · rw [hy, Function.update_self]
      simp [hx]
    · rw [Function.update_of_ne hy]
      simp [Ne.symm hy]
  constructor
  · rintro ⟨hdistinct, hfree⟩
    refine ⟨List.pairwise_cons.mpr ⟨fun y hy => ((hvacant y).mp (hfree y hy)).1, hdistinct⟩, ?_⟩
    intro y hy
    rcases List.mem_cons.mp hy with rfl | hy
    · exact hempty
    · exact ((hvacant y).mp (hfree y hy)).2
  · rintro ⟨hdistinct, hfree⟩
    obtain ⟨hfirst, hrest⟩ := List.pairwise_cons.mp hdistinct
    refine ⟨hrest, fun y hy => (hvacant y).mpr ⟨hfirst y hy, ?_⟩⟩
    exact hfree y (List.mem_cons_of_mem _ hy)

/-- Insertions succeed exactly on empty and distinct slots, and build the overlay. -/
theorem insertAll_eq_some (T S : SparseTree F slot) (xs : List F) (hxs : ∀ x ∈ xs, x ≠ 0) :
    T.insertAll xs = some S ↔ T.Free xs ∧ S = T.laid xs := by
  induction xs generalizing T with
  | nil =>
    rw [insertAll, Option.some_inj, laid_nil]
    constructor
    · intro h
      exact ⟨⟨List.Pairwise.nil, by simp⟩, h.symm⟩
    · intro h
      exact h.2.symm
  | cons x rest ih =>
    have hx := hxs x (List.mem_cons_self ..)
    have hrest : ∀ y ∈ rest, y ≠ 0 := fun y hy => hxs y (List.mem_cons_of_mem _ hy)
    rw [insertAll]
    cases hinsert : T.insert x with
    | none =>
      refine iff_of_false (by simp) ?_
      rintro ⟨hfree, -⟩
      unfold insert at hinsert
      rw [if_pos (hfree.vacant x (List.mem_cons_self ..))] at hinsert
      cases hinsert
    | some T' =>
      rw [Option.bind_some, ih T' hrest, free_of_insert T' x rest hx hinsert,
        laid_of_insert T' x rest hx hinsert]

/-- Two batches laid one after the other are one batch. -/
theorem laid_append (xs ys : List F) (hxs : ∀ x ∈ xs, x ≠ 0) (hys : ∀ y ∈ ys, y ≠ 0)
    (h : T.Free xs) (h' : (T.laid xs).Free ys) :
    T.Free (xs ++ ys) ∧ T.laid (xs ++ ys) = (T.laid xs).laid ys := by
  have hfirst := (insertAll_eq_some T _ xs hxs).mpr ⟨h, rfl⟩
  have hsecond := (insertAll_eq_some (T.laid xs) _ ys hys).mpr ⟨h', rfl⟩
  have hboth : T.insertAll (xs ++ ys) = some ((T.laid xs).laid ys) := by
    rw [insertAll_append, hfirst]
    exact hsecond
  obtain ⟨hfree, hlaid⟩ := (insertAll_eq_some T _ (xs ++ ys)
    (List.forall_mem_append.mpr ⟨hxs, hys⟩)).mp hboth
  exact ⟨hfree, hlaid.symm⟩

theorem free_of_append (xs ys : List F) (hxs : ∀ x ∈ xs, x ≠ 0) (hys : ∀ y ∈ ys, y ≠ 0)
    (h : T.Free (xs ++ ys)) : (T.laid xs).Free ys := by
  have hboth := (insertAll_eq_some T _ (xs ++ ys)
    (List.forall_mem_append.mpr ⟨hxs, hys⟩)).mpr ⟨h, rfl⟩
  rw [insertAll_append] at hboth
  obtain ⟨S, hS, hSys⟩ := Option.bind_eq_some_iff.mp hboth
  obtain ⟨-, rfl⟩ := (insertAll_eq_some T S xs hxs).mp hS
  exact ((insertAll_eq_some _ _ ys hys).mp hSys).1

theorem mem_laid (xs : List F) (hxs : ∀ x ∈ xs, x ≠ 0) (h : T.Free xs) (y : F) :
    y ∈ T.laid xs ↔ y ∈ xs ∨ y ∈ T :=
  insertAll_mem T _ xs y hxs ((insertAll_eq_some T _ xs hxs).mpr ⟨h, rfl⟩)

end SparseTree
end PayyRollup.SparseMerkle
