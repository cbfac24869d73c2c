import Mathlib.Data.List.Basic
import Mathlib.Logic.Function.Basic

/-!
Binary Merkle trees over an assignment of leaves to bit paths. A path lists its bits
from the root down. The node hash is injective only on the pairs that are hashed, so a
root and a path are compared where both have been hashed: then the path ends at the
leaf the tree assigns to it and carries exactly the siblings of the tree.
-/
namespace PayyRollup.SparseMerkle

variable {F G : Type}

/-- A node hash with the pairs that are hashed. -/
structure NodeHash (F : Type) where
  node : F → F → F
  hashed : F → F → Prop

/-- The node hash is injective on the pairs that are hashed. -/
def NodeHash.Injective (N : NodeHash F) : Prop :=
  ∀ a b c d, N.hashed a b → N.hashed c d → N.node a b = N.node c d → a = c ∧ b = d

section Roots

variable (node : F → F → F)

/-- The assignment seen from the child on side `right`. -/
def child (σ : List Bool → F) (right : Bool) : List Bool → F := fun p => σ (right :: p)

@[simp] theorem child_apply (σ : List Bool → F) (right : Bool) (p : List Bool) :
    child σ right p = σ (right :: p) := rfl

def root : ℕ → (List Bool → F) → F
  | 0, σ => σ []
  | height + 1, σ => node (root height (child σ false)) (root height (child σ true))

/-- Hash a leaf with its siblings; the path lists the sides from the root down. -/
def climb : List (Bool × F) → F → F
  | [], leaf => leaf
  | (right, sibling) :: rest, leaf =>
      if right then node sibling (climb rest leaf) else node (climb rest leaf) sibling

/-- The same hash computed from the leaf upwards. -/
def climbUp : F → List (Bool × F) → F
  | leaf, [] => leaf
  | leaf, (right, sibling) :: rest =>
      climbUp (if right then node sibling leaf else node leaf sibling) rest

/-- The siblings along a path, the one below the root first. -/
def siblings (σ : List Bool → F) : List Bool → List F
  | [] => []
  | right :: rest =>
      root node rest.length (child σ !right) :: siblings (child σ right) rest

theorem climb_concat (path : List (Bool × F)) (right : Bool) (sibling leaf : F) :
    climb node (path ++ [(right, sibling)]) leaf =
      climb node path (if right then node sibling leaf else node leaf sibling) := by
  induction path with
  | nil => simp [climb]
  | cons step rest ih =>
    obtain ⟨side, s⟩ := step
    simp only [List.cons_append, climb, ih]

theorem climbUp_eq_climb (leaf : F) (path : List (Bool × F)) :
    climbUp node leaf path = climb node path.reverse leaf := by
  induction path generalizing leaf with
  | nil => rfl
  | cons step rest ih =>
    obtain ⟨right, sibling⟩ := step
    rw [climbUp, ih, List.reverse_cons, climb_concat]

theorem siblings_length (σ : List Bool → F) (p : List Bool) :
    (siblings node σ p).length = p.length := by
  induction p generalizing σ with
  | nil => rfl
  | cons right rest ih => simp [siblings, ih]

theorem root_eq_climb (σ : List Bool → F) (p : List Bool) :
    root node p.length σ = climb node (p.zip (siblings node σ p)) (σ p) := by
  induction p generalizing σ with
  | nil => rfl
  | cons right rest ih =>
    have hrest := ih (child σ right)
    cases right with
    | false => exact congrArg (node · (root node rest.length (child σ true))) hrest
    | true => exact congrArg (node (root node rest.length (child σ false))) hrest

@[simp] theorem child_update_same (σ : List Bool → F) (right : Bool) (p : List Bool) (x : F) :
    child (Function.update σ (right :: p) x) right = Function.update (child σ right) p x := by
  funext q
  by_cases hq : q = p
  · subst hq
    simp [child]
  · simp [child, Function.update_of_ne, hq]

@[simp] theorem child_update_other (σ : List Bool → F) (right : Bool) (p : List Bool) (x : F) :
    child (Function.update σ (right :: p) x) (!right) = child σ !right := by
  funext q
  have hq : (!right) :: q ≠ right :: p := by cases right <;> simp
  simp [child]

theorem siblings_update (σ : List Bool → F) (p : List Bool) (x : F) :
    siblings node (Function.update σ p x) p = siblings node σ p := by
  induction p generalizing σ with
  | nil => rfl
  | cons right rest ih => simp only [siblings, child_update_other, child_update_same, ih]

/-- Replacing one leaf replaces the end of its path and keeps the siblings. -/
theorem root_update (σ : List Bool → F) (p : List Bool) (x : F) :
    root node p.length (Function.update σ p x) = climb node (p.zip (siblings node σ p)) x := by
  rw [root_eq_climb, siblings_update, Function.update_self]

/-- A map that commutes with the node hash commutes with the root. -/
theorem root_map (node' : G → G → G) (f : F → G)
    (hf : ∀ a b, f (node a b) = node' (f a) (f b)) (height : ℕ) (σ : List Bool → F) :
    f (root node height σ) = root node' height (fun p => f (σ p)) := by
  induction height generalizing σ with
  | zero => rfl
  | succ height ih => simp only [root, hf, ih]; rfl

/-- A map that commutes with the node hash commutes with the climb from a leaf. -/
theorem climb_map (node' : G → G → G) (f : F → G)
    (hf : ∀ a b, f (node a b) = node' (f a) (f b)) (sides : List Bool) (sibs : List F) (leaf : F) :
    f (climb node (sides.zip sibs) leaf) = climb node' (sides.zip (sibs.map f)) (f leaf) := by
  induction sides generalizing sibs with
  | nil => rfl
  | cons right rest ih =>
    cases sibs with
    | nil => rfl
    | cons sibling sibs =>
      cases right with
      | false => exact (hf _ _).trans (congrArg (node' · (f sibling)) (ih sibs))
      | true => exact (hf _ _).trans (congrArg (node' (f sibling)) (ih sibs))

end Roots

section Binding

variable (N : NodeHash F)

/-- Every pair below the root of `σ` has been hashed. -/
def RootHashed : ℕ → (List Bool → F) → Prop
  | 0, _ => True
  | height + 1, σ =>
      N.hashed (root N.node height (child σ false)) (root N.node height (child σ true)) ∧
        RootHashed height (child σ false) ∧ RootHashed height (child σ true)

/-- Every pair along the path has been hashed. -/
def PathHashed : List (Bool × F) → F → Prop
  | [], _ => True
  | (right, sibling) :: rest, leaf =>
      (if right then N.hashed sibling (climb N.node rest leaf)
        else N.hashed (climb N.node rest leaf) sibling) ∧ PathHashed rest leaf

/-- The pairs hashed from the leaf upwards. -/
def PathHashedUp : F → List (Bool × F) → Prop
  | _, [] => True
  | leaf, (right, sibling) :: rest =>
      (if right then N.hashed sibling leaf else N.hashed leaf sibling) ∧
        PathHashedUp (if right then N.node sibling leaf else N.node leaf sibling) rest

theorem pathHashed_concat (path : List (Bool × F)) (right : Bool) (sibling leaf : F) :
    PathHashed N (path ++ [(right, sibling)]) leaf ↔
      (if right then N.hashed sibling leaf else N.hashed leaf sibling) ∧
        PathHashed N path (if right then N.node sibling leaf else N.node leaf sibling) := by
  induction path with
  | nil => simp [PathHashed, climb]
  | cons step rest ih =>
    obtain ⟨side, s⟩ := step
    simp only [List.cons_append, PathHashed, ih, climb_concat]
    tauto

theorem pathHashedUp_iff (leaf : F) (path : List (Bool × F)) :
    PathHashedUp N leaf path ↔ PathHashed N path.reverse leaf := by
  induction path generalizing leaf with
  | nil => simp [PathHashedUp, PathHashed]
  | cons step rest ih =>
    obtain ⟨right, sibling⟩ := step
    rw [List.reverse_cons, pathHashed_concat, PathHashedUp, ih]

/-- Two leaves that hashed paths take to one root are the same. -/
theorem climbUp_inj (hN : N.Injective) (path : List (Bool × F)) (a b : F)
    (ha : PathHashedUp N a path) (hb : PathHashedUp N b path)
    (h : climbUp N.node a path = climbUp N.node b path) : a = b := by
  induction path generalizing a b with
  | nil => exact h
  | cons step rest ih =>
    obtain ⟨right, sibling⟩ := step
    obtain ⟨hstep, hrest⟩ := ha
    obtain ⟨hstep', hrest'⟩ := hb
    have hnode := ih _ _ hrest hrest' h
    cases right with
    | false => exact (hN _ _ _ _ hstep hstep' hnode).1
    | true => exact (hN _ _ _ _ hstep hstep' hnode).2

/-- A hashed path that reaches the root of a hashed tree ends at the leaf the tree assigns
to its sides, along the siblings of the tree. -/
theorem climb_eq_root (hN : N.Injective) (σ : List Bool → F) (path : List (Bool × F)) (leaf : F)
    (hσ : RootHashed N path.length σ) (hpath : PathHashed N path leaf)
    (h : climb N.node path leaf = root N.node path.length σ) :
    leaf = σ (path.map Prod.fst) ∧
      path.map Prod.snd = siblings N.node σ (path.map Prod.fst) := by
  induction path generalizing σ with
  | nil => exact ⟨h, rfl⟩
  | cons step rest ih =>
    obtain ⟨right, sibling⟩ := step
    obtain ⟨hpair, hleft, hright⟩ := hσ
    obtain ⟨hstep, hrest⟩ := hpath
    cases right with
    | false =>
      obtain ⟨hsub, hsib⟩ := hN _ _ _ _ hstep hpair h
      obtain ⟨hleaf, hsibs⟩ := ih (child σ false) hleft hrest hsub
      refine ⟨hleaf, ?_⟩
      simp [siblings, hsib, hsibs]
    | true =>
      obtain ⟨hsib, hsub⟩ := hN _ _ _ _ hstep hpair h
      obtain ⟨hleaf, hsibs⟩ := ih (child σ true) hright hrest hsub
      refine ⟨hleaf, ?_⟩
      simp [siblings, hsib, hsibs]

/-- Climbing the same sides and siblings from another leaf gives the updated tree. -/
theorem climb_update (hN : N.Injective) (σ : List Bool → F) (path : List (Bool × F)) (old new : F)
    (hσ : RootHashed N path.length σ) (hpath : PathHashed N path old)
    (h : climb N.node path old = root N.node path.length σ) :
    climb N.node path new =
      root N.node path.length (Function.update σ (path.map Prod.fst) new) := by
  obtain ⟨-, hsibs⟩ := climb_eq_root N hN σ path old hσ hpath h
  have hzip : path = (path.map Prod.fst).zip (siblings N.node σ (path.map Prod.fst)) := by
    exact List.zip_of_prod rfl hsibs
  have hroot := root_update N.node σ (path.map Prod.fst) new
  rw [List.length_map] at hroot
  rw [hroot, ← hzip]

/-- Updating a leaf hashes no pair off its path. -/
theorem rootHashed_update (σ : List Bool → F) (p : List Bool) (x : F)
    (hσ : RootHashed N p.length σ)
    (hpath : PathHashed N (p.zip (siblings N.node σ p)) x) :
    RootHashed N p.length (Function.update σ p x) := by
  induction p generalizing σ with
  | nil => trivial
  | cons right rest ih =>
    obtain ⟨hpair, hleft, hright⟩ := hσ
    obtain ⟨hstep, hrest⟩ := hpath
    have hsub := root_update N.node (child σ right) rest x
    cases right with
    | false =>
      have hother := child_update_other σ false rest x
      simp only [Bool.not_false] at hother
      refine ⟨?_, ?_, ?_⟩
      · rw [child_update_same, hother, hsub]
        exact hstep
      · rw [child_update_same]
        exact ih (child σ false) hleft hrest
      · rw [hother]
        exact hright
    | true =>
      have hother := child_update_other σ true rest x
      simp only [Bool.not_true] at hother
      refine ⟨?_, ?_, ?_⟩
      · rw [child_update_same, hother, hsub]
        exact hstep
      · rw [hother]
        exact hleft
      · rw [child_update_same]
        exact ih (child σ true) hright hrest

end Binding
end PayyRollup.SparseMerkle
