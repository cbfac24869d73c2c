import PayyRollup.KeyValueStore
import PayyRollup.SmirkTree

/-!
The notes tree with the values of its elements and a cache of known hashes. Recalculating
hashes reports every hash it drops and every hash it sets; the two children of a node are
recalculated at the same time, so their reports come in an order that a schedule chooses.
A cache whose hashes are right changes nothing, and without values and cache this is the
tree whose insertions were described before.
-/
namespace PayyRollup.SmirkValues

open ScalarField SparseMerkle ElementHash SmirkNode SmirkTree KeyValueStore

/-- A known result of hashing two elements. -/
structure KnownHash where
  left : Element
  right : Element
  result : Element
  deriving DecidableEq

/-- A call of the callback for removed hashes or of the one for set hashes. -/
inductive HashChange
  | remove (left right : Element)
  | set (left right result : Element)
  deriving DecidableEq

/-- Two runs of calls at the same time; a choice says whether the second goes next, and one
that is done is passed over. -/
def interleave {α : Type} : List Bool → List α → List α → List α
  | [], xs, ys => xs ++ ys
  | false :: choices, x :: xs, ys => x :: interleave choices xs ys
  | true :: choices, xs, y :: ys => y :: interleave choices xs ys
  | _ :: choices, xs, ys => interleave choices xs ys

/-- The choices at every node, by its path from the root. -/
abbrev Schedule := List Bool → List Bool

section Hashing

variable (hash : List Fr → Fr)

/-- Hash two elements, or take the result from the hashes known at the start. -/
def hashCached (initial : List KnownHash) (left right : Element) : Element :=
  match initial.find? fun known => known.left = left && known.right = right with
  | some known => known.result
  | none => elementNode hash left right

/-- Every known hash is the hash of its elements. -/
def Faithful (initial : List KnownHash) : Prop :=
  ∀ known ∈ initial, known.result = elementNode hash known.left known.right

theorem hashCached_eq (initial : List KnownHash) (h : Faithful hash initial) :
    hashCached hash initial = elementNode hash := by
  funext left right
  unfold hashCached
  cases hfind : initial.find? fun known => known.left = left && known.right = right with
  | none => rfl
  | some known =>
    have hkeys := List.find?_some hfind
    simp only [Bool.and_eq_true, decide_eq_true_eq] at hkeys
    obtain ⟨rfl, rfl⟩ := hkeys
    exact h known (List.mem_of_find?_eq_some hfind)

end Hashing

namespace Node

variable (hash : List Fr → Fr) (cached : Element → Element → Element)

/-- Recalculate the hashes and report the changes. -/
def recalculateHashes : {height : ℕ} → Node height → Schedule → Node height × List HashChange
  | 0, node, _ => (node, [])
  | _ + 1, .empty _, _ => (.empty _, [])
  | _ + 1, .parent left right h hashDirty, schedule =>
      if hashDirty then
        let leftHashBefore := left.rootHash hash
        let rightHashBefore := right.rootHash hash
        let left' := recalculateHashes left fun path => schedule (false :: path)
        let right' := recalculateHashes right fun path => schedule (true :: path)
        let leftHash := left'.1.rootHash hash
        let rightHash := right'.1.rootHash hash
        let h' := cached leftHash rightHash
        (.parent left'.1 right'.1 h' false,
          .remove leftHashBefore rightHashBefore ::
            (interleave (schedule []) left'.2 right'.2 ++ [.set leftHash rightHash h']))
      else (.parent left right h hashDirty, [])

/-- The hashes in a node, the root's first; `none` stands for a dirty hash. -/
def knownHashes : {height : ℕ} → Node height → Option (List KnownHash)
  | 0, _ => some []
  | _ + 1, .empty _ => some []
  | _ + 1, .parent left right h hashDirty =>
      if hashDirty then none
      else (knownHashes left).bind fun ls => (knownHashes right).map fun rs =>
        ⟨left.rootHash hash, right.rootHash hash, h⟩ :: ls ++ rs

/-- The siblings on the way to a slot, the one below the root first. -/
def siblingsTo : {height : ℕ} → Node height → List Bool → List Element
  | 0, _, _ => []
  | height + 1, .empty _, _ => (List.range' 1 (height + 1)).reverse.map (emptyTreeHash hash)
  | _ + 1, .parent left right _ _, bit :: path =>
      if bit then left.rootHash hash :: siblingsTo right path
      else right.rootHash hash :: siblingsTo left path
  | _ + 1, .parent _ _ _ _, [] => []

/-- With the hash function for a cache, the hashes are those computed without one. -/
theorem recalculateHashes_fst {height : ℕ} (node : Node height) (schedule : Schedule) :
    (recalculateHashes hash (elementNode hash) node schedule).1 = node.recalculateHashes hash := by
  induction height generalizing schedule with
  | zero => cases node <;> rfl
  | succ height ih =>
    cases node with
    | empty _ => rfl
    | parent left right h hashDirty =>
      cases hashDirty with
      | false => rfl
      | true =>
        simp only [recalculateHashes, SmirkNode.Node.recalculateHashes, ↓reduceIte, ih]

end Node

/-- New elements with their values; no two of them have the same low bits, and an element
has at most 256 of these. -/
structure ValueBatch (D : ℕ) (V : Type) where
  entries : List (Element × V)
  distinct : entries.Pairwise fun a b => bits D a.1 ≠ bits D b.1
  fits : entries = [] ∨ D ≤ 257

namespace ValueBatch

variable {D : ℕ} {V : Type}

def new (D : ℕ) (V : Type) : ValueBatch D V := ⟨[], List.Pairwise.nil, Or.inl rfl⟩

def elements (self : ValueBatch D V) : List Element := self.entries.map Prod.fst

/-- The batch without its values. -/
def keys (self : ValueBatch D V) : Batch D where
  entries := self.elements
  distinct := List.pairwise_map.mpr self.distinct

def insert (self : ValueBatch D V) (element : Element) (value : V) :
    Outcome CollisionError (ValueBatch D V) :=
  if hfits : 257 < D then .error .panic
  else
    match h : self.keys.findElementWithLsb (bits D element) with
    | some inTree => .error (.err [⟨inTree, element, D, StructName.batch⟩])
    | none => .ok
        { entries := self.entries ++ [(element, value)]
          distinct := by
            refine List.pairwise_append.mpr ⟨self.distinct, List.pairwise_singleton _ _, ?_⟩
            intro a ha b hb
            obtain rfl := List.mem_singleton.mp hb
            simpa using List.find?_eq_none.mp h a.1 (List.mem_map_of_mem ha)
          fits := Or.inr (Nat.le_of_not_lt hfits) }

def insertAll (self : ValueBatch D V) :
    List (Element × V) → Outcome CollisionError (ValueBatch D V)
  | [] => .ok self
  | (element, value) :: rest => do
      let batch ← self.insert element value
      batch.insertAll rest

def fromEntries (D : ℕ) (entries : List (Element × V)) : Outcome CollisionError (ValueBatch D V) :=
  (new D V).insertAll entries

end ValueBatch

/-- The order of the entries of a tree. -/
def elementCoding : Coding Element ℕ := ⟨BitVec.toNat, fun _ _ => BitVec.eq_of_toNat_eq⟩

structure ValueTree (D : ℕ) (V : Type) where
  tree : Node (D - 1)
  entries : Store Element V
  cache : List KnownHash

/-- A Merkle path: the siblings, the deepest first, and the element. -/
structure Path (D : ℕ) where
  siblings : List Element
  rootHash : Element

namespace Path

variable {D : ℕ}

def siblingsDeepestFirst (self : Path D) : List Element := self.siblings.take (D - 1)

def element (self : Path D) : Element := self.siblings.getLastD Element.nullHash

/-- The root that an element at the slot of the path leads to. -/
def computeRootHash (hash : List Fr → Fr) (self : Path D) (element : Element) : Element :=
  climbUp (elementNode hash) element
    ((bits D self.element).reverse.zip self.siblingsDeepestFirst)

end Path

namespace ValueTree

variable {D : ℕ} {V : Type} (hash : List Fr → Fr)

def newWithCache (D : ℕ) (V : Type) (cache : List KnownHash) : ValueTree D V :=
  ⟨Node.empty (D - 1), ∅, cache⟩

def new (D : ℕ) (V : Type) : ValueTree D V := newWithCache D V []

def iter (t : ValueTree D V) : List (Element × V) := iterator elementCoding t.entries

def elements (t : ValueTree D V) : List Element := t.iter.map Prod.fst

/-- The tree without its values and its cache. -/
def keyed (t : ValueTree D V) : Tree D := ⟨t.tree, t.elements⟩

def rootHash (t : ValueTree D V) : Element := t.tree.rootHash hash

def checkCollisions (t : ValueTree D V) (batch : ValueBatch D V) : Except CollisionError Unit :=
  t.keyed.checkCollisions batch.keys

/-- Insert into the tree and the entries; `none` stands for a collision, which the caller
unwraps. -/
def insertWithoutHashing (t : ValueTree D V) (entries : List (Element × V)) :
    Option (ValueTree D V) :=
  if entries.isEmpty then some t
  else if entries.any fun e => e.1 = Element.nullHash then none
  else if entries.any fun e => e.1 ∈ t.entries then none
  else
    match t.tree.insertWithoutHashing hash D (sortByBits D (entries.map Prod.fst)) 0 with
    | some (tree, true) => some { t with tree, entries := putAll entries t.entries }
    | _ => none

/-- Insert a batch; the changed hashes are reported to the callbacks. -/
def insertBatch (t : ValueTree D V) (schedule : Schedule) (batch : ValueBatch D V) :
    Outcome CollisionError (ValueTree D V × List HashChange) :=
  match t.checkCollisions batch with
  | .error collisions => .error (.err collisions)
  | .ok () =>
      match t.insertWithoutHashing hash batch.entries with
      | none => .error .panic
      | some inserted =>
          let tree := Node.recalculateHashes hash (hashCached hash t.cache) inserted.tree schedule
          .ok ({ inserted with tree := tree.1 }, tree.2)

/-- Insert one element, with callbacks that do nothing. -/
def insert (t : ValueTree D V) (element : Element) (value : V) :
    Outcome CollisionError (ValueTree D V) :=
  match (ValueBatch.new D V).insert element value with
  | .error _ => .error .panic
  | .ok batch => (t.insertBatch hash (fun _ => []) batch).map Prod.fst

def pathFor (t : ValueTree D V) (element : Element) : Path D where
  siblings := (Node.siblingsTo hash t.tree (bits D element)).reverse ++ [element]
  rootHash := t.rootHash hash

/-- Insert elements one by one, each with its path in the tree that it completes. -/
def insertWithPaths (t : ValueTree D V) :
    List (Element × V) → Outcome CollisionError (ValueTree D V × List (Path D))
  | [] => .ok (t, [])
  | (element, value) :: rest => do
      let inserted ← t.insert hash element value
      let (final, paths) ← inserted.insertWithPaths rest
      return (final, inserted.pathFor hash element :: paths)

end ValueTree
end PayyRollup.SmirkValues
