import PayyRollup.Gadgets

/-!
Element hashing and the siblings of a sparse Merkle path. A path for a tree of depth `D`
has `D - 1` siblings, the deepest first, and the low bits of a leaf choose its sides.
-/
namespace PayyRollup.ElementHash

open BitLists ScalarField ConstraintProgram Layouter Chips Gadgets SparseMerkle

section Hashing

variable (hash : List Fr → Fr)

def hashMerge (elements : List Element) : Element :=
  Element.fromBase (hash (elements.map Element.toBase))

@[simp] theorem toBase_hashMerge (elements : List Element) :
    (hashMerge hash elements).toBase = hash (elements.map Element.toBase) := by
  rw [hashMerge, Element.toBase_fromBase]

theorem hashMerge_toNat_lt (elements : List Element) :
    (hashMerge hash elements).toNat < modulus := by
  rw [hashMerge, Element.fromBase_toNat]
  exact ZMod.val_lt _

/-- The cached hashes of empty trees, by depth less one. -/
def emptyTreeCache : ℕ → Element
  | 0 => Element.nullHash
  | n + 1 => hashMerge hash [emptyTreeCache n, emptyTreeCache n]

/-- The hash of an empty tree; the smallest tree has depth 1. -/
def emptyTreeHash (depth : ℕ) : Element := emptyTreeCache hash (depth - 1)

/-- The hash of two children as elements. -/
def elementNode (a b : Element) : Element := hashMerge hash [a, b]

/-- The hash of two children as field elements. -/
def fieldNode (a b : Fr) : Fr := hash [a, b]

theorem toBase_elementNode (a b : Element) :
    (elementNode hash a b).toBase = fieldNode hash a.toBase b.toBase :=
  toBase_hashMerge hash [a, b]

theorem root_elementNode_toBase (height : ℕ) (σ : List Bool → Element) :
    (root (elementNode hash) height σ).toBase =
      root (fieldNode hash) height (fun p => (σ p).toBase) :=
  root_map (elementNode hash) (fieldNode hash) Element.toBase (toBase_elementNode hash) height σ

theorem root_empty (height : ℕ) :
    root (elementNode hash) height (fun _ => Element.nullHash) = emptyTreeCache hash height := by
  induction height with
  | zero => rfl
  | succ height ih =>
    have hchild : ∀ right, child (fun _ => Element.nullHash) right =
        (fun _ => Element.nullHash) := fun _ => rfl
    simp only [root, hchild, ih, emptyTreeCache, elementNode]

end Hashing

/-- The siblings of a path in a tree of depth `D`, the deepest first. -/
structure MerklePath (D : ℕ) where
  siblings : List Element
  siblings_length : siblings.length = D - 1

namespace MerklePath

variable {D : ℕ} (hash : List Fr → Fr)

def default (D : ℕ) : MerklePath D where
  siblings := (List.range' 1 (D - 1)).map (emptyTreeHash hash)
  siblings_length := by simp

/-- The sides of a leaf, the deepest first. -/
def leastSignificantBits (D : ℕ) (element : Element) : List Bool :=
  (element.lsb (D - 1)).reverse

theorem leastSignificantBits_eq (element : Element) :
    leastSignificantBits D element = toBits (D - 1) element.toNat := by
  simp [leastSignificantBits, Element.lsb]

def computeRootFromLeaf (self : MerklePath D) (hashPath leaf : Element) : Element :=
  let step : Fr → Bool × Element → Fr := fun cur s =>
    if s.1 then hash [s.2.toBase, cur] else hash [cur, s.2.toBase]
  Element.fromBase
    (((leastSignificantBits D hashPath).zip self.siblings).foldl step leaf.toBase)

def computeRoot (self : MerklePath D) (leaf : Element) : Element :=
  self.computeRootFromLeaf hash leaf leaf

def computeNullRoot (self : MerklePath D) (leaf : Element) : Element :=
  self.computeRootFromLeaf hash leaf Element.zero

/-- The steps of the path of a leaf as field elements, the deepest first. -/
def steps (self : MerklePath D) (leaf : Element) : List (Bool × Fr) :=
  (leastSignificantBits D leaf).zip (self.siblings.map Element.toBase)

theorem steps_length (self : MerklePath D) (leaf : Element) :
    (self.steps leaf).length = D - 1 := by
  simp [steps, leastSignificantBits_eq, self.siblings_length]

theorem foldl_eq_climbUp (bits : List Bool) (siblings : List Element) (cur : Fr) :
    (bits.zip siblings).foldl (fun cur s =>
        if s.1 then hash [s.2.toBase, cur] else hash [cur, s.2.toBase]) cur =
      climbUp (fieldNode hash) cur (bits.zip (siblings.map Element.toBase)) := by
  induction bits generalizing siblings cur with
  | nil => rfl
  | cons b bits ih =>
    cases siblings with
    | nil => rfl
    | cons s siblings => exact ih siblings _

theorem computeRootFromLeaf_toBase (self : MerklePath D) (hashPath leaf : Element) :
    (self.computeRootFromLeaf hash hashPath leaf).toBase =
      climbUp (fieldNode hash) leaf.toBase (self.steps hashPath) := by
  simp only [computeRootFromLeaf, Element.toBase_fromBase, steps]
  exact foldl_eq_climbUp hash _ _ _

/-- The path gadget with the prover's siblings and the bits of the leaf. -/
def enforceInclusionConstraints (self : MerklePath D) (leafValue leafAssigned : Fr) :
    Layouter Fr Fr :=
  merkleRootValue leafAssigned
    (pathCells ((leastSignificantBits D (Element.fromBase leafValue)).zip
      (self.siblings.map Element.toBase)))

@[simp] theorem run_enforceInclusion (inst : List Fr) (self : MerklePath D)
    (leafValue leaf : Fr) :
    run hash inst (self.enforceInclusionConstraints leafValue leaf) =
      some (climbUp (fieldNode hash) leaf (self.steps (Element.fromBase leafValue))) :=
  run_merkleRootValue hash inst leaf _

/-- The adversary is bound to the depth of the tree and to nothing else. -/
theorem sat_enforceInclusion (O : HashOracle Fr) (inst : List Fr) (self : MerklePath D)
    (leafValue leaf out : Fr) :
    Sat O inst (self.enforceInclusionConstraints leafValue leaf) out ↔
      ∃ path : List (Bool × Fr), path.length = D - 1 ∧
        PathHashedUp (pairHash O) leaf path ∧
          out = climbUp (pairHash O).node leaf path := by
  have hlen := self.steps_length (Element.fromBase leafValue)
  rw [enforceInclusionConstraints, sat_merkleRootValue]
  simp only [pathCells, List.length_map]
  rw [← hlen]
  rfl

end MerklePath
end PayyRollup.ElementHash
