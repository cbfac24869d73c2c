import PayyRollup.Notes

/-!
The insert circuit and its batch. An insert decomposes its leaf into the bits of the
canonical value, climbs one path from the null leaf and from the new leaf, and flags a
zero leaf as padding. A batch chains the roots and skips its padding inserts.
-/
namespace PayyRollup.InsertCircuit

open BitLists ScalarField ConstraintProgram Layouter Chips Gadgets SparseMerkle ElementHash Notes

structure Insert (D : ℕ) where
  leaf : Element
  path : MerklePath D

structure InsertConstraintCells where
  newLeaf : Fr
  oldRoot : Fr
  newRoot : Fr
  isPadding : Fr

structure Batch (N D : ℕ) where
  inserts : Vector (Insert D) N

structure BatchConstraintCells where
  oldRoot : Fr
  newRoot : Fr
  leafs : List Fr

/-- The bits of the modulus in big-endian order. -/
def modulusBits : List Bool := (toBits 256 modulus).reverse

namespace Insert

variable {D : ℕ} (hash : List Fr → Fr)

def default (D : ℕ) : Insert D := ⟨Element.zero, MerklePath.default hash D⟩

def isPadding (self : Insert D) : Bool := self.leaf == (Note.paddingNote hash).commitment hash

def computeNullRoot (self : Insert D) : Fr := (self.path.computeNullRoot hash self.leaf).toBase

def computeLeafRoot (self : Insert D) : Fr := (self.path.computeRoot hash self.leaf).toBase

def enforceConstraints (self : Insert D) : Layouter Fr InsertConstraintCells := do
  let newLeaf ← assignAdvice self.leaf.toBase
  let nullLeaf : Fr := 0
  let decomposedBits ← BinaryDecomposition.copyDecompose newLeaf 256 256
  IsLessThanChip.assign (modulusBits.map bitCell) decomposedBits.reverse
  let siblingWitnesses ← forEach assignAdvice (self.path.siblings.map Element.toBase)
  let siblings := siblingWitnesses.zip (decomposedBits.take (D - 1))
  let oldRoot ← merkleRoot nullLeaf siblings
  let newRoot ← merkleRoot newLeaf siblings
  let isPadding ← IsConstantChip.assign (Note.paddingConstant hash) newLeaf
  return { newLeaf, oldRoot, newRoot, isPadding }

end Insert

namespace Batch

variable {N D : ℕ} (hash : List Fr → Fr)

def default (N D : ℕ) : Batch N D := ⟨Vector.replicate N (Insert.default hash D)⟩

/-- The old root of the first insert; the source expects at least one. -/
def oldRoot (self : Batch N D) : Fr :=
  (self.inserts.toList.head?.map (Insert.computeNullRoot hash)).getD 0

/-- The leaf root of the last insert that is not padding. -/
def newRoot (self : Batch N D) : Fr :=
  ((self.inserts.toList.reverse.find? fun insert => !insert.isPadding hash).map
    (Insert.computeLeafRoot hash)).getD (self.oldRoot hash)

def leafs (self : Batch N D) : List Fr := self.inserts.toList.map fun insert => insert.leaf.toBase

def publicInputs (self : Batch N D) : List Fr :=
  [self.oldRoot hash, self.newRoot hash] ++ self.leafs

/-- The chain of inserts from the last new root. -/
def enforceInserts (lastNewRoot : Fr) : List (Insert D) → Layouter Fr (Fr × List Fr)
  | [] => return (lastNewRoot, [])
  | insert :: rest => do
      let cells ← insert.enforceConstraints hash
      let oldRoot ← CondSwapChip.swapAssigned (cells.oldRoot, lastNewRoot) cells.isPadding
      let newRoot ← CondSwapChip.swapAssigned (cells.newRoot, oldRoot.1) cells.isPadding
      constrainEqual lastNewRoot oldRoot.1
      let last ← enforceInserts newRoot.1 rest
      return (last.1, cells.newLeaf :: last.2)

def enforceConstraints (self : Batch N D) : Layouter Fr BatchConstraintCells := do
  let oldRoot ← assignAdvice (self.oldRoot hash)
  let last ← enforceInserts hash oldRoot self.inserts.toList
  return { oldRoot, newRoot := last.1, leafs := last.2 }

def enforceInstances (cells : BatchConstraintCells) : Layouter Fr Unit := do
  constrainInstance cells.oldRoot 0
  constrainInstance cells.newRoot 1
  forAll (fun leaf => constrainInstance leaf.1 (leaf.2 + 2)) cells.leafs.zipIdx

def synthesize (self : Batch N D) : Layouter Fr BatchConstraintCells := do
  let cells ← self.enforceConstraints hash
  enforceInstances cells
  return cells

end Batch

/-- The steps of a leaf along its canonical low bits, the deepest first. -/
def leafSteps (D : ℕ) (leaf : Fr) (siblings : List Fr) : List (Bool × Fr) :=
  (toBits (D - 1) leaf.val).zip siblings

theorem leafSteps_length (D : ℕ) (leaf : Fr) (siblings : List Fr)
    (h : siblings.length = D - 1) : (leafSteps D leaf siblings).length = D - 1 := by
  simp [leafSteps, h]

/-- What the insert circuit forces: one path, along the low bits of the canonical leaf. -/
structure Inserts (O : HashOracle Fr) (D : ℕ) (cells : InsertConstraintCells)
    (siblings : List Fr) : Prop where
  siblings_length : siblings.length = D - 1
  old_hashed : PathHashedUp (pairHash O) 0 (leafSteps D cells.newLeaf siblings)
  old_root : cells.oldRoot = climbUp (pairHash O).node 0 (leafSteps D cells.newLeaf siblings)
  new_hashed : PathHashedUp (pairHash O) cells.newLeaf (leafSteps D cells.newLeaf siblings)
  new_root : cells.newRoot =
    climbUp (pairHash O).node cells.newLeaf (leafSteps D cells.newLeaf siblings)
  is_padding : cells.isPadding = bitCell (decide (cells.newLeaf = 0))

section Laws

variable (O : HashOracle Fr) (hash : List Fr → Fr) (inst : List Fr)

theorem zip_map_bitCell (siblings : List Fr) (bits : List Bool) :
    siblings.zip (bits.map bitCell) = pathCells (bits.zip siblings) := by
  induction siblings generalizing bits with
  | nil => cases bits <;> rfl
  | cons s siblings ih =>
    cases bits with
    | nil => rfl
    | cons b bits => simp [pathCells, ih bits]

/-- Only the bits of the canonical value lie below the modulus. -/
theorem sat_canonicalBits (leaf : Fr) (out : List Fr) :
    (Sat O inst (BinaryDecomposition.copyDecompose leaf 256 256) out ∧
        Sat O inst (IsLessThanChip.assign (modulusBits.map bitCell) out.reverse) ()) ↔
      out = (toBits 256 leaf.val).map bitCell := by
  rw [sat_copyDecompose]
  have hcompare : ∀ bits : List Bool, bits.length = 256 →
      (Sat O inst (IsLessThanChip.assign (modulusBits.map bitCell)
        ((bits.map bitCell).reverse)) () ↔ ofBits bits < modulus) := by
    intro bits hlen
    rw [← List.map_reverse, sat_isLessThan, lexLt_reverse _ _ (by simp [modulusBits, hlen]),
      List.reverse_reverse, modulusBits, List.reverse_reverse,
      ofBits_toBits_of_lt 256 modulus modulus_lt]
  constructor
  · rintro ⟨⟨bits, hlen, rfl, hvalue⟩, hless⟩
    have hlt := (hcompare bits hlen).mp hless
    have hval : leaf.val = ofBits bits := by
      rw [hvalue, bitsValue, ZMod.val_natCast, Nat.mod_eq_of_lt hlt]
    rw [hval, ← eq_toBits bits 256 hlen]
  · rintro rfl
    refine ⟨⟨toBits 256 leaf.val, toBits_length _ _, rfl, (bitsValue_toBits leaf).symm⟩, ?_⟩
    rw [hcompare _ (toBits_length _ _), ofBits_toBits_of_lt 256 _ (val_lt leaf)]
    exact ZMod.val_lt leaf

theorem canonicalSteps (D : ℕ) (hD : D ≤ 257) (leaf : Fr) (siblings : List Fr) :
    siblings.zip (((toBits 256 leaf.val).map bitCell).take (D - 1)) =
      pathCells (leafSteps D leaf siblings) := by
  rw [← List.map_take, take_toBits 256 (D - 1) leaf.val (by omega), zip_map_bitCell]
  rfl

theorem sat_insert {D : ℕ} (hD : D ≤ 257) (self : Insert D) (cells : InsertConstraintCells) :
    Sat O inst (self.enforceConstraints hash) cells ↔ ∃ siblings, Inserts O D cells siblings := by
  have hwitness : ∀ siblings : List Fr,
      Sat O inst (forEach assignAdvice (self.path.siblings.map Element.toBase)) siblings ↔
        siblings.length = D - 1 := by
    intro siblings
    rw [sat_forEach_const O inst assignAdvice (fun _ => True) (by simp)]
    simp [self.path.siblings_length]
  simp only [Insert.enforceConstraints, sat_bind, sat_assignAdvice, hwitness, sat_isConstant,
    sat_pure, true_and, Note.paddingConstant_eq]
  constructor
  · rintro ⟨leaf, bits, hbits, ⟨⟩, hless, siblings, hlen, oldRoot, hold, newRoot, hnew,
      flag, rfl, rfl⟩
    obtain rfl := (sat_canonicalBits O inst leaf bits).mp ⟨hbits, hless⟩
    rw [canonicalSteps D hD, sat_merkleRoot] at hold hnew
    exact ⟨siblings, hlen, hold.1, hold.2, hnew.1, hnew.2, rfl⟩
  · rintro ⟨siblings, h⟩
    obtain ⟨hbits, hless⟩ := (sat_canonicalBits O inst cells.newLeaf _).mpr rfl
    refine ⟨cells.newLeaf, _, hbits, (), hless, siblings, h.siblings_length, cells.oldRoot, ?_,
      cells.newRoot, ?_, cells.isPadding, h.is_padding, rfl⟩
    · rw [canonicalSteps D hD, sat_merkleRoot]
      exact ⟨h.old_hashed, h.old_root⟩
    · rw [canonicalSteps D hD, sat_merkleRoot]
      exact ⟨h.new_hashed, h.new_root⟩

end Laws
end PayyRollup.InsertCircuit
