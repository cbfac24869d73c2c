import PayyRollup.ElementHash

/-!
Notes, their commitments and nullifiers, and the note circuits. A note of value zero is
padding and its commitment is zero. The version cell of a note is witnessed, so the
adversary chooses it; the opening of a commitment names it.
-/
namespace PayyRollup.Notes

open BitLists ScalarField ConstraintProgram Layouter Chips Gadgets SparseMerkle ElementHash

/-- A note as the prover holds it; the token name enters no hash and no constraint. -/
structure Note where
  address : Element
  psi : Element
  value : Element
  source : Element
  deriving DecidableEq

/-- A note with what is needed to spend it. -/
structure InputNote (D : ℕ) where
  note : Note
  secretKey : Element
  merklePath : MerklePath D

structure NoteConstraintCells where
  value : Fr
  address : Fr
  cm : Fr
  isPadding : Fr
  source : Fr
  psi : Fr

structure InputNoteConstraintCells where
  commitment : NoteConstraintCells
  nullifier : Fr
  root : Fr
  secretKey : Fr
  zero : Fr

namespace Note

variable (hash : List Fr → Fr)

def default : Note := ⟨Element.zero, Element.zero, Element.zero, Element.zero⟩

def paddingNote : Note :=
  let zeroHash := Element.fromBase (hash [0, 0])
  { address := zeroHash, psi := Element.zero, value := Element.zero, source := zeroHash }

def commitment (self : Note) : Element :=
  if self.value = Element.zero then Element.zero
  else hashMerge hash [self.value, self.address, self.psi, self.source, 1, 1]

def isPadding (self : Note) : Bool :=
  self.commitment hash == (paddingNote hash).commitment hash ||
    self.commitment hash == Element.zero

def nullifier (self : Note) (secretKey : Element) : Element :=
  if self.isPadding hash then (paddingNote hash).commitment hash
  else hashMerge hash [self.commitment hash, secretKey, self.psi, Element.zero]

@[simp] theorem paddingNote_commitment : (paddingNote hash).commitment hash = Element.zero := by
  simp [paddingNote, commitment]

/-- The constant of the padding chips. -/
def paddingConstant : Fr := ((paddingNote hash).commitment hash).toBase

@[simp] theorem paddingConstant_eq : paddingConstant hash = 0 := by
  simp [paddingConstant]

def enforceConstraints (self : Note) : Layouter Fr NoteConstraintCells := do
  let zero : Fr := 0
  let value ← assignAdvice self.value.toBase
  let address ← assignAdvice self.address.toBase
  let psi ← assignAdvice self.psi.toBase
  let source ← assignAdvice self.source.toBase
  let version ← assignAdvice (1 : Fr)
  let cm ← poseidonHashGadget [value, address, psi, source, version, version]
  let isValueZero ← IsConstantChip.assign (paddingConstant hash) value
  let pair ← CondSwapChip.swapAssigned (cm, zero) isValueZero
  return { value, address, cm := pair.1, isPadding := isValueZero, source, psi }

end Note

namespace InputNote

variable {D : ℕ} (hash : List Fr → Fr)

def default (D : ℕ) : InputNote D := ⟨Note.default, Element.zero, MerklePath.default hash D⟩

def paddingNote (D : ℕ) : InputNote D :=
  ⟨Note.paddingNote hash, Element.zero, MerklePath.default hash D⟩

def nullifer (self : InputNote D) : Element := self.note.nullifier hash self.secretKey

def recentRoot (self : InputNote D) : Element :=
  self.merklePath.computeRoot hash (self.note.commitment hash)

def enforceConstraints (self : InputNote D) : Layouter Fr InputNoteConstraintCells := do
  let cells ← self.note.enforceConstraints hash
  let root ← self.merklePath.enforceInclusionConstraints
    (self.note.commitment hash).toBase cells.cm
  let secretKey ← assignAdvice self.secretKey.toBase
  let padding : Fr := 0
  let verifiedAddress ← poseidonHashGadget [secretKey, padding]
  constrainEqual verifiedAddress cells.address
  let nullifier ← poseidonHashGadget [cells.cm, secretKey, cells.psi, padding]
  return { commitment := cells, nullifier, root, secretKey, zero := padding }

end InputNote

/-- What the note circuit forces: the commitment opens to the cells under some version,
unless the value is zero. -/
structure Opens (O : HashOracle Fr) (cells : NoteConstraintCells) (version : Fr) : Prop where
  hashed : [cells.value, cells.address, cells.psi, cells.source, version, version] ∈ O.messages
  is_padding : cells.isPadding = bitCell (decide (cells.value = 0))
  cm_eq : cells.cm = if cells.value = 0 then 0
    else O.hash [cells.value, cells.address, cells.psi, cells.source, version, version]

/-- What the input note circuit forces. The path is any path of the right length. -/
structure Spends (O : HashOracle Fr) (D : ℕ) (cells : InputNoteConstraintCells) (version : Fr)
    (path : List (Bool × Fr)) : Prop where
  opens : Opens O cells.commitment version
  path_length : path.length = D - 1
  path_hashed : PathHashedUp (pairHash O) cells.commitment.cm path
  root_eq : cells.root = climbUp (pairHash O).node cells.commitment.cm path
  address_hashed : [cells.secretKey, 0] ∈ O.messages
  address_eq : O.hash [cells.secretKey, 0] = cells.commitment.address
  nullifier_hashed :
    [cells.commitment.cm, cells.secretKey, cells.commitment.psi, 0] ∈ O.messages
  nullifier_eq : cells.nullifier =
    O.hash [cells.commitment.cm, cells.secretKey, cells.commitment.psi, 0]
  zero_eq : cells.zero = 0

section Laws

variable (O : HashOracle Fr) (inst : List Fr)

theorem sat_note (hash : List Fr → Fr) (note : Note) (cells : NoteConstraintCells) :
    Sat O inst (note.enforceConstraints hash) cells ↔ ∃ version, Opens O cells version := by
  simp only [Note.enforceConstraints, poseidonHashGadget, sat_bind, sat_assignAdvice,
    sat_hashGadget, sat_isConstant, sat_swapAssigned, sat_pure, true_and,
    Note.paddingConstant_eq]
  constructor
  · rintro ⟨value, address, psi, source, version, cm, ⟨hmsg, rfl⟩, flag, rfl, pair,
      ⟨swap, hswap, rfl⟩, rfl⟩
    rw [bitCell_inj] at hswap
    subst hswap
    refine ⟨version, hmsg, rfl, ?_⟩
    by_cases h : value = 0 <;> simp [h, swapped]
  · rintro ⟨version, hmsg, hpad, hcm⟩
    refine ⟨cells.value, cells.address, cells.psi, cells.source, version, _, ⟨hmsg, rfl⟩, _, rfl,
      _, ⟨decide (cells.value = 0), rfl, rfl⟩, ?_⟩
    obtain ⟨value, address, cm, flag, source, psi⟩ := cells
    dsimp only at hpad hcm ⊢
    rw [hpad, hcm]
    by_cases h : value = 0 <;> simp [h, swapped]

theorem sat_inputNote (hash : List Fr → Fr) {D : ℕ} (note : InputNote D)
    (cells : InputNoteConstraintCells) :
    Sat O inst (note.enforceConstraints hash) cells ↔
      ∃ version path, Spends O D cells version path := by
  simp only [InputNote.enforceConstraints, poseidonHashGadget, sat_bind, sat_note,
    MerklePath.sat_enforceInclusion, sat_assignAdvice, sat_hashGadget, sat_constrainEqual,
    sat_pure, true_and]
  constructor
  · rintro ⟨note, ⟨version, hopens⟩, root, ⟨path, hlen, hhashed, rfl⟩, sk, address,
      ⟨haddr, rfl⟩, -, heq, nullifier, ⟨hnull, rfl⟩, rfl⟩
    exact ⟨version, path, hopens, hlen, hhashed, rfl, haddr, heq, hnull, rfl, rfl⟩
  · rintro ⟨version, path, hopens, hlen, hhashed, hroot, haddr, heq, hnull, hnulleq, hzero⟩
    refine ⟨cells.commitment, ⟨version, hopens⟩, _, ⟨path, hlen, hhashed, rfl⟩,
      cells.secretKey, _, ⟨haddr, rfl⟩, (), heq, _, ⟨hnull, rfl⟩, ?_⟩
    rw [← hroot, ← hnulleq, ← hzero]

end Laws
end PayyRollup.Notes
