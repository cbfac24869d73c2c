import PayyRollup.Notes

/-!
The note circuits beside the code that hashes a note outside them. The honest prover's cells
are those of its note: the commitment is the one the code computes, and the nullifier where the
note is no padding. An adversary also chooses the version cell, which the code sets to one and
no constraint looks at, so a commitment that it opens is the one of the code only for the
version one, or for the value zero.
-/
namespace PayyRollup.Notes

open BitLists ScalarField ConstraintProgram Layouter Chips Gadgets SparseMerkle ElementHash

section Native

variable (hash : List Fr → Fr)

/-- The message of a commitment. -/
def Note.message (self : Note) : List Fr :=
  [self.value.toBase, self.address.toBase, self.psi.toBase, self.source.toBase, 1, 1]

theorem commitment_of_ne (note : Note) (h : note.value ≠ Element.zero) :
    note.commitment hash = Element.fromBase (hash note.message) := by
  have hone : (1 : Element).toBase = 1 := by decide
  rw [Note.commitment, if_neg h, hashMerge]
  simp only [List.map_cons, List.map_nil, hone]
  rfl

theorem commitment_of_eq (note : Note) (h : note.value = Element.zero) :
    note.commitment hash = Element.zero := if_pos h

/-- A note is padding if its value is zero, and otherwise if its message hashes to zero. -/
theorem isPadding_eq (note : Note) :
    note.isPadding hash = decide (note.value = Element.zero ∨ hash note.message = 0) := by
  rw [Note.isPadding, Note.paddingNote_commitment, Bool.or_self, Bool.eq_iff_iff, beq_iff_eq,
    decide_eq_true_eq]
  by_cases hzero : note.value = Element.zero
  · simp [commitment_of_eq hash note hzero, hzero]
  · rw [commitment_of_ne hash note hzero, or_iff_right hzero]
    constructor
    · intro h
      rw [← Element.toBase_fromBase (hash note.message), h, Element.toBase_zero]
    · intro h
      rw [h]
      rfl

end Native

section Binding

/-- The note with the values that were assigned. -/
def NoteConstraintCells.note (cells : NoteConstraintCells) : Note where
  address := Element.fromBase cells.address
  psi := Element.fromBase cells.psi
  value := Element.fromBase cells.value
  source := Element.fromBase cells.source

/-- What the circuit claims of the cells of a note: the code computes the same commitment, and
the flag says whether the note is padding for the code. -/
structure AgreesNatively (hash : List Fr → Fr) (cells : NoteConstraintCells) : Prop where
  commitment_eq : Element.fromBase cells.cm = cells.note.commitment hash
  padding_eq : cells.isPadding = bitCell (cells.note.isPadding hash)

theorem note_value (cells : NoteConstraintCells) :
    cells.note.value = Element.zero ↔ cells.value = 0 := by
  rw [← Element.toBase_eq_zero cells.note.value (by
    rw [NoteConstraintCells.note, Element.fromBase_toNat]
    exact ZMod.val_lt _)]
  rw [NoteConstraintCells.note, Element.toBase_fromBase]

theorem note_message (cells : NoteConstraintCells) :
    cells.note.message = [cells.value, cells.address, cells.psi, cells.source, 1, 1] := by
  simp [NoteConstraintCells.note, Note.message]

variable (O : HashOracle Fr) (hnull : O.NoNullPreimage)

include hnull in
theorem note_isPadding (cells : NoteConstraintCells)
    (hmsg : [cells.value, cells.address, cells.psi, cells.source, 1, 1] ∈ O.messages) :
    cells.note.isPadding O.hash = decide (cells.value = 0) := by
  have hne : O.hash cells.note.message ≠ 0 := by
    rw [note_message]
    exact hnull _ hmsg
  rw [isPadding_eq, decide_eq_decide, note_value]
  exact or_iff_left hne

theorem note_commitment (cells : NoteConstraintCells) :
    (cells.note.commitment O.hash).toBase = if cells.value = 0 then 0
      else O.hash [cells.value, cells.address, cells.psi, cells.source, 1, 1] := by
  by_cases hzero : cells.value = 0
  · rw [commitment_of_eq O.hash cells.note ((note_value cells).mpr hzero), if_pos hzero]
    exact Element.toBase_zero
  · have hne : cells.note.value ≠ Element.zero := fun h => hzero ((note_value cells).mp h)
    rw [commitment_of_ne O.hash cells.note hne, if_neg hzero, Element.toBase_fromBase,
      note_message]

theorem cm_eq_iff (cells : NoteConstraintCells) :
    Element.fromBase cells.cm = cells.note.commitment O.hash ↔
      cells.cm = (cells.note.commitment O.hash).toBase := by
  constructor
  · intro h
    rw [← h, Element.toBase_fromBase]
  · intro h
    rw [h, Element.fromBase_toBase]
    by_cases hzero : cells.note.value = Element.zero
    · rw [commitment_of_eq O.hash cells.note hzero]
      decide
    · rw [commitment_of_ne O.hash cells.note hzero, Element.fromBase_toNat]
      exact ZMod.val_lt _

include hnull in
/-- Of the versions that open a commitment, the code knows the version one. -/
theorem Opens.agrees_iff (hO : O.CollisionFree) (cells : NoteConstraintCells) (version : Fr)
    (hopens : Opens O cells version)
    (hmsg : [cells.value, cells.address, cells.psi, cells.source, 1, 1] ∈ O.messages) :
    AgreesNatively O.hash cells ↔ cells.value = 0 ∨ version = 1 := by
  have hpad : cells.isPadding = bitCell (cells.note.isPadding O.hash) := by
    rw [hopens.is_padding, note_isPadding O hnull cells hmsg]
  have hcm : Element.fromBase cells.cm = cells.note.commitment O.hash ↔
      cells.value = 0 ∨ version = 1 := by
    rw [cm_eq_iff, hopens.cm_eq, note_commitment]
    by_cases hzero : cells.value = 0
    · simp [hzero]
    · rw [if_neg hzero, if_neg hzero, or_iff_right hzero]
      constructor
      · intro h
        have hlist := hO.eq hopens.hashed hmsg h
        simp only [List.cons.injEq] at hlist
        exact hlist.2.2.2.2.1
      · intro h
        rw [h]
  constructor
  · intro h
    exact hcm.mp h.commitment_eq
  · intro h
    exact ⟨hcm.mpr h, hpad⟩

/-- The constraints of a note hold of the cells that open under some version, and the cells are
those of the code exactly when the value is zero or the version is one. -/
theorem note_agrees_iff (hO : O.CollisionFree) (hnonnull : O.NoNullPreimage) (inst : List Fr)
    (note : Note) (cells : NoteConstraintCells)
    (hmsg : [cells.value, cells.address, cells.psi, cells.source, 1, 1] ∈ O.messages) :
    (Sat O inst (note.enforceConstraints O.hash) cells ↔ ∃ version, Opens O cells version) ∧
      ∀ version, Opens O cells version →
        (AgreesNatively O.hash cells ↔ cells.value = 0 ∨ version = 1) := by
  constructor
  · exact sat_note O inst O.hash note cells
  · intro version hopens
    exact hopens.agrees_iff O hnonnull hO cells version hmsg

end Binding

section UnknownVersion

/-- A hash that reads the version, on the messages of one note with two versions. -/
def versionOracle : HashOracle Fr where
  hash := fun message => message.getD 4 0
  messages := {message | message = [1, 0, 0, 0, 1, 1] ∨ message = [1, 0, 0, 0, 2, 2]}

def unitNote : Note := ⟨Element.zero, Element.zero, 1, Element.zero⟩

/-- The cells of the note under a version. -/
def unitCells (version : Fr) : NoteConstraintCells where
  value := 1
  address := 0
  cm := version
  isPadding := 0
  source := 0
  psi := 0

theorem versionOracle_collisionFree : versionOracle.CollisionFree := by
  have hne : (1 : Fr) ≠ 2 := by decide
  rintro a (rfl | rfl) b (rfl | rfl) h
  · rfl
  · exact absurd h hne
  · exact absurd h.symm hne
  · rfl

theorem versionOracle_noNullPreimage : versionOracle.NoNullPreimage := by
  rintro a (rfl | rfl)
  · change (1 : Fr) ≠ 0
    decide
  · change (2 : Fr) ≠ 0
    decide

theorem unitCells_opens (version : Fr) (h : version = 1 ∨ version = 2) :
    Opens versionOracle (unitCells version) version := by
  have hne : (1 : Fr) ≠ 0 := by decide
  refine ⟨?_, ?_, ?_⟩
  · rcases h with rfl | rfl
    · exact Or.inl rfl
    · exact Or.inr rfl
  · simp [unitCells]
  · change version = if (1 : Fr) = 0 then 0 else version
    rw [if_neg hne]

theorem note_agrees_iff_unit :
    AgreesNatively versionOracle.hash (unitCells 1) ∧
      ¬ AgreesNatively versionOracle.hash (unitCells 2) := by
  have hne : (2 : Fr) ≠ 1 := by decide
  have hvalue : (1 : Fr) ≠ 0 := by decide
  constructor
  · exact ((note_agrees_iff versionOracle versionOracle_collisionFree
      versionOracle_noNullPreimage [] unitNote (unitCells 1) (Or.inl rfl)).2 1
      (unitCells_opens 1 (Or.inl rfl))).mpr (Or.inr rfl)
  · intro h
    rcases ((note_agrees_iff versionOracle versionOracle_collisionFree
      versionOracle_noNullPreimage [] unitNote (unitCells 2) (Or.inl rfl)).2 2
      (unitCells_opens 2 (Or.inr rfl))).mp h with hzero | hversion
    · exact hvalue hzero
    · exact hne hversion

/-- The circuit opens a commitment under the version two, and no note of the code has it. -/
theorem not_agrees_version_two :
    versionOracle.CollisionFree ∧ versionOracle.NoNullPreimage ∧
      Sat versionOracle [] (unitNote.enforceConstraints versionOracle.hash) (unitCells 2) ∧
        ¬ AgreesNatively versionOracle.hash (unitCells 2) := by
  refine ⟨versionOracle_collisionFree, versionOracle_noNullPreimage, ?_, ?_⟩
  · exact (sat_note versionOracle [] versionOracle.hash unitNote (unitCells 2)).mpr
      ⟨2, unitCells_opens 2 (Or.inr rfl)⟩
  · intro h
    have hcm := (cm_eq_iff versionOracle (unitCells 2)).mp h.commitment_eq
    rw [note_commitment] at hcm
    exact absurd hcm (by decide)

end UnknownVersion

end PayyRollup.Notes
