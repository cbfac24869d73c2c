import PayyRollup.Notes

/-!
The UTXO circuit over two input and two output notes. The source returns nothing from
its constraints; here the assigned cells are returned so that statements can name them.
`Constrained` says exactly what the constraints force on these cells and on the seven
rows of the instance column.
-/
namespace PayyRollup.UtxoCircuit

open BitLists ScalarField ConstraintProgram Layouter Chips Gadgets SparseMerkle ElementHash Notes

def utxoInputs : ℕ := 2

def utxoOutputs : ℕ := 2

inductive UtxoKind
  | null
  | transfer
  | mint
  | burn
  deriving DecidableEq

def UtxoKind.asElement : UtxoKind → Fr
  | null => 0
  | transfer => 1
  | mint => 2
  | burn => 3

structure Utxo (D : ℕ) where
  inputs : Vector (InputNote D) utxoInputs
  outputs : Vector Note utxoOutputs
  root : Element
  kind : UtxoKind

/-- An input note with its root and nullifier after the padding swaps. -/
structure UtxoInputCells where
  note : InputNoteConstraintCells
  root : Fr
  nullifier : Fr

structure UtxoCells where
  unverifiedRoot : Fr
  utxoKind : Fr
  inputs : List UtxoInputCells
  outputs : List NoteConstraintCells

namespace Utxo

variable {D : ℕ} (hash : List Fr → Fr)

def default (D : ℕ) : Utxo D where
  inputs := Vector.replicate utxoInputs (InputNote.default hash D)
  outputs := Vector.replicate utxoOutputs Note.default
  root := Element.zero
  kind := UtxoKind.transfer

def newTransfer (inputs : Vector (InputNote D) utxoInputs) (outputs : Vector Note utxoOutputs)
    (root : Element) : Utxo D where
  inputs := inputs
  outputs := outputs
  root := root
  kind := UtxoKind.transfer

def newMint (D : ℕ) (outputNote : Note) : Utxo D where
  inputs := Vector.replicate utxoInputs (InputNote.paddingNote hash D)
  outputs := #v[outputNote, Note.paddingNote hash]
  root := Element.zero
  kind := UtxoKind.mint

def newBurn (inputNote : InputNote D) (root : Element) : Utxo D where
  inputs := #v[inputNote, InputNote.paddingNote hash D]
  outputs := Vector.replicate utxoOutputs (Note.paddingNote hash)
  root := root
  kind := UtxoKind.burn

def newPadding (D : ℕ) : Utxo D where
  inputs := Vector.replicate utxoInputs (InputNote.paddingNote hash D)
  outputs := Vector.replicate utxoOutputs (Note.paddingNote hash)
  root := Element.zero
  kind := UtxoKind.transfer

/-- The swaps replace the root and the nullifier of a padding note. -/
def enforceInput (unverifiedRoot zero : Fr) (inputNote : InputNote D) :
    Layouter Fr UtxoInputCells := do
  let cells ← inputNote.enforceConstraints hash
  let root ← CondSwapChip.swapAssigned (cells.root, unverifiedRoot) cells.commitment.isPadding
  let nullifier ← CondSwapChip.swapAssigned (cells.nullifier, zero) cells.commitment.isPadding
  return { note := cells, root := root.1, nullifier := nullifier.1 }

/-- The upper sixteen bits of an output value are constrained to zero. -/
def enforceOutput (outputNote : Note) : Layouter Fr NoteConstraintCells := do
  let cells ← outputNote.enforceConstraints hash
  let decomposedBits ← BinaryDecomposition.copyDecompose cells.value 256 256
  forAll (fun bit => constrainEqual bit 0) (decomposedBits.reverse.take (256 - 240))
  return cells

def enforceConstraints (self : Utxo D) : Layouter Fr UtxoCells := do
  let unverifiedRoot ← assignAdvice self.root.toBase
  let zero : Fr := 0
  let utxoKind ← assignAdvice self.kind.asElement
  let isMint ← IsConstantChip.assign UtxoKind.mint.asElement utxoKind
  let isBurn ← IsConstantChip.assign UtxoKind.burn.asElement utxoKind
  let inputs ← forEach (enforceInput hash unverifiedRoot zero) self.inputs.toList
  let outputs ← forEach (enforceOutput hash) self.outputs.toList
  let inputHashes := inputs.map UtxoInputCells.nullifier
  let outputHashes := outputs.map NoteConstraintCells.cm
  let totalIn ← AddCulmChip.assign (inputs.map fun cells => cells.note.commitment.value)
  let totalOut ← AddCulmChip.assign (outputs.map NoteConstraintCells.value)
  let mbHash ← CondSwapChip.swapAssigned (zero, outputHashes.headD zero) isMint
  let mbHash ← CondSwapChip.swapAssigned (mbHash.1, inputHashes.headD zero) isBurn
  let value ← CondSwapChip.swapAssigned (zero, totalOut) isMint
  let value ← CondSwapChip.swapAssigned (value.1, totalIn) isBurn
  let remainingOut ← CondSwapChip.swapAssigned (totalOut, zero) isMint
  let remainingIn ← CondSwapChip.swapAssigned (totalIn, zero) isBurn
  constrainEqual remainingIn.1 remainingOut.1
  forAll (fun root => constrainInstance root 0) (inputs.map UtxoInputCells.root)
  constrainInstance mbHash.1 1
  constrainInstance value.1 2
  forAll (fun hash => constrainInstance hash.1 (hash.2 + 3)) (inputHashes ++ outputHashes).zipIdx
  return { unverifiedRoot, utxoKind, inputs, outputs }

def leafs (self : Utxo D) : List Fr :=
  self.inputs.toList.map (fun input => (input.nullifer hash).toBase) ++
    self.outputs.toList.map (fun output => (output.commitment hash).toBase)

def publicInputs (self : Utxo D) : List Fr :=
  let mbHash := match self.kind with
    | .mint => (self.outputs[0].commitment hash).toBase
    | .burn => (self.inputs[0].nullifer hash).toBase
    | _ => 0
  let mbValue := match self.kind with
    | .mint => self.outputs[0].value.toBase
    | .burn => self.inputs[0].note.value.toBase
    | _ => 0
  [self.root.toBase, mbHash, mbValue] ++ self.leafs hash

end Utxo

namespace UtxoInputCells

def value (cells : UtxoInputCells) : Fr := cells.note.commitment.value

end UtxoInputCells

namespace UtxoCells

variable (cells : UtxoCells)

def isMint : Prop := cells.utxoKind = UtxoKind.mint.asElement

def isBurn : Prop := cells.utxoKind = UtxoKind.burn.asElement

instance : Decidable cells.isMint := inferInstanceAs (Decidable (_ = _))

instance : Decidable cells.isBurn := inferInstanceAs (Decidable (_ = _))

def totalIn : Fr := (cells.inputs.map UtxoInputCells.value).sum

def totalOut : Fr := (cells.outputs.map NoteConstraintCells.value).sum

def nullifiers : List Fr := cells.inputs.map UtxoInputCells.nullifier

def commitments : List Fr := cells.outputs.map NoteConstraintCells.cm

def mbHash : Fr :=
  if cells.isBurn then cells.nullifiers.headD 0
  else if cells.isMint then cells.commitments.headD 0 else 0

def mbValue : Fr :=
  if cells.isBurn then cells.totalIn else if cells.isMint then cells.totalOut else 0

end UtxoCells

/-- What the constraints force on one input of the circuit. -/
structure ConstrainedInput (O : HashOracle Fr) (D : ℕ) (unverifiedRoot : Fr)
    (cells : UtxoInputCells) : Prop where
  spends : ∃ version path, Spends O D cells.note version path
  root_eq : cells.root = if cells.value = 0 then unverifiedRoot else cells.note.root
  nullifier_eq : cells.nullifier = if cells.value = 0 then 0 else cells.note.nullifier

/-- What the constraints force on one output of the circuit. -/
structure ConstrainedOutput (O : HashOracle Fr) (cells : NoteConstraintCells) : Prop where
  opens : ∃ version, Opens O cells version
  value_lt : cells.value.val < 2 ^ 240

/-- What the constraints of the UTXO circuit force on its cells and instances. -/
structure Constrained (O : HashOracle Fr) (D : ℕ) (inst : List Fr) (cells : UtxoCells) :
    Prop where
  inputs_length : cells.inputs.length = utxoInputs
  outputs_length : cells.outputs.length = utxoOutputs
  input : ∀ c ∈ cells.inputs, ConstrainedInput O D cells.unverifiedRoot c
  output : ∀ c ∈ cells.outputs, ConstrainedOutput O c
  balance : (if cells.isBurn then 0 else cells.totalIn) =
    if cells.isMint then 0 else cells.totalOut
  root : ∀ c ∈ cells.inputs, inst[0]? = some c.root
  mb_hash : inst[1]? = some cells.mbHash
  mb_value : inst[2]? = some cells.mbValue
  leaf : ∀ h ∈ (cells.nullifiers ++ cells.commitments).zipIdx, inst[h.2 + 3]? = some h.1

section Laws

variable (O : HashOracle Fr) (inst : List Fr) (hash : List Fr → Fr)

/-- The bits above the bound of a small value are zero. -/
theorem topBits_zero (value : Fr) (h : value.val < 2 ^ 240) :
    ∀ bit ∈ ((toBits 256 value.val).map bitCell).reverse.take (256 - 240), bit = (0 : Fr) := by
  intro bit hbit
  rw [List.take_reverse, List.length_map, toBits_length, ← List.map_drop,
    List.mem_reverse, List.mem_map] at hbit
  obtain ⟨b, hb, rfl⟩ := hbit
  rw [drop_toBits_of_lt 256 240 value.val h b hb, bitCell_false]

theorem sat_rangeCheck (value : Fr) :
    (∃ bits, Sat O inst (BinaryDecomposition.copyDecompose value 256 256) bits ∧
        ∀ bit ∈ bits.reverse.take (256 - 240), bit = 0) ↔ value.val < 2 ^ 240 := by
  simp only [sat_copyDecompose]
  constructor
  · rintro ⟨-, ⟨bits, hlen, rfl, hvalue⟩, htop⟩
    have hdrop : ∀ b ∈ bits.drop 240, b = false := by
      intro b hb
      have hcell : (bitCell b : Fr) ∈ (bits.map bitCell).reverse.take (256 - 240) := by
        rw [List.take_reverse, List.length_map, hlen, ← List.map_drop]
        exact List.mem_reverse.mpr (List.mem_map_of_mem hb)
      have hzero := htop _ hcell
      rw [← bitCell_false, bitCell_inj] at hzero
      exact hzero
    have hlt := ofBits_lt_of_drop bits 240 hdrop
    have hmod : 2 ^ 240 < modulus := by decide
    rw [hvalue, bitsValue, ZMod.val_natCast, Nat.mod_eq_of_lt (hlt.trans hmod)]
    exact hlt
  · intro hlt
    refine ⟨_, ⟨toBits 256 value.val, toBits_length _ _, rfl,
      (bitsValue_toBits value).symm⟩, ?_⟩
    exact topBits_zero value hlt

theorem swapped_fst {F : Type} (a b : F) (swap : Bool) :
    (swapped (a, b) swap).1 = if swap then b else a := by
  cases swap <;> rfl

theorem sat_enforceInput {D : ℕ} (unverifiedRoot : Fr) (note : InputNote D)
    (cells : UtxoInputCells) :
    Sat O inst (Utxo.enforceInput hash unverifiedRoot 0 note) cells ↔
      ConstrainedInput O D unverifiedRoot cells := by
  simp only [Utxo.enforceInput, sat_bind, sat_inputNote, sat_swapAssigned, sat_pure]
  constructor
  · rintro ⟨note, ⟨version, path, hspends⟩, root, ⟨s, hs, rfl⟩, nullifier, ⟨t, ht, rfl⟩, rfl⟩
    rw [hspends.opens.is_padding, bitCell_inj] at hs ht
    subst hs ht
    refine ⟨⟨version, path, hspends⟩, ?_, ?_⟩
    · by_cases h : note.commitment.value = 0 <;> simp [swapped_fst, UtxoInputCells.value, h]
    · by_cases h : note.commitment.value = 0 <;> simp [swapped_fst, UtxoInputCells.value, h]
  · rintro ⟨⟨version, path, hspends⟩, hroot, hnull⟩
    refine ⟨cells.note, ⟨version, path, hspends⟩, _,
      ⟨decide (cells.value = 0), hspends.opens.is_padding, rfl⟩, _,
      ⟨decide (cells.value = 0), hspends.opens.is_padding, rfl⟩, ?_⟩
    rw [swapped_fst, swapped_fst]
    simp only [decide_eq_true_eq]
    rw [← hroot, ← hnull]

theorem sat_enforceOutput (note : Note) (cells : NoteConstraintCells) :
    Sat O inst (Utxo.enforceOutput hash note) cells ↔ ConstrainedOutput O cells := by
  simp only [Utxo.enforceOutput, sat_bind, sat_note, sat_forAll, sat_constrainEqual, sat_pure]
  constructor
  · rintro ⟨c, hopens, bits, hbits, -, htop, rfl⟩
    exact ⟨hopens, (sat_rangeCheck O inst c.value).mp ⟨bits, hbits, htop⟩⟩
  · rintro ⟨hopens, hlt⟩
    obtain ⟨bits, hbits, htop⟩ := (sat_rangeCheck O inst cells.value).mpr hlt
    exact ⟨cells, hopens, bits, hbits, (), htop, rfl⟩

/-- The constraints of the UTXO circuit, read off its cells. -/
theorem sat_utxo {D : ℕ} (self : Utxo D) (cells : UtxoCells) :
    Sat O inst (self.enforceConstraints hash) cells ↔ Constrained O D inst cells := by
  simp only [Utxo.enforceConstraints, sat_bind, sat_assignAdvice, sat_isConstant,
    sat_forEach_const O inst _ _ (sat_enforceInput O inst hash _),
    sat_forEach_const O inst _ _ (sat_enforceOutput O inst hash), sat_addCulm,
    sat_swapAssigned, sat_constrainEqual, sat_forAll, sat_constrainInstance, sat_pure,
    true_and, Vector.length_toList]
  constructor
  · rintro ⟨root, kind, isMint, rfl, isBurn, rfl, inputs, ⟨hil, hinput⟩, outputs,
      ⟨hol, houtput⟩, totalIn, rfl, totalOut, rfl, h1, ⟨s1, hs1, rfl⟩, h2, ⟨s2, hs2, rfl⟩,
      v1, ⟨s3, hs3, rfl⟩, v2, ⟨s4, hs4, rfl⟩, ro, ⟨s5, hs5, rfl⟩, ri, ⟨s6, hs6, rfl⟩,
      -, hbalance, -, hroots, -, hmb, -, hvalue, -, hleaf, rfl⟩
    rw [bitCell_inj] at hs1 hs2 hs3 hs4 hs5 hs6
    subst hs1 hs2 hs3 hs4 hs5 hs6
    simp only [swapped_fst, decide_eq_true_eq] at hbalance hmb hvalue
    refine ⟨hil, hol, hinput, houtput, hbalance, ?_, hmb, hvalue, hleaf⟩
    intro c hc
    exact hroots _ (List.mem_map_of_mem hc)
  · intro h
    refine ⟨cells.unverifiedRoot, cells.utxoKind, _, rfl, _, rfl, cells.inputs,
      ⟨h.inputs_length, h.input⟩, cells.outputs, ⟨h.outputs_length, h.output⟩, _, rfl, _, rfl,
      _, ⟨decide cells.isMint, rfl, rfl⟩, _, ⟨decide cells.isBurn, rfl, rfl⟩,
      _, ⟨decide cells.isMint, rfl, rfl⟩, _, ⟨decide cells.isBurn, rfl, rfl⟩,
      _, ⟨decide cells.isMint, rfl, rfl⟩, _, ⟨decide cells.isBurn, rfl, rfl⟩,
      (), ?_, (), ?_, (), ?_, (), ?_, (), h.leaf, rfl⟩
    · simp only [swapped_fst, decide_eq_true_eq]
      exact h.balance
    · intro root hroot
      obtain ⟨c, hc, rfl⟩ := List.mem_map.mp hroot
      exact h.root c hc
    · simp only [swapped_fst, decide_eq_true_eq]
      exact h.mb_hash
    · simp only [swapped_fst, decide_eq_true_eq]
      exact h.mb_value

end Laws
end PayyRollup.UtxoCircuit
