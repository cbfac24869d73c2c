import PayyRollup.UtxoCircuit
import PayyRollup.NoteCommitments

/-!
The honest prover of the UTXO circuit. The synthesis with the prover's own values ends with the
cells that the code computes outside the circuit: each note with its commitment, each input
with its nullifier and its root. The two selectors of the kind then pick the rows that
`publicInputs` lists, so every constraint of a transaction that one of the constructors built
from well-formed notes is met.
-/
namespace PayyRollup.UtxoCompleteness

open BitLists ScalarField ConstraintProgram Layouter Chips Gadgets SparseMerkle ElementHash
  Notes UtxoCircuit

section Notes

variable (hash : List Fr → Fr)

/-- The cells of the honest prover. -/
def noteCells (note : Note) : NoteConstraintCells where
  value := note.value.toBase
  address := note.address.toBase
  cm := (note.commitment hash).toBase
  isPadding := bitCell (decide (note.value = Element.zero))
  source := note.source.toBase
  psi := note.psi.toBase

variable (inst : List Fr)

theorem run_note (note : Note) (hvalue : note.value.toNat < modulus) :
    run hash inst (note.enforceConstraints hash) = some (noteCells hash note) := by
  simp only [Note.enforceConstraints, poseidonHashGadget, run_bind, run_assignAdvice,
    run_hashGadget, run_isConstant, run_swapAssigned, run_pure, Option.bind_some,
    Note.paddingConstant_eq, Element.toBase_eq_zero note.value hvalue, noteCells]
  by_cases hzero : note.value = Element.zero
  · rw [commitment_of_eq hash note hzero, Element.toBase_zero, decide_eq_true hzero]
    rfl
  · rw [commitment_of_ne hash note hzero, Element.toBase_fromBase, decide_eq_false hzero]
    rfl

theorem commitment_lt (note : Note) : (note.commitment hash).toNat < modulus := by
  by_cases hzero : note.value = Element.zero
  · rw [commitment_of_eq hash note hzero]
    decide
  · rw [commitment_of_ne hash note hzero, Element.fromBase_toNat]
    exact ZMod.val_lt _

end Notes

section Inputs

variable {D : ℕ} (hash : List Fr → Fr)

/-- An input note that can be spent under a root: the address is the hash of the key, and the
path of a note that is no padding leads to the root. -/
structure Spendable (root : Element) (input : InputNote D) : Prop where
  value_lt : input.note.value.toNat < 2 ^ 240
  address_eq : input.note.address = hashMerge hash [input.secretKey, Element.zero]
  root_eq : input.note.isPadding hash = false → input.recentRoot hash = root

def inputCells (input : InputNote D) : InputNoteConstraintCells where
  commitment := noteCells hash input.note
  nullifier := hash [(input.note.commitment hash).toBase, input.secretKey.toBase,
    input.note.psi.toBase, 0]
  root := (input.recentRoot hash).toBase
  secretKey := input.secretKey.toBase
  zero := 0

variable (inst : List Fr)

theorem value_lt_modulus {value : Element} (h : value.toNat < 2 ^ 240) :
    value.toNat < modulus := by
  have hmodulus : 2 ^ 240 < modulus := by decide
  exact h.trans hmodulus

theorem run_inputNote (root : Element) (input : InputNote D) (h : Spendable hash root input) :
    run hash inst (input.enforceConstraints hash) = some (inputCells hash input) := by
  have haddress : hash [input.secretKey.toBase, 0] = input.note.address.toBase := by
    rw [h.address_eq, toBase_hashMerge, List.map_cons, List.map_cons, Element.toBase_zero]
    rfl
  have hroot : climbUp (fieldNode hash) (input.note.commitment hash).toBase
      (input.merklePath.steps (Element.fromBase (input.note.commitment hash).toBase)) =
        (input.recentRoot hash).toBase := by
    rw [Element.fromBase_toBase _ (commitment_lt hash input.note)]
    exact (MerklePath.computeRootFromLeaf_toBase hash input.merklePath _ _).symm
  simp only [InputNote.enforceConstraints, poseidonHashGadget, run_bind,
    run_note hash inst input.note (value_lt_modulus h.value_lt), Option.bind_some,
    MerklePath.run_enforceInclusion, run_assignAdvice, run_hashGadget, run_constrainEqual,
    run_pure, noteCells, haddress, if_pos, hroot]
  rfl

/-- The root and the nullifier of a padding note give way to the root of the transaction and
to zero. -/
def enforcedCells (root : Element) (input : InputNote D) : UtxoInputCells where
  note := inputCells hash input
  root := root.toBase
  nullifier := (input.nullifer hash).toBase

theorem run_enforceInput (root : Element) (input : InputNote D) (h : Spendable hash root input)
    (hhash : input.note.value ≠ Element.zero → hash input.note.message ≠ 0) :
    run hash inst (Utxo.enforceInput hash root.toBase 0 input) =
      some (enforcedCells hash root input) := by
  simp only [Utxo.enforceInput, run_bind, run_inputNote hash inst root input h,
    Option.bind_some, inputCells, noteCells, run_swapAssigned, run_pure]
  have hpad := isPadding_eq hash input.note
  by_cases hzero : input.note.value = Element.zero
  · have hnull : input.nullifer hash = Element.zero := by
      rw [InputNote.nullifer, Note.nullifier, hpad, if_pos (decide_eq_true (Or.inl hzero)),
        Note.paddingNote_commitment]
    simp only [enforcedCells, inputCells, noteCells, hnull, Element.toBase_zero,
      decide_eq_true hzero]
    rfl
  · have hfalse : input.note.isPadding hash = false := by
      rw [hpad, decide_eq_false_iff_not]
      rintro (h | h)
      · exact hzero h
      · exact hhash hzero h
    have hnull : (input.nullifer hash).toBase = hash [(input.note.commitment hash).toBase,
        input.secretKey.toBase, input.note.psi.toBase, 0] := by
      rw [InputNote.nullifer, Note.nullifier, hfalse, if_neg Bool.false_ne_true, toBase_hashMerge]
      simp
    simp only [enforcedCells, inputCells, noteCells, hnull, ← h.root_eq hfalse,
      decide_eq_false hzero]
    rfl

theorem spendable_paddingNote (root : Element) :
    Spendable hash root (InputNote.paddingNote hash D) := by
  refine ⟨?_, ?_, ?_⟩
  · change Element.zero.toNat < 2 ^ 240
    decide
  · change Element.fromBase (hash [0, 0]) = _
    rw [hashMerge, InputNote.paddingNote, List.map_cons, List.map_cons, Element.toBase_zero]
    rfl
  · intro h
    have hpad : (Note.paddingNote hash).isPadding hash = true := by
      rw [isPadding_eq]
      exact decide_eq_true (Or.inl rfl)
    exact absurd (hpad.symm.trans h) Bool.noConfusion

end Inputs

section Outputs

variable (hash : List Fr → Fr) (inst : List Fr)

theorem run_forAll {α : Type} (f : α → Layouter Fr Unit) (xs : List α)
    (h : ∀ x ∈ xs, (run hash inst (f x)).isSome) : run hash inst (forAll f xs) = some () := by
  obtain ⟨⟨⟩, hrun⟩ := Option.isSome_iff_exists.mp ((run_forAll_isSome hash inst f xs).mpr h)
  exact hrun

theorem run_enforceOutput (note : Note) (h : note.value.toNat < 2 ^ 240) :
    run hash inst (Utxo.enforceOutput hash note) = some (noteCells hash note) := by
  have hval : note.value.toBase.val < 2 ^ 240 := by
    rw [Element.toBase_val _ (value_lt_modulus h)]
    exact h
  have hcheck : run hash inst (forAll (fun bit => constrainEqual bit 0)
      (((toBits 256 note.value.toBase.val).map bitCell).reverse.take (256 - 240))) = some () := by
    apply run_forAll
    intro bit hbit
    exact (run_constrainEqual_isSome hash inst bit 0).mpr
      (topBits_zero note.value.toBase hval bit hbit)
  simp only [Utxo.enforceOutput, run_bind, run_note hash inst note (value_lt_modulus h),
    Option.bind_some, run_copyDecompose, run_pure]
  change (run hash inst (forAll _ (List.take _ (List.map bitCell
    (toBits 256 note.value.toBase.val)).reverse))).bind _ = _
  rw [hcheck]
  rfl

end Outputs

section Selectors

theorem asElement_inj (a b : UtxoKind) : a.asElement = b.asElement ↔ a = b := by
  have h : ∀ a b : UtxoKind, a.asElement = b.asElement → a = b := by
    intro a b
    cases a <;> cases b <;> decide
  exact ⟨h a b, congrArg _⟩

theorem swapped_kind (kind selected : UtxoKind) (a b : Fr) :
    (swapped (a, b) (decide (kind.asElement = selected.asElement))).1 =
      if kind = selected then b else a := by
  rw [swapped_fst]
  simp only [decide_eq_true_eq, asElement_inj]

theorem headD_map {α β : Type} (v : Vector α 2) (f : α → β) (d : β) :
    (v.toList.map f).headD d = f v[0] := by
  obtain ⟨⟨values⟩, hsize⟩ := v
  cases values with
  | nil => exact absurd hsize (Nat.zero_ne_add_one 1)
  | cons first rest => rfl

variable {D : ℕ} (hash : List Fr → Fr)

/-- The two sides of a transaction in the field, as its kind compares them. -/
structure Balances (utxo : Utxo D) : Prop where
  sides_eq : (if utxo.kind = UtxoKind.burn then 0
      else (utxo.inputs.toList.map fun input => input.note.value.toBase).sum) =
    if utxo.kind = UtxoKind.mint then 0
      else (utxo.outputs.toList.map fun output => output.value.toBase).sum
  minted : utxo.kind = UtxoKind.mint →
    (utxo.outputs.toList.map fun output => output.value.toBase).sum = utxo.outputs[0].value.toBase
  burnt : utxo.kind = UtxoKind.burn →
    (utxo.inputs.toList.map fun input => input.note.value.toBase).sum =
      utxo.inputs[0].note.value.toBase

/-- What the constructors build out of well-formed notes. -/
structure WellFormed (utxo : Utxo D) : Prop where
  spendable : ∀ input ∈ utxo.inputs.toList, Spendable hash utxo.root input
  value_lt : ∀ output ∈ utxo.outputs.toList, output.value.toNat < 2 ^ 240
  balances : Balances utxo

theorem publicInputs_mbHash (utxo : Utxo D) :
    (utxo.publicInputs hash)[1]? =
      some (if utxo.kind = UtxoKind.burn then (utxo.inputs[0].nullifer hash).toBase
        else if utxo.kind = UtxoKind.mint then (utxo.outputs[0].commitment hash).toBase
        else 0) := by
  obtain ⟨inputs, outputs, root, kind⟩ := utxo
  cases kind <;> rfl

theorem publicInputs_mbValue (utxo : Utxo D) (h : Balances utxo) :
    (utxo.publicInputs hash)[2]? =
      some (if utxo.kind = UtxoKind.burn
        then (utxo.inputs.toList.map fun input => input.note.value.toBase).sum
        else if utxo.kind = UtxoKind.mint
          then (utxo.outputs.toList.map fun output => output.value.toBase).sum else 0) := by
  obtain ⟨-, hmint, hburn⟩ := h
  obtain ⟨inputs, outputs, root, kind⟩ := utxo
  cases kind with
  | null => rfl
  | transfer => rfl
  | mint =>
    rw [if_neg UtxoKind.noConfusion, if_pos rfl, hmint rfl]
    rfl
  | burn =>
    rw [if_pos rfl, hburn rfl]
    rfl

/-- The roots and the leaves are those that the code lists. -/
theorem run_exposed (utxo : Utxo D) :
    run hash (utxo.publicInputs hash) (forAll (fun root => constrainInstance root 0)
        ((utxo.inputs.toList.map (enforcedCells hash utxo.root)).map UtxoInputCells.root)) =
      some () ∧
    run hash (utxo.publicInputs hash) (forAll (fun hash => constrainInstance hash.1 (hash.2 + 3))
        ((utxo.inputs.toList.map (enforcedCells hash utxo.root)).map UtxoInputCells.nullifier ++
          (utxo.outputs.toList.map (noteCells hash)).map NoteConstraintCells.cm).zipIdx) =
      some () := by
  constructor
  · apply run_forAll
    intro root hmem
    obtain ⟨cells, hcells, rfl⟩ := List.mem_map.mp hmem
    obtain ⟨input, -, rfl⟩ := List.mem_map.mp hcells
    exact (run_constrainInstance_isSome hash _ _ 0).mpr rfl
  · apply run_forAll
    intro leaf hmem
    rw [List.map_map, List.map_map] at hmem
    exact (run_constrainInstance_isSome hash _ _ _).mpr (List.mem_zipIdx_iff_getElem?.mp hmem)

theorem run_enforceConstraints (utxo : Utxo D) (h : WellFormed hash utxo)
    (hhash : ∀ input ∈ utxo.inputs.toList,
      input.note.value ≠ Element.zero → hash input.note.message ≠ 0) :
    (run hash (utxo.publicInputs hash) (utxo.enforceConstraints hash)).isSome := by
  have hins := run_forEach hash (utxo.publicInputs hash)
    (Utxo.enforceInput hash utxo.root.toBase 0) (enforcedCells hash utxo.root) utxo.inputs.toList
    fun input hmem => run_enforceInput hash _ utxo.root input (h.spendable input hmem)
      (hhash input hmem)
  have houts := run_forEach hash (utxo.publicInputs hash) (Utxo.enforceOutput hash)
    (noteCells hash) utxo.outputs.toList
    fun output hmem => run_enforceOutput hash _ output (h.value_lt output hmem)
  have hnullifier : ((utxo.inputs.toList.map (enforcedCells hash utxo.root)).map
      UtxoInputCells.nullifier).headD 0 = (utxo.inputs[0].nullifer hash).toBase := by
    rw [List.map_map]
    exact headD_map utxo.inputs _ 0
  have hcommitment : ((utxo.outputs.toList.map (noteCells hash)).map
      NoteConstraintCells.cm).headD 0 = (utxo.outputs[0].commitment hash).toBase := by
    rw [List.map_map]
    exact headD_map utxo.outputs _ 0
  have htotalIn : ((utxo.inputs.toList.map (enforcedCells hash utxo.root)).map
      fun cells => cells.note.commitment.value).sum =
        (utxo.inputs.toList.map fun input => input.note.value.toBase).sum := by
    rw [List.map_map]
    rfl
  have htotalOut : ((utxo.outputs.toList.map (noteCells hash)).map
      NoteConstraintCells.value).sum =
        (utxo.outputs.toList.map fun output => output.value.toBase).sum := by
    rw [List.map_map]
    rfl
  obtain ⟨hroots, hleafs⟩ := run_exposed hash utxo
  simp only [Utxo.enforceConstraints, run_bind, run_assignAdvice, run_isConstant, hins, houts,
    run_addCulm, run_swapAssigned, Option.bind_some, swapped_kind, htotalIn, htotalOut,
    hnullifier, hcommitment, run_constrainEqual, if_pos h.balances.sides_eq, hroots,
    run_constrainInstance, if_pos (publicInputs_mbHash hash utxo),
    if_pos (publicInputs_mbValue hash utxo h.balances), hleafs, run_pure, Option.isSome_some]

end Selectors

section Constructors

variable {D : ℕ} (hash : List Fr → Fr)

/-- The transactions that the constructors make of well-formed notes. -/
inductive Built : Utxo D → Prop
  | transfer (inputs : Vector (InputNote D) utxoInputs) (outputs : Vector Note utxoOutputs)
      (root : Element) (spendable : ∀ input ∈ inputs.toList, Spendable hash root input)
      (value_lt : ∀ output ∈ outputs.toList, output.value.toNat < 2 ^ 240)
      (balanced : (inputs.toList.map fun input => input.note.value.toNat).sum =
        (outputs.toList.map fun output => output.value.toNat).sum) :
      Built (Utxo.newTransfer inputs outputs root)
  | mint (outputNote : Note) (value_lt : outputNote.value.toNat < 2 ^ 240) :
      Built (Utxo.newMint hash D outputNote)
  | burn (inputNote : InputNote D) (root : Element) (spendable : Spendable hash root inputNote) :
      Built (Utxo.newBurn hash inputNote root)
  | padding : Built (Utxo.newPadding hash D)

theorem sum_toBase {α : Type} (value : α → Element) (xs : List α) :
    (xs.map fun x => (value x).toBase).sum = ((xs.map fun x => (value x).toNat).sum : Fr) := by
  induction xs with
  | nil => rfl
  | cons x rest ih =>
    rw [List.map_cons, List.sum_cons, List.map_cons, List.sum_cons, ih, Nat.cast_add]
    rfl

theorem forall_mem_pair {α : Type} (p : α → Prop) (a b : α) (ha : p a) (hb : p b) :
    ∀ x ∈ (#v[a, b] : Vector α 2).toList, p x := by
  intro x hx
  rcases List.mem_pair.mp hx with rfl | rfl
  · exact ha
  · exact hb

theorem forall_mem_replicate {α : Type} (p : α → Prop) (a : α) (ha : p a) :
    ∀ x ∈ (Vector.replicate 2 a).toList, p x := by
  intro x hx
  rw [Vector.toList_replicate] at hx
  rw [List.eq_of_mem_replicate hx]
  exact ha

theorem paddingNote_value_lt : (Note.paddingNote hash).value.toNat < 2 ^ 240 := by
  change Element.zero.toNat < 2 ^ 240
  decide

theorem paddingNote_value : (Note.paddingNote hash).value.toBase = 0 := Element.toBase_zero

/-- Padding adds nothing to the value beside it. -/
theorem sum_padded {α : Type} (value : α → Fr) (a padding : α) (h : value padding = 0) :
    ((#v[a, padding] : Vector α 2).toList.map value).sum = value a := by
  change value a + (value padding + 0) = value a
  rw [h, add_zero, add_zero]

theorem sum_replicate {α : Type} (value : α → Fr) (padding : α) (h : value padding = 0) :
    ((Vector.replicate 2 padding).toList.map value).sum = 0 := by
  change value padding + (value padding + 0) = 0
  rw [h, add_zero, add_zero]

theorem Built.wellFormed {utxo : Utxo D} (h : Built hash utxo) : WellFormed hash utxo := by
  have hpadding := spendable_paddingNote (D := D) hash
  have hlt := paddingNote_value_lt hash
  have hzero := paddingNote_value hash
  cases h with
  | transfer inputs outputs root hspendable hvalue hbalanced =>
    refine ⟨hspendable, hvalue, ?_, UtxoKind.noConfusion, UtxoKind.noConfusion⟩
    change (inputs.toList.map fun input => input.note.value.toBase).sum =
      (outputs.toList.map fun output => output.value.toBase).sum
    rw [sum_toBase (fun input : InputNote D => input.note.value), sum_toBase, hbalanced]
  | mint outputNote hvalue =>
    refine ⟨forall_mem_replicate _ _ (hpadding _), forall_mem_pair _ _ _ hvalue hlt, ?_, ?_,
      UtxoKind.noConfusion⟩
    · exact sum_replicate _ (InputNote.paddingNote hash D) hzero
    · intro _
      exact sum_padded _ outputNote (Note.paddingNote hash) hzero
  | burn inputNote root hspendable =>
    refine ⟨forall_mem_pair _ _ _ hspendable (hpadding root),
      forall_mem_replicate _ _ hlt, ?_, UtxoKind.noConfusion, ?_⟩
    · exact (sum_replicate _ (Note.paddingNote hash) hzero).symm
    · intro _
      exact sum_padded _ inputNote (InputNote.paddingNote hash D) hzero
  | padding =>
    refine ⟨forall_mem_replicate _ _ (hpadding _), forall_mem_replicate _ _ hlt, ?_,
      UtxoKind.noConfusion, UtxoKind.noConfusion⟩
    exact (sum_replicate _ (InputNote.paddingNote hash D) hzero).trans
      (sum_replicate _ (Note.paddingNote hash) hzero).symm

/-- Every transaction that a constructor builds from well-formed notes meets the constraints,
with the public inputs that the code computes. -/
theorem run_built (O : HashOracle Fr) (hnull : O.NoNullPreimage) (utxo : Utxo D)
    (h : Built O.hash utxo)
    (hhashed : ∀ input ∈ utxo.inputs.toList,
      input.note.value ≠ Element.zero → input.note.message ∈ O.messages) :
    (run O.hash (utxo.publicInputs O.hash) (utxo.enforceConstraints O.hash)).isSome := by
  apply run_enforceConstraints O.hash utxo h.wellFormed
  intro input hmem hne
  exact hnull _ (hhashed input hmem hne)

/-- A hash with one value, which is not null. -/
def sevenOracle : HashOracle Fr := ⟨fun _ => 7, Set.univ⟩

theorem zeroPath_length : [Element.zero].length = 1 := rfl

/-- Five coins at the only address, on a path to the only root. -/
def fiveCoins : InputNote 2 where
  note := ⟨7#256, 1#256, 5#256, 7#256⟩
  secretKey := 3#256
  merklePath := ⟨[Element.zero], zeroPath_length⟩

theorem spendable_fiveCoins : Spendable sevenOracle.hash 7#256 fiveCoins := by
  refine ⟨?_, ?_, ?_⟩
  · decide
  · decide
  · intro _
    decide

def splitCoins : Utxo 2 :=
  Utxo.newTransfer #v[fiveCoins, InputNote.paddingNote sevenOracle.hash 2]
    #v[⟨7#256, 1#256, 2#256, 7#256⟩, ⟨9#256, 4#256, 3#256, 7#256⟩] 7#256

theorem run_built_splitCoins :
    (run sevenOracle.hash (splitCoins.publicInputs sevenOracle.hash)
      (splitCoins.enforceConstraints sevenOracle.hash)).isSome := by
  have hnull : sevenOracle.NoNullPreimage := by
    intro message _
    change (7 : Fr) ≠ 0
    decide
  refine run_built sevenOracle hnull splitCoins ?_ fun _ _ _ => Set.mem_univ _
  refine Built.transfer _ _ _ ?_ ?_ ?_
  · exact forall_mem_pair _ _ _ spendable_fiveCoins (spendable_paddingNote sevenOracle.hash _)
  · exact forall_mem_pair _ _ _ (by decide) (by decide)
  · rfl

end Constructors

end PayyRollup.UtxoCompleteness
