import PayyRollup.UtxoCircuit

/-!
Value conservation of the UTXO circuit over the natural numbers. The circuit equates
sums in the field; two values below `2 ^ 240` do not wrap, so the equation holds of the
values themselves. A mint creates the value it exposes and a burn destroys it.
-/
namespace PayyRollup.ValueConservation

open ScalarField ConstraintProgram Layouter Chips Notes UtxoCircuit

/-- The natural value of a list of cells. -/
def naturalSum (values : List Fr) : ℕ := (values.map ZMod.val).sum

@[simp] theorem naturalSum_nil : naturalSum [] = 0 := rfl

@[simp] theorem naturalSum_cons (value : Fr) (rest : List Fr) :
    naturalSum (value :: rest) = value.val + naturalSum rest := by
  simp [naturalSum]

theorem naturalSum_le (values : List Fr) (bound : ℕ) (h : ∀ v ∈ values, v.val < bound) :
    naturalSum values ≤ values.length * bound := by
  induction values with
  | nil => simp
  | cons v rest ih =>
    have hv := h v (List.mem_cons_self ..)
    have hrest := ih fun w hw => h w (List.mem_cons_of_mem _ hw)
    rw [naturalSum_cons, List.length_cons, Nat.succ_mul]
    omega

theorem cast_naturalSum (values : List Fr) : (naturalSum values : Fr) = values.sum := by
  induction values with
  | nil => simp
  | cons v rest ih => simp [ih]

/-- Few small values do not wrap around the modulus. -/
theorem val_sum (values : List Fr) (hlen : values.length ≤ 2)
    (h : ∀ v ∈ values, v.val < 2 ^ 240) : values.sum.val = naturalSum values := by
  have hle := naturalSum_le values (2 ^ 240) h
  have hbound : 2 * 2 ^ 240 < modulus := by decide
  have hmul : values.length * 2 ^ 240 ≤ 2 * 2 ^ 240 := Nat.mul_le_mul_right _ hlen
  rw [← cast_naturalSum, ZMod.val_natCast, Nat.mod_eq_of_lt (by omega)]

theorem naturalSum_eq_zero (values : List Fr) (hlen : values.length ≤ 2)
    (h : ∀ v ∈ values, v.val < 2 ^ 240) (hsum : values.sum = 0) : naturalSum values = 0 := by
  rw [← val_sum values hlen h, hsum, ZMod.val_zero]

theorem mint_ne_burn : UtxoKind.mint.asElement ≠ UtxoKind.burn.asElement := by
  unfold UtxoKind.asElement
  decide

section Cells

variable {O : HashOracle Fr} {D : ℕ} {inst : List Fr} {cells : UtxoCells}

theorem not_mint_of_burn (h : cells.isBurn) : ¬cells.isMint := by
  intro hmint
  exact mint_ne_burn (hmint.symm.trans h)

def inputSum (cells : UtxoCells) : ℕ := naturalSum (cells.inputs.map UtxoInputCells.value)

def outputSum (cells : UtxoCells) : ℕ := naturalSum (cells.outputs.map NoteConstraintCells.value)

def minted (cells : UtxoCells) : ℕ := if cells.isMint then cells.mbValue.val else 0

def burned (cells : UtxoCells) : ℕ := if cells.isBurn then cells.mbValue.val else 0

theorem padding_iff (h : Constrained O D inst cells) (c : UtxoInputCells)
    (hc : c ∈ cells.inputs) : c.note.commitment.isPadding = 1 ↔ c.value = 0 := by
  obtain ⟨version, path, hspends⟩ := (h.input c hc).spends
  rw [hspends.opens.is_padding, ← bitCell_true, bitCell_inj]
  exact decide_eq_true_iff

theorem not_padding_iff (h : Constrained O D inst cells) (c : UtxoInputCells)
    (hc : c ∈ cells.inputs) : c.note.commitment.isPadding = 0 ↔ c.value ≠ 0 := by
  obtain ⟨version, path, hspends⟩ := (h.input c hc).spends
  rw [hspends.opens.is_padding, ← bitCell_false, bitCell_inj]
  exact decide_eq_false_iff_not

theorem input_value_lt (h : Constrained O D inst cells)
    (hin : ∀ c ∈ cells.inputs, c.note.commitment.isPadding = 0 → c.value.val < 2 ^ 240)
    (v : Fr) (hv : v ∈ cells.inputs.map UtxoInputCells.value) : v.val < 2 ^ 240 := by
  obtain ⟨c, hc, rfl⟩ := List.mem_map.mp hv
  by_cases hzero : c.value = 0
  · rw [hzero, ZMod.val_zero]
    positivity
  · exact hin c hc ((not_padding_iff h c hc).mpr hzero)

theorem output_value_lt (h : Constrained O D inst cells) (v : Fr)
    (hv : v ∈ cells.outputs.map NoteConstraintCells.value) : v.val < 2 ^ 240 := by
  obtain ⟨c, hc, rfl⟩ := List.mem_map.mp hv
  exact (h.output c hc).value_lt

/-- The field equation of the circuit, read over the natural numbers. -/
theorem conserved (h : Constrained O D inst cells)
    (hin : ∀ c ∈ cells.inputs, c.note.commitment.isPadding = 0 → c.value.val < 2 ^ 240) :
    inputSum cells + minted cells = outputSum cells + burned cells := by
  have hilen : (cells.inputs.map UtxoInputCells.value).length ≤ 2 := by
    simp [h.inputs_length, utxoInputs]
  have holen : (cells.outputs.map NoteConstraintCells.value).length ≤ 2 := by
    simp [h.outputs_length, utxoOutputs]
  have hilt := input_value_lt h hin
  have holt := output_value_lt h
  have hbalance := h.balance
  unfold inputSum outputSum minted burned UtxoCells.mbValue
  by_cases hburn : cells.isBurn
  · have hmint := not_mint_of_burn hburn
    rw [if_pos hburn, if_neg hmint] at hbalance
    have hout : naturalSum (cells.outputs.map NoteConstraintCells.value) = 0 :=
      naturalSum_eq_zero _ holen holt hbalance.symm
    rw [if_neg hmint, if_pos hburn, if_pos hburn, hout, UtxoCells.totalIn,
      val_sum _ hilen hilt]
    omega
  · by_cases hmint : cells.isMint
    · rw [if_neg hburn, if_pos hmint] at hbalance
      have hinz : naturalSum (cells.inputs.map UtxoInputCells.value) = 0 :=
        naturalSum_eq_zero _ hilen hilt hbalance
      rw [if_pos hmint, if_neg hburn, if_neg hburn, if_pos hmint, hinz, UtxoCells.totalOut,
        val_sum _ holen holt]
      omega
    · rw [if_neg hburn, if_neg hmint] at hbalance
      rw [if_neg hmint, if_neg hburn, ← val_sum _ hilen hilt, ← val_sum _ holen holt]
      exact congrArg (fun x : Fr => x.val + 0) hbalance

theorem mbValue_transfer (hmint : ¬cells.isMint) (hburn : ¬cells.isBurn) :
    cells.mbValue = 0 := by
  rw [UtxoCells.mbValue, if_neg hburn, if_neg hmint]

theorem mbHash_transfer (hmint : ¬cells.isMint) (hburn : ¬cells.isBurn) : cells.mbHash = 0 := by
  rw [UtxoCells.mbHash, if_neg hburn, if_neg hmint]

end Cells

/-- Every satisfying assignment of the UTXO circuit conserves value: inputs and minted
value equal outputs and burned value, without wrapping. -/
theorem utxo_conserves_value (O : HashOracle Fr) (D : ℕ) (self : Utxo D) (inst : List Fr)
    (cells : UtxoCells) (hsat : Sat O inst (self.enforceConstraints O.hash) cells)
    (hin : ∀ c ∈ cells.inputs, c.note.commitment.isPadding = 0 → c.value.val < 2 ^ 240) :
    ∃ mbHash mbValue : Fr, inst[1]? = some mbHash ∧ inst[2]? = some mbValue ∧
      naturalSum (cells.inputs.map UtxoInputCells.value) +
          (if cells.isMint then mbValue.val else 0) =
        naturalSum (cells.outputs.map NoteConstraintCells.value) +
          (if cells.isBurn then mbValue.val else 0) ∧
      (∀ c ∈ cells.outputs, c.value.val < 2 ^ 240) ∧
      (∀ c ∈ cells.inputs, c.note.commitment.isPadding = 1 → c.value = 0) ∧
      (¬cells.isMint → ¬cells.isBurn → mbHash = 0 ∧ mbValue = 0) := by
  have h := (sat_utxo O inst O.hash self cells).mp hsat
  refine ⟨cells.mbHash, cells.mbValue, h.mb_hash, h.mb_value, conserved h hin, ?_, ?_, ?_⟩
  · intro c hc
    exact (h.output c hc).value_lt
  · intro c hc hpad
    exact (padding_iff h c hc).mp hpad
  · intro hmint hburn
    exact ⟨mbHash_transfer hmint hburn, mbValue_transfer hmint hburn⟩

section Burn

/-- A note of the burn below: everything hashes to 7 in its oracle. -/
private def burnNote (value cm isPadding : Fr) : NoteConstraintCells :=
  { value, address := 7, cm, isPadding, source := 0, psi := 0 }

private def burnInput (value cm isPadding nullifier : Fr) : UtxoInputCells :=
  { note := { commitment := burnNote value cm isPadding, nullifier := 7, root := cm,
              secretKey := 0, zero := 0 }
    root := 7
    nullifier }

private def burnCells : UtxoCells where
  unverifiedRoot := 7
  utxoKind := 3
  inputs := [burnInput 5 7 0 7, burnInput 0 0 1 0]
  outputs := [burnNote 0 0 1, burnNote 0 0 1]

private def burnOracle : HashOracle Fr := ⟨fun _ => 7, Set.univ⟩

private theorem burnNote_opens (value cm isPadding : Fr)
    (hpad : isPadding = bitCell (decide (value = 0))) (hcm : cm = if value = 0 then 0 else 7) :
    Opens burnOracle (burnNote value cm isPadding) 1 :=
  ⟨Set.mem_univ _, hpad, hcm⟩

private theorem burnInput_constrained (value cm isPadding nullifier : Fr)
    (hpad : isPadding = bitCell (decide (value = 0))) (hcm : cm = if value = 0 then 0 else 7)
    (hroot : (7 : Fr) = if value = 0 then 7 else cm)
    (hnull : nullifier = if value = 0 then 0 else 7) :
    ConstrainedInput burnOracle 1 7 (burnInput value cm isPadding nullifier) := by
  refine ⟨⟨1, [], ?_⟩, hroot, hnull⟩
  exact ⟨burnNote_opens value cm isPadding hpad hcm, rfl, trivial, rfl, Set.mem_univ _, rfl,
    Set.mem_univ _, rfl, rfl⟩

private theorem burnCells_constrained :
    Constrained burnOracle 1 [7, 7, 5, 7, 0, 0, 0] burnCells := by
  have hout : ConstrainedOutput burnOracle (burnNote 0 0 1) := by
    refine ⟨⟨1, burnNote_opens 0 0 1 (by decide) (by decide)⟩, ?_⟩
    change (0 : Fr).val < 2 ^ 240
    rw [ZMod.val_zero]
    positivity
  refine ⟨rfl, rfl, ?_, ?_, by decide, ?_, by decide, by decide, ?_⟩
  · simp only [burnCells, List.forall_mem_cons]
    refine ⟨?_, ?_, by simp⟩ <;> apply burnInput_constrained <;> decide
  · simp only [burnCells, List.forall_mem_cons]
    exact ⟨hout, hout, by simp⟩
  · simp [burnCells, burnInput]
  · simp only [burnCells, UtxoCells.nullifiers, UtxoCells.commitments]
    decide

/-- A burn of 5 exposes 5 and leaves no output value. -/
theorem utxo_conserves_value_burn :
    ∃ mbHash mbValue : Fr, ([7, 7, 5, 7, 0, 0, 0] : List Fr)[1]? = some mbHash ∧
      ([7, 7, 5, 7, 0, 0, 0] : List Fr)[2]? = some mbValue ∧
      naturalSum (burnCells.inputs.map UtxoInputCells.value) +
          (if burnCells.isMint then mbValue.val else 0) =
        naturalSum (burnCells.outputs.map NoteConstraintCells.value) +
          (if burnCells.isBurn then mbValue.val else 0) ∧
      (∀ c ∈ burnCells.outputs, c.value.val < 2 ^ 240) ∧
      (∀ c ∈ burnCells.inputs, c.note.commitment.isPadding = 1 → c.value = 0) ∧
      (¬burnCells.isMint → ¬burnCells.isBurn → mbHash = 0 ∧ mbValue = 0) := by
  have hsat := (sat_utxo burnOracle [7, 7, 5, 7, 0, 0, 0] burnOracle.hash
    (Utxo.default burnOracle.hash 1) burnCells).mpr burnCells_constrained
  refine utxo_conserves_value burnOracle 1 _ _ burnCells hsat ?_
  simp only [burnCells, List.forall_mem_cons]
  decide

end Burn
end PayyRollup.ValueConservation
