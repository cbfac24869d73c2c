import Mathlib.Tactic.LinearCombination
import Mathlib.Tactic.FieldSimp
import PayyRollup.BitLists
import PayyRollup.ConstraintProgram

/-!
The chips of the circuits. A copied cell is the cell it copies, and every assigned cell
is free up to the gates of its region. Each chip has one law for the adversary, which
says exactly what its gates force, and one for the honest prover.
-/
namespace PayyRollup.Chips

open BitLists ConstraintProgram Layouter

section Gates

variable {F : Type} [Field F]

def ternary (a b c : F) : F := a * b + (1 - a) * c

/-- The product of `i - word` over `i` below `range`, up to sign. -/
def rangeCheck (word : F) (range : ℕ) : F :=
  (List.range' 1 (range - 1)).foldl (fun acc i => acc * ((i : F) - word)) word

def boolCheck (value : F) : F := rangeCheck value 2

/-- The cell of a bit. -/
def bitCell (b : Bool) : F := if b then 1 else 0

@[simp] theorem bitCell_true : (bitCell true : F) = 1 := rfl

@[simp] theorem bitCell_false : (bitCell false : F) = 0 := rfl

theorem boolCheck_eq_zero (value : F) : boolCheck value = 0 ↔ ∃ b, value = bitCell b := by
  have hcheck : boolCheck value = value * (1 - value) := by
    simp [boolCheck, rangeCheck, List.range'_succ]
  rw [hcheck, mul_eq_zero, sub_eq_zero]
  constructor
  · intro h
    rcases h with h | h
    · exact ⟨false, h⟩
    · exact ⟨true, h.symm⟩
  · intro h
    obtain ⟨b, rfl⟩ := h
    cases b
    · exact Or.inl rfl
    · exact Or.inr rfl

theorem bitCell_injective : Function.Injective (bitCell : Bool → F) := by
  intro a b h
  cases a <;> cases b <;> simp_all [bitCell]

@[simp] theorem bitCell_inj (a b : Bool) : (bitCell a : F) = bitCell b ↔ a = b :=
  bitCell_injective.eq_iff

end Gates

section Cells

variable {F : Type} [Field F] [DecidableEq F]

namespace CondSwapChip

def swapInRegion (a b swap : F) : Layouter F (F × F) := do
  let aSwapped ← assignAdvice (if swap = 1 then b else a)
  let bSwapped ← assignAdvice (if swap = 1 then a else b)
  constrainZero (aSwapped - ternary swap b a)
  constrainZero (bSwapped - ternary swap a b)
  constrainZero (boolCheck swap)
  return (aSwapped, bSwapped)

/-- Swap two assigned cells by an assigned cell. -/
def swapAssigned (pair : F × F) (swap : F) : Layouter F (F × F) :=
  swapInRegion pair.1 pair.2 swap

/-- Swap an assigned cell with a witnessed one by a witnessed bit. -/
def swap (pair : F × F) (swap : F) : Layouter F (F × F) := do
  let b ← assignAdvice pair.2
  let swap ← assignAdvice swap
  swapInRegion pair.1 b swap

end CondSwapChip

/-- The pair that leaves a swap. -/
def swapped {F : Type} (pair : F × F) (swap : Bool) : F × F :=
  if swap then (pair.2, pair.1) else pair

/-- Output 1 when the cell holds the constant, 0 otherwise. -/
def IsConstantChip.assign (constant comparison : F) : Layouter F F := do
  let value := comparison - constant
  let valueInv ← assignAdvice value⁻¹
  let isZero := 1 - value * valueInv
  constrainZero (value * isZero)
  let output ← assignAdvice (if value = 0 then 1 else 0)
  constrainZero (output - isZero)
  return output

variable (O : HashOracle F) (hash : List F → F) (inst : List F)

@[simp] theorem sat_swapInRegion (a b s : F) (out : F × F) :
    Sat O inst (CondSwapChip.swapInRegion a b s) out ↔
      ∃ swap, s = bitCell swap ∧ out = swapped (a, b) swap := by
  simp only [CondSwapChip.swapInRegion, sat_bind, sat_assignAdvice, sat_constrainZero,
    sat_pure, boolCheck_eq_zero, sub_eq_zero, true_and]
  constructor
  · rintro ⟨x, y, -, hx, -, hy, -, ⟨swap, hs⟩, rfl⟩
    refine ⟨swap, hs, ?_⟩
    subst hs
    cases swap <;> simp [hx, hy, ternary, swapped]
  · rintro ⟨swap, rfl, rfl⟩
    cases swap <;> simp [ternary, swapped]

@[simp] theorem sat_swapAssigned (pair : F × F) (s : F) (out : F × F) :
    Sat O inst (CondSwapChip.swapAssigned pair s) out ↔
      ∃ swap, s = bitCell swap ∧ out = swapped pair swap :=
  sat_swapInRegion O inst pair.1 pair.2 s out

@[simp] theorem sat_swap (a b s : F) (out : F × F) :
    Sat O inst (CondSwapChip.swap (a, b) s) out ↔
      ∃ c swap, out = swapped (a, c) swap := by
  simp only [CondSwapChip.swap, sat_bind, sat_assignAdvice, true_and, sat_swapInRegion]
  constructor
  · rintro ⟨c, -, swap, -, hout⟩
    exact ⟨c, swap, hout⟩
  · rintro ⟨c, swap, hout⟩
    exact ⟨c, bitCell swap, swap, rfl, hout⟩

@[simp] theorem run_swapInRegion (a b : F) (swap : Bool) :
    run hash inst (CondSwapChip.swapInRegion a b (bitCell swap)) =
      some (swapped (a, b) swap) := by
  have hcheck : boolCheck (bitCell swap : F) = 0 := (boolCheck_eq_zero _).mpr ⟨swap, rfl⟩
  cases swap <;> simp_all [CondSwapChip.swapInRegion, ternary, swapped]

@[simp] theorem run_swapAssigned (pair : F × F) (swap : Bool) :
    run hash inst (CondSwapChip.swapAssigned pair (bitCell swap)) =
      some (swapped pair swap) :=
  run_swapInRegion hash inst pair.1 pair.2 swap

/-- The inverse trick forces the output: no assignment of the inverse cell changes it. -/
@[simp] theorem sat_isConstant (constant comparison out : F) :
    Sat O inst (IsConstantChip.assign constant comparison) out ↔
      out = bitCell (decide (comparison = constant)) := by
  simp only [IsConstantChip.assign, sat_bind, sat_assignAdvice, sat_constrainZero, sat_pure,
    true_and, sub_eq_zero]
  constructor
  · rintro ⟨inv, -, hinv, x, -, hx, rfl⟩
    by_cases h : comparison = constant
    · simp [h, hx]
    · have hne : comparison - constant ≠ 0 := sub_ne_zero.mpr h
      have hzero : 1 - (comparison - constant) * inv = 0 :=
        (mul_eq_zero.mp hinv).resolve_left hne
      simp [h, hx, hzero]
  · rintro rfl
    by_cases h : comparison = constant
    · exact ⟨0, (), by simp [h], 1, (), by simp, by simp [h]⟩
    · have hne : comparison - constant ≠ 0 := sub_ne_zero.mpr h
      exact ⟨(comparison - constant)⁻¹, (), by simp [hne], 0, (), by simp [hne], by simp [h]⟩

@[simp] theorem run_isConstant (constant comparison : F) :
    run hash inst (IsConstantChip.assign constant comparison) =
      some (bitCell (decide (comparison = constant))) := by
  by_cases h : comparison = constant
  · simp [IsConstantChip.assign, h]
  · have hne : comparison - constant ≠ 0 := sub_ne_zero.mpr h
    simp [IsConstantChip.assign, h, hne]

end Cells

section Rows

variable {F : Type} [Field F] (O : HashOracle F) (inst : List F)

namespace AddCulmChip

/-- The running sum of the cells after the first. -/
def assignRows (culm : F) : List F → Layouter F F
  | [] => return culm
  | b :: rest => do
      let c ← assignAdvice (culm + b)
      constrainZero (culm + b - c)
      assignRows c rest

/-- The sum of the cells; no caller passes an empty list. -/
def assign : List F → Layouter F F
  | [] => return 0
  | first :: rest => assignRows first rest

end AddCulmChip

namespace IsLessThanChip

/-- The rows of the comparison; each row is a bit of `max` and a bit of `alpha`. -/
def assignRows (lastIsLess lastCanSet : F) : List (F × F) → Layouter F F
  | [] => return lastIsLess
  | (max, alpha) :: rest => do
      let isLess ← assignAdvice (lastIsLess - max * (1 - alpha) * lastCanSet)
      let canSet ← assignAdvice ((max * alpha + (1 - max) * (1 - alpha)) * lastCanSet)
      constrainZero (lastIsLess - max * (1 - alpha) * lastCanSet - isLess)
      constrainZero ((max * alpha + (1 - max) * (1 - alpha)) * lastCanSet - canSet)
      assignRows isLess canSet rest

/-- Require `alpha` to be less than `max`, both in big-endian order. -/
def assign (maxBits alphaBits : List F) : Layouter F Unit := do
  let isLess ← assignRows 1 1 (maxBits.zip alphaBits)
  constrainEqual isLess 0

end IsLessThanChip

theorem sat_addRows (culm : F) (cells : List F) (out : F) :
    Sat O inst (AddCulmChip.assignRows culm cells) out ↔ out = culm + cells.sum := by
  induction cells generalizing culm with
  | nil => simp [AddCulmChip.assignRows, eq_comm]
  | cons b rest ih =>
    simp [AddCulmChip.assignRows, ih, sub_eq_zero, add_assoc]

@[simp] theorem sat_addCulm (cells : List F) (out : F) :
    Sat O inst (AddCulmChip.assign cells) out ↔ out = cells.sum := by
  cases cells with
  | nil => simp [AddCulmChip.assign, eq_comm]
  | cons first rest => simp [AddCulmChip.assign, sat_addRows]

theorem sat_assignRows_done (last out : F) (rows : List (F × F)) :
    Sat O inst (IsLessThanChip.assignRows last 0 rows) out ↔ out = last := by
  induction rows generalizing last with
  | nil => simp [IsLessThanChip.assignRows, eq_comm]
  | cons row rest ih =>
    obtain ⟨max, alpha⟩ := row
    simp only [IsLessThanChip.assignRows, sat_bind, sat_assignAdvice, sat_constrainZero,
      mul_zero, sub_zero, zero_sub, neg_eq_zero, true_and, sub_eq_zero]
    constructor
    · rintro ⟨isLess, canSet, -, rfl, -, rfl, hrest⟩
      exact (ih last).mp hrest
    · rintro rfl
      exact ⟨out, 0, (), rfl, (), rfl, (ih out).mpr rfl⟩

/-- The flag drops at the first bit where `max` is set and `alpha` is not, unless the bits
differed the other way before. -/
theorem sat_assignRows (maxBits alphaBits : List Bool) (out : F) :
    Sat O inst (IsLessThanChip.assignRows 1 1
        ((maxBits.map bitCell).zip (alphaBits.map bitCell))) out ↔
      out = bitCell (!lexLt alphaBits maxBits) := by
  induction maxBits generalizing alphaBits with
  | nil => cases alphaBits <;> simp [IsLessThanChip.assignRows, lexLt, eq_comm]
  | cons max maxRest ih =>
    cases alphaBits with
    | nil => simp [IsLessThanChip.assignRows, lexLt, eq_comm]
    | cons alpha alphaRest =>
      simp only [List.map_cons, List.zip_cons_cons, IsLessThanChip.assignRows, sat_bind,
        sat_assignAdvice, sat_constrainZero, true_and, sub_eq_zero, lexLt, mul_one]
      have hfree : ∀ P : F → F → Prop, ∀ x y : F,
          (∃ a b, ∃ _ : Unit, x = a ∧ ∃ _ : Unit, y = b ∧ P a b) ↔ P x y := by
        intro P x y
        constructor
        · rintro ⟨a, b, -, rfl, -, rfl, h⟩
          exact h
        · intro h
          exact ⟨x, y, (), rfl, (), rfl, h⟩
      rw [hfree fun a b => Sat O inst (IsLessThanChip.assignRows a b _) out]
      cases max <;> cases alpha <;> simp [ih, sat_assignRows_done]

@[simp] theorem sat_isLessThan (maxBits alphaBits : List Bool) (u : Unit) :
    Sat O inst (IsLessThanChip.assign (maxBits.map bitCell) (alphaBits.map bitCell)) u ↔
      lexLt alphaBits maxBits = true := by
  simp [IsLessThanChip.assign, sat_assignRows, bitCell]

variable [DecidableEq F] (hash : List F → F)

theorem run_addRows (culm : F) (cells : List F) :
    run hash inst (AddCulmChip.assignRows culm cells) = some (culm + cells.sum) := by
  induction cells generalizing culm with
  | nil => simp [AddCulmChip.assignRows]
  | cons b rest ih => simp [AddCulmChip.assignRows, ih, add_assoc]

@[simp] theorem run_addCulm (cells : List F) :
    run hash inst (AddCulmChip.assign cells) = some cells.sum := by
  cases cells with
  | nil => simp [AddCulmChip.assign]
  | cons first rest => simp [AddCulmChip.assign, run_addRows]

theorem run_assignRows_done (last : F) (rows : List (F × F)) :
    run hash inst (IsLessThanChip.assignRows last 0 rows) = some last := by
  induction rows generalizing last with
  | nil => rfl
  | cons row rest ih =>
    obtain ⟨max, alpha⟩ := row
    simp [IsLessThanChip.assignRows, ih]

theorem run_assignRows (maxBits alphaBits : List Bool) :
    run hash inst (IsLessThanChip.assignRows 1 1
        ((maxBits.map bitCell).zip (alphaBits.map bitCell))) =
      some (bitCell (!lexLt alphaBits maxBits) : F) := by
  induction maxBits generalizing alphaBits with
  | nil => cases alphaBits <;> rfl
  | cons max maxRest ih =>
    cases alphaBits with
    | nil => rfl
    | cons alpha alphaRest =>
      cases max <;> cases alpha <;>
        simp [IsLessThanChip.assignRows, lexLt, ih, run_assignRows_done]

@[simp] theorem run_isLessThan (maxBits alphaBits : List Bool)
    (h : lexLt alphaBits maxBits = true) :
    run hash inst (IsLessThanChip.assign (maxBits.map bitCell) (alphaBits.map bitCell)) =
      some () := by
  simp [IsLessThanChip.assign, run_assignRows, h]

end Rows
end PayyRollup.Chips
