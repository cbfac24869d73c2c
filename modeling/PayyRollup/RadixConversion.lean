import Mathlib.Data.Nat.Digits.Lemmas

/-!
Numbers written in two radices, with the most significant digit first. The leading zeros of the
digits are kept as they are and what follows is converted as a number; so the conversion back gives
the same digits, however many of them are zeros.
-/
namespace PayyRollup.RadixConversion

section Zeros

variable {α : Type} [Zero α] [DecidableEq α]

def leadingZeros (xs : List α) : ℕ := (xs.takeWhile fun x => x = 0).length

theorem leadingZeros_le (xs : List α) : leadingZeros xs ≤ xs.length :=
  (List.takeWhile_sublist _).length_le

theorem leadingZeros_cons_zero (xs : List α) :
    leadingZeros (0 :: xs) = leadingZeros xs + 1 := by
  simp [leadingZeros]

theorem leadingZeros_cons_of_ne (x : α) (xs : List α) (hx : x ≠ 0) :
    leadingZeros (x :: xs) = 0 := by
  simp [leadingZeros, hx]

/-- The zeros are put back before what was left of the digits. -/
theorem replicate_leadingZeros (xs : List α) :
    List.replicate (leadingZeros xs) 0 ++ xs.drop (leadingZeros xs) = xs := by
  induction xs with
  | nil => rfl
  | cons x xs ih =>
    by_cases hx : x = 0
    · rw [hx, leadingZeros_cons_zero, List.replicate_succ, List.drop_succ_cons, List.cons_append,
        ih]
    · rw [leadingZeros_cons_of_ne x xs hx]
      rfl

/-- What is left does not start with a zero. -/
theorem drop_leadingZeros_head (xs : List α) (x : α)
    (hx : (xs.drop (leadingZeros xs)).head? = some x) : x ≠ 0 := by
  induction xs with
  | nil => simp at hx
  | cons y xs ih =>
    by_cases hy : y = 0
    · rw [hy, leadingZeros_cons_zero, List.drop_succ_cons] at hx
      exact ih hx
    · rw [leadingZeros_cons_of_ne y xs hy, List.drop_zero, List.head?_cons, Option.some.injEq] at hx
      rwa [← hx]

theorem leadingZeros_replicate_append (count : ℕ) (xs : List α)
    (hxs : ∀ x, xs.head? = some x → x ≠ 0) :
    leadingZeros (List.replicate count 0 ++ xs) = count := by
  induction count with
  | zero =>
    cases xs with
    | nil => rfl
    | cons x xs => exact leadingZeros_cons_of_ne x xs (hxs x rfl)
  | succ count ih => rw [List.replicate_succ, List.cons_append, leadingZeros_cons_zero, ih]

end Zeros

section Convert

/-- The number that digits denote. -/
def value (radix : ℕ) (ds : List ℕ) : ℕ := Nat.ofDigits radix ds.reverse

def digits (radix n : ℕ) : List ℕ := (Nat.digits radix n).reverse

def convert (source target : ℕ) (ds : List ℕ) : List ℕ :=
  List.replicate (leadingZeros ds) 0 ++ digits target (value source ds)

theorem value_replicate_append (radix count : ℕ) (ds : List ℕ) :
    value radix (List.replicate count 0 ++ ds) = value radix ds := by
  rw [value, List.reverse_append, List.reverse_replicate, Nat.ofDigits_append_replicate_zero, value]

theorem value_digits (radix n : ℕ) : value radix (digits radix n) = n := by
  rw [value, digits, List.reverse_reverse, Nat.ofDigits_digits]

theorem digits_head (radix n d : ℕ) (hd : (digits radix n).head? = some d) : d ≠ 0 := by
  rw [digits, List.head?_reverse] at hd
  by_cases hn : n = 0
  · rw [hn, Nat.digits_zero] at hd
    cases hd
  · rw [List.getLast?_eq_some_getLast (Nat.digits_ne_nil_iff_ne_zero.mpr hn),
      Option.some.injEq] at hd
    rw [← hd]
    exact Nat.getLast_digit_ne_zero radix hn

/-- Digits that do not start with a zero are those of their number. -/
theorem digits_value (radix : ℕ) (hradix : 1 < radix) (ds : List ℕ) (hds : ∀ d ∈ ds, d < radix)
    (hhead : ∀ d, ds.head? = some d → d ≠ 0) : digits radix (value radix ds) = ds := by
  have hlast : ∀ h : ds.reverse ≠ [], ds.reverse.getLast h ≠ 0 := by
    intro h
    apply hhead
    rw [← List.getLast?_reverse, List.getLast?_eq_some_getLast h]
  rw [digits, value, Nat.digits_ofDigits radix hradix ds.reverse (by simpa using hds) hlast,
    List.reverse_reverse]

theorem convert_convert (source target : ℕ) (hsource : 1 < source) (ds : List ℕ)
    (hds : ∀ d ∈ ds, d < source) : convert target source (convert source target ds) = ds := by
  have hzeros : leadingZeros (convert source target ds) = leadingZeros ds :=
    leadingZeros_replicate_append _ _ fun d hd => digits_head target _ d hd
  have hvalue : value target (convert source target ds) =
      value source (ds.drop (leadingZeros ds)) := by
    rw [convert, value_replicate_append, value_digits]
    conv_lhs => rw [← replicate_leadingZeros ds]
    rw [value_replicate_append]
  have hdrop := digits_value source hsource (ds.drop (leadingZeros ds))
    (fun d hd => hds d (List.mem_of_mem_drop hd)) fun d hd => drop_leadingZeros_head ds d hd
  rw [convert, hzeros, hvalue, hdrop, replicate_leadingZeros]

theorem convert_lt (source target : ℕ) (htarget : 1 < target) (ds : List ℕ) :
    ∀ d ∈ convert source target ds, d < target := by
  intro d hd
  rcases List.mem_append.mp hd with hzero | hdigit
  · rw [(List.mem_replicate.mp hzero).2]
    omega
  · exact Nat.digits_lt_base htarget (List.mem_reverse.mp hdigit)

end Convert

end PayyRollup.RadixConversion
