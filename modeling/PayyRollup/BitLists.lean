import Mathlib.Data.List.Basic
import Mathlib.Tactic.Ring

/-!
Bit lists read as natural numbers. `ofBits` and `toBits` put the least significant
bit first; a list in the other order is compared from its most significant bit.
-/
namespace PayyRollup.BitLists

def ofBits : List Bool → ℕ
  | [] => 0
  | b :: rest => b.toNat + 2 * ofBits rest

def toBits : ℕ → ℕ → List Bool
  | 0, _ => []
  | width + 1, n => decide (n % 2 = 1) :: toBits width (n / 2)

@[simp] theorem toBits_length (width n : ℕ) : (toBits width n).length = width := by
  induction width generalizing n with
  | zero => rfl
  | succ width ih => simp [toBits, ih]

theorem ofBits_lt (bits : List Bool) : ofBits bits < 2 ^ bits.length := by
  induction bits with
  | nil => simp [ofBits]
  | cons b rest ih =>
    simp only [ofBits, List.length_cons, pow_succ]
    have hb : b.toNat ≤ 1 := Bool.toNat_le b
    omega

theorem ofBits_toBits (width n : ℕ) : ofBits (toBits width n) = n % 2 ^ width := by
  induction width generalizing n with
  | zero => simp [toBits, ofBits, Nat.mod_one]
  | succ width ih =>
    have hsplit : n % 2 ^ (width + 1) = n % 2 + 2 * (n / 2 % 2 ^ width) := by
      rw [pow_succ, mul_comm, Nat.mod_mul]
    have hbit : (decide (n % 2 = 1)).toNat = n % 2 := by
      rcases Nat.mod_two_eq_zero_or_one n with h | h <;> simp [h]
    rw [toBits, ofBits, ih, hbit, hsplit]

theorem ofBits_toBits_of_lt (width n : ℕ) (h : n < 2 ^ width) :
    ofBits (toBits width n) = n := by
  rw [ofBits_toBits, Nat.mod_eq_of_lt h]

theorem toBits_ofBits (bits : List Bool) : toBits bits.length (ofBits bits) = bits := by
  induction bits with
  | nil => rfl
  | cons b rest ih =>
    have hmod : (b.toNat + 2 * ofBits rest) % 2 = b.toNat := by
      have hb : b.toNat ≤ 1 := Bool.toNat_le b
      omega
    have hdiv : (b.toNat + 2 * ofBits rest) / 2 = ofBits rest := by
      have hb : b.toNat ≤ 1 := Bool.toNat_le b
      omega
    simp only [List.length_cons, toBits, ofBits, hmod, hdiv, ih]
    cases b <;> rfl

theorem toBits_zero (width : ℕ) : toBits width 0 = List.replicate width false := by
  induction width with
  | zero => rfl
  | succ width ih => simp [toBits, ih, List.replicate_succ]

theorem eq_toBits (bits : List Bool) (width : ℕ) (h : bits.length = width) :
    bits = toBits width (ofBits bits) := by
  rw [← h, toBits_ofBits]

theorem take_toBits (width count n : ℕ) (h : count ≤ width) :
    (toBits width n).take count = toBits count n := by
  induction count generalizing width n with
  | zero => rfl
  | succ count ih =>
    obtain ⟨w, rfl⟩ : ∃ w, width = w + 1 := ⟨width - 1, by omega⟩
    simp [toBits, ih w (n / 2) (by omega)]

theorem toBits_mod (width n : ℕ) : toBits width (n % 2 ^ width) = toBits width n := by
  have h := toBits_ofBits (toBits width n)
  rwa [toBits_length, ofBits_toBits] at h

theorem toBits_inj_of_lt (width a b : ℕ) (ha : a < 2 ^ width) (hb : b < 2 ^ width)
    (h : toBits width a = toBits width b) : a = b := by
  rw [← ofBits_toBits_of_lt width a ha, h, ofBits_toBits_of_lt width b hb]

theorem ofBits_append (low high : List Bool) :
    ofBits (low ++ high) = ofBits low + 2 ^ low.length * ofBits high := by
  induction low with
  | nil => simp [ofBits]
  | cons b rest ih =>
    simp only [List.cons_append, ofBits, ih, List.length_cons, pow_succ]
    ring

theorem ofBits_eq_zero (bits : List Bool) (h : ∀ b ∈ bits, b = false) : ofBits bits = 0 := by
  induction bits with
  | nil => rfl
  | cons b rest ih =>
    have hb : b = false := h b (List.mem_cons_self ..)
    have hrest := ih fun c hc => h c (List.mem_cons_of_mem _ hc)
    simp [ofBits, hb, hrest]

/-- A number whose bits from `count` upwards are clear lies below `2 ^ count`. -/
theorem ofBits_lt_of_drop (bits : List Bool) (count : ℕ)
    (h : ∀ b ∈ bits.drop count, b = false) : ofBits bits < 2 ^ count := by
  rw [← List.take_append_drop count bits, ofBits_append, ofBits_eq_zero _ h]
  have hlt := ofBits_lt (bits.take count)
  have hle : 2 ^ (bits.take count).length ≤ 2 ^ count :=
    Nat.pow_le_pow_right (by omega) (by simp)
  omega

theorem drop_toBits_of_lt (width count n : ℕ) (h : n < 2 ^ count) :
    ∀ b ∈ (toBits width n).drop count, b = false := by
  induction width generalizing count n with
  | zero => simp [toBits]
  | succ width ih =>
    cases count with
    | zero =>
      have hn : n = 0 := by simpa using h
      subst hn
      intro b hb
      simp only [toBits, List.drop_zero, List.mem_cons, Nat.zero_div] at hb
      rcases hb with rfl | hb
      · rfl
      · exact ih 0 0 (by simp) b (by simpa using hb)
    | succ count =>
      simp only [toBits, List.drop_succ_cons]
      exact ih count (n / 2) (by rw [pow_succ] at h; omega)

/-- Comparison of two bit lists of one length from the most significant bit. -/
def lexLt : List Bool → List Bool → Bool
  | a :: as, b :: bs => (!a && b) || (a == b && lexLt as bs)
  | _, _ => false

theorem lexLt_reverse (as bs : List Bool) (h : as.length = bs.length) :
    lexLt as bs = true ↔ ofBits as.reverse < ofBits bs.reverse := by
  induction as generalizing bs with
  | nil =>
    obtain rfl : bs = [] := List.length_eq_zero_iff.mp h.symm
    simp [lexLt, ofBits]
  | cons a as ih =>
    cases bs with
    | nil => simp at h
    | cons b bs =>
      have hlen : as.length = bs.length := by simpa using h
      have hal := ofBits_lt as.reverse
      have hbl := ofBits_lt bs.reverse
      simp only [List.length_reverse] at hal hbl
      rw [hlen] at hal
      have hih := ih bs hlen
      simp only [lexLt, List.reverse_cons, ofBits_append, ofBits, List.length_reverse, hlen]
      cases a <;> cases b <;> simp [hih] <;> omega

end PayyRollup.BitLists
