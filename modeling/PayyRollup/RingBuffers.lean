import Mathlib.Data.Fin.Basic
import Mathlib.Data.List.Induction
import Mathlib.Data.Nat.ModEq
import Mathlib.Logic.Function.Basic

/-!
A ring of slots that overwrites its oldest entry. After any number of pushes onto a blank
ring, the slots hold the last pushed entries, each at its position modulo the size, and the
slots that were never reached are blank. So an entry is found in the ring when it is among
the last ones, or is the blank one and the ring has not been filled yet.
-/
namespace PayyRollup.RingBuffers

variable {α : Type} {n : ℕ} [NeZero n]

structure Ring (n : ℕ) (α : Type) where
  slots : Fin n → α
  next : Fin n

namespace Ring

def fresh (blank : α) : Ring n α := ⟨fun _ => blank, 0⟩

def push (r : Ring n α) (x : α) : Ring n α :=
  ⟨Function.update r.slots r.next x, r.next + 1⟩

def pushAll (r : Ring n α) (xs : List α) : Ring n α := xs.foldl push r

/-- The slots hold the last entries of a list, and blanks before it is long enough. -/
structure Records (blank : α) (xs : List α) (r : Ring n α) : Prop where
  next_eq : r.next.val = xs.length % n
  kept : ∀ i x, xs[i]? = some x → xs.length ≤ i + n → ∀ j : Fin n, j.val = i % n → r.slots j = x
  blank_eq : ∀ j : Fin n, xs.length ≤ j.val → r.slots j = blank

variable {blank : α} {xs : List α} {r : Ring n α}

theorem fresh_records (blank : α) : (fresh blank : Ring n α).Records blank [] := by
  refine ⟨?_, ?_, fun _ _ => rfl⟩
  · simp [fresh]
  · intro i x hx
    simp at hx

omit [NeZero n] in
/-- Two positions less than a turn apart have different slots. -/
theorem mod_ne_of_lt (i k : ℕ) (hik : i < k) (hturn : k < i + n) : i % n ≠ k % n := by
  intro heq
  have hmod : i ≡ k [MOD n] := heq
  have hdvd := (Nat.modEq_iff_dvd' hik.le).mp hmod
  have hle := Nat.le_of_dvd (by omega) hdvd
  omega

theorem Records.push (h : r.Records blank xs) (x : α) : (r.push x).Records blank (xs ++ [x]) := by
  have hpos : 0 < n := Nat.pos_of_ne_zero (NeZero.ne n)
  refine ⟨?_, ?_, ?_⟩
  · change (r.next + 1).val = _
    rw [Fin.val_add, h.next_eq, Fin.val_one', ← Nat.add_mod, List.length_append,
      List.length_singleton]
  · intro i y hy hlen j hj
    rw [List.length_append, List.length_singleton] at hlen
    change Function.update r.slots r.next x j = y
    rcases lt_trichotomy i xs.length with hlt | rfl | hgt
    · have hne : j ≠ r.next := by
        intro heq
        have hval := congrArg Fin.val heq
        rw [hj, h.next_eq] at hval
        exact mod_ne_of_lt i xs.length hlt (by omega) hval
      rw [Function.update_of_ne hne]
      rw [List.getElem?_append_left hlt] at hy
      exact h.kept i y hy (by omega) j hj
    · have heq : j = r.next := Fin.ext (hj.trans h.next_eq.symm)
      rw [heq, Function.update_self]
      simpa using hy
    · rw [List.getElem?_eq_none (by simp; omega)] at hy
      cases hy
  · intro j hj
    rw [List.length_append, List.length_singleton] at hj
    have hne : j ≠ r.next := by
      intro heq
      have hval := congrArg Fin.val heq
      rw [h.next_eq, Nat.mod_eq_of_lt (by omega)] at hval
      omega
    change Function.update r.slots r.next x j = blank
    rw [Function.update_of_ne hne]
    exact h.blank_eq j (by omega)

theorem pushAll_records (blank : α) (xs : List α) :
    ((fresh blank : Ring n α).pushAll xs).Records blank xs := by
  induction xs using List.reverseRecOn with
  | nil => exact fresh_records blank
  | append_singleton xs x ih =>
    rw [pushAll, List.foldl_append]
    exact ih.push x

/-- The last position of a slot before the end. -/
theorem exists_last (len : ℕ) (j : Fin n) (hj : j.val < len) :
    ∃ i, i < len ∧ len ≤ i + n ∧ j.val = i % n := by
  have hpos : 0 < n := Nat.pos_of_ne_zero (NeZero.ne n)
  have hdiv := Nat.div_add_mod (len - 1 - j.val) n
  have hmod := Nat.mod_lt (len - 1 - j.val) hpos
  refine ⟨j.val + n * ((len - 1 - j.val) / n), by omega, by omega, ?_⟩
  rw [Nat.add_mul_mod_self_left, Nat.mod_eq_of_lt j.isLt]

/-- What is found in the ring: the last entries, and blanks before the ring is full. -/
theorem Records.exists_slot (h : r.Records blank xs) (x : α) :
    (∃ j, r.slots j = x) ↔ x ∈ xs.drop (xs.length - n) ∨ xs.length < n ∧ x = blank := by
  have hpos : 0 < n := Nat.pos_of_ne_zero (NeZero.ne n)
  constructor
  · rintro ⟨j, rfl⟩
    rcases Nat.lt_or_ge j.val xs.length with hlt | hge
    · obtain ⟨i, hi, hlast, hslot⟩ := exists_last xs.length j hlt
      have hget : xs[i]? = some xs[i] := List.getElem?_eq_getElem hi
      rw [h.kept i _ hget hlast j hslot]
      left
      rw [List.mem_iff_getElem?]
      refine ⟨i - (xs.length - n), ?_⟩
      rw [List.getElem?_drop, ← hget]
      congr 1
      omega
    · have hlt := j.isLt
      exact Or.inr ⟨by omega, h.blank_eq j hge⟩
  · rintro (hmem | ⟨hshort, rfl⟩)
    · obtain ⟨k, hk⟩ := List.mem_iff_getElem?.mp hmem
      rw [List.getElem?_drop] at hk
      refine ⟨⟨(xs.length - n + k) % n, Nat.mod_lt _ hpos⟩, ?_⟩
      exact h.kept _ x hk (by omega) _ rfl
    · exact ⟨⟨xs.length, hshort⟩, h.blank_eq _ (le_refl _)⟩

end Ring
end PayyRollup.RingBuffers
