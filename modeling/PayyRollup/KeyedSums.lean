import Mathlib.Algebra.BigOperators.Group.List.Basic
import Mathlib.Algebra.GroupWithZero.Nat
import Mathlib.Data.List.Nodup
import Mathlib.Data.List.Perm.Basic
import Mathlib.Data.Nat.Notation

/-!
Sums over entries with distinct keys. Where every entry of one list has its key and its amount
in another list, the other list splits into what is matched and what is left over, and the
amounts that are left over are the difference of the sums.
-/
namespace PayyRollup.KeyedSums

variable {α β κ : Type} {key : α → κ} {key' : β → κ} {amount : α → ℕ} {amount' : β → ℕ}

/-- Entries with distinct keys are equal where their keys are. -/
theorem eq_of_key {xs : List α} (hxs : (xs.map key).Nodup) {a b : α} (ha : a ∈ xs) (hb : b ∈ xs)
    (h : key a = key b) : a = b :=
  List.inj_on_of_nodup_map hxs ha hb h

/-- A function of the keys has distinct values only where the keys are distinct. -/
theorem nodup_keys {γ : Type} {xs : List α} {value : α → γ} (hvalues : (xs.map value).Nodup)
    (hdetermined : ∀ a ∈ xs, ∀ b ∈ xs, key a = key b → value a = value b) :
    (xs.map key).Nodup := by
  refine List.pairwise_map.mpr ((List.pairwise_map.mp hvalues).imp_of_mem ?_)
  intro a b ha hb hne heq
  exact hne (hdetermined a ha b hb heq)

variable [DecidableEq κ]

/-- The keyed amounts of a list and of the entries they match. -/
theorem matched_perm {xs : List α} {ys : List β} (hxs : (xs.map key).Nodup)
    (hys : (ys.map key').Nodup)
    (hmatch : ∀ y ∈ ys, ∃ x ∈ xs, key x = key' y ∧ amount x = amount' y) :
    ((xs.filter fun x => decide (key x ∈ ys.map key')).map fun x => (key x, amount x)).Perm
      (ys.map fun y => (key' y, amount' y)) := by
  have hfst : ∀ {γ : Type} (zs : List γ) (k : γ → κ) (n : γ → ℕ), (zs.map k).Nodup →
      (zs.map fun z => (k z, n z)).Nodup := by
    intro γ zs k n hnodup
    refine List.Nodup.of_map Prod.fst ?_
    rwa [List.map_map]
  refine (List.perm_ext_iff_of_nodup (hfst _ key amount (hxs.sublist (List.filter_sublist.map _)))
    (hfst ys key' amount' hys)).mpr ?_
  rintro ⟨k, n⟩
  simp only [List.mem_map, List.mem_filter, decide_eq_true_eq, Prod.mk.injEq]
  constructor
  · rintro ⟨x, ⟨hx, y, hy, hkey⟩, rfl, rfl⟩
    obtain ⟨x', hx', hkey', hamount⟩ := hmatch y hy
    obtain rfl := eq_of_key hxs hx hx' (hkey.symm.trans hkey'.symm)
    exact ⟨y, hy, hkey, hamount.symm⟩
  · rintro ⟨y, hy, rfl, rfl⟩
    obtain ⟨x, hx, hkey, hamount⟩ := hmatch y hy
    exact ⟨x, ⟨hx, y, hy, hkey.symm⟩, hkey, hamount⟩

/-- What is left over and what is matched make up the whole. -/
theorem leftover_add_matched {xs : List α} {ys : List β} (hxs : (xs.map key).Nodup)
    (hys : (ys.map key').Nodup)
    (hmatch : ∀ y ∈ ys, ∃ x ∈ xs, key x = key' y ∧ amount x = amount' y) :
    ((xs.filter fun x => decide (key x ∉ ys.map key')).map amount).sum +
      (ys.map amount').sum = (xs.map amount).sum := by
  have hmatched := ((matched_perm hxs hys hmatch).map Prod.snd).sum_eq
  rw [List.map_map, List.map_map] at hmatched
  have hsplit := ((List.filter_append_perm (fun x => decide (key x ∉ ys.map key')) xs).map
    amount).sum_eq
  rw [List.map_append, List.sum_append] at hsplit
  have hrest : ∀ x, (!decide (key x ∉ ys.map key')) = decide (key x ∈ ys.map key') := by
    intro x
    rw [decide_not, Bool.not_not]
  simp only [hrest] at hsplit
  rw [← hsplit]
  exact congrArg (_ + ·) hmatched.symm

end PayyRollup.KeyedSums
