import Mathlib.NumberTheory.LucasPrimality
import Mathlib.Data.Nat.Prime.Basic
import Mathlib.Tactic.NormNum.Prime

/-!
Lucas certificates. A witness `a` of order `p - 1` proves `p` prime once the prime
factors of `p - 1` are known; modular powers are computed by squaring so that the
kernel can evaluate the test on large numbers.
-/
namespace PayyRollup.Primality

/-- `base ^ exponent % m` for an exponent of at most `fuel` bits. -/
def modPow (m : ℕ) : ℕ → ℕ → ℕ → ℕ
  | 0, _, _ => 1 % m
  | fuel + 1, base, exponent =>
      base ^ (exponent % 2) * modPow m fuel (base * base % m) (exponent / 2) % m

theorem modPow_eq (m fuel base exponent : ℕ) (h : exponent < 2 ^ fuel) :
    modPow m fuel base exponent = base ^ exponent % m := by
  induction fuel generalizing base exponent with
  | zero =>
    have he : exponent = 0 := by simpa using h
    simp [modPow, he]
  | succ fuel ih =>
    have hhalf : exponent / 2 < 2 ^ fuel := by rw [pow_succ] at h; omega
    have hsq : (base * base) ^ (exponent / 2) = base ^ (2 * (exponent / 2)) := by
      rw [pow_mul, pow_two]
    calc modPow m (fuel + 1) base exponent
        = base ^ (exponent % 2) * ((base * base % m) ^ (exponent / 2) % m) % m := by
          rw [modPow, ih _ _ hhalf]
      _ = base ^ (exponent % 2) * (base * base) ^ (exponent / 2) % m := by
          rw [← Nat.pow_mod, Nat.mul_mod_mod]
      _ = base ^ exponent % m := by
          rw [hsq, ← pow_add, Nat.mod_add_div]

private theorem cast_pow_eq_one (p base exponent : ℕ) (hp : 1 < p) :
    (base : ZMod p) ^ exponent = 1 ↔ base ^ exponent % p = 1 := by
  have hone : (1 : ZMod p) = ((1 : ℕ) : ZMod p) := by simp
  rw [← Nat.cast_pow, hone, ZMod.natCast_eq_natCast_iff', Nat.mod_eq_of_lt hp]

/-- `p - 1` is a product of powers of listed primes, and `base` has order `p - 1`. -/
structure LucasCertificate (p base fuel : ℕ) (factors : List (ℕ × ℕ)) : Prop where
  one_lt : 1 < p
  fits : p ≤ 2 ^ fuel
  product : (factors.map fun f => f.1 ^ f.2).prod = p - 1
  order_dvd : modPow p fuel base (p - 1) = 1
  order_exact : ∀ f ∈ factors, modPow p fuel base ((p - 1) / f.1) ≠ 1

theorem LucasCertificate.prime {p base fuel : ℕ} {factors : List (ℕ × ℕ)}
    (cert : LucasCertificate p base fuel factors) (hprime : ∀ f ∈ factors, f.1.Prime) :
    p.Prime := by
  have hone := cert.one_lt
  have hfits := cert.fits
  refine lucas_primality p (base : ZMod p) ?_ ?_
  · rw [cast_pow_eq_one p base _ hone, ← modPow_eq p fuel base _ (by omega)]
    exact cert.order_dvd
  · intro q hq hdvd
    rw [← cert.product] at hdvd
    obtain ⟨power, hpower, hqpower⟩ := (Prime.dvd_prod_iff hq.prime).mp hdvd
    obtain ⟨f, hf, rfl⟩ := List.mem_map.mp hpower
    have hqf : q = f.1 :=
      (Nat.prime_dvd_prime_iff_eq hq (hprime f hf)).mp (hq.dvd_of_dvd_pow hqpower)
    have hle : (p - 1) / f.1 ≤ p - 1 := Nat.div_le_self _ _
    rw [hqf, ne_eq, cast_pow_eq_one p base _ hone, ← modPow_eq p fuel base _ (by omega)]
    exact cert.order_exact f hf

end PayyRollup.Primality
