import Mathlib.Data.BitVec
import Mathlib.Data.ZMod.Basic
import PayyRollup.BitLists
import PayyRollup.Primality

/-!
The scalar field of BN254 and the 256-bit elements of the notes tree. An element
stands for its residue; only elements below the modulus are canonical. The low bits
of an element, most significant bit first, are its slot in a sparse tree.
-/
namespace PayyRollup.ScalarField

open BitLists Primality

def modulus : ℕ := 0x30644e72e131a029b85045b68181585d2833e84879b9709143e1f593f0000001

private theorem prime_405928799 : Nat.Prime 405928799 := by
  have cert : LucasCertificate 405928799 22 29 [(2, 1), (11, 1), (3691, 1), (4999, 1)] := by
    constructor <;> decide
  refine cert.prime ?_
  norm_num

private theorem prime_639533339 : Nat.Prime 639533339 := by
  have cert : LucasCertificate 639533339 2 30 [(2, 1), (229, 1), (853, 1), (1637, 1)] := by
    constructor <;> decide
  refine cert.prime ?_
  norm_num

private theorem prime_12048837557 : Nat.Prime 12048837557 := by
  have cert : LucasCertificate 12048837557 2 34 [(2, 2), (7, 2), (661, 1), (93001, 1)] := by
    constructor <;> decide
  refine cert.prime ?_
  norm_num

private theorem prime_5156902474397 : Nat.Prime 5156902474397 := by
  have cert : LucasCertificate 5156902474397 2 43 [(2, 2), (107, 1), (12048837557, 1)] := by
    constructor <;> decide
  refine cert.prime ?_
  simp only [List.forall_mem_cons]
  exact ⟨by norm_num, by norm_num, prime_12048837557, by simp⟩

private theorem prime_1670836401704629 : Nat.Prime 1670836401704629 := by
  have cert : LucasCertificate 1670836401704629 2 51
      [(2, 2), (3, 4), (5156902474397, 1)] := by
    constructor <;> decide
  refine cert.prime ?_
  simp only [List.forall_mem_cons]
  exact ⟨by norm_num, by norm_num, prime_5156902474397, by simp⟩

private theorem prime_65865678001877903 : Nat.Prime 65865678001877903 := by
  have cert : LucasCertificate 65865678001877903 5 56
      [(2, 1), (83, 1), (379, 1), (1637, 1), (639533339, 1)] := by
    constructor <;> decide
  refine cert.prime ?_
  simp only [List.forall_mem_cons]
  exact ⟨by norm_num, by norm_num, by norm_num, by norm_num, prime_639533339, by simp⟩

private theorem prime_13818364434197438864469338081 :
    Nat.Prime 13818364434197438864469338081 := by
  have cert : LucasCertificate 13818364434197438864469338081 3 94
      [(2, 5), (5, 1), (823, 1), (1593227, 1), (65865678001877903, 1)] := by
    constructor <;> decide +kernel
  refine cert.prime ?_
  simp only [List.forall_mem_cons]
  exact ⟨by norm_num, by norm_num, by norm_num, by norm_num, prime_65865678001877903, by simp⟩

/-- The two-adicity of the group order is 28. -/
theorem modulus_prime : modulus.Prime := by
  have cert : LucasCertificate modulus 5 254
      [(2, 28), (3, 2), (13, 1), (29, 1), (983, 1), (11003, 1), (237073, 1), (405928799, 1),
        (1670836401704629, 1), (13818364434197438864469338081, 1)] := by
    constructor <;> decide +kernel
  refine cert.prime ?_
  simp only [List.forall_mem_cons]
  exact ⟨by norm_num, by norm_num, by norm_num, by norm_num, by norm_num, by norm_num,
    by norm_num, prime_405928799, prime_1670836401704629,
    prime_13818364434197438864469338081, by simp⟩

instance : Fact modulus.Prime := ⟨modulus_prime⟩

abbrev Fr := ZMod modulus

theorem modulus_lt : modulus < 2 ^ 256 := by decide

theorem val_lt (x : Fr) : x.val < 2 ^ 256 := (ZMod.val_lt x).trans modulus_lt

/-- The numerals above one that stand for field elements. -/
instance two_atLeastTwo : Nat.AtLeastTwo 2 := ⟨by decide⟩
instance three_atLeastTwo : Nat.AtLeastTwo 3 := ⟨by decide⟩
instance four_atLeastTwo : Nat.AtLeastTwo 4 := ⟨by decide⟩
instance five_atLeastTwo : Nat.AtLeastTwo 5 := ⟨by decide⟩
instance seven_atLeastTwo : Nat.AtLeastTwo 7 := ⟨by decide⟩
instance nine_atLeastTwo : Nat.AtLeastTwo 9 := ⟨by decide⟩
instance eleven_atLeastTwo : Nat.AtLeastTwo 11 := ⟨by decide⟩

/-- A 256-bit unsigned integer standing for a field element. -/
abbrev Element := BitVec 256

instance element_lawfulBEq : LawfulBEq Element := inferInstance

namespace Element

def zero : Element := 0#256

def nullHash : Element := zero

def toBase (e : Element) : Fr := (e.toNat : Fr)

def fromBase (base : Fr) : Element := BitVec.ofNat 256 base.val

def isCanonical (e : Element) : Bool := decide (e.toNat % modulus = e.toNat)

/-- The `count` least significant bits, most significant bit first. The source panics where more
than its 256 bits are asked for. -/
def lsb (e : Element) (count : ℕ) : List Bool := (toBits count e.toNat).reverse

theorem fromBase_toNat (x : Fr) : (fromBase x).toNat = x.val := by
  rw [fromBase, BitVec.toNat_ofNat, Nat.mod_eq_of_lt (val_lt x)]

@[simp] theorem toBase_fromBase (x : Fr) : toBase (fromBase x) = x := by
  rw [toBase, fromBase_toNat, ZMod.natCast_zmod_val]

theorem isCanonical_iff (e : Element) : isCanonical e = true ↔ e.toNat < modulus := by
  have hpos : 0 < modulus := modulus_prime.pos
  simp only [isCanonical, decide_eq_true_eq]
  exact ⟨fun h => h ▸ Nat.mod_lt _ hpos, Nat.mod_eq_of_lt⟩

theorem toBase_val (e : Element) (h : e.toNat < modulus) : (toBase e).val = e.toNat := by
  rw [toBase, ZMod.val_natCast, Nat.mod_eq_of_lt h]

/-- Canonical elements survive the trip through the field. -/
theorem fromBase_toBase (e : Element) (h : e.toNat < modulus) :
    fromBase (toBase e) = e := by
  apply BitVec.eq_of_toNat_eq
  rw [fromBase_toNat, toBase_val e h]

theorem toBase_inj (a b : Element) (ha : a.toNat < modulus) (hb : b.toNat < modulus)
    (h : toBase a = toBase b) : a = b := by
  rw [← fromBase_toBase a ha, h, fromBase_toBase b hb]

@[simp] theorem toBase_zero : toBase zero = 0 := by simp [toBase, zero]

theorem toBase_eq_zero (e : Element) (h : e.toNat < modulus) :
    toBase e = 0 ↔ e = zero := by
  constructor
  · intro he
    exact toBase_inj e zero h modulus_prime.pos (by rw [he, toBase_zero])
  · rintro rfl
    exact toBase_zero

@[simp] theorem lsb_length (e : Element) (count : ℕ) : (lsb e count).length = count := by
  simp [lsb]

end Element

/-- The slot of a field element in a tree of `count` levels: the low bits of its
canonical value, most significant bit first. -/
def slot (count : ℕ) (x : Fr) : List Bool := (toBits count x.val).reverse

@[simp] theorem slot_length (count : ℕ) (x : Fr) : (slot count x).length = count := by
  simp [slot]

end PayyRollup.ScalarField
