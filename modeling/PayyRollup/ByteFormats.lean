import Mathlib.Data.List.Basic
import Mathlib.Tactic.Common

/-!
Formats of byte strings. A format writes a value, if it has bytes for it, and reads a value off the
front of a byte string; by its law it reads exactly what it writes. So no two values share their
bytes, no value's bytes begin with another's, and no value is read from two encodings. Formats
compose: one after another, the elements of a list after their number, and the fields of a variant
after its tag.
-/
namespace PayyRollup.ByteFormats

structure Format (α : Type) where
  write : α → Option (List UInt8)
  read : List UInt8 → Option (α × List UInt8)
  read_iff : ∀ bytes a rest,
    read bytes = some (a, rest) ↔ ∃ front, write a = some front ∧ bytes = front ++ rest

/-- A way to build values that can be taken apart again. -/
structure Variant (α β : Type) where
  build : β → α
  take : α → Option β
  take_iff : ∀ a b, take a = some b ↔ build b = a

/-- All values, by their fields. -/
def Variant.record {α β : Type} (build : β → α) (fields : α → β)
    (hbuild : ∀ a, build (fields a) = a) (hfields : ∀ b, fields (build b) = b) : Variant α β where
  build := build
  take := fun a => some (fields a)
  take_iff := by
    intro a b
    rw [Option.some_inj]
    constructor
    · intro h
      rw [← h, hbuild]
    · intro h
      rw [← h, hfields]

namespace Format

variable {α β : Type}

/-- The values that have bytes. -/
def Fits (f : Format α) (a : α) : Prop := (f.write a).isSome

/-- The value at the front of the bytes, whatever follows it. -/
def fromBytes (f : Format α) (bytes : List UInt8) : Option α := (f.read bytes).map Prod.fst

section Law

variable (f : Format α)

theorem fits_iff (a : α) : f.Fits a ↔ ∃ front, f.write a = some front := Option.isSome_iff_exists

theorem read_append (a : α) (front rest : List UInt8) (h : f.write a = some front) :
    f.read (front ++ rest) = some (a, rest) :=
  (f.read_iff _ _ _).mpr ⟨front, h, rfl⟩

/-- What is read are the values whose bytes come first. -/
theorem fromBytes_iff (bytes : List UInt8) (a : α) :
    f.fromBytes bytes = some a ↔ ∃ front, f.write a = some front ∧ front <+: bytes := by
  rw [fromBytes, Option.map_eq_some_iff]
  constructor
  · intro h
    obtain ⟨⟨a', rest⟩, hread, rfl⟩ := h
    obtain ⟨front, hwrite, rfl⟩ := (f.read_iff _ _ _).mp hread
    exact ⟨front, hwrite, List.prefix_append front rest⟩
  · intro h
    obtain ⟨front, hwrite, rest, rfl⟩ := h
    exact ⟨(a, rest), f.read_append a front rest hwrite, rfl⟩

theorem fromBytes_write (a : α) (front : List UInt8) (h : f.write a = some front) :
    f.fromBytes front = some a :=
  (f.fromBytes_iff front a).mpr ⟨front, h, List.prefix_refl front⟩

end Law

/-- Nothing at all. -/
def empty : Format Unit where
  write := fun _ => some []
  read := fun bytes => some ((), bytes)
  read_iff := by simp [eq_comm]

section Fixed

def readFixed (count : ℕ) (decode : List UInt8 → Option α) (bytes : List UInt8) :
    Option (α × List UInt8) :=
  if count ≤ bytes.length then (decode (bytes.take count)).map fun a => (a, bytes.drop count)
  else none

variable (count : ℕ) (encode : α → Option (List UInt8)) (decode : List UInt8 → Option α)
  (h : ∀ bytes a, encode a = some bytes ↔ bytes.length = count ∧ decode bytes = some a)

include h in
theorem readFixed_iff (bytes : List UInt8) (a : α) (rest : List UInt8) :
    readFixed count decode bytes = some (a, rest) ↔
      ∃ front, encode a = some front ∧ bytes = front ++ rest := by
  unfold readFixed
  constructor
  · intro hread
    split at hread
    · rename_i hle
      obtain ⟨a', hdecode, heq⟩ := Option.map_eq_some_iff.mp hread
      obtain ⟨rfl, rfl⟩ := Prod.mk.inj heq
      have hlength : (bytes.take count).length = count := by
        rw [List.length_take]
        omega
      exact ⟨bytes.take count, (h _ _).mpr ⟨hlength, hdecode⟩, (List.take_append_drop _ _).symm⟩
    · cases hread
  · intro hwrite
    obtain ⟨front, hencode, rfl⟩ := hwrite
    obtain ⟨rfl, hdecode⟩ := (h _ _).mp hencode
    rw [if_pos (by simp), List.take_left, hdecode, List.drop_left]
    rfl

/-- A value of a fixed number of bytes. -/
def fixed : Format α where
  write := encode
  read := readFixed count decode
  read_iff := readFixed_iff count encode decode h

end Fixed

section Pair

variable (f : Format α) (g : Format β)

def writePair (p : α × β) : Option (List UInt8) :=
  (f.write p.1).bind fun front => (g.write p.2).map fun rest => front ++ rest

def readPair (bytes : List UInt8) : Option ((α × β) × List UInt8) :=
  (f.read bytes).bind fun first => (g.read first.2).map fun second =>
    ((first.1, second.1), second.2)

theorem writePair_iff (p : α × β) (bytes : List UInt8) : writePair f g p = some bytes ↔
    ∃ front back, f.write p.1 = some front ∧ g.write p.2 = some back ∧ bytes = front ++ back := by
  simp only [writePair, Option.bind_eq_some_iff, Option.map_eq_some_iff]
  constructor
  · intro h
    obtain ⟨front, hfront, back, hback, rfl⟩ := h
    exact ⟨front, back, hfront, hback, rfl⟩
  · intro h
    obtain ⟨front, back, hfront, hback, rfl⟩ := h
    exact ⟨front, hfront, back, hback, rfl⟩

theorem readPair_iff (bytes : List UInt8) (p : α × β) (rest : List UInt8) :
    readPair f g bytes = some (p, rest) ↔
      ∃ front, writePair f g p = some front ∧ bytes = front ++ rest := by
  constructor
  · intro h
    obtain ⟨⟨a, middle⟩, hfirst, hrest⟩ := Option.bind_eq_some_iff.mp h
    obtain ⟨⟨b, rest'⟩, hsecond, heq⟩ := Option.map_eq_some_iff.mp hrest
    obtain ⟨rfl, rfl⟩ := Prod.mk.inj heq
    obtain ⟨front, hfront, rfl⟩ := (f.read_iff _ _ _).mp hfirst
    obtain ⟨back, hback, rfl⟩ := (g.read_iff _ _ _).mp hsecond
    exact ⟨front ++ back, (writePair_iff f g (a, b) _).mpr ⟨front, back, hfront, hback, rfl⟩,
      (List.append_assoc front back rest').symm⟩
  · intro h
    obtain ⟨bytes', hwrite, rfl⟩ := h
    obtain ⟨front, back, hfront, hback, rfl⟩ := (writePair_iff f g p bytes').mp hwrite
    rw [readPair, List.append_assoc, f.read_append p.1 front _ hfront, Option.bind_some,
      g.read_append p.2 back rest hback]
    rfl

/-- One value after the other. -/
def pair : Format (α × β) where
  write := writePair f g
  read := readPair f g
  read_iff := readPair_iff f g

theorem pair_fits (p : α × β) : (f.pair g).Fits p ↔ f.Fits p.1 ∧ g.Fits p.2 := by
  simp only [fits_iff]
  constructor
  · intro h
    obtain ⟨bytes, hwrite⟩ := h
    obtain ⟨front, back, hfront, hback, -⟩ := (writePair_iff f g p bytes).mp hwrite
    exact ⟨⟨front, hfront⟩, ⟨back, hback⟩⟩
  · intro h
    obtain ⟨⟨front, hfront⟩, ⟨back, hback⟩⟩ := h
    exact ⟨front ++ back, (writePair_iff f g p _).mpr ⟨front, back, hfront, hback, rfl⟩⟩

end Pair

section Via

variable (f : Format β) (v : Variant α β)

def writeVia (a : α) : Option (List UInt8) := (v.take a).bind f.write

def readVia (bytes : List UInt8) : Option (α × List UInt8) :=
  (f.read bytes).map fun found => (v.build found.1, found.2)

theorem readVia_iff (bytes : List UInt8) (a : α) (rest : List UInt8) :
    f.readVia v bytes = some (a, rest) ↔
      ∃ front, f.writeVia v a = some front ∧ bytes = front ++ rest := by
  constructor
  · intro hvia
    obtain ⟨⟨b, rest'⟩, hread, heq⟩ := Option.map_eq_some_iff.mp hvia
    obtain ⟨rfl, rfl⟩ := Prod.mk.inj heq
    obtain ⟨front, hwrite, rfl⟩ := (f.read_iff _ _ _).mp hread
    refine ⟨front, ?_, rfl⟩
    rw [writeVia, (v.take_iff _ b).mpr rfl]
    exact hwrite
  · intro h
    obtain ⟨front, hvia, rfl⟩ := h
    obtain ⟨b, htake, hwrite⟩ := Option.bind_eq_some_iff.mp hvia
    rw [readVia, f.read_append b front rest hwrite, Option.map_some, (v.take_iff a b).mp htake]

/-- The values of a variant, as what they are built from. -/
def via : Format α where
  write := f.writeVia v
  read := f.readVia v
  read_iff := f.readVia_iff v

theorem via_write (b : β) : (f.via v).write (v.build b) = f.write b := by
  change (v.take (v.build b)).bind f.write = f.write b
  rw [(v.take_iff _ b).mpr rfl, Option.bind_some]

theorem via_fits (b : β) : (f.via v).Fits (v.build b) ↔ f.Fits b := by
  rw [Fits, via_write, Fits]

end Via

section Counted

variable (f : Format α)

def writeAll : List α → Option (List UInt8)
  | [] => some []
  | a :: as => (f.write a).bind fun front => (writeAll as).map fun back => front ++ back

def readAll : ℕ → List UInt8 → Option (List α × List UInt8)
  | 0, bytes => some ([], bytes)
  | n + 1, bytes => (f.read bytes).bind fun first =>
      (readAll n first.2).map fun others => (first.1 :: others.1, others.2)

theorem writeAll_cons_iff (a : α) (as : List α) (bytes : List UInt8) :
    f.writeAll (a :: as) = some bytes ↔
      ∃ front back, f.write a = some front ∧ f.writeAll as = some back ∧ bytes = front ++ back := by
  simp only [writeAll, Option.bind_eq_some_iff, Option.map_eq_some_iff]
  constructor
  · intro h
    obtain ⟨front, hfront, back, hback, rfl⟩ := h
    exact ⟨front, back, hfront, hback, rfl⟩
  · intro h
    obtain ⟨front, back, hfront, hback, rfl⟩ := h
    exact ⟨front, hfront, back, hback, rfl⟩

theorem readAll_iff (n : ℕ) (bytes : List UInt8) (as : List α) (rest : List UInt8) :
    f.readAll n bytes = some (as, rest) ↔
      as.length = n ∧ ∃ front, f.writeAll as = some front ∧ bytes = front ++ rest := by
  induction n generalizing bytes as with
  | zero =>
    constructor
    · intro h
      obtain ⟨rfl, rfl⟩ := Prod.mk.inj (Option.some.inj h)
      exact ⟨rfl, [], rfl, rfl⟩
    · intro h
      obtain ⟨hlength, front, hwrite, rfl⟩ := h
      obtain rfl := List.eq_nil_of_length_eq_zero hlength
      obtain rfl := Option.some.inj hwrite
      rfl
  | succ n ih =>
    constructor
    · intro h
      obtain ⟨⟨a, middle⟩, hfirst, hrest⟩ := Option.bind_eq_some_iff.mp h
      obtain ⟨⟨as', rest'⟩, hothers, heq⟩ := Option.map_eq_some_iff.mp hrest
      obtain ⟨rfl, rfl⟩ := Prod.mk.inj heq
      obtain ⟨front, hfront, rfl⟩ := (f.read_iff _ _ _).mp hfirst
      obtain ⟨hlength, back, hback, rfl⟩ := (ih _ _).mp hothers
      refine ⟨by rw [List.length_cons, hlength], front ++ back, ?_, by rw [List.append_assoc]⟩
      exact (f.writeAll_cons_iff a as' _).mpr ⟨front, back, hfront, hback, rfl⟩
    · intro h
      obtain ⟨hlength, bytes', hwrite, rfl⟩ := h
      cases as with
      | nil => cases hlength
      | cons a as =>
        obtain ⟨front, back, hfront, hback, rfl⟩ := (f.writeAll_cons_iff a as bytes').mp hwrite
        have hothers := (ih (back ++ rest) as).mpr ⟨Nat.succ.inj hlength, back, hback, rfl⟩
        rw [readAll, List.append_assoc, f.read_append a front _ hfront, Option.bind_some, hothers]
        rfl

theorem writeAll_isSome (as : List α) : (f.writeAll as).isSome ↔ ∀ a ∈ as, f.Fits a := by
  induction as with
  | nil => simp [writeAll]
  | cons a as ih =>
    rw [List.forall_mem_cons, ← ih, Option.isSome_iff_exists]
    simp only [fits_iff, Option.isSome_iff_exists]
    constructor
    · intro h
      obtain ⟨bytes, hwrite⟩ := h
      obtain ⟨front, back, hfront, hback, -⟩ := (f.writeAll_cons_iff a as bytes).mp hwrite
      exact ⟨⟨front, hfront⟩, ⟨back, hback⟩⟩
    · intro h
      obtain ⟨⟨front, hfront⟩, ⟨back, hback⟩⟩ := h
      exact ⟨_, (f.writeAll_cons_iff a as _).mpr ⟨front, back, hfront, hback, rfl⟩⟩

variable (counter : Format ℕ)

def writeCounted (as : List α) : Option (List UInt8) :=
  (counter.write as.length).bind fun front => (f.writeAll as).map fun back => front ++ back

def readCounted (bytes : List UInt8) : Option (List α × List UInt8) :=
  (counter.read bytes).bind fun count => f.readAll count.1 count.2

theorem writeCounted_iff (as : List α) (bytes : List UInt8) :
    f.writeCounted counter as = some bytes ↔ ∃ front back, counter.write as.length = some front ∧
      f.writeAll as = some back ∧ bytes = front ++ back := by
  simp only [writeCounted, Option.bind_eq_some_iff, Option.map_eq_some_iff]
  constructor
  · intro h
    obtain ⟨front, hfront, back, hback, rfl⟩ := h
    exact ⟨front, back, hfront, hback, rfl⟩
  · intro h
    obtain ⟨front, back, hfront, hback, rfl⟩ := h
    exact ⟨front, hfront, back, hback, rfl⟩

theorem readCounted_iff (bytes : List UInt8) (as : List α) (rest : List UInt8) :
    f.readCounted counter bytes = some (as, rest) ↔
      ∃ front, f.writeCounted counter as = some front ∧ bytes = front ++ rest := by
  constructor
  · intro h
    obtain ⟨⟨n, middle⟩, hcount, hall⟩ := Option.bind_eq_some_iff.mp h
    obtain ⟨front, hfront, rfl⟩ := (counter.read_iff _ _ _).mp hcount
    obtain ⟨rfl, back, hback, rfl⟩ := (f.readAll_iff _ _ _ _).mp hall
    exact ⟨front ++ back,
      (f.writeCounted_iff counter as _).mpr ⟨front, back, hfront, hback, rfl⟩,
      (List.append_assoc front back rest).symm⟩
  · intro h
    obtain ⟨bytes', hwrite, rfl⟩ := h
    obtain ⟨front, back, hfront, hback, rfl⟩ := (f.writeCounted_iff counter as bytes').mp hwrite
    rw [readCounted, List.append_assoc, counter.read_append _ front _ hfront]
    exact (f.readAll_iff _ _ _ _).mpr ⟨rfl, back, hback, rfl⟩

/-- The elements of a list after their number. -/
def counted : Format (List α) where
  write := f.writeCounted counter
  read := f.readCounted counter
  read_iff := f.readCounted_iff counter

theorem counted_fits (as : List α) :
    (f.counted counter).Fits as ↔ counter.Fits as.length ∧ ∀ a ∈ as, f.Fits a := by
  rw [← writeAll_isSome, Fits, Fits, Option.isSome_iff_exists]
  simp only [Option.isSome_iff_exists]
  constructor
  · intro h
    obtain ⟨bytes, hwrite⟩ := h
    obtain ⟨front, back, hfront, hback, -⟩ := (f.writeCounted_iff counter as bytes).mp hwrite
    exact ⟨⟨front, hfront⟩, ⟨back, hback⟩⟩
  · intro h
    obtain ⟨⟨front, hfront⟩, ⟨back, hback⟩⟩ := h
    exact ⟨_, (f.writeCounted_iff counter as _).mpr ⟨front, back, hfront, hback, rfl⟩⟩

end Counted

section Enumeration

variable (key : α → ℕ) (formats : List (Format α))

/-- Each format writes values of its own position only. -/
def Keyed : ℕ → List (Format α) → Prop
  | _, [] => True
  | i, f :: fs => (∀ a, f.Fits a → key a = i) ∧ Keyed (i + 1) fs

theorem keyed_getElem (i n : ℕ) (f : Format α) (h : Keyed key i formats)
    (hf : formats[n]? = some f) (a : α) (hfits : f.Fits a) : key a = i + n := by
  induction formats generalizing i n with
  | nil => cases hf
  | cons g gs ih =>
    obtain ⟨hfirst, hothers⟩ := h
    cases n with
    | zero =>
      obtain rfl := Option.some.inj hf
      exact hfirst a hfits
    | succ n =>
      rw [ih (i + 1) n hothers hf]
      omega

/-- A variant is at its position if all that it builds is. -/
theorem via_keyed (f : Format β) (v : Variant α β) (i : ℕ) (hkey : ∀ b, key (v.build b) = i)
    (a : α) (hfits : (f.via v).Fits a) : key a = i := by
  obtain ⟨front, hwrite⟩ := (fits_iff _ a).mp hfits
  obtain ⟨b, htake, -⟩ := Option.bind_eq_some_iff.mp hwrite
  rw [← (v.take_iff a b).mp htake, hkey b]

def writeEnum (a : α) : Option (List UInt8) :=
  formats[key a]?.bind fun f => (f.write a).map fun fields => UInt8.ofNat (key a) :: fields

def readEnum : List UInt8 → Option (α × List UInt8)
  | [] => none
  | tag :: bytes => formats[tag.toNat]?.bind fun f => f.read bytes

variable (hkeyed : Keyed key 0 formats) (hcount : formats.length ≤ 256)

theorem writeEnum_iff (a : α) (bytes : List UInt8) : writeEnum key formats a = some bytes ↔
    ∃ f fields, formats[key a]? = some f ∧ f.write a = some fields ∧
      bytes = UInt8.ofNat (key a) :: fields := by
  simp only [writeEnum, Option.bind_eq_some_iff, Option.map_eq_some_iff]
  constructor
  · intro h
    obtain ⟨f, hf, fields, hfields, rfl⟩ := h
    exact ⟨f, fields, hf, hfields, rfl⟩
  · intro h
    obtain ⟨f, fields, hf, hfields, rfl⟩ := h
    exact ⟨f, hf, fields, hfields, rfl⟩

include hkeyed hcount in
theorem readEnum_iff (bytes : List UInt8) (a : α) (rest : List UInt8) :
    readEnum formats bytes = some (a, rest) ↔
      ∃ front, writeEnum key formats a = some front ∧ bytes = front ++ rest := by
  constructor
  · intro h
    cases bytes with
    | nil => cases h
    | cons tag bytes =>
      obtain ⟨f, hf, hread⟩ := Option.bind_eq_some_iff.mp h
      obtain ⟨fields, hfields, rfl⟩ := (f.read_iff _ _ _).mp hread
      have hkey := keyed_getElem key formats 0 _ f hkeyed hf a ((f.fits_iff a).mpr ⟨_, hfields⟩)
      rw [Nat.zero_add] at hkey
      refine ⟨tag :: fields, (writeEnum_iff key formats a _).mpr ?_, rfl⟩
      rw [hkey, UInt8.ofNat_toNat]
      exact ⟨f, fields, hf, hfields, rfl⟩
  · intro h
    obtain ⟨front, hwrite, rfl⟩ := h
    obtain ⟨f, fields, hf, hfields, rfl⟩ := (writeEnum_iff key formats a front).mp hwrite
    have hlt : key a < 256 := Nat.lt_of_lt_of_le (List.getElem?_eq_some_iff.mp hf).1 hcount
    have htag : (UInt8.ofNat (key a)).toNat = key a := UInt8.toNat_ofNat_of_lt' hlt
    rw [List.cons_append, readEnum, htag, hf]
    exact f.read_append a fields rest hfields

/-- The tag of a variant, then its fields. -/
def enum : Format α where
  write := writeEnum key formats
  read := readEnum formats
  read_iff := readEnum_iff key formats hkeyed hcount

theorem enum_fits (a : α) (f : Format α) (hf : formats[key a]? = some f) :
    (enum key formats hkeyed hcount).Fits a ↔ f.Fits a := by
  change (writeEnum key formats a).isSome ↔ (f.write a).isSome
  rw [writeEnum, hf, Option.bind_some, Option.isSome_map]

end Enumeration

end Format

end PayyRollup.ByteFormats
