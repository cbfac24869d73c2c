import Mathlib.Data.Option.Basic
import PayyRollup.KeyValueStore

/-!
A store of records kept in a store of byte strings. A layout gives a key its bytes and gives bytes
to the values that a key may have. What is done to the records is done to the bytes: a lookup, a
batch of writes, and the entries in the order of their keys, which is the order of the bytes.
-/
namespace PayyRollup.ByteStores

open KeyValueStore

abbrev ByteStore := Store (List UInt8) (List UInt8)

structure Layout (K V : Type) where
  key : K → List UInt8
  key_injective : Function.Injective key
  value : K → V → Option (List UInt8)

/-- Byte strings in their order. -/
def byteCoding : Coding (List UInt8) (List ℕ) where
  code := fun bytes => bytes.map UInt8.toNat
  injective := List.map_injective_iff.mpr fun _ _ => UInt8.toNat_inj.mp

namespace Layout

variable {K V : Type} [DecidableEq K] (l : Layout K V)

/-- The keys in the order of their bytes. -/
def coding : Coding K (List ℕ) where
  code := fun k => (l.key k).map UInt8.toNat
  injective := byteCoding.injective.comp l.key_injective

/-- The bytes of a write. -/
def encode : Write K V → Option (Write (List UInt8) (List UInt8))
  | .put k v => (l.value k v).map fun bytes => .put (l.key k) bytes
  | .delete k => some (.delete (l.key k))

/-- Each record is kept as its bytes, and nothing else is kept. -/
structure Represents (db : ByteStore) (s : Store K V) : Prop where
  lookup : ∀ k, Option.Rel (fun v bytes => l.value k v = some bytes) (s.lookup k)
    (db.lookup (l.key k))
  keys : ∀ bytes ∈ db, ∃ k, l.key k = bytes

theorem empty_represents : l.Represents ∅ ∅ where
  lookup := by
    intro k
    rw [Finmap.lookup_empty, Finmap.lookup_empty]
    exact .none
  keys := fun bytes h => absurd h Finmap.notMem_empty

variable {l} {db : ByteStore} {s : Store K V}

omit [DecidableEq K] in
theorem encode_key (w : Write K V) (w' : Write (List UInt8) (List UInt8))
    (h : l.encode w = some w') : w'.key = l.key w.key := by
  cases w with
  | put k v =>
    obtain ⟨bytes, -, rfl⟩ := Option.map_eq_some_iff.mp h
    rfl
  | delete k =>
    obtain rfl := Option.some.inj h
    rfl

omit [DecidableEq K] in
theorem encode_outcome (w : Write K V) (w' : Write (List UInt8) (List UInt8))
    (h : l.encode w = some w') :
    Option.Rel (fun v bytes => l.value w.key v = some bytes) w.outcome w'.outcome := by
  cases w with
  | put k v =>
    obtain ⟨bytes, hvalue, rfl⟩ := Option.map_eq_some_iff.mp h
    exact .some hvalue
  | delete k =>
    obtain rfl := Option.some.inj h
    exact .none

theorem Represents.apply (h : l.Represents db s) (w : Write K V)
    (w' : Write (List UInt8) (List UInt8)) (hw : l.encode w = some w') :
    l.Represents (w'.apply db) (w.apply s) where
  lookup := by
    intro k
    have hkey := encode_key w w' hw
    by_cases hk : k = w.key
    · subst hk
      rw [w.lookup_apply_self, ← hkey, w'.lookup_apply_self]
      exact encode_outcome w w' hw
    · have hne : l.key k ≠ w'.key := by
        rw [hkey]
        exact fun heq => hk (l.key_injective heq)
      rw [w.lookup_apply_of_ne s k hk, w'.lookup_apply_of_ne db _ hne]
      exact h.lookup k
  keys := by
    intro bytes hbytes
    by_cases hb : bytes = w'.key
    · exact ⟨w.key, by rw [hb, encode_key w w' hw]⟩
    · rw [← Finmap.lookup_isSome, w'.lookup_apply_of_ne db bytes hb, Finmap.lookup_isSome] at hbytes
      exact h.keys bytes hbytes

/-- A batch of writes to the records is a batch of writes to the bytes. -/
theorem Represents.write (h : l.Represents db s) (batch : List (Write K V))
    (batch' : List (Write (List UInt8) (List UInt8)))
    (hbatch : List.Forall₂ (fun w w' => l.encode w = some w') batch batch') :
    l.Represents (KeyValueStore.write batch' db) (KeyValueStore.write batch s) := by
  induction hbatch generalizing db s with
  | nil => exact h
  | cons hw _ ih => exact ih (h.apply _ _ hw)

theorem Represents.lookup_none (h : l.Represents db s) (k : K) (hk : s.lookup k = none) :
    db.lookup (l.key k) = none := by
  have hrel := h.lookup k
  rw [hk] at hrel
  cases hlookup : db.lookup (l.key k) with
  | none => rfl
  | some bytes =>
    rw [hlookup] at hrel
    cases hrel

theorem Represents.lookup_some (h : l.Represents db s) (k : K) (v : V)
    (hk : s.lookup k = some v) :
    ∃ bytes, l.value k v = some bytes ∧ db.lookup (l.key k) = some bytes := by
  have hrel := h.lookup k
  rw [hk] at hrel
  cases hlookup : db.lookup (l.key k) with
  | none =>
    rw [hlookup] at hrel
    cases hrel
  | some bytes =>
    rw [hlookup] at hrel
    cases hrel with
    | some hvalue => exact ⟨bytes, hvalue, rfl⟩

/-- A record and the bytes it is kept as. -/
def Kept (l : Layout K V) (record : K × V) (entry : List UInt8 × List UInt8) : Prop :=
  entry.1 = l.key record.1 ∧ l.value record.1 record.2 = some entry.2

omit [DecidableEq K] in
theorem exists_kept (records : List (K × V))
    (h : ∀ record ∈ records, ∃ bytes, l.value record.1 record.2 = some bytes) :
    ∃ entries, List.Forall₂ l.Kept records entries := by
  induction records with
  | nil => exact ⟨[], .nil⟩
  | cons record rest ih =>
    obtain ⟨hfirst, hrest⟩ := List.forall_mem_cons.mp h
    obtain ⟨bytes, hbytes⟩ := hfirst
    obtain ⟨entries, hentries⟩ := ih hrest
    exact ⟨(l.key record.1, bytes) :: entries, .cons ⟨rfl, hbytes⟩ hentries⟩

theorem forall₂_mem_right {α β : Type} {R : α → β → Prop} {xs : List α} {ys : List β}
    (h : List.Forall₂ R xs ys) (y : β) (hy : y ∈ ys) : ∃ x ∈ xs, R x y := by
  induction h with
  | nil => cases hy
  | cons hfirst _ ih =>
    rcases List.mem_cons.mp hy with rfl | hmem
    · exact ⟨_, List.mem_cons_self, hfirst⟩
    · obtain ⟨x, hx, hR⟩ := ih hmem
      exact ⟨x, List.mem_cons_of_mem _ hx, hR⟩

omit [DecidableEq K] in
theorem kept_sorted (records : List (K × V)) (entries : List (List UInt8 × List UInt8))
    (h : List.Forall₂ l.Kept records entries)
    (hsorted : records.Pairwise fun a b => l.coding.code a.1 < l.coding.code b.1) :
    entries.Pairwise fun a b => byteCoding.code a.1 < byteCoding.code b.1 := by
  induction h with
  | nil => exact .nil
  | @cons record entry records entries hfirst hrest ih =>
    obtain ⟨hbelow, hothers⟩ := List.pairwise_cons.mp hsorted
    refine List.pairwise_cons.mpr ⟨fun entry' hentry' => ?_, ih hothers⟩
    obtain ⟨record', hrecord', hkept⟩ := forall₂_mem_right hrest entry' hentry'
    have hlt := hbelow record' hrecord'
    rw [hfirst.1, hkept.1]
    exact hlt

/-- The entries come in the order of the records they keep. -/
theorem Represents.iterator (h : l.Represents db s) :
    List.Forall₂ l.Kept (KeyValueStore.iterator l.coding s)
      (KeyValueStore.iterator byteCoding db) := by
  obtain ⟨entries, hkept⟩ : ∃ entries, List.Forall₂ l.Kept
      (KeyValueStore.iterator l.coding s) entries := by
    refine exists_kept _ fun record hrecord => ?_
    have hlookup := (mem_iterator l.coding s record.1 record.2).mp hrecord
    obtain ⟨bytes, hvalue, -⟩ := h.lookup_some record.1 record.2 hlookup
    exact ⟨bytes, hvalue⟩
  have hsame : entries = KeyValueStore.iterator byteCoding db := by
    refine eq_of_sorted byteCoding _ _
      (kept_sorted _ entries hkept (iterator_sorted l.coding s)) (iterator_sorted byteCoding db) ?_
    intro entry
    obtain ⟨keyBytes, valueBytes⟩ := entry
    rw [mem_iterator]
    constructor
    · intro hentry
      obtain ⟨⟨k, v⟩, hrecord, hkey, hvalue⟩ := forall₂_mem_right hkept _ hentry
      have hlookup := (mem_iterator l.coding s k v).mp hrecord
      obtain ⟨bytes, hbytes, hdb⟩ := h.lookup_some k v hlookup
      obtain rfl := Option.some.inj (hvalue.symm.trans hbytes)
      change keyBytes = l.key k at hkey
      rw [hkey]
      exact hdb
    · intro hlookup
      obtain ⟨k, rfl⟩ := h.keys keyBytes (Finmap.mem_of_lookup_eq_some hlookup)
      cases hs : s.lookup k with
      | none => exact absurd ((h.lookup_none k hs).symm.trans hlookup) (by simp)
      | some v =>
        obtain ⟨bytes, hvalue, hdb⟩ := h.lookup_some k v hs
        obtain rfl := Option.some.inj (hdb.symm.trans hlookup)
        have hrecord := (mem_iterator l.coding s k v).mpr hs
        obtain ⟨entry, hentry, hkey, hvalue'⟩ := forall₂_mem_right hkept.flip _ hrecord
        have heq : entry = (l.key k, bytes) :=
          Prod.ext hkey (Option.some.inj (hvalue'.symm.trans hvalue))
        rw [← heq]
        exact hentry
  rw [← hsame]
  exact hkept

end Layout

end PayyRollup.ByteStores
