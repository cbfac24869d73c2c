import PayyRollup.CompressionChains
import PayyRollup.NodeBlocks
import PayyRollup.SmirkChanges

/-!
The hash of a byte string. The bytes are cut into runs of sixteen, each run is read as a
big-endian number and the numbers are merged one after another, from a fixed first element. A
last run that is too short is padded with zeroes. So if merging has no collisions, two byte
strings share their hash exactly when the padding makes them the same string.
-/
namespace PayyRollup.HashBytes

open ScalarField ElementHash CompressionChains SparseMerkle
open NodeBlocks (beBytes beBytes_succ fromBeBytes)
open SmirkValues (elementHash)
open VerifierContracts (Bytes)

def byteHashIv : Element := 2#256

/-- The size of a chunk. -/
def chunkSize : ℕ := 16

/-- A chunk of at most sixteen bytes, the lower bytes padded with zeroes. -/
def bytesToElement (bytes : Bytes) : Element :=
  BitVec.ofNat 256 (fromBeBytes (fill chunkSize 0 bytes))

/-- The elements that a byte string is hashed as. -/
def byteElements (bytes : Bytes) : List Element := (chunks chunkSize bytes).map bytesToElement

def hashBytes (hash : List Fr → Fr) (bytes : Bytes) : Element :=
  (byteElements bytes).foldl (fun left right => hashMerge hash [left, right]) byteHashIv

/-- The bytes with zeroes up to the end of the last chunk. -/
def zeroPadded (bytes : Bytes) : Bytes := fillLast chunkSize 0 bytes

/-- The pairs that are merged while the bytes are hashed. -/
def Merged (hash : List Fr → Fr) (pairs : Set (Element × Element)) (bytes : Bytes) : Prop :=
  Chained (elementNode hash) pairs byteHashIv (byteElements bytes)

section Numbers

theorem fromBeBytes_concat (bytes : Bytes) (b : UInt8) :
    fromBeBytes (bytes ++ [b]) = 256 * fromBeBytes bytes + b.toNat := by
  unfold fromBeBytes
  rw [List.foldl_append]
  rfl

theorem fromBeBytes_lt (bytes : Bytes) : fromBeBytes bytes < 256 ^ bytes.length := by
  induction bytes using List.reverseRecOn with
  | nil => decide
  | append_singleton bytes b ih =>
    have hb := b.toNat_lt
    rw [fromBeBytes_concat, List.length_append, List.length_singleton, Nat.pow_succ]
    omega

theorem beBytes_fromBeBytes (bytes : Bytes) :
    beBytes bytes.length (fromBeBytes bytes) = bytes := by
  induction bytes using List.reverseRecOn with
  | nil => rfl
  | append_singleton bytes b ih =>
    have hb := b.toNat_lt
    rw [List.length_append, List.length_singleton, beBytes_succ, fromBeBytes_concat,
      show (256 * fromBeBytes bytes + b.toNat) / 256 = fromBeBytes bytes by omega, ih]
    congr 2
    apply UInt8.toNat_inj.mp
    rw [UInt8.toNat_ofNat']
    omega

theorem fill_length_of_mem (bytes chunk : Bytes) (hchunk : chunk ∈ chunks chunkSize bytes) :
    (fill chunkSize 0 chunk).length = chunkSize :=
  fill_length chunkSize 0 chunk (chunks_length_le chunkSize bytes chunk hchunk)

theorem bytesToElement_toNat (bytes chunk : Bytes) (hchunk : chunk ∈ chunks chunkSize bytes) :
    (bytesToElement chunk).toNat = fromBeBytes (fill chunkSize 0 chunk) := by
  have hlt := fromBeBytes_lt (fill chunkSize 0 chunk)
  rw [fill_length_of_mem bytes chunk hchunk] at hlt
  exact BitVec.toNat_ofNat _ _ ▸ Nat.mod_eq_of_lt (hlt.trans (by decide))

/-- The elements of a byte string give back its padded chunks. -/
theorem beBytes_byteElements (bytes : Bytes) :
    (byteElements bytes).map (fun e => beBytes chunkSize e.toNat) =
      (chunks chunkSize bytes).map (fill chunkSize 0) := by
  unfold byteElements
  rw [List.map_map]
  apply List.map_congr_left
  intro chunk hchunk
  rw [Function.comp_apply, bytesToElement_toNat bytes chunk hchunk]
  have hread := beBytes_fromBeBytes (fill chunkSize 0 chunk)
  rwa [fill_length_of_mem bytes chunk hchunk] at hread

theorem byteElements_eq_iff (a b : Bytes) :
    byteElements a = byteElements b ↔ zeroPadded a = zeroPadded b := by
  unfold zeroPadded
  rw [← fill_chunks_eq_iff chunkSize 0 (by decide) a b]
  constructor
  · intro h
    rw [← beBytes_byteElements, ← beBytes_byteElements, h]
  · intro h
    have hfilled : ∀ bytes, byteElements bytes =
        ((chunks chunkSize bytes).map (fill chunkSize 0)).map
          (fun chunk => BitVec.ofNat 256 (fromBeBytes chunk)) := by
      intro bytes
      rw [List.map_map]
      rfl
    rw [hfilled a, hfilled b, h]

end Numbers

section Collisions

variable (hash : List Fr → Fr) (pairs : Set (Element × Element))

theorem hashBytes_eq (bytes : Bytes) :
    hashBytes hash bytes = (byteElements bytes).foldl (elementNode hash) byteHashIv := rfl

theorem injOn_of_injective (hinj : (elementHash hash pairs).Injective) :
    Set.InjOn (fun pair : Element × Element => elementNode hash pair.1 pair.2) pairs := by
  intro p hp q hq h
  obtain ⟨hleft, hright⟩ := hinj p.1 p.2 q.1 q.2 hp hq h
  exact Prod.ext hleft hright

/-- Where merging has no collisions and never gives the first element, two byte strings share
their hash exactly when they are the same once their last chunks are padded with zeroes; so they
differ in length. -/
theorem hashBytes_eq_iff (hinj : (elementHash hash pairs).Injective)
    (hiv : ∀ pair ∈ pairs, hashMerge hash [pair.1, pair.2] ≠ byteHashIv) (a b : Bytes)
    (ha : Merged hash pairs a) (hb : Merged hash pairs b) :
    (hashBytes hash a = hashBytes hash b ↔ zeroPadded a = zeroPadded b) ∧
      (hashBytes hash a = hashBytes hash b → a.length = b.length → a = b) := by
  have hiff : hashBytes hash a = hashBytes hash b ↔ zeroPadded a = zeroPadded b := by
    rw [← byteElements_eq_iff]
    constructor
    · exact foldl_inj (injOn_of_injective hash pairs hinj) hiv _ _ ha hb
    · intro h
      rw [hashBytes_eq, hashBytes_eq, h]
  refine ⟨hiff, fun h hlength => ?_⟩
  exact eq_of_fillLast chunkSize 0 a b hlength (hiff.mp h)

/-- A hash that merges two elements into their sum and one. -/
def sumHash (xs : List Fr) : Fr := xs.sum + 1

/-- The pairs of one chunk of zeroes and of two of them. -/
def zeroPairs : Set (Element × Element) :=
  {pair | pair ∈ [(byteHashIv, 0#256), (3#256, 0#256)]}

theorem zeroPairs_cases (pair : Element × Element) (hpair : pair ∈ zeroPairs) :
    pair = (byteHashIv, 0#256) ∨ pair = (3#256, 0#256) := by
  rcases List.mem_cons.mp hpair with hfirst | hrest
  · exact Or.inl hfirst
  · exact Or.inr (List.mem_singleton.mp hrest)

theorem elementNode_first : elementNode sumHash byteHashIv 0#256 = 3#256 := by decide

theorem elementNode_second : elementNode sumHash 3#256 0#256 = 4#256 := by decide

theorem zeroPairs_injective : (elementHash sumHash zeroPairs).Injective := by
  intro a b c d hab hcd h
  change elementNode sumHash a b = elementNode sumHash c d at h
  rcases zeroPairs_cases _ hab with hab | hab <;> obtain ⟨rfl, rfl⟩ := Prod.mk.inj hab <;>
    rcases zeroPairs_cases _ hcd with hcd | hcd <;> obtain ⟨rfl, rfl⟩ := Prod.mk.inj hcd
  · exact ⟨rfl, rfl⟩
  · rw [elementNode_first, elementNode_second] at h
    exact absurd h (by decide)
  · rw [elementNode_first, elementNode_second] at h
    exact absurd h (by decide)
  · exact ⟨rfl, rfl⟩

theorem zeroPairs_ne_iv (pair : Element × Element) (hpair : pair ∈ zeroPairs) :
    hashMerge sumHash [pair.1, pair.2] ≠ byteHashIv := by
  change elementNode sumHash pair.1 pair.2 ≠ byteHashIv
  rcases zeroPairs_cases pair hpair with rfl | rfl
  · rw [elementNode_first]
    decide
  · rw [elementNode_second]
    decide

theorem first_mem_zeroPairs : (byteHashIv, 0#256) ∈ zeroPairs := List.mem_cons_self

theorem second_mem_zeroPairs : (3#256, 0#256) ∈ zeroPairs :=
  List.mem_cons_of_mem _ List.mem_cons_self

theorem merged_zeroes_one (bytes : Bytes) (hbytes : byteElements bytes = [0#256]) :
    Merged sumHash zeroPairs bytes := by
  unfold Merged
  rw [hbytes]
  exact chained_cons _ _ _ _ _ first_mem_zeroPairs (chained_nil _ _ _)

theorem merged_zeroes_two (bytes : Bytes) (hbytes : byteElements bytes = [0#256, 0#256]) :
    Merged sumHash zeroPairs bytes := by
  unfold Merged
  rw [hbytes]
  refine chained_cons _ _ _ _ _ first_mem_zeroPairs ?_
  rw [elementNode_first]
  exact chained_cons _ _ _ _ _ second_mem_zeroPairs (chained_nil _ _ _)

theorem hashBytes_eq_iff_zeroes :
    (elementHash sumHash zeroPairs).Injective ∧
      (hashBytes sumHash [0] = hashBytes sumHash (List.replicate 17 0) ↔
        zeroPadded [0] = zeroPadded (List.replicate 17 0)) :=
  ⟨zeroPairs_injective,
    (hashBytes_eq_iff sumHash zeroPairs zeroPairs_injective zeroPairs_ne_iv [0]
      (List.replicate 17 0) (merged_zeroes_one [0] (by decide))
      (merged_zeroes_two (List.replicate 17 0) (by decide))).1⟩

/-- A zero byte and sixteen of them, hashed without a collision of the merged elements. -/
theorem not_hashBytes_injective :
    (elementHash sumHash zeroPairs).Injective ∧
      (∀ pair ∈ zeroPairs, hashMerge sumHash [pair.1, pair.2] ≠ byteHashIv) ∧
      Merged sumHash zeroPairs [0] ∧ Merged sumHash zeroPairs (List.replicate 16 0) ∧
      ([0] : Bytes) ≠ List.replicate 16 0 ∧
      hashBytes sumHash [0] = hashBytes sumHash (List.replicate 16 0) :=
  ⟨zeroPairs_injective, zeroPairs_ne_iv, merged_zeroes_one [0] (by decide),
    merged_zeroes_one (List.replicate 16 0) (by decide), by decide, by decide⟩

end Collisions
end PayyRollup.HashBytes
