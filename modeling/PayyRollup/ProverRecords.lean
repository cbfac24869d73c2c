import PayyRollup.ByteStores
import PayyRollup.ProverWorker
import PayyRollup.StoreKeys
import PayyRollup.WireMessages

/-!
The database of the prover as byte strings: the last block it has seen, the proofs by height and
the version. A key holds a value of its own kind, but the three kinds of values share one format,
so a reader checks the kind of what it has read. The proofs are listed over the keys between those
of two heights, and only proofs lie there.
-/
namespace PayyRollup.ProverRecords

open ScalarField VerifierContracts SmirkTree KeyValueStore ByteFormats ByteStores WireFormats
  WireMessages StoreKeys ProverWorker RollupProver
open BlockStoreDb (Height)
open NodeBlocks hiding Error

section Values

inductive ValueV1
  | lastSeenBlock (block : LastSeenBlock)
  | rollup (input : RollupInput)
  | proverVersion (version : ℕ)

inductive Value
  | v1 (value : ValueV1)

def lastSeenBlockFields : Variant LastSeenBlock (ℕ × Element) :=
  .record (fun f => ⟨f.1, f.2⟩) (fun b => (b.height, b.rootHash)) (fun _ => rfl) fun _ => rfl

def lastSeenBlockFormat : Format LastSeenBlock := (u64.pair word).via lastSeenBlockFields

def proofFields : Variant (RollupProof Bytes)
    (Bytes × List Element × Element × Element × List Element) :=
  .record (fun f => ⟨f.1, f.2.1, f.2.2.1, f.2.2.2.1, f.2.2.2.2⟩)
    (fun p => (p.proof, p.aggInstances, p.oldRoot, p.newRoot, p.utxoHashes))
    (fun _ => rfl) fun _ => rfl

def proofFormat : Format (RollupProof Bytes) :=
  ((vec byte).pair <| (vec word).pair <| word.pair <| word.pair <| vec word).via proofFields

def rollupInputFields : Variant RollupInput
    (RollupProof Bytes × ℕ × CryptoHash × List NodeBlocks.Signature) :=
  .record (fun f => ⟨f.1, f.2.1, f.2.2.1, f.2.2.2⟩)
    (fun r => (r.proof, r.height, r.otherHash, r.signatures)) (fun _ => rfl) fun _ => rfl

def rollupInputFormat : Format RollupInput :=
  (proofFormat.pair <| u64.pair <| word.pair <| vec signature).via rollupInputFields

def lastSeenBlockValue : Variant ValueV1 LastSeenBlock where
  build := .lastSeenBlock
  take
    | .lastSeenBlock block => some block
    | _ => none
  take_iff := by
    intro a b
    cases a <;> simp [eq_comm]

def rollupValue : Variant ValueV1 RollupInput where
  build := .rollup
  take
    | .rollup input => some input
    | _ => none
  take_iff := by
    intro a b
    cases a <;> simp [eq_comm]

def proverVersionValue : Variant ValueV1 ℕ where
  build := .proverVersion
  take
    | .proverVersion version => some version
    | _ => none
  take_iff := by
    intro a b
    cases a <;> simp [eq_comm]

def valueKey : ValueV1 → ℕ
  | .lastSeenBlock _ => 0
  | .rollup _ => 1
  | .proverVersion _ => 2

def valueVariants : List (Format ValueV1) :=
  [lastSeenBlockFormat.via lastSeenBlockValue, rollupInputFormat.via rollupValue,
    u64.via proverVersionValue]

def valueV1Format : Format ValueV1 :=
  Format.enum valueKey valueVariants
    ⟨Format.via_keyed _ _ _ _ fun _ => rfl, Format.via_keyed _ _ _ _ fun _ => rfl,
      Format.via_keyed _ _ _ _ fun _ => rfl, trivial⟩ (by simp [valueVariants])

def valueFields : Variant Value ValueV1 :=
  .record .v1 (fun | .v1 value => value) (fun | .v1 _ => rfl) fun _ => rfl

def valueFormat : Format Value :=
  Format.enum (fun _ => 0) [valueV1Format.via valueFields]
    ⟨Format.via_keyed _ _ _ _ fun _ => rfl, trivial⟩ (by simp)

/-- The values with machine numbers and lists that can be counted. -/
def SizedValue : ValueV1 → Prop
  | .lastSeenBlock block => block.height < 2 ^ 64
  | .rollup input => (input.proof.proof.length < 2 ^ 32 ∧ input.proof.aggInstances.length < 2 ^ 32 ∧
      input.proof.utxoHashes.length < 2 ^ 32) ∧ input.height < 2 ^ 64 ∧
        input.signatures.length < 2 ^ 32
  | .proverVersion version => version < 2 ^ 64

theorem valueFormat_fits (value : ValueV1) : valueFormat.Fits (.v1 value) ↔ SizedValue value := by
  refine (Format.enum_fits (fun _ => 0) [valueV1Format.via valueFields] _ _ _ _ rfl).trans ?_
  refine (Format.via_fits valueV1Format valueFields value).trans ?_
  cases value with
  | lastSeenBlock block =>
    refine (Format.enum_fits valueKey valueVariants _ _ _ _ rfl).trans ?_
    refine (Format.via_fits lastSeenBlockFormat lastSeenBlockValue block).trans ?_
    refine (Format.via_fits (u64.pair word) lastSeenBlockFields
      (block.height, block.rootHash)).trans ?_
    simp only [Format.pair_fits, u64_fits, word_fits, and_true, SizedValue]
  | rollup input =>
    refine (Format.enum_fits valueKey valueVariants _ _ _ _ rfl).trans ?_
    refine (Format.via_fits rollupInputFormat rollupValue input).trans ?_
    refine (Format.via_fits (proofFormat.pair <| u64.pair <| word.pair <| vec signature)
      rollupInputFields (input.proof, input.height, input.otherHash, input.signatures)).trans ?_
    have hproof := Format.via_fits
      ((vec byte).pair <| (vec word).pair <| word.pair <| word.pair <| vec word) proofFields
        (input.proof.proof, input.proof.aggInstances, input.proof.oldRoot, input.proof.newRoot,
          input.proof.utxoHashes)
    rw [Format.pair_fits]
    refine (and_congr_left' hproof).trans ?_
    simp only [Format.pair_fits, vec_fits, u64_fits, word_fits, byte_fits, signature_fits,
      true_and, implies_true, and_true, SizedValue]
  | proverVersion version =>
    refine (Format.enum_fits valueKey valueVariants _ _ _ _ rfl).trans ?_
    exact (Format.via_fits u64 proverVersionValue version).trans (u64_fits version)

end Values

section Database

abbrev Error := ProverKey.Error

/-- Bytes that are no value are an error of the reader. -/
def valueOf (bytes : Bytes) : Outcome Error Value :=
  match valueFormat.fromBytes bytes with
  | some value => .ok value
  | none => .error (.err .io)

def get (db : ByteStore) (key : ProverKey) : Option Bytes := db.lookup (proverCodec.serialize key)

def set (db : ByteStore) (key : ProverKey) (value : Value) : Outcome Error ByteStore :=
  match valueFormat.write value with
  | some bytes => .ok (write [.put (proverCodec.serialize key) bytes] db)
  | none => .error (.err .wireMessage)

def setLastSeenBlock (db : ByteStore) (block : LastSeenBlock) : Outcome Error ByteStore :=
  set db .lastSeenBlock (.v1 (.lastSeenBlock block))

def setRollup (db : ByteStore) (height : Height) (value : RollupInput) : Outcome Error ByteStore :=
  set db (.rollup height) (.v1 (.rollup value))

def setVersion (db : ByteStore) (version : ℕ) : Outcome Error ByteStore :=
  set db .proverVersion (.v1 (.proverVersion version))

def latestVersion : ℕ := 1

/-- A new database has the latest version; one that exists is left as it is. -/
def createOrLoad (existing : Option ByteStore) : Outcome Error ByteStore :=
  match existing with
  | none => setVersion ∅ latestVersion
  | some db => .ok db

def getLastSeenBlock (db : ByteStore) : Outcome Error (Option LastSeenBlock) :=
  match get db .lastSeenBlock with
  | none => .ok none
  | some bytes =>
      match valueOf bytes with
      | .ok (.v1 (.lastSeenBlock value)) => .ok (some value)
      | .ok (.v1 _) => .error (.err .invalidValue)
      | .error e => .error e

def getVersion (db : ByteStore) : Outcome Error (Option ℕ) :=
  match get db .proverVersion with
  | none => .ok none
  | some bytes =>
      match valueOf bytes with
      | .ok (.v1 (.proverVersion value)) => .ok (some value)
      | .ok (.v1 _) => .error (.err .invalidValue)
      | .error e => .error e

def listed (entry : Bytes × Bytes) : Outcome Error (Height × RollupInput) := do
  let key ← ProverKey.deserialize entry.1
  match key with
  | .rollup height =>
      match valueOf entry.2 with
      | .ok (.v1 (.rollup rollup)) => .ok (height, rollup)
      | .ok (.v1 _) => .error (.err .invalidValue)
      | .error e => .error e
  | _ => .error (.err .invalidKey)

/-- The proofs with a height from one up to another. -/
def listRollups (db : ByteStore) (start stop : Height) :
    List (Outcome Error (Height × RollupInput)) :=
  ((iterator byteCoding db).filter fun entry =>
    decide ((proverCodec.serialize (.rollup start)).map UInt8.toNat ≤ byteCoding.code entry.1) &&
      decide (byteCoding.code entry.1 < (proverCodec.serialize (.rollup stop)).map UInt8.toNat)).map
    listed

end Database

section Layout

/-- The bytes of a value under a key of its kind. -/
def keptValue : ProverKey → ValueV1 → Option Bytes
  | .lastSeenBlock, .lastSeenBlock block => valueFormat.write (.v1 (.lastSeenBlock block))
  | .rollup _, .rollup input => valueFormat.write (.v1 (.rollup input))
  | .proverVersion, .proverVersion version => valueFormat.write (.v1 (.proverVersion version))
  | _, _ => none

theorem serialize_injective : Function.Injective proverCodec.serialize := by
  intro a b h
  have ha := prover_ordered.round_trip a
  rw [h, prover_ordered.round_trip b] at ha
  exact (Except.ok.inj ha).symm

def layout : Layout ProverKey ValueV1 where
  key := proverCodec.serialize
  key_injective := serialize_injective
  value := keptValue

/-- The bytes keep what the worker knows of its database, and the version. -/
structure Holds (db : ByteStore) (p : ProverDb) (version : Option ℕ) : Prop where
  kept : ∃ s, layout.Represents db s ∧
    s.lookup .lastSeenBlock = p.lastSeenBlock.map ValueV1.lastSeenBlock ∧
    (∀ h : Height, s.lookup (.rollup h) = (p.rollups h).map ValueV1.rollup) ∧
    s.lookup .proverVersion = version.map ValueV1.proverVersion

variable {db : ByteStore} {p : ProverDb} {version : Option ℕ}

theorem valueOf_write (value : ValueV1) (bytes : Bytes)
    (h : valueFormat.write (.v1 value) = some bytes) : valueOf bytes = .ok (.v1 value) := by
  rw [valueOf, valueFormat.fromBytes_write _ bytes h]

theorem Holds.getLastSeenBlock (h : Holds db p version) :
    getLastSeenBlock db = .ok p.lastSeenBlock := by
  obtain ⟨s, hrep, hlast, -, -⟩ := h.kept
  cases hp : p.lastSeenBlock with
  | none =>
    rw [hp] at hlast
    have hget : get db .lastSeenBlock = none := hrep.lookup_none .lastSeenBlock hlast
    rw [ProverRecords.getLastSeenBlock, hget]
  | some block =>
    rw [hp] at hlast
    obtain ⟨bytes, hvalue, hlookup⟩ := hrep.lookup_some .lastSeenBlock _ hlast
    have hget : get db .lastSeenBlock = some bytes := hlookup
    rw [ProverRecords.getLastSeenBlock, hget]
    simp only [valueOf_write _ bytes hvalue]

theorem Holds.getVersion (h : Holds db p version) : getVersion db = .ok version := by
  obtain ⟨s, hrep, -, -, hversion⟩ := h.kept
  cases version with
  | none =>
    have hget : get db .proverVersion = none := hrep.lookup_none .proverVersion hversion
    rw [ProverRecords.getVersion, hget]
  | some v =>
    obtain ⟨bytes, hvalue, hlookup⟩ := hrep.lookup_some .proverVersion _ hversion
    have hget : get db .proverVersion = some bytes := hlookup
    rw [ProverRecords.getVersion, hget]
    simp only [valueOf_write _ bytes hvalue]

end Layout

section Listing

variable {db : ByteStore} {p : ProverDb} {version : Option ℕ}

theorem rollup_code (k : ProverKey) (start stop : Height) :
    (layout.coding.code (.rollup start) ≤ layout.coding.code k ∧
        layout.coding.code k < layout.coding.code (.rollup stop)) ↔
      ∃ h, k = .rollup h ∧ start ≤ h ∧ h < stop := by
  have hmono : ∀ x y : Height, layout.coding.code (.rollup x) < layout.coding.code (.rollup y) ↔
      x < y := fun x y => (prover_ordered.monotone (.rollup x) (.rollup y) rfl)
  constructor
  · intro h
    obtain ⟨hlow, hhigh⟩ := h
    have hkind := prover_ordered.range_kind (.rollup start) (.rollup stop)
      (proverCodec.serialize k) rfl (not_lt.mpr hlow) hhigh.not_gt
    cases k with
    | rollup h =>
      exact ⟨h, rfl, not_lt.mp fun hlt => absurd ((hmono h start).mpr hlt) (not_lt.mpr hlow),
        (hmono h stop).mp hhigh⟩
    | lastSeenBlock => exact absurd (Option.some.inj hkind) (show (0 : UInt8) ≠ 1 by decide)
    | proverVersion => exact absurd (Option.some.inj hkind) (show (2 : UInt8) ≠ 1 by decide)
  · intro h
    obtain ⟨h, rfl, hlow, hhigh⟩ := h
    exact ⟨not_lt.mp fun hlt => absurd ((hmono h start).mp hlt) (not_lt.mpr hlow),
      (hmono h stop).mpr hhigh⟩

/-- A proof as the listing returns it. -/
def asRecord (r : Height × RollupInput) : ProverKey × ValueV1 := (.rollup r.1, .rollup r.2)

theorem listed_kept (r : Height × RollupInput) (entry : Bytes × Bytes)
    (h : layout.Kept (asRecord r) entry) : listed entry = .ok r := by
  obtain ⟨hkey, hvalue⟩ := h
  have hread : ProverKey.deserialize entry.1 = .ok (.rollup r.1) := by
    rw [hkey]
    exact prover_ordered.round_trip (.rollup r.1)
  have hwrite : valueFormat.write (.v1 (.rollup r.2)) = some entry.2 := hvalue
  rw [listed, hread]
  simp only [bind, Except.bind, valueOf_write _ _ hwrite]

theorem map_listed (records : List (Height × RollupInput)) (entries : List (Bytes × Bytes))
    (h : List.Forall₂ layout.Kept (records.map asRecord) entries) :
    entries.map listed = records.map .ok := by
  induction records generalizing entries with
  | nil =>
    cases h
    rfl
  | cons r rest ih =>
    obtain _ | ⟨hfirst, hrest⟩ := h
    rw [List.map_cons, List.map_cons, listed_kept r _ hfirst, ih _ hrest]

/-- The listing has the proofs with a height in the range, each once and in their order. -/
theorem Holds.listRollups (h : Holds db p version) (start stop : Height) :
    ∃ records : List (Height × RollupInput), listRollups db start stop = records.map .ok ∧
      (∀ height input, (height, input) ∈ records ↔
        p.rollups height = some input ∧ start ≤ height ∧ height < stop) ∧
      records.Pairwise fun a b => a.1 < b.1 := by
  obtain ⟨s, hrep, -, hrollups, -⟩ := h.kept
  let inRange : ProverKey × ValueV1 → Bool := fun record =>
    decide (layout.coding.code (.rollup start) ≤ layout.coding.code record.1) &&
      decide (layout.coding.code record.1 < layout.coding.code (.rollup stop))
  have hmem : ∀ k v, (k, v) ∈ (iterator layout.coding s).filter inRange ↔
      s.lookup k = some v ∧ ∃ h, k = .rollup h ∧ start ≤ h ∧ h < stop := by
    intro k v
    rw [List.mem_filter, mem_iterator, Bool.and_eq_true, decide_eq_true_eq, decide_eq_true_eq,
      rollup_code k start stop]
  obtain ⟨records, hrecords⟩ : ∃ records : List (Height × RollupInput),
      records.map asRecord = (iterator layout.coding s).filter inRange := by
    have hrange : (iterator layout.coding s).filter inRange ∈ Set.range (List.map asRecord) := by
      rw [Set.range_list_map]
      intro record hrecord
      obtain ⟨k, v⟩ := record
      obtain ⟨hlookup, height, rfl, -, -⟩ := (hmem k v).mp hrecord
      rw [hrollups] at hlookup
      obtain ⟨input, -, rfl⟩ := Option.map_eq_some_iff.mp hlookup
      exact ⟨(height, input), rfl⟩
    exact hrange
  have hkept : List.Forall₂ layout.Kept (records.map asRecord)
      ((iterator byteCoding db).filter fun entry =>
        decide ((proverCodec.serialize (.rollup start)).map UInt8.toNat ≤
            byteCoding.code entry.1) &&
          decide (byteCoding.code entry.1 <
            (proverCodec.serialize (.rollup stop)).map UInt8.toNat)) := by
    rw [hrecords]
    refine List.rel_filter (fun record entry hentry => ?_) hrep.iterator
    have hcode : byteCoding.code entry.1 = layout.coding.code record.1 :=
      congrArg (List.map UInt8.toNat) hentry.1
    simp only [inRange, Bool.and_eq_true, decide_eq_true_eq, hcode]
    exact Iff.rfl
  refine ⟨records, map_listed records _ hkept, fun height input => ?_, ?_⟩
  · have hin : (height, input) ∈ records ↔
        asRecord (height, input) ∈ (iterator layout.coding s).filter inRange := by
      rw [← hrecords, List.mem_map]
      constructor
      · intro hmem
        exact ⟨_, hmem, rfl⟩
      · intro hmem
        obtain ⟨⟨height', input'⟩, hin, heq⟩ := hmem
        obtain ⟨hkey, hvalue⟩ := Prod.mk.inj heq
        obtain rfl : height' = height := ProverKey.rollup.inj hkey
        obtain rfl : input' = input := ValueV1.rollup.inj hvalue
        exact hin
    rw [hin, asRecord, hmem, hrollups]
    constructor
    · intro hfound
      obtain ⟨hlookup, height', heq, hrange⟩ := hfound
      obtain ⟨input', hinput, hvalue⟩ := Option.map_eq_some_iff.mp hlookup
      obtain rfl : height = height' := ProverKey.rollup.inj heq
      obtain rfl : input' = input := ValueV1.rollup.inj hvalue
      exact ⟨hinput, hrange⟩
    · intro hfound
      obtain ⟨hinput, hrange⟩ := hfound
      exact ⟨by rw [hinput]; rfl, height, rfl, hrange⟩
  · have hsorted := (iterator_sorted layout.coding s).filter inRange
    rw [← hrecords, List.pairwise_map] at hsorted
    apply hsorted.imp
    intro a b hab
    exact (prover_ordered.monotone (.rollup a.1) (.rollup b.1) rfl).mp hab

end Listing

section Runs

inductive Call
  | setLastSeenBlock (block : LastSeenBlock)
  | setRollup (height : Height) (input : RollupInput)
  | setVersion (version : ℕ)

namespace Call

def value : Call → ValueV1
  | setLastSeenBlock block => .lastSeenBlock block
  | setRollup _ input => .rollup input
  | setVersion version => .proverVersion version

def bytes (db : ByteStore) : Call → Outcome Error ByteStore
  | setLastSeenBlock block => ProverRecords.setLastSeenBlock db block
  | setRollup height input => ProverRecords.setRollup db height input
  | setVersion version => ProverRecords.setVersion db version

/-- What the worker knows after a call. -/
def known (p : ProverDb × Option ℕ) : Call → ProverDb × Option ℕ
  | setLastSeenBlock block => (p.1.setLastSeenBlock block, p.2)
  | setRollup height input => (p.1.setRollup height input, p.2)
  | setVersion version => (p.1, some version)

end Call

variable {db : ByteStore} {p : ProverDb × Option ℕ}

theorem Holds.call (h : Holds db p.1 p.2) (c : Call) (hc : SizedValue c.value) :
    ∃ db', c.bytes db = .ok db' ∧ Holds db' (c.known p).1 (c.known p).2 := by
  obtain ⟨s, hrep, hlast, hrollups, hversion⟩ := h.kept
  obtain ⟨bytes, hbytes⟩ := (valueFormat.fits_iff _).mp ((valueFormat_fits c.value).mpr hc)
  have hset : ∀ key, set db key (.v1 c.value) =
      .ok (write [.put (proverCodec.serialize key) bytes] db) := by
    intro key
    rw [set, hbytes]
  have hput : ∀ key, keptValue key c.value = some bytes →
      layout.Represents (write [.put (proverCodec.serialize key) bytes] db)
        (s.insert key c.value) := fun key hkey =>
    hrep.apply (.put key c.value) _ (Option.map_eq_some_iff.mpr ⟨bytes, hkey, rfl⟩)
  cases c with
  | setLastSeenBlock block =>
    refine ⟨_, hset .lastSeenBlock, ⟨_, hput .lastSeenBlock hbytes, ?_, fun height => ?_, ?_⟩⟩
    · exact Finmap.lookup_insert s
    · rw [Finmap.lookup_insert_of_ne s (by simp)]
      exact hrollups height
    · rw [Finmap.lookup_insert_of_ne s (by simp)]
      exact hversion
  | setRollup height input =>
    refine ⟨_, hset (.rollup height), ⟨_, hput (.rollup height) hbytes, ?_, fun other => ?_, ?_⟩⟩
    · rw [Finmap.lookup_insert_of_ne s (by simp)]
      exact hlast
    · change _ = (Function.update p.1.rollups height (some input) other).map ValueV1.rollup
      by_cases hother : other = height
      · subst hother
        rw [Function.update_self]
        exact Finmap.lookup_insert s
      · have hne : (other : ℕ) ≠ height := fun heq => hother (Fin.ext heq)
        rw [Function.update_of_ne hne, Finmap.lookup_insert_of_ne s (by simpa using hother)]
        exact hrollups other
    · rw [Finmap.lookup_insert_of_ne s (by simp)]
      exact hversion
  | setVersion version =>
    refine ⟨_, hset .proverVersion, ⟨_, hput .proverVersion hbytes, ?_, fun height => ?_, ?_⟩⟩
    · rw [Finmap.lookup_insert_of_ne s (by simp)]
      exact hlast
    · rw [Finmap.lookup_insert_of_ne s (by simp)]
      exact hrollups height
    · exact Finmap.lookup_insert s

theorem Holds.calls (h : Holds db p.1 p.2) (calls : List Call)
    (hcalls : ∀ c ∈ calls, SizedValue c.value) :
    ∃ db', calls.foldlM Call.bytes db = .ok db' ∧
      Holds db' (calls.foldl Call.known p).1 (calls.foldl Call.known p).2 := by
  induction calls generalizing db p with
  | nil => exact ⟨db, rfl, h⟩
  | cons c rest ih =>
    obtain ⟨hfirst, hrest⟩ := List.forall_mem_cons.mp hcalls
    obtain ⟨db', hnext, hholds⟩ := h.call c hfirst
    obtain ⟨last, hlast, hknown⟩ := ih hholds hrest
    refine ⟨last, ?_, hknown⟩
    rw [List.foldlM_cons, hnext]
    exact hlast

def emptyDb : ProverDb := ⟨none, fun _ => none⟩

theorem holds_empty : Holds ∅ emptyDb none where
  kept := ⟨∅, layout.empty_represents, rfl, fun _ => rfl, rfl⟩

end Runs

/-- After any calls on a new database every reader returns what was written last, and the listing
of a range has its proofs in the order of their heights. -/
theorem prover_db_records (calls : List Call) (hcalls : ∀ c ∈ calls, SizedValue c.value) :
    let known := calls.foldl Call.known (emptyDb, some latestVersion)
    ∃ db, (createOrLoad none >>= fun db => calls.foldlM Call.bytes db) = .ok db ∧
      getLastSeenBlock db = .ok known.1.lastSeenBlock ∧ getVersion db = .ok known.2 ∧
      ∀ start stop : Height, ∃ records : List (Height × RollupInput),
        listRollups db start stop = records.map .ok ∧
        (∀ height input, (height, input) ∈ records ↔
          known.1.rollups height = some input ∧ start ≤ height ∧ height < stop) ∧
        records.Pairwise fun a b => a.1 < b.1 := by
  intro known
  obtain ⟨created, hcreated, hholds⟩ := holds_empty.call (p := (emptyDb, none))
    (.setVersion latestVersion) (by norm_num [Call.value, SizedValue, latestVersion])
  obtain ⟨db, hrun, hlast⟩ := hholds.calls calls hcalls
  refine ⟨db, ?_, hlast.getLastSeenBlock, hlast.getVersion, hlast.listRollups⟩
  change (setVersion ∅ latestVersion >>= fun db => calls.foldlM Call.bytes db) = .ok db
  change setVersion ∅ latestVersion = .ok created at hcreated
  rw [hcreated]
  exact hrun

/-- A proof of nothing. -/
def emptyInput : RollupInput := ⟨⟨[], [], 0#256, 0#256, []⟩, 0, 0#256, []⟩

theorem prover_db_records_two : ∃ db,
    (createOrLoad none >>= fun db =>
      [Call.setRollup 1 emptyInput, .setRollup 2 emptyInput].foldlM Call.bytes db) = .ok db ∧
    getVersion db = .ok (some 1) ∧ ∃ records : List (Height × RollupInput),
      listRollups db 2 3 = records.map .ok ∧ (2, emptyInput) ∈ records ∧
        ∀ input, (1, input) ∉ records := by
  have hsized : ∀ c ∈ [Call.setRollup 1 emptyInput, .setRollup 2 emptyInput],
      SizedValue c.value := by
    simp [Call.value, SizedValue, emptyInput]
  obtain ⟨db, hrun, -, hversion, hlist⟩ := prover_db_records
    [.setRollup 1 emptyInput, .setRollup 2 emptyInput] hsized
  obtain ⟨records, hrecords, hmem, -⟩ := hlist 2 3
  refine ⟨db, hrun, hversion, records, hrecords, (hmem 2 emptyInput).mpr ?_, fun input hin => ?_⟩
  · exact ⟨rfl, le_refl _, by decide⟩
  · exact absurd ((hmem 1 input).mp hin).2.1 (by decide)

end PayyRollup.ProverRecords
