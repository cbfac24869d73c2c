import PayyRollup.ByteStores
import PayyRollup.HashCaches
import PayyRollup.WireFormats

/-!
The database of the notes tree as byte strings. Keys and values are messages of two versions; an
element has a key of either version, and a known hash only one of the second. Loading decodes all
entries in the order of their bytes. What the insertions write are the bytes of the typed records,
so a load of the bytes is a load of the records.
-/
namespace PayyRollup.SmirkBytes

open ScalarField VerifierContracts SmirkNode KeyValueStore SmirkValues SmirkStorage ByteFormats
  ByteStores WireFormats
open SmirkTree (Failure Outcome)
open ProverBatch (SmirkMetadata)

section Formats

def keyV2Element : Variant KeyV2 Element where
  build := .element
  take
    | .element e => some e
    | .knownHash _ _ => none
  take_iff := by
    intro a b
    cases a <;> simp [eq_comm]

def keyV2KnownHash : Variant KeyV2 (Element × Element) where
  build := fun pair => .knownHash pair.1 pair.2
  take
    | .knownHash left right => some (left, right)
    | .element _ => none
  take_iff := by
    intro a b
    cases a <;> simp [Prod.ext_iff, eq_comm]

def keyV2Key : KeyV2 → ℕ
  | .element _ => 0
  | .knownHash _ _ => 1

def keyV2Variants : List (Format KeyV2) :=
  [word.via keyV2Element, (word.pair word).via keyV2KnownHash]

def keyV2 : Format KeyV2 :=
  Format.enum keyV2Key keyV2Variants
    ⟨Format.via_keyed _ _ _ _ fun _ => rfl, Format.via_keyed _ _ _ _ fun _ => rfl, trivial⟩
    (by simp [keyV2Variants])

def keyV1Variant : Variant KeyFormat Element where
  build := .v1
  take
    | .v1 e => some e
    | .v2 _ => none
  take_iff := by
    intro a b
    cases a <;> simp [eq_comm]

def keyV2Variant : Variant KeyFormat KeyV2 where
  build := .v2
  take
    | .v2 key => some key
    | .v1 _ => none
  take_iff := by
    intro a b
    cases a <;> simp [eq_comm]

def keyFormatKey : KeyFormat → ℕ
  | .v1 _ => 0
  | .v2 _ => 1

def keyFormatVariants : List (Format KeyFormat) := [word.via keyV1Variant, keyV2.via keyV2Variant]

def keyFormat : Format KeyFormat :=
  Format.enum keyFormatKey keyFormatVariants
    ⟨Format.via_keyed _ _ _ _ fun _ => rfl, Format.via_keyed _ _ _ _ fun _ => rfl, trivial⟩
    (by simp [keyFormatVariants])

/-- The bytes of a key are those by which the keys are ordered. -/
theorem keyFormat_write (key : KeyFormat) : keyFormat.write key = some key.toBytes := by
  cases key with
  | v1 e => rfl
  | v2 key => cases key <;> rfl

variable {V : Type} (f : Format V)

def metadataVariant : Variant (ValueV2 V) V where
  build := .metadata
  take
    | .metadata value => some value
    | .knownHash _ => none
  take_iff := by
    intro a b
    cases a <;> simp [eq_comm]

def resultVariant : Variant (ValueV2 V) Element where
  build := .knownHash
  take
    | .knownHash result => some result
    | .metadata _ => none
  take_iff := by
    intro a b
    cases a <;> simp [eq_comm]

def valueV2Key : ValueV2 V → ℕ
  | .metadata _ => 0
  | .knownHash _ => 1

def valueV2Variants : List (Format (ValueV2 V)) := [f.via metadataVariant, word.via resultVariant]

def valueV2 : Format (ValueV2 V) :=
  Format.enum valueV2Key (valueV2Variants f)
    ⟨Format.via_keyed _ _ _ _ fun _ => rfl, Format.via_keyed _ _ _ _ fun _ => rfl, trivial⟩
    (by simp [valueV2Variants])

def valueV1Variant : Variant (ValueFormat V) V where
  build := .v1
  take
    | .v1 value => some value
    | .v2 _ => none
  take_iff := by
    intro a b
    cases a <;> simp [eq_comm]

def valueV2Variant : Variant (ValueFormat V) (ValueV2 V) where
  build := .v2
  take
    | .v2 value => some value
    | .v1 _ => none
  take_iff := by
    intro a b
    cases a <;> simp [eq_comm]

def valueFormatKey : ValueFormat V → ℕ
  | .v1 _ => 0
  | .v2 _ => 1

def valueFormatVariants : List (Format (ValueFormat V)) :=
  [f.via valueV1Variant, (valueV2 f).via valueV2Variant]

def valueFormat : Format (ValueFormat V) :=
  Format.enum valueFormatKey (valueFormatVariants f)
    ⟨Format.via_keyed _ _ _ _ fun _ => rfl, Format.via_keyed _ _ _ _ fun _ => rfl, trivial⟩
    (by simp [valueFormatVariants])

theorem valueV2_fits (value : ValueV2 V) :
    (valueFormat f).Fits (.v2 value) ↔ (valueV2 f).Fits value := by
  refine (Format.enum_fits valueFormatKey (valueFormatVariants f) _ _ _ _ rfl).trans ?_
  exact Format.via_fits (valueV2 f) valueV2Variant value

theorem metadata_fits (value : V) :
    (valueFormat f).Fits (.v2 (.metadata value)) ↔ f.Fits value := by
  refine (valueV2_fits f _).trans ?_
  refine (Format.enum_fits valueV2Key (valueV2Variants f) _ _ _ _ rfl).trans ?_
  exact Format.via_fits f metadataVariant value

theorem knownHash_fits (result : Element) : (valueFormat f).Fits (.v2 (.knownHash result)) := by
  refine (valueV2_fits f _).mpr ?_
  refine (Format.enum_fits valueV2Key (valueV2Variants f) _ _ _ _ rfl).mpr ?_
  exact (Format.via_fits word resultVariant result).mpr (word_fits result)

def layout : Layout KeyFormat (ValueFormat V) where
  key := KeyFormat.toBytes
  key_injective := KeyFormat.toBytes_inj
  value := fun _ value => (valueFormat f).write value

end Formats

section Tree

inductive LoadError
  | wireMessage
  | storage (source : SmirkStorage.Error)

variable {V : Type} (f : Format V) (hash : List Fr → Fr)

/-- The record of an entry. -/
def record (entry : Bytes × Bytes) : Except LoadError (KeyFormat × ValueFormat V) :=
  match keyFormat.fromBytes entry.1 with
  | none => .error .wireMessage
  | some key =>
      match (valueFormat f).fromBytes entry.2 with
      | none => .error .wireMessage
      | some value => .ok (key, value)

/-- Sort the entries into known hashes and elements, up to the first bad one. -/
def collect : List (Bytes × Bytes) → Except LoadError (List KnownHash × List (Element × V))
  | [] => .ok ([], [])
  | bytes :: rest =>
      match record f bytes with
      | .error e => .error e
      | .ok read =>
          match entry read with
          | .error e => .error (.storage e)
          | .ok (.knownHash known) => (collect rest).map fun r => (known :: r.1, r.2)
          | .ok (.smirkKV key value) => (collect rest).map fun r => (r.1, (key, value) :: r.2)

def loadTree (D : ℕ) (db : ByteStore) : Outcome LoadError (ValueTree D V) :=
  match collect f (iterator byteCoding db) with
  | .error e => .error (.err e)
  | .ok (knownHashes, smirkKv) =>
      match ValueBatch.fromEntries D smirkKv with
      | .error e => .error (e.map fun source => .storage (.collision source))
      | .ok batch =>
          match (ValueTree.newWithCache D V knownHashes).insertBatch hash (fun _ => []) batch with
          | .error e => .error (e.map fun source => .storage (.collision source))
          | .ok (smirk, _) => .ok smirk

/-- A tree with the bytes of its database. -/
structure ByteTree (D : ℕ) (V : Type) where
  tree : ValueTree D V
  db : ByteStore

/-- Insert into the tree, then write the bytes of the records at once if the database allows it;
a value that has no bytes panics before the write. -/
def insertBatch {D : ℕ} (self : ByteTree D V) (schedule : Schedule) (batch : ValueBatch D V)
    (written : Bool) : ByteTree D V × Outcome SmirkStorage.Error Unit :=
  if batch.entries.isEmpty then (self, .ok ())
  else
    match self.tree.insertBatch hash schedule batch with
    | .error e => (self, .error (e.map Error.collision))
    | .ok (tree, log) =>
        match (Persistent.writeBatch batch.entries log).mapM (layout f).encode with
        | none => (⟨tree, self.db⟩, .error .panic)
        | some writes =>
            if written then (⟨tree, write writes self.db⟩, .ok ())
            else (⟨tree, self.db⟩, .error (.err .rocksdb))

/-- A known hash among the entries; other entries and bytes that cannot be read are passed over. -/
def inDbHash (entry : Bytes × Bytes) : Option KnownHash :=
  match keyFormat.fromBytes entry.1, (valueFormat f).fromBytes entry.2 with
  | some (.v2 (.knownHash left right)), some (.v2 (.knownHash result)) => some ⟨left, right, result⟩
  | _, _ => none

/-- Store the hashes of the tree that the database does not have; `none` is a panic. -/
def persistHashes {D : ℕ} (self : ByteTree D V) (written : Bool) : Option (ByteTree D V) :=
  (SmirkValues.Node.knownHashes hash self.tree.tree).map fun inMemoryHashes =>
    let inDbHashes := (iterator byteCoding self.db).filterMap (inDbHash f)
    let hashesToInsert := inMemoryHashes.filter fun known => !inDbHashes.contains known
    match (hashesToInsert.map HashCaches.persistWrite).mapM (layout f).encode with
    | none => self
    | some writes => if written then ⟨self.tree, write writes self.db⟩ else self

end Tree

section Simulation

variable {V : Type} {f : Format V} (hash : List Fr → Fr) {D : ℕ}

/-- The same tree, with the bytes of the records. -/
structure Agrees (f : Format V) (p : ByteTree D V) (q : Persistent D V) : Prop where
  tree : p.tree = q.tree
  db : (layout f).Represents p.db q.db

theorem record_kept (r : KeyFormat × ValueFormat V) (bytes : Bytes × Bytes)
    (h : (layout f).Kept r bytes) : record f bytes = .ok r := by
  obtain ⟨hkey, hvalue⟩ := h
  have hreadKey : keyFormat.fromBytes bytes.1 = some r.1 := by
    rw [hkey]
    exact keyFormat.fromBytes_write r.1 _ (keyFormat_write r.1)
  have hreadValue : (valueFormat f).fromBytes bytes.2 = some r.2 :=
    (valueFormat f).fromBytes_write r.2 bytes.2 hvalue
  rw [record, hreadKey]
  simp only [hreadValue]

theorem collect_kept (records : List (KeyFormat × ValueFormat V)) (entries : List (Bytes × Bytes))
    (h : List.Forall₂ (layout f).Kept records entries) :
    collect f entries = (SmirkStorage.collect records).mapError LoadError.storage := by
  induction h with
  | nil => rfl
  | @cons r bytes records entries hfirst _ ih =>
    rw [collect, SmirkStorage.collect, record_kept r bytes hfirst]
    simp only [ih]
    cases entry r with
    | error e => rfl
    | ok found =>
      cases found with
      | smirkKV key value => cases SmirkStorage.collect records <;> rfl
      | knownHash known => cases SmirkStorage.collect records <;> rfl

/-- Loading the bytes is loading the records. -/
theorem loadTree_eq (db : ByteStore) (s : Db V) (h : (layout f).Represents db s) :
    loadTree f hash D db =
      (SmirkStorage.loadTree hash D s).mapError (Failure.map LoadError.storage) := by
  have hcollect := collect_kept _ _ h.iterator
  have hsame : iterator (layout f).coding s = iterator keyCoding s := rfl
  rw [hsame] at hcollect
  rw [loadTree, SmirkStorage.loadTree, hcollect]
  cases SmirkStorage.collect (iterator keyCoding s) with
  | error e => rfl
  | ok sorted =>
    obtain ⟨knownHashes, smirkKv⟩ := sorted
    simp only [Except.mapError]
    cases ValueBatch.fromEntries D smirkKv with
    | error e => cases e <;> rfl
    | ok batch =>
      cases hinsert : (ValueTree.newWithCache D V knownHashes).insertBatch hash (fun _ => [])
        batch with
      | error e => simp only [hinsert]; cases e <;> rfl
      | ok inserted => simp only [hinsert]

theorem exists_encoded (batch : List (Write KeyFormat (ValueFormat V)))
    (h : ∀ w ∈ batch, ∃ w', (layout f).encode w = some w') :
    ∃ writes, batch.mapM (layout f).encode = some writes ∧
      List.Forall₂ (fun w w' => (layout f).encode w = some w') batch writes := by
  induction batch with
  | nil => exact ⟨[], rfl, .nil⟩
  | cons w rest ih =>
    obtain ⟨hfirst, hrest⟩ := List.forall_mem_cons.mp h
    obtain ⟨w', hw'⟩ := hfirst
    obtain ⟨writes, hwrites, hencodes⟩ := ih hrest
    refine ⟨w' :: writes, ?_, .cons hw' hencodes⟩
    rw [List.mapM_cons, hw', hwrites]
    rfl

/-- All writes of a batch have bytes if its values have. -/
theorem writeBatch_encodes (entries : List (Element × V)) (log : List HashChange)
    (hfits : ∀ e ∈ entries, f.Fits e.2) (w : Write KeyFormat (ValueFormat V))
    (hw : w ∈ Persistent.writeBatch entries log) : ∃ w', (layout f).encode w = some w' := by
  have hput : ∀ key value, (valueFormat f).Fits value →
      ∃ w', (layout f).encode (.put key value) = some w' := by
    intro key value hvalue
    obtain ⟨bytes, hbytes⟩ := ((valueFormat f).fits_iff value).mp hvalue
    exact ⟨.put key.toBytes bytes, Option.map_eq_some_iff.mpr ⟨bytes, hbytes, rfl⟩⟩
  rcases (mem_writeBatch entries log w).mp hw with
    ⟨e, v, hin, rfl | rfl⟩ | ⟨l, r, -, rfl⟩ | ⟨l, r, result, -, rfl⟩
  · exact hput _ _ ((metadata_fits f v).mpr (hfits (e, v) hin))
  · exact ⟨_, rfl⟩
  · exact ⟨_, rfl⟩
  · exact hput _ _ (knownHash_fits f result)

theorem Agrees.insertBatch {p : ByteTree D V} {q : Persistent D V} (h : Agrees f p q)
    (schedule : Schedule) (batch : ValueBatch D V) (written : Bool)
    (hfits : ∀ e ∈ batch.entries, f.Fits e.2) :
    Agrees f (SmirkBytes.insertBatch f hash p schedule batch written).1
        (q.insertBatch hash schedule batch written).1 ∧
      (SmirkBytes.insertBatch f hash p schedule batch written).2 =
        (q.insertBatch hash schedule batch written).2 := by
  rw [SmirkBytes.insertBatch, SmirkStorage.Persistent.insertBatch, h.tree]
  split
  · exact ⟨h, rfl⟩
  · cases q.tree.insertBatch hash schedule batch with
    | error e => exact ⟨h, rfl⟩
    | ok inserted =>
      obtain ⟨tree, log⟩ := inserted
      obtain ⟨writes, hwrites, hencodes⟩ := exists_encoded
        (Persistent.writeBatch batch.entries log) (writeBatch_encodes _ log hfits)
      simp only [hwrites]
      cases written with
      | false => exact ⟨⟨rfl, h.db⟩, rfl⟩
      | true => exact ⟨⟨rfl, h.db.write _ _ hencodes⟩, rfl⟩

theorem inDbHash_kept (r : KeyFormat × ValueFormat V) (bytes : Bytes × Bytes)
    (h : (layout f).Kept r bytes) (known : KnownHash) : inDbHash f bytes = some known ↔
      r = (.v2 (.knownHash known.left known.right), .v2 (.knownHash known.result)) := by
  obtain ⟨hkey, hvalue⟩ := h
  have hreadKey : keyFormat.fromBytes bytes.1 = some r.1 := by
    rw [hkey]
    exact keyFormat.fromBytes_write r.1 _ (keyFormat_write r.1)
  have hreadValue : (valueFormat f).fromBytes bytes.2 = some r.2 :=
    (valueFormat f).fromBytes_write r.2 bytes.2 hvalue
  obtain ⟨key, value⟩ := r
  obtain ⟨left, right, result⟩ := known
  rw [inDbHash, hreadKey, hreadValue]
  constructor
  · intro hfound
    split at hfound
    · rename_i l r' res hk hv
      obtain rfl := Option.some.inj hk
      obtain rfl := Option.some.inj hv
      obtain ⟨rfl, rfl, rfl⟩ := KnownHash.mk.inj (Option.some.inj hfound)
      rfl
    · cases hfound
  · intro hrecord
    obtain ⟨rfl, rfl⟩ := Prod.mk.inj hrecord
    rfl

/-- The hashes found among the entries are those of the records. -/
theorem mem_inDbHashes {db : ByteStore} {s : Db V} (h : (layout f).Represents db s)
    (known : KnownHash) : known ∈ (iterator byteCoding db).filterMap (inDbHash f) ↔
      s.lookup (.v2 (.knownHash known.left known.right)) =
        some (.v2 (.knownHash known.result)) := by
  rw [List.mem_filterMap, ← mem_iterator (layout f).coding]
  constructor
  · intro hfound
    obtain ⟨bytes, hbytes, hknown⟩ := hfound
    obtain ⟨r, hr, hkept⟩ := Layout.forall₂_mem_right h.iterator bytes hbytes
    rwa [(inDbHash_kept r bytes hkept known).mp hknown] at hr
  · intro hrecord
    obtain ⟨bytes, hbytes, hkept⟩ := Layout.forall₂_mem_right h.iterator.flip _ hrecord
    exact ⟨bytes, hbytes, (inDbHash_kept _ bytes hkept known).mpr rfl⟩

theorem persistWrites_encode (hashes : List KnownHash) :
    ∃ writes, (hashes.map HashCaches.persistWrite).mapM (layout f).encode = some writes ∧
      List.Forall₂ (fun w w' => (layout f).encode w = some w')
        (hashes.map HashCaches.persistWrite) writes := by
  refine exists_encoded _ fun w hw => ?_
  obtain ⟨known, -, rfl⟩ := List.mem_map.mp hw
  obtain ⟨bytes, hbytes⟩ := ((valueFormat f).fits_iff _).mp (knownHash_fits f known.result)
  exact ⟨_, Option.map_eq_some_iff.mpr ⟨bytes, hbytes, rfl⟩⟩

theorem Agrees.persistHashes {p : ByteTree D V} {q : Persistent D V} (h : Agrees f p q)
    (written : Bool) :
    Option.Rel (Agrees f) (SmirkBytes.persistHashes f hash p written)
      (HashCaches.persistHashes hash q written) := by
  rw [SmirkBytes.persistHashes, HashCaches.persistHashes, h.tree]
  cases SmirkValues.Node.knownHashes hash q.tree.tree with
  | none => exact .none
  | some inMemoryHashes =>
    obtain ⟨writes, hwrites, hencodes⟩ := persistWrites_encode (f := f)
      (inMemoryHashes.filter fun known =>
        !((iterator byteCoding p.db).filterMap (inDbHash f)).contains known)
    refine .some ?_
    simp only [hwrites]
    cases written with
    | false => exact h
    | true =>
      have hdb := h.db.write _ _ hencodes
      rw [if_pos rfl, if_pos rfl]
      refine ⟨rfl, ?_⟩
      convert hdb using 3
      refine List.filter_congr fun known _ => ?_
      rw [Bool.eq_iff_iff, Bool.not_eq_true', ← Bool.not_eq_true, List.contains_iff_mem,
        mem_inDbHashes h.db]
      split
      · rename_i result hlookup
        rw [hlookup, bne_iff_ne]
        simp
      · rename_i hlookup
        refine iff_of_true rfl fun hfound => ?_
        exact hlookup _ hfound

end Simulation

section Runs

/-- An insertion, storing the hashes, or a restart that loads the tree again. -/
inductive StoreCall (D : ℕ) (V : Type)
  | insertBatch (schedule : Schedule) (batch : ValueBatch D V) (written : Bool)
  | persistHashes (written : Bool)
  | load

variable {V : Type} (f : Format V) (hash : List Fr → Fr) {D : ℕ}

/-- A call on the bytes. A load that fails leaves the tree, and so does a panic. -/
def callBytes (self : ByteTree D V) : StoreCall D V → ByteTree D V × Outcome LoadError Unit
  | .insertBatch schedule batch written =>
      let inserted := insertBatch f hash self schedule batch written
      (inserted.1, inserted.2.mapError (Failure.map LoadError.storage))
  | .persistHashes written =>
      match persistHashes f hash self written with
      | none => (self, .error .panic)
      | some stored => (stored, .ok ())
  | .load =>
      match loadTree f hash D self.db with
      | .error e => (self, .error e)
      | .ok tree => (⟨tree, self.db⟩, .ok ())

/-- The same call on the records. -/
def callRecords (self : Persistent D V) : StoreCall D V → Persistent D V × Outcome LoadError Unit
  | .insertBatch schedule batch written =>
      let inserted := self.insertBatch hash schedule batch written
      (inserted.1, inserted.2.mapError (Failure.map LoadError.storage))
  | .persistHashes written =>
      match HashCaches.persistHashes hash self written with
      | none => (self, .error .panic)
      | some stored => (stored, .ok ())
  | .load =>
      match SmirkStorage.loadTree hash D self.db with
      | .error e => (self, .error (e.map LoadError.storage))
      | .ok tree => (⟨tree, self.db⟩, .ok ())

/-- The calls one after the other, with their outcomes. -/
def runCalls {S C O : Type} (call : S → C → S × O) : S → List C → S × List O
  | s, [] => (s, [])
  | s, c :: rest =>
      let called := call s c
      let last := runCalls call called.1 rest
      (last.1, called.2 :: last.2)

/-- The values of an insertion have bytes. -/
def StoreCall.Fits : StoreCall D V → Prop
  | .insertBatch _ batch _ => ∀ e ∈ batch.entries, f.Fits e.2
  | _ => True

variable {f}

theorem Agrees.call {p : ByteTree D V} {q : Persistent D V} (h : Agrees f p q)
    (c : StoreCall D V) (hfits : c.Fits f) :
    Agrees f (callBytes f hash p c).1 (callRecords hash q c).1 ∧
      (callBytes f hash p c).2 = (callRecords hash q c).2 := by
  cases c with
  | insertBatch schedule batch written =>
    obtain ⟨hagrees, houtcome⟩ := Agrees.insertBatch hash h schedule batch written hfits
    exact ⟨hagrees, congrArg (Except.mapError (Failure.map LoadError.storage)) houtcome⟩
  | persistHashes written =>
    have hstored := Agrees.persistHashes hash h written
    unfold callBytes callRecords
    dsimp only
    generalize SmirkBytes.persistHashes f hash p written = bytes at hstored ⊢
    generalize HashCaches.persistHashes hash q written = records at hstored ⊢
    cases hstored with
    | none => exact ⟨h, rfl⟩
    | some hagrees => exact ⟨hagrees, rfl⟩
  | load =>
    have hload := loadTree_eq hash (D := D) p.db q.db h.db
    unfold callBytes callRecords
    dsimp only
    rw [hload]
    cases SmirkStorage.loadTree hash D q.db with
    | error e => exact ⟨h, rfl⟩
    | ok tree => exact ⟨⟨rfl, h.db⟩, rfl⟩

theorem Agrees.run {p : ByteTree D V} {q : Persistent D V} (h : Agrees f p q)
    (calls : List (StoreCall D V)) (hfits : ∀ c ∈ calls, c.Fits f) :
    Agrees f (runCalls (callBytes f hash) p calls).1 (runCalls (callRecords hash) q calls).1 ∧
      (runCalls (callBytes f hash) p calls).2 = (runCalls (callRecords hash) q calls).2 := by
  induction calls generalizing p q with
  | nil => exact ⟨h, rfl⟩
  | cons c rest ih =>
    obtain ⟨hfirst, hrest⟩ := List.forall_mem_cons.mp hfits
    obtain ⟨hagrees, houtcome⟩ := Agrees.call hash h c hfirst
    obtain ⟨hlast, houtcomes⟩ := ih hagrees hrest
    exact ⟨hlast, by rw [runCalls, runCalls, houtcome, houtcomes]⟩

theorem mapError_reads {α : Type} (outcome : Outcome SmirkStorage.Error α) :
    outcome.mapError (Failure.map LoadError.storage) ≠ .error (.err .wireMessage) := by
  intro hunread
  cases outcome with
  | error failure => cases failure <;> cases hunread
  | ok a => cases hunread

/-- The outcomes on the records are never those of bytes that cannot be read. -/
theorem callRecords_reads (q : Persistent D V) (c : StoreCall D V) :
    (callRecords hash q c).2 ≠ .error (.err .wireMessage) := by
  cases c with
  | insertBatch schedule batch written => exact mapError_reads _
  | persistHashes written =>
    unfold callRecords
    dsimp only
    cases HashCaches.persistHashes hash q written with
    | none => simp
    | some stored => simp
  | load =>
    unfold callRecords
    dsimp only
    cases SmirkStorage.loadTree hash D q.db with
    | error failure => cases failure <;> simp [Failure.map]
    | ok tree => simp

theorem run_reads (q : Persistent D V) (calls : List (StoreCall D V)) :
    .error (.err .wireMessage) ∉ (runCalls (callRecords hash) q calls).2 := by
  induction calls generalizing q with
  | nil => exact List.not_mem_nil
  | cons c rest ih =>
    rw [runCalls, List.mem_cons, not_or]
    exact ⟨(callRecords_reads hash q c).symm, ih _⟩

end Runs

def metadataField : Variant SmirkMetadata ℕ where
  build := .mk
  take := fun metadata => some metadata.insertedIn
  take_iff := by
    intro a b
    cases a
    simp [eq_comm]

def smirkMetadata : Format SmirkMetadata := u64.via metadataField

/-- However batches are inserted, hashes stored and the tree loaded again, a notes tree over the
bytes of its database has the tree and the outcomes that it has over the records. Loading the
bytes is loading the records, and what was written can always be read. -/
theorem tree_bytes_follow (hash : List Fr → Fr) (D : ℕ) (calls : List (StoreCall D SmirkMetadata))
    (hcalls : ∀ schedule batch written, .insertBatch schedule batch written ∈ calls →
      ∀ e ∈ batch.entries, e.2.insertedIn < 2 ^ 64) :
    let bytes := runCalls (callBytes smirkMetadata hash) ⟨ValueTree.new D SmirkMetadata, ∅⟩ calls
    let records := runCalls (callRecords hash) ⟨ValueTree.new D SmirkMetadata, ∅⟩ calls
    bytes.1.tree = records.1.tree ∧ bytes.2 = records.2 ∧
      .error (.err .wireMessage) ∉ bytes.2 ∧
      loadTree smirkMetadata hash D bytes.1.db =
        (SmirkStorage.loadTree hash D records.1.db).mapError (Failure.map LoadError.storage) := by
  intro bytes records
  have hnew : Agrees smirkMetadata ⟨ValueTree.new D SmirkMetadata, ∅⟩
      ⟨ValueTree.new D SmirkMetadata, ∅⟩ := ⟨rfl, (layout smirkMetadata).empty_represents⟩
  have hfits : ∀ c ∈ calls, c.Fits smirkMetadata := by
    intro c hc
    cases c with
    | insertBatch schedule batch written =>
      intro e he
      refine (Format.via_fits u64 metadataField e.2.insertedIn).mpr ?_
      exact (number_fits 8 _).mpr (hcalls schedule batch written hc e he)
    | persistHashes written => exact trivial
    | load => exact trivial
  obtain ⟨hlast, houtcomes⟩ := Agrees.run hash hnew calls hfits
  refine ⟨hlast.tree, houtcomes, ?_, loadTree_eq hash _ _ hlast.db⟩
  rw [houtcomes]
  exact run_reads hash _ calls

/-- A batch with one element, inserted at a height. -/
def oneElement (element : Element) (height : ℕ) : ValueBatch 3 SmirkMetadata :=
  ⟨[(element, ⟨height⟩)], List.pairwise_singleton _ _, Or.inr (by decide)⟩

/-- Two insertions, the second with a failed write, and a load after each. -/
def twoInsertions : List (StoreCall 3 SmirkMetadata) :=
  [.insertBatch (fun _ => []) (oneElement 2 1) true, .persistHashes true, .load,
    .insertBatch (fun _ => []) (oneElement 3 2) false, .load]

theorem tree_bytes_follow_two :
    let bytes := runCalls (callBytes smirkMetadata fun _ => 0)
      ⟨ValueTree.new 3 SmirkMetadata, ∅⟩ twoInsertions
    let records := runCalls (callRecords fun _ => 0)
      ⟨ValueTree.new 3 SmirkMetadata, ∅⟩ twoInsertions
    bytes.1.tree = records.1.tree ∧ bytes.2 = records.2 := by
  intro bytes records
  obtain ⟨htree, houtcomes, -⟩ := tree_bytes_follow (fun _ => 0) 3 twoInsertions
    fun schedule batch written hmem e he => by
      simp only [twoInsertions, List.mem_cons, StoreCall.insertBatch.injEq, reduceCtorEq,
        List.not_mem_nil, or_false, false_or] at hmem
      rcases hmem with ⟨-, rfl, -⟩ | ⟨-, rfl, -⟩
      · rw [List.mem_singleton.mp he]
        norm_num
      · rw [List.mem_singleton.mp he]
        norm_num
  exact ⟨htree, houtcomes⟩

end PayyRollup.SmirkBytes
