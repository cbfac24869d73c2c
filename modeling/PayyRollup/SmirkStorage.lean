import PayyRollup.NodeBlocks
import PayyRollup.SmirkChanges

/-!
The notes tree kept in a database. The records are the elements with their metadata and the
known hashes; a batch of new elements and the hashes it changes is one write. Loading
collects the records in the order of their keys, gives the known hashes to the cache and
inserts all elements at once. The records of the first format have only an element for a key.
-/
namespace PayyRollup.SmirkStorage

open ScalarField VerifierContracts SmirkNode SmirkTree KeyValueStore SmirkValues

inductive KeyV2
  | element (element : Element)
  | knownHash (left right : Element)
  deriving DecidableEq

inductive KeyFormat
  | v1 (element : Element)
  | v2 (key : KeyV2)
  deriving DecidableEq

inductive ValueV2 (V : Type)
  | metadata (value : V)
  | knownHash (result : Element)

inductive ValueFormat (V : Type)
  | v1 (value : V)
  | v2 (value : ValueV2 V)

inductive Error
  | rocksdb
  | collision (source : CollisionError)
  | databaseConsistency

abbrev Db (V : Type) := Store KeyFormat (ValueFormat V)

/-- An enumeration is its tag and its fields. -/
def KeyV2.toBytes : KeyV2 → Bytes
  | element e => 0 :: NodeBlocks.beBytes 32 e.toNat
  | knownHash left right =>
      1 :: (NodeBlocks.beBytes 32 left.toNat ++ NodeBlocks.beBytes 32 right.toNat)

def KeyFormat.toBytes : KeyFormat → Bytes
  | v1 e => 0 :: NodeBlocks.beBytes 32 e.toNat
  | v2 key => 1 :: key.toBytes

theorem beBytes_element_inj (a b : Element)
    (h : NodeBlocks.beBytes 32 a.toNat = NodeBlocks.beBytes 32 b.toNat) : a = b := by
  have hlt : ∀ e : Element, e.toNat < 256 ^ 32 := fun e => e.isLt
  exact BitVec.eq_of_toNat_eq (NodeBlocks.beBytes_inj 32 _ _ (hlt a) (hlt b) h)

theorem KeyV2.toBytes_inj (a b : KeyV2) (h : a.toBytes = b.toBytes) : a = b := by
  cases a with
  | element e =>
    cases b with
    | element e' =>
      obtain ⟨-, hbytes⟩ := List.cons.inj h
      rw [beBytes_element_inj e e' hbytes]
    | knownHash left right => exact absurd (List.cons.inj h).1 (by simp)
  | knownHash left right =>
    cases b with
    | element e => exact absurd (List.cons.inj h).1 (by simp)
    | knownHash left' right' =>
      obtain ⟨-, hbytes⟩ := List.cons.inj h
      obtain ⟨hleft, hright⟩ := List.append_inj hbytes (by simp)
      rw [beBytes_element_inj left left' hleft, beBytes_element_inj right right' hright]

theorem KeyFormat.toBytes_inj (a b : KeyFormat) (h : a.toBytes = b.toBytes) : a = b := by
  cases a with
  | v1 e =>
    cases b with
    | v1 e' =>
      obtain ⟨-, hbytes⟩ := List.cons.inj h
      rw [beBytes_element_inj e e' hbytes]
    | v2 key => exact absurd (List.cons.inj h).1 (by simp)
  | v2 key =>
    cases b with
    | v1 e => exact absurd (List.cons.inj h).1 (by simp)
    | v2 key' =>
      obtain ⟨-, hbytes⟩ := List.cons.inj h
      rw [KeyV2.toBytes_inj key key' hbytes]

/-- The keys are ordered by their bytes. -/
def keyCoding : Coding KeyFormat (List ℕ) where
  code := fun key => key.toBytes.map UInt8.toNat
  injective := by
    intro a b h
    have hbytes := List.map_injective_iff.mpr (fun _ _ => UInt8.toNat_inj.mp) h
    exact KeyFormat.toBytes_inj a b hbytes

inductive RocksbEntry (V : Type)
  | smirkKV (key : Element) (value : V)
  | knownHash (hash : KnownHash)

section Load

variable {V : Type}

/-- The meaning of a record. -/
def entry : KeyFormat × ValueFormat V → Except Error (RocksbEntry V)
  | (.v1 key, .v1 metadata) => .ok (.smirkKV key metadata)
  | (.v1 key, .v2 (.metadata metadata)) => .ok (.smirkKV key metadata)
  | (.v2 (.element key), .v1 metadata) => .ok (.smirkKV key metadata)
  | (.v2 (.element key), .v2 (.metadata metadata)) => .ok (.smirkKV key metadata)
  | (.v2 (.knownHash left right), .v2 (.knownHash result)) => .ok (.knownHash ⟨left, right, result⟩)
  | _ => .error .databaseConsistency

/-- Sort the records into known hashes and entries, up to the first bad one. -/
def collect : List (KeyFormat × ValueFormat V) →
    Except Error (List KnownHash × List (Element × V))
  | [] => .ok ([], [])
  | record :: rest =>
      match entry record with
      | .error e => .error e
      | .ok (.knownHash hash) => (collect rest).map fun r => (hash :: r.1, r.2)
      | .ok (.smirkKV key value) => (collect rest).map fun r => (r.1, (key, value) :: r.2)

variable (hash : List Fr → Fr)

def loadTree (D : ℕ) (db : Db V) : Outcome Error (ValueTree D V) :=
  match collect (iterator keyCoding db) with
  | .error e => .error (.err e)
  | .ok (knownHashes, smirkKv) =>
      match ValueBatch.fromEntries D smirkKv with
      | .error e => .error (e.map Error.collision)
      | .ok batch =>
          match (ValueTree.newWithCache D V knownHashes).insertBatch hash (fun _ => []) batch with
          | .error e => .error (e.map Error.collision)
          | .ok (smirk, _) => .ok smirk

end Load

structure Persistent (D : ℕ) (V : Type) where
  tree : ValueTree D V
  db : Db V

/-- The order in which changed hashes are written; nothing depends on it. -/
def pairCoding : Coding (Element × Element) (List ℕ) where
  code := fun pair => [pair.1.toNat, pair.2.toNat]
  injective := by
    rintro ⟨a, b⟩ ⟨a', b'⟩ h
    simp only [List.cons.injEq, and_true] at h
    rw [BitVec.eq_of_toNat_eq h.1, BitVec.eq_of_toNat_eq h.2]

namespace Persistent

variable {D : ℕ} {V : Type} (hash : List Fr → Fr)

def new (D : ℕ) (V : Type) : Persistent D V := ⟨ValueTree.new D V, ∅⟩

def load (D : ℕ) (db : Db V) : Outcome Error (Persistent D V) :=
  match loadTree hash D db with
  | .error e => .error e
  | .ok tree => .ok ⟨tree, db⟩

/-- A new element is written, and its record of the first format is deleted. -/
def elementWrites (e : Element × V) : List (Write KeyFormat (ValueFormat V)) :=
  [.put (.v2 (.element e.1)) (.v2 (.metadata e.2)), .delete (.v1 e.1)]

def removeWrite : (Element × Element) × Option Element → Option (Write KeyFormat (ValueFormat V))
  | ((left, right), none) => some (.delete (.v2 (.knownHash left right)))
  | (_, some _) => none

def insertWrite : (Element × Element) × Option Element → Option (Write KeyFormat (ValueFormat V))
  | ((left, right), some result) => some (.put (.v2 (.knownHash left right)) (.v2 (.knownHash result)))
  | (_, none) => none

def writeBatch (newKvPairs : List (Element × V)) (log : List HashChange) :
    List (Write KeyFormat (ValueFormat V)) :=
  let hashChanges := iterator pairCoding (hashChanges log)
  newKvPairs.flatMap elementWrites ++ hashChanges.filterMap removeWrite ++
    hashChanges.filterMap insertWrite

/-- Insert into the tree, then write the new records at once if the database allows it. -/
def insertBatch (self : Persistent D V) (schedule : Schedule) (batch : ValueBatch D V)
    (written : Bool) : Persistent D V × Outcome Error Unit :=
  if batch.entries.isEmpty then (self, .ok ())
  else
    match self.tree.insertBatch hash schedule batch with
    | .error e => (self, .error (e.map Error.collision))
    | .ok (tree, log) =>
        if written then (⟨tree, write (writeBatch batch.entries log) self.db⟩, .ok ())
        else (⟨tree, self.db⟩, .error (.err .rocksdb))

end Persistent

/-- A call of an insertion, with the answer of the database and the order of the reports. -/
structure Call (D : ℕ) (V : Type) where
  batch : ValueBatch D V
  written : Bool
  schedule : Schedule

def Persistent.run {D : ℕ} {V : Type} (hash : List Fr → Fr) (self : Persistent D V)
    (calls : List (Call D V)) : Persistent D V :=
  calls.foldl (fun p call => (p.insertBatch hash call.schedule call.batch call.written).1) self

section Writes

variable {V : Type} (newKvPairs : List (Element × V)) (log : List HashChange) (db : Db V)

/-- The writes of a batch, by what they write. -/
theorem mem_writeBatch (w : Write KeyFormat (ValueFormat V)) :
    w ∈ Persistent.writeBatch newKvPairs log ↔
      (∃ e v, (e, v) ∈ newKvPairs ∧ (w = .put (.v2 (.element e)) (.v2 (.metadata v)) ∨
        w = .delete (.v1 e))) ∨
      (∃ l r, (hashChanges log).lookup (l, r) = some none ∧ w = .delete (.v2 (.knownHash l r))) ∨
      ∃ l r result, (hashChanges log).lookup (l, r) = some (some result) ∧
        w = .put (.v2 (.knownHash l r)) (.v2 (.knownHash result)) := by
  rw [Persistent.writeBatch, List.mem_append, List.mem_append, List.mem_flatMap,
    List.mem_filterMap, List.mem_filterMap, or_assoc]
  refine or_congr ?_ (or_congr ?_ ?_)
  · simp [Persistent.elementWrites]
  · constructor
    · rintro ⟨⟨⟨l, r⟩, outcome⟩, hin, hw⟩
      rw [mem_iterator] at hin
      cases outcome with
      | none =>
        cases hw
        exact ⟨l, r, hin, rfl⟩
      | some result => cases hw
    · rintro ⟨l, r, hlookup, rfl⟩
      exact ⟨((l, r), none), (mem_iterator _ _ _ _).mpr hlookup, rfl⟩
  · constructor
    · rintro ⟨⟨⟨l, r⟩, outcome⟩, hin, hw⟩
      rw [mem_iterator] at hin
      cases outcome with
      | none => cases hw
      | some result =>
        cases hw
        exact ⟨l, r, result, hin, rfl⟩
    · rintro ⟨l, r, result, hlookup, rfl⟩
      exact ⟨((l, r), some result), (mem_iterator _ _ _ _).mpr hlookup, rfl⟩

theorem lookup_writeBatch_v1 (h : ∀ e, db.lookup (.v1 e) = none) (e : Element) :
    (write (Persistent.writeBatch newKvPairs log) db).lookup (.v1 e) = none := by
  rcases lookup_write_mem_cases (Persistent.writeBatch newKvPairs log) db (.v1 e) with
    ⟨-, hlookup⟩ | ⟨w, hw, hkey, hlookup⟩
  · exact hlookup.trans (h e)
  · rw [hlookup]
    rcases (mem_writeBatch newKvPairs log w).mp hw with
      ⟨e', v, -, rfl | rfl⟩ | ⟨l, r, -, rfl⟩ | ⟨l, r, result, -, rfl⟩
    · cases hkey
    · rfl
    · rfl
    · cases hkey

theorem lookup_writeBatch_element (hkeys : (newKvPairs.map Prod.fst).Nodup) (e : Element) :
    (write (Persistent.writeBatch newKvPairs log) db).lookup (.v2 (.element e)) =
      if e ∈ newKvPairs.map Prod.fst then
        ((putAll newKvPairs ∅).lookup e).map fun v => .v2 (.metadata v)
      else db.lookup (.v2 (.element e)) := by
  rcases lookup_write_mem_cases (Persistent.writeBatch newKvPairs log) db (.v2 (.element e)) with
    ⟨hnone, hlookup⟩ | ⟨w, hw, hkey, hlookup⟩
  · have hnot : e ∉ newKvPairs.map Prod.fst := by
      intro hin
      obtain ⟨⟨e', v⟩, he, rfl⟩ := List.mem_map.mp hin
      exact hnone _ ((mem_writeBatch newKvPairs log _).mpr (Or.inl ⟨e', v, he, Or.inl rfl⟩)) rfl
    rw [if_neg hnot, hlookup]
  · rcases (mem_writeBatch newKvPairs log w).mp hw with
      ⟨e', v, hin, rfl | rfl⟩ | ⟨l, r, -, rfl⟩ | ⟨l, r, result, -, rfl⟩
    · cases hkey
      have hput := lookup_putAll_of_mem newKvPairs ∅ e v hkeys hin
      rw [hlookup, if_pos (List.mem_map_of_mem hin), hput]
      rfl
    · cases hkey
    · cases hkey
    · cases hkey

theorem lookup_writeBatch_knownHash (l r : Element) :
    (write (Persistent.writeBatch newKvPairs log) db).lookup (.v2 (.knownHash l r)) =
      match (hashChanges log).lookup (l, r) with
      | none => db.lookup (.v2 (.knownHash l r))
      | some outcome => outcome.map fun result => .v2 (.knownHash result) := by
  rcases lookup_write_mem_cases (Persistent.writeBatch newKvPairs log) db (.v2 (.knownHash l r)) with
    ⟨hnone, hlookup⟩ | ⟨w, hw, hkey, hlookup⟩
  · have hnot : (hashChanges log).lookup (l, r) = none := by
      cases hchange : (hashChanges log).lookup (l, r) with
      | none => rfl
      | some outcome =>
        cases outcome with
        | none =>
          have hin := (mem_writeBatch newKvPairs log _).mpr (Or.inr (Or.inl ⟨l, r, hchange, rfl⟩))
          exact absurd rfl (hnone _ hin)
        | some result =>
          have hin := (mem_writeBatch newKvPairs log _).mpr
            (Or.inr (Or.inr ⟨l, r, result, hchange, rfl⟩))
          exact absurd rfl (hnone _ hin)
    rw [hlookup, hnot]
  · rcases (mem_writeBatch newKvPairs log w).mp hw with
      ⟨e', v, -, rfl | rfl⟩ | ⟨l', r', hchange, rfl⟩ | ⟨l', r', result, hchange, rfl⟩
    · cases hkey
    · cases hkey
    · cases hkey
      rw [hlookup, hchange]
      rfl
    · cases hkey
      rw [hlookup, hchange]
      rfl

end Writes
end PayyRollup.SmirkStorage
