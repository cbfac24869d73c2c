import PayyRollup.BlockStorePages
import PayyRollup.ByteStores
import PayyRollup.WireMessages

/-!
The block store as the database has it: serialized keys, blocks and transactions in their versioned
formats, and heights and the version of the store as big-endian numbers. A reader decodes whatever
it finds under its key; a listing decodes the keys as well. As long as only the store writes, these
bytes keep the typed records, and every call answers as on the records.
-/
namespace PayyRollup.StoredBytes

open VerifierContracts SmirkTree KeyValueStore BlockStoreDb ByteFormats ByteStores WireMessages
open NodeBlocks hiding Error

variable {B T : Type}

section Records

variable (blocks : WireMessage B) (txns : WireMessage T)

/-- The bytes of a value under its key. -/
def valueBytes : Key → Value B T → Option Bytes
  | .block _, .block b => blocks.format.write b
  | .maxHeight, .height h => some (beBytes 8 h)
  | .blockHashToHeight _, .height h => some (beBytes 8 h)
  | .pendingBlock, .block b => blocks.format.write b
  | .txnByHash _, .txn t => txns.format.write t
  | .storeVersion, .version v => if v < 2 ^ 32 then some (beBytes 4 v) else none
  | .nonEmptyBlock _, .block b => blocks.format.write b
  | _, _ => none

def layout : Layout Key (Value B T) where
  key := Key.serialize
  key_injective := Key.serialize_inj
  value := valueBytes blocks txns

end Records

section Reading

def decoded {A : Type} (m : WireMessage A) (bytes : Bytes) : Outcome Error A :=
  match m.fromBytes bytes with
  | .ok a => .ok a
  | .error _ => .error (.err .wireMessage)

def encoded {A : Type} (m : WireMessage A) (a : A) : Outcome Error Bytes :=
  match m.toBytes a with
  | .ok bytes => .ok bytes
  | .error _ => .error (.err .wireMessage)

/-- Bytes of another length panic. -/
def heightOf (bytes : Bytes) : Outcome Error Height :=
  if bytes.length = 8 then .ok (Fin.ofNat (2 ^ 64) (fromBeBytes bytes)) else .error .panic

def versionOf (bytes : Bytes) : Outcome Error ℕ :=
  if bytes.length = 4 then .ok (fromBeBytes bytes) else .error .panic

def read {A : Type} (decode : Bytes → Outcome Error A) (db : ByteStore) (key : Key) :
    Outcome Error (Option A) :=
  match db.lookup key.serialize with
  | some bytes => (decode bytes).map some
  | none => .ok none

def get (blocks : WireMessage B) (db : ByteStore) (blockNumber : Height) :
    Outcome Error (Option B) :=
  read (decoded blocks) db (.block blockNumber)

def getMaxHeight (db : ByteStore) : Outcome Error (Option Height) := read heightOf db .maxHeight

def getBlockHeightByHash (db : ByteStore) (blockHash : CryptoHash) :
    Outcome Error (Option Height) :=
  read heightOf db (.blockHashToHeight blockHash)

def getTxnByHash (txns : WireMessage T) (db : ByteStore) (txnHash : CryptoHash) :
    Outcome Error (Option T) :=
  read (decoded txns) db (.txnByHash txnHash)

def storeVersion (db : ByteStore) : Outcome Error ℕ :=
  (read versionOf db .storeVersion).map fun version => version.getD 0

end Reading

section Writing

variable (blocks : WireMessage B) (txns : WireMessage T) (api : BlockApi B T)

abbrev ByteWrite := Write Bytes Bytes

def setStoreVersion (db : ByteStore) (version : ℕ) : ByteStore :=
  write [.put Key.storeVersion.serialize (beBytes 4 version)] db

def create : ByteStore := setStoreVersion ∅ 1

def txnEntries (block : B) : Outcome Error (List ByteWrite) :=
  (api.txns block).mapM fun tx =>
    (encoded txns tx).map fun bytes => .put (Key.txnByHash (api.txnHash tx)).serialize bytes

def nonEmptyEntry (block : B) : Outcome Error (List ByteWrite) :=
  if (api.txns block).isEmpty then .ok []
  else
    (encoded blocks block).map fun bytes =>
      [.put (Key.nonEmptyBlock (api.blockHeight block)).serialize bytes]

def maxHeightEntry (maxHeight : Option Height) (block : B) : List ByteWrite :=
  if maxHeight.all fun maxHeight => decide (maxHeight < api.blockHeight block) then
    [.put Key.maxHeight.serialize (beBytes 8 (api.blockHeight block))]
  else []

/-- Write a block; nothing is written if a record has no bytes. -/
def set (db : ByteStore) (block : B) : Outcome Error ByteStore := do
  let bytes ← encoded blocks block
  let maxHeight ← getMaxHeight db
  let txnWrites ← txnEntries txns api block
  let nonEmptyWrites ← nonEmptyEntry blocks api block
  return write ([.put (Key.block (api.blockHeight block)).serialize bytes] ++
    maxHeightEntry api maxHeight block ++
    [.put (Key.blockHashToHeight (api.blockHash block)).serialize
      (beBytes 8 (api.blockHeight block))] ++ txnWrites ++ nonEmptyWrites) db

def sets (db : ByteStore) (calls : List B) : Outcome Error ByteStore :=
  calls.foldlM (set blocks txns api) db

end Writing

section Listing

variable (blocks : WireMessage B)

def decodeRecord (entry : Bytes × Bytes) : Outcome Error (Key × B) := do
  let key ← Key.deserialize entry.1
  let value ← decoded blocks entry.2
  return (key, value)

def entries (l : RecordList) (db : ByteStore) : List (Bytes × Bytes) :=
  (iterator byteCoding db).filter fun entry =>
    decide (l.lowerBound.map UInt8.toNat ≤ byteCoding.code entry.1) &&
      decide (byteCoding.code entry.1 < l.upperBound.map UInt8.toNat)

def intoIterator (l : RecordList) (db : ByteStore) : List (Outcome Error (Key × B)) :=
  (if l.startToEnd then entries l db else (entries l db).reverse).map (decodeRecord blocks)

def list (key : ListableKey) (db : ByteStore) (range : HeightRange) (order : BlockListOrder) :
    List (Outcome Error (Height × B)) :=
  (intoIterator blocks (key.list range order) db).map key.checkKey

def listPaginated (key : ListableKey) (db : ByteStore) (cursor : Option (CursorChoice Height))
    (order : BlockListOrder) (limit : ℕ) : Outcome Error (List (Outcome Error (Height × B))) := do
  let readOrder := if reverseResults cursor then order.reverse else order
  let results ←
    ((intoIterator blocks (key.list (cursorRange cursor order) readOrder) db).take limit).mapM id
  let page := if reverseResults cursor then results.reverse else results
  return page.map fun r => key.checkKey (.ok r)

end Listing

section Answers

variable {blocks : WireMessage B} {txns : WireMessage T} {db : ByteStore} {s : Db B T}

theorem decoded_of_write {A : Type} (m : WireMessage A) (a : A) (bytes : Bytes)
    (h : m.format.write a = some bytes) : decoded m bytes = .ok a := by
  have hread : m.fromBytes bytes = .ok a :=
    (WireMessage.fromBytes_ok bytes a).mpr
      ⟨bytes, (WireMessage.toBytes_ok a bytes).mpr h, List.prefix_refl bytes⟩
  rw [decoded, hread]

theorem encoded_of_write {A : Type} (m : WireMessage A) (a : A) (bytes : Bytes)
    (h : m.format.write a = some bytes) : encoded m a = .ok bytes := by
  rw [encoded, (WireMessage.toBytes_ok a bytes).mpr h]

theorem encoded_of_not_fits {A : Type} (m : WireMessage A) (a : A) (h : ¬m.format.Fits a) :
    encoded m a = .error (.err .wireMessage) := by
  obtain ⟨e, he⟩ := (WireMessage.toBytes_error a).mpr h
  rw [encoded, he]

theorem heightOf_beBytes (h : Height) : heightOf (beBytes 8 h) = .ok h := by
  have hread : fromBeBytes (beBytes 8 h) = h :=
    fromBeBytes_beBytes 8 h (h.isLt.trans_eq (by norm_num))
  rw [heightOf, if_pos (beBytes_length 8 h), hread]
  exact congrArg Except.ok (Fin.ofNat_val_eq_self h)

theorem read_eq {A : Type} (h : (layout blocks txns).Represents db s)
    (decode : Bytes → Outcome Error A) (view : Value B T → Outcome Error A) (k : Key)
    (hview : ∀ v bytes, valueBytes blocks txns k v = some bytes → decode bytes = view v) :
    read decode db k = BlockStoreDb.read view s k := by
  cases hs : s.lookup k with
  | none =>
    have hdb : db.lookup k.serialize = none := h.lookup_none k hs
    rw [read, BlockStoreDb.read, hs, hdb]
  | some v =>
    obtain ⟨bytes, hvalue, hdb⟩ := h.lookup_some k v hs
    change db.lookup k.serialize = some bytes at hdb
    rw [read, BlockStoreDb.read, hs, hdb]
    exact congrArg (Except.map some) (hview v bytes hvalue)

theorem get_eq (h : (layout blocks txns).Represents db s) (blockNumber : Height) :
    get blocks db blockNumber = BlockStoreDb.get s blockNumber := by
  refine read_eq h _ _ _ fun v bytes hv => ?_
  cases v with
  | block b => exact decoded_of_write blocks b bytes hv
  | height _ => cases hv
  | txn _ => cases hv
  | version _ => cases hv

theorem getMaxHeight_eq (h : (layout blocks txns).Represents db s) :
    getMaxHeight db = BlockStoreDb.getMaxHeight s := by
  refine read_eq h _ _ _ fun v bytes hv => ?_
  cases v with
  | height k =>
    obtain rfl := Option.some.inj hv
    exact heightOf_beBytes k
  | block _ => cases hv
  | txn _ => cases hv
  | version _ => cases hv

theorem getBlockHeightByHash_eq (h : (layout blocks txns).Represents db s)
    (blockHash : CryptoHash) :
    getBlockHeightByHash db blockHash = BlockStoreDb.getBlockHeightByHash s blockHash := by
  refine read_eq h _ _ _ fun v bytes hv => ?_
  cases v with
  | height k =>
    obtain rfl := Option.some.inj hv
    exact heightOf_beBytes k
  | block _ => cases hv
  | txn _ => cases hv
  | version _ => cases hv

theorem getTxnByHash_eq (h : (layout blocks txns).Represents db s) (txnHash : CryptoHash) :
    getTxnByHash txns db txnHash = BlockStoreDb.getTxnByHash s txnHash := by
  refine read_eq h _ _ _ fun v bytes hv => ?_
  cases v with
  | txn t => exact decoded_of_write txns t bytes hv
  | block _ => cases hv
  | height _ => cases hv
  | version _ => cases hv

theorem storeVersion_eq (h : (layout blocks txns).Represents db s) :
    storeVersion db = BlockStoreDb.storeVersion s := by
  refine congrArg (Except.map fun version : Option ℕ => version.getD 0)
    (read_eq h _ _ _ fun v bytes hv => ?_)
  cases v with
  | version n =>
    change (if n < 2 ^ 32 then some (beBytes 4 n) else none) = some bytes at hv
    split at hv
    · rename_i hlt
      obtain rfl := Option.some.inj hv
      rw [versionOf, if_pos (beBytes_length 4 n),
        fromBeBytes_beBytes 4 n (hlt.trans_eq (by norm_num))]
      rfl
    · cases hv
  | block _ => cases hv
  | height _ => cases hv
  | txn _ => cases hv

/-- The kinds of keys that are listed hold blocks. -/
def HoldsBlocks (blocks : WireMessage B) (txns : WireMessage T) (key : ListableKey) : Prop :=
  ∀ h v bytes, valueBytes blocks txns (key.toKey h) v = some bytes →
    ∃ b, v = .block b ∧ blocks.format.write b = some bytes

theorem keyBlock_holdsBlocks : HoldsBlocks blocks txns keyBlock := by
  intro h v bytes hv
  cases v with
  | block b => exact ⟨b, rfl, hv⟩
  | height _ => cases hv
  | txn _ => cases hv
  | version _ => cases hv

theorem keyNonEmptyBlock_holdsBlocks : HoldsBlocks blocks txns keyNonEmptyBlock := by
  intro h v bytes hv
  cases v with
  | block b => exact ⟨b, rfl, hv⟩
  | height _ => cases hv
  | txn _ => cases hv
  | version _ => cases hv

/-- The entries between the bounds of a list keep the records between them. -/
theorem entries_kept (h : (layout blocks txns).Represents db s) (l : RecordList) :
    List.Forall₂ (layout blocks txns).Kept (l.records s) (entries l db) := by
  refine List.rel_filter (fun record entry hkept => ?_) h.iterator
  have hcode : byteCoding.code entry.1 = keyCoding.code record.1 :=
    congrArg (List.map UInt8.toNat) hkept.1
  simp only [Bool.and_eq_true, decide_eq_true_eq, hcode]

theorem decodeRecord_eq (key : ListableKey) (hkey : HoldsBlocks blocks txns key) (h : Height)
    (v : Value B T) (entry : Bytes × Bytes)
    (hkept : (layout blocks txns).Kept (key.toKey h, v) entry) :
    decodeRecord blocks entry = RecordList.decodeRecord (key.toKey h, v) := by
  obtain ⟨hbytes, hvalue⟩ := hkept
  obtain ⟨b, rfl, hwrite⟩ := hkey h v entry.2 hvalue
  rw [decodeRecord, RecordList.decodeRecord, hbytes, decoded_of_write blocks b entry.2 hwrite]
  rfl

theorem map_eq_of_forall₂ {α β γ : Type} {R : α → β → Prop} (f : α → γ) (g : β → γ) (xs : List α)
    (ys : List β) (h : List.Forall₂ R xs ys) (heq : ∀ x ∈ xs, ∀ y, R x y → f x = g y) :
    xs.map f = ys.map g := by
  induction h with
  | nil => rfl
  | cons hfirst _ ih =>
    obtain ⟨hx, hrest⟩ := List.forall_mem_cons.mp heq
    rw [List.map_cons, List.map_cons, hx _ hfirst, ih hrest]

theorem intoIterator_eq (h : (layout blocks txns).Represents db s) (key : ListableKey)
    (hkey : HoldsBlocks blocks txns key) (range : HeightRange) (order : BlockListOrder) :
    intoIterator blocks (key.list range order) db = (key.list range order).intoIterator s := by
  have hrecords : ∀ record ∈ (key.list range order).records s, ∀ entry,
      (layout blocks txns).Kept record entry →
        RecordList.decodeRecord record = decodeRecord blocks entry := by
    intro record hrecord entry hkept
    have hbounds := (List.mem_filter.mp hrecord).2
    rw [Bool.and_eq_true, decide_eq_true_eq, decide_eq_true_eq] at hbounds
    obtain ⟨height, hheight, -⟩ := (key.in_bounds_iff range order record.1).mp hbounds
    obtain ⟨k, v⟩ := record
    obtain rfl : k = key.toKey height := hheight
    exact (decodeRecord_eq key hkey height v entry hkept).symm
  have hkept := entries_kept h (key.list range order)
  rw [intoIterator, RecordList.intoIterator]
  split
  · exact (map_eq_of_forall₂ _ _ _ _ hkept hrecords).symm
  · refine (map_eq_of_forall₂ _ _ _ _ (List.rel_reverse hkept) fun record hrecord => ?_).symm
    exact hrecords record (List.mem_reverse.mp hrecord)

theorem list_eq (h : (layout blocks txns).Represents db s) (key : ListableKey)
    (hkey : HoldsBlocks blocks txns key) (range : HeightRange) (order : BlockListOrder) :
    list blocks key db range order = key.listBlocks s range order := by
  rw [list, ListableKey.listBlocks, intoIterator_eq h key hkey]

theorem listPaginated_eq (h : (layout blocks txns).Represents db s) (key : ListableKey)
    (hkey : HoldsBlocks blocks txns key) (cursor : Option (CursorChoice Height))
    (order : BlockListOrder) (limit : ℕ) :
    listPaginated blocks key db cursor order limit = key.blocksPaginated s cursor order limit := by
  rw [listPaginated, ListableKey.blocksPaginated, ListableKey.listPaginated]
  simp only [intoIterator_eq h key hkey]
  cases (((key.list (cursorRange cursor order) (if reverseResults cursor then order.reverse
    else order)).intoIterator s).take limit).mapM id <;> rfl

end Answers

section Migrating

variable (blocks : WireMessage B) (txns : WireMessage T) (api : BlockApi B T)

def migrationBatch (block : B) : Outcome Error (List ByteWrite) := do
  let txnWrites ← txnEntries txns api block
  let nonEmptyWrites ← nonEmptyEntry blocks api block
  return txnWrites ++ nonEmptyWrites

/-- Write what the listed blocks lack, up to the first bad record. -/
def migrateBlocks (db : ByteStore) :
    List (Outcome Error (Height × B)) → ByteStore × Outcome Error Unit
  | [] => (db, .ok ())
  | .error e :: _ => (db, .error e)
  | .ok (_, block) :: rest =>
      match migrationBatch blocks txns api block with
      | .ok batch => migrateBlocks (write batch db) rest
      | .error e => (db, .error e)

def everyHeight : HeightRange := ⟨.unbounded, .unbounded⟩

def migrateToV1 (db : ByteStore) : ByteStore × Outcome Error Unit :=
  match migrateBlocks blocks txns api db (list blocks keyBlock db everyHeight .lowestToHighest) with
  | (scanned, .ok ()) => (setStoreVersion scanned 1, .ok ())
  | (scanned, .error e) => (scanned, .error e)

/-- The second turn of the loop reads the version that the first one has written. -/
def migrate (db : ByteStore) : ByteStore × Outcome Error Unit :=
  match storeVersion db with
  | .error e => (db, .error e)
  | .ok 0 => migrateToV1 blocks txns api db
  | .ok 1 => (db, .ok ())
  | .ok other => (db, .error (.err (.invalidVersion other)))

end Migrating

section Simulation

variable {blocks : WireMessage B} {txns : WireMessage T} {api : BlockApi B T} {db : ByteStore}
  {s : Db B T}

/-- The bytes of a batch. -/
def Encodes (blocks : WireMessage B) (txns : WireMessage T) (batch : List (Write Key (Value B T)))
    (writes : List ByteWrite) : Prop :=
  List.Forall₂ (fun w w' => (layout blocks txns).encode w = some w') batch writes

theorem Encodes.append {batch batch' : List (Write Key (Value B T))}
    {writes writes' : List ByteWrite} (h : Encodes blocks txns batch writes)
    (h' : Encodes blocks txns batch' writes') :
    Encodes blocks txns (batch ++ batch') (writes ++ writes') :=
  List.rel_append h h'

theorem txnEntries_encodes (blocks : WireMessage B) (api : BlockApi B T) (block : B)
    (hfits : ∀ t ∈ api.txns block, txns.format.Fits t) :
    ∃ writes, txnEntries txns api block = .ok writes ∧
      Encodes blocks txns (BlockStoreDb.txnEntries api block) writes := by
  unfold txnEntries BlockStoreDb.txnEntries
  generalize api.txns block = ts at hfits
  induction ts with
  | nil => exact ⟨[], rfl, .nil⟩
  | cons t rest ih =>
    obtain ⟨hfirst, hrest⟩ := List.forall_mem_cons.mp hfits
    obtain ⟨bytes, hbytes⟩ := (txns.format.fits_iff t).mp hfirst
    obtain ⟨writes, hwrites, hencodes⟩ := ih hrest
    refine ⟨.put (Key.txnByHash (api.txnHash t)).serialize bytes :: writes, ?_, .cons ?_ hencodes⟩
    · rw [List.mapM_cons, encoded_of_write txns t bytes hbytes, hwrites]
      rfl
    · exact Option.map_eq_some_iff.mpr ⟨bytes, hbytes, rfl⟩

theorem nonEmptyEntry_encodes (txns : WireMessage T) (api : BlockApi B T) (block : B)
    (hfits : blocks.format.Fits block) :
    ∃ writes, nonEmptyEntry blocks api block = .ok writes ∧
      Encodes blocks txns (BlockStoreDb.nonEmptyEntry api block) writes := by
  obtain ⟨bytes, hbytes⟩ := (blocks.format.fits_iff block).mp hfits
  unfold nonEmptyEntry BlockStoreDb.nonEmptyEntry
  split
  · exact ⟨[], rfl, .nil⟩
  · refine ⟨_, by rw [encoded_of_write blocks block bytes hbytes]; rfl, .cons ?_ .nil⟩
    exact Option.map_eq_some_iff.mpr ⟨bytes, hbytes, rfl⟩

theorem maxHeightEntry_encodes (api : BlockApi B T) (maxHeight : Option Height) (block : B) :
    Encodes blocks txns (BlockStoreDb.maxHeightEntry api maxHeight block)
      (maxHeightEntry api maxHeight block) := by
  unfold maxHeightEntry BlockStoreDb.maxHeightEntry
  split
  · exact .cons rfl .nil
  · exact .nil

theorem setStoreVersion_represents (h : (layout blocks txns).Represents db s) :
    (layout blocks txns).Represents (setStoreVersion db 1) (BlockStoreDb.setStoreVersion s 1) :=
  h.write _ _ (.cons rfl .nil)

theorem create_represents : (layout blocks txns).Represents create (BlockStoreDb.create B T) :=
  setStoreVersion_represents (layout blocks txns).empty_represents

variable (hfits : ∀ b, blocks.format.Fits b → ∀ t ∈ api.txns b, txns.format.Fits t)

include hfits in
theorem set_represents (h : (layout blocks txns).Represents db s) (b : B)
    (hb : blocks.format.Fits b) : ∃ db' s', set blocks txns api db b = .ok db' ∧
      BlockStoreDb.set api s b = .ok s' ∧ (layout blocks txns).Represents db' s' := by
  obtain ⟨maxHeight, hmax⟩ : ∃ maxHeight, BlockStoreDb.getMaxHeight s = .ok maxHeight := by
    cases hs : s.lookup .maxHeight with
    | none => exact ⟨none, by rw [BlockStoreDb.getMaxHeight, BlockStoreDb.read, hs]⟩
    | some v =>
      obtain ⟨bytes, hvalue, -⟩ := h.lookup_some _ v hs
      cases v with
      | height k => exact ⟨some k, by rw [BlockStoreDb.getMaxHeight, BlockStoreDb.read, hs]; rfl⟩
      | block _ => cases hvalue
      | txn _ => cases hvalue
      | version _ => cases hvalue
  obtain ⟨bytes, hbytes⟩ := (blocks.format.fits_iff b).mp hb
  obtain ⟨txnWrites, htxns, htxnsEncode⟩ :=
    txnEntries_encodes blocks api b (hfits b hb)
  obtain ⟨nonEmptyWrites, hnonEmpty, hnonEmptyEncode⟩ :=
    nonEmptyEntry_encodes txns api b hb
  have hblock : Encodes blocks txns [.put (.block (api.blockHeight b)) (.block b)]
      [.put (Key.block (api.blockHeight b)).serialize bytes] :=
    .cons (Option.map_eq_some_iff.mpr ⟨bytes, hbytes, rfl⟩) .nil
  have hhash : Encodes blocks txns
      [.put (.blockHashToHeight (api.blockHash b)) (.height (api.blockHeight b))]
      [.put (Key.blockHashToHeight (api.blockHash b)).serialize
        (beBytes 8 (api.blockHeight b))] := .cons rfl .nil
  have hbatch := (((hblock.append (maxHeightEntry_encodes api maxHeight b)).append
    hhash).append htxnsEncode).append hnonEmptyEncode
  refine ⟨_, write (setBatch api maxHeight b) s, ?_, ?_, h.write _ _ hbatch⟩
  · rw [set, encoded_of_write blocks b bytes hbytes, getMaxHeight_eq h, hmax, htxns, hnonEmpty]
    rfl
  · rw [BlockStoreDb.set, hmax]
    rfl

/-- A block that has no bytes is refused. -/
theorem set_refused (b : B) (hb : ¬blocks.format.Fits b) :
    set blocks txns api db b = .error (.err .wireMessage) := by
  rw [set, encoded_of_not_fits blocks b hb]
  rfl

theorem listAll_eq : listAll s = keyBlock.listBlocks s everyHeight .lowestToHighest := by
  have hsame : listRecords s (.block 0) (.block (Fin.last _)) =
      (keyBlock.list everyHeight .lowestToHighest).records s := rfl
  change (listRecords s _ _).map listed = (((keyBlock.list everyHeight .lowestToHighest).records
    s).map RecordList.decodeRecord).map keyBlock.checkKey
  rw [hsame, List.map_map]
  refine List.map_congr_left fun record hrecord => ?_
  obtain ⟨k, v⟩ := record
  obtain ⟨-, height, rfl, -⟩ := (keyBlock.mem_records s _ _ k v).mp hrecord
  exact (keyBlock.checkKey_decodeRecord height v).symm

/-- The listed blocks have bytes. -/
theorem listed_fits (h : (layout blocks txns).Represents db s) (height : Height) (b : B)
    (hb : .ok (height, b) ∈ listAll s) : blocks.format.Fits b := by
  rw [listAll, List.mem_map] at hb
  obtain ⟨⟨k, v⟩, hrecord, hlisted⟩ := hb
  have hlookup := (mem_iterator keyCoding s k v).mp (List.mem_filter.mp hrecord).1
  obtain ⟨bytes, hvalue, -⟩ := h.lookup_some k v hlookup
  cases k with
  | block k =>
    obtain ⟨b', rfl, hwrite⟩ := keyBlock_holdsBlocks k v bytes hvalue
    obtain ⟨-, rfl⟩ := Prod.mk.inj (Except.ok.inj hlisted)
    exact (blocks.format.fits_iff b').mpr ⟨bytes, hwrite⟩
  | maxHeight => cases hlisted
  | blockHashToHeight _ => cases hlisted
  | pendingBlock => cases hlisted
  | txnByHash _ => cases hlisted
  | storeVersion => cases hlisted
  | nonEmptyBlock _ => cases hlisted

include hfits in
theorem migrateBlocks_represents (h : (layout blocks txns).Represents db s)
    (records : List (Outcome Error (Height × B)))
    (hrecords : ∀ height b, .ok (height, b) ∈ records → blocks.format.Fits b) :
    (layout blocks txns).Represents (migrateBlocks blocks txns api db records).1
        (applyAll (migrationWrites api records).1 s) ∧
      (migrateBlocks blocks txns api db records).2 = (migrationWrites api records).2 := by
  induction records generalizing db s with
  | nil => exact ⟨h, rfl⟩
  | cons record rest ih =>
    obtain ⟨hfirst, hrest⟩ : (∀ height b, record = .ok (height, b) → blocks.format.Fits b) ∧
        ∀ height b, .ok (height, b) ∈ rest → blocks.format.Fits b :=
      ⟨fun height b hrecord => hrecords height b (hrecord ▸ List.mem_cons_self),
        fun height b hmem => hrecords height b (List.mem_cons_of_mem _ hmem)⟩
    cases record with
    | error e => exact ⟨h, rfl⟩
    | ok block =>
      obtain ⟨height, b⟩ := block
      have hb := hfirst height b rfl
      obtain ⟨txnWrites, htxns, htxnsEncode⟩ :=
        txnEntries_encodes blocks api b (hfits b hb)
      obtain ⟨nonEmptyWrites, hnonEmpty, hnonEmptyEncode⟩ :=
        nonEmptyEntry_encodes txns api b hb
      have hbatch : migrationBatch blocks txns api b = .ok (txnWrites ++ nonEmptyWrites) := by
        rw [migrationBatch, htxns, hnonEmpty]
        rfl
      have hwritten := h.write _ _ (htxnsEncode.append hnonEmptyEncode)
      rw [migrateBlocks, hbatch]
      exact ih hwritten hrest

include hfits in
theorem migrate_represents (h : (layout blocks txns).Represents db s) :
    (layout blocks txns).Represents (migrate blocks txns api db).1 (BlockStoreDb.migrate api s).1 ∧
      (migrate blocks txns api db).2 = (BlockStoreDb.migrate api s).2 := by
  obtain ⟨hscanned, houtcome⟩ := migrateBlocks_represents hfits h (listAll s) (listed_fits h)
  have hlist : list blocks keyBlock db everyHeight .lowestToHighest = listAll s := by
    rw [list_eq h keyBlock keyBlock_holdsBlocks, listAll_eq]
  have hv1 : (layout blocks txns).Represents (migrateToV1 blocks txns api db).1
      (BlockStoreDb.migrateToV1 api s).1 ∧
        (migrateToV1 blocks txns api db).2 = (BlockStoreDb.migrateToV1 api s).2 := by
    rw [migrateToV1, BlockStoreDb.migrateToV1, hlist]
    generalize migrateBlocks blocks txns api db (listAll s) = result at hscanned houtcome
    obtain ⟨scanned, outcome⟩ := result
    change outcome = _ at houtcome
    simp only [← houtcome]
    cases outcome with
    | ok done => exact ⟨setStoreVersion_represents hscanned, rfl⟩
    | error e => exact ⟨hscanned, rfl⟩
  rw [migrate, BlockStoreDb.migrate, storeVersion_eq h]
  cases BlockStoreDb.storeVersion s with
  | error e => exact ⟨h, rfl⟩
  | ok version =>
    rcases version with _ | _ | other
    · exact hv1
    · exact ⟨h, rfl⟩
    · exact ⟨h, rfl⟩

end Simulation

section Runs

/-- What changes a store. -/
inductive Call (B : Type)
  | set (block : B)
  | migrate

def callBytes (blocks : WireMessage B) (txns : WireMessage T) (api : BlockApi B T)
    (db : ByteStore) : Call B → ByteStore × Outcome Error Unit
  | .set block =>
      match set blocks txns api db block with
      | .ok written => (written, .ok ())
      | .error e => (db, .error e)
  | .migrate => migrate blocks txns api db

def callRecords (api : BlockApi B T) (s : Db B T) : Call B → Db B T × Outcome Error Unit
  | .set block =>
      match BlockStoreDb.set api s block with
      | .ok written => (written, .ok ())
      | .error e => (s, .error e)
  | .migrate => BlockStoreDb.migrate api s

/-- The calls one after another, with their outcomes. -/
def runCalls {S R : Type} (call : S → Call B → S × R) : S → List (Call B) → S × List R
  | s, [] => (s, [])
  | s, c :: rest =>
      let next := call s c
      let last := runCalls call next.1 rest
      (last.1, next.2 :: last.2)

/-- All readers of the bytes answer as those of the records. -/
structure Answers (blocks : WireMessage B) (txns : WireMessage T) (db : ByteStore) (s : Db B T) :
    Prop where
  get : ∀ h, get blocks db h = BlockStoreDb.get s h
  maxHeight : getMaxHeight db = BlockStoreDb.getMaxHeight s
  byHash : ∀ x, getBlockHeightByHash db x = BlockStoreDb.getBlockHeightByHash s x
  txn : ∀ x, getTxnByHash txns db x = BlockStoreDb.getTxnByHash s x
  version : storeVersion db = BlockStoreDb.storeVersion s
  list : ∀ range order, list blocks keyBlock db range order = BlockStoreDb.list s range order
  listNonEmpty : ∀ range order,
    StoredBytes.list blocks keyNonEmptyBlock db range order =
      BlockStoreDb.listNonEmpty s range order
  listPaginated : ∀ cursor order limit, listPaginated blocks keyBlock db cursor order limit =
    BlockStoreDb.listPaginated s cursor order limit
  listNonEmptyPaginated : ∀ cursor order limit,
    StoredBytes.listPaginated blocks keyNonEmptyBlock db cursor order limit =
      BlockStoreDb.listNonEmptyPaginated s cursor order limit

variable {blocks : WireMessage B} {txns : WireMessage T} {api : BlockApi B T} {db : ByteStore}
  {s : Db B T}

theorem answers_of_represents (h : (layout blocks txns).Represents db s) :
    Answers blocks txns db s where
  get := get_eq h
  maxHeight := getMaxHeight_eq h
  byHash := getBlockHeightByHash_eq h
  txn := getTxnByHash_eq h
  version := storeVersion_eq h
  list := list_eq h keyBlock keyBlock_holdsBlocks
  listNonEmpty := list_eq h keyNonEmptyBlock keyNonEmptyBlock_holdsBlocks
  listPaginated := listPaginated_eq h keyBlock keyBlock_holdsBlocks
  listNonEmptyPaginated := listPaginated_eq h keyNonEmptyBlock keyNonEmptyBlock_holdsBlocks

/-- A call of a block that has bytes does to the bytes what it does to the records. -/
theorem call_represents (hfits : ∀ b, blocks.format.Fits b → ∀ t ∈ api.txns b, txns.format.Fits t)
    (h : (layout blocks txns).Represents db s) (c : Call B)
    (hc : ∀ b, c = .set b → blocks.format.Fits b) :
    (layout blocks txns).Represents (callBytes blocks txns api db c).1 (callRecords api s c).1 ∧
      (callBytes blocks txns api db c).2 = (callRecords api s c).2 := by
  cases c with
  | set b =>
    obtain ⟨db', s', hbytes, hrecords, hnext⟩ := set_represents hfits h b (hc b rfl)
    rw [callBytes, callRecords, hbytes, hrecords]
    exact ⟨hnext, rfl⟩
  | migrate => exact migrate_represents hfits h

theorem run_represents (hfits : ∀ b, blocks.format.Fits b → ∀ t ∈ api.txns b, txns.format.Fits t)
    (h : (layout blocks txns).Represents db s) (calls : List (Call B))
    (hcalls : ∀ b, .set b ∈ calls → blocks.format.Fits b) :
    (layout blocks txns).Represents (runCalls (callBytes blocks txns api) db calls).1
        (runCalls (callRecords api) s calls).1 ∧
      (runCalls (callBytes blocks txns api) db calls).2 =
        (runCalls (callRecords api) s calls).2 := by
  induction calls generalizing db s with
  | nil => exact ⟨h, rfl⟩
  | cons c rest ih =>
    obtain ⟨hnext, houtcome⟩ := call_represents hfits h c fun b hc =>
      hcalls b (hc ▸ List.mem_cons_self)
    obtain ⟨hlast, houtcomes⟩ := ih hnext fun b hb => hcalls b (List.mem_cons_of_mem _ hb)
    refine ⟨hlast, ?_⟩
    rw [runCalls, runCalls, houtcome, houtcomes]

end Runs

/-- However a node fills and migrates a store that keeps records, the calls end as on the records
and all readers answer as on them afterwards; a block that has no bytes is refused. -/
theorem stored_bytes_answer (env : NodeEnv) (db : ByteStore) (s : Db BlockFormat TxnFormat)
    (h : (layout blockMessage txnMessage).Represents db s) (calls : List (Call BlockFormat))
    (hcalls : ∀ b, .set b ∈ calls →
      WireFormats.SizedBlock b.intoBlock ∧ ∀ time ∈ b.timestamp, time < 2 ^ 64) :
    let bytes := runCalls (callBytes blockMessage txnMessage (nodeApi env)) db calls
    let records := runCalls (callRecords (nodeApi env)) s calls
    bytes.2 = records.2 ∧ Answers blockMessage txnMessage bytes.1 records.1 ∧
      ∀ b, ¬blockFormat.Fits b →
        callBytes blockMessage txnMessage (nodeApi env) bytes.1 (.set b) =
          (bytes.1, .error (.err .wireMessage)) := by
  intro bytes records
  obtain ⟨hlast, houtcomes⟩ := run_represents (nodeApi_txns_fit env) h calls fun b hb =>
    (blockFormat_fits b).mpr (hcalls b hb)
  refine ⟨houtcomes, answers_of_represents hlast, fun b hb => ?_⟩
  rw [callBytes, set_refused b hb]

/-- A node that accepts every proof and knows no signer. -/
def plainEnv : NodeEnv := ⟨fun _ => 0, fun _ => 0, fun _ _ => some true, fun _ _ _ _ => none⟩

/-- An empty block at height 1. -/
def firstBlock : Block :=
  ⟨⟨⟨1, 0#256, 0, 0#256, []⟩, ⟨0#256, []⟩⟩, Vector.replicate 65 0⟩

theorem stored_bytes_answer_first :
    let calls : List (Call BlockFormat) := [.migrate, .set (.v1 firstBlock), .migrate]
    let bytes := runCalls (callBytes blockMessage txnMessage (nodeApi plainEnv)) create calls
    let records :=
      runCalls (callRecords (nodeApi plainEnv)) (BlockStoreDb.create BlockFormat TxnFormat) calls
    bytes.2 = records.2 ∧ get blockMessage bytes.1 1 = .ok (some (.v1 firstBlock)) := by
  intro calls bytes records
  obtain ⟨houtcomes, hanswers, -⟩ := stored_bytes_answer plainEnv create
    (BlockStoreDb.create BlockFormat TxnFormat) create_represents calls fun b hb => by
      simp only [calls, List.mem_cons, List.not_mem_nil, or_false, reduceCtorEq, false_or,
        Call.set.injEq] at hb
      subst hb
      exact ⟨⟨⟨by decide, by decide, by decide⟩, by decide, by simp [firstBlock,
        BlockFormat.intoBlock]⟩, by simp [BlockFormat.timestamp]⟩
  refine ⟨houtcomes, ?_⟩
  rw [hanswers.get]
  rfl

end PayyRollup.StoredBytes
