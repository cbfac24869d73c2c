import PayyRollup.NodeBlocks
import PayyRollup.KeyValueStore

/-!
The block store with all its records: the blocks by height, the greatest height, the heights
by block hash, the transactions by hash and the blocks that have transactions. One call writes
all records of a block at once. The blocks are listed over the serialized keys, whose order is
that of the heights. A store of the first version lacks the last two kinds of records; the
migration writes them block by block and then marks the version.
-/
namespace PayyRollup.BlockStoreDb

open VerifierContracts NodeBlocks SmirkTree KeyValueStore

abbrev Height := Fin (2 ^ 64)

instance heights_neZero : NeZero (2 ^ 64) := ⟨by decide⟩

/-- What the store asks of a block and of its transactions. -/
structure BlockApi (B T : Type) where
  blockHeight : B → Height
  blockHash : B → CryptoHash
  txns : B → List T
  txnHash : T → CryptoHash

inductive Key
  | block (blockNumber : Height)
  | maxHeight
  | blockHashToHeight (blockHash : CryptoHash)
  | pendingBlock
  | txnByHash (txnHash : CryptoHash)
  | storeVersion
  | nonEmptyBlock (blockNumber : Height)
  deriving DecidableEq

inductive Value (B T : Type)
  | block (block : B)
  | height (height : Height)
  | txn (txn : T)
  | version (version : ℕ)

inductive Error
  | invalidKey
  | invalidVersion (version : ℕ)
  | wireMessage

abbrev Db (B T : Type) := Store Key (Value B T)

namespace Key

def kind : Key → UInt8
  | block _ => 0
  | maxHeight => 1
  | blockHashToHeight _ => 2
  | pendingBlock => 3
  | txnByHash _ => 4
  | storeVersion => 5
  | nonEmptyBlock _ => 6

/-- The fields of a key after its kind. -/
def fields : Key → Bytes
  | block blockNumber => beBytes 8 blockNumber
  | blockHashToHeight blockHash => beBytes 32 blockHash.toNat
  | txnByHash txnHash => beBytes 32 txnHash.toNat
  | nonEmptyBlock blockNumber => beBytes 8 blockNumber
  | _ => []

def serialize (key : Key) : Bytes := key.kind :: key.fields

def serializeImmediateSuccessor (key : Key) : Bytes := key.serialize ++ [0]

theorem height_inj (a b : Height) (h : beBytes 8 a = beBytes 8 b) : a = b := by
  have hlt : ∀ c : Height, (c : ℕ) < 256 ^ 8 := fun c => c.isLt.trans_eq (by norm_num)
  exact Fin.ext (beBytes_inj 8 _ _ (hlt a) (hlt b) h)

theorem hash_inj (a b : CryptoHash) (h : beBytes 32 a.toNat = beBytes 32 b.toNat) : a = b := by
  have hlt : ∀ c : CryptoHash, c.toNat < 256 ^ 32 := fun c => c.isLt.trans_eq (by norm_num)
  exact BitVec.eq_of_toNat_eq (beBytes_inj 32 _ _ (hlt a) (hlt b) h)

/-- No two keys are stored under the same bytes. -/
theorem serialize_inj (a b : Key) (h : a.serialize = b.serialize) : a = b := by
  obtain ⟨hkind, hfields⟩ := List.cons.inj h
  cases a <;> cases b <;> simp [kind] at hkind
  case block.block => exact congrArg block (height_inj _ _ hfields)
  case maxHeight.maxHeight => rfl
  case blockHashToHeight.blockHashToHeight => exact congrArg blockHashToHeight (hash_inj _ _ hfields)
  case pendingBlock.pendingBlock => rfl
  case txnByHash.txnByHash => exact congrArg txnByHash (hash_inj _ _ hfields)
  case storeVersion.storeVersion => rfl
  case nonEmptyBlock.nonEmptyBlock => exact congrArg nonEmptyBlock (height_inj _ _ hfields)

end Key

/-- The keys are ordered by their bytes. -/
def keyCoding : Coding Key (List ℕ) where
  code := fun key => key.serialize.map UInt8.toNat
  injective := fun a b h =>
    Key.serialize_inj a b (List.map_injective_iff.mpr (fun _ _ => UInt8.toNat_inj.mp) h)

section Reading

variable {B T : Type}

def Value.asBlock : Value B T → Outcome Error B
  | block b => .ok b
  | _ => .error (.err .wireMessage)

def Value.asTxn : Value B T → Outcome Error T
  | txn t => .ok t
  | _ => .error (.err .wireMessage)

/-- Bytes of another length panic. -/
def Value.asHeight : Value B T → Outcome Error Height
  | height h => .ok h
  | _ => .error .panic

def Value.asVersion : Value B T → Outcome Error ℕ
  | version v => .ok v
  | _ => .error .panic

def read {α : Type} (decode : Value B T → Outcome Error α) (db : Db B T) (key : Key) :
    Outcome Error (Option α) :=
  match db.lookup key with
  | some value => (decode value).map some
  | none => .ok none

def get (db : Db B T) (blockNumber : Height) : Outcome Error (Option B) :=
  read Value.asBlock db (.block blockNumber)

def getMaxHeight (db : Db B T) : Outcome Error (Option Height) :=
  read Value.asHeight db .maxHeight

def getBlockHeightByHash (db : Db B T) (blockHash : CryptoHash) : Outcome Error (Option Height) :=
  read Value.asHeight db (.blockHashToHeight blockHash)

def getTxnByHash (db : Db B T) (txnHash : CryptoHash) : Outcome Error (Option T) :=
  read Value.asTxn db (.txnByHash txnHash)

def storeVersion (db : Db B T) : Outcome Error ℕ :=
  (read Value.asVersion db .storeVersion).map fun version => version.getD 0

end Reading

section Writing

variable {B T : Type} (api : BlockApi B T)

def setStoreVersion (db : Db B T) (version : ℕ) : Db B T :=
  write [.put .storeVersion (.version version)] db

def create (B T : Type) : Db B T := setStoreVersion ∅ 1

def txnEntries (block : B) : List (Write Key (Value B T)) :=
  (api.txns block).map fun tx => .put (.txnByHash (api.txnHash tx)) (.txn tx)

def nonEmptyEntry (block : B) : List (Write Key (Value B T)) :=
  if (api.txns block).isEmpty then []
  else [.put (.nonEmptyBlock (api.blockHeight block)) (.block block)]

def maxHeightEntry (maxHeight : Option Height) (block : B) : List (Write Key (Value B T)) :=
  if maxHeight.all fun maxHeight => decide (maxHeight < api.blockHeight block) then
    [.put .maxHeight (.height (api.blockHeight block))]
  else []

/-- The records of a block. -/
def setBatch (maxHeight : Option Height) (block : B) : List (Write Key (Value B T)) :=
  [.put (.block (api.blockHeight block)) (.block block)] ++ maxHeightEntry api maxHeight block ++
    [.put (.blockHashToHeight (api.blockHash block)) (.height (api.blockHeight block))] ++
    txnEntries api block ++ nonEmptyEntry api block

/-- Write a block; a batch that the database refuses is no call. -/
def set (db : Db B T) (block : B) : Outcome Error (Db B T) := do
  let maxHeight ← getMaxHeight db
  return write (setBatch api maxHeight block) db

def sets (db : Db B T) (blocks : List B) : Outcome Error (Db B T) := blocks.foldlM (set api) db

end Writing

section Migration

variable {B T : Type} (api : BlockApi B T)

/-- The records with keys from one up to another, in the order of their keys. -/
def listRecords (db : Db B T) (startKey endKey : Key) : List (Key × Value B T) :=
  (iterator keyCoding db).filter fun record =>
    decide (startKey.serialize.map UInt8.toNat ≤ keyCoding.code record.1) &&
      decide (keyCoding.code record.1 < endKey.serializeImmediateSuccessor.map UInt8.toNat)

def listed : Key × Value B T → Outcome Error (Height × B)
  | (.block blockNumber, value) => value.asBlock.map fun block => (blockNumber, block)
  | _ => .error (.err .invalidKey)

/-- All blocks, from the lowest to the highest. -/
def listAll (db : Db B T) : List (Outcome Error (Height × B)) :=
  (listRecords db (.block 0) (.block (Fin.last _))).map listed

def migrationBatch (block : B) : List (Write Key (Value B T)) :=
  txnEntries api block ++ nonEmptyEntry api block

/-- The writes of the blocks up to the first bad record, and its error. -/
def migrationWrites :
    List (Outcome Error (Height × B)) → List (List (Write Key (Value B T))) × Outcome Error Unit
  | [] => ([], .ok ())
  | .ok (_, block) :: rest =>
      let others := migrationWrites rest
      (migrationBatch api block :: others.1, others.2)
  | .error e :: _ => ([], .error e)

def applyAll (batches : List (List (Write Key (Value B T)))) (db : Db B T) : Db B T :=
  batches.foldl (fun db batch => write batch db) db

def migrateToV1 (db : Db B T) : Db B T × Outcome Error Unit :=
  let writes := migrationWrites api (listAll db)
  let scanned := applyAll writes.1 db
  match writes.2 with
  | .ok () => (setStoreVersion scanned 1, .ok ())
  | .error e => (scanned, .error e)

/-- The second turn of the loop reads the version that the first one has written. -/
def migrate (db : Db B T) : Db B T × Outcome Error Unit :=
  match storeVersion db with
  | .error e => (db, .error e)
  | .ok 0 => migrateToV1 api db
  | .ok 1 => (db, .ok ())
  | .ok other => (db, .error (.err (.invalidVersion other)))

/-- A migration that stops after some of the writes that precede the mark of the version. -/
def interrupted (db : Db B T) (writes : ℕ) : Db B T :=
  match storeVersion db with
  | .ok 0 => applyAll ((migrationWrites api (listAll db)).1.take writes) db
  | _ => db

end Migration
end PayyRollup.BlockStoreDb
