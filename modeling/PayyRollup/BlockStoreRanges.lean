import Mathlib.Data.Set.List
import PayyRollup.BlockStoreMigration

/-!
Listing a range of blocks. A range of heights becomes a lower and an upper bound on the
serialized keys, and the database iterates between them from either end. The bounds of both
kinds of listable keys let through exactly the keys of that kind with a height in the range:
the kind comes first, the height is stored in big-endian order, and an excluded start or an
included end becomes the immediate successor of its key. A page of blocks before a cursor is
read backwards from the cursor and then reversed.
-/
namespace PayyRollup.BlockStoreDb

open VerifierContracts NodeBlocks SmirkTree KeyValueStore

/-- The key of some bytes; a slice of too few bytes panics. -/
def Key.deserialize : Bytes → Outcome Error Key
  | [] => .error (.err .invalidKey)
  | kind :: bytes =>
      let height (toKey : Height → Key) : Outcome Error Key :=
        if bytes.length < 8 then .error .panic
        else .ok (toKey (Fin.ofNat _ (fromBeBytes (bytes.take 8))))
      let hash (toKey : CryptoHash → Key) : Outcome Error Key :=
        if bytes.length < 32 then .error .panic
        else .ok (toKey (BitVec.ofNat _ (fromBeBytes (bytes.take 32))))
      if kind = 0 then height .block
      else if kind = 1 then .ok .maxHeight
      else if kind = 2 then hash .blockHashToHeight
      else if kind = 3 then .ok .pendingBlock
      else if kind = 4 then hash .txnByHash
      else if kind = 5 then .ok .storeVersion
      else if kind = 6 then height .nonEmptyBlock
      else .error (.err .invalidKey)

inductive Bound (A : Type)
  | included (a : A)
  | excluded (a : A)
  | unbounded

structure HeightRange where
  startBound : Bound Height
  endBound : Bound Height

inductive BlockListOrder
  | lowestToHighest
  | highestToLowest

namespace BlockListOrder

def isIndexedOrder : BlockListOrder → Bool
  | lowestToHighest => true
  | highestToLowest => false

def reverse : BlockListOrder → BlockListOrder
  | lowestToHighest => highestToLowest
  | highestToLowest => lowestToHighest

/-- The order in which heights are asked for. -/
def Precedes : BlockListOrder → Height → Height → Prop
  | lowestToHighest, a, b => a < b
  | highestToLowest, a, b => b < a

end BlockListOrder

/-- The heights of a range. -/
def HeightRange.Contains (range : HeightRange) (h : Height) : Prop :=
  (match range.startBound with
    | .included x => x ≤ h
    | .excluded x => x < h
    | .unbounded => True) ∧
  match range.endBound with
    | .included x => h ≤ x
    | .excluded x => h < x
    | .unbounded => True

/-- A kind of keys that are listed by height. -/
structure ListableKey where
  toKey : Height → Key
  fromKey : Key → Option Height
  kind : UInt8
  serialize_eq : ∀ h, (toKey h).serialize = kind :: beBytes 8 h
  fromKey_toKey : ∀ h, fromKey (toKey h) = some h
  of_kind : ∀ k : Key, k.kind = kind → ∃ h, k = toKey h

def keyBlock : ListableKey where
  toKey := .block
  fromKey
    | .block blockNumber => some blockNumber
    | _ => none
  kind := 0
  serialize_eq := fun _ => rfl
  fromKey_toKey := fun _ => rfl
  of_kind := by
    intro k hk
    cases k <;> first
      | exact ⟨_, rfl⟩
      | exact absurd hk (by simp [Key.kind])

def keyNonEmptyBlock : ListableKey where
  toKey := .nonEmptyBlock
  fromKey
    | .nonEmptyBlock blockNumber => some blockNumber
    | _ => none
  kind := 6
  serialize_eq := fun _ => rfl
  fromKey_toKey := fun _ => rfl
  of_kind := by
    intro k hk
    cases k <;> first
      | exact ⟨_, rfl⟩
      | exact absurd hk (by simp [Key.kind])

/-- The source's `List`: bounds on the keys and a direction. -/
structure RecordList where
  startKey : Key
  endKey : Key
  lowerExclusive : Bool
  upperInclusive : Bool
  startToEnd : Bool

namespace RecordList

def lowerBound (l : RecordList) : Bytes :=
  if l.lowerExclusive then l.startKey.serializeImmediateSuccessor else l.startKey.serialize

def upperBound (l : RecordList) : Bytes :=
  if l.upperInclusive then l.endKey.serializeImmediateSuccessor else l.endKey.serialize

variable {B T : Type}

def decodeRecord (record : Key × Value B T) : Outcome Error (Key × B) := do
  let key ← Key.deserialize record.1.serialize
  let value ← record.2.asBlock
  return (key, value)

def records (l : RecordList) (db : Db B T) : List (Key × Value B T) :=
  (iterator keyCoding db).filter fun record =>
    decide (l.lowerBound.map UInt8.toNat ≤ keyCoding.code record.1) &&
      decide (keyCoding.code record.1 < l.upperBound.map UInt8.toNat)

def intoIterator (l : RecordList) (db : Db B T) : List (Outcome Error (Key × B)) :=
  (if l.startToEnd then l.records db else (l.records db).reverse).map decodeRecord

end RecordList

namespace ListableKey

variable (key : ListableKey)

def minValue : Height := 0

def maxValue : Height := Fin.last _

def list (range : HeightRange) (order : BlockListOrder) : RecordList where
  startKey :=
    match range.startBound with
    | .included x => key.toKey x
    | .excluded x => key.toKey x
    | .unbounded => key.toKey minValue
  endKey :=
    match range.endBound with
    | .included x => key.toKey x
    | .excluded x => key.toKey x
    | .unbounded => key.toKey maxValue
  lowerExclusive :=
    match range.startBound with
    | .included _ => false
    | .excluded _ => true
    | .unbounded => false
  upperInclusive :=
    match range.endBound with
    | .included _ => true
    | .excluded _ => false
    | .unbounded => true
  startToEnd := order.isIndexedOrder

variable {B T : Type}

/-- The step that the listings of both kinds add: another kind of key is an error. -/
def checkKey (record : Outcome Error (Key × B)) : Outcome Error (Height × B) := do
  let (k, v) ← record
  match key.fromKey k with
  | some blockNumber => return (blockNumber, v)
  | none => .error (.err .invalidKey)

def listBlocks (db : Db B T) (range : HeightRange) (order : BlockListOrder) :
    List (Outcome Error (Height × B)) :=
  ((key.list range order).intoIterator db).map key.checkKey

end ListableKey

section Listings

variable {B T : Type}

def list (db : Db B T) (range : HeightRange) (order : BlockListOrder) :
    List (Outcome Error (Height × B)) :=
  keyBlock.listBlocks db range order

def listNonEmpty (db : Db B T) (range : HeightRange) (order : BlockListOrder) :
    List (Outcome Error (Height × B)) :=
  keyNonEmptyBlock.listBlocks db range order

end Listings

/-- Keys are read back from their bytes. -/
theorem Key.deserialize_serialize (k : Key) : Key.deserialize k.serialize = .ok k := by
  have hheight : ∀ h : Height, fromBeBytes ((beBytes 8 h).take 8) = h := by
    intro h
    rw [List.take_of_length_le (by simp)]
    exact fromBeBytes_beBytes 8 h (h.isLt.trans_eq (by norm_num))
  have hhash : ∀ x : CryptoHash, fromBeBytes ((beBytes 32 x.toNat).take 32) = x.toNat := by
    intro x
    rw [List.take_of_length_le (by simp)]
    exact fromBeBytes_beBytes 32 _ (x.isLt.trans_eq (by norm_num))
  cases k <;> simp [Key.serialize, Key.kind, Key.fields, Key.deserialize, hheight, hhash]

section Bounds

/-- Among lists of one length, a successor is just above its list. -/
theorem lt_append_zero_iff (xs ys : List ℕ) (hlen : xs.length = ys.length) :
    ys < xs ++ [0] ↔ ys ≤ xs := by
  have hself : xs < xs ++ [0] := by
    have happend : xs ++ [] < xs ++ [0] := List.append_left_lt (List.nil_lt_cons _ _)
    rwa [List.append_nil] at happend
  constructor
  · intro h
    by_contra hle
    have hlt : xs ++ [0] < ys ++ [] := append_lt_append xs ys [0] [] hlen (not_le.mp hle)
    rw [List.append_nil] at hlt
    exact absurd (h.trans hlt) (lt_irrefl _)
  · intro h
    exact h.trans_lt hself

variable (key : ListableKey)

theorem ListableKey.code_eq (h : Height) :
    keyCoding.code (key.toKey h) = key.kind.toNat :: (beBytes 8 h).map UInt8.toNat := by
  change (key.toKey h).serialize.map UInt8.toNat = _
  rw [key.serialize_eq]
  rfl

theorem ListableKey.code_length (a b : Height) :
    (keyCoding.code (key.toKey a)).length = (keyCoding.code (key.toKey b)).length := by
  rw [key.code_eq, key.code_eq]
  simp

theorem ListableKey.code_lt (a b : Height) :
    keyCoding.code (key.toKey a) < keyCoding.code (key.toKey b) ↔ a < b := by
  rw [key.code_eq, key.code_eq, List.cons_lt_cons_iff, height_beBytes_lt, eq_self, true_and]
  exact or_iff_right (lt_irrefl _)

theorem ListableKey.code_le (a b : Height) :
    keyCoding.code (key.toKey a) ≤ keyCoding.code (key.toKey b) ↔ a ≤ b := by
  rw [← not_lt, key.code_lt, not_lt]

theorem ListableKey.lt_successor (a b : Height) :
    keyCoding.code (key.toKey a) < (key.toKey b).serializeImmediateSuccessor.map UInt8.toNat ↔
      a ≤ b := by
  rw [← key.code_le, ← lt_append_zero_iff _ _ (key.code_length b a)]
  change _ < (_ ++ [0]).map UInt8.toNat ↔ _
  rw [List.map_append]
  rfl

theorem ListableKey.successor_le (a b : Height) :
    (key.toKey a).serializeImmediateSuccessor.map UInt8.toNat ≤ keyCoding.code (key.toKey b) ↔
      a < b := by
  rw [← not_lt, key.lt_successor, not_le]

/-- The bounds start with the kind of the keys. -/
theorem ListableKey.bounds_kind (range : HeightRange) (order : BlockListOrder) :
    (∃ us, (key.list range order).lowerBound.map UInt8.toNat = key.kind.toNat :: us) ∧
      ∃ us, (key.list range order).upperBound.map UInt8.toNat = key.kind.toNat :: us := by
  have hplain : ∀ h, ∃ us, (key.toKey h).serialize = key.kind :: us := fun h =>
    ⟨_, key.serialize_eq h⟩
  have hsuccessor : ∀ h, ∃ us, (key.toKey h).serializeImmediateSuccessor = key.kind :: us := by
    intro h
    rw [Key.serializeImmediateSuccessor, key.serialize_eq]
    exact ⟨_, rfl⟩
  have hcons : ∀ bytes : Bytes, (∃ us, bytes = key.kind :: us) →
      ∃ us, bytes.map UInt8.toNat = key.kind.toNat :: us := by
    rintro _ ⟨us, rfl⟩
    exact ⟨_, rfl⟩
  obtain ⟨startBound, endBound⟩ := range
  refine ⟨hcons _ ?_, hcons _ ?_⟩
  · cases startBound with
    | included x => exact hplain x
    | excluded x => exact hsuccessor x
    | unbounded => exact hplain _
  · cases endBound with
    | included x => exact hsuccessor x
    | excluded x => exact hplain x
    | unbounded => exact hsuccessor _

theorem ListableKey.lower_le (range : HeightRange) (order : BlockListOrder) (h : Height) :
    (key.list range order).lowerBound.map UInt8.toNat ≤ keyCoding.code (key.toKey h) ↔
      match range.startBound with
      | .included x => x ≤ h
      | .excluded x => x < h
      | .unbounded => True := by
  obtain ⟨startBound, endBound⟩ := range
  cases startBound with
  | included x => exact key.code_le x h
  | excluded x => exact key.successor_le x h
  | unbounded => exact (key.code_le 0 h).trans (iff_true_intro (Fin.zero_le h))

theorem ListableKey.lt_upper (range : HeightRange) (order : BlockListOrder) (h : Height) :
    keyCoding.code (key.toKey h) < (key.list range order).upperBound.map UInt8.toNat ↔
      match range.endBound with
      | .included x => h ≤ x
      | .excluded x => h < x
      | .unbounded => True := by
  obtain ⟨startBound, endBound⟩ := range
  cases endBound with
  | included x => exact key.lt_successor h x
  | excluded x => exact key.code_lt h x
  | unbounded => exact (key.lt_successor h _).trans (iff_true_intro (Fin.le_last h))

/-- The bounds let through the keys of their kind with a height in the range, and no others. -/
theorem ListableKey.in_bounds_iff (range : HeightRange) (order : BlockListOrder) (k : Key) :
    (key.list range order).lowerBound.map UInt8.toNat ≤ keyCoding.code k ∧
        keyCoding.code k < (key.list range order).upperBound.map UInt8.toNat ↔
      ∃ h, k = key.toKey h ∧ range.Contains h := by
  constructor
  · rintro ⟨hlower, hupper⟩
    obtain ⟨⟨us, hus⟩, vs, hvs⟩ := key.bounds_kind range order
    have hcode : keyCoding.code k = k.kind.toNat :: k.fields.map UInt8.toNat := rfl
    have hkind : k.kind = key.kind := by
      rw [hus, hcode, ← not_lt, List.cons_lt_cons_iff] at hlower
      rw [hvs, hcode, List.cons_lt_cons_iff] at hupper
      apply UInt8.toNat_inj.mp
      omega
    obtain ⟨h, rfl⟩ := key.of_kind k hkind
    exact ⟨h, rfl, (key.lower_le range order h).mp hlower, (key.lt_upper range order h).mp hupper⟩
  · rintro ⟨h, rfl, hlower, hupper⟩
    exact ⟨(key.lower_le range order h).mpr hlower, (key.lt_upper range order h).mpr hupper⟩

end Bounds

section Listed

variable {B T : Type}

/-- A record as the listings return it. -/
def readBlock (record : Height × Value B T) : Outcome Error (Height × B) :=
  record.2.asBlock.map fun block => (record.1, block)

/-- The results are those of the records in the range, each once and in the asked order. -/
def Lists (lookup : Height → Option (Value B T)) (range : HeightRange) (order : BlockListOrder)
    (results : List (Outcome Error (Height × B))) : Prop :=
  ∃ records : List (Height × Value B T), results = records.map readBlock ∧
    (∀ h v, (h, v) ∈ records ↔ lookup h = some v ∧ range.Contains h) ∧
      records.Pairwise fun a b => order.Precedes a.1 b.1

theorem ListableKey.checkKey_decodeRecord (key : ListableKey) (h : Height) (v : Value B T) :
    key.checkKey (RecordList.decodeRecord (key.toKey h, v)) = readBlock (h, v) := by
  unfold ListableKey.checkKey RecordList.decodeRecord readBlock
  rw [Key.deserialize_serialize]
  cases v <;> simp [Value.asBlock, key.fromKey_toKey, bind, Except.bind, pure, Except.pure,
    Except.map]

variable (key : ListableKey) (db : Db B T) (range : HeightRange) (order : BlockListOrder)

theorem ListableKey.mem_records (k : Key) (v : Value B T) :
    (k, v) ∈ (key.list range order).records db ↔
      db.lookup k = some v ∧ ∃ h, k = key.toKey h ∧ range.Contains h := by
  rw [RecordList.records, List.mem_filter, mem_iterator, Bool.and_eq_true, decide_eq_true_eq,
    decide_eq_true_eq, key.in_bounds_iff]

/-- The records between the bounds, by height. -/
theorem ListableKey.exists_records : ∃ records : List (Height × Value B T),
    (key.list range order).records db =
        records.map (fun record => (key.toKey record.1, record.2)) ∧
      (∀ h v, (h, v) ∈ records ↔ db.lookup (key.toKey h) = some v ∧ range.Contains h) ∧
        records.Pairwise fun a b => a.1 < b.1 := by
  have hinj : ∀ a b, key.toKey a = key.toKey b → a = b := by
    intro a b hab
    have hfrom := congrArg key.fromKey hab
    rwa [key.fromKey_toKey, key.fromKey_toKey, Option.some_inj] at hfrom
  have hrange : (key.list range order).records db ∈
      Set.range (List.map fun record : Height × Value B T => (key.toKey record.1, record.2)) := by
    rw [Set.range_list_map]
    rintro ⟨k, v⟩ hmem
    obtain ⟨-, h, rfl, -⟩ := (key.mem_records db range order k v).mp hmem
    exact ⟨(h, v), rfl⟩
  obtain ⟨records, hrecords⟩ := hrange
  refine ⟨records, hrecords.symm, fun h v => ?_, ?_⟩
  · have hmem : (key.toKey h, v) ∈ (key.list range order).records db ↔ (h, v) ∈ records := by
      rw [← hrecords, List.mem_map]
      constructor
      · rintro ⟨⟨a, w⟩, hw, heq⟩
        obtain ⟨ha, rfl⟩ := Prod.mk.inj heq
        rwa [← hinj a h ha]
      · intro hv
        exact ⟨_, hv, rfl⟩
    rw [← hmem, key.mem_records]
    refine and_congr_right fun _ => ?_
    constructor
    · rintro ⟨a, ha, hin⟩
      rwa [hinj h a ha]
    · intro hin
      exact ⟨h, rfl, hin⟩
  · have hsorted : ((key.list range order).records db).Pairwise fun a b =>
        keyCoding.code a.1 < keyCoding.code b.1 := (iterator_sorted keyCoding db).filter _
    rw [← hrecords, List.pairwise_map] at hsorted
    apply hsorted.imp
    intro a b hab
    exact (key.code_lt a.1 b.1).mp hab

/-- A listing of one kind of keys. -/
theorem ListableKey.listBlocks_lists :
    Lists (fun h => db.lookup (key.toKey h)) range order (key.listBlocks db range order) := by
  obtain ⟨records, hrecords, hmem, hsorted⟩ := key.exists_records db range order
  have hread : ∀ rs : List (Height × Value B T),
      ((rs.map fun record => (key.toKey record.1, record.2)).map RecordList.decodeRecord).map
        key.checkKey = rs.map readBlock := by
    intro rs
    rw [List.map_map, List.map_map]
    exact List.map_congr_left fun record _ => key.checkKey_decodeRecord record.1 record.2
  unfold ListableKey.listBlocks RecordList.intoIterator
  rw [hrecords]
  cases order with
  | lowestToHighest => exact ⟨records, hread records, hmem, hsorted⟩
  | highestToLowest =>
    refine ⟨records.reverse, ?_, fun h v => ?_, ?_⟩
    · rw [← hread, List.map_reverse]
      rfl
    · rw [List.mem_reverse]
      exact hmem h v
    · rw [List.pairwise_reverse]
      exact hsorted

/-- The listings return exactly the blocks with a height in the range, each once and in the
asked order, and no record of another kind. -/
theorem list_lists (db : Db B T) (range : HeightRange) (order : BlockListOrder) :
    Lists (fun h => db.lookup (.block h)) range order (list db range order) ∧
      Lists (fun h => db.lookup (.nonEmptyBlock h)) range order (listNonEmpty db range order) :=
  ⟨keyBlock.listBlocks_lists db range order, keyNonEmptyBlock.listBlocks_lists db range order⟩

end Listed

end PayyRollup.BlockStoreDb
