import PayyRollup.BlockStoreRanges

/-!
The keys of the two databases as byte strings. A key is the byte of its kind and the fields of that
kind in a fixed width, so the order of the bytes is that of the kinds and, within a kind, of the
heights or hashes. Bytes that are read back are sliced before they are looked at: a known kind with
too few bytes after it panics, and this is the only way to do so.
-/
namespace PayyRollup.StoreKeys

open VerifierContracts NodeBlocks SmirkTree BlockStoreDb

/-- The order of the database. -/
def Below (a b : Bytes) : Prop := a.map UInt8.toNat < b.map UInt8.toNat

section Order

theorem below_cons (x y : UInt8) (xs ys : Bytes) :
    Below (x :: xs) (y :: ys) ↔ x < y ∨ x = y ∧ Below xs ys := by
  simp only [Below, List.map_cons, List.cons_lt_cons_iff, UInt8.toNat_inj, UInt8.lt_iff_toNat_lt]

theorem not_below_self (a : Bytes) : ¬Below a a := lt_irrefl _

theorem not_below_nil (a : Bytes) : ¬Below a [] := by
  cases a with
  | nil => exact not_below_self []
  | cons x xs => exact List.not_lt_nil _

/-- Nothing lies between a byte string and its extension by a zero. -/
theorem not_below_successor (a x : Bytes) (h : Below a x) : ¬Below x (a ++ [0]) := by
  induction a generalizing x with
  | nil =>
    cases x with
    | nil => exact absurd h (not_below_nil [])
    | cons y ys =>
      rw [List.nil_append, below_cons]
      rintro (hlt | ⟨-, hbelow⟩)
      · exact absurd hlt (by simp)
      · exact not_below_nil ys hbelow
  | cons b bs ih =>
    cases x with
    | nil => exact absurd h (not_below_nil _)
    | cons y ys =>
      rw [List.cons_append, below_cons]
      rw [below_cons] at h
      rintro (hlt | ⟨rfl, hbelow⟩)
      · rcases h with hlt' | ⟨rfl, -⟩
        · exact absurd (UInt8.lt_trans hlt hlt') (UInt8.lt_irrefl _)
        · exact absurd hlt (UInt8.lt_irrefl _)
      · rcases h with hlt' | ⟨-, hbelow'⟩
        · exact absurd hlt' (UInt8.lt_irrefl _)
        · exact ih ys hbelow' hbelow

end Order

/-- Keys of several kinds, each with fields of a fixed width that a number determines. -/
structure KeyCodec (K ε : Type) where
  kind : K → UInt8
  fields : K → Bytes
  number : K → ℕ
  width : UInt8 → Option ℕ
  deserialize : Bytes → Outcome ε K
  invalidKey : ε

namespace KeyCodec

variable {K ε : Type} (c : KeyCodec K ε)

def serialize (key : K) : Bytes := c.kind key :: c.fields key

def serializeImmediateSuccessor (key : K) : Bytes := c.serialize key ++ [0]

/-- What range scans and indexes need of the keys. -/
structure Ordered : Prop where
  round_trip : ∀ key, c.deserialize (c.serialize key) = .ok key
  monotone : ∀ a b, c.kind a = c.kind b →
    (Below (c.serialize a) (c.serialize b) ↔ c.number a < c.number b)
  apart : ∀ a b, c.kind a ≠ c.kind b → c.serialize a ≠ c.serialize b
  range_kind : ∀ a b bytes, c.kind a = c.kind b → ¬Below bytes (c.serialize a) →
    ¬Below (c.serialize b) bytes → bytes.head? = some (c.kind a)
  none_between : ∀ key bytes, Below (c.serialize key) bytes →
    ¬Below bytes (c.serializeImmediateSuccessor key)

/-- Nothing, an unknown kind, or a known kind with too few bytes after it. -/
def Malformed : Bytes → Prop
  | [] => True
  | kind :: rest => ∀ count, c.width kind = some count → rest.length < count

/-- A known kind with too few bytes after it. -/
def Truncated : Bytes → Prop
  | [] => False
  | kind :: rest => ∃ count, c.width kind = some count ∧ rest.length < count

/-- Whether the bytes are read without a panic, and rejected if they are malformed. -/
structure ReadsSafely (bytes : Bytes) : Prop where
  no_panic : c.deserialize bytes ≠ .error .panic
  rejected : c.Malformed bytes → c.deserialize bytes = .error (.err c.invalidKey)

variable {c}

theorem ordered_of (round_trip : ∀ key, c.deserialize (c.serialize key) = .ok key)
    (monotone : ∀ a b, c.kind a = c.kind b →
      (Below (c.fields a) (c.fields b) ↔ c.number a < c.number b)) : c.Ordered where
  round_trip := round_trip
  monotone := by
    intro a b hkind
    rw [serialize, serialize, below_cons, hkind, monotone a b hkind]
    simp
  apart := fun a b hkind heq => hkind (List.cons.inj heq).1
  range_kind := by
    intro a b bytes hkind hlow hhigh
    cases bytes with
    | nil => exact absurd (List.nil_lt_cons _ _) hlow
    | cons x xs =>
      rw [serialize, below_cons, not_or] at hlow hhigh
      rw [← hkind] at hhigh
      rw [List.head?_cons, UInt8.le_antisymm (UInt8.not_lt.mp hhigh.1) (UInt8.not_lt.mp hlow.1)]
  none_between := fun key bytes h => not_below_successor _ bytes h

theorem width_eq_none (kind : UInt8) (rest : Bytes) (hmalformed : c.Malformed (kind :: rest))
    (hlong : ¬c.Truncated (kind :: rest)) : c.width kind = none := by
  cases hwidth : c.width kind with
  | none => rfl
  | some count => exact absurd ⟨count, hwidth, hmalformed count hwidth⟩ hlong

/-- A decoder that panics on truncated bytes only, and rejects what is otherwise malformed. -/
theorem readsSafely_iff (hpanic : ∀ bytes, c.deserialize bytes = .error .panic ↔ c.Truncated bytes)
    (hreject : ∀ bytes, c.Malformed bytes → ¬c.Truncated bytes →
      c.deserialize bytes = .error (.err c.invalidKey)) (bytes : Bytes) :
    c.ReadsSafely bytes ↔ ¬c.Truncated bytes := by
  constructor
  · intro h htruncated
    exact h.no_panic ((hpanic bytes).mpr htruncated)
  · intro h
    exact ⟨fun hp => h ((hpanic bytes).mp hp), fun hmalformed => hreject bytes hmalformed h⟩

end KeyCodec

section BlockStore

/-- The height or the hash in a key. -/
def keyNumber : Key → ℕ
  | .block blockNumber => blockNumber
  | .blockHashToHeight blockHash => blockHash.toNat
  | .txnByHash txnHash => txnHash.toNat
  | .nonEmptyBlock blockNumber => blockNumber
  | _ => 0

def keyWidth (kind : UInt8) : Option ℕ :=
  if kind = 0 then some 8
  else if kind = 1 then some 0
  else if kind = 2 then some 32
  else if kind = 3 then some 0
  else if kind = 4 then some 32
  else if kind = 5 then some 0
  else if kind = 6 then some 8
  else none

def blockStoreCodec : KeyCodec Key BlockStoreDb.Error where
  kind := Key.kind
  fields := Key.fields
  number := keyNumber
  width := keyWidth
  deserialize := Key.deserialize
  invalidKey := .invalidKey

theorem blockStore_ordered : blockStoreCodec.Ordered := by
  refine KeyCodec.ordered_of Key.deserialize_serialize fun a b hkind => ?_
  have hhash : ∀ x y : CryptoHash,
      Below (beBytes 32 x.toNat) (beBytes 32 y.toNat) ↔ x.toNat < y.toNat := fun x y =>
    beBytes_lt_iff 32 _ _ (x.isLt.trans_eq (by norm_num)) (y.isLt.trans_eq (by norm_num))
  change Key.kind a = Key.kind b at hkind
  change Below a.fields b.fields ↔ keyNumber a < keyNumber b
  cases a <;> cases b <;> simp [Key.kind] at hkind
  case block.block => exact height_beBytes_lt _ _
  case maxHeight.maxHeight => exact iff_of_false (not_below_self _) (lt_irrefl _)
  case blockHashToHeight.blockHashToHeight => exact hhash _ _
  case pendingBlock.pendingBlock => exact iff_of_false (not_below_self _) (lt_irrefl _)
  case txnByHash.txnByHash => exact hhash _ _
  case storeVersion.storeVersion => exact iff_of_false (not_below_self _) (lt_irrefl _)
  case nonEmptyBlock.nonEmptyBlock => exact height_beBytes_lt _ _

/-- A key is read, rejected for its kind, or panics for want of bytes. -/
theorem deserialize_panic (bytes : Bytes) :
    Key.deserialize bytes = .error .panic ↔ blockStoreCodec.Truncated bytes := by
  cases bytes with
  | nil => exact iff_of_false nofun id
  | cons kind rest =>
    change _ ↔ ∃ count, keyWidth kind = some count ∧ rest.length < count
    unfold Key.deserialize keyWidth
    split_ifs <;> simp_all

theorem deserialize_reject (bytes : Bytes) (hmalformed : blockStoreCodec.Malformed bytes)
    (hlong : ¬blockStoreCodec.Truncated bytes) :
    Key.deserialize bytes = .error (.err .invalidKey) := by
  cases bytes with
  | nil => rfl
  | cons kind rest =>
    have hnone := KeyCodec.width_eq_none kind rest hmalformed hlong
    change keyWidth kind = none at hnone
    unfold keyWidth at hnone
    split_ifs at hnone with h0 h1 h2 h3 h4 h5 h6
    simp only [Key.deserialize, h0, h1, h2, h3, h4, h5, h6, if_false]

end BlockStore

section ProverDb

/-- A key of the prover's database. -/
inductive ProverKey
  | lastSeenBlock
  | rollup (height : Height)
  | proverVersion
  deriving DecidableEq

namespace ProverKey

inductive Error
  | invalidKey
  | invalidValue
  | rocksDb
  | wireMessage
  | io

def kind : ProverKey → UInt8
  | lastSeenBlock => 0
  | rollup _ => 1
  | proverVersion => 2

def fields : ProverKey → Bytes
  | rollup height => beBytes 8 height
  | _ => []

/-- The key of some bytes; a slice of too few bytes panics. -/
def deserialize : Bytes → Outcome Error ProverKey
  | [] => .error (.err .invalidKey)
  | kind :: bytes =>
      if kind = 0 then .ok .lastSeenBlock
      else if kind = 1 then
        if bytes.length < 8 then .error .panic
        else .ok (.rollup (Fin.ofNat _ (fromBeBytes (bytes.take 8))))
      else if kind = 2 then .ok .proverVersion
      else .error (.err .invalidKey)

def number : ProverKey → ℕ
  | rollup height => height
  | _ => 0

def width (kind : UInt8) : Option ℕ :=
  if kind = 0 then some 0 else if kind = 1 then some 8 else if kind = 2 then some 0 else none

end ProverKey

def proverCodec : KeyCodec ProverKey ProverKey.Error where
  kind := ProverKey.kind
  fields := ProverKey.fields
  number := ProverKey.number
  width := ProverKey.width
  deserialize := ProverKey.deserialize
  invalidKey := .invalidKey

theorem prover_ordered : proverCodec.Ordered := by
  refine KeyCodec.ordered_of (fun key => ?_) fun a b hkind => ?_
  · change ProverKey.deserialize (key.kind :: key.fields) = .ok key
    cases key with
    | lastSeenBlock => rfl
    | rollup height =>
      have hread : fromBeBytes ((beBytes 8 height).take 8) = height := by
        rw [List.take_of_length_le (by simp)]
        exact fromBeBytes_beBytes 8 height (height.isLt.trans_eq (by norm_num))
      simp [ProverKey.kind, ProverKey.fields, ProverKey.deserialize, hread]
    | proverVersion => rfl
  · change a.kind = b.kind at hkind
    change Below a.fields b.fields ↔ a.number < b.number
    cases a <;> cases b <;> simp [ProverKey.kind] at hkind
    case lastSeenBlock.lastSeenBlock => exact iff_of_false (not_below_self _) (lt_irrefl _)
    case rollup.rollup => exact height_beBytes_lt _ _
    case proverVersion.proverVersion => exact iff_of_false (not_below_self _) (lt_irrefl _)

theorem prover_panic (bytes : Bytes) :
    ProverKey.deserialize bytes = .error .panic ↔ proverCodec.Truncated bytes := by
  cases bytes with
  | nil => exact iff_of_false nofun id
  | cons kind rest =>
    change _ ↔ ∃ count, ProverKey.width kind = some count ∧ rest.length < count
    unfold ProverKey.deserialize ProverKey.width
    split_ifs <;> simp_all

theorem prover_reject (bytes : Bytes) (hmalformed : proverCodec.Malformed bytes)
    (hlong : ¬proverCodec.Truncated bytes) :
    ProverKey.deserialize bytes = .error (.err .invalidKey) := by
  cases bytes with
  | nil => rfl
  | cons kind rest =>
    have hnone := KeyCodec.width_eq_none kind rest hmalformed hlong
    change ProverKey.width kind = none at hnone
    unfold ProverKey.width at hnone
    split_ifs at hnone with h0 h1 h2
    simp only [ProverKey.deserialize, h0, h1, h2, if_false]

end ProverDb

/-- The keys of both databases are ordered and read back, and bytes are read safely unless they
have a known kind and too few bytes after it. -/
theorem keys_read_safely_iff (bytes : Bytes) :
    blockStoreCodec.Ordered ∧ proverCodec.Ordered ∧
      (blockStoreCodec.ReadsSafely bytes ↔ ¬blockStoreCodec.Truncated bytes) ∧
      (proverCodec.ReadsSafely bytes ↔ ¬proverCodec.Truncated bytes) :=
  ⟨blockStore_ordered, prover_ordered,
    KeyCodec.readsSafely_iff deserialize_panic deserialize_reject bytes,
    KeyCodec.readsSafely_iff prover_panic prover_reject bytes⟩

/-- The kind of a block alone panics. -/
theorem not_keys_read_safely_block_kind :
    Key.deserialize [0] = .error .panic ∧ ¬blockStoreCodec.ReadsSafely [0] :=
  ⟨rfl, fun h => h.no_panic rfl⟩

end PayyRollup.StoreKeys
