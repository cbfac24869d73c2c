import PayyRollup.WireFormats

/-!
Messages with versions. The versions of a message are the variants of one enumeration, and a
message can be upgraded by one version, unless it has the last one. Bytes are read without a look
at what follows them. Peers exchange events in requests of the only version; what a node stores of
a block has two versions, of which the first has no time.
-/
namespace PayyRollup.WireMessages

open ScalarField VerifierContracts NodeBlocks ByteFormats WireFormats BlockStoreDb
open NetworkHandler (NetworkEvent)

inductive ErrorKind
  | serialize
  | deserialize
  | maxVersion (version : ℕ)
  deriving DecidableEq

structure WireMessage (α : Type) where
  format : Format α
  maxVersion : ℕ
  version : α → ℕ
  upgradeOnce : α → Except ErrorKind α

namespace WireMessage

variable {α : Type} (m : WireMessage α)

def toBytes (a : α) : Except ErrorKind Bytes :=
  match m.format.write a with
  | some bytes => .ok bytes
  | none => .error .serialize

def fromBytes (bytes : Bytes) : Except ErrorKind α :=
  match m.format.fromBytes bytes with
  | some a => .ok a
  | none => .error .deserialize

variable {m}

theorem toBytes_ok (a : α) (bytes : Bytes) :
    m.toBytes a = .ok bytes ↔ m.format.write a = some bytes := by
  unfold toBytes
  cases m.format.write a <;> simp

theorem toBytes_error (a : α) : (∃ e, m.toBytes a = .error e) ↔ ¬m.format.Fits a := by
  unfold toBytes Format.Fits
  cases m.format.write a <;> simp

theorem fromBytes_ok (bytes : Bytes) (a : α) : m.fromBytes bytes = .ok a ↔
    ∃ front, m.toBytes a = .ok front ∧ front <+: bytes := by
  simp only [toBytes_ok]
  rw [← m.format.fromBytes_iff, fromBytes]
  cases m.format.fromBytes bytes <;> simp

end WireMessage

section Requests

inductive Request (T : Type)
  | v1 (event : T)

inductive IoError
  | invalidData (source : ErrorKind)

def requestFields (T : Type) : Variant (Request T) T :=
  .record .v1 (fun | .v1 event => event) (fun | .v1 _ => rfl) fun _ => rfl

def requestVariants {T : Type} (f : Format T) : List (Format (Request T)) :=
  [f.via (requestFields T)]

def requestFormat {T : Type} (f : Format T) : Format (Request T) :=
  Format.enum (fun _ => 0) (requestVariants f) ⟨Format.via_keyed _ _ _ _ fun _ => rfl, trivial⟩
    (by simp [requestVariants])

/-- A request with its only version. -/
def request {T : Type} (f : Format T) : WireMessage (Request T) where
  format := requestFormat f
  maxVersion := 1
  version := fun _ => 1
  upgradeOnce := fun _ => .error (.maxVersion 1)

def invalidData {A : Type} (result : Except ErrorKind A) : Except IoError A :=
  result.mapError IoError.invalidData

/-- Read a request from all bytes that a peer has sent. -/
def readRequest (io : Bytes) : Except IoError (Request NetworkEvent) :=
  invalidData ((request networkEvent).fromBytes io)

def writeRequest (r : Request NetworkEvent) : Except IoError Bytes :=
  invalidData ((request networkEvent).toBytes r)

theorem invalidData_ok {A : Type} (result : Except ErrorKind A) (a : A) :
    invalidData result = .ok a ↔ result = .ok a := by
  cases result <;> simp [invalidData, Except.mapError]

theorem requestFormat_fits {T : Type} (f : Format T) (event : T) :
    (requestFormat f).Fits (.v1 event) ↔ f.Fits event := by
  refine (Format.enum_fits (fun _ => 0) (requestVariants f) _ _ _ _ rfl).trans ?_
  exact f.via_fits (requestFields T) event

/-- What a peer reads is the event whose request comes first, and every event of machine numbers
and lists that can be counted has a request. -/
theorem readRequest_iff (io : Bytes) (event : NetworkEvent) :
    (readRequest io = .ok (.v1 event) ↔
      ∃ data, writeRequest (.v1 event) = .ok data ∧ data <+: io) ∧
    ((∃ data, writeRequest (.v1 event) = .ok data) ↔ SizedEvent event) := by
  constructor
  · simp only [readRequest, writeRequest, invalidData_ok, WireMessage.fromBytes_ok]
  · rw [← networkEvent_fits, ← requestFormat_fits, Format.fits_iff]
    simp only [writeRequest, invalidData_ok, WireMessage.toBytes_ok]
    rfl

end Requests

section Records

theorem writeHeight_iff (bytes : Bytes) (h : Height) : some (leBytes 8 h) = some bytes ↔
    bytes.length = 8 ∧ some (Fin.ofNat (2 ^ 64) (fromLeBytes bytes)) = some h := by
  constructor
  · intro hwrite
    obtain rfl := Option.some.inj hwrite
    rw [fromLeBytes_leBytes 8 h (h.isLt.trans_eq (by norm_num))]
    exact ⟨leBytes_length 8 h, congrArg some (Fin.ofNat_val_eq_self h)⟩
  · intro hread
    obtain ⟨hlength, hheight⟩ := hread
    obtain rfl := Option.some.inj hheight
    have hlt := fromLeBytes_lt bytes
    rw [hlength] at hlt
    rw [Fin.val_ofNat, Nat.mod_eq_of_lt (hlt.trans_eq (by norm_num)), ← hlength,
      leBytes_fromLeBytes]

def height : Format Height :=
  Format.fixed 8 (fun h => some (leBytes 8 h))
    (fun bytes => some (Fin.ofNat (2 ^ 64) (fromLeBytes bytes))) writeHeight_iff

@[simp] theorem height_fits (h : Height) : height.Fits h := rfl

def blockV1 : Variant BlockFormat Block where
  build := .v1
  take
    | .v1 block => some block
    | .v2 _ _ => none
  take_iff := by
    intro a b
    cases a <;> simp [eq_comm]

def blockV2 : Variant BlockFormat (Block × Option ℕ) where
  build := fun f => .v2 f.1 f.2
  take
    | .v2 block timestampUnixS => some (block, timestampUnixS)
    | .v1 _ => none
  take_iff := by
    intro a b
    cases a <;> simp [Prod.ext_iff, eq_comm]

def blockFormatKey : BlockFormat → ℕ
  | .v1 _ => 0
  | .v2 _ _ => 1

def blockFormatVariants : List (Format BlockFormat) :=
  [block.via blockV1, (block.pair (option u64)).via blockV2]

def blockFormat : Format BlockFormat :=
  Format.enum blockFormatKey blockFormatVariants
    ⟨Format.via_keyed _ _ _ _ fun _ => rfl, Format.via_keyed _ _ _ _ fun _ => rfl, trivial⟩
    (by simp [blockFormatVariants])

def BlockFormat.version : BlockFormat → ℕ
  | .v1 _ => 1
  | .v2 _ _ => 2

/-- The second version has the time of the block. -/
def BlockFormat.upgradeOnce : BlockFormat → Except ErrorKind BlockFormat
  | .v1 block => .ok (.v2 block none)
  | .v2 _ _ => .error (.maxVersion 2)

def blockMessage : WireMessage BlockFormat where
  format := blockFormat
  maxVersion := 2
  version := BlockFormat.version
  upgradeOnce := BlockFormat.upgradeOnce

def txnFormatFields :
    Variant TxnFormat (UtxoProof × Height × Option ℕ × CryptoHash × ℕ) :=
  .record (fun f => ⟨f.1, f.2.1, f.2.2.1, f.2.2.2.1, f.2.2.2.2⟩)
    (fun t => (t.txn, t.metadata.blockHeight, t.metadata.blockTime, t.metadata.blockHash,
      t.metadata.blockTxnIndex)) (fun _ => rfl) fun _ => rfl

def txnFormatVariants : List (Format TxnFormat) :=
  [(utxoProof.pair <| height.pair <| (option u64).pair <| word.pair u32).via txnFormatFields]

def txnFormat : Format TxnFormat :=
  Format.enum (fun _ => 0) txnFormatVariants ⟨Format.via_keyed _ _ _ _ fun _ => rfl, trivial⟩
    (by simp [txnFormatVariants])

def txnMessage : WireMessage TxnFormat where
  format := txnFormat
  maxVersion := 1
  version := fun _ => 1
  upgradeOnce := fun _ => .error (.maxVersion 1)

theorem blockFormat_fits (b : BlockFormat) : blockFormat.Fits b ↔
    SizedBlock b.intoBlock ∧ ∀ time ∈ b.timestamp, time < 2 ^ 64 := by
  cases b with
  | v1 b =>
    refine (Format.enum_fits blockFormatKey blockFormatVariants _ _ _ _ rfl).trans ?_
    refine (Format.via_fits block blockV1 b).trans ((block_fits b).trans ?_)
    simp [BlockFormat.intoBlock, BlockFormat.timestamp]
  | v2 b time =>
    refine (Format.enum_fits blockFormatKey blockFormatVariants _ _ _ _ rfl).trans ?_
    refine (Format.via_fits (block.pair (option u64)) blockV2 (b, time)).trans ?_
    simp only [Format.pair_fits, block_fits, option_fits, u64_fits, BlockFormat.intoBlock,
      BlockFormat.timestamp]

theorem txnFormat_fits (t : TxnFormat) : txnFormat.Fits t ↔ t.txn.proof.length < 2 ^ 32 ∧
    (∀ time ∈ t.metadata.blockTime, time < 2 ^ 64) ∧ t.metadata.blockTxnIndex < 2 ^ 32 := by
  refine (Format.enum_fits (fun _ => 0) txnFormatVariants _ _ _ _ rfl).trans ?_
  refine (Format.via_fits (utxoProof.pair <| height.pair <| (option u64).pair <| word.pair u32)
    txnFormatFields (t.txn, t.metadata.blockHeight, t.metadata.blockTime, t.metadata.blockHash,
      t.metadata.blockTxnIndex)).trans ?_
  simp only [Format.pair_fits, utxoProof_fits, height_fits, option_fits, u64_fits, word_fits, u32,
    number_fits, true_and]
  norm_num

/-- The transactions of a block that can be written can be written too. -/
theorem nodeApi_txns_fit (env : NodeEnv) (b : BlockFormat) (h : blockFormat.Fits b)
    (t : TxnFormat) (ht : t ∈ (nodeApi env).txns b) : txnFormat.Fits t := by
  obtain ⟨hsized, htime⟩ := (blockFormat_fits b).mp h
  obtain ⟨i, hi, hget⟩ := List.getElem_of_mem ht
  have hrecord := nodeApi_txns env b i t ((List.getElem?_eq_some_iff).mpr ⟨hi, hget⟩)
  rw [txnFormat_fits, hrecord.2]
  exact ⟨hsized.proofs _ (List.mem_of_getElem? hrecord.1), htime, Nat.mod_lt _ (by norm_num)⟩

end Records
end PayyRollup.WireMessages
