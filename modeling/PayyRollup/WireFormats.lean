import PayyRollup.BlockStoreIndexes
import PayyRollup.ByteFormats
import PayyRollup.HashBytes
import PayyRollup.NetworkHandler

/-!
The bytes of what the nodes send one another and of what they store. Numbers are little-endian,
elements big-endian, a list follows the number of its elements and a variant follows its tag. A
message that is read may be followed by other bytes, which are ignored. The versions of a message
are the variants of one enumeration, so old bytes are still read.
-/
namespace PayyRollup.WireFormats

open ScalarField VerifierContracts NodeBlocks SmirkTree ByteFormats
open FastSync (SnapshotChunkFast)
open NetworkHandler (Approval NetworkEvent)
open SyncWorker (SnapshotKind SnapshotRequest SnapshotAccept SnapshotChunkSlow SnapshotChunk)

section Leaves

def fromLeBytes (bytes : Bytes) : ℕ := fromBeBytes bytes.reverse

theorem leBytes_eq_reverse (count x : ℕ) : leBytes count x = (beBytes count x).reverse := by
  apply List.ext_getElem
  · simp [leBytes]
  · intro i hi hi'
    have hlt : i < count := by simpa [leBytes] using hi
    have hindex : count - 1 - (count - 1 - i) = i := by omega
    simp [leBytes, beBytes, hindex]

@[simp] theorem leBytes_length (count x : ℕ) : (leBytes count x).length = count := by
  simp [leBytes]

theorem fromLeBytes_leBytes (count x : ℕ) (h : x < 256 ^ count) :
    fromLeBytes (leBytes count x) = x := by
  rw [fromLeBytes, leBytes_eq_reverse, List.reverse_reverse, fromBeBytes_beBytes count x h]

theorem leBytes_fromLeBytes (bytes : Bytes) : leBytes bytes.length (fromLeBytes bytes) = bytes := by
  have h := HashBytes.beBytes_fromBeBytes bytes.reverse
  rw [List.length_reverse] at h
  rw [leBytes_eq_reverse, fromLeBytes, h, List.reverse_reverse]

theorem fromLeBytes_lt (bytes : Bytes) : fromLeBytes bytes < 256 ^ bytes.length := by
  have h := HashBytes.fromBeBytes_lt bytes.reverse
  rwa [List.length_reverse] at h

def writeNumber (count x : ℕ) : Option Bytes :=
  if x < 256 ^ count then some (leBytes count x) else none

theorem writeNumber_iff (count : ℕ) (bytes : Bytes) (x : ℕ) : writeNumber count x = some bytes ↔
    bytes.length = count ∧ some (fromLeBytes bytes) = some x := by
  unfold writeNumber
  constructor
  · intro h
    split at h
    · rename_i hlt
      obtain rfl := Option.some.inj h
      exact ⟨leBytes_length count x, congrArg some (fromLeBytes_leBytes count x hlt)⟩
    · cases h
  · intro h
    obtain ⟨rfl, hx⟩ := h
    obtain rfl := Option.some.inj hx
    rw [if_pos (fromLeBytes_lt bytes), leBytes_fromLeBytes]

/-- An unsigned number of some bytes. -/
def number (count : ℕ) : Format ℕ :=
  Format.fixed count (writeNumber count) (fun bytes => some (fromLeBytes bytes))
    (writeNumber_iff count)

theorem number_fits (count x : ℕ) : (number count).Fits x ↔ x < 256 ^ count := by
  change (writeNumber count x).isSome ↔ _
  unfold writeNumber
  split <;> simp [*]

def u32 : Format ℕ := number 4

def u64 : Format ℕ := number 8

theorem writeWord_iff (bytes : Bytes) (x : BitVec 256) : some (beBytes 32 x.toNat) = some bytes ↔
    bytes.length = 32 ∧ some (BitVec.ofNat 256 (fromBeBytes bytes)) = some x := by
  constructor
  · intro h
    obtain rfl := Option.some.inj h
    rw [fromBeBytes_beBytes 32 _ (x.isLt.trans_eq (by norm_num))]
    exact ⟨beBytes_length 32 _, congrArg some (BitVec.ofNat_toNat ..|>.trans (by simp))⟩
  · intro h
    obtain ⟨hlength, hx⟩ := h
    obtain rfl := Option.some.inj hx
    have hlt := HashBytes.fromBeBytes_lt bytes
    rw [hlength] at hlt
    rw [BitVec.toNat_ofNat, Nat.mod_eq_of_lt (hlt.trans_eq (by norm_num)), ← hlength,
      HashBytes.beBytes_fromBeBytes]

/-- An element or a hash: 32 bytes, the highest first. -/
def word : Format (BitVec 256) :=
  Format.fixed 32 (fun x => some (beBytes 32 x.toNat))
    (fun bytes => some (BitVec.ofNat 256 (fromBeBytes bytes))) writeWord_iff

theorem writeByte_iff (bytes : Bytes) (b : UInt8) :
    some [b] = some bytes ↔ bytes.length = 1 ∧ bytes.head? = some b := by
  constructor
  · intro h
    obtain rfl := Option.some.inj h
    exact ⟨rfl, rfl⟩
  · intro h
    obtain ⟨b', rfl⟩ := List.length_eq_one_iff.mp h.1
    rw [Option.some.inj h.2]

def byte : Format UInt8 := Format.fixed 1 (fun b => some [b]) List.head? writeByte_iff

def readVector (bytes : Bytes) : Option Signature :=
  if h : bytes.length = 65 then some ⟨bytes.toArray, h⟩ else none

theorem writeVector_iff (bytes : Bytes) (v : Signature) :
    some v.toList = some bytes ↔ bytes.length = 65 ∧ readVector bytes = some v := by
  constructor
  · intro h
    obtain rfl := Option.some.inj h
    have hlength : v.toList.length = 65 := by simp
    exact ⟨hlength, (dif_pos hlength).trans (congrArg some (Vector.toList_inj.mp (by simp)))⟩
  · intro h
    obtain ⟨hlength, hread⟩ := h
    rw [readVector, dif_pos hlength] at hread
    obtain rfl := Option.some.inj hread
    simp

def signature : Format Signature :=
  Format.fixed 65 (fun v => some v.toList) readVector writeVector_iff

@[simp] theorem word_fits (x : BitVec 256) : word.Fits x := rfl

@[simp] theorem byte_fits (b : UInt8) : byte.Fits b := rfl

@[simp] theorem signature_fits (v : Signature) : signature.Fits v := rfl

end Leaves
section Lists

variable {α : Type} (f : Format α)

/-- A list after the number of its elements. -/
def vec : Format (List α) := f.counted u32

theorem vec_fits (as : List α) : (vec f).Fits as ↔ as.length < 2 ^ 32 ∧ ∀ a ∈ as, f.Fits a := by
  rw [vec, Format.counted_fits, u32, number_fits]
  norm_num

def noneVariant : Variant (Option α) Unit where
  build := fun _ => none
  take
    | none => some ()
    | some _ => none
  take_iff := by
    intro a b
    cases a <;> simp

def someVariant : Variant (Option α) α where
  build := some
  take := id
  take_iff := fun _ _ => eq_comm

def optionKey : Option α → ℕ
  | none => 0
  | some _ => 1

def optionVariants : List (Format (Option α)) :=
  [Format.empty.via noneVariant, f.via someVariant]

def option : Format (Option α) :=
  Format.enum optionKey (optionVariants f)
    ⟨Format.via_keyed _ _ _ _ fun _ => rfl, Format.via_keyed _ _ _ _ fun _ => rfl, trivial⟩
    (by simp [optionVariants])

theorem option_fits (a : Option α) : (option f).Fits a ↔ ∀ b ∈ a, f.Fits b := by
  cases a with
  | none =>
    refine iff_of_true ?_ (by simp)
    exact (Format.enum_fits optionKey (optionVariants f) _ _ none _ rfl).mpr rfl
  | some b =>
    refine (Format.enum_fits optionKey (optionVariants f) _ _ (some b) _ rfl).trans ?_
    refine (Format.via_fits f someVariant b).trans ?_
    simp

end Lists

section Blocks

def utxoProofFields : Variant UtxoProof
    (Element × Element × Element × (Element × Element) × (Element × Element) × Bytes) :=
  .record (fun f => ⟨f.1, f.2.1, f.2.2.1, f.2.2.2.1, f.2.2.2.2.1, f.2.2.2.2.2⟩)
    (fun t => (t.recentRoot, t.mbHash, t.mbValue, t.inputLeaves, t.outputLeaves, t.proof))
    (fun _ => rfl) fun _ => rfl

def utxoProof : Format UtxoProof :=
  (word.pair <| word.pair <| word.pair <| (word.pair word).pair <| (word.pair word).pair <|
    vec byte).via utxoProofFields

def blockHeaderFields : Variant BlockHeader
    (ℕ × CryptoHash × ℕ × CryptoHash × List Signature) :=
  .record (fun f => ⟨f.1, f.2.1, f.2.2.1, f.2.2.2.1, f.2.2.2.2⟩)
    (fun h => (h.height, h.lastBlockHash, h.epochId, h.lastFinalBlockHash, h.approvals))
    (fun _ => rfl) fun _ => rfl

def blockHeader : Format BlockHeader :=
  (u64.pair <| word.pair <| u64.pair <| word.pair <| vec signature).via blockHeaderFields

def blockStateFields : Variant BlockState (Element × List UtxoProof) :=
  .record (fun f => ⟨f.1, f.2⟩) (fun s => (s.rootHash, s.txns)) (fun _ => rfl) fun _ => rfl

def blockState : Format BlockState := (word.pair (vec utxoProof)).via blockStateFields

def blockContentFields : Variant BlockContent (BlockHeader × BlockState) :=
  .record (fun f => ⟨f.1, f.2⟩) (fun c => (c.header, c.state)) (fun _ => rfl) fun _ => rfl

def blockContent : Format BlockContent := (blockHeader.pair blockState).via blockContentFields

def blockFields : Variant Block (BlockContent × Signature) :=
  .record (fun f => ⟨f.1, f.2⟩) (fun b => (b.content, b.signature)) (fun _ => rfl) fun _ => rfl

def block : Format Block := (blockContent.pair signature).via blockFields

/-- The numbers and lists of a block that a machine can hold and count. -/
structure SizedHeader (h : BlockHeader) : Prop where
  height : h.height < 2 ^ 64
  epoch : h.epochId < 2 ^ 64
  approvals : h.approvals.length < 2 ^ 32

structure SizedBlock (b : Block) : Prop where
  header : SizedHeader b.content.header
  txns : b.content.state.txns.length < 2 ^ 32
  proofs : ∀ t ∈ b.content.state.txns, t.proof.length < 2 ^ 32

theorem u64_fits (x : ℕ) : u64.Fits x ↔ x < 2 ^ 64 := by
  rw [u64, number_fits]
  norm_num

theorem utxoProof_fits (t : UtxoProof) : utxoProof.Fits t ↔ t.proof.length < 2 ^ 32 := by
  have h := Format.via_fits (word.pair <| word.pair <| word.pair <| (word.pair word).pair <|
    (word.pair word).pair <| vec byte) utxoProofFields
      (t.recentRoot, t.mbHash, t.mbValue, t.inputLeaves, t.outputLeaves, t.proof)
  refine h.trans ?_
  simp only [Format.pair_fits, vec_fits, word_fits, byte_fits, true_and, implies_true, and_true]

theorem blockHeader_fits (header : BlockHeader) :
    blockHeader.Fits header ↔ SizedHeader header := by
  have h := Format.via_fits (u64.pair <| word.pair <| u64.pair <| word.pair <| vec signature)
    blockHeaderFields (header.height, header.lastBlockHash, header.epochId,
      header.lastFinalBlockHash, header.approvals)
  refine h.trans ?_
  simp only [Format.pair_fits, vec_fits, u64_fits, word_fits, signature_fits, true_and,
    implies_true, and_true]
  exact ⟨fun ⟨h1, h2, h3⟩ => ⟨h1, h2, h3⟩, fun h => ⟨h.height, h.epoch, h.approvals⟩⟩

theorem blockState_fits (state : BlockState) : blockState.Fits state ↔
    state.txns.length < 2 ^ 32 ∧ ∀ t ∈ state.txns, t.proof.length < 2 ^ 32 := by
  have h := Format.via_fits (word.pair (vec utxoProof)) blockStateFields
    (state.rootHash, state.txns)
  refine h.trans ?_
  simp only [Format.pair_fits, vec_fits, word_fits, utxoProof_fits, true_and]

theorem block_fits (b : Block) : block.Fits b ↔ SizedBlock b := by
  have hblock := Format.via_fits (blockContent.pair signature) blockFields
    (b.content, b.signature)
  have hcontent := Format.via_fits (blockHeader.pair blockState) blockContentFields
    (b.content.header, b.content.state)
  refine hblock.trans ?_
  rw [Format.pair_fits]
  refine (and_iff_left (signature_fits b.signature)).trans (hcontent.trans ?_)
  simp only [Format.pair_fits, blockHeader_fits, blockState_fits]
  exact ⟨fun ⟨h1, h2, h3⟩ => ⟨h1, h2, h3⟩, fun h => ⟨h.header, h.txns, h.proofs⟩⟩

end Blocks

section Approvals

def endorsementVariant : Variant ApprovalInner CryptoHash where
  build := .endorsement
  take
    | .endorsement parentHash => some parentHash
    | .skip _ => none
  take_iff := by
    intro a b
    cases a <;> simp [eq_comm]

def skipVariant : Variant ApprovalInner ℕ where
  build := .skip
  take
    | .skip parentHeight => some parentHeight
    | .endorsement _ => none
  take_iff := by
    intro a b
    cases a <;> simp [eq_comm]

def approvalInnerKey : ApprovalInner → ℕ
  | .endorsement _ => 0
  | .skip _ => 1

def approvalInnerVariants : List (Format ApprovalInner) :=
  [word.via endorsementVariant, u64.via skipVariant]

def approvalInner : Format ApprovalInner :=
  Format.enum approvalInnerKey approvalInnerVariants
    ⟨Format.via_keyed _ _ _ _ fun _ => rfl, Format.via_keyed _ _ _ _ fun _ => rfl, trivial⟩
    (by simp [approvalInnerVariants])

def approvalContentFields : Variant ApprovalContent (ApprovalInner × ℕ) :=
  .record (fun f => ⟨f.1, f.2⟩) (fun c => (c.inner, c.targetHeight)) (fun _ => rfl) fun _ => rfl

def approvalContent : Format ApprovalContent := (approvalInner.pair u64).via approvalContentFields

def approvalFields : Variant Approval (ApprovalContent × Signature) :=
  .record (fun f => ⟨f.1, f.2⟩) (fun a => (a.content, a.signature)) (fun _ => rfl) fun _ => rfl

def approval : Format Approval := (approvalContent.pair signature).via approvalFields

def SizedInner : ApprovalInner → Prop
  | .endorsement _ => True
  | .skip parentHeight => parentHeight < 2 ^ 64

theorem approvalInner_fits (inner : ApprovalInner) :
    approvalInner.Fits inner ↔ SizedInner inner := by
  cases inner with
  | endorsement parentHash =>
    refine (Format.enum_fits approvalInnerKey approvalInnerVariants _ _ _ _ rfl).trans ?_
    exact (Format.via_fits word endorsementVariant parentHash).trans (by simp [SizedInner])
  | skip parentHeight =>
    refine (Format.enum_fits approvalInnerKey approvalInnerVariants _ _ _ _ rfl).trans ?_
    exact (Format.via_fits u64 skipVariant parentHeight).trans (u64_fits parentHeight)

theorem approval_fits (a : Approval) :
    approval.Fits a ↔ SizedInner a.content.inner ∧ a.content.targetHeight < 2 ^ 64 := by
  have happroval := Format.via_fits (approvalContent.pair signature) approvalFields
    (a.content, a.signature)
  have hcontent := Format.via_fits (approvalInner.pair u64) approvalContentFields
    (a.content.inner, a.content.targetHeight)
  refine happroval.trans ?_
  rw [Format.pair_fits]
  refine (and_iff_left (signature_fits a.signature)).trans (hcontent.trans ?_)
  simp only [Format.pair_fits, approvalInner_fits, u64_fits]

end Approvals

section Snapshots

def slowVariant : Variant SnapshotKind Unit where
  build := fun _ => .slow
  take
    | .slow => some ()
    | .fast => none
  take_iff := by
    intro a b
    cases a <;> simp

def fastVariant : Variant SnapshotKind Unit where
  build := fun _ => .fast
  take
    | .fast => some ()
    | .slow => none
  take_iff := by
    intro a b
    cases a <;> simp

def snapshotKindKey : SnapshotKind → ℕ
  | .slow => 0
  | .fast => 1

def snapshotKindVariants : List (Format SnapshotKind) :=
  [Format.empty.via slowVariant, Format.empty.via fastVariant]

def snapshotKind : Format SnapshotKind :=
  Format.enum snapshotKindKey snapshotKindVariants
    ⟨Format.via_keyed _ _ _ _ fun _ => rfl, Format.via_keyed _ _ _ _ fun _ => rfl, trivial⟩
    (by simp [snapshotKindVariants])

def snapshotRequestFields : Variant SnapshotRequest (ℕ × ℕ × ℕ × SnapshotKind) :=
  .record (fun f => ⟨f.1, f.2.1, f.2.2.1, f.2.2.2⟩)
    (fun r => (r.snapshotId, r.fromHeight, r.toHeight, r.kind)) (fun _ => rfl) fun _ => rfl

def snapshotRequest : Format SnapshotRequest :=
  (u64.pair <| u64.pair <| u64.pair snapshotKind).via snapshotRequestFields

def snapshotAcceptFields : Variant SnapshotAccept (ℕ × ℕ × ℕ × SnapshotKind) :=
  .record (fun f => ⟨f.1, f.2.1, f.2.2.1, f.2.2.2⟩)
    (fun a => (a.snapshotId, a.fromHeight, a.toHeight, a.kind)) (fun _ => rfl) fun _ => rfl

def snapshotAccept : Format SnapshotAccept :=
  (u64.pair <| u64.pair <| u64.pair snapshotKind).via snapshotAcceptFields

def snapshotChunkSlowFields : Variant SnapshotChunkSlow (ℕ × List Block) :=
  .record (fun f => ⟨f.1, f.2⟩) (fun c => (c.snapshotId, c.chunk)) (fun _ => rfl) fun _ => rfl

def snapshotChunkSlow : Format SnapshotChunkSlow :=
  (u64.pair (vec block)).via snapshotChunkSlowFields

def snapshotChunkFastFields : Variant SnapshotChunkFast (ℕ × Option Block × List Element) :=
  .record (fun f => ⟨f.1, f.2.1, f.2.2⟩) (fun c => (c.snapshotId, c.block, c.elements))
    (fun _ => rfl) fun _ => rfl

def snapshotChunkFast : Format SnapshotChunkFast :=
  (u64.pair <| (option block).pair <| vec word).via snapshotChunkFastFields

def slowChunkVariant : Variant SnapshotChunk SnapshotChunkSlow where
  build := .slow
  take
    | .slow chunk => some chunk
    | .fast _ => none
  take_iff := by
    intro a b
    cases a <;> simp [eq_comm]

def fastChunkVariant : Variant SnapshotChunk SnapshotChunkFast where
  build := .fast
  take
    | .fast chunk => some chunk
    | .slow _ => none
  take_iff := by
    intro a b
    cases a <;> simp [eq_comm]

def snapshotChunkKey : SnapshotChunk → ℕ
  | .slow _ => 0
  | .fast _ => 1

def snapshotChunkVariants : List (Format SnapshotChunk) :=
  [snapshotChunkSlow.via slowChunkVariant, snapshotChunkFast.via fastChunkVariant]

def snapshotChunk : Format SnapshotChunk :=
  Format.enum snapshotChunkKey snapshotChunkVariants
    ⟨Format.via_keyed _ _ _ _ fun _ => rfl, Format.via_keyed _ _ _ _ fun _ => rfl, trivial⟩
    (by simp [snapshotChunkVariants])

def SizedChunk : SnapshotChunk → Prop
  | .slow chunk => chunk.snapshotId < 2 ^ 64 ∧ chunk.chunk.length < 2 ^ 32 ∧
      ∀ b ∈ chunk.chunk, SizedBlock b
  | .fast chunk => chunk.snapshotId < 2 ^ 64 ∧ (∀ b ∈ chunk.block, SizedBlock b) ∧
      chunk.elements.length < 2 ^ 32

theorem snapshotKind_fits (kind : SnapshotKind) : snapshotKind.Fits kind := by
  cases kind <;> rfl

theorem snapshotRequest_fits (r : SnapshotRequest) : snapshotRequest.Fits r ↔
    r.snapshotId < 2 ^ 64 ∧ r.fromHeight < 2 ^ 64 ∧ r.toHeight < 2 ^ 64 := by
  have h := Format.via_fits (u64.pair <| u64.pair <| u64.pair snapshotKind) snapshotRequestFields
    (r.snapshotId, r.fromHeight, r.toHeight, r.kind)
  refine h.trans ?_
  simp only [Format.pair_fits, u64_fits, snapshotKind_fits, and_true]

theorem snapshotAccept_fits (a : SnapshotAccept) : snapshotAccept.Fits a ↔
    a.snapshotId < 2 ^ 64 ∧ a.fromHeight < 2 ^ 64 ∧ a.toHeight < 2 ^ 64 := by
  have h := Format.via_fits (u64.pair <| u64.pair <| u64.pair snapshotKind) snapshotAcceptFields
    (a.snapshotId, a.fromHeight, a.toHeight, a.kind)
  refine h.trans ?_
  simp only [Format.pair_fits, u64_fits, snapshotKind_fits, and_true]

theorem snapshotChunk_fits (chunk : SnapshotChunk) :
    snapshotChunk.Fits chunk ↔ SizedChunk chunk := by
  cases chunk with
  | slow chunk =>
    have hfields := Format.via_fits (u64.pair (vec block)) snapshotChunkSlowFields
      (chunk.snapshotId, chunk.chunk)
    refine (Format.enum_fits snapshotChunkKey snapshotChunkVariants _ _ _ _ rfl).trans ?_
    refine (Format.via_fits snapshotChunkSlow slowChunkVariant chunk).trans (hfields.trans ?_)
    simp only [Format.pair_fits, u64_fits, vec_fits, block_fits, SizedChunk]
  | fast chunk =>
    have hfields := Format.via_fits (u64.pair <| (option block).pair <| vec word)
      snapshotChunkFastFields (chunk.snapshotId, chunk.block, chunk.elements)
    refine (Format.enum_fits snapshotChunkKey snapshotChunkVariants _ _ _ _ rfl).trans ?_
    refine (Format.via_fits snapshotChunkFast fastChunkVariant chunk).trans (hfields.trans ?_)
    simp only [Format.pair_fits, u64_fits, vec_fits, option_fits, block_fits, word_fits,
      SizedChunk, implies_true, and_true]

end Snapshots

section Events

def approvalEvent : Variant NetworkEvent Approval where
  build := .approval
  take
    | .approval approval => some approval
    | _ => none
  take_iff := by
    intro a b
    cases a <;> simp [eq_comm]

def blockEvent : Variant NetworkEvent Block where
  build := .block
  take
    | .block block => some block
    | _ => none
  take_iff := by
    intro a b
    cases a <;> simp [eq_comm]

def transactionEvent : Variant NetworkEvent UtxoProof where
  build := .transaction
  take
    | .transaction txn => some txn
    | _ => none
  take_iff := by
    intro a b
    cases a <;> simp [eq_comm]

def snapshotRequestEvent : Variant NetworkEvent SnapshotRequest where
  build := .snapshotRequest
  take
    | .snapshotRequest request => some request
    | _ => none
  take_iff := by
    intro a b
    cases a <;> simp [eq_comm]

def snapshotOfferEvent : Variant NetworkEvent ℕ where
  build := .snapshotOffer
  take
    | .snapshotOffer snapshotId => some snapshotId
    | _ => none
  take_iff := by
    intro a b
    cases a <;> simp [eq_comm]

def snapshotAcceptEvent : Variant NetworkEvent SnapshotAccept where
  build := .snapshotAccept
  take
    | .snapshotAccept accept => some accept
    | _ => none
  take_iff := by
    intro a b
    cases a <;> simp [eq_comm]

def snapshotChunkEvent : Variant NetworkEvent SnapshotChunk where
  build := .snapshotChunk
  take
    | .snapshotChunk chunk => some chunk
    | _ => none
  take_iff := by
    intro a b
    cases a <;> simp [eq_comm]

def networkEventKey : NetworkEvent → ℕ
  | .approval _ => 0
  | .block _ => 1
  | .transaction _ => 2
  | .snapshotRequest _ => 3
  | .snapshotOffer _ => 4
  | .snapshotAccept _ => 5
  | .snapshotChunk _ => 6

def networkEventVariants : List (Format NetworkEvent) :=
  [approval.via approvalEvent, block.via blockEvent, utxoProof.via transactionEvent,
    snapshotRequest.via snapshotRequestEvent, u64.via snapshotOfferEvent,
    snapshotAccept.via snapshotAcceptEvent, snapshotChunk.via snapshotChunkEvent]

theorem networkEvents_keyed : Format.Keyed networkEventKey 0 networkEventVariants :=
  ⟨Format.via_keyed _ _ _ _ fun _ => rfl, Format.via_keyed _ _ _ _ fun _ => rfl,
    Format.via_keyed _ _ _ _ fun _ => rfl, Format.via_keyed _ _ _ _ fun _ => rfl,
    Format.via_keyed _ _ _ _ fun _ => rfl, Format.via_keyed _ _ _ _ fun _ => rfl,
    Format.via_keyed _ _ _ _ fun _ => rfl, trivial⟩

def networkEvent : Format NetworkEvent :=
  Format.enum networkEventKey networkEventVariants networkEvents_keyed
    (by simp [networkEventVariants])

/-- The events whose numbers and lists a machine can hold and count. -/
def SizedEvent : NetworkEvent → Prop
  | .approval a => SizedInner a.content.inner ∧ a.content.targetHeight < 2 ^ 64
  | .block b => SizedBlock b
  | .transaction t => t.proof.length < 2 ^ 32
  | .snapshotRequest r => r.snapshotId < 2 ^ 64 ∧ r.fromHeight < 2 ^ 64 ∧ r.toHeight < 2 ^ 64
  | .snapshotOffer snapshotId => snapshotId < 2 ^ 64
  | .snapshotAccept a => a.snapshotId < 2 ^ 64 ∧ a.fromHeight < 2 ^ 64 ∧ a.toHeight < 2 ^ 64
  | .snapshotChunk chunk => SizedChunk chunk

theorem networkEvent_fits (event : NetworkEvent) : networkEvent.Fits event ↔ SizedEvent event := by
  have hvariant : ∀ {α : Type} (f : Format α) (v : Variant NetworkEvent α) (a : α),
      networkEventVariants[networkEventKey (v.build a)]? = some (f.via v) →
        (networkEvent.Fits (v.build a) ↔ f.Fits a) := fun f v a hv =>
    (Format.enum_fits networkEventKey networkEventVariants _ _ _ _ hv).trans (f.via_fits v a)
  cases event with
  | approval a => exact (hvariant approval approvalEvent a rfl).trans (approval_fits a)
  | block b => exact (hvariant block blockEvent b rfl).trans (block_fits b)
  | transaction t => exact (hvariant utxoProof transactionEvent t rfl).trans (utxoProof_fits t)
  | snapshotRequest r =>
    exact (hvariant snapshotRequest snapshotRequestEvent r rfl).trans (snapshotRequest_fits r)
  | snapshotOffer snapshotId =>
    exact (hvariant u64 snapshotOfferEvent snapshotId rfl).trans (u64_fits snapshotId)
  | snapshotAccept a =>
    exact (hvariant snapshotAccept snapshotAcceptEvent a rfl).trans (snapshotAccept_fits a)
  | snapshotChunk chunk =>
    exact (hvariant snapshotChunk snapshotChunkEvent chunk rfl).trans (snapshotChunk_fits chunk)

end Events

end PayyRollup.WireFormats
