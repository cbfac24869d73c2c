import PayyRollup.RollupState
import PayyRollup.SmirkTree

/-!
Transactions and blocks of the node, the byte strings they are hashed over, and the block
store. Heights are 64-bit numbers. The store keeps the blocks by height and the greatest
height; its other indexes are left out, since no function here reads them. The verifier of
a proof may panic on bytes it cannot read, and recovering a signer may panic on a scalar
that is too large.
-/
namespace PayyRollup.NodeBlocks

open ScalarField VerifierContracts RollupState SmirkTree

abbrev CryptoHash := BitVec 256

/-- The compact signature, then the recovery id. -/
abbrev Signature := Vector UInt8 65

/-- The next height; the machine integer wraps around. -/
def nextHeight (height : ℕ) : ℕ := (height + 1) % 2 ^ 64

/-- The big-endian bytes of a number. -/
def beBytes (count x : ℕ) : Bytes :=
  (List.range count).map fun i => UInt8.ofNat (x / 256 ^ (count - 1 - i))

def leBytes (count x : ℕ) : Bytes :=
  (List.range count).map fun i => UInt8.ofNat (x / 256 ^ i)

def fromBeBytes (bytes : Bytes) : ℕ := bytes.foldl (fun x b => 256 * x + b.toNat) 0

@[simp] theorem beBytes_length (count x : ℕ) : (beBytes count x).length = count := by
  simp [beBytes]

theorem beBytes_succ (count x : ℕ) :
    beBytes (count + 1) x = beBytes count (x / 256) ++ [UInt8.ofNat x] := by
  unfold beBytes
  rw [List.range_succ, List.map_append, List.map_singleton]
  congr 1
  · apply List.map_congr_left
    intro i hi
    rw [List.mem_range] at hi
    rw [Nat.div_div_eq_div_mul, ← Nat.pow_succ', show count + 1 - 1 - i = count - 1 - i + 1 by omega]
  · simp

/-- The big-endian bytes determine a number that fits. -/
theorem fromBeBytes_beBytes (count x : ℕ) (h : x < 256 ^ count) :
    fromBeBytes (beBytes count x) = x := by
  induction count generalizing x with
  | zero =>
    rw [pow_zero] at h
    have hzero : x = 0 := by omega
    simp [hzero, beBytes, fromBeBytes]
  | succ count ih =>
    have hdiv : x / 256 < 256 ^ count := by
      rw [Nat.pow_succ] at h
      exact Nat.div_lt_of_lt_mul (by omega)
    have hlast : (UInt8.ofNat x).toNat = x % 256 := UInt8.toNat_ofNat'
    rw [beBytes_succ, fromBeBytes, List.foldl_append]
    change 256 * fromBeBytes (beBytes count (x / 256)) + (UInt8.ofNat x).toNat = x
    rw [ih _ hdiv, hlast]
    omega

theorem beBytes_inj (count a b : ℕ) (ha : a < 256 ^ count) (hb : b < 256 ^ count)
    (h : beBytes count a = beBytes count b) : a = b := by
  rw [← fromBeBytes_beBytes count a ha, h, fromBeBytes_beBytes count b hb]

inductive Mode
  | validator
  | node
  | prover
  | mockProver
  deriving DecidableEq

def Mode.isProver : Mode → Bool
  | prover | mockProver => true
  | validator | node => false

/-- What a node calls: hashes, the verifier of UTXO proofs and the recovery of a key. -/
structure NodeEnv where
  keccak256 : Bytes → CryptoHash
  poseidon : List Fr → Fr
  verifyProof : List Fr → Bytes → Option Bool
  recoverEcdsa : CryptoHash → ℕ → Element → Element → Option Address

structure UtxoProof where
  recentRoot : Element
  mbHash : Element
  mbValue : Element
  inputLeaves : Element × Element
  outputLeaves : Element × Element
  proof : Bytes
  deriving DecidableEq

structure BlockHeader where
  height : ℕ
  lastBlockHash : CryptoHash
  epochId : ℕ
  lastFinalBlockHash : CryptoHash
  approvals : List Signature
  deriving DecidableEq

structure BlockState where
  rootHash : Element
  txns : List UtxoProof
  deriving DecidableEq

structure BlockContent where
  header : BlockHeader
  state : BlockState
  deriving DecidableEq

structure Block where
  content : BlockContent
  signature : Signature
  deriving DecidableEq

inductive Error
  | invalidProof
  | noteAlreadySpent (spentNote : Element) (failingTxnHash : CryptoHash)
  | leafAlreadyInsertedInTheSameBlock (insertedLeaf : Element)
      (txnHash failingTxnHash : CryptoHash)
  | outputNoteExists (outputNote : Element)
  | invalidElementSize (element : Element)
  | utxoRootIsNotRecentEnough (utxoRecentRoot : Element) (recentRoots : List Element)
      (txnHash : CryptoHash)
  | mintIsNotInTheContract (key : Element)
  | burnIsNotInTheContract (key : Element)
  | invalidMintOrBurnLeaves
  | invalidSignature
  | invalidTransaction (txn : CryptoHash)
  | invalidBlockRoot (got expected : Element)
  | failedToGetEthBlockNumber
  | blockStore
  | smirk (source : StorageError)
  | contracts
  | collision (source : CollisionError)
  deriving DecidableEq

section Transactions

variable (env : NodeEnv)

def UtxoProof.leaves (self : UtxoProof) : List Element :=
  [self.inputLeaves.1, self.inputLeaves.2, self.outputLeaves.1, self.outputLeaves.2]

def UtxoProof.instances (self : UtxoProof) : List Element :=
  [self.recentRoot, self.mbHash, self.mbValue] ++ self.leaves

/-- The hash does not depend on the order of the leaves of a side. -/
def UtxoProof.hash (self : UtxoProof) : CryptoHash :=
  let sorted := fun leaves : Element × Element =>
    [leaves.1, leaves.2].mergeSort fun a b => decide (a ≤ b)
  env.keccak256 <| ([self.recentRoot, self.mbHash, self.mbValue] ++ sorted self.inputLeaves ++
    sorted self.outputLeaves).flatMap fun e => beBytes 32 e.toNat

/-- The verifier reads the instances modulo the prime. -/
def UtxoProof.verify (self : UtxoProof) : Option Bool :=
  env.verifyProof (self.instances.map Element.toBase) self.proof

end Transactions

section Blocks

variable (env : NodeEnv)

def BlockState.leaves (self : BlockState) : List Element := self.txns.flatMap UtxoProof.leaves

def nonNull (leaves : List Element) : List Element :=
  leaves.filter fun e => decide (e ≠ Element.nullHash)

def BlockState.leavesNonNull (self : BlockState) : List Element := nonNull self.leaves

def BlockContent.genesis : BlockContent :=
  ⟨⟨0, 0#256, 0, 0#256, []⟩, ⟨Element.zero, []⟩⟩

def Block.genesis : Block := ⟨BlockContent.genesis, Vector.replicate 65 0⟩

def BlockHeader.toVec (self : BlockHeader) : Bytes :=
  leBytes 8 self.height ++ beBytes 32 self.lastBlockHash.toNat ++ leBytes 8 self.epochId ++
    beBytes 32 self.lastFinalBlockHash.toNat ++ leBytes 4 self.approvals.length ++
    self.approvals.flatMap Vector.toList

def BlockContent.headerHash (self : BlockContent) : CryptoHash :=
  env.keccak256 self.header.toVec

/-- The root, the height and the hash of the header, each as a word. -/
def BlockContent.message (self : BlockContent) : Bytes :=
  beBytes 32 self.state.rootHash.toNat ++ beBytes 32 self.header.height ++
    beBytes 32 (self.headerHash env).toNat

def BlockContent.hash (self : BlockContent) : CryptoHash := env.keccak256 (self.message env)

def Block.hash (self : Block) : CryptoHash := self.content.hash env

def Block.height (self : Block) : ℕ := self.content.header.height

def Block.rootHash (self : Block) : Element := self.content.state.rootHash

end Blocks

section Signatures

variable (env : NodeEnv)

/-- The order of the group of the signatures. -/
def curveOrder : ℕ := 0xFFFFFFFFFFFFFFFFFFFFFFFFFFFFFFFEBAAEDCE6AF48A03BBFD25E8CD0364141

def network : Bytes := "Polybase".toUTF8.toList

/-- The bytes a signer signs for a message. -/
def signedMessage (msg : CryptoHash) : Bytes :=
  beBytes 8 network.length ++ network ++ beBytes 32 msg.toNat

namespace Signature

def r (self : Signature) : Element := BitVec.ofNat 256 (fromBeBytes (self.toList.take 32))

def s (self : Signature) : Element :=
  BitVec.ofNat 256 (fromBeBytes ((self.toList.drop 32).take 32))

def recoveryId (self : Signature) : ℕ := self[64].toNat

/-- The signer of a message, if any; a scalar that is not below the order panics. -/
def verify (self : Signature) (msg : CryptoHash) : Outcome Unit Address :=
  if 4 ≤ self.recoveryId then .error (.err ())
  else if curveOrder ≤ self.r.toNat ∨ curveOrder ≤ self.s.toNat then .error .panic
  else
    match env.recoverEcdsa (env.keccak256 (signedMessage msg)) self.recoveryId self.r self.s with
    | some address => .ok address
    | none => .error (.err ())

end Signature

inductive ApprovalInner
  | endorsement (parentHash : CryptoHash)
  | skip (parentHeight : ℕ)
  deriving DecidableEq

structure ApprovalContent where
  inner : ApprovalInner
  targetHeight : ℕ
  deriving DecidableEq

/-- The hash of an endorsement; hashing a skip is not implemented and panics. -/
def ApprovalContent.hash (self : ApprovalContent) : Option CryptoHash :=
  match self.inner with
  | .endorsement parentHash =>
      some (env.keccak256 (beBytes 32 self.targetHeight ++ beBytes 32 parentHash.toNat))
  | .skip _ => none

end Signatures

structure BlockStore where
  blocks : ℕ → Option Block
  maxHeight : Option ℕ

namespace BlockStore

def empty : BlockStore := ⟨fun _ => none, none⟩

/-- One write: the block under its height, and the height if it is the greatest. -/
def set (self : BlockStore) (block : Block) : BlockStore :=
  { blocks := Function.update self.blocks block.height (some block)
    maxHeight :=
      if self.maxHeight.all fun maxHeight => decide (maxHeight < block.height) then
        some block.height
      else self.maxHeight }

def get (self : BlockStore) (height : ℕ) : Option Block := self.blocks height

/-- The stored blocks from a height up to and without another. -/
def list (self : BlockStore) (start stop : ℕ) : List Block :=
  (List.range' start (stop - start)).filterMap self.blocks

variable (self : BlockStore) (block : Block)

@[simp] theorem set_get_self : (self.set block).get block.height = some block := by
  simp [set, get]

theorem set_get_of_ne (height : ℕ) (h : height ≠ block.height) :
    (self.set block).get height = self.get height := by
  simp [set, get, h]

theorem mem_list (start stop : ℕ) :
    block ∈ self.list start stop ↔
      ∃ height, start ≤ height ∧ height < stop ∧ self.get height = some block := by
  unfold list get
  rw [List.mem_filterMap]
  constructor
  · rintro ⟨height, hmem, hget⟩
    obtain ⟨hstart, hstop⟩ := List.mem_range'_1.mp hmem
    exact ⟨height, hstart, by omega, hget⟩
  · rintro ⟨height, hstart, hstop, hget⟩
    exact ⟨height, List.mem_range'_1.mpr ⟨hstart, by omega⟩, hget⟩

/-- A block above every stored one becomes the greatest. -/
theorem set_maxHeight (h : ∀ height, self.maxHeight = some height → height < block.height) :
    (self.set block).maxHeight = some block.height := by
  unfold set
  cases hmax : self.maxHeight with
  | none => simp
  | some height => simp [h height hmax]

end BlockStore

theorem mem_nonNull (leaves : List Element) (e : Element) :
    e ∈ nonNull leaves ↔ e ∈ leaves ∧ e ≠ Element.nullHash := by
  rw [nonNull, List.mem_filter, decide_eq_true_eq]

theorem nonNull_append (leaves leaves' : List Element) :
    nonNull (leaves ++ leaves') = nonNull leaves ++ nonNull leaves' := List.filter_append ..

theorem nonNull_cons (leaf : Element) (leaves : List Element) :
    nonNull (leaf :: leaves) =
      if leaf = 0#256 then nonNull leaves else leaf :: nonNull leaves := by
  unfold nonNull
  by_cases h : leaf = 0#256
  · rw [if_pos h, List.filter_cons_of_neg]
    intro hne
    exact of_decide_eq_true hne h
  · rw [if_neg h, List.filter_cons_of_pos]
    exact decide_eq_true h

/-- A block that is hashed over one of these messages, with a 64-bit height. -/
structure Hashed (env : NodeEnv) (messages : Set Bytes) (block : Block) : Prop where
  message : block.content.message env ∈ messages
  height : block.height < 2 ^ 64

/-- Without collisions among the messages a hash determines the height. -/
theorem height_of_hash {env : NodeEnv} {messages : Set Bytes}
    (hkeccak : Set.InjOn env.keccak256 messages) (a b : Block) (ha : Hashed env messages a)
    (hb : Hashed env messages b) (h : a.hash env = b.hash env) : a.height = b.height := by
  have hmessage := hkeccak ha.message hb.message h
  unfold BlockContent.message at hmessage
  obtain ⟨hfront, -⟩ := List.append_inj hmessage (by simp)
  obtain ⟨-, hheight⟩ := List.append_inj hfront (by simp)
  have hpow : (2 : ℕ) ^ 64 < 256 ^ 32 := by norm_num
  exact beBytes_inj 32 _ _ (ha.height.trans hpow) (hb.height.trans hpow) hheight

end PayyRollup.NodeBlocks
