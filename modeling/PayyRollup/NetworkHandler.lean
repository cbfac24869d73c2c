import Mathlib.Data.List.Sort
import PayyRollup.ApprovalArithmetic
import PayyRollup.Mempool
import PayyRollup.SnapshotSenders
import PayyRollup.SyncWorker
import PayyRollup.ValidatorSets

/-!
The handler of network events. It takes the events of the peers one by one, and a panic in an
event ends it for good. Between two events the other tasks of the node may change everything but
the approvals, which only the handler touches. Some events panic: a validator that gets a block, or
as the leader of the target height an approval of a skip or with a scalar that is too large; a
transaction whose proof cannot be read; a snapshot request for an empty cache; and an accepted
snapshot whose range ends before it starts. The conditions on the events are exact.
-/
namespace PayyRollup.NetworkHandler

open ScalarField VerifierContracts RollupState SmirkTree NodeBlocks BlockCaches BlockValidation
  NodeAdmission FastSync Mempool Approvals ApprovalStakes ApprovalArithmetic ValidatorSets PrefixRuns
open BlockCommit (freshLedger Ledger trustingEnv)
open ChainHistory (MarkedNode)
open NodeRuns (Config leaderForBlockHeight receiveProposal)
open SnapshotSenders (sendSnapshotChunkFast)
open SyncWorker (SnapshotKind SnapshotRequest SnapshotAccept SnapshotChunk SnapshotChunkSlow
  Message addHeights)

structure Approval where
  content : ApprovalContent
  signature : NodeBlocks.Signature

inductive NetworkEvent
  | approval (approval : Approval)
  | block (block : Block)
  | transaction (txn : UtxoProof)
  | snapshotRequest (request : SnapshotRequest)
  | snapshotOffer (snapshotId : SnapshotId)
  | snapshotAccept (accept : SnapshotAccept)
  | snapshotChunk (chunk : SnapshotChunk)

inductive Error
  | invalidSignature
  | channelWasClosed
  | blockStore

/-- An error with what the handler was doing. -/
structure HandlerError where
  context : String
  source : Error

/-- The sets of validators that are known; their lists fit in memory. -/
structure KnownSets where
  sets : List ValidatorSet
  fits : ∀ set ∈ sets, set.validatorsArray.length < 2 ^ 64

/-- The node that its tasks share. The worker that syncs has a channel until it ends. -/
structure NodeShared (D : ℕ) (S : Type) where
  node : MarkedNode D
  mempool : MempoolState CryptoHash UtxoProof ℕ Element S
  doomslug : Doomslug
  validatorSets : KnownSets
  syncWorker : Option (List Message)

/-- What the world outside decides while an event is handled: the two clocks, the answers of the
contract, and whether the block store can be read. -/
structure Input where
  now : ℕ
  arrival : ℕ
  contract : ContractView
  storeRead : Bool

/-- The state after an event, what was sent and how the event ended. -/
structure Handled (D : ℕ) (S : Type) where
  node : NodeShared D S
  sent : List (PeerId × NetworkEvent)
  outcome : Outcome HandlerError Unit

variable {D : ℕ} {S : Type}

namespace NodeShared

def height (self : NodeShared D S) : ℕ := self.node.height

def blockCache (self : NodeShared D S) : BlockCache := self.node.node.blockCache

end NodeShared

section Handlers

variable (env : NodeEnv) (config : Config) (overflowChecks : Bool)

/-- The hash of the content is computed before the signature is looked at. -/
def validated (approval : Approval) : Outcome Error ApprovalValidated :=
  match approval.content.hash env with
  | none => .error .panic
  | some hash =>
      match approval.signature.verify env hash with
      | .error .panic => .error .panic
      | .error (.err ()) => .error (.err .invalidSignature)
      | .ok validator => .ok ⟨approval.content, approval.signature, validator⟩

/-- Process an approval; a height in reach asserts that its validators are distinct. -/
def onApproval (self : Doomslug) (now arrival : ℕ) (approval : ApprovalValidated)
    (stakes : List (ApprovalStake × Bool)) : Doomslug × Outcome Error Unit :=
  let target := approval.content.targetHeight
  let tracked := self.onApproval now arrival approval stakes
  if overflowChecks = true ∧ approvalOverflows self approval stakes = true then
    (tracked, .error .panic)
  else if target < self.tip.height ∨ lastHeightToStore self.tip.height < target then
    (tracked, .ok ())
  else
    match (self.onApprovalInternal now arrival approval stakes).2 with
    | none => (tracked, .error .panic)
    | some _ => (tracked, .ok ())

/-- Receive an accept, as the leader of its target height. -/
def receiveAccept (approval : Approval) (input : Input) (self : NodeShared D S) :
    NodeShared D S × Outcome Error Unit :=
  let target := approval.content.targetHeight
  if config.mode ≠ Mode.validator then (self, .ok ())
  else
    match validatorsForHeight self.validatorSets.sets target with
    | none => (self, .error .panic)
    | some validators =>
        match leaderForBlockHeight validators target with
        | none => (self, .error .panic)
        | some leader =>
            if leader ≠ config.address then (self, .ok ())
            else
              match validated env approval with
              | .error failure => (self, .error failure)
              | .ok approval =>
                  let processed := onApproval overflowChecks self.doomslug input.now input.arrival
                    approval (unitStakes validators)
                  ({ self with doomslug := processed.1 }, processed.2)

/-- A block goes into the cache, and its transactions are leased to its height; then the ticker is
woken, which is a task of its own. -/
def receiveBlock (block : Block) (self : NodeShared D S) : NodeShared D S × Outcome Error Unit :=
  if config.mode = Mode.validator then (self, .error .panic)
  else
    ({ self with
      node := { self.node with node := receiveProposal env config block self.node.node }
      mempool := self.mempool.leaseTxns block.height
        (block.content.state.txns.map fun txn => txn.hash env) }, .ok ())

/-- What the contract says of a transaction that names a mint or burn. -/
def checkMintOrBurn (contract : ContractView) (txn : UtxoProof) :
    Outcome NodeBlocks.Error Unit :=
  if txn.mbHash ≠ 0#256 ∧ txn.mbValue ≠ 0#256 then do
    let ethBlock ← query .failedToGetEthBlockNumber contract.blockNumber
    checkContract contract (ethBlock - config.safeEthHeightOffset) txn
  else .ok ()

/-- The checks of a transaction that arrives; the height above that of the node is computed once
the proof is verified. -/
def validateReceived (contract : ContractView) (txn : UtxoProof) (self : NodeShared D S) :
    Outcome NodeBlocks.Error Unit := do
  checkMintOrBurn config contract txn
  if txn.verify env = some true ∧ txn.recentRoot ≠ 0#256 ∧ overflowChecks = true ∧
      2 ^ 64 ≤ self.height + 1 then .error .panic
  else validateTxn env config.mode txn self.height self.node.blockStore self.node.notesTree.tree

/-- A transaction that fails its checks is dropped, also if the recent roots cannot be read. -/
def receiveTransaction (txn : UtxoProof) (input : Input) (self : NodeShared D S) :
    NodeShared D S × Outcome Error Unit :=
  match validateReceived env config overflowChecks input.contract txn self with
  | .error .panic => (self, .error .panic)
  | .error (.err _) => (self, .ok ())
  | .ok () =>
      if input.storeRead = false ∧ txn.recentRoot ≠ 0#256 then (self, .ok ())
      else
        ({ self with mempool := self.mempool.add (txn.hash env) ⟨txn, none, txn.leaves⟩ }, .ok ())

/-- A node that is in sync and has the first height offers a snapshot. -/
def handleSnapshotRequest (peer : PeerId) (request : SnapshotRequest) (self : NodeShared D S) :
    List (PeerId × NetworkEvent) × Outcome Error Unit :=
  match self.blockCache.isOutOfSync overflowChecks with
  | none => ([], .error .panic)
  | some outOfSync =>
      if outOfSync = true ∨ self.height < request.fromHeight then ([], .ok ())
      else ([(peer, .snapshotOffer request.snapshotId)], .ok ())

/-- The cached blocks of a range of heights; a range that ends before it starts panics. -/
def getRange (cache : BlockCache) (start stop : ℕ) : Option (List Block) :=
  if stop < start then none
  else
    let heights := cache.blockHashHeights.keys.filter fun h => decide (start ≤ h ∧ h < stop)
    some ((heights.insertionSort (· ≤ ·)).filterMap cache.getByHeight)

def sendSnapshotChunkSlow (peer : PeerId) (accept : SnapshotAccept) (input : Input)
    (self : NodeShared D S) : List (PeerId × NetworkEvent) × Outcome Error Unit :=
  match addHeights overflowChecks self.height 1 with
  | none => ([], .error .panic)
  | some nextHeight =>
      let toHeight := min accept.toHeight nextHeight
      if input.storeRead = false then ([], .error (.err .blockStore))
      else
        match getRange self.blockCache accept.fromHeight toHeight with
        | none => ([], .error .panic)
        | some pendingProposals =>
            let blocks := self.node.blockStore.list accept.fromHeight toHeight ++ pendingProposals
            ([(peer, .snapshotChunk (.slow ⟨accept.snapshotId, blocks⟩))], .ok ())

def handleSnapshotAccept (peer : PeerId) (accept : SnapshotAccept) (input : Input)
    (self : NodeShared D S) : List (PeerId × NetworkEvent) × Outcome Error Unit :=
  match accept.kind with
  | .slow => sendSnapshotChunkSlow overflowChecks peer accept input self
  | .fast =>
      if input.storeRead = false then ([], .error (.err .blockStore))
      else
        ([(peer, .snapshotChunk
          (.fast (sendSnapshotChunkFast accept.snapshotId accept.toHeight self.node)))], .ok ())

/-- Pass a message on to the worker that syncs. -/
def sendMessage (message : Message) (self : NodeShared D S) :
    NodeShared D S × Outcome Error Unit :=
  match self.syncWorker with
  | none => (self, .error (.err .channelWasClosed))
  | some channel => ({ self with syncWorker := some (channel ++ [message]) }, .ok ())

def withContext (context : String) (outcome : Outcome Error Unit) : Outcome HandlerError Unit :=
  outcome.mapError (Failure.map (HandlerError.mk context))

/-- A call that changes the node. -/
def changed (context : String) (result : NodeShared D S × Outcome Error Unit) : Handled D S :=
  ⟨result.1, [], withContext context result.2⟩

/-- A call that answers the peer. -/
def answered (context : String) (self : NodeShared D S)
    (result : List (PeerId × NetworkEvent) × Outcome Error Unit) : Handled D S :=
  ⟨self, result.1, withContext context result.2⟩

def handleEvent (peer : PeerId) (input : Input) (self : NodeShared D S) :
    NetworkEvent → Handled D S
  | .approval approval =>
      changed "Accept failed" (receiveAccept env config overflowChecks approval input self)
  | .block block => changed "Failed to process block" (receiveBlock env config block self)
  | .transaction txn =>
      changed "Transaction failed" (receiveTransaction env config overflowChecks txn input self)
  | .snapshotRequest request =>
      answered "Snapshot request failed" self
        (handleSnapshotRequest overflowChecks peer request self)
  | .snapshotOffer snapshotId =>
      changed "Snapshot offer failed" (sendMessage (.snapshotOffer peer snapshotId) self)
  | .snapshotChunk chunk =>
      changed "Snapshot chunk failed" (sendMessage (.snapshotChunk peer chunk) self)
  | .snapshotAccept accept =>
      answered "Snapshot accept failed" self
        (handleSnapshotAccept overflowChecks peer accept input self)

end Handlers

section Conditions

variable (env : NodeEnv) (config : Config) (overflowChecks : Bool)

/-- The height above that of the node, if it is checked, is a height of 64 bits. -/
def NextFits (self : NodeShared D S) : Prop := overflowChecks = true → self.height + 1 < 2 ^ 64

/-- An endorsement with scalars in their range. -/
structure Readable (approval : Approval) : Prop where
  endorsement : ∃ parentHash, approval.content.inner = .endorsement parentHash
  scalars : 4 ≤ approval.signature.recoveryId ∨
    (approval.signature.r.toNat < curveOrder ∧ approval.signature.s.toNat < curveOrder)

/-- A validator knows validators for the target height; where it leads them, it can read the
approval, and the validators of a height that is stored are distinct. -/
def SafeApproval (approval : Approval) (self : NodeShared D S) : Prop :=
  let target := approval.content.targetHeight
  config.mode = Mode.validator →
    ∃ validators, validatorsForHeight self.validatorSets.sets target = some validators ∧
      validators ≠ [] ∧
      (leaderForBlockHeight validators target = some config.address →
        Readable approval ∧
        ((∃ signed, validated env approval = .ok signed) →
          target ≤ maxHeightsAheadToStoreApprovals → validators.Nodup))

/-- A transaction that the contract knows has a proof that can be read, and the next height
fits once the proof is verified and a recent root is named. -/
def SafeTransaction (contract : ContractView) (txn : UtxoProof) (self : NodeShared D S) : Prop :=
  checkMintOrBurn config contract txn = .ok () →
    txn.verify env ≠ none ∧
    (txn.verify env = some true → txn.recentRoot ≠ 0#256 → NextFits overflowChecks self)

/-- The cache is not empty, and the next height fits if the cache reaches up to the greatest
height that was seen. -/
def SafeRequest (self : NodeShared D S) : Prop :=
  self.blockCache.blockHashHeights.keys ≠ [] ∧
    (self.blockCache.maxHeight ≤ self.blockCache.lastHeight → NextFits overflowChecks self)

/-- The next height fits, and the range of a slow snapshot does not end before it starts. -/
def SafeAccept (accept : SnapshotAccept) (input : Input) (self : NodeShared D S) : Prop :=
  accept.kind = .slow →
    NextFits overflowChecks self ∧
    (input.storeRead = true →
      accept.fromHeight ≤ min accept.toHeight (nextHeight self.height))

/-- The condition on an event and the state of the node before it. -/
def SafeEvent (input : Input) (self : NodeShared D S) : NetworkEvent → Prop
  | .approval approval => SafeApproval env config approval self
  | .block _ => config.mode ≠ Mode.validator
  | .transaction txn => SafeTransaction env config overflowChecks input.contract txn self
  | .snapshotRequest _ => SafeRequest overflowChecks self
  | .snapshotAccept accept => SafeAccept overflowChecks accept input self
  | .snapshotOffer _ | .snapshotChunk _ => True

end Conditions

section Panics

variable {env : NodeEnv} {config : Config} {overflowChecks : Bool}

theorem withContext_panic (context : String) (outcome : Outcome Error Unit) :
    withContext context outcome = .error .panic ↔ outcome = .error .panic := by
  cases outcome with
  | ok u => exact iff_of_false nofun nofun
  | error failure =>
    cases failure with
    | err e => exact iff_of_false nofun nofun
    | panic => exact iff_of_true rfl rfl

theorem verify_panic (signature : NodeBlocks.Signature) (msg : CryptoHash) :
    signature.verify env msg = .error .panic ↔
      ¬(4 ≤ signature.recoveryId ∨
        (signature.r.toNat < curveOrder ∧ signature.s.toNat < curveOrder)) := by
  unfold NodeBlocks.Signature.verify
  by_cases hid : 4 ≤ signature.recoveryId
  · rw [if_pos hid]
    exact iff_of_false nofun fun h => h (Or.inl hid)
  · rw [if_neg hid]
    by_cases hlarge : curveOrder ≤ signature.r.toNat ∨ curveOrder ≤ signature.s.toNat
    · rw [if_pos hlarge]
      refine iff_of_true rfl ?_
      omega
    · rw [if_neg hlarge]
      refine iff_of_false ?_ (by omega)
      split
      · nofun
      · nofun

theorem validated_panic (approval : Approval) :
    validated env approval = .error .panic ↔ ¬Readable approval := by
  unfold validated
  cases hinner : approval.content.inner with
  | skip parentHeight =>
    have hhash : approval.content.hash env = none := by
      unfold ApprovalContent.hash
      rw [hinner]
    rw [hhash]
    refine iff_of_true rfl fun h => ?_
    obtain ⟨parentHash, hendorsed⟩ := h.endorsement
    rw [hinner] at hendorsed
    cases hendorsed
  | endorsement parentHash =>
    obtain ⟨hash, hhash⟩ : ∃ hash, approval.content.hash env = some hash := by
      unfold ApprovalContent.hash
      rw [hinner]
      exact ⟨_, rfl⟩
    have hreadable : Readable approval ↔ 4 ≤ approval.signature.recoveryId ∨
        (approval.signature.r.toNat < curveOrder ∧ approval.signature.s.toNat < curveOrder) :=
      ⟨fun h => h.scalars, fun h => ⟨⟨parentHash, hinner⟩, h⟩⟩
    rw [hhash, hreadable, ← verify_panic approval.signature hash]
    dsimp only
    cases hverify : approval.signature.verify env hash with
    | ok validator => exact iff_of_false nofun nofun
    | error failure =>
      cases failure with
      | err u => exact iff_of_false nofun nofun
      | panic => exact iff_of_true rfl rfl

theorem validated_content {approval : Approval} {signed : ApprovalValidated}
    (h : validated env approval = .ok signed) : signed.content = approval.content := by
  unfold validated at h
  split at h
  · cases h
  split at h
  · cases h
  · cases h
  · cases h
    rfl

/-- The assertion of a processed approval. -/
theorem onApprovalInternal_none (d : Doomslug) (now arrival : ℕ) (approval : ApprovalValidated)
    (stakes : List (ApprovalStake × Bool)) :
    (d.onApprovalInternal now arrival approval stakes).2 = none ↔
      (accountStakes stakes).entries.length ≠ stakes.length := by
  unfold Doomslug.onApprovalInternal DoomslugApprovalsTrackersAtHeight.processApproval
  dsimp only
  by_cases hlength : (accountStakes stakes).entries.length = stakes.length
  · rw [if_neg (not_not_intro hlength)]
    refine iff_of_false ?_ (not_not_intro hlength)
    cases (accountStakes stakes).lookup approval.validator with
    | none => nofun
    | some stake => nofun
  · rw [if_pos hlength]
    exact iff_of_true rfl hlength

/-- The assertion on the validators is reached for the heights that are stored. -/
theorem onApproval_panic {d : Doomslug} (hbounded : Bounded d) {validators : List Address}
    (hfits : validators.length < 2 ^ 64) (now arrival : ℕ) (approval : ApprovalValidated) :
    (onApproval overflowChecks d now arrival approval (unitStakes validators)).2 =
        .error .panic ↔
      ¬(approval.content.targetHeight ≤ maxHeightsAheadToStoreApprovals → validators.Nodup) := by
  unfold onApproval
  dsimp only
  have hlast : lastHeightToStore d.tip.height = maxHeightsAheadToStoreApprovals := by
    rw [hbounded.tip]
    decide
  rw [hbounded.not_approvalOverflows hfits approval, if_neg (by simp), hlast, hbounded.tip]
  by_cases hfar : maxHeightsAheadToStoreApprovals < approval.content.targetHeight
  · rw [if_pos (Or.inr hfar)]
    exact iff_of_false nofun fun h => h fun hle => absurd hfar (by omega)
  · rw [if_neg (by omega), ← entries_length_iff validators]
    have hinternal := onApprovalInternal_none d now arrival approval (unitStakes validators)
    have hnear : approval.content.targetHeight ≤ maxHeightsAheadToStoreApprovals := by omega
    cases hready : (d.onApprovalInternal now arrival approval (unitStakes validators)).2 with
    | none => exact iff_of_true rfl fun h => hinternal.mp hready (h hnear)
    | some readiness =>
      refine iff_of_false nofun fun h => ?_
      rw [hinternal.mpr fun hlength => h fun _ => hlength] at hready
      cases hready

theorem validators_length_lt (self : NodeShared D S) {height : ℕ} {validators : List Address}
    (h : validatorsForHeight self.validatorSets.sets height = some validators) :
    validators.length < 2 ^ 64 := by
  unfold validatorsForHeight at h
  split at h
  · obtain ⟨set, hlast, rfl⟩ := Option.map_eq_some_iff.mp h
    exact self.validatorSets.fits set (List.mem_filter.mp (List.mem_of_getLast? hlast)).1
  · cases h

theorem leader_eq_none (validators : List Address) (height : ℕ) :
    leaderForBlockHeight validators height = none ↔ validators = [] := by
  unfold leaderForBlockHeight
  rw [List.getElem?_eq_none_iff]
  constructor
  · intro hle
    by_contra hne
    have hpos := List.length_pos_iff.mpr hne
    have hlt := Nat.mod_lt height hpos
    omega
  · rintro rfl
    exact Nat.zero_le _

variable {self : NodeShared D S}

theorem receiveAccept_panic (hbounded : Bounded self.doomslug) (approval : Approval)
    (input : Input) :
    (receiveAccept env config overflowChecks approval input self).2 = .error .panic ↔
      ¬SafeApproval env config approval self := by
  unfold receiveAccept SafeApproval
  dsimp only
  by_cases hmode : config.mode = Mode.validator
  · rw [if_neg (not_not_intro hmode)]
    cases hsets : validatorsForHeight self.validatorSets.sets approval.content.targetHeight with
    | none =>
      refine iff_of_true rfl fun h => ?_
      obtain ⟨validators, hvalidators, -⟩ := h hmode
      cases hvalidators
    | some validators =>
      have hfits := validators_length_lt self hsets
      simp only [hmode, forall_const, Option.some.injEq, exists_eq_left']
      cases hleader : leaderForBlockHeight validators approval.content.targetHeight with
      | none =>
        exact iff_of_true rfl fun h => h.1 ((leader_eq_none _ _).mp hleader)
      | some leader =>
        have hne : validators ≠ [] := by
          intro hnil
          rw [(leader_eq_none _ _).mpr hnil] at hleader
          cases hleader
        dsimp only
        by_cases hown : leader = config.address
        · rw [if_neg (not_not_intro hown)]
          have hpanic := @validated_panic env approval
          cases hvalidated : validated env approval with
          | error failure =>
            rw [hvalidated, Except.error.injEq] at hpanic
            dsimp only
            rw [Except.error.injEq]
            constructor
            · intro hfailed h
              exact hpanic.mp hfailed (h.2 (congrArg some hown)).1
            · intro hunsafe
              refine hpanic.mpr fun hreadable => hunsafe ⟨hne, fun _ => ⟨hreadable, ?_⟩⟩
              intro hsigned
              obtain ⟨signed, hsigned⟩ := hsigned
              cases hsigned
          | ok signed =>
            rw [hvalidated] at hpanic
            have hreadable : Readable approval := by
              by_contra h
              cases hpanic.mpr h
            dsimp only
            rw [onApproval_panic hbounded hfits, validated_content hvalidated]
            constructor
            · intro h hsafe
              exact h ((hsafe.2 (congrArg some hown)).2 ⟨signed, rfl⟩)
            · intro hunsafe hdistinct
              exact hunsafe ⟨hne, fun _ => ⟨hreadable, fun _ => hdistinct⟩⟩
        · rw [if_pos hown]
          refine iff_of_false nofun (not_not_intro ⟨hne, fun h => ?_⟩)
          exact absurd (Option.some.inj h) hown
  · rw [if_pos hmode]
    exact iff_of_false nofun (not_not_intro fun h => absurd h hmode)

theorem receiveBlock_panic (block : Block) :
    (receiveBlock env config block self).2 = .error .panic ↔
      ¬config.mode ≠ Mode.validator := by
  unfold receiveBlock
  by_cases hmode : config.mode = Mode.validator
  · rw [if_pos hmode]
    exact iff_of_true rfl (not_not_intro hmode)
  · rw [if_neg hmode]
    exact iff_of_false nofun (not_not_intro hmode)

theorem checkContract_no_panic (contract : ContractView) (safeEthHeight : ℕ) (txn : UtxoProof) :
    checkContract contract safeEthHeight txn ≠ .error .panic := by
  unfold checkContract
  split_ifs
  · cases contract.getMint safeEthHeight txn.outputLeaves.1 with
    | none => nofun
    | some mint =>
      dsimp only [query, bind, Except.bind]
      split_ifs
      · nofun
      · nofun
  · cases contract.hasBurn safeEthHeight txn.inputLeaves.1 with
    | none => nofun
    | some known =>
      dsimp only [query, bind, Except.bind]
      split_ifs
      · nofun
      · nofun
  · nofun

/-- The contract is asked without a panic. -/
theorem checkMintOrBurn_no_panic (contract : ContractView) (txn : UtxoProof) :
    checkMintOrBurn config contract txn ≠ .error .panic := by
  unfold checkMintOrBurn
  split_ifs
  · cases contract.blockNumber with
    | none => nofun
    | some ethBlock => exact checkContract_no_panic contract _ txn
  · nofun

/-- Where the next height fits, a transaction is checked as one that is submitted. -/
theorem validateReceived_eq (contract : ContractView) (txn : UtxoProof)
    (hfits : NextFits overflowChecks self) :
    validateReceived env config overflowChecks contract txn self =
      validateTransaction env config.mode config.safeEthHeightOffset contract txn self.height
        self.node.blockStore self.node.notesTree.tree := by
  have hnever : ¬(txn.verify env = some true ∧ txn.recentRoot ≠ 0#256 ∧ overflowChecks = true ∧
      2 ^ 64 ≤ self.height + 1) := by
    rintro ⟨-, -, hchecks, hlarge⟩
    have := hfits hchecks
    omega
  unfold validateReceived validateTransaction checkMintOrBurn
  rw [if_neg hnever]
  by_cases hnamed : txn.mbHash ≠ 0#256 ∧ txn.mbValue ≠ 0#256
  · rw [if_pos hnamed, if_pos hnamed]
    exact bind_assoc _ _ _
  · rw [if_neg hnamed, if_neg hnamed]
    rfl

theorem validateReceived_panic (contract : ContractView) (txn : UtxoProof) :
    validateReceived env config overflowChecks contract txn self = .error .panic ↔
      ¬SafeTransaction env config overflowChecks contract txn self := by
  unfold validateReceived SafeTransaction
  cases hcheck : checkMintOrBurn config contract txn with
  | error failure =>
    have hfailure : failure ≠ .panic := by
      rintro rfl
      exact checkMintOrBurn_no_panic contract txn hcheck
    refine iff_of_false ?_ (not_not_intro nofun)
    intro h
    exact hfailure (Except.error.inj h)
  | ok u =>
    simp only [bind, Except.bind, forall_const]
    by_cases hoverflow : txn.verify env = some true ∧ txn.recentRoot ≠ 0#256 ∧
        overflowChecks = true ∧ 2 ^ 64 ≤ self.height + 1
    · rw [if_pos hoverflow]
      obtain ⟨hverified, hroot, hchecks, hlarge⟩ := hoverflow
      refine iff_of_true rfl fun h => ?_
      have := h.2 hverified hroot hchecks
      omega
    · rw [if_neg hoverflow, validateTxn_panic]
      constructor
      · intro hnone h
        exact h.1 hnone
      · intro hunsafe
        by_contra hread
        refine hunsafe ⟨hread, fun hverified hroot hchecks => ?_⟩
        by_contra hlarge
        exact hoverflow ⟨hverified, hroot, hchecks, by omega⟩

theorem receiveTransaction_panic (txn : UtxoProof) (input : Input) :
    (receiveTransaction env config overflowChecks txn input self).2 = .error .panic ↔
      ¬SafeTransaction env config overflowChecks input.contract txn self := by
  rw [← validateReceived_panic]
  unfold receiveTransaction
  split
  · rename_i hpanic
    exact iff_of_true rfl hpanic
  · rename_i e herr
    rw [herr]
    exact iff_of_false nofun nofun
  · rename_i hok
    rw [hok]
    refine iff_of_false ?_ nofun
    split
    · nofun
    · nofun

theorem handleSnapshotRequest_panic (peer : PeerId) (request : SnapshotRequest) :
    (handleSnapshotRequest overflowChecks peer request self).2 = .error .panic ↔
      ¬SafeRequest overflowChecks self := by
  have hsync : self.blockCache.isOutOfSync overflowChecks = none ↔
      ¬SafeRequest overflowChecks self := by
    have hheight : self.height = self.blockCache.height := rfl
    unfold BlockCache.isOutOfSync SafeRequest NextFits
    rw [hheight]
    by_cases hempty : self.blockCache.blockHashHeights.keys.isEmpty = true
    · rw [if_pos hempty]
      exact iff_of_true rfl fun h => h.1 (List.isEmpty_iff.mp hempty)
    · rw [if_neg hempty]
      have hkeys : self.blockCache.blockHashHeights.keys ≠ [] := fun hnil =>
        hempty (List.isEmpty_iff.mpr hnil)
      by_cases hbehind : self.blockCache.lastHeight < self.blockCache.maxHeight
      · rw [if_pos hbehind]
        exact iff_of_false nofun (not_not_intro ⟨hkeys, fun hle => by omega⟩)
      · rw [if_neg hbehind]
        by_cases hlarge : overflowChecks = true ∧ 2 ^ 64 ≤ self.blockCache.height + 1
        · rw [if_pos hlarge]
          refine iff_of_true rfl fun h => ?_
          have := h.2 (by omega) hlarge.1
          omega
        · rw [if_neg hlarge]
          refine iff_of_false nofun (not_not_intro ⟨hkeys, fun _ hchecks => ?_⟩)
          by_contra hnot
          exact hlarge ⟨hchecks, by omega⟩
  rw [← hsync]
  unfold handleSnapshotRequest
  cases self.blockCache.isOutOfSync overflowChecks with
  | none => exact iff_of_true rfl rfl
  | some outOfSync =>
    refine iff_of_false ?_ nofun
    dsimp only
    split
    · nofun
    · nofun

theorem handleSnapshotAccept_panic (peer : PeerId) (accept : SnapshotAccept) (input : Input) :
    (handleSnapshotAccept overflowChecks peer accept input self).2 = .error .panic ↔
      ¬SafeAccept overflowChecks accept input self := by
  unfold handleSnapshotAccept SafeAccept
  cases hkind : accept.kind with
  | fast =>
    refine iff_of_false ?_ (not_not_intro nofun)
    dsimp only
    split
    · nofun
    · nofun
  | slow =>
    simp only [forall_const]
    unfold sendSnapshotChunkSlow addHeights NextFits
    by_cases hlarge : overflowChecks = true ∧ 2 ^ 64 ≤ self.height + 1
    · rw [if_pos hlarge]
      refine iff_of_true rfl fun h => ?_
      have := h.1 hlarge.1
      omega
    · rw [if_neg hlarge]
      have hfits : overflowChecks = true → self.height + 1 < 2 ^ 64 := by
        intro hchecks
        by_contra hnot
        exact hlarge ⟨hchecks, by omega⟩
      dsimp only
      by_cases hread : input.storeRead = false
      · rw [if_pos hread]
        exact iff_of_false nofun (not_not_intro ⟨hfits, fun h => by rw [hread] at h; cases h⟩)
      · rw [if_neg hread, getRange]
        have hread' : input.storeRead = true := by simpa using hread
        by_cases hends : min accept.toHeight ((self.height + 1) % 2 ^ 64) < accept.fromHeight
        · rw [if_pos hends]
          refine iff_of_true rfl fun h => ?_
          have hle : accept.fromHeight ≤ min accept.toHeight ((self.height + 1) % 2 ^ 64) :=
            h.2 hread'
          omega
        · rw [if_neg hends]
          exact iff_of_false nofun (not_not_intro ⟨hfits, fun _ => not_lt.mp hends⟩)

theorem sendMessage_no_panic (message : Message) :
    (sendMessage message self).2 ≠ .error .panic := by
  unfold sendMessage
  split
  · nofun
  · nofun

/-- An event panics exactly when its condition fails. -/
theorem handleEvent_panic (hbounded : Bounded self.doomslug) (peer : PeerId) (input : Input)
    (event : NetworkEvent) :
    (handleEvent env config overflowChecks peer input self event).outcome = .error .panic ↔
      ¬SafeEvent env config overflowChecks input self event := by
  cases event with
  | approval approval =>
    exact (withContext_panic _ _).trans (receiveAccept_panic hbounded approval input)
  | block block => exact (withContext_panic _ _).trans (receiveBlock_panic block)
  | transaction txn => exact (withContext_panic _ _).trans (receiveTransaction_panic txn input)
  | snapshotRequest request =>
    exact (withContext_panic _ _).trans (handleSnapshotRequest_panic peer request)
  | snapshotAccept accept =>
    exact (withContext_panic _ _).trans (handleSnapshotAccept_panic peer accept input)
  | snapshotOffer snapshotId =>
    exact iff_of_false (mt (withContext_panic _ _).mp (sendMessage_no_panic _))
      (not_not_intro trivial)
  | snapshotChunk chunk =>
    exact iff_of_false (mt (withContext_panic _ _).mp (sendMessage_no_panic _))
      (not_not_intro trivial)

end Panics

section Runs

/-- What happens to a node: an event of a peer, or other tasks that leave the approvals alone. -/
inductive Activity (D : ℕ) (S : Type)
  | event (peer : PeerId) (event : NetworkEvent) (input : Input)
  | others (node : MarkedNode D) (mempool : MempoolState CryptoHash UtxoProof ℕ Element S)
      (validatorSets : KnownSets) (syncWorker : Option (List Message))

/-- A node and whether its handler of network events still runs. -/
structure Running (D : ℕ) (S : Type) where
  shared : NodeShared D S
  handling : Bool

def isPanic (outcome : Outcome HandlerError Unit) : Bool :=
  match outcome with
  | .error .panic => true
  | _ => false

variable (env : NodeEnv) (config : Config) (overflowChecks : Bool)

/-- The handler logs an error and goes on; a panic ends its task. -/
def step (s : Running D S) : Activity D S → Running D S
  | .event peer event input =>
      if s.handling = true then
        let handled := handleEvent env config overflowChecks peer input s.shared event
        ⟨handled.node, !isPanic handled.outcome⟩
      else s
  | .others node mempool validatorSets syncWorker =>
      { s with shared := ⟨node, mempool, s.shared.doomslug, validatorSets, syncWorker⟩ }

def run (s : Running D S) (activities : List (Activity D S)) : Running D S :=
  activities.foldl (step env config overflowChecks) s

/-- The condition on an activity. -/
def SafeActivity (s : Running D S) : Activity D S → Prop
  | .event _ event input => SafeEvent env config overflowChecks input s.shared event
  | .others .. => True

def minBlockProductionDelay : ℕ := 600

def maxBlockProductionDelay : ℕ := 2000

def maxBlockWaitDelay : ℕ := 6000

/-- A node as it starts, from what it has loaded. Durations are in milliseconds; the greatest
delay of a block is a number of seconds. -/
def start (now : ℕ) (initialBlock : Block) (ledger : Ledger D) (insertedIn : Element → ℕ)
    (validatorSets : KnownSets) : Running D S :=
  let maxDelay := 1000 * maxBlockProductionDelay
  { shared := {
      node := ⟨⟨BlockCache.new env initialBlock 10000, ledger⟩, insertedIn⟩
      mempool := MempoolState.default
      doomslug := Doomslug.new now initialBlock.height minBlockProductionDelay maxDelay
        (maxDelay / 10) maxBlockWaitDelay .twoThirds
      validatorSets
      syncWorker := some [] }
    handling := true }

variable {env config overflowChecks}

theorem isPanic_iff (outcome : Outcome HandlerError Unit) :
    isPanic outcome = true ↔ outcome = .error .panic := by
  unfold isPanic
  split
  · exact iff_of_true rfl rfl
  · rename_i hother
    exact iff_of_false nofun hother

theorem onApproval_fst (d : Doomslug) (now arrival : ℕ) (approval : ApprovalValidated)
    (stakes : List (ApprovalStake × Bool)) :
    (onApproval overflowChecks d now arrival approval stakes).1 =
      d.onApproval now arrival approval stakes := by
  unfold onApproval
  dsimp only
  split
  · rfl
  split
  · rfl
  split
  · rfl
  · rfl

theorem receiveAccept_bounded {s : NodeShared D S} (h : Bounded s.doomslug) (approval : Approval)
    (input : Input) :
    Bounded (receiveAccept env config overflowChecks approval input s).1.doomslug := by
  unfold receiveAccept
  dsimp only
  split
  · exact h
  cases hsets : validatorsForHeight s.validatorSets.sets approval.content.targetHeight with
  | none => exact h
  | some validators =>
    dsimp only
    split
    · exact h
    split
    · exact h
    split
    · exact h
    · rename_i signed hsigned
      dsimp only
      rw [onApproval_fst]
      exact h.onApproval (validators_length_lt s hsets) _ _ signed

theorem receiveTransaction_doomslug (s : NodeShared D S) (txn : UtxoProof) (input : Input) :
    (receiveTransaction env config overflowChecks txn input s).1.doomslug = s.doomslug := by
  unfold receiveTransaction
  split
  · rfl
  · rfl
  split
  · rfl
  · rfl

theorem receiveBlock_doomslug (s : NodeShared D S) (block : Block) :
    (receiveBlock env config block s).1.doomslug = s.doomslug := by
  unfold receiveBlock
  split
  · rfl
  · rfl

theorem sendMessage_doomslug (s : NodeShared D S) (message : Message) :
    (sendMessage message s).1.doomslug = s.doomslug := by
  unfold sendMessage
  split
  · rfl
  · rfl

/-- The approvals stay bounded, whatever the event and however it ends. -/
theorem handleEvent_bounded {s : NodeShared D S} (h : Bounded s.doomslug) (peer : PeerId)
    (input : Input) (event : NetworkEvent) :
    Bounded (handleEvent env config overflowChecks peer input s event).node.doomslug := by
  cases event with
  | approval approval => exact receiveAccept_bounded h approval input
  | block block =>
    change Bounded (receiveBlock env config block s).1.doomslug
    rw [receiveBlock_doomslug]
    exact h
  | transaction txn =>
    change Bounded (receiveTransaction env config overflowChecks txn input s).1.doomslug
    rw [receiveTransaction_doomslug]
    exact h
  | snapshotRequest request => exact h
  | snapshotAccept accept => exact h
  | snapshotOffer snapshotId =>
    change Bounded (sendMessage (.snapshotOffer peer snapshotId) s).1.doomslug
    rw [sendMessage_doomslug]
    exact h
  | snapshotChunk chunk =>
    change Bounded (sendMessage (.snapshotChunk peer chunk) s).1.doomslug
    rw [sendMessage_doomslug]
    exact h

/-- The handler goes on after an event exactly when its condition holds. -/
theorem step_handling_iff {s : Running D S} (hbounded : Bounded s.shared.doomslug)
    (hhandling : s.handling = true) (activity : Activity D S) :
    (step env config overflowChecks s activity).handling = true ↔
      SafeActivity env config overflowChecks s activity := by
  cases activity with
  | others => exact iff_of_true hhandling trivial
  | event peer event input =>
    rw [step, if_pos hhandling]
    change (!isPanic (handleEvent env config overflowChecks peer input s.shared event).outcome) =
      true ↔ SafeEvent env config overflowChecks input s.shared event
    rw [Bool.not_eq_true', ← Bool.not_eq_true, isPanic_iff, handleEvent_panic hbounded, not_not]

theorem step_bounded {s : Running D S} (h : Bounded s.shared.doomslug)
    (activity : Activity D S) :
    Bounded (step env config overflowChecks s activity).shared.doomslug := by
  cases activity with
  | others => exact h
  | event peer event input =>
    rw [step]
    split
    · exact handleEvent_bounded h peer input event
    · exact h

theorem handling_criterion :
    Criterion (step (D := D) (S := S) env config overflowChecks) (fun _ => True)
      (fun s => s.handling = true ∧ Bounded s.shared.doomslug) (fun s => s.handling = true)
      (SafeActivity env config overflowChecks) where
  good := fun _ h => h.1
  necessary := fun _ activity _ _ hinv hnext =>
    (step_handling_iff hinv.2 hinv.1 activity).mp hnext
  sufficient := fun _ activity _ _ hinv hok =>
    ⟨(step_handling_iff hinv.2 hinv.1 activity).mpr hok, step_bounded hinv.2 activity⟩

end Runs

/-- The handler of a started node runs in every state of a run exactly when every event meets its
condition in the state before it. -/
theorem network_never_crashes_iff (env : NodeEnv) (config : Config) (overflowChecks : Bool)
    (now : ℕ) (initialBlock : Block) (ledger : Ledger D) (insertedIn : Element → ℕ)
    (validatorSets : KnownSets) (activities : List (Activity D S)) :
    let started : Running D S := start env now initialBlock ledger insertedIn validatorSets
    (∀ before, before <+: activities →
        (run env config overflowChecks started before).handling = true) ↔
      ∀ before activity, before ++ [activity] <+: activities →
        SafeActivity env config overflowChecks (run env config overflowChecks started before)
          activity := by
  intro started
  exact forall_prefix_iff handling_criterion ⟨rfl, bounded_new ..⟩ fun _ _ => trivial

section Crashes

/-- A node at genesis with one validator. -/
def lonely : Running 161 Unit :=
  start trustingEnv 0 Block.genesis (freshLedger 161) (fun _ => 0) ⟨[⟨[1#160], 0#256⟩], by simp⟩

def lonelyConfig (mode : Mode) : Config := ⟨mode, [], 0, 1#160, fun _ => Vector.replicate 65 0⟩

def quietInput : Input := ⟨0, 0, ⟨none, fun _ _ => none, fun _ _ => none⟩, true⟩

/-- Each of these events ends the handler: an approval of a skip, an endorsement whose scalars are
too large and a block, at a validator, and an accepted snapshot from 5 to 0 at any node. -/
theorem not_network_never_crashes :
    let after := fun mode event =>
      run trustingEnv (lonelyConfig mode) false lonely [.event [] event quietInput]
    (after .validator (.approval ⟨⟨.skip 0, 1⟩, Vector.replicate 65 0⟩)).handling = false ∧
    (after .validator (.approval ⟨⟨.endorsement 0#256, 1⟩,
      (Vector.replicate 64 255).push 0⟩)).handling = false ∧
    (after .validator (.block Block.genesis)).handling = false ∧
    (after .node (.snapshotAccept ⟨0, 5, 0, .slow⟩)).handling = false := by
  exact ⟨rfl, rfl, rfl, rfl⟩

end Crashes

end PayyRollup.NetworkHandler
