import PayyRollup.CacheGaps
import PayyRollup.FastSync

/-!
The sync worker with the tasks around it. The ticker queues a notification with the greatest
height seen; the worker takes it later, reads the height of the node again, asks its peers for
the blocks above, and reads the height once more when it accepts an offer. Between any two of
these steps the rest of the node commits blocks. The worker notes the heights it subtracts and
the messages it sends. A notification may be older than the height it is compared with, and an
accepted offer may end below the height the node has reached by then.
-/
namespace PayyRollup.SyncWorker

open ScalarField VerifierContracts RollupState SmirkTree NodeBlocks BlockCaches BlockValidation
  BlockCommit NodeRuns FastSync PrefixRuns
open SmirkNode hiding Node

inductive SnapshotKind
  | slow
  | fast
  deriving DecidableEq

structure SnapshotRequest where
  snapshotId : SnapshotId
  fromHeight : ℕ
  toHeight : ℕ
  kind : SnapshotKind

structure SnapshotAccept where
  snapshotId : SnapshotId
  fromHeight : ℕ
  toHeight : ℕ
  kind : SnapshotKind

inductive NetworkEvent
  | snapshotRequest (request : SnapshotRequest)
  | snapshotAccept (peer : PeerId) (accept : SnapshotAccept)

structure SnapshotChunkSlow where
  snapshotId : SnapshotId
  chunk : List Block

inductive SnapshotChunk
  | slow (chunk : SnapshotChunkSlow)
  | fast (chunk : SnapshotChunkFast)

def SnapshotChunk.snapshotId : SnapshotChunk → SnapshotId
  | slow chunk => chunk.snapshotId
  | fast chunk => chunk.snapshotId

inductive Message
  | outOfSync (maxSeenHeight : ℕ)
  | snapshotOffer (peer : PeerId) (snapshotId : SnapshotId)
  | snapshotChunk (peer : PeerId) (chunk : SnapshotChunk)

/-- Where the worker is: waiting for a notification, handling one, waiting for an offer or for
a chunk, applying the blocks of a chunk, or gone after a panic or an error. -/
inductive Phase
  | waiting
  | notified (maxSeenHeight : ℕ)
  | behind (maxSeenHeight : ℕ)
  | ranged (maxSeenHeight fromHeight toHeight : ℕ)
  | measured (farEnough : Bool) (fromHeight toHeight : ℕ)
  | requested (snapshotId : SnapshotId) (kind : SnapshotKind) (toHeight : ℕ)
  | accepted (peer : PeerId) (snapshotId : SnapshotId)
  | applying (blocks : List Block)
  | applied
  | stillBehind
  | stopped

/-- The node, whether its ticker has just found it out of sync, and its sync worker. -/
structure State (D : ℕ) where
  node : Node D
  noticed : Bool
  channel : List Message
  phase : Phase
  subtractions : List (ℕ × ℕ)
  sent : List NetworkEvent

structure WorkerConfig where
  chunkSize : ℕ
  fastSyncThreshold : ℕ
  chunk_size_lt : chunkSize < 2 ^ 64

/-- What the world outside decides in a step of the worker: the random identifier, the answer
of the contract, and whether the tree could be written. -/
structure WorkInput where
  snapshotId : SnapshotId
  contractHeight : Option ℕ
  written : Bool

/-- Other tasks run the node and fill the channel between the steps of the worker. A tick may
also be seen after a turn of its loop. -/
inductive Action
  | node (event : Event)
  | turn (validatorsForHeight : ℕ → List Address) (io : CommitIo)
  | notice
  | notify
  | offer (peer : PeerId) (snapshotId : SnapshotId)
  | chunk (peer : PeerId) (chunk : SnapshotChunk)
  | work (input : WorkInput)
  | timeout

/-- An addition of heights; `none` stands for a panic. -/
def addHeights (overflowChecks : Bool) (a b : ℕ) : Option ℕ :=
  if overflowChecks = true ∧ 2 ^ 64 ≤ a + b then none else some ((a + b) % 2 ^ 64)

/-- A subtraction of heights; `none` stands for a panic. -/
def subHeights (overflowChecks : Bool) (a b : ℕ) : Option ℕ :=
  if overflowChecks = true ∧ a < b then none else some ((a + 2 ^ 64 - b) % 2 ^ 64)

variable {D : ℕ}

def State.height (self : State D) : ℕ := self.node.blockCache.height

def State.stop (self : State D) : State D := { self with phase := .stopped }

section Worker

variable (env : NodeEnv) (config : Config) (worker : WorkerConfig) (overflowChecks : Bool)

/-- Go on if the node is out of sync, and wait again otherwise. -/
def checkOutOfSync (next : Phase) (self : State D) : State D :=
  match self.node.blockCache.isOutOfSync overflowChecks with
  | none => self.stop
  | some false => { self with phase := .waiting }
  | some true => { self with phase := next }

def waitForOutOfSync (self : State D) : State D :=
  match self.channel with
  | [] => self
  | .outOfSync maxSeenHeight :: rest =>
      { self with channel := rest, phase := .notified maxSeenHeight }
  | _ :: rest => { self with channel := rest }

/-- The heights to ask for. -/
def startRange (maxSeenHeight : ℕ) (self : State D) : State D :=
  match addHeights overflowChecks self.height 1 with
  | none => self.stop
  | some fromHeight =>
      match addHeights overflowChecks fromHeight worker.chunkSize with
      | none => self.stop
      | some toHeight => { self with phase := .ranged maxSeenHeight fromHeight toHeight }

/-- Whether the node is far enough behind for a fast sync. -/
def measure (maxSeenHeight fromHeight toHeight : ℕ) (self : State D) : State D :=
  let noted := { self with subtractions := (maxSeenHeight, self.height) :: self.subtractions }
  match subHeights overflowChecks maxSeenHeight self.height with
  | none => noted.stop
  | some distance =>
      { noted with
        phase := .measured (decide (worker.fastSyncThreshold < distance)) fromHeight toHeight }

/-- A prover that is far enough behind asks for everything up to the height of the contract. -/
def chooseKind (farEnough : Bool) (toHeight : ℕ) : Option ℕ → ℕ × SnapshotKind
  | none => (toHeight, .slow)
  | some contractHeight =>
      if (config.mode.isProver = true ∧ farEnough = true) ∧ toHeight < contractHeight then
        (contractHeight, .fast)
      else (toHeight, .slow)

def sendRequest (farEnough : Bool) (fromHeight toHeight : ℕ) (input : WorkInput)
    (self : State D) : State D :=
  let chosen := chooseKind config farEnough toHeight input.contractHeight
  let request : SnapshotRequest := ⟨input.snapshotId, fromHeight, chosen.1, chosen.2⟩
  { self with
    sent := .snapshotRequest request :: self.sent
    phase := .requested input.snapshotId chosen.2 chosen.1 }

def handleSnapshotOffer (kind : SnapshotKind) (toHeight : ℕ) (peer : PeerId)
    (snapshotId : SnapshotId) (self : State D) : State D :=
  match addHeights overflowChecks self.height 1 with
  | none => self.stop
  | some fromHeight =>
      { self with
        sent := .snapshotAccept peer ⟨snapshotId, fromHeight, toHeight, kind⟩ :: self.sent
        phase := .accepted peer snapshotId }

/-- Other messages than the offer with the identifier are dropped. -/
def waitForSnapshotOffer (snapshotId : SnapshotId) (kind : SnapshotKind) (toHeight : ℕ)
    (self : State D) : State D :=
  match self.channel with
  | [] => self
  | .snapshotOffer peer offered :: rest =>
      if offered = snapshotId then
        handleSnapshotOffer overflowChecks kind toHeight peer snapshotId
          { self with channel := rest }
      else { self with channel := rest }
  | _ :: rest => { self with channel := rest }

/-- The block of a fast chunk that passes the checks, if the elements before it could be
inserted. -/
def confirmedBlock (written : Bool) (chunk : SnapshotChunkFast) (self : Node D) : Option Block :=
  match chunk.block with
  | none => none
  | some block =>
      let notesTree := self.ledger.notesTree
      let elements := newElements notesTree.tree chunk.elements
      if notesTree.tree.rootHashWith env.poseidon elements ≠ some block.rootHash then none
      else
        match Batch.fromEntries D (elementsBefore block elements) with
        | .error _ => none
        | .ok batch =>
            if block.content.state.leavesNonNull.any fun e => decide (e ∉ elements) then none
            else
              match (notesTree.insertBatch env.poseidon batch written).2 with
              | .error _ => none
              | .ok () => some block

/-- The height before the block of a fast chunk is confirmed. -/
def handleFast (written : Bool) (chunk : SnapshotChunkFast) (self : State D) : State D :=
  let handled := handleSnapshotChunkFast env config overflowChecks written chunk self.node
  let before := (confirmedBlock env written chunk self.node).toList.map fun b => (b.height, 1)
  { self with
    node := handled.1
    subtractions := before ++ self.subtractions
    phase := match handled.2 with
      | .ok _ => .waiting
      | .error _ => .stopped }

def handleSnapshotChunk (written : Bool) (self : State D) : SnapshotChunk → State D
  | .slow chunk =>
      { self with phase := .applying (chunk.chunk.mergeSort fun a b => decide (a.height ≤ b.height)) }
  | .fast chunk => handleFast env config overflowChecks written chunk self

/-- Other messages than the chunk with the identifier from the peer are dropped. -/
def waitForSnapshotChunk (peer : PeerId) (snapshotId : SnapshotId) (written : Bool)
    (self : State D) : State D :=
  match self.channel with
  | [] => self
  | .snapshotChunk sender chunk :: rest =>
      if sender = peer ∧ chunk.snapshotId = snapshotId then
        handleSnapshotChunk env config overflowChecks written { self with channel := rest } chunk
      else { self with channel := rest }
  | _ :: rest => { self with channel := rest }

/-- Receive the next block of a slow chunk. -/
def applyBlock (self : State D) : List Block → State D
  | [] => { self with phase := .applied }
  | block :: rest =>
      if config.mode = Mode.validator then self.stop
      else { self with node := receiveProposal env config block self.node, phase := .applying rest }

/-- Queue a notification of the greatest height seen. -/
def queueOutOfSync (self : State D) : State D :=
  { self with channel := self.channel ++ [.outOfSync self.node.blockCache.maxHeight] }

def work (input : WorkInput) (self : State D) : State D :=
  match self.phase with
  | .waiting => waitForOutOfSync self
  | .notified maxSeenHeight => checkOutOfSync overflowChecks (.behind maxSeenHeight) self
  | .behind maxSeenHeight => startRange worker overflowChecks maxSeenHeight self
  | .ranged maxSeenHeight fromHeight toHeight =>
      measure worker overflowChecks maxSeenHeight fromHeight toHeight self
  | .measured farEnough fromHeight toHeight =>
      sendRequest config farEnough fromHeight toHeight input self
  | .requested snapshotId kind toHeight =>
      waitForSnapshotOffer overflowChecks snapshotId kind toHeight self
  | .accepted peer snapshotId =>
      waitForSnapshotChunk env config overflowChecks peer snapshotId input.written self
  | .applying blocks => applyBlock env config self blocks
  | .applied => checkOutOfSync overflowChecks .stillBehind self
  | .stillBehind => { queueOutOfSync self with phase := .waiting }
  | .stopped => self

/-- The worker stops waiting for an offer or a chunk. -/
def timeOut (self : State D) : State D :=
  match self.phase with
  | .requested _ _ _ | .accepted _ _ => { self with phase := .waiting }
  | _ => self

def step (self : State D) : Action → State D
  | .node event => { self with node := NodeRuns.step env config self.node event }
  | .turn validatorsForHeight io =>
      { self with node := (commitNext env config validatorsForHeight io self.node).1 }
  | .notice =>
      { self with
        noticed := decide (self.node.blockCache.isOutOfSync overflowChecks = some true) }
  | .notify => if self.noticed = true then { queueOutOfSync self with noticed := false } else self
  | .offer peer snapshotId =>
      { self with channel := self.channel ++ [.snapshotOffer peer snapshotId] }
  | .chunk peer chunk => { self with channel := self.channel ++ [.snapshotChunk peer chunk] }
  | .work input => work env config worker overflowChecks input self
  | .timeout => timeOut self

def start (node : Node D) : State D := ⟨node, false, [], .waiting, [], []⟩

def run (self : State D) (actions : List Action) : State D :=
  actions.foldl (step env config worker overflowChecks) self

end Worker

/-- No height is subtracted from a smaller one, and what is asked for does not end before it
starts; the acceptances of offers may be counted with the requests. -/
structure Sound (acceptances : Bool) (s : State D) : Prop where
  subtractions : ∀ pair ∈ s.subtractions, pair.2 ≤ pair.1
  requests : ∀ request, .snapshotRequest request ∈ s.sent →
    request.fromHeight ≤ request.toHeight
  accepts : acceptances = true → ∀ peer accept, .snapshotAccept peer accept ∈ s.sent →
    accept.fromHeight ≤ accept.toHeight

/-- The heights between which a request is to be sent, while there are any. -/
def Phase.range : Phase → Option (ℕ × ℕ)
  | ranged _ fromHeight toHeight => some (fromHeight, toHeight)
  | measured _ fromHeight toHeight => some (fromHeight, toHeight)
  | _ => none

section Conditions

variable (env : NodeEnv) (config : Config) (worker : WorkerConfig) (overflowChecks : Bool)

/-- The heights to ask for are as far apart as a chunk is long. -/
def Spans (self : State D) : Prop :=
  ∀ fromHeight toHeight, self.phase.range = some (fromHeight, toHeight) → fromHeight < 2 ^ 64 ∧
    addHeights overflowChecks fromHeight worker.chunkSize = some toHeight

/-- A step in time: the node has not passed the height of the notification when the two are
subtracted, a chunk above the height to start from ends before the last height there is, or the
contract is at that height, the node has not passed the end of the range when an offer is
accepted, and no block of height zero is confirmed. -/
def Timely (acceptances : Bool) (self : State D) : Action → Prop
  | .work input =>
      match self.phase with
      | .ranged maxSeenHeight _ _ => self.height ≤ maxSeenHeight
      | .measured farEnough fromHeight _ => fromHeight + worker.chunkSize < 2 ^ 64 ∨
          (config.mode.isProver = true ∧ farEnough = true) ∧
            ∃ contractHeight, input.contractHeight = some contractHeight ∧
              fromHeight ≤ contractHeight
      | .requested snapshotId _ toHeight => acceptances = true →
          ∀ peer rest, self.channel = .snapshotOffer peer snapshotId :: rest →
            ∀ fromHeight, addHeights overflowChecks self.height 1 = some fromHeight →
              fromHeight ≤ toHeight
      | .accepted peer snapshotId => ∀ chunk rest,
          self.channel = .snapshotChunk peer (.fast chunk) :: rest →
            chunk.snapshotId = snapshotId →
              ∀ block, confirmedBlock env input.written chunk self.node = some block →
                block.height ≠ 0
      | _ => True
  | _ => True

end Conditions

section Laws

variable {env : NodeEnv} {config : Config} {worker : WorkerConfig} {overflowChecks : Bool}
  {acceptances : Bool} {s : State D}

/-- A message that does not ask for a range ending before it starts. -/
def InOrder (acceptances : Bool) : NetworkEvent → Prop
  | .snapshotRequest request => request.fromHeight ≤ request.toHeight
  | .snapshotAccept _ accept => acceptances = true → accept.fromHeight ≤ accept.toHeight

theorem sound_iff : Sound acceptances s ↔
    (∀ pair ∈ s.subtractions, pair.2 ≤ pair.1) ∧ ∀ event ∈ s.sent, InOrder acceptances event := by
  constructor
  · intro h
    refine ⟨h.subtractions, fun event hevent => ?_⟩
    cases event with
    | snapshotRequest request => exact h.requests request hevent
    | snapshotAccept peer accept => exact fun hcount => h.accepts hcount peer accept hevent
  · intro ⟨hsubtractions, hsent⟩
    exact ⟨hsubtractions, fun request hrequest => hsent (.snapshotRequest request) hrequest,
      fun hcount peer accept haccept => hsent (.snapshotAccept peer accept) haccept hcount⟩

theorem Sound.same_iff {t : State D} (hsubtractions : t.subtractions = s.subtractions)
    (hsent : t.sent = s.sent) : Sound acceptances t ↔ Sound acceptances s := by
  rw [sound_iff, sound_iff, hsubtractions, hsent]

theorem Sound.quiet_iff {t : State D} {P : Prop} (hsubtractions : t.subtractions = s.subtractions)
    (hsent : t.sent = s.sent) (hP : P) : Sound acceptances t ↔ Sound acceptances s ∧ P :=
  (Sound.same_iff hsubtractions hsent).trans (iff_self_and.mpr fun _ => hP)

theorem Sound.subtract_iff {t : State D} (a b : ℕ)
    (hsubtractions : t.subtractions = (a, b) :: s.subtractions) (hsent : t.sent = s.sent) :
    Sound acceptances t ↔ Sound acceptances s ∧ b ≤ a := by
  rw [sound_iff, sound_iff, hsubtractions, hsent, List.forall_mem_cons, and_assoc, and_comm]

/-- A message leaves the worker sound when it is in order. -/
theorem Sound.send_iff {t : State D} (event : NetworkEvent)
    (hsubtractions : t.subtractions = s.subtractions) (hsent : t.sent = event :: s.sent) :
    Sound acceptances t ↔ Sound acceptances s ∧ InOrder acceptances event := by
  rw [sound_iff, sound_iff, hsubtractions, hsent, List.forall_mem_cons, and_assoc]
  exact and_congr_right fun _ => and_comm

/-- A subtraction is noted, whether or not it panics. -/
theorem measure_sound_iff (maxSeenHeight fromHeight toHeight : ℕ) :
    Sound acceptances (measure worker overflowChecks maxSeenHeight fromHeight toHeight s) ↔
      Sound acceptances s ∧ s.height ≤ maxSeenHeight := by
  unfold measure
  cases subHeights overflowChecks maxSeenHeight s.height with
  | none => exact Sound.subtract_iff maxSeenHeight s.height rfl rfl
  | some distance => exact Sound.subtract_iff maxSeenHeight s.height rfl rfl

theorem addHeights_eq_some (a b c : ℕ) (h : addHeights overflowChecks a b = some c) :
    c = (a + b) % 2 ^ 64 ∧ (overflowChecks = true → a + b < 2 ^ 64) := by
  unfold addHeights at h
  split at h
  · cases h
  · rename_i hroom
    obtain rfl := Option.some.inj h
    exact ⟨rfl, fun hchecks => Nat.lt_of_not_le (not_and.mp hroom hchecks)⟩

/-- A range that wraps around ends below its start. -/
theorem span_le_iff (fromHeight toHeight : ℕ) (hfrom : fromHeight < 2 ^ 64)
    (h : addHeights overflowChecks fromHeight worker.chunkSize = some toHeight) :
    fromHeight ≤ toHeight ↔ fromHeight + worker.chunkSize < 2 ^ 64 := by
  obtain ⟨rfl, -⟩ := addHeights_eq_some fromHeight worker.chunkSize toHeight h
  have hchunk := worker.chunk_size_lt
  omega

theorem chooseKind_le_iff (farEnough : Bool) (fromHeight toHeight : ℕ) (answer : Option ℕ) :
    fromHeight ≤ (chooseKind config farEnough toHeight answer).1 ↔ fromHeight ≤ toHeight ∨
      (config.mode.isProver = true ∧ farEnough = true) ∧
        ∃ contractHeight, answer = some contractHeight ∧ fromHeight ≤ contractHeight := by
  cases answer with
  | none => simp [chooseKind]
  | some contractHeight =>
    simp only [chooseKind]
    by_cases hfast : (config.mode.isProver = true ∧ farEnough = true) ∧ toHeight < contractHeight
    · rw [if_pos hfast]
      constructor
      · exact fun hle => Or.inr ⟨hfast.1, contractHeight, rfl, hle⟩
      · rintro (hle | ⟨-, other, hother, hle⟩)
        · exact hle.trans hfast.2.le
        · obtain rfl := Option.some.inj hother
          exact hle
    · rw [if_neg hfast]
      constructor
      · exact fun hle => Or.inl hle
      · rintro (hle | ⟨hasked, other, hother, hle⟩)
        · exact hle
        · obtain rfl := Option.some.inj hother
          have hlow := not_and.mp hfast hasked
          show fromHeight ≤ toHeight
          omega

/-- A request is in order when its range has not wrapped around, or the contract was asked and
is at the height to start from. -/
theorem sendRequest_sound_iff (farEnough : Bool) (fromHeight toHeight : ℕ) (input : WorkInput)
    (hfrom : fromHeight < 2 ^ 64)
    (hspan : addHeights overflowChecks fromHeight worker.chunkSize = some toHeight) :
    Sound acceptances (sendRequest config farEnough fromHeight toHeight input s) ↔
      Sound acceptances s ∧ (fromHeight + worker.chunkSize < 2 ^ 64 ∨
        (config.mode.isProver = true ∧ farEnough = true) ∧ ∃ contractHeight,
          input.contractHeight = some contractHeight ∧ fromHeight ≤ contractHeight) := by
  have hsent : Sound acceptances (sendRequest config farEnough fromHeight toHeight input s) ↔
      Sound acceptances s ∧
        fromHeight ≤ (chooseKind config farEnough toHeight input.contractHeight).1 :=
    Sound.send_iff (.snapshotRequest ⟨input.snapshotId, fromHeight,
      (chooseKind config farEnough toHeight input.contractHeight).1,
      (chooseKind config farEnough toHeight input.contractHeight).2⟩) rfl rfl
  refine hsent.trans (and_congr_right fun _ => ?_)
  rw [← span_le_iff fromHeight toHeight hfrom hspan]
  exact chooseKind_le_iff farEnough fromHeight toHeight input.contractHeight

/-- An acceptance is in order when the node has not passed the end of the range. -/
theorem handleSnapshotOffer_sound_iff (kind : SnapshotKind) (toHeight : ℕ) (peer : PeerId)
    (snapshotId : SnapshotId) :
    Sound acceptances (handleSnapshotOffer overflowChecks kind toHeight peer snapshotId s) ↔
      Sound acceptances s ∧ (acceptances = true → ∀ fromHeight,
        addHeights overflowChecks s.height 1 = some fromHeight → fromHeight ≤ toHeight) := by
  unfold handleSnapshotOffer
  cases addHeights overflowChecks s.height 1 with
  | none => exact Sound.quiet_iff rfl rfl fun _ _ h => nomatch h
  | some fromHeight =>
    have hsent : Sound acceptances { s with
        sent := .snapshotAccept peer ⟨snapshotId, fromHeight, toHeight, kind⟩ :: s.sent
        phase := .accepted peer snapshotId } ↔
          Sound acceptances s ∧ (acceptances = true → fromHeight ≤ toHeight) :=
      Sound.send_iff (.snapshotAccept peer ⟨snapshotId, fromHeight, toHeight, kind⟩) rfl rfl
    refine hsent.trans (and_congr_right fun _ => forall_congr' fun _ => ?_)
    constructor
    · intro hle other hother
      obtain rfl := Option.some.inj hother
      exact hle
    · exact fun hle => hle fromHeight rfl

theorem waitForSnapshotOffer_sound_iff (snapshotId : SnapshotId) (kind : SnapshotKind)
    (toHeight : ℕ) :
    Sound acceptances (waitForSnapshotOffer overflowChecks snapshotId kind toHeight s) ↔
      Sound acceptances s ∧ (acceptances = true → ∀ peer rest,
        s.channel = .snapshotOffer peer snapshotId :: rest → ∀ fromHeight,
          addHeights overflowChecks s.height 1 = some fromHeight → fromHeight ≤ toHeight) := by
  unfold waitForSnapshotOffer
  cases hchannel : s.channel with
  | nil => exact Sound.quiet_iff rfl rfl fun _ _ _ h => nomatch h
  | cons message rest =>
    cases message with
    | outOfSync maxSeenHeight => exact Sound.quiet_iff rfl rfl fun _ _ _ h => nomatch h
    | snapshotChunk peer chunk => exact Sound.quiet_iff rfl rfl fun _ _ _ h => nomatch h
    | snapshotOffer peer offered =>
      dsimp only
      by_cases hsame : offered = snapshotId
      · subst hsame
        rw [if_pos rfl, handleSnapshotOffer_sound_iff]
        refine and_congr (Sound.same_iff rfl rfl) (forall_congr' fun _ => ?_)
        constructor
        · exact fun hle _ _ _ => hle
        · exact fun hle => hle peer rest rfl
      · rw [if_neg hsame]
        refine Sound.quiet_iff rfl rfl fun _ _ _ heq => ?_
        cases heq
        exact absurd rfl hsame

theorem handleFast_sound_iff (written : Bool) (chunk : SnapshotChunkFast) :
    Sound acceptances (handleFast env config overflowChecks written chunk s) ↔
      Sound acceptances s ∧
        ∀ block, confirmedBlock env written chunk s.node = some block → block.height ≠ 0 := by
  unfold handleFast
  cases confirmedBlock env written chunk s.node with
  | none => exact Sound.quiet_iff rfl rfl fun _ h => nomatch h
  | some block =>
    refine Iff.trans (Sound.subtract_iff block.height 1 rfl rfl) (and_congr_right fun _ => ?_)
    constructor
    · intro hle other hother
      obtain rfl := Option.some.inj hother
      omega
    · intro hne
      have := hne block rfl
      omega

theorem waitForSnapshotChunk_sound_iff (peer : PeerId) (snapshotId : SnapshotId)
    (written : Bool) :
    Sound acceptances (waitForSnapshotChunk env config overflowChecks peer snapshotId written s) ↔
      Sound acceptances s ∧ ∀ chunk rest, s.channel = .snapshotChunk peer (.fast chunk) :: rest →
        chunk.snapshotId = snapshotId →
          ∀ block, confirmedBlock env written chunk s.node = some block → block.height ≠ 0 := by
  unfold waitForSnapshotChunk
  cases hchannel : s.channel with
  | nil => exact Sound.quiet_iff rfl rfl fun _ _ h => nomatch h
  | cons message rest =>
    cases message with
    | outOfSync maxSeenHeight => exact Sound.quiet_iff rfl rfl fun _ _ h => nomatch h
    | snapshotOffer sender offered => exact Sound.quiet_iff rfl rfl fun _ _ h => nomatch h
    | snapshotChunk sender chunk =>
      dsimp only
      by_cases hours : sender = peer ∧ chunk.snapshotId = snapshotId
      · obtain ⟨rfl, rfl⟩ := hours
        rw [if_pos ⟨rfl, rfl⟩]
        cases chunk with
        | slow chunk => exact Sound.quiet_iff rfl rfl fun _ _ h => nomatch h
        | fast chunk =>
          refine (handleFast_sound_iff written chunk).trans
            (and_congr (Sound.same_iff rfl rfl) ?_)
          constructor
          · intro hne other tail heq _
            cases heq
            exact hne
          · exact fun h => h chunk rest rfl rfl
      · rw [if_neg hours]
        refine Sound.quiet_iff rfl rfl fun _ _ heq hid => ?_
        cases heq
        exact absurd ⟨rfl, hid⟩ hours

theorem checkOutOfSync_sound_iff (next : Phase) :
    Sound acceptances (checkOutOfSync overflowChecks next s) ↔ Sound acceptances s ∧ True := by
  unfold checkOutOfSync
  split
  · exact Sound.quiet_iff rfl rfl trivial
  · exact Sound.quiet_iff rfl rfl trivial
  · exact Sound.quiet_iff rfl rfl trivial

/-- A step of the worker keeps its computations in order exactly when it is in time. -/
theorem work_sound_iff (input : WorkInput) (hspans : Spans worker overflowChecks s) :
    Sound acceptances (work env config worker overflowChecks input s) ↔ Sound acceptances s ∧
      Timely env config worker overflowChecks acceptances s (.work input) := by
  unfold work Timely
  cases hphase : s.phase with
  | waiting =>
    dsimp only [waitForOutOfSync]
    split
    · exact Sound.quiet_iff rfl rfl trivial
    · exact Sound.quiet_iff rfl rfl trivial
    · exact Sound.quiet_iff rfl rfl trivial
  | notified maxSeenHeight => exact checkOutOfSync_sound_iff _
  | behind maxSeenHeight =>
    dsimp only [startRange]
    split
    · exact Sound.quiet_iff rfl rfl trivial
    · split
      · exact Sound.quiet_iff rfl rfl trivial
      · exact Sound.quiet_iff rfl rfl trivial
  | ranged maxSeenHeight fromHeight toHeight => exact measure_sound_iff _ _ _
  | measured farEnough fromHeight toHeight =>
    obtain ⟨hfrom, hspan⟩ := hspans fromHeight toHeight (by rw [hphase]; rfl)
    exact sendRequest_sound_iff farEnough fromHeight toHeight input hfrom hspan
  | requested snapshotId kind toHeight => exact waitForSnapshotOffer_sound_iff _ _ _
  | accepted peer snapshotId => exact waitForSnapshotChunk_sound_iff _ _ _
  | applying blocks =>
    cases blocks with
    | nil => exact Sound.quiet_iff rfl rfl trivial
    | cons block rest =>
      dsimp only [applyBlock]
      split
      · exact Sound.quiet_iff rfl rfl trivial
      · exact Sound.quiet_iff rfl rfl trivial
  | applied => exact checkOutOfSync_sound_iff _
  | stillBehind => exact Sound.quiet_iff rfl rfl trivial
  | stopped => exact Sound.quiet_iff rfl rfl trivial

theorem spans_of_range {t : State D} (ht : t.phase.range = none) : Spans worker overflowChecks t := by
  intro fromHeight toHeight hrange
  rw [ht] at hrange
  cases hrange

theorem spans_of_phase {t : State D} (h : Spans worker overflowChecks s)
    (ht : t.phase.range = s.phase.range) : Spans worker overflowChecks t :=
  fun fromHeight toHeight hrange => h fromHeight toHeight (ht ▸ hrange)

theorem startRange_spans (maxSeenHeight : ℕ) :
    Spans worker overflowChecks (startRange worker overflowChecks maxSeenHeight s) := by
  unfold startRange
  cases hfirst : addHeights overflowChecks s.height 1 with
  | none => exact spans_of_range rfl
  | some first =>
    dsimp only
    cases hlast : addHeights overflowChecks first worker.chunkSize with
    | none => exact spans_of_range rfl
    | some last =>
      intro fromHeight toHeight hrange
      obtain ⟨rfl, rfl⟩ := Prod.mk.inj (Option.some.inj hrange)
      obtain ⟨hmod, -⟩ := addHeights_eq_some _ _ _ hfirst
      exact ⟨hmod ▸ Nat.mod_lt _ (by decide), hlast⟩

theorem measure_spans (maxSeenHeight fromHeight toHeight : ℕ) (hspans : Spans worker overflowChecks s)
    (hphase : s.phase = .ranged maxSeenHeight fromHeight toHeight) :
    Spans worker overflowChecks
      (measure worker overflowChecks maxSeenHeight fromHeight toHeight s) := by
  unfold measure
  cases subHeights overflowChecks maxSeenHeight s.height with
  | none => exact spans_of_range rfl
  | some distance => exact spans_of_phase hspans (by rw [hphase]; rfl)

theorem checkOutOfSync_range (next : Phase) (hnext : next.range = none) :
    (checkOutOfSync overflowChecks next s).phase.range = none := by
  unfold checkOutOfSync
  split
  · rfl
  · rfl
  · exact hnext

theorem waitForSnapshotOffer_range (snapshotId : SnapshotId) (kind : SnapshotKind)
    (toHeight : ℕ) (hphase : s.phase.range = none) :
    (waitForSnapshotOffer overflowChecks snapshotId kind toHeight s).phase.range = none := by
  unfold waitForSnapshotOffer
  split
  · exact hphase
  · split
    · unfold handleSnapshotOffer
      split
      · rfl
      · rfl
    · exact hphase
  · exact hphase

theorem waitForSnapshotChunk_range (peer : PeerId) (snapshotId : SnapshotId) (written : Bool)
    (hphase : s.phase.range = none) :
    (waitForSnapshotChunk env config overflowChecks peer snapshotId written s).phase.range =
      none := by
  unfold waitForSnapshotChunk
  split
  · exact hphase
  · split
    · unfold handleSnapshotChunk
      split
      · rfl
      · unfold handleFast
        dsimp only
        split
        · rfl
        · rfl
    · exact hphase
  · exact hphase

/-- The worker keeps to the range it has computed. -/
theorem work_spans (input : WorkInput) (h : Spans worker overflowChecks s) :
    Spans worker overflowChecks (work env config worker overflowChecks input s) := by
  unfold work
  cases hphase : s.phase with
  | waiting =>
    refine spans_of_range ?_
    dsimp only [waitForOutOfSync]
    split
    · rw [hphase]
      rfl
    · rfl
    · rw [hphase]
      rfl
  | notified maxSeenHeight => exact spans_of_range (checkOutOfSync_range _ rfl)
  | behind maxSeenHeight => exact startRange_spans maxSeenHeight
  | ranged maxSeenHeight fromHeight toHeight => exact measure_spans _ _ _ h hphase
  | measured farEnough fromHeight toHeight => exact spans_of_range rfl
  | requested snapshotId kind toHeight =>
    exact spans_of_range (waitForSnapshotOffer_range _ _ _ (by rw [hphase]; rfl))
  | accepted peer snapshotId =>
    exact spans_of_range (waitForSnapshotChunk_range _ _ _ (by rw [hphase]; rfl))
  | applying blocks =>
    refine spans_of_range ?_
    dsimp only [applyBlock]
    split
    · rfl
    · split
      · rfl
      · rfl
  | applied => exact spans_of_range (checkOutOfSync_range _ rfl)
  | stillBehind => exact spans_of_range rfl
  | stopped => exact h

theorem step_spans (action : Action) (h : Spans worker overflowChecks s) :
    Spans worker overflowChecks (step env config worker overflowChecks s action) := by
  cases action with
  | node event => exact h
  | turn validatorsForHeight io => exact h
  | notice => exact h
  | notify =>
    dsimp only [step]
    split
    · exact h
    · exact h
  | offer peer snapshotId => exact h
  | chunk peer chunk => exact h
  | work input => exact work_spans input h
  | timeout =>
    dsimp only [step, timeOut]
    split
    · exact spans_of_range rfl
    · exact spans_of_range rfl
    · exact h

theorem step_sound_iff (action : Action) (h : Spans worker overflowChecks s) :
    Sound acceptances (step env config worker overflowChecks s action) ↔ Sound acceptances s ∧
      Timely env config worker overflowChecks acceptances s action := by
  cases action with
  | node event => exact Sound.quiet_iff rfl rfl trivial
  | turn validatorsForHeight io => exact Sound.quiet_iff rfl rfl trivial
  | notice => exact Sound.quiet_iff rfl rfl trivial
  | notify =>
    dsimp only [step]
    split
    · exact Sound.quiet_iff rfl rfl trivial
    · exact Sound.quiet_iff rfl rfl trivial
  | offer peer snapshotId => exact Sound.quiet_iff rfl rfl trivial
  | chunk peer chunk => exact Sound.quiet_iff rfl rfl trivial
  | work input => exact work_sound_iff input h
  | timeout =>
    dsimp only [step, timeOut]
    split
    · exact Sound.quiet_iff rfl rfl trivial
    · exact Sound.quiet_iff rfl rfl trivial
    · exact Sound.quiet_iff rfl rfl trivial

theorem timely_criterion : Criterion (step (D := D) env config worker overflowChecks)
    (fun _ => True) (fun s => Spans worker overflowChecks s ∧ Sound acceptances s)
    (Sound acceptances) (Timely env config worker overflowChecks acceptances) where
  good := fun _ h => h.2
  necessary := fun _ action _ _ h hsound => ((step_sound_iff action h.1).mp hsound).2
  sufficient := fun _ action _ _ h htimely =>
    ⟨step_spans action h.1, (step_sound_iff action h.1).mpr ⟨h.2, htimely⟩⟩

end Laws

/-- The heights of the worker are in order all along a run, whether or not acceptances count as
requests, exactly when every step of the run is in time. -/
theorem run_ordered_iff (env : NodeEnv) (config : Config) (worker : WorkerConfig)
    (overflowChecks acceptances : Bool) (node : Node D) (actions : List Action) :
    (∀ before, before <+: actions →
      Sound acceptances (run env config worker overflowChecks (start node) before)) ↔
        ∀ before action, before ++ [action] <+: actions →
          Timely env config worker overflowChecks acceptances
            (run env config worker overflowChecks (start node) before) action := by
  have hstart : Sound acceptances (start node) := ⟨nofun, nofun, fun _ => nofun⟩
  exact forall_prefix_iff timely_criterion ⟨spans_of_range rfl, hstart⟩ fun _ _ => trivial

def emptyAt (height : ℕ) : Block :=
  ⟨⟨⟨height, 0#256, 0, 0#256, []⟩, ⟨0#256, []⟩⟩, Vector.replicate 65 0⟩

def proposal (height : ℕ) : Action := .node (.receiveProposal (emptyAt height))

def commitOne : Action := .turn (fun _ => [1#160]) ⟨true, true⟩

def workOn : Action := .work ⟨7, none, true⟩

/-- A worker that asks for two blocks at a time. -/
def pairWorker : WorkerConfig := ⟨1, 100, by decide⟩

/-- The block 2 is noticed before the block 1, and the worker gets to the notification when the
block 3 is committed and the block 5 is there. -/
def overtaken : List Action :=
  [proposal 2, .notice, .notify, proposal 1, proposal 3, commitOne, commitOne, commitOne,
    proposal 5, workOn, workOn, workOn, workOn]

/-- The blocks 1 and 2 are asked for, and arrive otherwise before the offer does. -/
def lateOffer : List Action :=
  [proposal 3, .notice, .notify, workOn, workOn, workOn, workOn, workOn, proposal 1, proposal 2,
    commitOne, commitOne, .offer [] 7, workOn]

/-- A notification that was overtaken underflows, and a late offer is accepted for a range that
ends before it starts. -/
theorem not_sound_overtaken :
    (¬∀ before, before <+: overtaken →
      Sound false (run signedEnv nodeConfig pairWorker true (start genesisNode) before)) ∧
    ¬∀ before, before <+: lateOffer →
      Sound true (run signedEnv nodeConfig pairWorker true (start genesisNode) before) := by
  have hsubtractions : (run signedEnv nodeConfig pairWorker true (start genesisNode)
      overtaken).subtractions = [(2, 3)] := by decide
  have hsent : (run signedEnv nodeConfig pairWorker true (start genesisNode) lateOffer).sent =
      [.snapshotAccept [] ⟨7, 3, 2, .slow⟩, .snapshotRequest ⟨7, 1, 2, .slow⟩] := by
    rfl
  constructor
  · intro h
    have hle := (h overtaken List.prefix_rfl).subtractions (2, 3)
      (by rw [hsubtractions]; exact List.mem_singleton_self _)
    exact absurd hle (by decide)
  · intro h
    have hle := (h lateOffer List.prefix_rfl).accepts rfl [] ⟨7, 3, 2, .slow⟩
      (by rw [hsent]; exact List.mem_cons_self)
    exact absurd hle (by decide)

end PayyRollup.SyncWorker
