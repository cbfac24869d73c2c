import Mathlib.Data.List.AList
import PayyRollup.NodeBlocks

/-!
Approvals of the blocks to produce. For every target height there is one tracker for each
content that is approved; a tracker keeps its witnesses and the stake they add up to, in the
current and in the next epoch. A newer approval of an account withdraws its last one. Stakes
are words of 128 bits, as the code adds and subtracts them; instants and durations are
natural numbers.
-/
namespace PayyRollup.Approvals

open VerifierContracts RollupState NodeBlocks

abbrev Balance := BitVec 128

structure ApprovalValidated where
  content : ApprovalContent
  signature : NodeBlocks.Signature
  validator : Address

structure ApprovalStake where
  validator : Address
  stakeThisEpoch : Balance
  stakeNextEpoch : Balance

/-- The stakes a node gives to the validators of a height. -/
def unitStakes (validators : List Address) : List (ApprovalStake × Bool) :=
  validators.map fun validator => (⟨validator, 1, 1⟩, false)

inductive DoomslugThresholdMode
  | noApprovals
  | twoThirds
  deriving DecidableEq

inductive DoomslugBlockProductionReadiness
  | notReady
  | readySince (when : ℕ)
  deriving DecidableEq

structure DoomslugTimer where
  started : ℕ
  lastEndorsementSent : ℕ
  height : ℕ
  endorsementDelay : ℕ
  minDelay : ℕ
  delayStep : ℕ
  maxDelay : ℕ

structure DoomslugTip where
  blockHash : CryptoHash
  height : ℕ

structure DoomslugApprovalsTracker where
  witness : AList fun _ : Address => ApprovalValidated × ℕ
  accountIdToStakes : AList fun _ : Address => Balance × Balance
  totalStakeThisEpoch : Balance
  approvedStakeThisEpoch : Balance
  totalStakeNextEpoch : Balance
  approvedStakeNextEpoch : Balance
  timePassedThreshold : Option ℕ
  thresholdMode : DoomslugThresholdMode

structure DoomslugApprovalsTrackersAtHeight where
  approvalTrackers : AList fun _ : ApprovalInner => DoomslugApprovalsTracker
  lastApprovalPerAccount : AList fun _ : Address => ApprovalInner

structure Doomslug where
  approvalTracking : ℕ → Option DoomslugApprovalsTrackersAtHeight
  largestSentTargetHeight : ℕ
  largestFinalHeight : ℕ
  largestThresholdApprovalsHeight : ℕ
  largestApprovalTargetHeight : ℕ
  tip : DoomslugTip
  endorsementPending : Bool
  timer : DoomslugTimer
  thresholdMode : DoomslugThresholdMode

def maxTimerIters : ℕ := 20

def maxHeightsAheadToStoreApprovals : ℕ := 10000

def maxHeightsBeforeToStoreApprovals : ℕ := 20

/-- The sum wraps at 64 bits. -/
def lastHeightToStore (height : ℕ) : ℕ := (height + maxHeightsAheadToStoreApprovals) % 2 ^ 64

/-- A block approves its parent at the next height, and only a height at any other. -/
def ApprovalInner.new (parentHash : CryptoHash) (parentHeight targetHeight : ℕ) :
    ApprovalInner :=
  if targetHeight = nextHeight parentHeight then .endorsement parentHash else .skip parentHeight

def ApprovalContent.new (parentHash : CryptoHash) (parentHeight targetHeight : ℕ) :
    ApprovalContent :=
  ⟨ApprovalInner.new parentHash parentHeight targetHeight, targetHeight⟩

namespace DoomslugTimer

/-- The delay for a number of heights since the last final block. -/
def getDelay (self : DoomslugTimer) (n : ℕ) : ℕ :=
  min self.maxDelay (self.minDelay + self.delayStep * (min n (2 ^ 32 - 1) - 2))

end DoomslugTimer

namespace DoomslugApprovalsTracker

def new (accountIdToStakes : AList fun _ : Address => Balance × Balance)
    (thresholdMode : DoomslugThresholdMode) : DoomslugApprovalsTracker where
  witness := ∅
  accountIdToStakes := accountIdToStakes
  totalStakeThisEpoch := (accountIdToStakes.entries.map fun e => e.2.1).sum
  approvedStakeThisEpoch := 0
  totalStakeNextEpoch := (accountIdToStakes.entries.map fun e => e.2.2).sum
  approvedStakeNextEpoch := 0
  timePassedThreshold := none
  thresholdMode := thresholdMode

/-- The stakes of an account; one without stakes counts for nothing. -/
def stakes (self : DoomslugApprovalsTracker) (validator : Address) : Balance × Balance :=
  (self.accountIdToStakes.lookup validator).getD (0, 0)

def CrossesThreshold (self : DoomslugApprovalsTracker) : Prop :=
  self.totalStakeThisEpoch * 2 / 3 < self.approvedStakeThisEpoch ∧
    (self.totalStakeNextEpoch * 2 / 3 < self.approvedStakeNextEpoch ∨
      self.totalStakeNextEpoch = 0)

instance (self : DoomslugApprovalsTracker) : Decidable self.CrossesThreshold :=
  inferInstanceAs (Decidable (_ ∧ _))

/-- The moment the threshold was passed is kept once it is set. -/
def getBlockProductionReadiness (self : DoomslugApprovalsTracker) (now : ℕ) :
    DoomslugApprovalsTracker × DoomslugBlockProductionReadiness :=
  if self.CrossesThreshold ∨ self.thresholdMode = .noApprovals then
    let since := self.timePassedThreshold.getD now
    ({ self with timePassedThreshold := some since }, .readySince since)
  else (self, .notReady)

/-- Count a first approval of an account; `arrival` is the wall clock. -/
def processApproval (self : DoomslugApprovalsTracker) (now arrival : ℕ)
    (approval : ApprovalValidated) :
    DoomslugApprovalsTracker × DoomslugBlockProductionReadiness :=
  let counted :=
    match self.witness.lookup approval.validator with
    | some _ => self
    | none =>
        let stakes := self.stakes approval.validator
        { self with
          witness := self.witness.insert approval.validator (approval, arrival)
          approvedStakeThisEpoch := self.approvedStakeThisEpoch + stakes.1
          approvedStakeNextEpoch := self.approvedStakeNextEpoch + stakes.2 }
  counted.getBlockProductionReadiness now

def withdrawApproval (self : DoomslugApprovalsTracker) (validator : Address) :
    DoomslugApprovalsTracker :=
  match self.witness.lookup validator with
  | none => self
  | some (approval, _) =>
      let stakes := self.stakes approval.validator
      { self with
        witness := self.witness.erase validator
        approvedStakeThisEpoch := self.approvedStakeThisEpoch - stakes.1
        approvedStakeNextEpoch := self.approvedStakeNextEpoch - stakes.2 }

end DoomslugApprovalsTracker

/-- The stakes of the accounts that are not slashed. -/
def accountStakes (stakes : List (ApprovalStake × Bool)) :
    AList fun _ : Address => Balance × Balance :=
  (stakes.filter fun s => !s.2).foldl
    (fun accounts s => accounts.insert s.1.validator (s.1.stakeThisEpoch, s.1.stakeNextEpoch)) ∅

namespace DoomslugApprovalsTrackersAtHeight

def new : DoomslugApprovalsTrackersAtHeight := ⟨∅, ∅⟩

/-- Withdraw what an account approved last; a tracker without witnesses is removed. -/
def withdrawLast (self : DoomslugApprovalsTrackersAtHeight) (validator : Address) :
    DoomslugApprovalsTrackersAtHeight :=
  match self.lastApprovalPerAccount.lookup validator with
  | none => self
  | some lastParent =>
    match self.approvalTrackers.lookup lastParent with
    | none => self
    | some tracker =>
        let left := tracker.withdrawApproval validator
        { self with
          approvalTrackers :=
            if left.witness.entries.isEmpty then self.approvalTrackers.erase lastParent
            else self.approvalTrackers.insert lastParent left }

/-- No readiness stands for the failed assertion that no account is slashed or repeated. -/
def processApproval (self : DoomslugApprovalsTrackersAtHeight) (now arrival : ℕ)
    (approval : ApprovalValidated) (stakes : List (ApprovalStake × Bool))
    (thresholdMode : DoomslugThresholdMode) :
    DoomslugApprovalsTrackersAtHeight × Option DoomslugBlockProductionReadiness :=
  let left := self.withdrawLast approval.validator
  let accounts := accountStakes stakes
  if accounts.entries.length ≠ stakes.length then (left, none)
  else
    match accounts.lookup approval.validator with
    | none => (left, some .notReady)
    | some _ =>
        let inner := approval.content.inner
        let tracker := (left.approvalTrackers.lookup inner).getD
          (DoomslugApprovalsTracker.new accounts thresholdMode)
        let counted := tracker.processApproval now arrival approval
        (⟨left.approvalTrackers.insert inner counted.1,
          left.lastApprovalPerAccount.insert approval.validator inner⟩, some counted.2)

end DoomslugApprovalsTrackersAtHeight

namespace Doomslug

def new (now largestSentTargetHeight endorsementDelay minDelay delayStep maxDelay : ℕ)
    (thresholdMode : DoomslugThresholdMode) : Doomslug where
  approvalTracking := fun _ => none
  largestSentTargetHeight := largestSentTargetHeight
  largestApprovalTargetHeight := 0
  largestFinalHeight := 0
  largestThresholdApprovalsHeight := 0
  tip := ⟨0#256, 0⟩
  endorsementPending := false
  timer := ⟨now, now, 0, endorsementDelay, minDelay, delayStep, maxDelay⟩
  thresholdMode := thresholdMode

def createApproval (self : Doomslug) (targetHeight : ℕ) : ApprovalContent :=
  ApprovalContent.new self.tip.blockHash self.tip.height targetHeight

/-- Endorse the tip once its delay has passed, unless a later height was approved. -/
def endorse (self : Doomslug) (curTime : ℕ) : Doomslug × List ApprovalContent :=
  if self.endorsementPending = true ∧
      self.timer.lastEndorsementSent + self.timer.endorsementDelay ≤ curTime then
    let target := nextHeight self.tip.height
    let waited := { self with
      timer := { self.timer with lastEndorsementSent := curTime }
      endorsementPending := false }
    if self.largestSentTargetHeight ≤ self.tip.height then
      ({ waited with largestSentTargetHeight := target }, [self.createApproval target])
    else (waited, [])
  else (self, [])

/-- Skip the height of the timer once the delay has passed, and go on to the next one. -/
def skip (self : Doomslug) (curTime skipDelay : ℕ) : Option (Doomslug × ApprovalContent) :=
  if self.timer.started + skipDelay ≤ curTime then
    let target := nextHeight self.timer.height
    some ({ self with
      largestSentTargetHeight := max target self.largestSentTargetHeight
      timer := { self.timer with
        started := self.timer.started + skipDelay
        height := nextHeight self.timer.height } }, self.createApproval target)
  else none

def processTimerLoop (curTime : ℕ) : ℕ → Doomslug → Doomslug × List ApprovalContent
  | 0, self => (self, [])
  | iters + 1, self =>
      let skipDelay := self.timer.getDelay (self.timer.height - self.largestFinalHeight)
      let endorsed := self.endorse curTime
      match endorsed.1.skip curTime skipDelay with
      | some (skipped, approval) =>
          let later := processTimerLoop curTime iters skipped
          (later.1, endorsed.2 ++ approval :: later.2)
      | none => endorsed

/-- The approvals to send at a time, of a bounded number of heights. -/
def processTimer (self : Doomslug) (curTime : ℕ) : Doomslug × List ApprovalContent :=
  processTimerLoop curTime maxTimerIters self

def getWitness (self : Doomslug) (prevHash : CryptoHash) (parentHeight targetHeight : ℕ) :
    AList fun _ : Address => ApprovalValidated × ℕ :=
  let inner := ApprovalInner.new prevHash parentHeight targetHeight
  match self.approvalTracking targetHeight with
  | none => ∅
  | some trackers =>
    match trackers.approvalTrackers.lookup inner with
    | none => ∅
    | some tracker => tracker.witness

/-- A new tip; what is too far from it is forgotten. -/
def onBlock (self : Doomslug) (now : ℕ) (blockHash : CryptoHash)
    (height lastFinalHeight : ℕ) : Doomslug :=
  { self with
    tip := ⟨blockHash, height⟩
    largestFinalHeight := lastFinalHeight
    timer := { self.timer with height := nextHeight height, started := now }
    approvalTracking := fun h =>
      if height - maxHeightsBeforeToStoreApprovals < h ∧ h ≤ lastHeightToStore height then
        self.approvalTracking h
      else none
    endorsementPending := true }

def onApprovalInternal (self : Doomslug) (now arrival : ℕ) (approval : ApprovalValidated)
    (stakes : List (ApprovalStake × Bool)) :
    Doomslug × Option DoomslugBlockProductionReadiness :=
  let target := approval.content.targetHeight
  let entry := (self.approvalTracking target).getD DoomslugApprovalsTrackersAtHeight.new
  let processed := entry.processApproval now arrival approval stakes self.thresholdMode
  let tracked := { self with
    approvalTracking := Function.update self.approvalTracking target (some processed.1) }
  match processed.2 with
  | none => (tracked, none)
  | some readiness =>
      ({ tracked with
        largestApprovalTargetHeight := max self.largestApprovalTargetHeight target
        largestThresholdApprovalsHeight :=
          if readiness ≠ .notReady then max self.largestThresholdApprovalsHeight target
          else self.largestThresholdApprovalsHeight }, some readiness)

/-- Process an approval of a height that is not too far from the tip. -/
def onApproval (self : Doomslug) (now arrival : ℕ) (approval : ApprovalValidated)
    (stakes : List (ApprovalStake × Bool)) : Doomslug :=
  if approval.content.targetHeight < self.tip.height ∨
      lastHeightToStore self.tip.height < approval.content.targetHeight then self
  else (self.onApprovalInternal now arrival approval stakes).1

/-- Whether the approvals of the tip allow to produce a block; without all chunks only after
a delay. -/
def readyToProduceBlock (self : Doomslug) (now targetHeight : ℕ) (hasEnoughChunks : Bool) :
    Doomslug × Bool :=
  let inner := ApprovalInner.new self.tip.blockHash self.tip.height targetHeight
  match self.approvalTracking targetHeight with
  | none => (self, false)
  | some trackers =>
    match trackers.approvalTrackers.lookup inner with
    | none => (self, false)
    | some tracker =>
        let checked := tracker.getBlockProductionReadiness now
        let noted := { self with
          approvalTracking := Function.update self.approvalTracking targetHeight
            (some { trackers with
              approvalTrackers := trackers.approvalTrackers.insert inner checked.1 }) }
        match checked.2 with
        | .notReady => (noted, false)
        | .readySince when =>
            if hasEnoughChunks = true then (noted, true)
            else
              let delay :=
                self.timer.getDelay (self.timer.height - self.largestFinalHeight) / 6
              (noted, decide (when + delay < now))

end Doomslug

end PayyRollup.Approvals
