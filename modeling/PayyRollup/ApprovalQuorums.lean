import PayyRollup.ApprovalStakes

/-!
The approvals over every run of blocks, approvals and timers. At every height the approved
stake of a content is that of its witnesses, no account is a witness of two contents, and at
most one content is above the threshold; a block that is ready has the witnesses it needs.
-/
namespace PayyRollup.ApprovalQuorums

open VerifierContracts RollupState NodeBlocks Approvals WeightedQuorums ApprovalStakes

section Runs

inductive Event
  | onApproval (now arrival : ℕ) (approval : ApprovalValidated)
      (stakes : List (ApprovalStake × Bool))
  | onBlock (now : ℕ) (blockHash : CryptoHash) (height lastFinalHeight : ℕ)
  | processTimer (curTime : ℕ)
  | readyToProduceBlock (now targetHeight : ℕ) (hasEnoughChunks : Bool)

def step (s : Doomslug) : Event → Doomslug
  | .onApproval now arrival approval stakes => s.onApproval now arrival approval stakes
  | .onBlock now blockHash height lastFinalHeight =>
      s.onBlock now blockHash height lastFinalHeight
  | .processTimer curTime => (s.processTimer curTime).1
  | .readyToProduceBlock now targetHeight hasEnoughChunks =>
      (s.readyToProduceBlock now targetHeight hasEnoughChunks).1

def run (s : Doomslug) (events : List Event) : Doomslug := events.foldl step s

/-- An approval comes with the stakes of its target height. -/
def Staked (stakesFor : ℕ → List (ApprovalStake × Bool)) : Event → Prop
  | .onApproval _ _ approval stakes => stakes = stakesFor approval.content.targetHeight
  | _ => True

/-- A property of the trackers of every height. -/
def EveryHeight (Q : ℕ → DoomslugApprovalsTrackersAtHeight → Prop) (s : Doomslug) : Prop :=
  ∀ height trackers, s.approvalTracking height = some trackers → Q height trackers

section Rule

variable {Q : ℕ → DoomslugApprovalsTrackersAtHeight → Prop} {s : Doomslug}

theorem EveryHeight.update {s' : Doomslug} (h : EveryHeight Q s) (height : ℕ)
    (trackers : DoomslugApprovalsTrackersAtHeight)
    (htracking : s'.approvalTracking =
      Function.update s.approvalTracking height (some trackers))
    (htrackers : Q height trackers) : EveryHeight Q s' := by
  intro height' trackers' hlookup
  rw [htracking] at hlookup
  by_cases hheight : height' = height
  · subst hheight
    rw [Function.update_self] at hlookup
    obtain rfl := Option.some.inj hlookup
    exact htrackers
  · rw [Function.update_of_ne hheight] at hlookup
    exact h height' trackers' hlookup

theorem endorse_same (curTime : ℕ) :
    (s.endorse curTime).1.approvalTracking = s.approvalTracking ∧
      (s.endorse curTime).1.thresholdMode = s.thresholdMode := by
  unfold Doomslug.endorse
  dsimp only
  split
  · split
    · exact ⟨rfl, rfl⟩
    · exact ⟨rfl, rfl⟩
  · exact ⟨rfl, rfl⟩

theorem skip_same (curTime skipDelay : ℕ) (s' : Doomslug) (approval : ApprovalContent)
    (hskip : s.skip curTime skipDelay = some (s', approval)) :
    s'.approvalTracking = s.approvalTracking ∧ s'.thresholdMode = s.thresholdMode := by
  unfold Doomslug.skip at hskip
  dsimp only at hskip
  split at hskip
  · obtain ⟨rfl, -⟩ := Prod.mk.inj (Option.some.inj hskip)
    exact ⟨rfl, rfl⟩
  · cases hskip

/-- The timer does not touch the trackers. -/
theorem processTimerLoop_same (curTime iters : ℕ) (s : Doomslug) :
    (Doomslug.processTimerLoop curTime iters s).1.approvalTracking = s.approvalTracking ∧
      (Doomslug.processTimerLoop curTime iters s).1.thresholdMode = s.thresholdMode := by
  induction iters generalizing s with
  | zero => exact ⟨rfl, rfl⟩
  | succ iters ih =>
    obtain ⟨htracking, hmode⟩ := @endorse_same s curTime
    rw [Doomslug.processTimerLoop]
    dsimp only
    split
    · rename_i s' approval hskip
      obtain ⟨htracking', hmode'⟩ := skip_same _ _ _ _ hskip
      obtain ⟨htracking'', hmode''⟩ := ih s'
      exact ⟨by rw [htracking'', htracking', htracking], by rw [hmode'', hmode', hmode]⟩
    · exact ⟨htracking, hmode⟩

theorem step_mode (s : Doomslug) (event : Event) :
    (step s event).thresholdMode = s.thresholdMode := by
  cases event with
  | onApproval now arrival approval stakes =>
    dsimp only [step, Doomslug.onApproval, Doomslug.onApprovalInternal]
    split
    · rfl
    · split
      · rfl
      · rfl
  | onBlock now blockHash height lastFinalHeight => rfl
  | processTimer curTime => exact (processTimerLoop_same curTime maxTimerIters s).2
  | readyToProduceBlock now targetHeight hasEnoughChunks =>
    dsimp only [step, Doomslug.readyToProduceBlock]
    split
    · rfl
    split
    · rfl
    split
    · rfl
    · split
      · rfl
      · rfl

/-- A property of new trackers that processing an approval and noting the moment of the
threshold keep is kept by every event. -/
theorem EveryHeight.step (h : EveryHeight Q s) (event : Event)
    (hnew : ∀ height, Q height DoomslugApprovalsTrackersAtHeight.new)
    (hprocess : ∀ now arrival approval stakes trackers,
      event = .onApproval now arrival approval stakes → Q approval.content.targetHeight trackers →
      Q approval.content.targetHeight
        (trackers.processApproval now arrival approval stakes s.thresholdMode).1)
    (hnote : ∀ height trackers inner tracker now, Q height trackers →
      trackers.approvalTrackers.lookup inner = some tracker →
      Q height { trackers with
        approvalTrackers := trackers.approvalTrackers.insert inner
          (tracker.getBlockProductionReadiness now).1 }) :
    EveryHeight Q (step s event) := by
  cases event with
  | onApproval now arrival approval stakes =>
    change EveryHeight Q (s.onApproval now arrival approval stakes)
    unfold Doomslug.onApproval
    split
    · exact h
    have hentry : Q approval.content.targetHeight
        ((s.approvalTracking approval.content.targetHeight).getD
          DoomslugApprovalsTrackersAtHeight.new) := by
      cases hlookup : s.approvalTracking approval.content.targetHeight with
      | none => exact hnew _
      | some trackers => exact h _ _ hlookup
    have hprocessed := hprocess now arrival approval stakes _ rfl hentry
    unfold Doomslug.onApprovalInternal
    dsimp only
    split
    · exact h.update _ _ rfl hprocessed
    · exact h.update _ _ rfl hprocessed
  | onBlock now blockHash height lastFinalHeight =>
    intro height' trackers hlookup
    dsimp only [ApprovalQuorums.step, Doomslug.onBlock] at hlookup
    split at hlookup
    · exact h height' trackers hlookup
    · cases hlookup
  | processTimer curTime =>
    intro height trackers hlookup
    change (Doomslug.processTimerLoop curTime maxTimerIters s).1.approvalTracking height = _
      at hlookup
    rw [(processTimerLoop_same curTime maxTimerIters s).1] at hlookup
    exact h height trackers hlookup
  | readyToProduceBlock now targetHeight hasEnoughChunks =>
    change EveryHeight Q (s.readyToProduceBlock now targetHeight hasEnoughChunks).1
    unfold Doomslug.readyToProduceBlock
    dsimp only
    split
    · exact h
    rename_i trackers htrackers
    split
    · exact h
    rename_i tracker htracker
    have hnoted := hnote targetHeight trackers _ tracker now (h _ _ htrackers) htracker
    split
    · exact h.update _ _ rfl hnoted
    · split
      · exact h.update _ _ rfl hnoted
      · exact h.update _ _ rfl hnoted

end Rule

/-- What the trackers keep at every height. -/
structure Inv (stakesFor : ℕ → List (ApprovalStake × Bool)) (s : Doomslug) : Prop where
  mode : s.thresholdMode = .twoThirds
  heights : EveryHeight (fun height => HeightInv (stakesFor height) height) s

variable {stakesFor : ℕ → List (ApprovalStake × Bool)} {s : Doomslug}

theorem inv_new (now largestSentTargetHeight endorsementDelay minDelay delayStep maxDelay : ℕ) :
    Inv stakesFor (Doomslug.new now largestSentTargetHeight endorsementDelay minDelay delayStep
      maxDelay .twoThirds) :=
  ⟨rfl, fun _ _ hlookup => by cases hlookup⟩

theorem step_inv (h : Inv stakesFor s) (hstaked : ∀ height, WellStaked (stakesFor height))
    (event : Event) (hevent : Staked stakesFor event) : Inv stakesFor (step s event) := by
  refine ⟨(step_mode s event).trans h.mode, ?_⟩
  refine h.heights.step event (fun _ => heightInv_new) ?_ ?_
  · intro now arrival approval stakes trackers heq htrackers
    subst heq
    obtain rfl : stakes = stakesFor approval.content.targetHeight := hevent
    rw [h.mode]
    exact htrackers.processApproval (hstaked _) now arrival approval rfl
  · intro height trackers inner tracker now htrackers hlookup
    refine htrackers.insert inner _ ((htrackers.tracked _ _ hlookup).readiness now) ?_
    intro a hmem
    rw [readiness_witness] at hmem
    exact htrackers.last _ _ _ hlookup hmem

theorem run_inv (hstaked : ∀ height, WellStaked (stakesFor height)) (events : List Event)
    (hevents : ∀ event ∈ events, Staked stakesFor event) (s : Doomslug) (h : Inv stakesFor s) :
    Inv stakesFor (run s events) := by
  induction events generalizing s with
  | nil => exact h
  | cons event rest ih =>
    have hfirst := step_inv h hstaked event (hevents event List.mem_cons_self)
    exact ih (fun e he => hevents e (List.mem_cons_of_mem _ he)) _ hfirst

end Runs

section Witnesses

/-- An approval satisfies a predicate when it is processed. -/
def Checked (P : ApprovalValidated → Prop) : Event → Prop
  | .onApproval _ _ approval _ => P approval
  | _ => True

/-- Every witness at a height satisfies a predicate. -/
def AllWitnesses (P : ApprovalValidated → Prop) (s : DoomslugApprovalsTrackersAtHeight) : Prop :=
  ∀ inner t a approval arrival, s.approvalTrackers.lookup inner = some t →
    t.witness.lookup a = some (approval, arrival) → P approval

variable {P : ApprovalValidated → Prop} {s : DoomslugApprovalsTrackersAtHeight}

theorem AllWitnesses.insert (h : AllWitnesses P s) (inner : ApprovalInner)
    (t : DoomslugApprovalsTracker) (last : AList fun _ : Address => ApprovalInner)
    (ht : ∀ a approval arrival, t.witness.lookup a = some (approval, arrival) → P approval) :
    AllWitnesses P ⟨s.approvalTrackers.insert inner t, last⟩ := by
  intro inner' t' a approval arrival hlookup hwitness
  by_cases hinner : inner' = inner
  · subst hinner
    rw [AList.lookup_insert] at hlookup
    obtain rfl := Option.some.inj hlookup
    exact ht a approval arrival hwitness
  · rw [AList.lookup_insert_ne hinner] at hlookup
    exact h inner' t' a approval arrival hlookup hwitness

theorem AllWitnesses.withdrawLast (h : AllWitnesses P s) (validator : Address) :
    AllWitnesses P (s.withdrawLast validator) := by
  unfold DoomslugApprovalsTrackersAtHeight.withdrawLast
  split
  · exact h
  split
  · exact h
  rename_i lastParent _ _ tracker htracker
  dsimp only
  split
  · intro inner t a approval arrival hlookup hwitness
    by_cases hinner : inner = lastParent
    · subst hinner
      rw [AList.lookup_erase] at hlookup
      cases hlookup
    · rw [AList.lookup_erase_ne hinner] at hlookup
      exact h inner t a approval arrival hlookup hwitness
  · refine h.insert lastParent _ _ ?_
    intro a approval arrival hwitness
    rw [withdrawApproval_witness] at hwitness
    by_cases ha : a = validator
    · subst ha
      rw [AList.lookup_erase] at hwitness
      cases hwitness
    · rw [AList.lookup_erase_ne ha] at hwitness
      exact h lastParent tracker a approval arrival htracker hwitness

theorem processApproval_witness_cases (t : DoomslugApprovalsTracker) (now arrival : ℕ)
    (approval : ApprovalValidated) (a : Address) (approval' : ApprovalValidated) (arrival' : ℕ)
    (h : (t.processApproval now arrival approval).1.witness.lookup a =
      some (approval', arrival')) :
    approval' = approval ∨ t.witness.lookup a = some (approval', arrival') := by
  unfold DoomslugApprovalsTracker.processApproval at h
  dsimp only at h
  rw [readiness_witness] at h
  split at h
  · exact Or.inr h
  · dsimp only at h
    by_cases ha : a = approval.validator
    · subst ha
      rw [AList.lookup_insert] at h
      exact Or.inl (Prod.mk.inj (Option.some.inj h)).1.symm
    · rw [AList.lookup_insert_ne ha] at h
      exact Or.inr h

theorem AllWitnesses.processApproval (h : AllWitnesses P s) (now arrival : ℕ)
    (approval : ApprovalValidated) (stakes : List (ApprovalStake × Bool))
    (thresholdMode : DoomslugThresholdMode) (happroval : P approval) :
    AllWitnesses P (s.processApproval now arrival approval stakes thresholdMode).1 := by
  have hleft := h.withdrawLast approval.validator
  unfold DoomslugApprovalsTrackersAtHeight.processApproval
  dsimp only
  split
  · exact hleft
  split
  · exact hleft
  refine hleft.insert _ _ _ ?_
  intro a approval' arrival' hwitness
  rcases processApproval_witness_cases _ _ _ _ _ _ _ hwitness with rfl | hold
  · exact happroval
  · cases hlookup : (s.withdrawLast approval.validator).approvalTrackers.lookup
        approval.content.inner with
    | none =>
      rw [hlookup] at hold
      change (∅ : AList fun _ : Address => ApprovalValidated × ℕ).lookup a = _ at hold
      rw [AList.lookup_empty] at hold
      cases hold
    | some t =>
      rw [hlookup] at hold
      exact hleft _ t a approval' arrival' hlookup hold

theorem step_witnesses {s : Doomslug} (h : EveryHeight (fun _ => AllWitnesses P) s)
    (event : Event) (hevent : Checked P event) :
    EveryHeight (fun _ => AllWitnesses P) (step s event) := by
  refine h.step event (fun _ => ?_) ?_ ?_
  · intro inner t a approval arrival hlookup
    change (∅ : AList fun _ : ApprovalInner => DoomslugApprovalsTracker).lookup inner = _ at hlookup
    rw [AList.lookup_empty] at hlookup
    cases hlookup
  · intro now arrival approval stakes trackers heq htrackers
    subst heq
    exact htrackers.processApproval now arrival approval stakes s.thresholdMode hevent
  · intro height trackers inner tracker now htrackers hlookup
    refine htrackers.insert inner _ _ ?_
    intro a approval arrival hwitness
    rw [readiness_witness] at hwitness
    exact htrackers inner tracker a approval arrival hlookup hwitness

theorem run_witnesses (events : List Event) (hevents : ∀ event ∈ events, Checked P event)
    (s : Doomslug) (h : EveryHeight (fun _ => AllWitnesses P) s) :
    EveryHeight (fun _ => AllWitnesses P) (run s events) := by
  induction events generalizing s with
  | nil => exact h
  | cons event rest ih =>
    have hfirst := step_witnesses h event (hevents event List.mem_cons_self)
    exact ih (fun e he => hevents e (List.mem_cons_of_mem _ he)) _ hfirst

end Witnesses

section Quorums

/-- What holds of the trackers of a height: no account is a witness of two contents, the
approved stakes are those of the witnesses and can be withdrawn, and one content at most is
above the threshold. -/
structure SoundAt (stakes : List (ApprovalStake × Bool))
    (s : DoomslugApprovalsTrackersAtHeight) : Prop where
  one_content : ∀ inner inner' t t' a, s.approvalTrackers.lookup inner = some t →
    s.approvalTrackers.lookup inner' = some t' → a ∈ t.witness → a ∈ t'.witness → inner = inner'
  approved_this : ∀ inner t, s.approvalTrackers.lookup inner = some t →
    t.approvedStakeThisEpoch.toNat = ∑ a ∈ accounts t.witness, weight Prod.fst stakes a
  approved_next : ∀ inner t, s.approvalTrackers.lookup inner = some t →
    t.approvedStakeNextEpoch.toNat = ∑ a ∈ accounts t.witness, weight Prod.snd stakes a
  no_underflow : ∀ inner t a, s.approvalTrackers.lookup inner = some t → a ∈ t.witness →
    (t.stakes a).1 ≤ t.approvedStakeThisEpoch ∧ (t.stakes a).2 ≤ t.approvedStakeNextEpoch
  one_above : ∀ inner inner' t t', s.approvalTrackers.lookup inner = some t →
    s.approvalTrackers.lookup inner' = some t' → t.CrossesThreshold → t'.CrossesThreshold →
      inner = inner'

/-- Witnesses who approve the tip for a height with two thirds of the stake of the current
epoch, and of the next one if it has any. -/
structure Witnesses (stakes : List (ApprovalStake × Bool)) (tip : DoomslugTip)
    (targetHeight : ℕ) (witness : AList fun _ : Address => ApprovalValidated × ℕ) : Prop where
  approvals : ∀ a approval arrival, witness.lookup a = some (approval, arrival) →
    approval.validator = a ∧
      approval.content = ApprovalContent.new tip.blockHash tip.height targetHeight
  this_epoch : 2 * totalStake Prod.fst stakes <
    3 * ∑ a ∈ accounts witness, weight Prod.fst stakes a
  next_epoch : totalStake Prod.snd stakes ≠ 0 → 2 * totalStake Prod.snd stakes <
    3 * ∑ a ∈ accounts witness, weight Prod.snd stakes a

variable {stakes : List (ApprovalStake × Bool)} {targetHeight : ℕ}

theorem soundAt_of_inv {s : DoomslugApprovalsTrackersAtHeight}
    (h : HeightInv stakes targetHeight s) (hstaked : WellStaked stakes) :
    SoundAt stakes s := by
  have hone : ∀ inner inner' t t' a, s.approvalTrackers.lookup inner = some t →
      s.approvalTrackers.lookup inner' = some t' → a ∈ t.witness → a ∈ t'.witness →
      inner = inner' := by
    intro inner inner' t t' a hlookup hlookup' ha ha'
    have hlast := h.last inner t a hlookup ha
    rw [h.last inner' t' a hlookup' ha'] at hlast
    exact (Option.some.inj hlast).symm
  refine ⟨hone, fun inner t hlookup => (h.tracked inner t hlookup).approved_this,
    fun inner t hlookup => (h.tracked inner t hlookup).approved_next, ?_, ?_⟩
  · intro inner t a hlookup ha
    have htracked := h.tracked inner t hlookup
    rw [← mem_accounts] at ha
    exact ⟨stake_le_approved htracked.approved_this (htracked.stakes_this a) ha,
      stake_le_approved htracked.approved_next (htracked.stakes_next a) ha⟩
  · intro inner inner' t t' hlookup hlookup' hcross hcross'
    have hquorum := ((h.tracked inner t hlookup).crosses_iff hstaked).mp hcross
    have hquorum' := ((h.tracked inner' t' hlookup').crosses_iff hstaked).mp hcross'
    obtain ⟨a, ha, ha'⟩ := hquorum.1.not_disjoint hquorum'.1
    rw [mem_accounts] at ha ha'
    exact hone inner inner' t t' a hlookup hlookup' ha ha'

theorem Inv.witnesses {stakesFor : ℕ → List (ApprovalStake × Bool)} {s : Doomslug}
    (h : Inv stakesFor s) (hstaked : ∀ height, WellStaked (stakesFor height))
    (now targetHeight : ℕ) (hasEnoughChunks : Bool)
    (hready : (s.readyToProduceBlock now targetHeight hasEnoughChunks).2 = true) :
    Witnesses (stakesFor targetHeight) s.tip targetHeight
      (s.getWitness s.tip.blockHash s.tip.height targetHeight) := by
  unfold Doomslug.readyToProduceBlock at hready
  unfold Doomslug.getWitness
  dsimp only at hready ⊢
  cases htrackers : s.approvalTracking targetHeight with
  | none =>
    rw [htrackers] at hready
    cases hready
  | some trackers =>
    rw [htrackers] at hready
    dsimp only at hready ⊢
    cases htracker : trackers.approvalTrackers.lookup
        (ApprovalInner.new s.tip.blockHash s.tip.height targetHeight) with
    | none =>
      rw [htracker] at hready
      cases hready
    | some t =>
      rw [htracker] at hready
      dsimp only at hready ⊢
      have htracked := (h.heights _ _ htrackers).tracked _ _ htracker
      have hcross : t.CrossesThreshold := by
        by_contra hnot
        have hnotReady : (t.getBlockProductionReadiness now).2 = .notReady := by
          unfold DoomslugApprovalsTracker.getBlockProductionReadiness
          rw [if_neg]
          rintro (hcross | hmode)
          · exact hnot hcross
          · rw [htracked.mode] at hmode
            cases hmode
        rw [hnotReady] at hready
        cases hready
      obtain ⟨hthis, hnext⟩ := (htracked.crosses_iff (hstaked targetHeight)).mp hcross
      have hdistinct := (hstaked targetHeight).distinct
      refine ⟨htracked.approvals, ?_, ?_⟩
      · have hweight := hthis.two_thirds
        rwa [sum_members hdistinct htracked.unslashed] at hweight
      · intro hne
        have hweight := (hnext hne).two_thirds
        rwa [sum_members hdistinct htracked.unslashed] at hweight

end Quorums

/-- In every run in which the stakes of a height are always the same, the trackers of every
height are sound, and a block that is ready to be produced has its witnesses. -/
theorem run_tracks_approvals (stakesFor : ℕ → List (ApprovalStake × Bool))
    (hstaked : ∀ height, WellStaked (stakesFor height))
    (now largestSentTargetHeight endorsementDelay minDelay delayStep maxDelay : ℕ)
    (events : List Event) (hevents : ∀ event ∈ events, Staked stakesFor event) :
    let s := run (Doomslug.new now largestSentTargetHeight endorsementDelay minDelay delayStep
      maxDelay .twoThirds) events
    (∀ height trackers, s.approvalTracking height = some trackers →
      SoundAt (stakesFor height) trackers) ∧
    ∀ now targetHeight hasEnoughChunks,
      (s.readyToProduceBlock now targetHeight hasEnoughChunks).2 = true →
        Witnesses (stakesFor targetHeight) s.tip targetHeight
          (s.getWitness s.tip.blockHash s.tip.height targetHeight) := by
  intro s
  have hinv : Inv stakesFor s := by
    apply run_inv hstaked events hevents
    exact inv_new now largestSentTargetHeight endorsementDelay minDelay delayStep maxDelay
  refine ⟨?_, fun now targetHeight hasEnoughChunks => hinv.witnesses hstaked now _ _⟩
  intro height trackers hlookup
  exact soundAt_of_inv (hinv.heights height trackers hlookup) (hstaked height)

def approvalOf (validator : Address) : Event :=
  .onApproval 0 0 ⟨ApprovalContent.new 0#256 0 1, Vector.replicate 65 0, validator⟩
    (unitStakes [1#160, 2#160, 3#160])

/-- Three approvals of the tip make the next block ready, with the three as witnesses. -/
theorem run_tracks_three_approvals :
    let s := run (Doomslug.new 0 0 0 0 0 0 .twoThirds)
      [approvalOf 1#160, approvalOf 2#160, approvalOf 3#160]
    (s.readyToProduceBlock 1 1 true).2 = true ∧
      Witnesses (unitStakes [1#160, 2#160, 3#160]) s.tip 1
        (s.getWitness s.tip.blockHash s.tip.height 1) := by
  intro s
  have hready : (s.readyToProduceBlock 1 1 true).2 = true := by decide
  refine ⟨hready, ?_⟩
  have hstaked : WellStaked (unitStakes [1#160, 2#160, 3#160]) :=
    wellStaked_unitStakes _ (by decide) (by decide)
  have htracks := run_tracks_approvals (fun _ => unitStakes [1#160, 2#160, 3#160])
    (fun _ => hstaked) 0 0 0 0 0 0 [approvalOf 1#160, approvalOf 2#160, approvalOf 3#160]
    (by
      intro event hevent
      simp only [List.mem_cons, List.not_mem_nil, or_false] at hevent
      rcases hevent with rfl | rfl | rfl
      · rfl
      · rfl
      · rfl)
  exact htracks.2 1 1 true hready

end PayyRollup.ApprovalQuorums
