import PayyRollup.ApprovalStakes

/-!
The check of the approvals of a block beside the tracker that collects them. Both compare the
approved stake with two thirds of the total, rounded down. The tracker lets an epoch without any
stake pass only if it is the next one, while the check lets every epoch pass whose rounded
threshold is zero, and a total of one has that threshold as well. Sums wrap in both at the same
places, so they are compared as words.
-/
namespace PayyRollup.StaticQuorums

open VerifierContracts RollupState NodeBlocks Approvals ApprovalStakes

def canApprovedBlockBeProduced (mode : DoomslugThresholdMode) (approvals : List (Option Bool))
    (stakes : List (Balance × Balance × Bool)) : Bool :=
  if mode = .noApprovals then true
  else
    let threshold1 := (stakes.map fun s => s.1).sum * 2 / 3
    let threshold2 := (stakes.map fun s => s.2.1).sum * 2 / 3
    let unslashed := (approvals.zip stakes).filter fun p => !p.2.2.2
    let approvedStake1 := (unslashed.map fun p => if p.1.isSome then p.2.1 else 0).sum
    let approvedStake2 := (unslashed.map fun p => if p.1.isSome then p.2.2.1 else 0).sum
    decide ((threshold1 < approvedStake1 ∨ threshold1 = 0) ∧
      (threshold2 < approvedStake2 ∨ threshold2 = 0))

/-- An approval as it comes in: the moment, the wall clock and the message. -/
structure Arrival where
  now : ℕ
  arrival : ℕ
  approval : ApprovalValidated

/-- A new tracker after it has processed the approvals one by one. -/
def feed (start : DoomslugApprovalsTracker) (arrivals : List Arrival) :
    DoomslugApprovalsTracker :=
  arrivals.foldl (fun tracker a => (tracker.processApproval a.now a.arrival a.approval).1) start

def voters (arrivals : List Arrival) : List Address := arrivals.map fun a => a.approval.validator

/-- The approvals of a block, in the order of the validators. -/
def approvalsOf (stakes : List (ApprovalStake × Bool)) (voters : List Address) :
    List (Option Bool) :=
  stakes.map fun s => if s.1.validator ∈ voters then some true else none

def stakeTuples (stakes : List (ApprovalStake × Bool)) : List (Balance × Balance × Bool) :=
  stakes.map fun s => (s.1.stakeThisEpoch, s.1.stakeNextEpoch, s.2)

/-- Distinct accounts of which none is slashed, as the trackers assert. -/
structure Listed (stakes : List (ApprovalStake × Bool)) : Prop where
  distinct : (stakes.map fun s => s.1.validator).Nodup
  unslashed : ∀ s ∈ stakes, s.2 = false

def partOf (part : StakePart) (s : ApprovalStake × Bool) : Balance :=
  part (s.1.stakeThisEpoch, s.1.stakeNextEpoch)

def total (part : StakePart) (stakes : List (ApprovalStake × Bool)) : Balance :=
  (stakes.map (partOf part)).sum

def approved (part : StakePart) (stakes : List (ApprovalStake × Bool)) (voters : List Address) :
    Balance :=
  (stakes.map fun s => if s.1.validator ∈ voters then partOf part s else 0).sum

/-- Two thirds of the total, rounded down. -/
def threshold (part : StakePart) (stakes : List (ApprovalStake × Bool)) : Balance :=
  total part stakes * 2 / 3

/-- What the check asks of an epoch. -/
def Passes (part : StakePart) (stakes : List (ApprovalStake × Bool)) (voters : List Address) :
    Prop :=
  threshold part stakes < approved part stakes voters ∨ threshold part stakes = 0

section Check

variable {stakes : List (ApprovalStake × Bool)}

theorem filtered_sum (h : ∀ s ∈ stakes, s.2 = false) (voters : List Address)
    (value : Balance × Balance × Bool → Balance) :
    ((((approvalsOf stakes voters).zip (stakeTuples stakes)).filter fun p => !p.2.2.2).map
        fun p => if p.1.isSome then value p.2 else 0).sum =
      (stakes.map fun s => if s.1.validator ∈ voters then
        value (s.1.stakeThisEpoch, s.1.stakeNextEpoch, s.2) else 0).sum := by
  induction stakes with
  | nil => rfl
  | cons s rest ih =>
    obtain ⟨hfirst, hrest⟩ := List.forall_mem_cons.mp h
    have htail := ih hrest
    unfold approvalsOf stakeTuples at htail ⊢
    rw [List.map_cons, List.map_cons, List.zip_cons_cons, List.filter_cons_of_pos (by simp [hfirst]),
      List.map_cons, List.sum_cons, htail, List.map_cons, List.sum_cons]
    by_cases hvoter : s.1.validator ∈ voters
    · simp [hvoter]
    · simp [hvoter]

/-- The check passes if both epochs do. -/
theorem canApproved_iff (h : Listed stakes) (mode : DoomslugThresholdMode)
    (voters : List Address) :
    canApprovedBlockBeProduced mode (approvalsOf stakes voters) (stakeTuples stakes) = true ↔
      mode = .noApprovals ∨ Passes Prod.fst stakes voters ∧ Passes Prod.snd stakes voters := by
  have htotal : ∀ part : StakePart, ∀ value : Balance × Balance × Bool → Balance,
      (∀ s : ApprovalStake × Bool,
        value (s.1.stakeThisEpoch, s.1.stakeNextEpoch, s.2) = partOf part s) →
        ((stakeTuples stakes).map value).sum = total part stakes := by
    intro part value hvalue
    rw [stakeTuples, List.map_map, total]
    exact congrArg List.sum (List.map_congr_left fun s _ => hvalue s)
  unfold canApprovedBlockBeProduced
  by_cases hmode : mode = .noApprovals
  · simp [hmode]
  · rw [if_neg hmode, or_iff_right hmode]
    dsimp only
    rw [decide_eq_true_eq, filtered_sum h.unslashed voters (fun s => s.1),
      filtered_sum h.unslashed voters (fun s => s.2.1), htotal Prod.fst _ fun _ => rfl,
      htotal Prod.snd _ fun _ => rfl]
    rfl

end Check

section Tracker

variable {stakes : List (ApprovalStake × Bool)}

theorem Listed.filter_eq (h : Listed stakes) : (stakes.filter fun s => !s.2) = stakes :=
  List.filter_eq_self.mpr fun s hs => by rw [h.unslashed s hs]; rfl

theorem Listed.entries (h : Listed stakes) :
    (accountStakes stakes).entries = (stakes.map fun s =>
      ⟨s.1.validator, (s.1.stakeThisEpoch, s.1.stakeNextEpoch)⟩).reverse := by
  rw [accountStakes_entries h.distinct, h.filter_eq]

theorem Listed.total_eq (h : Listed stakes) (part : StakePart) :
    ((accountStakes stakes).entries.map fun e => part e.2).sum = total part stakes := by
  rw [h.entries, List.map_reverse, List.sum_reverse, List.map_map]
  rfl

/-- What the tracker adds for an account. -/
def share (part : StakePart) (stakes : List (ApprovalStake × Bool)) (a : Address) : Balance :=
  part (((accountStakes stakes).lookup a).getD (0, 0))

theorem sum_others (part : StakePart) (a : Address) (others : List (ApprovalStake × Bool))
    (h : ∀ s ∈ others, s.1.validator ≠ a) :
    (others.map fun s => if s.1.validator = a then partOf part s else 0).sum = 0 := by
  induction others with
  | nil => rfl
  | cons s rest ih =>
    obtain ⟨hfirst, hrest⟩ := List.forall_mem_cons.mp h
    rw [List.map_cons, List.sum_cons, if_neg hfirst, ih hrest]
    exact BitVec.add_zero 0

/-- The stakes of one account in the list are those of the tracker's table. -/
theorem Listed.sum_single (h : Listed stakes) (part : StakePart) (hzero : part (0, 0) = 0)
    (a : Address) :
    (stakes.map fun s => if s.1.validator = a then partOf part s else 0).sum =
      share part stakes a := by
  have hlookup : ∀ pair, (accountStakes stakes).lookup a = some pair ↔
      ∃ s ∈ stakes, s.1.validator = a ∧ (s.1.stakeThisEpoch, s.1.stakeNextEpoch) = pair := by
    intro pair
    refine AList.mem_lookup_iff.trans ?_
    rw [h.entries, List.mem_reverse, List.mem_map]
    refine exists_congr fun s => and_congr_right fun _ => ?_
    constructor
    · intro heq
      cases heq
      exact ⟨rfl, rfl⟩
    · rintro ⟨rfl, rfl⟩
      rfl
  by_cases hmem : ∃ s ∈ stakes, s.1.validator = a
  · obtain ⟨s, hs, rfl⟩ := hmem
    have hshare : share part stakes s.1.validator = partOf part s := by
      unfold share
      rw [(hlookup _).mpr ⟨s, hs, rfl, rfl⟩]
      rfl
    obtain ⟨before, after, rfl⟩ := List.append_of_mem hs
    have hdistinct := h.distinct
    rw [List.map_append, List.map_cons] at hdistinct
    have hbefore : ∀ x ∈ before, x.1.validator ≠ s.1.validator := by
      intro x hx heq
      exact (List.nodup_append.mp hdistinct).2.2 _ (List.mem_map_of_mem hx) _ List.mem_cons_self heq
    have hafter : ∀ x ∈ after, x.1.validator ≠ s.1.validator := by
      intro x hx heq
      exact (List.nodup_cons.mp (List.nodup_append.mp hdistinct).2.1).1
        (List.mem_map.mpr ⟨x, hx, heq⟩)
    rw [hshare, List.map_append, List.map_cons, List.sum_append, List.sum_cons, if_pos rfl,
      sum_others part _ before hbefore, sum_others part _ after hafter]
    exact (BitVec.zero_add _).trans (BitVec.add_zero _)
  · have hnone : (accountStakes stakes).lookup a = none := by
      rw [Option.eq_none_iff_forall_ne_some]
      intro pair hpair
      obtain ⟨s, hs, heq, -⟩ := (hlookup pair).mp hpair
      exact hmem ⟨s, hs, heq⟩
    rw [sum_others part a stakes fun s hs heq => hmem ⟨s, hs, heq⟩, share, hnone]
    exact hzero.symm

theorem approved_congr (part : StakePart) (first second : List Address)
    (h : ∀ a, a ∈ first ↔ a ∈ second) :
    approved part stakes first = approved part stakes second := by
  unfold approved
  refine congrArg List.sum (List.map_congr_left fun s _ => ?_)
  simp only [h]

/-- A first approval of an account adds its stake. -/
theorem Listed.approved_cons (h : Listed stakes) (part : StakePart) (hzero : part (0, 0) = 0)
    (a : Address) (voters : List Address) (hfresh : a ∉ voters) :
    approved part stakes (a :: voters) = approved part stakes voters + share part stakes a := by
  rw [← h.sum_single part hzero a, approved, approved]
  clear h
  induction stakes with
  | nil => rfl
  | cons s rest ih =>
    rw [List.map_cons, List.sum_cons, ih, List.map_cons, List.sum_cons, List.map_cons,
      List.sum_cons]
    by_cases hsame : s.1.validator = a
    · rw [if_pos (by simp [hsame]), if_neg (by rwa [hsame]), if_pos hsame]
      ac_rfl
    · simp only [List.mem_cons, hsame, false_or, if_false]
      ac_rfl

/-- What a tracker holds that was fed approvals of these accounts. -/
structure Fed (stakes : List (ApprovalStake × Bool)) (mode : DoomslugThresholdMode)
    (voters : List Address) (t : DoomslugApprovalsTracker) : Prop where
  mode_eq : t.thresholdMode = mode
  account_stakes : t.accountIdToStakes = accountStakes stakes
  total_this : t.totalStakeThisEpoch = total Prod.fst stakes
  total_next : t.totalStakeNextEpoch = total Prod.snd stakes
  witness : ∀ a, a ∈ t.witness ↔ a ∈ voters
  approved_this : t.approvedStakeThisEpoch = approved Prod.fst stakes voters
  approved_next : t.approvedStakeNextEpoch = approved Prod.snd stakes voters

theorem Fed.readiness {mode : DoomslugThresholdMode} {voters : List Address}
    {t : DoomslugApprovalsTracker} (h : Fed stakes mode voters t) (now : ℕ) :
    Fed stakes mode voters (t.getBlockProductionReadiness now).1 := by
  unfold DoomslugApprovalsTracker.getBlockProductionReadiness
  split
  · exact { h with }
  · exact h

theorem Fed.process {mode : DoomslugThresholdMode} {voters : List Address}
    {t : DoomslugApprovalsTracker} (h : Fed stakes mode voters t) (hlisted : Listed stakes)
    (a : Arrival) :
    Fed stakes mode (a.approval.validator :: voters)
      (t.processApproval a.now a.arrival a.approval).1 := by
  unfold DoomslugApprovalsTracker.processApproval
  refine Fed.readiness ?_ a.now
  cases hlookup : t.witness.lookup a.approval.validator with
  | some known =>
    have hknown : a.approval.validator ∈ voters := by
      rw [← h.witness, ← AList.lookup_isSome, hlookup]
      rfl
    have hsame : ∀ x, x ∈ voters ↔ x ∈ a.approval.validator :: voters := by
      intro x
      rw [List.mem_cons]
      exact ⟨Or.inr, fun hx => hx.elim (fun heq => heq ▸ hknown) id⟩
    exact { h with
      witness := fun x => (h.witness x).trans (hsame x)
      approved_this := h.approved_this.trans (approved_congr Prod.fst _ _ hsame)
      approved_next := h.approved_next.trans (approved_congr Prod.snd _ _ hsame) }
  | none =>
    have hfresh : a.approval.validator ∉ voters := by
      rw [← h.witness]
      exact AList.lookup_eq_none.mp hlookup
    refine { h with witness := ?_, approved_this := ?_, approved_next := ?_ }
    · intro x
      rw [AList.mem_insert, h.witness, List.mem_cons]
    · rw [hlisted.approved_cons Prod.fst rfl _ _ hfresh]
      dsimp only [DoomslugApprovalsTracker.stakes]
      rw [h.approved_this, h.account_stakes]
      rfl
    · rw [hlisted.approved_cons Prod.snd rfl _ _ hfresh]
      dsimp only [DoomslugApprovalsTracker.stakes]
      rw [h.approved_next, h.account_stakes]
      rfl

theorem approved_nobody (part : StakePart) : approved part stakes [] = 0 := by
  unfold approved
  induction stakes with
  | nil => rfl
  | cons s rest ih =>
    rw [List.map_cons, List.sum_cons, ih, if_neg List.not_mem_nil]
    exact BitVec.add_zero 0

theorem Listed.fed_new (h : Listed stakes) (mode : DoomslugThresholdMode) :
    Fed stakes mode [] (DoomslugApprovalsTracker.new (accountStakes stakes) mode) where
  mode_eq := rfl
  account_stakes := rfl
  total_this := h.total_eq Prod.fst
  total_next := h.total_eq Prod.snd
  witness := by
    intro a
    exact iff_of_false (AList.notMem_empty a) List.not_mem_nil
  approved_this := (approved_nobody Prod.fst).symm
  approved_next := (approved_nobody Prod.snd).symm

/-- The tracker after the approvals holds the stakes of those who approved. -/
theorem Listed.fed (h : Listed stakes) (mode : DoomslugThresholdMode) (arrivals : List Arrival) :
    ∃ known : List Address, (∀ a, a ∈ known ↔ a ∈ voters arrivals) ∧ Fed stakes mode known
      (feed (DoomslugApprovalsTracker.new (accountStakes stakes) mode) arrivals) := by
  induction arrivals using List.reverseRecOn with
  | nil => exact ⟨[], fun _ => Iff.rfl, h.fed_new mode⟩
  | append_singleton arrivals a ih =>
    obtain ⟨known, hknown, hfed⟩ := ih
    refine ⟨a.approval.validator :: known, ?_, ?_⟩
    · intro x
      rw [voters, List.map_append, List.mem_append, List.mem_cons, hknown]
      simp [voters, or_comm]
    · rw [feed, List.foldl_concat]
      exact hfed.process h a

end Tracker

section Comparison

/-- The tracker reports the block ready. -/
def Ready (t : DoomslugApprovalsTracker) (now : ℕ) : Prop :=
  (t.getBlockProductionReadiness now).2 ≠ .notReady

/-- Where a threshold is zero, the zero does not decide: an epoch whose rounded threshold is zero
has approved stake, or has no stake and is the next one, or the other epoch does not pass. -/
structure ThresholdsTell (stakes : List (ApprovalStake × Bool)) (voters : List Address) : Prop where
  this_epoch : threshold Prod.fst stakes = 0 → approved Prod.fst stakes voters = 0 →
    ¬Passes Prod.snd stakes voters
  next_epoch : threshold Prod.snd stakes = 0 → approved Prod.snd stakes voters = 0 →
    total Prod.snd stakes ≠ 0 → ¬Passes Prod.fst stakes voters

variable {stakes : List (ApprovalStake × Bool)}

theorem Fed.ready_iff {mode : DoomslugThresholdMode} {voters : List Address}
    {t : DoomslugApprovalsTracker} (h : Fed stakes mode voters t) (now : ℕ) :
    Ready t now ↔ mode = .noApprovals ∨
      threshold Prod.fst stakes < approved Prod.fst stakes voters ∧
        (threshold Prod.snd stakes < approved Prod.snd stakes voters ∨
          total Prod.snd stakes = 0) := by
  have hcrosses : Ready t now ↔ t.CrossesThreshold ∨ t.thresholdMode = .noApprovals := by
    unfold Ready DoomslugApprovalsTracker.getBlockProductionReadiness
    split
    · next hready => exact iff_of_true nofun hready
    · next hready => exact iff_of_false (fun hne => hne rfl) hready
  rw [hcrosses, DoomslugApprovalsTracker.CrossesThreshold, h.total_this, h.total_next,
    h.approved_this, h.approved_next, h.mode_eq]
  exact or_comm

theorem passes_of_zero (part : StakePart) (voters : List Address)
    (hzero : threshold part stakes = 0) :
    threshold part stakes < approved part stakes voters ↔ approved part stakes voters ≠ 0 := by
  rw [hzero]
  exact BitVec.pos_iff_ne_zero _

/-- The check and the tracker agree exactly when the thresholds tell, and the check passes
whenever the tracker is ready. -/
theorem static_agrees_iff (stakes : List (ApprovalStake × Bool)) (h : Listed stakes)
    (mode : DoomslugThresholdMode) (arrivals : List Arrival) (now : ℕ) :
    (Ready (feed (DoomslugApprovalsTracker.new (accountStakes stakes) mode) arrivals) now →
        canApprovedBlockBeProduced mode (approvalsOf stakes (voters arrivals))
          (stakeTuples stakes) = true) ∧
      ((canApprovedBlockBeProduced mode (approvalsOf stakes (voters arrivals))
            (stakeTuples stakes) = true ↔
          Ready (feed (DoomslugApprovalsTracker.new (accountStakes stakes) mode) arrivals) now) ↔
        mode = .noApprovals ∨ ThresholdsTell stakes (voters arrivals)) := by
  obtain ⟨known, hknown, hfed⟩ := h.fed mode arrivals
  have hready := hfed.ready_iff now
  rw [approved_congr Prod.fst known _ hknown, approved_congr Prod.snd known _ hknown] at hready
  rw [hready, canApproved_iff h]
  have hnoStake : total Prod.snd stakes = 0 → threshold Prod.snd stakes = 0 := by
    intro hzero
    rw [threshold, hzero]
    decide
  have hthis := @passes_of_zero stakes Prod.fst (voters arrivals)
  have hnext := @passes_of_zero stakes Prod.snd (voters arrivals)
  by_cases hmode : mode = .noApprovals
  · simp [hmode]
  · rw [or_iff_right hmode, or_iff_right hmode, or_iff_right hmode]
    constructor
    · rintro ⟨hfirst, hsecond⟩
      exact ⟨Or.inl hfirst, hsecond.imp_right hnoStake⟩
    · constructor
      · intro hagree
        refine ⟨fun hzero happroved hpasses => ?_, fun hzero happroved hstake hpasses => ?_⟩
        · exact (hthis hzero).mp (hagree.mp ⟨Or.inr hzero, hpasses⟩).1 happroved
        · rcases (hagree.mp ⟨hpasses, Or.inr hzero⟩).2 with hover | hnone
          · exact (hnext hzero).mp hover happroved
          · exact hstake hnone
      · rintro ⟨hfirst, hsecond⟩
        constructor
        · rintro ⟨hpasses1, hpasses2⟩
          constructor
          · rcases hpasses1 with hover | hzero
            · exact hover
            · exact (hthis hzero).mpr fun happroved => hfirst hzero happroved hpasses2
          · rcases hpasses2 with hover | hzero
            · exact Or.inl hover
            · by_cases hstake : total Prod.snd stakes = 0
              · exact Or.inr hstake
              · exact Or.inl ((hnext hzero).mpr fun happroved =>
                  hsecond hzero happroved hstake hpasses1)
        · rintro ⟨hover, hnext⟩
          exact ⟨Or.inl hover, hnext.imp_right hnoStake⟩

/-- Three accounts, of which all or none approve. -/
def threeStakes : List (ApprovalStake × Bool) := unitStakes [1#160, 2#160, 3#160]

theorem listed_unitStakes (validators : List Address) (h : validators.Nodup) :
    Listed (unitStakes validators) := by
  refine ⟨?_, ?_⟩
  · rw [unitStakes, List.map_map]
    exact (List.map_id validators).symm ▸ h
  · intro s hs
    obtain ⟨validator, -, rfl⟩ := List.mem_map.mp hs
    rfl

def approvalBy (validator : Address) : Arrival :=
  ⟨1, 0, ⟨⟨.endorsement 0#256, 1⟩, Vector.replicate 65 0, validator⟩⟩

theorem static_agrees_iff_three :
    Listed threeStakes ∧
      (canApprovedBlockBeProduced .twoThirds (approvalsOf threeStakes [1#160, 2#160, 3#160])
          (stakeTuples threeStakes) = true ↔
        Ready (feed (DoomslugApprovalsTracker.new (accountStakes threeStakes) .twoThirds)
          [approvalBy 1#160, approvalBy 2#160, approvalBy 3#160]) 2) := by
  have hlisted : Listed threeStakes := listed_unitStakes _ (by decide)
  refine ⟨hlisted, (static_agrees_iff threeStakes hlisted .twoThirds
    [approvalBy 1#160, approvalBy 2#160, approvalBy 3#160] 2).2.mpr (Or.inr ⟨?_, ?_⟩)⟩
  · intro hzero
    exact absurd hzero (by decide)
  · intro hzero
    exact absurd hzero (by decide)

/-- A single validator that has not approved: the check passes and the tracker is not ready. -/
theorem not_agrees_single :
    Listed (unitStakes [1#160]) ∧
      canApprovedBlockBeProduced .twoThirds (approvalsOf (unitStakes [1#160]) [])
          (stakeTuples (unitStakes [1#160])) = true ∧
        ¬Ready (feed (DoomslugApprovalsTracker.new (accountStakes (unitStakes [1#160]))
          .twoThirds) []) 2 := by
  refine ⟨listed_unitStakes _ (by decide), by decide, ?_⟩
  intro hready
  exact hready (by decide)

end Comparison

end PayyRollup.StaticQuorums
