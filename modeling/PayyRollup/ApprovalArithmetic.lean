import PayyRollup.ApprovalStakes

/-!
The arithmetic of the approvals. Balances have 128 bits and heights 64, and in a build with
overflow checks a sum or a difference that does not fit panics. For each call this is read off as
whether it overflows. A node gives every validator one unit of stake and counts a validator once
for a content, so the sums count validators. They stay far below the bounds, also when the
validators of a height change between two of its approvals.
-/
namespace PayyRollup.ApprovalArithmetic

open VerifierContracts RollupState NodeBlocks Approvals ApprovalStakes

section Overflows

def addOverflows (a b : Balance) : Bool := decide (2 ^ 128 ≤ a.toNat + b.toNat)

/-- Adding up the stakes of the accounts of a new tracker. -/
def newOverflows (accountIdToStakes : AList fun _ : Address => Balance × Balance) : Bool :=
  decide (2 ^ 128 ≤ (accountIdToStakes.entries.map fun e => e.2.1.toNat).sum) ||
    decide (2 ^ 128 ≤ (accountIdToStakes.entries.map fun e => e.2.2.toNat).sum)

/-- Doubling the total stakes; that of the next epoch only once the first comparison holds. -/
def readinessOverflows (t : DoomslugApprovalsTracker) : Bool :=
  decide (2 ^ 128 ≤ t.totalStakeThisEpoch.toNat * 2) ||
    (decide (t.totalStakeThisEpoch * 2 / 3 < t.approvedStakeThisEpoch) &&
      decide (2 ^ 128 ≤ t.totalStakeNextEpoch.toNat * 2))

def countOverflows (t : DoomslugApprovalsTracker) (approval : ApprovalValidated) : Bool :=
  match t.witness.lookup approval.validator with
  | some _ => readinessOverflows t
  | none =>
      let stakes := t.stakes approval.validator
      addOverflows t.approvedStakeThisEpoch stakes.1 ||
        addOverflows t.approvedStakeNextEpoch stakes.2 ||
        readinessOverflows { t with
          approvedStakeThisEpoch := t.approvedStakeThisEpoch + stakes.1
          approvedStakeNextEpoch := t.approvedStakeNextEpoch + stakes.2 }

def withdrawOverflows (t : DoomslugApprovalsTracker) (validator : Address) : Bool :=
  match t.witness.lookup validator with
  | none => false
  | some (approval, _) =>
      let stakes := t.stakes approval.validator
      decide (t.approvedStakeThisEpoch < stakes.1) ||
        decide (t.approvedStakeNextEpoch < stakes.2)

def withdrawLastOverflows (s : DoomslugApprovalsTrackersAtHeight) (validator : Address) : Bool :=
  match s.lastApprovalPerAccount.lookup validator with
  | none => false
  | some lastParent =>
    match s.approvalTrackers.lookup lastParent with
    | none => false
    | some tracker => withdrawOverflows tracker validator

/-- Counting an approval in the tracker of its content, which may have to be made first. -/
def trackOverflows (s : DoomslugApprovalsTrackersAtHeight) (approval : ApprovalValidated)
    (accountIdToStakes : AList fun _ : Address => Balance × Balance)
    (thresholdMode : DoomslugThresholdMode) : Bool :=
  match s.approvalTrackers.lookup approval.content.inner with
  | none =>
      newOverflows accountIdToStakes ||
        countOverflows (DoomslugApprovalsTracker.new accountIdToStakes thresholdMode) approval
  | some tracker => countOverflows tracker approval

def processOverflows (s : DoomslugApprovalsTrackersAtHeight) (approval : ApprovalValidated)
    (stakes : List (ApprovalStake × Bool)) (thresholdMode : DoomslugThresholdMode) : Bool :=
  let accounts := accountStakes stakes
  withdrawLastOverflows s approval.validator ||
    (decide (accounts.entries.length = stakes.length) &&
      (accounts.lookup approval.validator).isSome &&
      trackOverflows (s.withdrawLast approval.validator) approval accounts thresholdMode)

/-- Whether processing an approval overflows a balance or the greatest height to store. -/
def approvalOverflows (self : Doomslug) (approval : ApprovalValidated)
    (stakes : List (ApprovalStake × Bool)) : Bool :=
  let target := approval.content.targetHeight
  decide (self.tip.height ≤ target) &&
    (decide (2 ^ 64 ≤ self.tip.height + maxHeightsAheadToStoreApprovals) ||
      (decide (target ≤ lastHeightToStore self.tip.height) &&
        processOverflows
          ((self.approvalTracking target).getD DoomslugApprovalsTrackersAtHeight.new) approval
          stakes self.thresholdMode))

end Overflows

/-- Every account has one unit of stake in both epochs. -/
def UnitAccounts (m : AList fun _ : Address => Balance × Balance) : Prop :=
  ∀ a stakes, m.lookup a = some stakes → stakes = (1, 1)

/-- A tracker that counts: the total stakes are the number of its accounts, and the approved
stakes those of its witnesses. -/
structure Counted (t : DoomslugApprovalsTracker) : Prop where
  unit : UnitAccounts t.accountIdToStakes
  fits : t.accountIdToStakes.entries.length < 2 ^ 64
  total_this : t.totalStakeThisEpoch.toNat = t.accountIdToStakes.entries.length
  total_next : t.totalStakeNextEpoch.toNat = t.accountIdToStakes.entries.length
  approved_this : t.approvedStakeThisEpoch.toNat =
    ∑ a ∈ accounts t.witness, (t.stakes a).1.toNat
  approved_next : t.approvedStakeNextEpoch.toNat =
    ∑ a ∈ accounts t.witness, (t.stakes a).2.toNat
  signers : ∀ a approval arrival, t.witness.lookup a = some (approval, arrival) →
    approval.validator = a

section Units

variable {m : AList fun _ : Address => Balance × Balance}

theorem unitAccounts_empty : UnitAccounts ∅ := by
  intro a stakes hlookup
  rw [AList.lookup_empty] at hlookup
  cases hlookup

theorem UnitAccounts.insert (h : UnitAccounts m) (validator : Address) :
    UnitAccounts (m.insert validator (1, 1)) := by
  intro a stakes hlookup
  by_cases ha : a = validator
  · subst ha
    rw [AList.lookup_insert] at hlookup
    exact (Option.some.inj hlookup).symm
  · rw [AList.lookup_insert_ne ha] at hlookup
    exact h a stakes hlookup

theorem UnitAccounts.foldl (h : UnitAccounts m) (validators : List Address) :
    UnitAccounts (validators.foldl (fun m validator => m.insert validator (1, 1)) m) := by
  induction validators generalizing m with
  | nil => exact h
  | cons validator validators ih => exact ih (h.insert validator)

theorem keys_foldl (validators : List Address) :
    (validators.foldl (fun m validator => m.insert validator (1, 1)) m).keys ⊆
      validators ++ m.keys := by
  induction validators generalizing m with
  | nil => exact fun _ ha => ha
  | cons validator validators ih =>
    intro a ha
    rcases List.mem_append.mp (ih ha) with hlater | hmem
    · exact List.mem_cons_of_mem validator (List.mem_append_left m.keys hlater)
    · rcases (AList.mem_insert m).mp (AList.mem_keys.mpr hmem) with rfl | hold
      · exact List.mem_cons_self
      · exact List.mem_append_right (validator :: validators) (AList.mem_keys.mp hold)

/-- No validator is slashed. -/
theorem accountStakes_unitStakes (validators : List Address) :
    accountStakes (unitStakes validators) =
      validators.foldl (fun m validator => m.insert validator (1, 1)) ∅ := by
  have hnone : (unitStakes validators).filter (fun s => !s.2) = unitStakes validators := by
    refine List.filter_eq_self.mpr fun s hs => ?_
    obtain ⟨validator, -, rfl⟩ := List.mem_map.mp hs
    rfl
  unfold accountStakes
  rw [hnone, unitStakes, List.foldl_map]

/-- The accounts of the validators, repeated or not. -/
theorem unitAccounts_unitStakes (validators : List Address) :
    UnitAccounts (accountStakes (unitStakes validators)) := by
  rw [accountStakes_unitStakes]
  exact unitAccounts_empty.foldl validators

/-- There are as many accounts as validators exactly when the validators are distinct. -/
theorem entries_length_iff (validators : List Address) :
    (accountStakes (unitStakes validators)).entries.length = (unitStakes validators).length ↔
      validators.Nodup := by
  have hkeys : (accountStakes (unitStakes validators)).keys.length =
      (accountStakes (unitStakes validators)).entries.length := List.length_map ..
  have hstakes : (unitStakes validators).length = validators.length := List.length_map ..
  constructor
  · intro hlength
    have hsubset : (accountStakes (unitStakes validators)).keys ⊆ validators := by
      intro a ha
      rw [accountStakes_unitStakes] at ha
      simpa using keys_foldl validators ha
    have hnodup := (accountStakes (unitStakes validators)).keys_nodup
    have hperm := (hnodup.subperm hsubset).perm_of_length_le (by omega)
    exact hperm.nodup_iff.mp hnodup
  · intro hnodup
    have hdistinct : ((unitStakes validators).map fun s => s.1.validator).Nodup := by
      rw [unitStakes, List.map_map]
      exact (List.map_id validators).symm ▸ hnodup
    rw [accountStakes_entries hdistinct, List.length_reverse, List.length_map]
    refine congrArg List.length (List.filter_eq_self.mpr fun s hs => ?_)
    obtain ⟨validator, -, rfl⟩ := List.mem_map.mp hs
    rfl

theorem UnitAccounts.sum_entries (h : UnitAccounts m) (part : StakePart)
    (hpart : (part (1, 1)).toNat = 1) :
    (m.entries.map fun e => (part e.2).toNat).sum = m.entries.length := by
  have hone : ∀ e ∈ m.entries, (part e.2).toNat = 1 := by
    intro e he
    rw [h e.1 e.2 (AList.mem_lookup_iff.mpr he), hpart]
  rw [List.map_congr_left hone, List.map_const', List.sum_replicate, smul_eq_mul, mul_one]

/-- Any witnesses have at most as much stake as there are accounts. -/
theorem UnitAccounts.sum_le (h : UnitAccounts m) (part : StakePart)
    (hone : (part (1, 1)).toNat = 1) (hzero : (part (0, 0)).toNat = 0) (voters : Finset Address) :
    ∑ a ∈ voters, (part ((m.lookup a).getD (0, 0))).toNat ≤ m.entries.length := by
  have hmembers : ∀ a ∈ voters, (part ((m.lookup a).getD (0, 0))).toNat ≠ 0 → a ∈ accounts m := by
    intro a _ hstake
    rw [mem_accounts, ← AList.lookup_isSome]
    cases hlookup : m.lookup a with
    | none =>
      rw [hlookup] at hstake
      exact absurd hzero hstake
    | some stakes => rfl
  have hunit : ∀ a ∈ accounts m, (part ((m.lookup a).getD (0, 0))).toNat ≤ 1 := by
    intro a _
    cases hlookup : m.lookup a with
    | none => exact hzero.le.trans zero_le_one
    | some stakes => rw [h a stakes hlookup, Option.getD_some, hone]
  have hcard : (accounts m).card ≤ m.entries.length := by
    refine (List.toFinset_card_le _).trans_eq ?_
    unfold AList.keys List.keys
    rw [List.length_map]
  calc ∑ a ∈ voters, (part ((m.lookup a).getD (0, 0))).toNat
      ≤ ∑ a ∈ accounts m, (part ((m.lookup a).getD (0, 0))).toNat :=
        Finset.sum_le_sum_of_ne_zero hmembers
    _ ≤ (accounts m).card := by
        have hsum := Finset.sum_le_card_nsmul (accounts m) _ 1 hunit
        rwa [smul_eq_mul, mul_one] at hsum
    _ ≤ m.entries.length := hcard

/-- As many accounts as there are stakes, in a list that fits in memory. -/
theorem entries_lt (validators : List Address) (hfits : validators.length < 2 ^ 64)
    (hlength : (accountStakes (unitStakes validators)).entries.length =
      (unitStakes validators).length) :
    (accountStakes (unitStakes validators)).entries.length < 2 ^ 64 := by
  rw [hlength, unitStakes, List.length_map]
  exact hfits

end Units

section Trackers

variable {t : DoomslugApprovalsTracker}

theorem mem_accounts_of_lookup {a : Address} {approval : ApprovalValidated × ℕ}
    (h : t.witness.lookup a = some approval) : a ∈ accounts t.witness := by
  rw [mem_accounts, ← AList.lookup_isSome, h]
  rfl

theorem Counted.stakes_le (h : Counted t) (part : StakePart) (hone : (part (1, 1)).toNat = 1)
    (hzero : (part (0, 0)).toNat = 0) (voters : Finset Address) :
    ∑ a ∈ voters, (part (t.stakes a)).toNat < 2 ^ 64 :=
  (h.unit.sum_le part hone hzero voters).trans_lt h.fits

theorem counted_new (accountIdToStakes : AList fun _ : Address => Balance × Balance)
    (thresholdMode : DoomslugThresholdMode) (hunit : UnitAccounts accountIdToStakes)
    (hfits : accountIdToStakes.entries.length < 2 ^ 64) :
    Counted (DoomslugApprovalsTracker.new accountIdToStakes thresholdMode) := by
  have htotal : ∀ part : StakePart, (part (1, 1)).toNat = 1 →
      (accountIdToStakes.entries.map fun e => part e.2).sum.toNat =
        accountIdToStakes.entries.length := by
    intro part hone
    have hsum := hunit.sum_entries part hone
    have hmap : ((accountIdToStakes.entries.map fun e => part e.2).map BitVec.toNat).sum =
        accountIdToStakes.entries.length := by
      rw [List.map_map]
      exact hsum
    rw [toNat_sum _ (by omega), hmap]
  exact {
    unit := hunit
    fits := hfits
    total_this := htotal Prod.fst rfl
    total_next := htotal Prod.snd rfl
    approved_this := rfl
    approved_next := rfl
    signers := fun a approval arrival hlookup => by
      rw [DoomslugApprovalsTracker.new, AList.lookup_empty] at hlookup
      cases hlookup }

theorem Counted.readiness (h : Counted t) (now : ℕ) :
    Counted (t.getBlockProductionReadiness now).1 := by
  unfold DoomslugApprovalsTracker.getBlockProductionReadiness
  split
  · exact { h with }
  · exact h

theorem Counted.count (h : Counted t) (now arrival : ℕ) (approval : ApprovalValidated) :
    Counted (t.processApproval now arrival approval).1 := by
  unfold DoomslugApprovalsTracker.processApproval
  refine Counted.readiness ?_ now
  split
  · exact h
  · rename_i hfresh
    have hnew : approval.validator ∉ accounts t.witness := by
      rw [mem_accounts]
      exact AList.lookup_eq_none.mp hfresh
    have hadd : ∀ (part : StakePart) (approved : Balance), (part (1, 1)).toNat = 1 →
        (part (0, 0)).toNat = 0 →
        approved.toNat = ∑ a ∈ accounts t.witness, (part (t.stakes a)).toNat →
        (approved + part (t.stakes approval.validator)).toNat =
          ∑ a ∈ insert approval.validator (accounts t.witness), (part (t.stakes a)).toNat := by
      intro part approved hone hzero happroved
      have hlt := h.stakes_le part hone hzero (insert approval.validator (accounts t.witness))
      rw [Finset.sum_insert hnew] at hlt ⊢
      rw [BitVec.toNat_add, Nat.mod_eq_of_lt (by omega)]
      omega
    refine { h with approved_this := ?_, approved_next := ?_, signers := ?_ }
    · rw [accounts_insert]
      exact hadd Prod.fst _ rfl rfl h.approved_this
    · rw [accounts_insert]
      exact hadd Prod.snd _ rfl rfl h.approved_next
    · intro a approval' arrival' hlookup
      by_cases ha : a = approval.validator
      · subst ha
        rw [AList.lookup_insert] at hlookup
        obtain ⟨rfl, -⟩ := Prod.mk.inj (Option.some.inj hlookup)
        rfl
      · rw [AList.lookup_insert_ne ha] at hlookup
        exact h.signers a approval' arrival' hlookup

theorem Counted.withdraw (h : Counted t) (validator : Address) :
    Counted (t.withdrawApproval validator) := by
  unfold DoomslugApprovalsTracker.withdrawApproval
  split
  · exact h
  · rename_i approval arrival hlookup
    obtain rfl := h.signers _ _ _ hlookup
    have hvoter := mem_accounts_of_lookup hlookup
    refine { h with approved_this := ?_, approved_next := ?_, signers := ?_ }
    · rw [accounts_erase]
      exact approved_erase h.approved_this rfl hvoter
    · rw [accounts_erase]
      exact approved_erase h.approved_next rfl hvoter
    · intro a approval' arrival' hlookup'
      by_cases ha : a = approval.validator
      · subst ha
        rw [AList.lookup_erase] at hlookup'
        cases hlookup'
      · rw [AList.lookup_erase_ne ha] at hlookup'
        exact h.signers a approval' arrival' hlookup'

/-- Total stakes of 64 bits can be doubled. -/
theorem not_readinessOverflows (hthis : t.totalStakeThisEpoch.toNat < 2 ^ 64)
    (hnext : t.totalStakeNextEpoch.toNat < 2 ^ 64) : readinessOverflows t = false := by
  have hthis' : ¬2 ^ 128 ≤ t.totalStakeThisEpoch.toNat * 2 := by omega
  have hnext' : ¬2 ^ 128 ≤ t.totalStakeNextEpoch.toNat * 2 := by omega
  unfold readinessOverflows
  rw [decide_eq_false hthis', decide_eq_false hnext', Bool.and_false, Bool.or_false]

theorem Counted.not_addOverflows (h : Counted t) (part : StakePart)
    (hone : (part (1, 1)).toNat = 1) (hzero : (part (0, 0)).toNat = 0) {a : Address}
    (hfresh : t.witness.lookup a = none) {approved : Balance}
    (happroved : approved.toNat = ∑ x ∈ accounts t.witness, (part (t.stakes x)).toNat) :
    addOverflows approved (part (t.stakes a)) = false := by
  have hnew : a ∉ accounts t.witness := by
    rw [mem_accounts]
    exact AList.lookup_eq_none.mp hfresh
  have hlt := h.stakes_le part hone hzero (insert a (accounts t.witness))
  rw [Finset.sum_insert hnew] at hlt
  exact decide_eq_false (by omega)

theorem Counted.not_countOverflows (h : Counted t) (approval : ApprovalValidated) :
    countOverflows t approval = false := by
  have hthis := h.total_this.trans_lt h.fits
  have hnext := h.total_next.trans_lt h.fits
  unfold countOverflows
  split
  · exact not_readinessOverflows hthis hnext
  · rename_i hfresh
    dsimp only
    rw [h.not_addOverflows Prod.fst rfl rfl hfresh h.approved_this,
      h.not_addOverflows Prod.snd rfl rfl hfresh h.approved_next, Bool.or_false, Bool.false_or]
    exact not_readinessOverflows hthis hnext

theorem Counted.not_withdrawOverflows (h : Counted t) (validator : Address) :
    withdrawOverflows t validator = false := by
  unfold withdrawOverflows
  split
  · rfl
  · rename_i approval arrival hlookup
    obtain rfl := h.signers _ _ _ hlookup
    have hvoter := mem_accounts_of_lookup hlookup
    have hthis := stake_le_approved h.approved_this rfl hvoter
    have hnext := stake_le_approved h.approved_next rfl hvoter
    dsimp only
    rw [decide_eq_false (BitVec.not_lt.mpr hthis), decide_eq_false (BitVec.not_lt.mpr hnext),
      Bool.or_false]

end Trackers

section Heights

/-- Every tracker of a height counts. -/
def AllCounted (s : DoomslugApprovalsTrackersAtHeight) : Prop :=
  ∀ inner t, s.approvalTrackers.lookup inner = some t → Counted t

variable {s : DoomslugApprovalsTrackersAtHeight}

theorem allCounted_new : AllCounted DoomslugApprovalsTrackersAtHeight.new := by
  intro inner t hlookup
  rw [DoomslugApprovalsTrackersAtHeight.new, AList.lookup_empty] at hlookup
  cases hlookup

theorem AllCounted.insert (h : AllCounted s) (inner : ApprovalInner)
    (t : DoomslugApprovalsTracker) (ht : Counted t) (last : AList fun _ : Address => ApprovalInner) :
    AllCounted ⟨s.approvalTrackers.insert inner t, last⟩ := by
  intro inner' t' hlookup
  by_cases hinner : inner' = inner
  · subst hinner
    rw [AList.lookup_insert] at hlookup
    obtain rfl := Option.some.inj hlookup
    exact ht
  · rw [AList.lookup_insert_ne hinner] at hlookup
    exact h inner' t' hlookup

theorem AllCounted.withdrawLast (h : AllCounted s) (validator : Address) :
    AllCounted (s.withdrawLast validator) := by
  unfold DoomslugApprovalsTrackersAtHeight.withdrawLast
  split
  · exact h
  split
  · exact h
  rename_i lastParent _ _ tracker hlookup
  dsimp only
  split
  · intro inner t hlookup'
    by_cases hinner : inner = lastParent
    · subst hinner
      rw [AList.lookup_erase] at hlookup'
      cases hlookup'
    · rw [AList.lookup_erase_ne hinner] at hlookup'
      exact h inner t hlookup'
  · exact h.insert lastParent _ ((h _ _ hlookup).withdraw validator) _

theorem AllCounted.not_withdrawLastOverflows (h : AllCounted s) (validator : Address) :
    withdrawLastOverflows s validator = false := by
  unfold withdrawLastOverflows
  split
  · rfl
  split
  · rfl
  rename_i tracker hlookup
  exact (h _ tracker hlookup).not_withdrawOverflows validator

variable {validators : List Address} (hfits : validators.length < 2 ^ 64)

include hfits

theorem AllCounted.processApproval (h : AllCounted s) (now arrival : ℕ)
    (approval : ApprovalValidated) (thresholdMode : DoomslugThresholdMode) :
    AllCounted (s.processApproval now arrival approval (unitStakes validators)
      thresholdMode).1 := by
  have hleft := h.withdrawLast approval.validator
  unfold DoomslugApprovalsTrackersAtHeight.processApproval
  dsimp only
  split
  · exact hleft
  rename_i hlength
  split
  · exact hleft
  refine hleft.insert _ _ (Counted.count ?_ now arrival approval) _
  have hnew := counted_new _ thresholdMode (unitAccounts_unitStakes validators)
    (entries_lt validators hfits (not_not.mp hlength))
  cases hlookup : (s.withdrawLast approval.validator).approvalTrackers.lookup
      approval.content.inner with
  | none => exact hnew
  | some tracker => exact hleft _ tracker hlookup

theorem AllCounted.not_processOverflows (h : AllCounted s) (approval : ApprovalValidated)
    (thresholdMode : DoomslugThresholdMode) :
    processOverflows s approval (unitStakes validators) thresholdMode = false := by
  have hleft := h.withdrawLast approval.validator
  have hunit := unitAccounts_unitStakes validators
  unfold processOverflows
  dsimp only
  rw [h.not_withdrawLastOverflows, Bool.false_or]
  by_cases hlength : (accountStakes (unitStakes validators)).entries.length =
      (unitStakes validators).length
  · have hlt := entries_lt validators hfits hlength
    have htrack : trackOverflows (s.withdrawLast approval.validator) approval
        (accountStakes (unitStakes validators)) thresholdMode = false := by
      unfold trackOverflows
      split
      · have hnew := counted_new _ thresholdMode hunit hlt
        have hthis := hunit.sum_entries Prod.fst rfl
        have hnext := hunit.sum_entries Prod.snd rfl
        rw [hnew.not_countOverflows, Bool.or_false, newOverflows, decide_eq_false (by omega),
          decide_eq_false (by omega), Bool.or_false]
      · rename_i tracker hlookup
        exact (hleft _ tracker hlookup).not_countOverflows approval
    rw [htrack, Bool.and_false]
  · rw [decide_eq_false hlength, Bool.false_and, Bool.false_and]

end Heights

section Tracking

/-- What the approvals of a node keep: its tip is never set, and all trackers count. -/
structure Bounded (d : Doomslug) : Prop where
  tip : d.tip.height = 0
  counted : ∀ height entry, d.approvalTracking height = some entry → AllCounted entry

variable {d : Doomslug}

theorem bounded_new (now largestSentTargetHeight endorsementDelay minDelay delayStep maxDelay : ℕ)
    (thresholdMode : DoomslugThresholdMode) :
    Bounded (Doomslug.new now largestSentTargetHeight endorsementDelay minDelay delayStep maxDelay
      thresholdMode) := by
  refine ⟨rfl, ?_⟩
  intro height entry hentry
  cases hentry

theorem Bounded.entry (h : Bounded d) (height : ℕ) :
    AllCounted ((d.approvalTracking height).getD DoomslugApprovalsTrackersAtHeight.new) := by
  cases hentry : d.approvalTracking height with
  | none => exact allCounted_new
  | some entry => exact h.counted height entry hentry

variable {validators : List Address} (hfits : validators.length < 2 ^ 64)

include hfits

/-- An approval keeps the sums within their bounds, whatever the validators of its height are. -/
theorem Bounded.onApproval (h : Bounded d) (now arrival : ℕ) (approval : ApprovalValidated) :
    Bounded (d.onApproval now arrival approval (unitStakes validators)) := by
  have hentry := (h.entry approval.content.targetHeight).processApproval hfits now arrival approval
    d.thresholdMode
  have hcounted : ∀ height entry, Function.update d.approvalTracking
      approval.content.targetHeight (some (((d.approvalTracking
        approval.content.targetHeight).getD DoomslugApprovalsTrackersAtHeight.new).processApproval
        now arrival approval (unitStakes validators) d.thresholdMode).1) height = some entry →
      AllCounted entry := by
    intro height entry hlookup
    by_cases hheight : height = approval.content.targetHeight
    · subst hheight
      rw [Function.update_self] at hlookup
      obtain rfl := Option.some.inj hlookup
      exact hentry
    · rw [Function.update_of_ne hheight] at hlookup
      exact h.counted height entry hlookup
  unfold Doomslug.onApproval
  split
  · exact h
  unfold Doomslug.onApprovalInternal
  dsimp only
  split
  · exact ⟨h.tip, hcounted⟩
  · exact ⟨h.tip, hcounted⟩

theorem Bounded.not_approvalOverflows (h : Bounded d) (approval : ApprovalValidated) :
    approvalOverflows d approval (unitStakes validators) = false := by
  have hsmall : ¬2 ^ 64 ≤ d.tip.height + maxHeightsAheadToStoreApprovals := by
    rw [h.tip]
    decide
  unfold approvalOverflows
  dsimp only
  rw [decide_eq_false hsmall, (h.entry _).not_processOverflows hfits, Bool.and_false,
    Bool.or_false, Bool.and_false]

end Tracking

end PayyRollup.ApprovalArithmetic
