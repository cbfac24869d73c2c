import Mathlib.Algebra.Order.BigOperators.Group.List
import PayyRollup.Approvals
import PayyRollup.WeightedQuorums

/-!
What the trackers of the approvals of a height keep. The approved stake of a content is the
sum of the stakes of its witnesses, as natural numbers; the threshold is crossed by the
quorums of the accounts with stakes; and an account is a witness only of the content it
approved last.
-/
namespace PayyRollup.ApprovalStakes

open VerifierContracts RollupState NodeBlocks Approvals WeightedQuorums

section Stakes

/-- A part of what an account is worth in the two epochs. -/
abbrev StakePart := Balance × Balance → Balance

def totalStake (part : StakePart) (stakes : List (ApprovalStake × Bool)) : ℕ :=
  (stakes.map fun s => (part (s.1.stakeThisEpoch, s.1.stakeNextEpoch)).toNat).sum

/-- Distinct accounts, whose doubled stakes fit in a balance. -/
structure WellStaked (stakes : List (ApprovalStake × Bool)) : Prop where
  distinct : (stakes.map fun s => s.1.validator).Nodup
  this_epoch : 2 * totalStake Prod.fst stakes < 2 ^ 128
  next_epoch : 2 * totalStake Prod.snd stakes < 2 ^ 128

def accounts {β : Type} (m : AList fun _ : Address => β) : Finset Address := m.keys.toFinset

def members (stakes : List (ApprovalStake × Bool)) : Finset Address :=
  accounts (accountStakes stakes)

def weight (part : StakePart) (stakes : List (ApprovalStake × Bool)) (a : Address) : ℕ :=
  (part (((accountStakes stakes).lookup a).getD (0, 0))).toNat

variable {β : Type}

theorem mem_accounts (m : AList fun _ : Address => β) (a : Address) :
    a ∈ accounts m ↔ a ∈ m := by
  unfold accounts
  rw [List.mem_toFinset, ← AList.mem_keys]

theorem accounts_insert (m : AList fun _ : Address => β) (a : Address) (b : β) :
    accounts (m.insert a b) = insert a (accounts m) := by
  ext x
  rw [mem_accounts, AList.mem_insert, Finset.mem_insert, mem_accounts]

theorem accounts_erase (m : AList fun _ : Address => β) (a : Address) :
    accounts (m.erase a) = (accounts m).erase a := by
  ext x
  rw [mem_accounts, AList.mem_erase, Finset.mem_erase, mem_accounts]

theorem foldl_insert_entries {α : Type} (key : α → Address) (value : α → β) (l : List α)
    (m : AList fun _ : Address => β) (hnodup : (l.map key).Nodup)
    (hfresh : ∀ x ∈ l, key x ∉ m) :
    (l.foldl (fun m x => m.insert (key x) (value x)) m).entries =
      (l.map fun x => ⟨key x, value x⟩).reverse ++ m.entries := by
  induction l generalizing m with
  | nil => rfl
  | cons x l ih =>
    rw [List.map_cons, List.nodup_cons] at hnodup
    have hrest : ∀ y ∈ l, key y ∉ m.insert (key x) (value x) := by
      intro y hy hmem
      rcases (AList.mem_insert m).mp hmem with heq | hold
      · exact hnodup.1 (List.mem_map.mpr ⟨y, hy, heq⟩)
      · exact hfresh y (List.mem_cons_of_mem x hy) hold
    rw [List.foldl_cons, ih _ hnodup.2 hrest,
      AList.entries_insert_of_notMem (hfresh x List.mem_cons_self)]
    simp

variable {stakes : List (ApprovalStake × Bool)}

theorem accountStakes_entries (hdistinct : (stakes.map fun s => s.1.validator).Nodup) :
    (accountStakes stakes).entries =
      ((stakes.filter fun s => !s.2).map fun s =>
        ⟨s.1.validator, (s.1.stakeThisEpoch, s.1.stakeNextEpoch)⟩).reverse := by
  have hnodup := hdistinct.sublist (List.filter_sublist (p := fun s => !s.2).map _)
  unfold accountStakes
  rw [foldl_insert_entries _ _ _ _ hnodup fun x _ => AList.notMem_empty _]
  exact List.append_nil _

/-- The assertion on the number of accounts holds if no account is slashed. -/
theorem filter_eq_of_length (hdistinct : (stakes.map fun s => s.1.validator).Nodup)
    (hlength : (accountStakes stakes).entries.length = stakes.length) :
    (stakes.filter fun s => !s.2) = stakes := by
  rw [accountStakes_entries hdistinct, List.length_reverse, List.length_map] at hlength
  exact List.filter_sublist.eq_of_length hlength

theorem sum_entries (part : StakePart) :
    ((accountStakes stakes).entries.map fun e => (part e.2).toNat).sum =
      ∑ a ∈ members stakes, weight part stakes a := by
  unfold members accounts
  rw [List.sum_toFinset _ (accountStakes stakes).keys_nodup]
  unfold AList.keys List.keys
  rw [List.map_map]
  refine congrArg List.sum (List.map_congr_left ?_)
  intro e he
  have hlookup : (accountStakes stakes).lookup e.1 = some e.2 :=
    AList.mem_lookup_iff.mpr he
  simp [weight, hlookup]

theorem sum_members_le (hdistinct : (stakes.map fun s => s.1.validator).Nodup)
    (part : StakePart) : ∑ a ∈ members stakes, weight part stakes a ≤ totalStake part stakes := by
  rw [← sum_entries, accountStakes_entries hdistinct, List.map_reverse, List.sum_reverse,
    List.map_map]
  exact (List.filter_sublist.map _).sum_le_sum fun _ _ => Nat.zero_le _

theorem sum_members (hdistinct : (stakes.map fun s => s.1.validator).Nodup)
    (hlength : (accountStakes stakes).entries.length = stakes.length) (part : StakePart) :
    ∑ a ∈ members stakes, weight part stakes a = totalStake part stakes := by
  rw [← sum_entries, accountStakes_entries hdistinct, List.map_reverse, List.sum_reverse,
    List.map_map, filter_eq_of_length hdistinct hlength]
  rfl

theorem toNat_sum (l : List Balance) (hfits : (l.map BitVec.toNat).sum < 2 ^ 128) :
    l.sum.toNat = (l.map BitVec.toNat).sum := by
  induction l with
  | nil => rfl
  | cons x l ih =>
    rw [List.map_cons, List.sum_cons] at hfits ⊢
    rw [List.sum_cons, BitVec.toNat_add, ih (by omega), Nat.mod_eq_of_lt hfits]

theorem total_toNat (part : StakePart)
    (hfits : ∑ a ∈ members stakes, weight part stakes a < 2 ^ 128) :
    ((accountStakes stakes).entries.map fun e => part e.2).sum.toNat =
      ∑ a ∈ members stakes, weight part stakes a := by
  rw [← sum_entries] at hfits ⊢
  rw [toNat_sum _ (by rw [List.map_map]; exact hfits), List.map_map]
  rfl

end Stakes

section Sums

variable {w : Address → ℕ} {members voters : Finset Address} {approved stake : Balance}
  {a : Address}

theorem approved_insert (happroved : approved.toNat = ∑ x ∈ voters, w x)
    (hstake : stake.toNat = w a) (ha : a ∉ voters) (hsubset : insert a voters ⊆ members)
    (hfits : ∑ x ∈ members, w x < 2 ^ 128) :
    (approved + stake).toNat = ∑ x ∈ insert a voters, w x := by
  have hle : ∑ x ∈ insert a voters, w x ≤ ∑ x ∈ members, w x :=
    Finset.sum_le_sum_of_subset hsubset
  rw [Finset.sum_insert ha] at hle ⊢
  rw [BitVec.toNat_add, Nat.mod_eq_of_lt (by omega)]
  omega

theorem stake_le_approved (happroved : approved.toNat = ∑ x ∈ voters, w x)
    (hstake : stake.toNat = w a) (ha : a ∈ voters) : stake ≤ approved := by
  have hle : w a ≤ ∑ x ∈ voters, w x := Finset.single_le_sum (fun _ _ => Nat.zero_le _) ha
  rw [BitVec.le_def]
  omega

theorem approved_erase (happroved : approved.toNat = ∑ x ∈ voters, w x)
    (hstake : stake.toNat = w a) (ha : a ∈ voters) :
    (approved - stake).toNat = ∑ x ∈ voters.erase a, w x := by
  have hsplit := Finset.add_sum_erase voters w ha
  rw [BitVec.toNat_sub_of_le (stake_le_approved happroved hstake ha)]
  omega

theorem threshold_toNat (total : Balance) (hfits : 2 * total.toNat < 2 ^ 128) :
    (total * 2 / 3).toNat = total.toNat * 2 / 3 := by
  rw [BitVec.toNat_udiv, BitVec.toNat_mul]
  change total.toNat * 2 % 2 ^ 128 / 3 = _
  rw [Nat.mod_eq_of_lt (by omega)]

end Sums

section Trackers

/-- What a tracker of a content at a height keeps: the stakes of the height, and the stake
its witnesses add up to. -/
structure Tracked (stakes : List (ApprovalStake × Bool)) (inner : ApprovalInner)
    (targetHeight : ℕ) (t : DoomslugApprovalsTracker) : Prop where
  mode : t.thresholdMode = .twoThirds
  unslashed : (accountStakes stakes).entries.length = stakes.length
  account_stakes : t.accountIdToStakes = accountStakes stakes
  total_this : t.totalStakeThisEpoch.toNat = ∑ a ∈ members stakes, weight Prod.fst stakes a
  total_next : t.totalStakeNextEpoch.toNat = ∑ a ∈ members stakes, weight Prod.snd stakes a
  voters : accounts t.witness ⊆ members stakes
  approved_this : t.approvedStakeThisEpoch.toNat =
    ∑ a ∈ accounts t.witness, weight Prod.fst stakes a
  approved_next : t.approvedStakeNextEpoch.toNat =
    ∑ a ∈ accounts t.witness, weight Prod.snd stakes a
  approvals : ∀ a approval arrival, t.witness.lookup a = some (approval, arrival) →
    approval.validator = a ∧ approval.content = ⟨inner, targetHeight⟩

variable {stakes : List (ApprovalStake × Bool)} {inner : ApprovalInner} {targetHeight : ℕ}
  {t : DoomslugApprovalsTracker}

theorem WellStaked.fits_this (h : WellStaked stakes) :
    2 * ∑ a ∈ members stakes, weight Prod.fst stakes a < 2 ^ 128 := by
  have hle := sum_members_le h.distinct Prod.fst
  have htotal := h.this_epoch
  omega

theorem WellStaked.fits_next (h : WellStaked stakes) :
    2 * ∑ a ∈ members stakes, weight Prod.snd stakes a < 2 ^ 128 := by
  have hle := sum_members_le h.distinct Prod.snd
  have htotal := h.next_epoch
  omega

theorem Tracked.stakes_this (h : Tracked stakes inner targetHeight t) (a : Address) :
    (t.stakes a).1.toNat = weight Prod.fst stakes a := by
  unfold DoomslugApprovalsTracker.stakes weight
  rw [h.account_stakes]

theorem Tracked.stakes_next (h : Tracked stakes inner targetHeight t) (a : Address) :
    (t.stakes a).2.toNat = weight Prod.snd stakes a := by
  unfold DoomslugApprovalsTracker.stakes weight
  rw [h.account_stakes]

theorem tracked_new (hstaked : WellStaked stakes)
    (hlength : (accountStakes stakes).entries.length = stakes.length) :
    Tracked stakes inner targetHeight
      (DoomslugApprovalsTracker.new (accountStakes stakes) .twoThirds) where
  mode := rfl
  unslashed := hlength
  account_stakes := rfl
  total_this := total_toNat Prod.fst (by have := hstaked.fits_this; omega)
  total_next := total_toNat Prod.snd (by have := hstaked.fits_next; omega)
  voters := Finset.empty_subset _
  approved_this := rfl
  approved_next := rfl
  approvals := by
    intro a approval arrival hlookup
    change (∅ : AList fun _ : Address => ApprovalValidated × ℕ).lookup a = _ at hlookup
    rw [AList.lookup_empty] at hlookup
    cases hlookup

theorem Tracked.readiness (h : Tracked stakes inner targetHeight t) (now : ℕ) :
    Tracked stakes inner targetHeight (t.getBlockProductionReadiness now).1 := by
  unfold DoomslugApprovalsTracker.getBlockProductionReadiness
  split
  · exact { h with }
  · exact h

theorem readiness_witness (now : ℕ) :
    (t.getBlockProductionReadiness now).1.witness = t.witness := by
  unfold DoomslugApprovalsTracker.getBlockProductionReadiness
  split
  · rfl
  · rfl

theorem Tracked.count (h : Tracked stakes inner targetHeight t) (hstaked : WellStaked stakes)
    (now arrival : ℕ) (approval : ApprovalValidated)
    (hmember : approval.validator ∈ accountStakes stakes)
    (hcontent : approval.content = ⟨inner, targetHeight⟩)
    (hfresh : approval.validator ∉ t.witness) :
    Tracked stakes inner targetHeight (t.processApproval now arrival approval).1 := by
  have hnone := AList.lookup_eq_none.mpr hfresh
  have hvoters : insert approval.validator (accounts t.witness) ⊆ members stakes :=
    Finset.insert_subset ((mem_accounts _ _).mpr hmember) h.voters
  have hnew : approval.validator ∉ accounts t.witness := by
    rw [mem_accounts]
    exact hfresh
  unfold DoomslugApprovalsTracker.processApproval
  dsimp only
  rw [hnone]
  refine Tracked.readiness ?_ now
  refine { h with voters := ?_, approved_this := ?_, approved_next := ?_, approvals := ?_ }
  · dsimp only
    rw [accounts_insert]
    exact hvoters
  · dsimp only
    rw [accounts_insert]
    have hfits := hstaked.fits_this
    exact approved_insert h.approved_this (h.stakes_this _) hnew hvoters (by omega)
  · dsimp only
    rw [accounts_insert]
    have hfits := hstaked.fits_next
    exact approved_insert h.approved_next (h.stakes_next _) hnew hvoters (by omega)
  · intro a approval' arrival' hlookup
    dsimp only at hlookup
    by_cases ha : a = approval.validator
    · subst ha
      rw [AList.lookup_insert] at hlookup
      obtain ⟨rfl, -⟩ := Prod.mk.inj (Option.some.inj hlookup)
      exact ⟨rfl, hcontent⟩
    · rw [AList.lookup_insert_ne ha] at hlookup
      exact h.approvals a approval' arrival' hlookup

theorem processApproval_witness (now arrival : ℕ) (approval : ApprovalValidated)
    (hfresh : approval.validator ∉ t.witness) :
    (t.processApproval now arrival approval).1.witness =
      t.witness.insert approval.validator (approval, arrival) := by
  unfold DoomslugApprovalsTracker.processApproval
  dsimp only
  rw [AList.lookup_eq_none.mpr hfresh, readiness_witness]

theorem withdrawApproval_witness (validator : Address) :
    (t.withdrawApproval validator).witness = t.witness.erase validator := by
  unfold DoomslugApprovalsTracker.withdrawApproval
  split
  · rename_i hnone
    apply AList.ext
    exact (List.kerase_of_notMem_keys (AList.lookup_eq_none.mp hnone)).symm
  · rfl

theorem Tracked.withdraw (h : Tracked stakes inner targetHeight t) (validator : Address) :
    Tracked stakes inner targetHeight (t.withdrawApproval validator) := by
  unfold DoomslugApprovalsTracker.withdrawApproval
  split
  · exact h
  · rename_i approval arrival hlookup
    obtain ⟨hvalidator, -⟩ := h.approvals _ _ _ hlookup
    have hvoter : approval.validator ∈ accounts t.witness := by
      rw [mem_accounts, ← AList.lookup_isSome, hvalidator, hlookup]
      rfl
    subst hvalidator
    refine { h with voters := ?_, approved_this := ?_, approved_next := ?_, approvals := ?_ }
    · dsimp only
      rw [accounts_erase]
      exact (Finset.erase_subset _ _).trans h.voters
    · dsimp only
      rw [accounts_erase]
      exact approved_erase h.approved_this (h.stakes_this _) hvoter
    · dsimp only
      rw [accounts_erase]
      exact approved_erase h.approved_next (h.stakes_next _) hvoter
    · intro a approval' arrival' hlookup'
      dsimp only at hlookup'
      by_cases ha : a = approval.validator
      · subst ha
        rw [AList.lookup_erase] at hlookup'
        cases hlookup'
      · rw [AList.lookup_erase_ne ha] at hlookup'
        exact h.approvals a approval' arrival' hlookup'

/-- The threshold is crossed by the quorums of the current epoch, and of the next one if it
has any stake. -/
theorem Tracked.crosses_iff (h : Tracked stakes inner targetHeight t)
    (hstaked : WellStaked stakes) :
    t.CrossesThreshold ↔
      IsQuorum (weight Prod.fst stakes) (members stakes) (accounts t.witness) ∧
        (totalStake Prod.snd stakes ≠ 0 →
          IsQuorum (weight Prod.snd stakes) (members stakes) (accounts t.witness)) := by
  have hthis := h.total_this
  have hnext := h.total_next
  have hfitsThis := hstaked.fits_this
  have hfitsNext := hstaked.fits_next
  have htotal := sum_members hstaked.distinct h.unslashed Prod.snd
  unfold DoomslugApprovalsTracker.CrossesThreshold
  rw [BitVec.lt_def, BitVec.lt_def, threshold_toNat _ (by omega), threshold_toNat _ (by omega),
    floor_lt_iff, floor_lt_iff, h.approved_this, h.approved_next, hthis, hnext]
  have hzero : t.totalStakeNextEpoch = 0 ↔ totalStake Prod.snd stakes = 0 := by
    rw [← htotal, ← hnext]
    exact BitVec.toNat_inj.symm
  rw [hzero]
  constructor
  · rintro ⟨hquorum, hor⟩
    refine ⟨⟨h.voters, hquorum⟩, fun hne => ⟨h.voters, ?_⟩⟩
    exact hor.resolve_right hne
  · rintro ⟨hquorum, himp⟩
    refine ⟨hquorum.two_thirds, ?_⟩
    by_cases hne : totalStake Prod.snd stakes = 0
    · exact Or.inr hne
    · exact Or.inl (himp hne).two_thirds

end Trackers

section Heights

/-- What the trackers of a height keep; an account is a witness only of what it approved
last. -/
structure HeightInv (stakes : List (ApprovalStake × Bool)) (targetHeight : ℕ)
    (s : DoomslugApprovalsTrackersAtHeight) : Prop where
  tracked : ∀ inner t, s.approvalTrackers.lookup inner = some t →
    Tracked stakes inner targetHeight t
  last : ∀ inner t a, s.approvalTrackers.lookup inner = some t → a ∈ t.witness →
    s.lastApprovalPerAccount.lookup a = some inner

variable {stakes : List (ApprovalStake × Bool)} {targetHeight : ℕ}
  {s : DoomslugApprovalsTrackersAtHeight}

theorem heightInv_new : HeightInv stakes targetHeight DoomslugApprovalsTrackersAtHeight.new := by
  constructor
  · intro inner t hlookup
    rw [DoomslugApprovalsTrackersAtHeight.new, AList.lookup_empty] at hlookup
    cases hlookup
  · intro inner t a hlookup
    rw [DoomslugApprovalsTrackersAtHeight.new, AList.lookup_empty] at hlookup
    cases hlookup

/-- Replacing a tracker keeps the invariant if the witnesses of the new one approved its
content last. -/
theorem HeightInv.insert (h : HeightInv stakes targetHeight s) (inner : ApprovalInner)
    (t : DoomslugApprovalsTracker) (htracked : Tracked stakes inner targetHeight t)
    (hlast : ∀ a ∈ t.witness, s.lastApprovalPerAccount.lookup a = some inner) :
    HeightInv stakes targetHeight
      { s with approvalTrackers := s.approvalTrackers.insert inner t } := by
  constructor
  · intro inner' t' hlookup
    dsimp only at hlookup
    by_cases hinner : inner' = inner
    · subst hinner
      rw [AList.lookup_insert] at hlookup
      obtain rfl := Option.some.inj hlookup
      exact htracked
    · rw [AList.lookup_insert_ne hinner] at hlookup
      exact h.tracked inner' t' hlookup
  · intro inner' t' a hlookup hmem
    dsimp only at hlookup
    by_cases hinner : inner' = inner
    · subst hinner
      rw [AList.lookup_insert] at hlookup
      obtain rfl := Option.some.inj hlookup
      exact hlast a hmem
    · rw [AList.lookup_insert_ne hinner] at hlookup
      exact h.last inner' t' a hlookup hmem

theorem HeightInv.erase (h : HeightInv stakes targetHeight s) (inner : ApprovalInner) :
    HeightInv stakes targetHeight
      { s with approvalTrackers := s.approvalTrackers.erase inner } := by
  have hold : ∀ inner' t', (s.approvalTrackers.erase inner).lookup inner' = some t' →
      s.approvalTrackers.lookup inner' = some t' := by
    intro inner' t' hlookup
    by_cases hinner : inner' = inner
    · subst hinner
      rw [AList.lookup_erase] at hlookup
      cases hlookup
    · rwa [AList.lookup_erase_ne hinner] at hlookup
  exact ⟨fun inner' t' hlookup => h.tracked inner' t' (hold inner' t' hlookup),
    fun inner' t' a hlookup => h.last inner' t' a (hold inner' t' hlookup)⟩

theorem HeightInv.withdrawLast (h : HeightInv stakes targetHeight s) (validator : Address) :
    HeightInv stakes targetHeight (s.withdrawLast validator) := by
  unfold DoomslugApprovalsTrackersAtHeight.withdrawLast
  split
  · exact h
  split
  · exact h
  rename_i lastParent _ _ tracker hlookup
  dsimp only
  split
  · exact h.erase lastParent
  · refine h.insert lastParent _ ((h.tracked _ _ hlookup).withdraw validator) ?_
    intro a hmem
    rw [withdrawApproval_witness, AList.mem_erase] at hmem
    exact h.last _ _ _ hlookup hmem.2

/-- After its last approval is withdrawn, an account is no witness. -/
theorem HeightInv.withdrawn (h : HeightInv stakes targetHeight s) (validator : Address)
    (inner : ApprovalInner) (t : DoomslugApprovalsTracker)
    (hlookup : (s.withdrawLast validator).approvalTrackers.lookup inner = some t) :
    validator ∉ t.witness := by
  intro hmem
  unfold DoomslugApprovalsTrackersAtHeight.withdrawLast at hlookup
  split at hlookup
  · rename_i hnone
    rw [h.last inner t validator hlookup hmem] at hnone
    cases hnone
  rename_i lastParent hparent
  split at hlookup
  · rename_i hnone
    have hinner := h.last inner t validator hlookup hmem
    rw [hparent] at hinner
    obtain rfl := Option.some.inj hinner
    rw [hlookup] at hnone
    cases hnone
  rename_i tracker htracker
  dsimp only at hlookup
  by_cases hinner : inner = lastParent
  · subst hinner
    split at hlookup
    · rw [AList.lookup_erase] at hlookup
      cases hlookup
    · rw [AList.lookup_insert] at hlookup
      obtain rfl := Option.some.inj hlookup
      rw [withdrawApproval_witness, AList.mem_erase] at hmem
      exact hmem.1 rfl
  · have hold : s.approvalTrackers.lookup inner = some t := by
      split at hlookup
      · rwa [AList.lookup_erase_ne hinner] at hlookup
      · rwa [AList.lookup_insert_ne hinner] at hlookup
    have hlast := h.last inner t validator hold hmem
    rw [hparent] at hlast
    exact hinner (Option.some.inj hlast).symm

theorem HeightInv.processApproval (h : HeightInv stakes targetHeight s)
    (hstaked : WellStaked stakes) (now arrival : ℕ) (approval : ApprovalValidated)
    (htarget : approval.content.targetHeight = targetHeight) :
    HeightInv stakes targetHeight
      (s.processApproval now arrival approval stakes .twoThirds).1 := by
  have hleft := h.withdrawLast approval.validator
  unfold DoomslugApprovalsTrackersAtHeight.processApproval
  dsimp only
  by_cases hlength : (accountStakes stakes).entries.length = stakes.length
  · rw [if_neg (not_not_intro hlength)]
    split
    · exact hleft
    rename_i hmember
    have hstakes : approval.validator ∈ accountStakes stakes := by
      rw [← AList.lookup_isSome, hmember]
      rfl
    set left := s.withdrawLast approval.validator with hleftDef
    set inner := approval.content.inner
    set tracker := (left.approvalTrackers.lookup inner).getD
      (DoomslugApprovalsTracker.new (accountStakes stakes) .twoThirds) with htracker
    have hcontent : approval.content = ⟨inner, targetHeight⟩ := by
      rw [← htarget]
    obtain ⟨htracked, hfresh, hwitness⟩ : Tracked stakes inner targetHeight tracker ∧
        approval.validator ∉ tracker.witness ∧
        ∀ a ∈ tracker.witness, left.lastApprovalPerAccount.lookup a = some inner := by
      cases hlookup : left.approvalTrackers.lookup inner with
      | none =>
        rw [htracker, hlookup]
        exact ⟨tracked_new hstaked hlength, AList.notMem_empty _,
          fun a hmem => absurd hmem (AList.notMem_empty a)⟩
      | some t =>
        rw [htracker, hlookup]
        exact ⟨hleft.tracked inner t hlookup, h.withdrawn _ inner t hlookup,
          fun a => hleft.last inner t a hlookup⟩
    have hrelabel : HeightInv stakes targetHeight
        ⟨left.approvalTrackers,
          left.lastApprovalPerAccount.insert approval.validator inner⟩ := by
      refine ⟨hleft.tracked, ?_⟩
      intro inner' t' a hlookup hmem
      dsimp only at hlookup ⊢
      have hne : a ≠ approval.validator := by
        rintro rfl
        exact h.withdrawn _ inner' t' hlookup hmem
      rw [AList.lookup_insert_ne hne]
      exact hleft.last inner' t' a hlookup hmem
    refine hrelabel.insert inner _
      (htracked.count hstaked now arrival approval hstakes hcontent hfresh) ?_
    intro a hmem
    dsimp only
    rw [processApproval_witness now arrival approval hfresh, AList.mem_insert] at hmem
    by_cases ha : a = approval.validator
    · rw [ha, AList.lookup_insert]
    · rw [AList.lookup_insert_ne ha]
      exact hwitness a (hmem.resolve_left ha)
  · rw [if_pos hlength]
    exact hleft

end Heights

section Units

theorem totalStake_unitStakes (part : StakePart) (hpart : (part (1, 1)).toNat = 1)
    (validators : List Address) : totalStake part (unitStakes validators) = validators.length := by
  unfold totalStake unitStakes
  rw [List.map_map]
  change (validators.map fun _ => (part (1, 1)).toNat).sum = _
  rw [hpart, List.map_const', List.sum_replicate, smul_eq_mul, mul_one]

theorem wellStaked_unitStakes (validators : List Address) (hdistinct : validators.Nodup)
    (hfits : 2 * validators.length < 2 ^ 128) : WellStaked (unitStakes validators) := by
  refine ⟨?_, ?_, ?_⟩
  · rw [unitStakes, List.map_map]
    exact (List.map_id validators).symm ▸ hdistinct
  · rwa [totalStake_unitStakes _ rfl]
  · rwa [totalStake_unitStakes _ rfl]

end Units

end PayyRollup.ApprovalStakes
