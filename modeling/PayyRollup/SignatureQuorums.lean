import PayyRollup.ApprovalQuorums
import PayyRollup.RollupEffects

/-!
The signatures of a verified block. The signers that a block verification accepts are
validators, distinct and in order, and more than two thirds of their set; two accepted lists
share more than a third of the validators. With the stakes a node gives to validators, the
approvals with which a block is ready are the lists that are accepted.
-/
namespace PayyRollup.SignatureQuorums

open ScalarField VerifierContracts Transactions RollupState RollupCalls RollupEffects NodeBlocks
  Approvals WeightedQuorums ApprovalStakes ApprovalQuorums

variable {τ : Type}

section Signers

variable (env : Externals τ)

def recoverSigner (sigMsg : Element) (signature : RollupState.Signature) : Except Bytes Address :=
  env.recover sigMsg (UInt8.ofNat signature.v.toNat) signature.r signature.s

/-- Signatures of validators in strictly increasing order, starting above an address. -/
structure SignedBy (sigMsg : Element) (validators : List Address) (previous : Address)
    (signatures : List RollupState.Signature) (signers : List Address) : Prop where
  recovered : signatures.map (recoverSigner env sigMsg) = signers.map Except.ok
  validators : ∀ signer ∈ signers, signer ∈ validators
  sorted : (previous :: signers).Pairwise (· < ·)

/-- The number of signatures a block needs. -/
def minValidators (validators : List Address) : ℕ := validators.length * 2 / 3 + 1

/-- The signatures of a block pass for a set of validators. -/
structure Endorses (args : BlockArgs) (validators : List Address) (signers : List Address) :
    Prop where
  enough : minValidators validators ≤ args.signatures.length
  signed : SignedBy env (sigMsg env args) validators 0#160 args.signatures signers

theorem verifySignatures_iff (sigMsg : Element) (set : ValidatorSet) (previous : Address)
    (signatures : List RollupState.Signature) (s s' : Rollup τ) (u : Unit) :
    Commits (verifySignatures env sigMsg set previous signatures) s u s' ↔
      (∃ signers, SignedBy env sigMsg set.validatorsArray previous signatures signers) ∧
        s' = s := by
  induction signatures generalizing previous s with
  | nil =>
    rw [verifySignatures, commits_pure]
    constructor
    · rintro ⟨-, rfl⟩
      exact ⟨⟨[], rfl, fun _ h => absurd h List.not_mem_nil, List.pairwise_singleton _ _⟩, rfl⟩
    · rintro ⟨-, rfl⟩
      exact ⟨rfl, rfl⟩
  | cons signature rest ih =>
    simp only [verifySignatures, commits_bind, commits_bubble, commits_require, ih]
    constructor
    · rintro ⟨signer, _, ⟨hrecover, rfl⟩, _, _, ⟨hmember, rfl⟩, _, _, ⟨hlt, rfl⟩,
        ⟨signers, hsigned⟩, rfl⟩
      refine ⟨⟨signer :: signers, ?_, ?_, ?_⟩, rfl⟩
      · rw [List.map_cons, List.map_cons, hsigned.recovered]
        exact congrArg (· :: _) hrecover
      · intro a ha
        rcases List.mem_cons.mp ha with rfl | hrest
        · exact hmember
        · exact hsigned.validators a hrest
      · refine List.pairwise_cons.mpr ⟨?_, hsigned.sorted⟩
        intro a ha
        rcases List.mem_cons.mp ha with rfl | hrest
        · exact hlt
        · exact BitVec.lt_trans hlt ((List.pairwise_cons.mp hsigned.sorted).1 a hrest)
    · rintro ⟨⟨signers, hsigned⟩, rfl⟩
      cases signers with
      | nil => exact absurd hsigned.recovered (List.cons_ne_nil _ _)
      | cons signer signers =>
        obtain ⟨hrecover, hrest⟩ := List.cons.inj hsigned.recovered
        obtain ⟨hfirst, hsorted⟩ := List.pairwise_cons.mp hsigned.sorted
        refine ⟨signer, s', ⟨hrecover, rfl⟩, (), s',
          ⟨hsigned.validators signer List.mem_cons_self, rfl⟩, (), s',
          ⟨hfirst signer List.mem_cons_self, rfl⟩, ⟨signers, hrest, ?_, hsorted⟩, rfl⟩
        exact fun a ha => hsigned.validators a (List.mem_cons_of_mem _ ha)

variable (routerCall : RollupState.Address → Bytes → Element → RollupM τ Bool)

/-- A block is verified if its checks pass, its height has a successor, and validators of the
set of its height endorse it. -/
theorem verifyBlock2_iff (sender : Address) (args : BlockArgs) (s s' : Rollup τ) :
    Commits (verifyBlock2 env routerCall sender args) s () s' ↔
      VerifiesBlock env routerCall sender args s s' ∧ args.height.toNat + 1 < 2 ^ 256 ∧
        ∃ signers, Endorses env args
          (s.updateValidatorSetIndex args.height).getValidators.validatorsArray signers := by
  unfold verifyBlock2 onlyProver
  simp only [commits_bind, commits_get, commits_require, commits_modify, commits_view,
    verifySignatures_iff, and_assoc, exists_and_left, exists_eq_left, exists_const]
  constructor
  · rintro ⟨hprover, hroot, _, t, hexecuted, hcontains, henough, hheight, -, ⟨signers, hsigned⟩, _,
      hverify, hs'⟩
    exact ⟨⟨hprover, hroot, verified_of_ok hverify, t, hexecuted, hcontains, hs'⟩, hheight,
      signers, henough, hsigned⟩
  · rintro ⟨⟨hprover, hroot, hverified, t, hexecuted, hcontains, hs'⟩, hheight, signers, henough,
      hsigned⟩
    have hverify : AggregateVerifierV1.verify env.aggregatePlonk args.aggrProof
        args.aggrInstances args.oldRoot args.newRoot args.utxoHashes = .ok () :=
      (verifyInstances_ok _ _ _ ()).mpr hverified
    have hpositive : 0 < args.signatures.length := by
      unfold minValidators at henough
      omega
    exact ⟨hprover, hroot, (), t, hexecuted, hcontains, henough, hheight, hpositive,
      ⟨signers, hsigned⟩, (), hverify, hs'⟩

end Signers

section Quorums

variable {env : Externals τ} {validators : List Address}

theorem nodup_of_sorted {signers : List Address} (hsorted : signers.Pairwise (· < ·)) :
    signers.Nodup := by
  refine hsorted.imp ?_
  intro a b hlt heq
  subst heq
  exact BitVec.lt_irrefl a hlt

theorem SignedBy.nodup {sigMsg : Element} {previous : Address}
    {signatures : List RollupState.Signature} {signers : List Address}
    (h : SignedBy env sigMsg validators previous signatures signers) : signers.Nodup :=
  nodup_of_sorted (List.pairwise_cons.mp h.sorted).2

theorem SignedBy.length {sigMsg : Element} {previous : Address}
    {signatures : List RollupState.Signature} {signers : List Address}
    (h : SignedBy env sigMsg validators previous signatures signers) :
    signatures.length = signers.length := by
  have hlength := congrArg List.length h.recovered
  rwa [List.length_map, List.length_map] at hlength

/-- Two accepted lists share more than a third of the validators. -/
theorem Endorses.inter {args args' : BlockArgs} {signers signers' : List Address}
    (h : Endorses env args validators signers) (h' : Endorses env args' validators signers') :
    validators.length < 3 * (signers.toFinset ∩ signers'.toFinset).card := by
  have hsplit := Finset.card_union_add_card_inter signers.toFinset signers'.toFinset
  have hunion : (signers.toFinset ∪ signers'.toFinset).card ≤ validators.length := by
    refine (Finset.card_le_card ?_).trans validators.toFinset_card_le
    intro a ha
    rw [List.mem_toFinset]
    rcases Finset.mem_union.mp ha with hleft | hright
    · exact h.signed.validators a (List.mem_toFinset.mp hleft)
    · exact h'.signed.validators a (List.mem_toFinset.mp hright)
  have henough := h.enough
  have henough' := h'.enough
  rw [h.signed.length, ← List.toFinset_card_of_nodup h.signed.nodup] at henough
  rw [h'.signed.length, ← List.toFinset_card_of_nodup h'.signed.nodup] at henough'
  unfold minValidators at henough henough'
  omega

theorem unitStakes_distinct (hdistinct : validators.Nodup) :
    ((unitStakes validators).map fun s => s.1.validator).Nodup := by
  rw [unitStakes, List.map_map]
  exact (List.map_id validators).symm ▸ hdistinct

theorem members_unitStakes (hdistinct : validators.Nodup) :
    members (unitStakes validators) = validators.toFinset := by
  ext a
  unfold members accounts AList.keys
  rw [accountStakes_entries (unitStakes_distinct hdistinct)]
  simp [unitStakes, List.keys]

theorem weight_unitStakes (part : StakePart) (hpart : (part (1, 1)).toNat = 1)
    (hdistinct : validators.Nodup) (a : Address) (ha : a ∈ members (unitStakes validators)) :
    weight part (unitStakes validators) a = 1 := by
  unfold members at ha
  rw [mem_accounts, ← AList.lookup_isSome, Option.isSome_iff_exists] at ha
  obtain ⟨stakes, hlookup⟩ := ha
  have hentry : ⟨a, stakes⟩ ∈ (accountStakes (unitStakes validators)).entries :=
    AList.mem_lookup_iff.mp hlookup
  rw [accountStakes_entries (unitStakes_distinct hdistinct)] at hentry
  obtain rfl : stakes = (1, 1) := by
    simp [unitStakes] at hentry
    exact hentry.2.symm
  unfold weight
  rw [hlookup]
  exact hpart

/-- With unit stakes a quorum is a set of at least the number of signatures a block needs. -/
theorem isQuorum_unitStakes (part : StakePart) (hpart : (part (1, 1)).toNat = 1)
    (hdistinct : validators.Nodup) (voters : Finset Address) :
    IsQuorum (weight part (unitStakes validators)) (members (unitStakes validators)) voters ↔
      voters ⊆ members (unitStakes validators) ∧ minValidators validators ≤ voters.card := by
  have hone := weight_unitStakes part hpart hdistinct
  have hcard : (members (unitStakes validators)).card = validators.length := by
    rw [members_unitStakes hdistinct, List.toFinset_card_of_nodup hdistinct]
  have hequiv : IsQuorum (weight part (unitStakes validators)) (members (unitStakes validators))
      voters ↔ IsQuorum (fun _ => 1) (members (unitStakes validators)) voters := by
    constructor
    · intro h
      have hweight := h.two_thirds
      rw [Finset.sum_congr rfl hone,
        Finset.sum_congr rfl fun a ha => hone a (h.subset ha)] at hweight
      exact ⟨h.subset, hweight⟩
    · intro h
      refine ⟨h.subset, ?_⟩
      rw [Finset.sum_congr rfl hone, Finset.sum_congr rfl fun a ha => hone a (h.subset ha)]
      exact h.two_thirds
  rw [hequiv, isQuorum_one_iff, hcard]
  rfl

theorem ready_iff {stakes : List (ApprovalStake × Bool)} {inner : ApprovalInner}
    {targetHeight : ℕ} {t : DoomslugApprovalsTracker}
    (h : Tracked stakes inner targetHeight t) (now : ℕ) :
    (t.getBlockProductionReadiness now).2 ≠ .notReady ↔ t.CrossesThreshold := by
  unfold DoomslugApprovalsTracker.getBlockProductionReadiness
  rw [h.mode]
  by_cases hcross : t.CrossesThreshold
  · rw [if_pos (Or.inl hcross)]
    exact ⟨fun _ => hcross, fun _ hready => by cases hready⟩
  · rw [if_neg (by rintro (h | h); exacts [hcross h, by cases h])]
    exact ⟨fun hready => absurd rfl hready, fun h => absurd h hcross⟩

/-- With unit stakes a content is ready with as many approvals as a block needs signatures. -/
theorem ready_unitStakes {inner : ApprovalInner} {targetHeight : ℕ}
    {t : DoomslugApprovalsTracker} (hdistinct : validators.Nodup)
    (hfits : 2 * validators.length < 2 ^ 128)
    (h : Tracked (unitStakes validators) inner targetHeight t) (now : ℕ) :
    (t.getBlockProductionReadiness now).2 ≠ .notReady ↔
      minValidators validators ≤ (accounts t.witness).card := by
  rw [ready_iff h, h.crosses_iff (wellStaked_unitStakes validators hdistinct hfits),
    isQuorum_unitStakes _ rfl hdistinct, isQuorum_unitStakes _ rfl hdistinct]
  constructor
  · rintro ⟨⟨-, hmin⟩, -⟩
    exact hmin
  · intro hmin
    exact ⟨⟨h.voters, hmin⟩, fun _ => ⟨h.voters, hmin⟩⟩

end Quorums

/-- The tracker of a content at a height, in a run in which validators have unit stakes and
every processed approval satisfies a predicate. -/
def TrackedInRun (validatorsFor : ℕ → List Address) (P : ApprovalValidated → Prop)
    (targetHeight : ℕ) (inner : ApprovalInner) (tracker : DoomslugApprovalsTracker) : Prop :=
  ∃ now largestSentTargetHeight endorsementDelay minDelay delayStep maxDelay events trackers,
    (∀ event ∈ events, Staked (fun height => unitStakes (validatorsFor height)) event) ∧
    (∀ event ∈ events, Checked P event) ∧
    (run (Doomslug.new now largestSentTargetHeight endorsementDelay minDelay delayStep maxDelay
      .twoThirds) events).approvalTracking targetHeight = some trackers ∧
    trackers.approvalTrackers.lookup inner = some tracker

section Tracking

variable {validatorsFor : ℕ → List Address} {P : ApprovalValidated → Prop} {targetHeight : ℕ}
  {inner : ApprovalInner} {tracker : DoomslugApprovalsTracker}

theorem TrackedInRun.tracked
    (hvalid : ∀ height, (validatorsFor height).Nodup ∧ (validatorsFor height).length < 2 ^ 64)
    (h : TrackedInRun validatorsFor P targetHeight inner tracker) :
    Tracked (unitStakes (validatorsFor targetHeight)) inner targetHeight tracker := by
  obtain ⟨now, largest, endorsementDelay, minDelay, delayStep, maxDelay, events, trackers,
    hevents, -, htrackers, htracker⟩ := h
  have hstaked : ∀ height, WellStaked (unitStakes (validatorsFor height)) := by
    intro height
    obtain ⟨hdistinct, hlength⟩ := hvalid height
    exact wellStaked_unitStakes _ hdistinct (by omega)
  have hinv := run_inv hstaked events hevents _
    (inv_new now largest endorsementDelay minDelay delayStep maxDelay)
  exact (hinv.heights _ _ htrackers).tracked _ _ htracker

theorem TrackedInRun.witnesses (h : TrackedInRun validatorsFor P targetHeight inner tracker)
    (a : Address) (approval : ApprovalValidated) (arrival : ℕ)
    (hlookup : tracker.witness.lookup a = some (approval, arrival)) : P approval := by
  obtain ⟨now, largest, endorsementDelay, minDelay, delayStep, maxDelay, events, trackers, -,
    hevents, htrackers, htracker⟩ := h
  have hnone : EveryHeight (fun _ => AllWitnesses P)
      (Doomslug.new now largest endorsementDelay minDelay delayStep maxDelay .twoThirds) :=
    fun _ _ hnew => by cases hnew
  exact run_witnesses events hevents _ hnone _ _ htrackers _ _ a approval arrival htracker hlookup

end Tracking

/-- The validators who have signed share more than a third of their set between any two
verified blocks. A content is ready to be produced with as many approvals as a block needs
signatures; and a block whose other checks pass is verified with the signatures of the
approvals of a content exactly when the content is ready. -/
theorem validator_quorums_agree (env : Externals τ)
    (routerCall : Address → Bytes → Element → RollupM τ Bool) (validators : List Address) :
    (∀ sender sender' args args' s s' t t',
      Commits (verifyBlock2 env routerCall sender args) s () s' →
      Commits (verifyBlock2 env routerCall sender' args') t () t' →
      (s.updateValidatorSetIndex args.height).getValidators.validatorsArray = validators →
      (t.updateValidatorSetIndex args'.height).getValidators.validatorsArray = validators →
      ∃ signers signers',
        SignedBy env (sigMsg env args) validators 0#160 args.signatures signers ∧
        SignedBy env (sigMsg env args') validators 0#160 args'.signatures signers' ∧
        signers.Nodup ∧ signers'.Nodup ∧
        validators.length < 3 * (signers.toFinset ∩ signers'.toFinset).card) ∧
    ∀ (validatorsFor : ℕ → List Address) (P : ApprovalValidated → Prop) (targetHeight : ℕ)
      (inner : ApprovalInner) (tracker : DoomslugApprovalsTracker),
      (∀ height, (validatorsFor height).Nodup ∧ (validatorsFor height).length < 2 ^ 64) →
      validatorsFor targetHeight = validators →
      TrackedInRun validatorsFor P targetHeight inner tracker → ∀ now,
      ((tracker.getBlockProductionReadiness now).2 ≠ .notReady ↔
        minValidators validators ≤ (accounts tracker.witness).card) ∧
      ∀ sender args s s' (signatureOf : Address → RollupState.Signature)
        (signers : List Address),
        VerifiesBlock env routerCall sender args s s' → args.height.toNat + 1 < 2 ^ 256 →
        (s.updateValidatorSetIndex args.height).getValidators.validatorsArray = validators →
        signers.toFinset = accounts tracker.witness → (0#160 :: signers).Pairwise (· < ·) →
        (∀ signer ∈ signers,
          recoverSigner env (sigMsg env args) (signatureOf signer) = .ok signer) →
        ((tracker.getBlockProductionReadiness now).2 ≠ .notReady ↔
          Commits (verifyBlock2 env routerCall sender
            { args with signatures := signers.map signatureOf }) s () s') := by
  refine ⟨?_, ?_⟩
  · intro sender sender' args args' s s' t t' hverify hverify' hset hset'
    obtain ⟨-, -, signers, hendorses⟩ := (verifyBlock2_iff env routerCall _ _ _ _).mp hverify
    obtain ⟨-, -, signers', hendorses'⟩ := (verifyBlock2_iff env routerCall _ _ _ _).mp hverify'
    rw [hset] at hendorses
    rw [hset'] at hendorses'
    exact ⟨signers, signers', hendorses.signed, hendorses'.signed, hendorses.signed.nodup,
      hendorses'.signed.nodup, hendorses.inter hendorses'⟩
  · intro validatorsFor P targetHeight inner tracker hvalid htarget htracker now
    have htracked := htracker.tracked hvalid
    obtain ⟨hdistinct, hlength⟩ := hvalid targetHeight
    rw [htarget] at htracked hdistinct hlength
    have hready := ready_unitStakes hdistinct (by omega) htracked now
    refine ⟨hready, ?_⟩
    intro sender args s s' signatureOf signers hblock hheight hset haccounts hsorted hrecover
    have hrecovered : (signers.map signatureOf).map (recoverSigner env (sigMsg env args)) =
        signers.map Except.ok := by
      rw [List.map_map]
      exact List.map_congr_left hrecover
    have hcard : (accounts tracker.witness).card = (signers.map signatureOf).length := by
      have hnodup := nodup_of_sorted (List.pairwise_cons.mp hsorted).2
      rw [← haccounts, List.toFinset_card_of_nodup hnodup, List.length_map]
    rw [hready, hcard, verifyBlock2_iff]
    dsimp only
    rw [hset]
    constructor
    · intro henough
      obtain ⟨hprover, hroot, hverified, hexecuted⟩ := hblock
      refine ⟨⟨hprover, hroot, hverified, hexecuted⟩, hheight, signers, henough, hrecovered, ?_,
        hsorted⟩
      intro signer hsigner
      have hvoter : signer ∈ accounts tracker.witness := by
        rw [← haccounts, List.mem_toFinset]
        exact hsigner
      have hmember := htracked.voters hvoter
      rwa [members_unitStakes hdistinct, List.mem_toFinset] at hmember
    · rintro ⟨-, -, signers', hendorses⟩
      exact hendorses.enough

/-- A chain on which a signature names its signer and every proof verifies. -/
def namingEnv : Externals Unit where
  address := 9#160
  mintPlonk := fun _ _ => true
  burnPlonk := fun _ _ => true
  burnPlonkV2 := fun _ _ => true
  aggregatePlonk := fun _ _ => true
  keccak256 := fun _ => 0#256
  recover := fun _ _ r _ => .ok (r.setWidth 160)
  domainSeparator := 0#256
  hasCode := fun _ _ => false
  isBlacklisted := fun _ _ => false
  transfer := fun chain _ _ => .ok chain
  transferFrom := fun chain _ _ _ => .ok chain
  approve := fun chain _ _ => .ok chain
  receiveWithAuthorization := fun chain _ _ _ _ _ _ _ _ _ => .ok chain

def signatureNaming (signer : Address) : RollupState.Signature :=
  ⟨addressWord signer, 0#256, 27#256⟩

def namedBlock (height : Element) (signers : List Address) : BlockArgs where
  aggrProof := []
  aggrInstances := Vector.replicate 12 0#256
  oldRoot := 0#256
  newRoot := 0#256
  utxoHashes := Vector.replicate 18 0#256
  otherHashFromBlockHash := 0#256
  height := height
  signatures := signers.map signatureNaming

theorem namedBlock_recovered (sigMsg height : Element) (signers : List Address) :
    (namedBlock height signers).signatures.map (recoverSigner namingEnv sigMsg) =
      signers.map Except.ok := by
  change (signers.map signatureNaming).map _ = _
  rw [List.map_map]
  refine List.map_congr_left fun a _ => ?_
  change Except.ok ((a.setWidth 256).setWidth 160) = Except.ok a
  rw [BitVec.setWidth_setWidth_of_le a (by omega), BitVec.setWidth_eq]

/-- A block without leaves passes the other checks on top of the empty root. -/
theorem namedBlock_checks (env : Externals Unit)
    (hplonk : ∀ instances proof, env.aggregatePlonk instances proof = true)
    (routerCall : Address → Bytes → Element → RollupM Unit Bool) (sender : Address)
    (s : Rollup Unit) (height : Element) (signers : List Address)
    (hprover : s.provers sender = 1#256) (hroot : s.currentRootHash = 0#256) :
    VerifiesBlock env routerCall sender (namedBlock height signers) s
      { (s.updateValidatorSetIndex height).addRootHash 0#256 with
        blockHash := proposalHash env (namedBlock height signers)
        blockHeight := height } := by
  have hinstances : AggregateVerifierV1.instances (namedBlock height signers).aggrInstances 0#256
      0#256 (namedBlock height signers).utxoHashes = List.replicate 32 0#256 := rfl
  refine ⟨hprover, hroot.symm, ⟨?_, hplonk _ _⟩, _, rfl, ?_, rfl⟩
  · intro x hx
    obtain rfl := List.eq_of_mem_replicate (hinstances ▸ hx)
    norm_num [modulus]
  · unfold Rollup.containsRootHashes
    rw [List.all_eq_true]
    intro x hx
    have hzero : [0, 3, 6, 9, 12, 15].map (namedBlock height signers).utxoHash =
        List.replicate 6 0#256 := rfl
    rw [hzero] at hx
    exact decide_eq_true ⟨0, Or.inr (List.eq_of_mem_replicate hx)⟩

/-- A block without leaves that names enough validators is verified. -/
theorem namedBlock_verified
    (routerCall : Address → Bytes → Element → RollupM Unit Bool) (sender : Address)
    (s : Rollup Unit) (height : Element) (signers : List Address)
    (hprover : s.provers sender = 1#256) (hroot : s.currentRootHash = 0#256)
    (hheight : height.toNat + 1 < 2 ^ 256)
    (hmembers : ∀ a ∈ signers,
      a ∈ (s.updateValidatorSetIndex height).getValidators.validatorsArray)
    (hsorted : (0#160 :: signers).Pairwise (· < ·))
    (henough : minValidators (s.updateValidatorSetIndex height).getValidators.validatorsArray ≤
      signers.length) :
    Commits (verifyBlock2 namingEnv routerCall sender (namedBlock height signers)) s ()
      { (s.updateValidatorSetIndex height).addRootHash 0#256 with
        blockHash := proposalHash namingEnv (namedBlock height signers)
        blockHeight := height } := by
  have hlength : (namedBlock height signers).signatures.length = signers.length :=
    List.length_map _
  have hchecks := namedBlock_checks namingEnv (fun _ _ => rfl) routerCall sender s height signers
    hprover hroot
  refine (verifyBlock2_iff namingEnv _ _ _ _ _).mpr ⟨hchecks, hheight, signers, ?_,
    namedBlock_recovered _ _ signers, hmembers, hsorted⟩
  rw [hlength]
  exact henough

/-- Three of four validators and another three share more than a third of them. -/
theorem validator_quorums_agree_four :
    ∃ signers signers',
      SignedBy namingEnv (sigMsg namingEnv (namedBlock 1#256 [1#160, 2#160, 3#160]))
        [1#160, 2#160, 3#160, 4#160] 0#160
        (namedBlock 1#256 [1#160, 2#160, 3#160]).signatures signers ∧
      SignedBy namingEnv (sigMsg namingEnv (namedBlock 1#256 [2#160, 3#160, 4#160]))
        [1#160, 2#160, 3#160, 4#160] 0#160
        (namedBlock 1#256 [2#160, 3#160, 4#160]).signatures signers' ∧
      signers.Nodup ∧ signers'.Nodup ∧
      [1#160, 2#160, 3#160, 4#160].length < 3 * (signers.toFinset ∩ signers'.toFinset).card := by
  let s := initialState () 7#160 2#160 [1#160, 2#160, 3#160, 4#160] 0#256
  have hset : (s.updateValidatorSetIndex 1#256).getValidators.validatorsArray =
      [1#160, 2#160, 3#160, 4#160] := rfl
  have hfirst := namedBlock_verified (fun _ _ _ => return false) 2#160 s 1#256
    [1#160, 2#160, 3#160] rfl rfl (by norm_num) (by simp [hset]) (by simp)
    (by rw [hset]; decide)
  have hsecond := namedBlock_verified (fun _ _ _ => return false) 2#160 s 1#256
    [2#160, 3#160, 4#160] rfl rfl (by norm_num) (by simp [hset]) (by simp)
    (by rw [hset]; decide)
  exact (validator_quorums_agree namingEnv (fun _ _ _ => return false)
    [1#160, 2#160, 3#160, 4#160]).1 2#160 2#160 _ _ _ _ _ _ hfirst hsecond hset hset

end PayyRollup.SignatureQuorums
