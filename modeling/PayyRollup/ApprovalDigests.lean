import PayyRollup.NodeRuns
import PayyRollup.SignatureQuorums

/-!
The message of an approval. The bytes a validator signs for a block are those the contract
builds from the root, the height and the hash of the header; without collisions of the hash
they determine all three. The contract recovers the same signers from the converted
signatures if these are in the form it accepts.
-/
namespace PayyRollup.ApprovalDigests

open ScalarField VerifierContracts Transactions RollupState RollupCalls RollupEffects NodeBlocks
  Approvals WeightedQuorums ApprovalStakes ApprovalQuorums SignatureQuorums

open NodeRuns (emptyBlock)

variable {τ : Type}

section Digests

/-- The digest a validator signs for an approval. -/
def approvalDigest (nodeEnv : NodeEnv) (content : ApprovalContent) : Option CryptoHash :=
  (content.hash nodeEnv).map fun msg => nodeEnv.keccak256 (signedMessage msg)

/-- The approval of a block for the next height. -/
def endorsement (nodeEnv : NodeEnv) (content : BlockContent) : ApprovalContent :=
  ApprovalContent.new (content.hash nodeEnv) content.header.height
    (nextHeight content.header.height)

/-- The block is rolled up with its root, its height and the hash of its header. -/
structure RollsUp (nodeEnv : NodeEnv) (content : BlockContent) (args : BlockArgs) : Prop where
  root : args.newRoot = content.state.rootHash
  height : args.height = BitVec.ofNat 256 content.header.height
  header : args.otherHashFromBlockHash = content.headerHash nodeEnv

/-- The hash and the key recovery of the chain are those of the node; the chain accepts only
the lower half of the second scalar, and no zero address. -/
structure RecoversAlike (nodeEnv : NodeEnv) (env : Externals τ) : Prop where
  keccak : env.keccak256 = nodeEnv.keccak256
  recover : ∀ digest v r s signer, env.recover digest v r s = .ok signer ↔
    (v = 27 ∨ v = 28) ∧ s.toNat ≤ curveOrder / 2 ∧ r.toNat < curveOrder ∧ signer ≠ 0#160 ∧
      nodeEnv.recoverEcdsa digest (v.toNat - 27) r s = some signer

theorem abiWord_eq (x : Element) : abiWord x = beBytes 32 x.toNat := rfl

theorem encodePackedAccept_eq (msg : Element) : encodePackedAccept msg = signedMessage msg := by
  have hlength : network.length = 8 := by decide +kernel
  have hsplit : [0, 0, 0, 0, 0, 0, 0, 8] = beBytes 8 8 := by decide
  unfold encodePackedAccept signedMessage
  rw [hlength, hsplit]
  rfl

variable {nodeEnv : NodeEnv} {env : Externals τ}

theorem proposalHash_eq (halike : RecoversAlike nodeEnv env) {content : BlockContent}
    {args : BlockArgs} (hargs : RollsUp nodeEnv content args)
    (hheight : content.header.height < 2 ^ 64) :
    proposalHash env args = content.hash nodeEnv := by
  have hnat : args.height.toNat = content.header.height := by
    rw [hargs.height, BitVec.toNat_ofNat]
    exact Nat.mod_eq_of_lt (by omega)
  unfold proposalHash BlockContent.hash BlockContent.message
  rw [halike.keccak, abiWord_eq, abiWord_eq, abiWord_eq, hnat, hargs.root, hargs.header]

/-- The digest of the endorsement of a block is the one the contract checks. -/
theorem approvalDigest_eq (halike : RecoversAlike nodeEnv env) {content : BlockContent}
    {args : BlockArgs} (hargs : RollsUp nodeEnv content args)
    (hheight : content.header.height + 1 < 2 ^ 64) :
    approvalDigest nodeEnv (endorsement nodeEnv content) = some (sigMsg env args) := by
  have hnext : nextHeight content.header.height = content.header.height + 1 :=
    Nat.mod_eq_of_lt hheight
  have hnat : (args.height + 1#256).toNat = content.header.height + 1 := by
    rw [hargs.height, BitVec.toNat_add, BitVec.toNat_ofNat]
    change (content.header.height % 2 ^ 256 + 1) % 2 ^ 256 = _
    omega
  unfold approvalDigest endorsement ApprovalContent.hash ApprovalContent.new ApprovalInner.new
  rw [if_pos rfl]
  dsimp only [Option.map_some]
  unfold sigMsg
  rw [encodePackedAccept_eq, proposalHash_eq halike hargs (by omega), abiWord_eq, abiWord_eq,
    hnat, hnext, halike.keccak]

/-- The messages an endorsement of a block hashes. -/
structure Messages (nodeEnv : NodeEnv) (messages : Set Bytes) (content : BlockContent)
    (targetHeight : ℕ) : Prop where
  block : content.message nodeEnv ∈ messages
  approval : beBytes 32 targetHeight ++ beBytes 32 (content.hash nodeEnv).toNat ∈ messages
  signed : signedMessage (nodeEnv.keccak256
    (beBytes 32 targetHeight ++ beBytes 32 (content.hash nodeEnv).toNat)) ∈ messages

/-- The messages the contract hashes for a block. -/
structure RolledUpMessages (nodeEnv : NodeEnv) (env : Externals τ) (messages : Set Bytes)
    (args : BlockArgs) : Prop where
  block : abiWord args.newRoot ++ abiWord args.height ++ abiWord args.otherHashFromBlockHash ∈
    messages
  approval : abiWord (args.height + 1#256) ++ abiWord (proposalHash env args) ∈ messages
  signed : encodePackedAccept (env.keccak256
    (abiWord (args.height + 1#256) ++ abiWord (proposalHash env args))) ∈ messages

theorem beBytes_toNat_inj {a b : Element} (h : beBytes 32 a.toNat = beBytes 32 b.toNat) :
    a = b := by
  apply BitVec.eq_of_toNat_eq
  exact beBytes_inj 32 _ _ (by have := a.isLt; omega) (by have := b.isLt; omega) h

/-- An endorsement with the digest of a block is that of its root, its height and the hash of
its header, for the next height. -/
theorem approvalDigest_inj (halike : RecoversAlike nodeEnv env) {messages : Set Bytes}
    (hkeccak : Set.InjOn nodeEnv.keccak256 messages) {content : BlockContent}
    {targetHeight : ℕ} {args : BlockArgs} (hheight : content.header.height < 2 ^ 64)
    (htarget : targetHeight < 2 ^ 64) (hnext : args.height.toNat + 1 < 2 ^ 256)
    (hcontent : Messages nodeEnv messages content targetHeight)
    (hargs : RolledUpMessages nodeEnv env messages args)
    (hdigest : approvalDigest nodeEnv ⟨.endorsement (content.hash nodeEnv), targetHeight⟩ =
      some (sigMsg env args)) :
    content.state.rootHash = args.newRoot ∧ content.header.height = args.height.toNat ∧
      content.headerHash nodeEnv = args.otherHashFromBlockHash ∧
      targetHeight = args.height.toNat + 1 := by
  have hsigned := hargs.signed
  have happroval := hargs.approval
  have hblock := hargs.block
  unfold approvalDigest ApprovalContent.hash sigMsg at hdigest
  rw [halike.keccak] at hsigned hdigest
  have hmessage := hkeccak hcontent.signed hsigned (Option.some.inj hdigest)
  rw [encodePackedAccept_eq] at hmessage
  have hhash := beBytes_toNat_inj (List.append_inj_right' hmessage (by simp))
  have hpair := hkeccak hcontent.approval happroval hhash
  obtain ⟨htargets, hhashes⟩ := List.append_inj hpair (by simp [abiWord_eq])
  have htargetEq : targetHeight = (args.height + 1#256).toNat :=
    beBytes_inj 32 _ _ (by omega) (by have := (args.height + 1#256).isLt; omega) htargets
  have hproposal : content.hash nodeEnv = proposalHash env args := beBytes_toNat_inj hhashes
  unfold proposalHash at hproposal
  rw [halike.keccak] at hproposal
  have hwords := hkeccak hcontent.block hblock hproposal
  obtain ⟨hfront, hheader⟩ := List.append_inj hwords (by simp [abiWord_eq])
  obtain ⟨hroot, hheights⟩ := List.append_inj hfront (by simp [abiWord_eq])
  refine ⟨beBytes_toNat_inj hroot, ?_, beBytes_toNat_inj hheader, ?_⟩
  · exact beBytes_inj 32 _ _ (by omega) (by have := args.height.isLt; omega) hheights
  · rw [htargetEq, BitVec.toNat_add]
    exact Nat.mod_eq_of_lt hnext

end Digests

section Conversion

/-- The signature of a call: the recovery id becomes the `v` of the chain. -/
def convertSignature (signature : NodeBlocks.Signature) : RollupState.Signature :=
  let last := signature.get (Fin.last 64)
  let v := if last < 27 then last + 27 else last
  ⟨signature.r, signature.s, BitVec.ofNat 256 v.toNat⟩

/-- A signature in the form the chain accepts. -/
structure Canonical (signature : NodeBlocks.Signature) : Prop where
  recoveryId : signature.recoveryId < 2
  lower : signature.s.toNat ≤ curveOrder / 2

/-- The signature of an approval verifies, as it is checked when the approval is received. -/
def Validated (nodeEnv : NodeEnv) (approval : ApprovalValidated) : Prop :=
  ∃ msg, approval.content.hash nodeEnv = some msg ∧
    approval.signature.verify nodeEnv msg = .ok approval.validator

variable {nodeEnv : NodeEnv} {env : Externals τ}

theorem convertSignature_v (signature : NodeBlocks.Signature) (hid : signature.recoveryId < 4) :
    (UInt8.ofNat (convertSignature signature).v.toNat).toNat = signature.recoveryId + 27 := by
  unfold NodeBlocks.Signature.recoveryId at hid ⊢
  have hlt : signature[64] < 27 := by
    rw [UInt8.lt_iff_toNat_lt]
    exact Nat.lt_of_lt_of_le hid (by decide)
  have hadd : (signature[64] + 27).toNat = signature[64].toNat + 27 := by
    rw [UInt8.toNat_add]
    change (signature[64].toNat + 27) % 256 = _
    omega
  unfold convertSignature
  dsimp only
  change (UInt8.ofNat (BitVec.ofNat 256
    (if signature[64] < 27 then signature[64] + 27 else signature[64]).toNat).toNat).toNat = _
  rw [if_pos hlt, BitVec.toNat_ofNat, hadd, Nat.mod_eq_of_lt (by omega), UInt8.toNat_ofNat',
    Nat.mod_eq_of_lt (by omega)]

/-- What a verified signature recovers to. -/
theorem verify_recovers {signature : NodeBlocks.Signature} {msg : CryptoHash}
    {signer : Address} (h : signature.verify nodeEnv msg = .ok signer) :
    signature.recoveryId < 4 ∧ signature.r.toNat < curveOrder ∧
      nodeEnv.recoverEcdsa (nodeEnv.keccak256 (signedMessage msg)) signature.recoveryId
        signature.r signature.s = some signer := by
  unfold NodeBlocks.Signature.verify at h
  split at h
  · cases h
  rename_i hid
  split at h
  · cases h
  rename_i horder
  rw [not_or] at horder
  split at h
  · rename_i address hrecover
    obtain rfl := Except.ok.inj h
    exact ⟨by omega, by omega, hrecover⟩
  · cases h

/-- The conversion keeps the signer of a verified signature exactly if the signature is in
the form the chain accepts. -/
theorem recoverSigner_iff (halike : RecoversAlike nodeEnv env) {signature : NodeBlocks.Signature}
    {msg : CryptoHash} {signer : Address} (h : signature.verify nodeEnv msg = .ok signer) :
    recoverSigner env (nodeEnv.keccak256 (signedMessage msg)) (convertSignature signature) =
        .ok signer ↔ Canonical signature ∧ signer ≠ 0#160 := by
  obtain ⟨hid, hr, hrecover⟩ := verify_recovers h
  have hv := convertSignature_v signature hid
  unfold recoverSigner
  rw [halike.recover, hv]
  have hform : (UInt8.ofNat (convertSignature signature).v.toNat = 27 ∨
      UInt8.ofNat (convertSignature signature).v.toNat = 28) ↔ signature.recoveryId < 2 := by
    rw [← UInt8.toNat_inj, ← UInt8.toNat_inj, hv]
    change signature.recoveryId + 27 = 27 ∨ signature.recoveryId + 27 = 28 ↔ _
    omega
  rw [hform, Nat.add_sub_cancel]
  constructor
  · rintro ⟨hrecoveryId, hlower, -, hzero, -⟩
    exact ⟨⟨hrecoveryId, hlower⟩, hzero⟩
  · rintro ⟨⟨hrecoveryId, hlower⟩, hzero⟩
    exact ⟨hrecoveryId, hlower, hr, hzero, hrecover⟩

end Conversion

section Lists

variable {nodeEnv : NodeEnv} {env : Externals τ}

/-- The approvals of a block with which the next height is ready, in any order. -/
structure Counted (nodeEnv : NodeEnv) (validatorsFor : ℕ → List Address)
    (content : BlockContent) (approvals : List ApprovalValidated) : Prop where
  validators : ∀ height, (validatorsFor height).Nodup ∧ (validatorsFor height).length < 2 ^ 64
  tracked : ∃ tracker now,
    TrackedInRun validatorsFor (Validated nodeEnv) (endorsement nodeEnv content).targetHeight
      (endorsement nodeEnv content).inner tracker ∧
    (tracker.getBlockProductionReadiness now).2 ≠ .notReady ∧
    approvals.Perm (tracker.witness.entries.map fun e => e.2.1)

/-- The approvals are verified, for the block, of distinct validators, and enough. -/
theorem Counted.facts {validatorsFor : ℕ → List Address} {content : BlockContent}
    {approvals : List ApprovalValidated} (h : Counted nodeEnv validatorsFor content approvals) :
    (∀ approval ∈ approvals, Validated nodeEnv approval ∧
      approval.content = endorsement nodeEnv content ∧
      approval.validator ∈ validatorsFor (endorsement nodeEnv content).targetHeight) ∧
    minValidators (validatorsFor (endorsement nodeEnv content).targetHeight) ≤
      approvals.length := by
  obtain ⟨tracker, now, hrun, hready, hperm⟩ := h.tracked
  have htracked := hrun.tracked h.validators
  obtain ⟨hdistinct, hlength⟩ := h.validators (endorsement nodeEnv content).targetHeight
  constructor
  · intro approval hmem
    obtain ⟨⟨a, witness⟩, hentry, rfl⟩ := List.mem_map.mp (hperm.mem_iff.mp hmem)
    have hlookup : tracker.witness.lookup a = some witness := AList.mem_lookup_iff.mpr hentry
    obtain ⟨hvalidator, hcontent⟩ := htracked.approvals a witness.1 witness.2 hlookup
    refine ⟨hrun.witnesses a witness.1 witness.2 hlookup, hcontent, ?_⟩
    have hvoter : a ∈ accounts tracker.witness := by
      rw [mem_accounts, ← AList.lookup_isSome, hlookup]
      rfl
    have hmember := htracked.voters hvoter
    rw [members_unitStakes hdistinct, List.mem_toFinset] at hmember
    rw [hvalidator]
    exact hmember
  · have hmin := (ready_unitStakes hdistinct (by omega) htracked now).mp hready
    have hcard : (accounts tracker.witness).card = approvals.length := by
      rw [hperm.length_eq, List.length_map, accounts,
        List.toFinset_card_of_nodup tracker.witness.keys_nodup]
      exact List.length_map _
    rwa [hcard] at hmin

/-- The signers are validators of a set, and as many as it needs. -/
structure Seated (validators : List Address) (approvals : List ApprovalValidated) : Prop where
  members : ∀ approval ∈ approvals, approval.validator ∈ validators
  enough : minValidators validators ≤ approvals.length

/-- Counted approvals are seated in the set of the next height. -/
theorem Counted.seated {validatorsFor : ℕ → List Address} {content : BlockContent}
    {approvals : List ApprovalValidated} (h : Counted nodeEnv validatorsFor content approvals) :
    Seated (validatorsFor (endorsement nodeEnv content).targetHeight) approvals :=
  ⟨fun approval hmem => (h.facts.1 approval hmem).2.2, h.facts.2⟩

/-- The digests of an approved block agree; the counted approvals keep their signers and are
accepted exactly when all are in the form of the chain and sorted, and seated in the set that the
contract selects for the block, as they are where that is the set of the next height; and an
endorsement with the digest of a verified block is that of its root and height. -/
theorem approvals_agree_iff (halike : RecoversAlike nodeEnv env)
    (routerCall : Address → Bytes → Element → RollupM τ Bool) (args : BlockArgs) :
    (∀ content, RollsUp nodeEnv content args → content.header.height + 1 < 2 ^ 64 →
      approvalDigest nodeEnv (endorsement nodeEnv content) = some (sigMsg env args) ∧
      ∀ validatorsFor approvals, Counted nodeEnv validatorsFor content approvals →
      ∀ sender s s', VerifiesBlock env routerCall sender args s s' →
        let validators := (s.updateValidatorSetIndex args.height).getValidators.validatorsArray
        (validators = validatorsFor (content.header.height + 1) → Seated validators approvals) ∧
        ((∀ approval ∈ approvals, recoverSigner env (sigMsg env args)
            (convertSignature approval.signature) = .ok approval.validator) ∧
          Commits (verifyBlock2 env routerCall sender { args with
            signatures := approvals.map fun approval => convertSignature approval.signature })
            s () s' ↔
        (∀ approval ∈ approvals, Canonical approval.signature) ∧
          (0#160 :: approvals.map ApprovalValidated.validator).Pairwise (· < ·) ∧
          Seated validators approvals)) ∧
    ∀ sender s s', Commits (verifyBlock2 env routerCall sender args) s () s' →
      ∀ messages, Set.InjOn nodeEnv.keccak256 messages →
        RolledUpMessages nodeEnv env messages args →
      ∀ content targetHeight, content.header.height < 2 ^ 64 → targetHeight < 2 ^ 64 →
        Messages nodeEnv messages content targetHeight →
        approvalDigest nodeEnv ⟨.endorsement (content.hash nodeEnv), targetHeight⟩ =
          some (sigMsg env args) →
        content.state.rootHash = args.newRoot ∧ content.header.height = args.height.toNat ∧
          content.headerHash nodeEnv = args.otherHashFromBlockHash ∧
          targetHeight = args.height.toNat + 1 := by
  refine ⟨?_, ?_⟩
  · intro content hargs hheight
    have hdigest := approvalDigest_eq halike hargs hheight
    refine ⟨hdigest, ?_⟩
    intro validatorsFor approvals hcounted sender s s' hblock validators
    obtain ⟨hfacts, -⟩ := hcounted.facts
    have hnext : (endorsement nodeEnv content).targetHeight = content.header.height + 1 :=
      Nat.mod_eq_of_lt hheight
    have hkeeps : ∀ approval ∈ approvals, (recoverSigner env (sigMsg env args)
        (convertSignature approval.signature) = .ok approval.validator ↔
          Canonical approval.signature ∧ approval.validator ≠ 0#160) := by
      intro approval hmem
      obtain ⟨⟨msg, hmsg, hverify⟩, hcontent, -⟩ := hfacts approval hmem
      have hsigned : nodeEnv.keccak256 (signedMessage msg) = sigMsg env args := by
        unfold approvalDigest at hdigest
        rw [← hcontent, hmsg] at hdigest
        exact Option.some.inj hdigest
      rw [← hsigned]
      exact recoverSigner_iff halike hverify
    have hmap : (approvals.map fun approval => convertSignature approval.signature).map
        (recoverSigner env (sigMsg env args)) =
          (approvals.map ApprovalValidated.validator).map Except.ok ↔
        ∀ approval ∈ approvals, recoverSigner env (sigMsg env args)
          (convertSignature approval.signature) = .ok approval.validator := by
      rw [List.map_map, List.map_map]
      exact List.map_inj_left
    have hlength : (approvals.map fun approval =>
        convertSignature approval.signature).length = approvals.length := List.length_map _
    refine ⟨fun hset => ?_, ?_, ?_⟩
    · rw [hset, ← hnext]
      exact hcounted.seated
    · rintro ⟨hrecovered, hcommits⟩
      obtain ⟨-, -, signers, henough, hsigned⟩ :=
        (verifyBlock2_iff env routerCall sender _ s s').mp hcommits
      have hsame : signers.map Except.ok =
          (approvals.map ApprovalValidated.validator).map Except.ok :=
        hsigned.recovered.symm.trans (hmap.mpr hrecovered)
      obtain rfl : signers = approvals.map ApprovalValidated.validator :=
        List.map_injective_iff.mpr (fun _ _ heq => Except.ok.inj heq) hsame
      refine ⟨fun approval hmem => ((hkeeps approval hmem).mp (hrecovered approval hmem)).1,
        hsigned.sorted, fun approval hmem => ?_, ?_⟩
      · exact hsigned.validators _ (List.mem_map.mpr ⟨approval, hmem, rfl⟩)
      · rwa [hlength] at henough
    · rintro ⟨hcanonical, hsorted, hseated⟩
      have hrecovered : ∀ approval ∈ approvals, recoverSigner env (sigMsg env args)
          (convertSignature approval.signature) = .ok approval.validator := by
        intro approval hmem
        refine (hkeeps approval hmem).mpr ⟨hcanonical approval hmem, ?_⟩
        have hpositive := (List.pairwise_cons.mp hsorted).1 approval.validator
          (List.mem_map.mpr ⟨approval, hmem, rfl⟩)
        intro hzero
        rw [hzero] at hpositive
        exact BitVec.lt_irrefl _ hpositive
      refine ⟨hrecovered, (verifyBlock2_iff env routerCall sender _ s s').mpr
        ⟨⟨hblock.prover, hblock.old_root, hblock.verified, hblock.executed⟩, ?_,
          approvals.map ApprovalValidated.validator, ?_, hmap.mpr hrecovered, ?_, hsorted⟩⟩
      · have hnat : args.height.toNat = content.header.height := by
          rw [hargs.height, BitVec.toNat_ofNat]
          exact Nat.mod_eq_of_lt (by omega)
        dsimp only
        omega
      · dsimp only
        rw [hlength]
        exact hseated.enough
      · intro signer hsigner
        obtain ⟨approval, hmem, rfl⟩ := List.mem_map.mp hsigner
        exact hseated.members approval hmem
  · intro sender s s' hverify messages hkeccak hargs content targetHeight hheight htarget
      hmessages hdigest
    obtain ⟨-, hnext, -⟩ := (verifyBlock2_iff env routerCall sender args s s').mp hverify
    exact approvalDigest_inj halike hkeccak hheight htarget hnext hmessages hargs hdigest

end Lists

section OneValidator

/-- A node for which a signature names its signer. -/
def namingNode : NodeEnv where
  keccak256 := fun _ => 0#256
  poseidon := fun _ => 0
  verifyProof := fun _ _ => some true
  recoverEcdsa := fun _ _ r _ => some (r.setWidth 160)

/-- A chain that accepts the signatures of the node in its form. -/
def strictEnv : Externals Unit :=
  { namingEnv with
    recover := fun _ v r s =>
      if (v = 27 ∨ v = 28) ∧ s.toNat ≤ curveOrder / 2 ∧ r.toNat < curveOrder ∧
          r.setWidth 160 ≠ 0#160 then .ok (r.setWidth 160)
      else .error [] }

theorem recoversAlike_strictEnv : RecoversAlike namingNode strictEnv := by
  refine ⟨rfl, ?_⟩
  intro digest v r s signer
  change (if _ then Except.ok (r.setWidth 160) else Except.error []) = _ ↔ _
  split
  · rename_i h
    obtain ⟨hv, hs, hr, hzero⟩ := h
    constructor
    · intro heq
      obtain rfl := Except.ok.inj heq
      exact ⟨hv, hs, hr, hzero, rfl⟩
    · rintro ⟨-, -, -, -, heq⟩
      exact congrArg Except.ok (Option.some.inj heq)
  · rename_i h
    constructor
    · intro heq
      cases heq
    · rintro ⟨hv, hs, hr, hzero, heq⟩
      obtain rfl := Option.some.inj heq
      exact absurd ⟨hv, hs, hr, hzero⟩ h

/-- The bytes of a signature. -/
def signatureBytes (r s : ℕ) (recoveryId : UInt8) : NodeBlocks.Signature :=
  ⟨(beBytes 32 r ++ beBytes 32 s ++ [recoveryId]).toArray, by simp⟩

theorem signatureBytes_toList (r s : ℕ) (recoveryId : UInt8) :
    (signatureBytes r s recoveryId).toList = beBytes 32 r ++ (beBytes 32 s ++ [recoveryId]) := by
  simp [signatureBytes]

theorem signatureBytes_r (r s : ℕ) (recoveryId : UInt8) (hr : r < 2 ^ 256) :
    (signatureBytes r s recoveryId).r = BitVec.ofNat 256 r := by
  unfold NodeBlocks.Signature.r
  rw [signatureBytes_toList, List.take_left' (beBytes_length 32 r),
    fromBeBytes_beBytes 32 r (by omega)]

theorem signatureBytes_s (r s : ℕ) (recoveryId : UInt8) (hs : s < 2 ^ 256) :
    (signatureBytes r s recoveryId).s = BitVec.ofNat 256 s := by
  unfold NodeBlocks.Signature.s
  rw [signatureBytes_toList, List.drop_left' (beBytes_length 32 r),
    List.take_left' (beBytes_length 32 s), fromBeBytes_beBytes 32 s (by omega)]

theorem signatureBytes_recoveryId (r s : ℕ) (recoveryId : UInt8) :
    (signatureBytes r s recoveryId).recoveryId = recoveryId.toNat := by
  unfold NodeBlocks.Signature.recoveryId signatureBytes
  simp

/-- The second scalar 1, or its negative. -/
def scalar (upper : Bool) : ℕ := if upper = true then curveOrder - 1 else 1

/-- The approval of a first block by the validator 1. -/
def approvalWith (upper : Bool) : ApprovalValidated :=
  ⟨endorsement namingNode emptyBlock.content, signatureBytes 1 (scalar upper) 0, 1#160⟩

theorem curveOrder_bounds : 3 < curveOrder ∧ curveOrder < 2 ^ 256 := by
  unfold curveOrder
  norm_num

theorem scalar_lt (upper : Bool) : scalar upper < curveOrder := by
  have hbounds := curveOrder_bounds
  unfold scalar
  split
  · omega
  · omega

theorem approvalWith_s (upper : Bool) : (approvalWith upper).signature.s.toNat = scalar upper := by
  have hbounds := curveOrder_bounds
  have hs := scalar_lt upper
  change (signatureBytes 1 (scalar upper) 0).s.toNat = _
  rw [signatureBytes_s 1 _ 0 (by omega), BitVec.toNat_ofNat]
  exact Nat.mod_eq_of_lt (by omega)

theorem validated_approvalWith (upper : Bool) : Validated namingNode (approvalWith upper) := by
  have hbounds := curveOrder_bounds
  have hs := scalar_lt upper
  have hr : (approvalWith upper).signature.r = 1#256 := signatureBytes_r 1 _ 0 (by norm_num)
  have hone : (1#256).toNat < curveOrder := by
    change 1 < curveOrder
    omega
  have hid : (approvalWith upper).signature.recoveryId = 0 := signatureBytes_recoveryId 1 _ 0
  refine ⟨0#256, rfl, ?_⟩
  unfold NodeBlocks.Signature.verify
  rw [hid, if_neg (by decide), approvalWith_s, hr, if_neg (by omega)]
  rfl

/-- The tracker that has counted the approval. -/
def approvalTracker (upper : Bool) : DoomslugApprovalsTracker where
  witness :=
    (∅ : AList fun _ : Address => ApprovalValidated × ℕ).insert 1#160 (approvalWith upper, 0)
  accountIdToStakes := accountStakes (unitStakes [1#160])
  totalStakeThisEpoch := 1
  approvedStakeThisEpoch := 1
  totalStakeNextEpoch := 1
  approvedStakeNextEpoch := 1
  timePassedThreshold := some 0
  thresholdMode := .twoThirds

/-- The approval is counted where the validator 1 is the set of the next height. -/
theorem counted_approvalWith (upper : Bool) (validatorsFor : ℕ → List Address)
    (hvalidators : ∀ height, (validatorsFor height).Nodup ∧ (validatorsFor height).length < 2 ^ 64)
    (hset : validatorsFor 2 = [1#160]) :
    Counted namingNode validatorsFor emptyBlock.content [approvalWith upper] := by
  have htracking : (run (Doomslug.new 0 0 0 0 0 0 .twoThirds)
      [.onApproval 0 0 (approvalWith upper) (unitStakes [1#160])]).approvalTracking 2 =
        some ⟨AList.insert (.endorsement 0#256) (approvalTracker upper) ∅,
          AList.insert 1#160 (.endorsement 0#256) ∅⟩ := by
    cases upper with
    | false => rfl
    | true => rfl
  refine ⟨hvalidators, approvalTracker upper, 0,
    ⟨0, 0, 0, 0, 0, 0, [.onApproval 0 0 (approvalWith upper) (unitStakes [1#160])], _, ?_, ?_,
      htracking, rfl⟩, ?_, ?_⟩
  · intro event hevent
    obtain rfl := List.mem_singleton.mp hevent
    exact congrArg unitStakes hset.symm
  · intro event hevent
    obtain rfl := List.mem_singleton.mp hevent
    exact validated_approvalWith upper
  · cases upper with
    | false => decide
    | true => decide
  · exact List.Perm.refl _

theorem rollsUp_namedBlock (signers : List Address) :
    RollsUp namingNode emptyBlock.content (namedBlock 1#256 signers) := ⟨rfl, rfl, rfl⟩

theorem counted_alone (upper : Bool) :
    Counted namingNode (fun _ => [1#160]) emptyBlock.content [approvalWith upper] :=
  counted_approvalWith upper _ (fun _ => ⟨List.nodup_singleton _, by norm_num⟩) rfl

/-- The block passes all other checks and the approval is counted, but with it the contract
rejects the block. -/
structure Refused (validatorsFor : ℕ → List Address) (s : Rollup Unit)
    (approval : ApprovalValidated) : Prop where
  rollsUp : RollsUp namingNode emptyBlock.content (namedBlock 1#256 [])
  counted : Counted namingNode validatorsFor emptyBlock.content [approval]
  checks : ∃ s', VerifiesBlock strictEnv (fun _ _ _ => return false) 2#160 (namedBlock 1#256 []) s
    s'
  refused : ∀ s', ¬Commits (verifyBlock2 strictEnv (fun _ _ _ => return false) 2#160
    { namedBlock 1#256 [] with
      signatures := [approval].map fun approval => convertSignature approval.signature }) s () s'

/-- The set of the validator 5, and that of the validator 1 from height 2 on. -/
def joiningSets (height : ℕ) : List Address := if height < 2 then [5#160] else [1#160]

def joiningState : Rollup Unit :=
  step strictEnv (fun _ _ _ _ => .stop true) 0 (initialState () 7#160 2#160 [5#160] 0#256)
    (7#160, .setValidators 2#256 [1#160])

theorem joiningSets_small (height : ℕ) :
    (joiningSets height).Nodup ∧ (joiningSets height).length < 2 ^ 64 := by
  unfold joiningSets
  split
  · exact ⟨List.nodup_singleton _, by norm_num⟩
  · exact ⟨List.nodup_singleton _, by norm_num⟩

/-- The chain rejects a counted approval with the upper half of the second scalar, and one of a
validator that is in the set of the next height only. -/
theorem not_approvals_agree :
    Refused (fun _ => [1#160]) (initialState () 7#160 2#160 [1#160] 0#256) (approvalWith true) ∧
      Refused joiningSets joiningState (approvalWith false) := by
  have hchecks : ∀ s : Rollup Unit, s.provers 2#160 = 1#256 → s.currentRootHash = 0#256 →
      ∃ s', VerifiesBlock strictEnv (fun _ _ _ => return false) 2#160 (namedBlock 1#256 []) s s' :=
    fun s hprover hroot => ⟨_, namedBlock_checks strictEnv (fun _ _ => rfl) _ 2#160 s 1#256 []
      hprover hroot⟩
  have hbounds := curveOrder_bounds
  refine ⟨⟨rollsUp_namedBlock [], counted_alone true, hchecks _ rfl rfl, ?_⟩,
    ⟨rollsUp_namedBlock [], counted_approvalWith false _ joiningSets_small rfl,
      hchecks _ rfl rfl, ?_⟩⟩
  · intro s' hcommits
    obtain ⟨-, -, signers, -, hsigned⟩ := (verifyBlock2_iff strictEnv _ _ _ _ _).mp hcommits
    have hrecovered := hsigned.recovered
    cases signers with
    | nil => cases hrecovered
    | cons signer rest =>
      obtain ⟨hfirst, -⟩ := List.cons.inj hrecovered
      obtain ⟨-, hlower, -⟩ := (recoversAlike_strictEnv.recover _ _ _ _ _).mp hfirst
      have hs : (convertSignature (approvalWith true).signature).s.toNat = curveOrder - 1 :=
        approvalWith_s true
      dsimp only at hlower
      rw [hs] at hlower
      omega
  · intro s' hcommits
    obtain ⟨-, -, signers, -, hsigned⟩ := (verifyBlock2_iff strictEnv _ _ _ _ _).mp hcommits
    have hrecovered := hsigned.recovered
    cases signers with
    | nil => cases hrecovered
    | cons signer rest =>
      obtain ⟨hfirst, -⟩ := List.cons.inj hrecovered
      obtain ⟨-, -, -, -, hnamed⟩ := (recoversAlike_strictEnv.recover _ _ _ _ _).mp hfirst
      have hmember : signer ∈ [5#160] := hsigned.validators signer List.mem_cons_self
      have hr : (convertSignature (approvalWith false).signature).r = 1#256 :=
        signatureBytes_r 1 _ 0 (by norm_num)
      change some (BitVec.setWidth 160 _) = some signer at hnamed
      rw [hr, List.mem_singleton.mp hmember] at hnamed
      exact absurd hnamed (by decide)

/-- An approval in the form of the chain is counted and accepted. -/
theorem approvals_agree_one :
    approvalDigest namingNode (endorsement namingNode emptyBlock.content) =
        some (sigMsg strictEnv (namedBlock 1#256 [])) ∧
      ∃ s', Commits (verifyBlock2 strictEnv (fun _ _ _ => return false) 2#160
        { namedBlock 1#256 [] with
          signatures := [approvalWith false].map fun approval =>
            convertSignature approval.signature })
        (initialState () 7#160 2#160 [1#160] 0#256) () s' := by
  have hbounds := curveOrder_bounds
  have hcanonical : Canonical (approvalWith false).signature := by
    constructor
    · change (signatureBytes 1 1 0).recoveryId < 2
      rw [signatureBytes_recoveryId]
      decide
    · rw [approvalWith_s]
      change 1 ≤ curveOrder / 2
      omega
  have hagree := approvals_agree_iff recoversAlike_strictEnv (fun _ _ _ => return false)
    (namedBlock 1#256 [])
  obtain ⟨hdigest, haccepted⟩ := hagree.1 emptyBlock.content (rollsUp_namedBlock [])
    (by norm_num [emptyBlock])
  obtain ⟨hseated, hiff⟩ := haccepted (fun _ => [1#160]) [approvalWith false]
    (counted_alone false) 2#160 _ _ (namedBlock_checks strictEnv (fun _ _ => rfl) _
      2#160 (initialState () 7#160 2#160 [1#160] 0#256) 1#256 [] rfl rfl)
  refine ⟨hdigest, _, (hiff.mpr ⟨?_, ?_, hseated rfl⟩).2⟩
  · intro approval happroval
    obtain rfl := List.mem_singleton.mp happroval
    exact hcanonical
  · change ([0#160, 1#160] : List Address).Pairwise (· < ·)
    simp

end OneValidator

end PayyRollup.ApprovalDigests
