import PayyRollup.RollupCalls

/-!
What the calls of the rollup contract can do. A request registers a verified mint or burn,
or substitutes a registered burn; a block verification spends and records a root. Every
later invariant is read off these descriptions. A relation that ignores the chain around
the contract and holds of every request holds of every router call, at every depth.
-/
namespace PayyRollup.RollupEffects

open ScalarField VerifierContracts Transactions RollupState RollupCalls

variable {τ : Type} (env : Externals τ)

/-- A generated verifier accepts field elements. -/
def Verified (plonkVerifier : List Fr → Bytes → Bool) (proof : Bytes)
    (instances : List Element) : Prop :=
  (∀ x ∈ instances, x.toNat < modulus) ∧
    plonkVerifier (instances.map Element.toBase) proof = true

/-- A registration and its writes. -/
inductive Registers (s : Rollup τ) : Rollup τ → Prop
  | mint (chain : τ) (proof : Bytes) (commitment value source : Element) :
      s.mints commitment = 0#256 →
      Verified env.mintPlonk proof [commitment, value, source] →
      Registers s { s with chain, mints := Function.update s.mints commitment value }
  | burn (toAddr : Address) (proof : Bytes) (nullifier value source sig : Element) :
      s.burnsKind nullifier = 0#256 → (s.burns nullifier).amount = 0#256 →
      Verified env.burnPlonk proof [addressWord toAddr, nullifier, value, source, sig] →
      Registers s { s with
        burnsKind := Function.update s.burnsKind nullifier 0#256
        burns := Function.update s.burns nullifier ⟨toAddr, value⟩ }
  | burnToAddress (toAddr : Element) (proof : Bytes) (nullifier value source sig : Element) :
      s.burnsKind nullifier = 0#256 → (s.burns nullifier).amount = 0#256 →
      Verified env.burnPlonkV2 proof [0#256, toAddr, nullifier, value, source, sig] →
      Registers s { s with
        burnsKind := Function.update s.burnsKind nullifier 0#256
        burns := Function.update s.burns nullifier ⟨bytes32ToAddress toAddr, value⟩ }
  | burnToRouter (msgHash : Element) (proof : Bytes) (nullifier value source sig : Element)
      (router : Address) (routerCalldata : Bytes) (returnAddress : Address) :
      s.burnsKind nullifier = 0#256 → (s.burns nullifier).amount = 0#256 →
      Verified env.burnPlonkV2 proof [1#256, msgHash, nullifier, value, source, sig] →
      Registers s { s with
        burnsKind := Function.update s.burnsKind nullifier 1#256
        burnsToRouter := Function.update s.burnsToRouter nullifier
          ⟨router, routerCalldata, value, returnAddress⟩ }

/-- A substitution: the burn is executed from a marked state and becomes one to the sender. -/
structure Substitutes (routerCall : Address → Bytes → Element → RollupM τ Bool)
    (sender : Address) (nullifier amount : Element) (s s' : Rollup τ) : Prop where
  fresh : s.substitutedBurns nullifier = false
  pending : s.rolledUpLeafs nullifier = false
  executed : ∃ chain t, Commits (executeBurn env routerCall nullifier amount)
      { s with
        chain
        substitutedBurns := Function.update s.substitutedBurns nullifier true } (true, true) t ∧
    s' = { t with
      burnsKind := Function.update t.burnsKind nullifier 0#256
      burns := Function.update t.burns nullifier ⟨sender, amount⟩ }

section Inversion

variable (s s' : Rollup τ)

@[simp] theorem commits_bubble {α : Type} (x : Except Bytes α) (a : α) :
    Commits (bubble x) s a s' ↔ x = .ok a ∧ s' = s := by
  unfold bubble
  rw [commits_view]
  cases x with
  | error data => simp [Except.mapError]
  | ok b => simp [Except.mapError]

theorem commits_tokenCall (tokenFn : τ → Except Bytes τ) (u : Unit) :
    Commits (tokenCall tokenFn) s u s' ↔
      ∃ chain, tokenFn s.chain = .ok chain ∧ s' = { s with chain } := by
  unfold tokenCall
  simp only [commits_bind, commits_get, commits_bubble, commits_set]
  constructor
  · rintro ⟨_, _, ⟨rfl, rfl⟩, chain, _, ⟨hcall, rfl⟩, rfl⟩
    exact ⟨chain, hcall, rfl⟩
  · rintro ⟨chain, hcall, rfl⟩
    exact ⟨s, s, ⟨rfl, rfl⟩, chain, s, ⟨hcall, rfl⟩, rfl⟩

theorem commits_setBurnsKind (nullifier kind : Element) (u : Unit) :
    Commits (setBurnsKind nullifier kind) s u s' ↔
      (s.burnsKind nullifier = 0#256 ∧ (s.burns nullifier).amount = 0#256) ∧
        s' = { s with burnsKind := Function.update s.burnsKind nullifier kind } := by
  unfold setBurnsKind
  simp only [commits_bind, commits_get, commits_require, commits_modify]
  constructor
  · rintro ⟨_, _, ⟨rfl, rfl⟩, _, _, ⟨hfree, rfl⟩, rfl⟩
    exact ⟨hfree, rfl⟩
  · rintro ⟨hfree, rfl⟩
    exact ⟨s, s, ⟨rfl, rfl⟩, (), s, ⟨hfree, rfl⟩, rfl⟩

theorem requireNotBlacklisted_state (account : Address) (u : Unit)
    (h : Commits (requireNotUSDCBlacklisted env account) s u s') : s' = s := by
  unfold requireNotUSDCBlacklisted at h
  simp only [commits_bind, commits_get, commits_require] at h
  obtain ⟨_, _, ⟨rfl, rfl⟩, -, rfl⟩ := h
  rfl

theorem verified_of_ok {plonkVerifier : List Fr → Bytes → Bool} {proof : Bytes}
    {instances : List Element} {u : Unit}
    (h : verifyInstances plonkVerifier proof instances = .ok u) :
    Verified plonkVerifier proof instances :=
  (verifyInstances_ok plonkVerifier proof instances u).mp h

theorem mint_registers (sender : Address) (proof : Bytes) (commitment value source : Element)
    (h : Commits (mint env sender proof commitment value source) s () s') :
    Registers env s s' := by
  unfold mint registerMint at h
  simp only [commits_bind, commits_get, commits_require, commits_view, commits_tokenCall,
    commits_modify] at h
  obtain ⟨_, _, ⟨rfl, rfl⟩, _, _, ⟨hfree, rfl⟩, _, _, ⟨hproof, rfl⟩, _, _, ⟨chain, -, rfl⟩,
    rfl⟩ := h
  exact Registers.mint chain proof commitment value source hfree (verified_of_ok hproof)

theorem mintWithAuthorization_registers (proof : Bytes) (commitment value source : Element)
    (payer : Address) (validAfter validBefore nonce v r sg v2 r2 s2 : Element)
    (h : Commits (mintWithAuthorization env proof commitment value source payer validAfter
      validBefore nonce v r sg v2 r2 s2) s () s') : Registers env s s' := by
  unfold mintWithAuthorization registerMint at h
  simp only [commits_bind, commits_get, commits_require, commits_view, commits_bubble,
    commits_tokenCall, commits_modify] at h
  obtain ⟨_, _, ⟨rfl, rfl⟩, _, _, ⟨hfree, rfl⟩, _, _, ⟨-, rfl⟩, _, _, ⟨-, rfl⟩, _, _,
    ⟨hproof, rfl⟩, _, _, ⟨chain, -, rfl⟩, rfl⟩ := h
  exact Registers.mint chain proof commitment value source hfree (verified_of_ok hproof)

theorem burn_registers (toAddr : Address) (proof : Bytes) (nullifier value source sig : Element)
    (h : Commits (burn env toAddr proof nullifier value source sig) s () s') :
    Registers env s s' := by
  unfold burn setBurn at h
  simp only [commits_bind, commits_view, commits_setBurnsKind, commits_modify] at h
  obtain ⟨_, t, hblack, _, _, ⟨hproof, rfl⟩, _, _, ⟨⟨hkind, hamount⟩, rfl⟩, rfl⟩ := h
  obtain rfl := requireNotBlacklisted_state env _ _ toAddr _ hblack
  exact Registers.burn toAddr proof nullifier value source sig hkind hamount
    (verified_of_ok hproof)

theorem burnToAddress_registers (kind toAddr : Element) (proof : Bytes)
    (nullifier value source sig : Element)
    (h : Commits (burnToAddress env kind toAddr proof nullifier value source sig) s () s') :
    Registers env s s' := by
  unfold burnToAddress setBurn at h
  simp only [commits_bind, commits_require, commits_view, commits_setBurnsKind,
    commits_modify] at h
  obtain ⟨_, _, ⟨rfl, rfl⟩, _, t, hblack, _, _, ⟨hproof, rfl⟩, _, _, ⟨⟨hkind, hamount⟩, rfl⟩,
    rfl⟩ := h
  obtain rfl := requireNotBlacklisted_state env _ _ (bytes32ToAddress toAddr) _ hblack
  exact Registers.burnToAddress toAddr proof nullifier value source sig hkind hamount
    (verified_of_ok hproof)

theorem burnToRouter_registers (kind msgHash : Element) (proof : Bytes)
    (nullifier value source sig : Element) (router : Address) (routerCalldata : Bytes)
    (returnAddress : Address)
    (h : Commits (burnToRouter env kind msgHash proof nullifier value source sig router
      routerCalldata returnAddress) s () s') : Registers env s s' := by
  unfold burnToRouter at h
  simp only [commits_bind, commits_get, commits_require, commits_view, commits_setBurnsKind,
    commits_modify] at h
  obtain ⟨_, _, ⟨rfl, rfl⟩, _, _, ⟨-, rfl⟩, _, _, ⟨rfl, rfl⟩, _, _, ⟨-, rfl⟩, _, t, hblack, _,
    _, ⟨-, rfl⟩, _, _, ⟨hproof, rfl⟩, _, _, ⟨⟨hkind, hamount⟩, rfl⟩, rfl⟩ := h
  obtain rfl := requireNotBlacklisted_state env _ _ returnAddress _ hblack
  exact Registers.burnToRouter msgHash proof nullifier value source sig router routerCalldata
    returnAddress hkind hamount (verified_of_ok hproof)

theorem substituteBurn_substitutes
    (routerCall : Address → Bytes → Element → RollupM τ Bool) (sender : Address)
    (nullifier amount : Element)
    (h : Commits (substituteBurn env routerCall sender nullifier amount) s () s') :
    Substitutes env routerCall sender nullifier amount s s' := by
  unfold substituteBurn at h
  simp only [commits_bind, commits_get, commits_require, commits_tokenCall,
    commits_modify] at h
  obtain ⟨_, _, ⟨rfl, rfl⟩, _, _, ⟨hfresh, rfl⟩, _, _, ⟨hpending, rfl⟩, _, _, ⟨chain, -, rfl⟩,
    _, _, rfl, ⟨found, success⟩, t, hexecuted, _, _, ⟨⟨hfound, hsuccess⟩, rfl⟩, rfl⟩ := h
  dsimp only at hfound hsuccess
  subst hfound hsuccess
  exact ⟨hfresh, hpending, chain, _, hexecuted, rfl⟩

/-- A request registers a mint or a burn, or substitutes a burn. -/
theorem request_cases (routerCall : Address → Bytes → Element → RollupM τ Bool)
    (sender : Address) (r : Request) (u : Unit)
    (h : Commits (request env routerCall sender r) s u s') :
    Registers env s s' ∨
      ∃ nullifier amount, Substitutes env routerCall sender nullifier amount s s' := by
  cases r with
  | mint proof commitment value source =>
    exact Or.inl (mint_registers env s s' sender proof commitment value source h)
  | mintWithAuthorization proof commitment value source payer validAfter validBefore nonce v r sg
      v2 r2 s2 =>
    exact Or.inl (mintWithAuthorization_registers env s s' proof commitment value source payer
      validAfter validBefore nonce v r sg v2 r2 s2 h)
  | burn toAddr proof nullifier value source sig =>
    exact Or.inl (burn_registers env s s' toAddr proof nullifier value source sig h)
  | burnToAddress kind toAddr proof nullifier value source sig =>
    exact Or.inl (burnToAddress_registers env s s' kind toAddr proof nullifier value source sig h)
  | burnToRouter kind msgHash proof nullifier value source sig router routerCalldata
      returnAddress =>
    exact Or.inl (burnToRouter_registers env s s' kind msgHash proof nullifier value source sig
      router routerCalldata returnAddress h)
  | substituteBurn nullifier amount =>
    exact Or.inr ⟨nullifier, amount,
      substituteBurn_substitutes env s s' routerCall sender nullifier amount h⟩

/-- A burn that was found and succeeded was registered with the value. -/
theorem executeBurn_amount (routerCall : Address → Bytes → Element → RollupM τ Bool)
    (mb value : Element)
    (h : Commits (executeBurn env routerCall mb value) s (true, true) s') :
    (s.burnsKind mb = 0#256 ∧ (s.burns mb).amount ≠ 0#256 ∧ (s.burns mb).amount = value) ∨
      (s.burnsKind mb = 1#256 ∧ (s.burnsToRouter mb).amount = value) := by
  unfold executeBurn at h
  simp only [commits_bind, commits_get] at h
  obtain ⟨_, _, ⟨rfl, rfl⟩, h⟩ := h
  rw [commits_ite] at h
  rcases h with ⟨hkind, h⟩ | ⟨hkind, h⟩
  · rw [commits_ite] at h
    rcases h with ⟨-, h⟩ | ⟨hamount, h⟩
    · simp at h
    · refine Or.inl ⟨hkind, hamount, ?_⟩
      unfold executeBurnToAddress at h
      simp only [commits_bind, commits_get, commits_ite] at h
      obtain ⟨success, t, ⟨_, _, ⟨rfl, rfl⟩, hburn⟩, hresult⟩ := h
      rcases hburn with ⟨hzero, -⟩ | ⟨-, hburn⟩
      · exact absurd hzero hamount
      · obtain ⟨_, _, hrequire, -⟩ := hburn
        exact ((commits_require _ _ _ _ _).mp hrequire).1
  · rw [commits_ite] at h
    rcases h with ⟨hkind, h⟩ | ⟨-, h⟩
    · refine Or.inr ⟨hkind, ?_⟩
      unfold executeBurnToRouter at h
      simp only [commits_bind, commits_get, commits_require] at h
      obtain ⟨_, _, ⟨_, _, ⟨rfl, rfl⟩, _, _, ⟨hamount, -⟩, -⟩, -⟩ := h
      exact hamount
    · simp at h

theorem verifySignatures_state (sigMsg : Element) (validatorSet : ValidatorSet)
    (previous : Address) (signatures : List Signature) (u : Unit)
    (h : Commits (verifySignatures env sigMsg validatorSet previous signatures) s u s') :
    s' = s := by
  induction signatures generalizing previous s with
  | nil => exact ((commits_pure s s' () u).mp h).2.symm
  | cons signature rest ih =>
    simp only [verifySignatures, commits_bind, commits_bubble, commits_require] at h
    obtain ⟨signer, _, ⟨-, rfl⟩, _, _, ⟨-, rfl⟩, _, _, ⟨-, rfl⟩, hrest⟩ := h
    exact ih _ _ hrest

end Inversion

/-- A block verification: what it checks and what it writes. -/
structure VerifiesBlock (routerCall : Address → Bytes → Element → RollupM τ Bool)
    (sender : Address) (args : BlockArgs) (s s' : Rollup τ) : Prop where
  prover : s.provers sender = 1#256
  old_root : args.oldRoot = s.currentRootHash
  verified : Verified env.aggregatePlonk args.aggrProof (AggregateVerifierV1.instances
    args.aggrInstances args.oldRoot args.newRoot args.utxoHashes)
  executed : ∃ t, Commits ([0, 3, 6, 9, 12, 15].forM fun i =>
      verifyTxn env routerCall (args.utxoHash (i + 1)) (args.utxoHash (i + 2)))
      (s.updateValidatorSetIndex args.height) () t ∧
    t.containsRootHashes ([0, 3, 6, 9, 12, 15].map args.utxoHash) = true ∧
    s' = { t.addRootHash args.newRoot with
      blockHash := proposalHash env args
      blockHeight := args.height }

theorem verifyBlock2_verifies (routerCall : Address → Bytes → Element → RollupM τ Bool)
    (sender : Address) (args : BlockArgs) (s s' : Rollup τ)
    (h : Commits (verifyBlock2 env routerCall sender args) s () s') :
    VerifiesBlock env routerCall sender args s s' := by
  unfold verifyBlock2 onlyProver at h
  simp only [commits_bind, commits_get, commits_require, commits_modify, commits_view, and_assoc,
    exists_and_left, exists_eq_left, exists_const] at h
  obtain ⟨hprover, hroot, _, t, hexecuted, hcontains, -, -, -, _, t', hsignatures, _, hverify,
    hs'⟩ := h
  obtain rfl := verifySignatures_state env _ _ _ _ _ _ _ hsignatures
  exact ⟨hprover, hroot, verified_of_ok hverify, _, hexecuted, hcontains, hs'⟩

section Calls

variable (routerCall : Address → Bytes → Element → RollupM τ Bool)

/-- What a call of an account does: a request, a verified block, a root, a new set of
validators, or a change of the settings and of the chain. -/
inductive Calls (sender : Address) (s : Rollup τ) : Call τ → Rollup τ → Prop
  | request (r : Request) (s' : Rollup τ) :
      Commits (request env routerCall sender r) s () s' → Calls sender s (.request r) s'
  | verifyBlock2 (args : BlockArgs) (s' : Rollup τ) :
      Commits (verifyBlock2 env routerCall sender args) s () s' →
      Calls sender s (.verifyBlock2 args) s'
  | setRoot (newRoot : Element) : Calls sender s (.setRoot newRoot) (s.addRootHash newRoot)
  | setValidators (validFrom : Element) (validators : List Address) :
      (∀ last ∈ s.validatorSets.getLast?, last.validFrom < validFrom) → validators.Nodup →
      Calls sender s (.setValidators validFrom validators)
        { s with validatorSets := s.validatorSets ++ [ValidatorSet.mk validators validFrom] }
  | settings (c : Call τ) (chain : τ) (owner : Address) (provers : Address → Element)
      (routerWhitelist : Address → Bool) (gasPerRouterCall : Element) :
      Calls sender s c { s with chain, owner, provers, routerWhitelist, gasPerRouterCall }

theorem call_cases (sender : Address) (c : Call τ) (s s' : Rollup τ) (u : Unit)
    (h : Commits (call env routerCall sender c) s u s') : Calls env routerCall sender s c s' := by
  cases c with
  | request r => exact Calls.request r s' h
  | verifyBlock2 args => exact Calls.verifyBlock2 args s' h
  | setRoot newRoot =>
    simp only [call, onlyOwner, commits_bind, commits_get, commits_require, commits_modify,
      and_assoc, exists_and_left, exists_eq_left, exists_const] at h
    obtain ⟨-, rfl⟩ := h
    exact Calls.setRoot newRoot
  | setValidators validFrom validators =>
    simp only [call, setValidators, onlyOwner, commits_bind, commits_get, commits_require,
      commits_set, and_assoc, exists_and_left, exists_eq_left, exists_const] at h
    obtain ⟨-, hlast, hdistinct, rfl⟩ := h
    refine Calls.setValidators validFrom validators ?_ hdistinct
    intro last hmem
    rw [Option.mem_def.mp hmem] at hlast
    exact of_decide_eq_true hlast
  | addProver prover =>
    simp only [call, onlyOwner, commits_bind, commits_get, commits_require, commits_modify,
      and_assoc, exists_and_left, exists_eq_left, exists_const] at h
    obtain ⟨-, rfl⟩ := h
    exact Calls.settings _ s.chain s.owner _ s.routerWhitelist s.gasPerRouterCall
  | addRouter router =>
    simp only [call, onlyOwner, commits_bind, commits_get, commits_require, commits_set,
      and_assoc, exists_and_left, exists_eq_left, exists_const] at h
    obtain ⟨-, -, rfl⟩ := h
    exact Calls.settings _ s.chain s.owner s.provers _ s.gasPerRouterCall
  | removeRouter router =>
    simp only [call, onlyOwner, commits_bind, commits_get, commits_require, commits_modify,
      and_assoc, exists_and_left, exists_eq_left, exists_const] at h
    obtain ⟨-, rfl⟩ := h
    exact Calls.settings _ s.chain s.owner s.provers _ s.gasPerRouterCall
  | setGasPerRouterCall gas =>
    simp only [call, onlyOwner, commits_bind, commits_get, commits_require, commits_modify,
      and_assoc, exists_and_left, exists_eq_left, exists_const] at h
    obtain ⟨-, rfl⟩ := h
    exact Calls.settings _ s.chain s.owner s.provers s.routerWhitelist gas
  | transferOwnership newOwner =>
    simp only [call, onlyOwner, commits_bind, commits_get, commits_require, commits_modify,
      and_assoc, exists_and_left, exists_eq_left, exists_const] at h
    obtain ⟨-, -, rfl⟩ := h
    exact Calls.settings _ s.chain newOwner s.provers s.routerWhitelist s.gasPerRouterCall
  | renounceOwnership =>
    simp only [call, onlyOwner, commits_bind, commits_get, commits_require, commits_modify,
      and_assoc, exists_and_left, exists_eq_left, exists_const] at h
    obtain ⟨-, rfl⟩ := h
    exact Calls.settings _ s.chain _ s.provers s.routerWhitelist s.gasPerRouterCall
  | world effect =>
    obtain rfl := (commits_modify s s' _ u).mp h
    exact Calls.settings _ _ s.owner s.provers s.routerWhitelist s.gasPerRouterCall

theorem step_of_commits (routers : Routers τ) (depth : ℕ) (sender : Address) (c : Call τ)
    (s s' : Rollup τ) (u : Unit)
    (h : Commits (call env (routerCallAt env routers depth) sender c) s u s') :
    step env routers depth s (sender, c) = s' := by
  unfold step
  rw [h]

/-- What every committed call keeps holds in every state of a run. -/
theorem runCalls_keeps (routers : Routers τ) (depth : ℕ) (P : Rollup τ → Prop)
    (hcall : ∀ sender c s s', P s →
      Calls env (routerCallAt env routers depth) sender s c s' → P s')
    (txs : List (Address × Call τ)) (s : Rollup τ) (hs : P s) :
    P (runCalls env routers depth s txs) := by
  induction txs generalizing s with
  | nil => exact hs
  | cons tx rest ih =>
    refine ih _ ?_
    unfold step
    cases hresult : call env (routerCallAt env routers depth) tx.1 tx.2 s with
    | error reason => exact hs
    | ok result => exact hcall tx.1 tx.2 s _ hs (call_cases env _ _ _ _ _ () hresult)

end Calls

section Rules

variable {env}

/-- A relation that ignores the chain around the contract and holds of every request whose
router calls respect it. -/
structure Admissible (env : Externals τ) (R : Rollup τ → Rollup τ → Prop) : Prop where
  chain : ∀ s chain, R s { s with chain }
  registers : ∀ s s', Registers env s s' → R s s'
  substitutes : ∀ routerCall : Address → Bytes → Element → RollupM τ Bool,
    (∀ router routerCalldata gas, Respects R (routerCall router routerCalldata gas)) →
    ∀ sender nullifier amount s s',
      Substitutes env routerCall sender nullifier amount s s' → R s s'

variable {R : Rollup τ → Rollup τ → Prop} [IsPreorder (Rollup τ) R]
  (routerCall : Address → Bytes → Element → RollupM τ Bool)

omit [IsPreorder (Rollup τ) R] in
theorem respects_tokenCall (hchain : ∀ s chain, R s { s with chain })
    (tokenFn : τ → Except Bytes τ) : Respects R (tokenCall tokenFn) := by
  refine ⟨fun s u s' h => ?_⟩
  obtain ⟨chain, -, rfl⟩ := (commits_tokenCall s s' tokenFn u).mp h
  exact hchain s chain

theorem respects_executeBurnToAddress (hchain : ∀ s chain, R s { s with chain })
    (nullifier value : Element) : Respects R (executeBurnToAddress env nullifier value) := by
  refine ⟨fun s success s' h => ?_⟩
  unfold executeBurnToAddress at h
  simp only [commits_bind, commits_get, commits_ite, commits_require, commits_pure] at h
  obtain ⟨_, _, ⟨rfl, rfl⟩, h⟩ := h
  rcases h with ⟨-, -, rfl⟩ | ⟨-, _, t, ⟨-, rfl⟩, h⟩
  · exact refl_of R _
  · cases htransfer : env.transfer t.chain (t.burns nullifier).toAddr value with
    | ok chain =>
      simp only [htransfer, commits_bind, commits_set, commits_pure] at h
      obtain ⟨_, _, rfl, -, rfl⟩ := h
      exact hchain t chain
    | error reason =>
      simp only [htransfer, commits_pure] at h
      obtain ⟨-, rfl⟩ := h
      exact refl_of R _

theorem respects_executeBurnToRouter (hchain : ∀ s chain, R s { s with chain })
    (hrouter : ∀ router routerCalldata gas, Respects R (routerCall router routerCalldata gas))
    (nullifier value : Element) :
    Respects R (executeBurnToRouter env routerCall nullifier value) := by
  have hwhitelisted : ∀ router routerCalldata gas,
      Respects R (routerCallIfWhitelisted routerCall router routerCalldata gas) := by
    intro router routerCalldata gas
    unfold routerCallIfWhitelisted
    apply respects_bind _ _ respects_get
    intro s
    exact respects_ite _ _ _ (hrouter router routerCalldata gas) (respects_pure false)
  unfold executeBurnToRouter
  apply respects_bind _ _ respects_get
  intro s
  apply respects_bind _ _ (respects_require _ _)
  intro _
  apply respects_bind _ _ (respects_tokenCall hchain _)
  intro _
  apply respects_bind _ _ (hwhitelisted _ _ _)
  intro success
  apply respects_bind _ _ (respects_tokenCall hchain _)
  intro _
  apply respects_ite _ _ _ (respects_pure true)
  apply respects_bind _ _ respects_get
  intro s'
  apply respects_ite _ _ _ (respects_pure false)
  apply respects_bind _ _ (respects_tokenCall hchain _)
  intro _
  exact respects_pure true

theorem respects_executeBurn (hchain : ∀ s chain, R s { s with chain })
    (hrouter : ∀ router routerCalldata gas, Respects R (routerCall router routerCalldata gas))
    (mb value : Element) : Respects R (executeBurn env routerCall mb value) := by
  unfold executeBurn
  apply respects_bind _ _ respects_get
  intro s
  apply respects_ite
  · apply respects_ite _ _ _ (respects_pure _)
    apply respects_bind _ _ (respects_executeBurnToAddress hchain mb value)
    intro success
    exact respects_pure _
  · apply respects_ite _ _ _ _ (respects_pure _)
    apply respects_bind _ _ (respects_executeBurnToRouter routerCall hchain hrouter mb value)
    intro success
    exact respects_pure _

theorem respects_verifyTxn (hchain : ∀ s chain, R s { s with chain })
    (hrolled : ∀ (s : Rollup τ) mb,
      R s { s with rolledUpLeafs := Function.update s.rolledUpLeafs mb true })
    (hrouter : ∀ router routerCalldata gas, Respects R (routerCall router routerCalldata gas))
    (mb value : Element) : Respects R (verifyTxn env routerCall mb value) := by
  unfold verifyTxn
  apply respects_ite _ _ _ (respects_pure _)
  apply respects_bind _ _ (respects_modify _ fun s => hrolled s mb)
  intro _
  apply respects_bind _ _ respects_get
  intro s
  apply respects_ite _ _ _ (respects_require _ _)
  apply respects_bind _ _ (respects_executeBurn routerCall hchain hrouter mb value)
  intro result
  exact respects_require _ _

omit [IsPreorder (Rollup τ) R] in
theorem Admissible.request (hR : Admissible env R)
    (hrouter : ∀ router routerCalldata gas, Respects R (routerCall router routerCalldata gas))
    (sender : Address) (r : Request) : Respects R (request env routerCall sender r) := by
  refine ⟨fun s u s' h => ?_⟩
  rcases request_cases env s s' routerCall sender r u h with hregisters | ⟨n, amount, hsub⟩
  · exact hR.registers s s' hregisters
  · exact hR.substitutes routerCall hrouter sender n amount s s' hsub

theorem Admissible.script (hR : Admissible env R)
    (hrouter : ∀ router routerCalldata gas, Respects R (routerCall router routerCalldata gas))
    (script : RouterScript τ) (s : Rollup τ) :
    R s (script.run (RollupCalls.request env routerCall) s).2 := by
  induction script generalizing s with
  | stop success => exact refl_of R s
  | world effect next ih => exact trans_of R (hR.chain s (effect s.chain)) (ih _)
  | call sender r next ih =>
    rw [RouterScript.run]
    cases hsend : RollupCalls.request env routerCall sender r s with
    | error reason => exact ih s s
    | ok result =>
      obtain ⟨u, t⟩ := result
      exact trans_of R ((hR.request routerCall hrouter sender r).relates s u t hsend) (ih t t)

/-- Router calls at every depth respect an admissible relation. -/
theorem Admissible.routerCallAt (hR : Admissible env R) (routers : Routers τ) (depth : ℕ)
    (router : Address) (routerCalldata : Bytes) (gas : Element) :
    Respects R (routerCallAt env routers depth router routerCalldata gas) := by
  induction depth generalizing router routerCalldata gas with
  | zero => exact respects_pure false
  | succ depth ih =>
    refine ⟨fun s success s' h => ?_⟩
    have hscript := hR.script (RollupCalls.routerCallAt env routers depth) ih
      (routers router routerCalldata gas s) s
    unfold Commits RollupCalls.routerCallAt at h
    simp only [Except.ok.injEq, Prod.mk.injEq] at h
    obtain ⟨-, rfl⟩ := h
    split
    · exact hscript
    · exact refl_of R s

end Rules
end PayyRollup.RollupEffects
