import PayyRollup.PaymentLog

/-!
What the logged contract does. Executing a burn pays an address, is refused by the token,
pays a router its allowance, or returns the funds of a failed router call; roll-ups and
substitutions execute burns between two notes. A preorder on logged states that respects
these steps, and every payment whose router respects it, relates the ends of every run.
-/
namespace PayyRollup.PaymentEffects

open ScalarField VerifierContracts Transactions RollupState RollupCalls RollupEffects
  CallBacks PaymentLog

variable {τ α : Type} (env : Externals τ)

section Inversion

theorem commits_silently {ω : Type} (p p' : Rollup τ × ω) (x : RollupM τ α) (a : α) :
    Commits (silently x) p a p' ↔ Commits x p.1 a p'.1 ∧ p'.2 = p.2 := by
  unfold Commits silently
  obtain ⟨s', log'⟩ := p'
  cases x p.1 with
  | error reason => simp [Except.map]
  | ok r =>
    obtain ⟨b, t⟩ := r
    simp only [Except.map, Except.ok.injEq, Prod.mk.injEq]
    rw [and_assoc, eq_comm (a := p.2)]

theorem commits_note (p p' : Logged τ) (e : Entry) (u : Unit) :
    Commits (note e) p u p' ↔ p' = (p.1, p.2 ++ [e]) := by
  unfold note
  exact commits_modify p p' _ u

end Inversion

variable (router : Address × Bytes × Element → LoggedM τ Bool)

/-- How a burn is executed with a value: whether it is found and succeeds. -/
inductive Pays (n v : Element) (p : Logged τ) : Bool × Bool → Logged τ → Prop
  | missing : p.1.burnsKind n = 0#256 → (p.1.burns n).amount = 0#256 →
      Pays n v p (false, false) p
  | transferred (chain : τ) : p.1.burnsKind n = 0#256 → (p.1.burns n).amount ≠ 0#256 →
      (p.1.burns n).amount = v → env.transfer p.1.chain (p.1.burns n).toAddr v = .ok chain →
      Pays n v p (true, true) ({ p.1 with chain }, p.2 ++ [.paid n (p.1.burns n).toAddr v])
  | refused : p.1.burnsKind n = 0#256 → (p.1.burns n).amount ≠ 0#256 →
      (p.1.burns n).amount = v →
      Pays n v p (true, false) (p.1, p.2 ++ [.refused n (p.1.burns n).toAddr v])
  | routed (chain chain' : τ) (p' : Logged τ) : p.1.burnsKind n = 1#256 →
      (p.1.burnsToRouter n).amount = v →
      env.approve p.1.chain (p.1.burnsToRouter n).router v = .ok chain →
      Commits (router ((p.1.burnsToRouter n).router, (p.1.burnsToRouter n).routerCalldata,
        p.1.gasPerRouterCall)) ({ p.1 with chain }, p.2) true p' →
      env.approve p'.1.chain (p.1.burnsToRouter n).router 0#256 = .ok chain' →
      Pays n v p (true, true) ({ p'.1 with chain := chain' },
        p'.2 ++ [.paid n (p.1.burnsToRouter n).router v])
  | returned (chain₁ chain₂ chain₃ : τ) : p.1.burnsKind n = 1#256 →
      (p.1.burnsToRouter n).amount = v →
      env.approve p.1.chain (p.1.burnsToRouter n).router v = .ok chain₁ →
      env.approve chain₁ (p.1.burnsToRouter n).router 0#256 = .ok chain₂ →
      env.transfer chain₂ (p.1.burnsToRouter n).returnAddress v = .ok chain₃ →
      Pays n v p (true, true) ({ p.1 with chain := chain₃ },
        p.2 ++ [.paid n (p.1.burnsToRouter n).returnAddress v])
  | withheld (chain₁ chain₂ : τ) : p.1.burnsKind n = 1#256 →
      (p.1.burnsToRouter n).amount = v →
      env.approve p.1.chain (p.1.burnsToRouter n).router v = .ok chain₁ →
      env.approve chain₁ (p.1.burnsToRouter n).router 0#256 = .ok chain₂ →
      Pays n v p (true, false) ({ p.1 with chain := chain₂ }, p.2)
  | unknown : p.1.burnsKind n ≠ 0#256 → p.1.burnsKind n ≠ 1#256 → Pays n v p (true, false) p

section Payments

variable (p p' : Logged τ) (n v : Element)

theorem commits_silent_tokenCall (tokenFn : τ → Except Bytes τ) (u : Unit) :
    Commits (silently (tokenCall tokenFn)) p u p' ↔
      ∃ chain, tokenFn p.1.chain = .ok chain ∧ p' = ({ p.1 with chain }, p.2) := by
  rw [commits_silently, commits_tokenCall]
  obtain ⟨s', log'⟩ := p'
  simp only [Prod.mk.injEq]
  constructor
  · rintro ⟨⟨chain, hcall, hs'⟩, hlog⟩
    exact ⟨chain, hcall, hs', hlog⟩
  · rintro ⟨chain, hcall, hs', hlog⟩
    exact ⟨⟨chain, hcall, hs'⟩, hlog⟩

theorem commits_silent_get (s : Rollup τ) :
    Commits (silently get) p s p' ↔ s = p.1 ∧ p' = p := by
  rw [commits_silently, commits_get, and_assoc]
  exact and_congr_right' Prod.ext_iff.symm

theorem commits_silent_require (condition : Prop) [Decidable condition] (reason : Revert)
    (u : Unit) : Commits (silently (require condition reason : RollupM τ Unit)) p u p' ↔
      condition ∧ p' = p := by
  rw [commits_silently, commits_require, and_assoc]
  exact and_congr_right' Prod.ext_iff.symm

theorem commits_silent_modify (f : Rollup τ → Rollup τ) (u : PUnit) :
    Commits (silently (modify f : RollupM τ PUnit)) p u p' ↔ p' = (f p.1, p.2) := by
  rw [commits_silently, commits_modify]
  exact (Prod.ext_iff (x := p') (y := (f p.1, p.2))).symm

theorem executeBurnToAddress_result (s s' : Rollup τ) (success : Bool)
    (hamount : (s.burns n).amount ≠ 0#256)
    (h : Commits (executeBurnToAddress env n v) s success s') :
    (s.burns n).amount = v ∧
      ((∃ chain, env.transfer s.chain (s.burns n).toAddr v = .ok chain ∧ success = true ∧
        s' = { s with chain }) ∨ (success = false ∧ s' = s)) := by
  unfold executeBurnToAddress at h
  simp only [commits_bind, commits_get, commits_ite, commits_require, commits_pure, and_assoc,
    exists_and_left, exists_eq_left, exists_const] at h
  rcases h with ⟨hzero, -⟩ | ⟨-, hvalue, h⟩
  · exact absurd hzero hamount
  refine ⟨hvalue, ?_⟩
  cases htransfer : env.transfer s.chain (s.burns n).toAddr v with
  | ok chain =>
    simp only [htransfer, commits_bind, commits_set, commits_pure] at h
    obtain ⟨_, t, rfl, hsuccess, hs'⟩ := h
    exact Or.inl ⟨chain, rfl, hsuccess.symm, hs'.symm⟩
  | error reason =>
    simp only [htransfer, commits_pure] at h
    exact Or.inr ⟨h.1.symm, h.2.symm⟩

theorem executeBurnToAddress_pays (success : Bool) (hkind : p.1.burnsKind n = 0#256)
    (hamount : (p.1.burns n).amount ≠ 0#256)
    (h : Commits (loggedExecuteBurnToAddress env n v) p success p') :
    Pays env router n v p (true, success) p' := by
  unfold loggedExecuteBurnToAddress at h
  simp only [commits_bind, commits_silent_get, commits_note, commits_pure, and_assoc,
    exists_and_left, exists_eq_left, exists_const] at h
  obtain ⟨ok, t, hburn, rfl, rfl⟩ := h
  rw [commits_silently] at hburn
  obtain ⟨hburn, hlog⟩ := hburn
  obtain ⟨hvalue, hresult⟩ := executeBurnToAddress_result env n v p.1 t.1 ok hamount hburn
  rw [hlog]
  rcases hresult with ⟨chain, htransfer, rfl, hstate⟩ | ⟨rfl, hstate⟩
  · rw [hstate]
    exact Pays.transferred chain hkind hamount hvalue htransfer
  · rw [hstate]
    exact Pays.refused hkind hamount hvalue

variable (hquiet : ∀ args, FailsQuietly (router args))

include hquiet

theorem executeBurnToRouter_pays (success : Bool) (hkind : p.1.burnsKind n = 1#256)
    (h : Commits (loggedExecuteBurnToRouter env router n v) p success p') :
    Pays env router n v p (true, success) p' := by
  unfold loggedExecuteBurnToRouter loggedRouterCallIfWhitelisted at h
  simp only [commits_bind, commits_silent_get, commits_silent_require, commits_silent_tokenCall,
    commits_note, commits_pure, commits_ite, and_assoc, exists_and_left, exists_eq_left,
    exists_const] at h
  obtain ⟨hvalue, _, ⟨chain, happrove, rfl⟩, called, t, hcalled, _, ⟨chain', hreset, rfl⟩, h⟩ := h
  have hfailed : called = false → t = ({ p.1 with chain }, p.2) := by
    rintro rfl
    rcases hcalled with ⟨-, hcalled⟩ | ⟨-, -, hcalled⟩
    · exact (hquiet _).unchanged _ _ hcalled
    · exact hcalled.symm
  cases called with
  | true =>
    rcases h with ⟨-, rfl, rfl⟩ | ⟨hcontra, -⟩
    · rcases hcalled with ⟨-, hcalled⟩ | ⟨-, hcontra, -⟩
      · exact Pays.routed chain chain' t hkind hvalue happrove hcalled hreset
      · cases hcontra
    · exact absurd rfl hcontra
  | false =>
    obtain rfl := hfailed rfl
    rcases h with ⟨hcontra, -⟩ | ⟨-, ⟨-, rfl, rfl⟩ | ⟨-, _, ⟨chain'', htransfer, rfl⟩, rfl, rfl⟩⟩
    · cases hcontra
    · exact Pays.withheld chain chain' hkind hvalue happrove hreset
    · rw [hvalue] at htransfer ⊢
      exact Pays.returned chain chain' chain'' hkind hvalue happrove hreset htransfer

theorem executeBurn_pays (result : Bool × Bool)
    (h : Commits (loggedExecuteBurn env router n v) p result p') :
    Pays env router n v p result p' := by
  unfold loggedExecuteBurn at h
  simp only [commits_bind, commits_silent_get, commits_ite, commits_pure, and_assoc,
    exists_and_left, exists_eq_left] at h
  rcases h with ⟨hkind, ⟨hamount, rfl, rfl⟩ | ⟨hamount, success, t, hburn, rfl, rfl⟩⟩ |
    ⟨hkind, ⟨hkind', success, t, hburn, rfl, rfl⟩ | ⟨hkind', rfl, rfl⟩⟩
  · exact Pays.missing hkind hamount
  · exact executeBurnToAddress_pays env router p t n v success hkind hamount hburn
  · exact executeBurnToRouter_pays env router p t n v hquiet success hkind' hburn
  · exact Pays.unknown hkind hkind'

end Payments

/-- What the roll-up of a hash with a value does. -/
inductive RollsUp (n v : Element) (p : Logged τ) : Logged τ → Prop
  | nothing : v = 0#256 → RollsUp n v p p
  | mint : p.1.mints n ≠ 0#256 →
      RollsUp n v p ({ p.1 with rolledUpLeafs := Function.update p.1.rolledUpLeafs n true }, p.2)
  | burn (success : Bool) (p' : Logged τ) : v ≠ 0#256 →
      Pays env router n v
        ({ p.1 with rolledUpLeafs := Function.update p.1.rolledUpLeafs n true },
          p.2 ++ [.rolledUp n v]) (true, success) p' → RollsUp n v p p'

/-- A substitution that succeeds. -/
structure Substitution (sender : Address) (n v : Element) (p p' : Logged τ) : Prop where
  fresh : p.1.substitutedBurns n = false
  pending : p.1.rolledUpLeafs n = false
  executed : ∃ chain t, env.transferFrom p.1.chain sender env.address v = .ok chain ∧
    Pays env router n v
      ({ p.1 with
          chain
          substitutedBurns := Function.update p.1.substitutedBurns n true },
        p.2 ++ [.advanced n sender v]) (true, true) t ∧
    p' = ({ t.1 with
          burnsKind := Function.update t.1.burnsKind n 0#256
          burns := Function.update t.1.burns n ⟨sender, v⟩ },
        t.2 ++ [.substituted n sender v])

/-- The contract received a deposit. -/
def Deposits (chain : τ) (v : Element) (chain' : τ) : Prop :=
  (∃ sender, env.transferFrom chain sender env.address v = .ok chain') ∨
    ∃ payer validAfter validBefore nonce sv r s, env.receiveWithAuthorization chain payer
      env.address v validAfter validBefore nonce sv r s = .ok chain'

/-- A burn circuit accepted the hash with the amount. -/
def BurnVerified (n v : Element) : Prop :=
  (∃ proof toAddr source sig, Verified env.burnPlonk proof [toAddr, n, v, source, sig]) ∨
    ∃ proof kind toAddr source sig,
      Verified env.burnPlonkV2 proof [kind, toAddr, n, v, source, sig]

inductive Registration (p : Logged τ) : Logged τ → Prop
  | mint (chain : τ) (commitment v : Element) : p.1.mints commitment = 0#256 →
      Deposits env p.1.chain v chain →
      Registration p
        ({ p.1 with chain, mints := Function.update p.1.mints commitment v },
          p.2 ++ [.minted commitment v])
  | toAddress (n v : Element) (toAddr : Address) : p.1.burnsKind n = 0#256 →
      (p.1.burns n).amount = 0#256 → BurnVerified env n v →
      Registration p
        ({ p.1 with
            burnsKind := Function.update p.1.burnsKind n 0#256
            burns := Function.update p.1.burns n ⟨toAddr, v⟩ },
          p.2 ++ [.registered n v])
  | toRouter (n v : Element) (address : Address) (routerCalldata : Bytes)
      (returnAddress : Address) : p.1.burnsKind n = 0#256 → (p.1.burns n).amount = 0#256 →
      BurnVerified env n v →
      Registration p
        ({ p.1 with
            burnsKind := Function.update p.1.burnsKind n 1#256
            burnsToRouter := Function.update p.1.burnsToRouter n
              ⟨address, routerCalldata, v, returnAddress⟩ },
          p.2 ++ [.registered n v])

/-- The two states agree on mints, burns and the token. -/
structure SameBurns (s s' : Rollup τ) : Prop where
  chain : s'.chain = s.chain
  mints : s'.mints = s.mints
  burns : s'.burns = s.burns
  burnsKind : s'.burnsKind = s.burnsKind
  burnsToRouter : s'.burnsToRouter = s.burnsToRouter
  substitutedBurns : s'.substitutedBurns = s.substitutedBurns
  rolledUpLeafs : s'.rolledUpLeafs = s.rolledUpLeafs

instance : IsPreorder (Rollup τ) SameBurns where
  refl _ := ⟨rfl, rfl, rfl, rfl, rfl, rfl, rfl⟩
  trans _ _ _ h h' :=
    ⟨h'.chain.trans h.chain, h'.mints.trans h.mints, h'.burns.trans h.burns,
      h'.burnsKind.trans h.burnsKind, h'.burnsToRouter.trans h.burnsToRouter,
      h'.substitutedBurns.trans h.substitutedBurns, h'.rolledUpLeafs.trans h.rolledUpLeafs⟩

section Calls

variable (p p' : Logged τ)

theorem verifyTxn_rollsUp (hquiet : ∀ args, FailsQuietly (router args)) (n v : Element)
    (u : Unit) (h : Commits (loggedVerifyTxn env router n v) p u p') :
    RollsUp env router n v p p' := by
  unfold loggedVerifyTxn setRolledUp at h
  simp only [commits_bind, commits_silent_get, commits_silent_modify, commits_silent_require,
    commits_note, commits_ite, commits_pure, and_assoc, exists_and_left, exists_eq_left,
    exists_const] at h
  rcases h with ⟨hzero, -, rfl⟩ | ⟨hvalue, ⟨hmint, -, rfl⟩ | ⟨hmint, result, t, hburn, hfound, rfl⟩⟩
  · exact RollsUp.nothing hzero
  · exact RollsUp.mint hmint
  · have hpays := executeBurn_pays env router _ _ n v hquiet result hburn
    obtain ⟨found, success⟩ := result
    obtain rfl : found = true := hfound
    exact RollsUp.burn success _ hvalue hpays

theorem substituteBurn_substitution (hquiet : ∀ args, FailsQuietly (router args))
    (sender : Address) (n v : Element) (u : Unit)
    (h : Commits (loggedSubstituteBurn env router sender n v) p u p') :
    Substitution env router sender n v p p' := by
  unfold loggedSubstituteBurn at h
  simp only [commits_bind, commits_silent_get, commits_silent_modify, commits_silent_require,
    commits_silent_tokenCall, commits_note, and_assoc, exists_and_left, exists_eq_left,
    exists_const] at h
  obtain ⟨hfresh, hpending, _, ⟨chain, hadvance, rfl⟩, result, t, hburn, hfound, hsuccess,
    rfl⟩ := h
  have hpays := executeBurn_pays env router _ _ n v hquiet result hburn
  obtain ⟨found, success⟩ := result
  obtain rfl : found = true := hfound
  obtain rfl : success = true := hsuccess
  exact ⟨hfresh, hpending, chain, t, hadvance, hpays, rfl⟩

theorem commits_noteAll (entries : List Entry) (u : Unit) :
    Commits (entries.forM (note : Entry → LoggedM τ Unit)) p u p' ↔
      p' = (p.1, p.2 ++ entries) := by
  induction entries generalizing p with
  | nil =>
    rw [List.append_nil]
    exact (commits_pure p p' () u).trans ((and_iff_right rfl).trans eq_comm)
  | cons e rest ih =>
    have hcons : (e :: rest).forM (note : Entry → LoggedM τ Unit) =
        (note e >>= fun _ => rest.forM note) := rfl
    rw [hcons]
    simp only [commits_bind, commits_note, ih, exists_eq_left, exists_const, List.append_assoc,
      List.singleton_append]

theorem mint_registration (sender : Address) (proof : Bytes) (commitment v source : Element)
    (s' : Rollup τ) (h : Commits (mint env sender proof commitment v source) p.1 () s') :
    Registration env p (s', p.2 ++ [.minted commitment v]) := by
  unfold mint registerMint at h
  simp only [commits_bind, commits_get, commits_require, commits_view, commits_tokenCall,
    commits_modify, and_assoc, exists_and_left, exists_eq_left, exists_const] at h
  obtain ⟨hfree, _, -, _, ⟨chain, hdeposit, rfl⟩, rfl⟩ := h
  exact Registration.mint chain commitment v hfree (Or.inl ⟨sender, hdeposit⟩)

theorem mintWithAuthorization_registration (proof : Bytes) (commitment v source : Element)
    (payer : Address) (validAfter validBefore nonce sv r sg v2 r2 s2 : Element) (s' : Rollup τ)
    (h : Commits (mintWithAuthorization env proof commitment v source payer validAfter
      validBefore nonce sv r sg v2 r2 s2) p.1 () s') :
    Registration env p (s', p.2 ++ [.minted commitment v]) := by
  unfold mintWithAuthorization registerMint at h
  simp only [commits_bind, commits_get, commits_require, commits_view, commits_bubble,
    commits_tokenCall, commits_modify, and_assoc, exists_and_left, exists_eq_left,
    exists_const] at h
  obtain ⟨hfree, _, -, -, _, -, _, ⟨chain, hdeposit, rfl⟩, rfl⟩ := h
  exact Registration.mint chain commitment v hfree (Or.inr ⟨payer, _, _, _, _, _, _, hdeposit⟩)

theorem burn_registration (toAddr : Address) (proof : Bytes) (n v source sig : Element)
    (s' : Rollup τ) (h : Commits (burn env toAddr proof n v source sig) p.1 () s') :
    Registration env p (s', p.2 ++ [.registered n v]) := by
  unfold burn setBurn requireNotUSDCBlacklisted at h
  simp only [commits_bind, commits_get, commits_require, commits_view, commits_setBurnsKind,
    commits_modify, and_assoc, exists_and_left, exists_eq_left, exists_const] at h
  obtain ⟨-, _, hproof, hkind, hamount, rfl⟩ := h
  exact Registration.toAddress n v toAddr hkind hamount
    (Or.inl ⟨proof, _, source, sig, verified_of_ok hproof⟩)

theorem burnToAddress_registration (kind toAddr : Element) (proof : Bytes)
    (n v source sig : Element) (s' : Rollup τ)
    (h : Commits (burnToAddress env kind toAddr proof n v source sig) p.1 () s') :
    Registration env p (s', p.2 ++ [.registered n v]) := by
  unfold burnToAddress setBurn requireNotUSDCBlacklisted at h
  simp only [commits_bind, commits_get, commits_require, commits_view, commits_setBurnsKind,
    commits_modify, and_assoc, exists_and_left, exists_eq_left, exists_const] at h
  obtain ⟨rfl, -, _, hproof, hkind, hamount, rfl⟩ := h
  exact Registration.toAddress n v _ hkind hamount
    (Or.inr ⟨proof, _, toAddr, source, sig, verified_of_ok hproof⟩)

theorem burnToRouter_registration (kind msgHash : Element) (proof : Bytes)
    (n v source sig : Element) (address : Address) (routerCalldata : Bytes)
    (returnAddress : Address) (s' : Rollup τ)
    (h : Commits (burnToRouter env kind msgHash proof n v source sig address routerCalldata
      returnAddress) p.1 () s') :
    Registration env p (s', p.2 ++ [.registered n v]) := by
  unfold burnToRouter requireNotUSDCBlacklisted at h
  simp only [commits_bind, commits_get, commits_require, commits_view, commits_setBurnsKind,
    commits_modify, and_assoc, exists_and_left, exists_eq_left, exists_const] at h
  obtain ⟨rfl, -, -, -, -, _, hproof, hkind, hamount, rfl⟩ := h
  exact Registration.toRouter n v address routerCalldata returnAddress hkind hamount
    (Or.inr ⟨proof, _, msgHash, source, sig, verified_of_ok hproof⟩)

/-- A request that is no substitution registers. -/
theorem request_registration (r : Request) (hr : ∀ n v, r ≠ .substituteBurn n v)
    (routerCall : Address → Bytes → Element → RollupM τ Bool) (sender : Address) (s' : Rollup τ)
    (h : Commits (request env routerCall sender r) p.1 () s') :
    Registration env p (s', p.2 ++ registration r) := by
  cases r with
  | mint proof commitment v source => exact mint_registration env p sender _ _ _ _ s' h
  | mintWithAuthorization proof commitment v source payer a b nonce sv r sg v2 r2 s2 =>
    exact mintWithAuthorization_registration env p _ _ _ _ _ _ _ _ _ _ _ _ _ _ s' h
  | burn toAddr proof n v source sig => exact burn_registration env p _ _ _ _ _ _ s' h
  | burnToAddress kind toAddr proof n v source sig =>
    exact burnToAddress_registration env p _ _ _ _ _ _ _ s' h
  | burnToRouter kind msgHash proof n v source sig address routerCalldata returnAddress =>
    exact burnToRouter_registration env p _ _ _ _ _ _ _ _ _ _ s' h
  | substituteBurn n v => exact absurd rfl (hr n v)

/-- The settings of the contract touch no burn. -/
theorem call_sameBurns (routerCall : Address → Bytes → Element → RollupM τ Bool)
    (sender : Address) (c : Call τ) (hrequest : ∀ r, c ≠ .request r)
    (hblock : ∀ args, c ≠ .verifyBlock2 args) (hworld : ∀ effect, c ≠ .world effect)
    (s s' : Rollup τ) (u : Unit) (h : Commits (call env routerCall sender c) s u s') :
    SameBurns s s' := by
  cases c with
  | request r => exact absurd rfl (hrequest r)
  | verifyBlock2 args => exact absurd rfl (hblock args)
  | world effect => exact absurd rfl (hworld effect)
  | setRoot _ | addProver _ | removeRouter _ | setGasPerRouterCall _ | renounceOwnership =>
    simp only [call, onlyOwner, commits_bind, commits_get, commits_require, commits_modify,
      and_assoc, exists_and_left, exists_eq_left, exists_const] at h
    obtain ⟨-, rfl⟩ := h
    exact ⟨rfl, rfl, rfl, rfl, rfl, rfl, rfl⟩
  | addRouter _ | transferOwnership _ =>
    simp only [call, onlyOwner, commits_bind, commits_get, commits_require, commits_modify,
      commits_set, and_assoc, exists_and_left, exists_eq_left, exists_const] at h
    obtain ⟨-, -, rfl⟩ := h
    exact ⟨rfl, rfl, rfl, rfl, rfl, rfl, rfl⟩
  | setValidators _ _ =>
    simp only [call, setValidators, onlyOwner, commits_bind, commits_get, commits_require,
      commits_set, and_assoc, exists_and_left, exists_eq_left, exists_const] at h
    obtain ⟨-, -, -, rfl⟩ := h
    exact ⟨rfl, rfl, rfl, rfl, rfl, rfl, rfl⟩

end Calls

section Rules

/-- A relation that every step of the contract respects when the routers do, where the world
around the contract changes in a fair way. -/
structure Lawful (fair : (τ → τ) → Prop) (R : Logged τ → Logged τ → Prop) : Prop where
  settings : ∀ p s', SameBurns p.1 s' → R p (s', p.2)
  world : ∀ p effect, fair effect → R p ({ p.1 with chain := effect p.1.chain }, p.2)
  registers : ∀ p p', Registration env p p' → R p p'
  substitutes : ∀ router : Address × Bytes × Element → LoggedM τ Bool,
    (∀ args, Respects R (router args)) → ∀ sender n v p p',
      Substitution env router sender n v p p' → R p p'
  rollsUp : ∀ router : Address × Bytes × Element → LoggedM τ Bool,
    (∀ args, Respects R (router args)) → ∀ n v p p', RollsUp env router n v p p' → R p p'

/-- The world changes in a fair way. -/
def FairCall (fair : (τ → τ) → Prop) (_ : Address) (c : Call τ) : Prop :=
  ∀ effect, c = .world effect → fair effect

variable {env} {fair : (τ → τ) → Prop} {R : Logged τ → Logged τ → Prop}
  [IsPreorder (Logged τ) R]

omit [IsPreorder (Logged τ) R] in
theorem Lawful.silently (hR : Lawful env fair R) (x : RollupM τ α) (hx : Respects SameBurns x) :
    Respects R (PaymentLog.silently x) := by
  refine ⟨fun p a p' h => ?_⟩
  rw [commits_silently] at h
  have hstep := hR.settings p p'.1 (hx.relates _ _ _ h.1)
  rwa [← h.2] at hstep

theorem respects_onlyProver (sender : Address) :
    Respects SameBurns (onlyProver sender : RollupM τ Unit) := by
  unfold onlyProver
  apply respects_bind _ _ respects_get
  intro s
  exact respects_require _ _

theorem respects_verifySignatures (sigMsg : Element) (validatorSet : ValidatorSet)
    (previous : Address) (signatures : List Signature) :
    Respects SameBurns (verifySignatures env sigMsg validatorSet previous signatures) := by
  refine ⟨fun s u s' h => ?_⟩
  rw [verifySignatures_state env s s' sigMsg validatorSet previous signatures u h]
  exact refl_of SameBurns s

theorem Lawful.verifyBlock2 (hR : Lawful env fair R)
    (hrespects : ∀ args, Respects R (router args)) (hquiet : ∀ args, FailsQuietly (router args))
    (sender : Address) (args : BlockArgs) :
    Respects R (loggedVerifyBlock2 env router sender args) := by
  unfold loggedVerifyBlock2
  apply respects_bind _ _ (hR.silently _ (respects_onlyProver sender))
  intro _
  apply respects_bind
  · apply hR.silently
    exact respects_modify _ fun s => ⟨rfl, rfl, rfl, rfl, rfl, rfl, rfl⟩
  intro _
  apply respects_bind _ _ (hR.silently _ respects_get)
  intro s
  apply respects_bind _ _ (hR.silently _ (respects_require _ _))
  intro _
  apply respects_bind
  · apply respects_forM
    intro i _
    refine ⟨fun p u p' h => ?_⟩
    exact hR.rollsUp router hrespects _ _ p p' (verifyTxn_rollsUp env router p p' hquiet _ _ u h)
  intro _
  apply hR.silently
  apply respects_bind _ _ respects_get
  intro s'
  apply respects_bind _ _ (respects_require _ _)
  intro _
  apply respects_bind _ _ (respects_require _ _)
  intro _
  apply respects_bind _ _ (respects_require _ _)
  intro _
  apply respects_bind _ _ (respects_require _ _)
  intro _
  apply respects_bind _ _ (respects_verifySignatures _ _ _ _)
  intro _
  apply respects_bind _ _ (respects_view _)
  intro _
  exact respects_modify _ fun t => ⟨rfl, rfl, rfl, rfl, rfl, rfl, rfl⟩

omit [IsPreorder (Logged τ) R] in
theorem Lawful.request (hR : Lawful env fair R)
    (hrespects : ∀ args, Respects R (router args)) (hquiet : ∀ args, FailsQuietly (router args))
    (sender : Address) (r : Request) : Respects R (loggedCall env router sender (.request r)) := by
  refine ⟨fun p u p' h => ?_⟩
  by_cases hr : ∃ n v, r = .substituteBurn n v
  · obtain ⟨n, v, rfl⟩ := hr
    exact hR.substitutes router hrespects sender n v p p'
      (substituteBurn_substitution env router p p' hquiet sender n v u h)
  · have hcall : loggedCall env router sender (.request r) = (do
        PaymentLog.silently (RollupCalls.request env (fun _ _ _ => return false) sender r)
        (registration r).forM note) := by
      cases r with
      | substituteBurn n v => exact absurd ⟨n, v, rfl⟩ hr
      | _ => rfl
    rw [hcall] at h
    simp only [commits_bind, commits_silently, commits_noteAll] at h
    obtain ⟨_, t, ⟨hrequest, hlog⟩, rfl⟩ := h
    rw [hlog]
    exact hR.registers p _ (request_registration env p r (fun n v h => hr ⟨n, v, h⟩) _ sender
      t.1 hrequest)

theorem Lawful.call (hR : Lawful env fair R)
    (hrespects : ∀ args, Respects R (router args)) (hquiet : ∀ args, FailsQuietly (router args))
    (sender : Address) (c : Call τ) (hfair : FairCall fair sender c) :
    Respects R (loggedCall env router sender c) := by
  have hsettings : (∀ r, c ≠ .request r) → (∀ args, c ≠ .verifyBlock2 args) →
      (∀ effect, c ≠ .world effect) →
      Respects R (PaymentLog.silently
        (RollupCalls.call env (fun _ _ _ => return false) sender c)) := by
    intro hrequest hblock hworld
    apply hR.silently
    exact ⟨fun s u s' h => call_sameBurns env _ sender c hrequest hblock hworld s s' u h⟩
  cases c with
  | request r => exact hR.request router hrespects hquiet sender r
  | verifyBlock2 args => exact hR.verifyBlock2 router hrespects hquiet sender args
  | world effect =>
    refine ⟨fun p u p' h => ?_⟩
    simp only [loggedCall, RollupCalls.call] at h
    rw [commits_silent_modify] at h
    rw [h]
    exact hR.world p effect (hfair effect rfl)
  | _ => exact hsettings (by simp) (by simp) (by simp)

/-- A run of any depth relates its start to its end. -/
theorem Lawful.run (hR : Lawful env fair R) (routers : RouterCalls τ) (depth : ℕ)
    (hrouters : ∀ args s, (routers args s).Within (FairCall fair)) (p : Logged τ)
    (txs : List (Address × Call τ)) (htxs : ∀ tx ∈ txs, FairCall fair tx.1 tx.2) :
    R p (runLogged env routers depth p txs) :=
  runNested_relates Prod.fst (FairCall fair) (loggedCall env) routers
    (fun router hrespects hquiet sender c hfair => hR.call router hrespects hquiet sender c hfair)
    hrouters depth p txs htxs

end Rules
end PayyRollup.PaymentEffects
