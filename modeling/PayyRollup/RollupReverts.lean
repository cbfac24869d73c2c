import PayyRollup.RollupEffects

/-!
Why the calls of the rollup contract revert. A transaction of a block reverts because of the
amount registered for its hash, because nothing is registered, or because the token does; a
router call never reverts, since its failure is a result. A block reverts for its recent
roots only when they are missing from the ring its transactions leave.
-/
namespace PayyRollup.RollupReverts

open ScalarField VerifierContracts Transactions RollupState RollupCalls RollupEffects

variable {τ : Type} (env : Externals τ)

/-- Why a transaction with this hash and value reverts in a state. -/
inductive TxnReverts (s : Rollup τ) (mb value : Element) : Revert → Prop
  | mintAmount : s.mints mb ≠ 0#256 → s.mints mb ≠ value →
      TxnReverts s mb value (.reason "RollupV6: Invalid mint amount")
  | burnAmount : s.mints mb = 0#256 → s.burnsKind mb = 0#256 → (s.burns mb).amount ≠ 0#256 →
      (s.burns mb).amount ≠ value →
      TxnReverts s mb value (.reason "RollupV6: Invalid burn amount")
  | routerAmount : s.mints mb = 0#256 → s.burnsKind mb = 1#256 →
      (s.burnsToRouter mb).amount ≠ value →
      TxnReverts s mb value (.reason "RollupV6: Invalid burn amount")
  | notFound : s.mints mb = 0#256 → s.burnsKind mb = 0#256 → (s.burns mb).amount = 0#256 →
      TxnReverts s mb value (.reason "RollupV6: Burn was not found")
  | token (data : Bytes) : s.mints mb = 0#256 → s.burnsKind mb = 1#256 →
      TxnReverts s mb value (.bubbled data)

/-- The revert of the token itself in an approval or a transfer. -/
def TokenReverts (e : Revert) : Prop :=
  ∃ data, e = .bubbled data ∧
    ((∃ chain spender amount, env.approve chain spender amount = .error data) ∨
      ∃ chain payee amount, env.transfer chain payee amount = .error data)

section Reasons

variable {env} {s : Rollup τ} {e : Revert}

@[simp] theorem reverts_bubble {α : Type} (x : Except Bytes α) :
    Reverts (bubble x : RollupM τ α) s e ↔ ∃ data, x = .error data ∧ e = .bubbled data := by
  unfold bubble
  rw [reverts_view]
  cases x with
  | error data =>
    simp only [Except.mapError, Except.error.injEq, exists_eq_left']
    exact eq_comm
  | ok a => simp [Except.mapError]

theorem tokenCall_reverts (tokenFn : τ → Except Bytes τ)
    (h : Reverts (tokenCall tokenFn : RollupM τ Unit) s e) :
    ∃ chain data, tokenFn chain = .error data ∧ e = .bubbled data := by
  simp only [tokenCall, reverts_bind, not_reverts_get, false_or, commits_get, reverts_bubble,
    not_reverts_set, and_false, exists_false, or_false] at h
  obtain ⟨_, t, -, data, hfails, rfl⟩ := h
  exact ⟨_, data, hfails, rfl⟩

/-- Field elements the generated verifier rejects, or words that are not field elements. -/
theorem verifyInstances_reverts {plonkVerifier : List Fr → Bytes → Bool} (proof : Bytes)
    (instances : List Element) (h : verifyInstances plonkVerifier proof instances = .error e) :
    e = .reason "Invalid field element" ∨ e = .reason "VerificationFailed()" := by
  have hwords : ∀ xs : List Element, requireValidFieldElements xs = .error e →
      e = .reason "Invalid field element" := by
    intro xs
    induction xs with
    | nil => simp [requireValidFieldElements]
    | cons x rest ih =>
      unfold requireValidFieldElements requireValidFieldElement
      by_cases hx : x.toNat < modulus
      · simpa [hx, bind, Except.bind] using ih
      · simp only [hx, if_false, bind, Except.bind, Except.error.injEq]
        exact fun h => h.symm
  unfold verifyInstances at h
  cases hfields : requireValidFieldElements instances with
  | error e' =>
    rw [hfields] at h
    obtain rfl := Except.error.inj h
    exact Or.inl (hwords instances hfields)
  | ok u =>
    rw [hfields] at h
    by_cases hplonk : plonkVerifier (instances.map Element.toBase) proof = true
    · simp [bind, Except.bind, hplonk] at h
    · simp only [bind, Except.bind, hplonk, Bool.false_eq_true, if_false,
        Except.error.injEq] at h
      exact Or.inr h.symm

theorem verifySignatures_reverts (sigMsg : Element) (validatorSet : ValidatorSet)
    (previous : Address) (signatures : List Signature)
    (h : Reverts (verifySignatures env sigMsg validatorSet previous signatures) s e) :
    (∃ data, e = .bubbled data) ∨ e = .reason "Signer is not a validator" ∨
      e = .reason "Signers are not sorted" := by
  induction signatures generalizing previous s with
  | nil => exact absurd h (not_reverts_pure s e ())
  | cons signature rest ih =>
    simp only [verifySignatures, reverts_bind, reverts_bubble, reverts_require, commits_bubble,
      commits_require] at h
    rcases h with ⟨data, -, rfl⟩ | ⟨signer, _, ⟨-, rfl⟩, ⟨-, rfl⟩ | ⟨_, _, ⟨-, rfl⟩, ⟨-, rfl⟩ |
      ⟨_, _, ⟨-, rfl⟩, hrest⟩⟩⟩
    · exact Or.inl ⟨data, rfl⟩
    · exact Or.inr (Or.inl rfl)
    · exact Or.inr (Or.inr rfl)
    · exact ih _ hrest

end Reasons

section Txns

variable {env} (routerCall : Address → Bytes → Element → RollupM τ Bool)
  (hrouter : ∀ router calldata gas s e, ¬Reverts (routerCall router calldata gas) s e)
  {s : Rollup τ} {e : Revert}

/-- A router call returns its failure as a result. -/
theorem routerCallAt_total (routers : Routers τ) (depth : ℕ) (router : Address) (calldata : Bytes)
    (gas : Element) (s : Rollup τ) (e : Revert) :
    ¬Reverts (routerCallAt env routers depth router calldata gas) s e := by
  cases depth with
  | zero => exact not_reverts_pure s e false
  | succ depth =>
    unfold Reverts routerCallAt
    simp

theorem executeBurnToAddress_reverts (mb value : Element)
    (h : Reverts (executeBurnToAddress env mb value) s e) :
    (s.burns mb).amount ≠ 0#256 ∧ (s.burns mb).amount ≠ value ∧
      e = .reason "RollupV6: Invalid burn amount" := by
  unfold executeBurnToAddress at h
  rw [reverts_bind] at h
  rcases h with hget | ⟨s₀, t, hget, h⟩
  · exact absurd hget (not_reverts_get s e)
  obtain ⟨rfl, rfl⟩ := (commits_get _ _ _).mp hget
  dsimp only at h
  by_cases hzero : (t.burns mb).amount = 0#256
  · rw [if_pos hzero] at h
    exact absurd h (not_reverts_pure t e false)
  · rw [if_neg hzero, reverts_bind, reverts_require] at h
    rcases h with ⟨hamount, rfl⟩ | ⟨_, t', hrequire, h⟩
    · exact ⟨hzero, hamount, rfl⟩
    · exfalso
      revert h
      cases env.transfer t.chain (t.burns mb).toAddr value with
      | error data => exact not_reverts_pure t' e false
      | ok chain =>
        intro h
        cases h

include hrouter in
theorem executeBurnToRouter_reverts (mb value : Element)
    (h : Reverts (executeBurnToRouter env routerCall mb value) s e) :
    ((s.burnsToRouter mb).amount ≠ value ∧ e = .reason "RollupV6: Invalid burn amount") ∨
      TokenReverts env e := by
  have hwhitelisted : ∀ (router : Address) (calldata : Bytes) (gas : Element) (t : Rollup τ),
      ¬Reverts (routerCallIfWhitelisted routerCall router calldata gas) t e := by
    intro router calldata gas t
    simp only [routerCallIfWhitelisted, reverts_bind, not_reverts_get, commits_get,
      reverts_ite, not_reverts_pure, hrouter, and_false, or_false, exists_false, not_false_eq_true]
  unfold executeBurnToRouter at h
  simp only [reverts_bind, not_reverts_get, false_or, commits_get, reverts_require,
    hwhitelisted, reverts_ite, not_reverts_pure, and_false] at h
  obtain ⟨_, _, ⟨rfl, rfl⟩, ⟨hamount, rfl⟩ | ⟨_, _, -, htoken | ⟨_, _, -, _, _, -, htoken |
    ⟨_, _, -, -, _, _, -, -, htoken | ⟨_, _, -, h⟩⟩⟩⟩⟩ := h
  · exact Or.inl ⟨hamount, rfl⟩
  · obtain ⟨chain, data, hfails, rfl⟩ := tokenCall_reverts _ htoken
    exact Or.inr ⟨data, rfl, Or.inl ⟨chain, _, _, hfails⟩⟩
  · obtain ⟨chain, data, hfails, rfl⟩ := tokenCall_reverts _ htoken
    exact Or.inr ⟨data, rfl, Or.inl ⟨chain, _, _, hfails⟩⟩
  · obtain ⟨chain, data, hfails, rfl⟩ := tokenCall_reverts _ htoken
    exact Or.inr ⟨data, rfl, Or.inr ⟨chain, _, _, hfails⟩⟩

theorem TxnReverts.ne_roots {mb value : Element} (h : TxnReverts s mb value e) :
    e ≠ .reason "Invalid recent roots" := by
  cases h with
  | mintAmount => simp
  | burnAmount => simp
  | routerAmount => simp
  | notFound => simp
  | token => simp

include hrouter in
/-- The contract itself gives a reason; other data comes from the token. -/
theorem verifyTxn_fails (mb value : Element)
    (h : Reverts (verifyTxn env routerCall mb value) s e) :
    value ≠ 0#256 ∧ TxnReverts s mb value e ∧ (TokenReverts env e ∨ ∃ text, e = .reason text) := by
  unfold verifyTxn at h
  by_cases hvalue : value = 0#256
  · rw [if_pos hvalue] at h
    exact absurd h (not_reverts_pure s e ())
  refine ⟨hvalue, ?_⟩
  rw [if_neg hvalue] at h
  simp only [setRolledUp, reverts_bind, not_reverts_modify, commits_modify, not_reverts_get,
    commits_get, false_or] at h
  obtain ⟨_, t, ht, _, _, ⟨rfl, rfl⟩, h⟩ := h
  subst ht
  dsimp only at h
  by_cases hmint : s.mints mb = 0#256
  · rw [if_neg (not_not.mpr hmint), reverts_bind] at h
    rcases h with hburn | ⟨result, t', hresult, hfound⟩
    · unfold executeBurn at hburn
      rw [reverts_bind] at hburn
      rcases hburn with hget | ⟨_, _, hget, hburn⟩
      · exact absurd hget (not_reverts_get _ e)
      obtain ⟨rfl, rfl⟩ := (commits_get _ _ _).mp hget
      dsimp only at hburn
      split at hburn
      · rename_i hkind
        split at hburn
        · exact absurd hburn (not_reverts_pure _ _ _)
        · simp only [reverts_bind, not_reverts_pure, and_false, exists_false, or_false] at hburn
          obtain ⟨hzero, hamount, rfl⟩ := executeBurnToAddress_reverts mb value hburn
          exact ⟨.burnAmount hmint hkind hzero hamount, Or.inr ⟨_, rfl⟩⟩
      · split at hburn
        · rename_i hkind
          simp only [reverts_bind, not_reverts_pure, and_false, exists_false, or_false] at hburn
          rcases executeBurnToRouter_reverts routerCall hrouter mb value hburn with
            ⟨hamount, rfl⟩ | htoken
          · exact ⟨.routerAmount hmint hkind hamount, Or.inr ⟨_, rfl⟩⟩
          · obtain ⟨data, rfl, hfails⟩ := htoken
            exact ⟨.token data hmint hkind, Or.inl ⟨data, rfl, hfails⟩⟩
        · exact absurd hburn (not_reverts_pure _ _ _)
    · obtain ⟨hnot, rfl⟩ := (reverts_require _ _ _ _).mp hfound
      unfold executeBurn at hresult
      rw [commits_bind] at hresult
      obtain ⟨_, _, hget, hresult⟩ := hresult
      obtain ⟨rfl, rfl⟩ := (commits_get _ _ _).mp hget
      dsimp only at hresult
      split at hresult
      · rename_i hkind
        split at hresult
        · rename_i hzero
          exact ⟨.notFound hmint hkind hzero, Or.inr ⟨_, rfl⟩⟩
        · simp only [commits_bind, commits_pure] at hresult
          obtain ⟨_, _, -, rfl, -⟩ := hresult
          exact absurd rfl hnot
      · split at hresult
        · simp only [commits_bind, commits_pure] at hresult
          obtain ⟨_, _, -, rfl, -⟩ := hresult
          exact absurd rfl hnot
        · obtain ⟨rfl, -⟩ := (commits_pure _ _ _ _).mp hresult
          exact absurd rfl hnot
  · rw [if_pos hmint] at h
    obtain ⟨hamount, rfl⟩ := (reverts_require _ _ _ _).mp h
    exact ⟨.mintAmount hmint hamount, Or.inr ⟨_, rfl⟩⟩

include hrouter in
theorem verifyTxn_reverts (mb value : Element)
    (h : Reverts (verifyTxn env routerCall mb value) s e) :
    value ≠ 0#256 ∧ TxnReverts s mb value e := by
  obtain ⟨hvalue, htxn, -⟩ := verifyTxn_fails routerCall hrouter mb value h
  exact ⟨hvalue, htxn⟩

include hrouter in
/-- The recent roots reject a block only when they are missing after its transactions. -/
theorem verifyBlock2_reverts_roots (sender : Address) (args : BlockArgs)
    (h : Reverts (verifyBlock2 env routerCall sender args) s (.reason "Invalid recent roots")) :
    ∃ t, Commits ([0, 3, 6, 9, 12, 15].forM fun i =>
        verifyTxn env routerCall (args.utxoHash (i + 1)) (args.utxoHash (i + 2)))
        (s.updateValidatorSetIndex args.height) () t ∧
      t.containsRootHashes ([0, 3, 6, 9, 12, 15].map args.utxoHash) = false := by
  unfold verifyBlock2 onlyProver at h
  simp only [reverts_bind, commits_bind, not_reverts_get, false_or, commits_get,
    reverts_require, commits_require, not_reverts_modify, commits_modify, reverts_view,
    and_assoc, exists_and_left, exists_eq_left, exists_const, exists_false, Revert.reason.injEq,
    String.reduceEq, and_false, and_true, or_false] at h
  obtain ⟨-, -, h⟩ := h
  rcases h with htxns | ⟨u, t, hexecuted, h⟩
  · obtain ⟨before, i, after, t, -, -, hi⟩ := reverts_forM _ _ _ _ htxns
    obtain ⟨-, hreason⟩ := verifyTxn_reverts routerCall hrouter _ _ hi
    exact absurd rfl hreason.ne_roots
  · rcases h with hcontains | ⟨-, -, -, -, h⟩
    · exact ⟨t, hexecuted, by simpa using hcontains⟩
    · exfalso
      rcases h with hsignatures | ⟨_, t', hsignatures, hverify⟩
      · rcases verifySignatures_reverts _ _ _ _ hsignatures with ⟨data, hdata⟩ | hreason | hreason
        · cases hdata
        · simp at hreason
        · simp at hreason
      · rcases verifyInstances_reverts _ _ hverify with hreason | hreason
        · simp at hreason
        · simp at hreason

end Txns
end PayyRollup.RollupReverts
