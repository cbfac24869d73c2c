import PayyRollup.PayoutSafety
import PayyRollup.RollupV5

/-!
Payouts over the upgrade from the fifth version to the sixth. The fifth version forgets a
burn when it is rolled up and sets none of the marks of the sixth, so a hash it has paid
out looks like a fresh one after the upgrade. It is not paid again if its burn is not
registered again, and without another roll-up it is paid again exactly if it is substituted.
-/
namespace PayyRollup.UpgradePayouts

open ScalarField VerifierContracts Transactions RollupState RollupCalls RollupEffects
  CallBacks PaymentLog PaymentEffects BurnLife

variable {τ : Type}

section Marks

/-- The marks of the sixth version are the same. -/
structure SameMarks (s s' : Rollup τ) : Prop where
  substituted : s'.substitutedBurns = s.substitutedBurns
  rolledUp : s'.rolledUpLeafs = s.rolledUpLeafs

instance : IsPreorder (Rollup τ) SameMarks where
  refl _ := ⟨rfl, rfl⟩
  trans _ _ _ h h' := ⟨h'.substituted.trans h.substituted, h'.rolledUp.trans h.rolledUp⟩

def MarksKept (p p' : Logged τ) : Prop := SameMarks p.1 p'.1

instance : IsPreorder (Logged τ) MarksKept where
  refl p := refl_of SameMarks p.1
  trans _ _ _ h h' := trans_of SameMarks h h'

theorem marks_silently {α : Type} (x : RollupM τ α) (hx : Respects SameMarks x) :
    Respects MarksKept (silently x) := by
  refine ⟨fun p a p' h => ?_⟩
  rw [commits_silently] at h
  exact hx.relates _ _ _ h.1

theorem marks_note (e : Entry) : Respects MarksKept (note e : LoggedM τ Unit) :=
  respects_modify _ fun _ => ⟨rfl, rfl⟩

theorem marks_sameBurns {α : Type} (x : RollupM τ α) (hx : Respects SameBurns x) :
    Respects SameMarks x := by
  refine ⟨fun s a s' h => ?_⟩
  have hsame := hx.relates s a s' h
  exact ⟨hsame.substitutedBurns, hsame.rolledUpLeafs⟩

theorem marks_tokenCall (tokenFn : τ → Except Bytes τ) :
    Respects MarksKept (silently (tokenCall tokenFn)) :=
  marks_silently _ (respects_tokenCall (fun _ _ => ⟨rfl, rfl⟩) tokenFn)

variable (env : Externals τ) (router : Address × Bytes × Element → LoggedM τ Bool)
  (hrouter : ∀ args, Respects MarksKept (router args))

theorem marks_blacklist (account : Address) :
    Respects SameMarks (requireNotUSDCBlacklisted env account) := by
  unfold requireNotUSDCBlacklisted
  apply respects_bind _ _ respects_get
  intro s
  exact respects_require _ _

theorem marks_rollUpToAddress (mb value : Element) :
    Respects MarksKept (RollupV5.rollUpToAddress env mb value) := by
  unfold RollupV5.rollUpToAddress
  apply respects_bind _ _ (marks_silently _ respects_get)
  intro s
  apply respects_bind _ _ (marks_silently _ (respects_require _ _))
  intro _
  apply respects_bind _ _ (marks_note _)
  intro _
  apply respects_bind
  · unfold RollupV5.transferBurn
    apply respects_bind _ _ (marks_silently _ respects_get)
    intro t
    apply respects_ite _ _ _ _ (respects_pure ())
    exact respects_bind _ _ (marks_tokenCall _) fun _ => marks_note _
  · intro _
    exact marks_silently _ (respects_modify _ fun _ => ⟨rfl, rfl⟩)

include hrouter

theorem marks_rollUpToRouter (mb value gas : Element) :
    Respects MarksKept (RollupV5.rollUpToRouter env router mb value gas) := by
  have hcall : ∀ address routerCalldata g,
      Respects MarksKept (loggedRouterCallIfWhitelisted router address routerCalldata g) := by
    intro address routerCalldata g
    unfold loggedRouterCallIfWhitelisted
    apply respects_bind _ _ (marks_silently _ respects_get)
    intro s
    exact respects_ite _ _ _ (hrouter _) (respects_pure false)
  unfold RollupV5.rollUpToRouter
  apply respects_bind _ _ (marks_silently _ respects_get)
  intro s
  apply respects_bind _ _ (marks_silently _ (respects_require _ _))
  intro _
  apply respects_bind _ _ (marks_note _)
  intro _
  apply respects_bind _ _ (marks_tokenCall _)
  intro _
  apply respects_bind _ _ (hcall _ _ _)
  intro success
  apply respects_bind
  · unfold RollupV5.settleRouterCall
    apply respects_ite _ _ _ (marks_note _)
    apply respects_bind _ _ (marks_tokenCall _)
    intro _
    exact respects_bind _ _ (marks_tokenCall _) fun _ => marks_note _
  · intro _
    exact marks_silently _ (respects_modify _ fun _ => ⟨rfl, rfl⟩)

theorem marks_verifyTxn (mb value gas : Element) :
    Respects MarksKept (RollupV5.verifyTxn env router mb value gas) := by
  unfold RollupV5.verifyTxn
  apply respects_ite _ _ _ (respects_pure ())
  apply respects_bind _ _ (marks_silently _ respects_get)
  intro s
  apply respects_ite
  · apply respects_bind _ _ (marks_silently _ (respects_require _ _))
    intro _
    exact marks_silently _ (respects_modify _ fun _ => ⟨rfl, rfl⟩)
  apply respects_ite _ _ _ (marks_rollUpToAddress env mb value)
  exact respects_ite _ _ _ (marks_rollUpToRouter env router hrouter mb value gas)
    (respects_throw _)

theorem marks_verifyBlock2 (sender : Address) (args : BlockArgs) (gas : Element) :
    Respects MarksKept (RollupV5.verifyBlock2 env router sender args gas) := by
  unfold RollupV5.verifyBlock2
  apply respects_bind _ _ (marks_silently _ (marks_sameBurns _
    (respects_onlyProver sender)))
  intro _
  apply respects_bind
  · apply marks_silently
    exact respects_modify _ fun _ => ⟨rfl, rfl⟩
  intro _
  apply respects_bind _ _ (marks_silently _ respects_get)
  intro s
  apply respects_bind _ _ (marks_silently _ (respects_require _ _))
  intro _
  apply respects_bind
  · exact respects_forM _ _ fun i _ => marks_verifyTxn env router hrouter _ _ gas
  intro _
  apply marks_silently
  apply respects_bind _ _ respects_get
  intro s'
  apply respects_bind _ _ (respects_require _ _)
  intro _
  apply respects_bind _ _ (respects_require _ _)
  intro _
  apply respects_bind _ _ (respects_require _ _)
  intro _
  apply respects_bind _ _ (respects_require _ _)
  intro _
  apply respects_bind _ _ (marks_sameBurns _ (respects_verifySignatures _ _ _ _))
  intro _
  apply respects_bind _ _ (respects_view _)
  intro _
  exact respects_modify _ fun _ => ⟨rfl, rfl⟩

/-- The fifth version sets no mark of the sixth. -/
theorem marks_call (sender : Address) (c : RollupV5.CallV5 τ) :
    Respects MarksKept (RollupV5.call env router sender c) := by
  have hsettings : ∀ c : Call τ, (∀ r, c ≠ .request r) → (∀ args, c ≠ .verifyBlock2 args) →
      (∀ effect, c ≠ .world effect) →
      Respects MarksKept (silently (call env (fun _ _ _ => return false) sender c)) := by
    intro c hrequest hblock hworld
    apply marks_silently
    apply marks_sameBurns
    exact ⟨fun s u s' h => call_sameBurns env _ sender c hrequest hblock hworld s s' u h⟩
  have hregistered : ∀ r n v, Respects SameMarks r →
      Respects MarksKept (do
        silently (r : RollupM τ Unit)
        note (.registered n v)) := by
    intro r n v hr
    exact respects_bind _ _ (marks_silently _ hr) fun _ => marks_note _
  cases c with
  | mint proof commitment value source =>
    apply marks_silently
    refine ⟨fun s u s' h => ?_⟩
    cases mint_registers env s s' sender proof commitment value source h <;> exact ⟨rfl, rfl⟩
  | mintWithAuthorization proof commitment value source payer a b nonce v r sg v2 r2 s2 =>
    apply marks_silently
    refine ⟨fun s u s' h => ?_⟩
    cases mintWithAuthorization_registers env s s' proof commitment value source payer a b nonce
      v r sg v2 r2 s2 h <;> exact ⟨rfl, rfl⟩
  | burn toAddr proof nullifier value source sig =>
    apply hregistered
    unfold RollupV5.burn
    apply respects_bind _ _ (marks_blacklist env _)
    intro _
    apply respects_bind _ _ (respects_view _)
    intro _
    exact respects_modify _ fun _ => ⟨rfl, rfl⟩
  | burnToAddress kind toAddr proof nullifier value source sig =>
    apply hregistered
    unfold RollupV5.burnToAddress
    apply respects_bind _ _ (respects_require _ _)
    intro _
    apply respects_bind _ _ (marks_blacklist env _)
    intro _
    apply respects_bind _ _ (respects_view _)
    intro _
    apply respects_bind
    · exact respects_modify _ fun _ => ⟨rfl, rfl⟩
    · intro _
      exact respects_modify _ fun _ => ⟨rfl, rfl⟩
  | burnToRouter kind msgHash proof nullifier value source sig address data returnAddress =>
    apply hregistered
    unfold RollupV5.burnToRouter
    apply respects_bind _ _ (respects_require _ _)
    intro _
    apply respects_bind _ _ (respects_require _ _)
    intro _
    apply respects_bind _ _ respects_get
    intro s
    apply respects_bind _ _ (respects_require _ _)
    intro _
    apply respects_bind _ _ (respects_require _ _)
    intro _
    apply respects_bind _ _ (respects_view _)
    intro _
    exact respects_modify _ fun _ => ⟨rfl, rfl⟩
  | verifyBlock args =>
    apply respects_bind _ _ (marks_silently _ (marks_sameBurns _ (respects_onlyProver sender)))
    intro _
    exact marks_verifyBlock2 env router hrouter sender args _
  | verifyBlock2 args gas => exact marks_verifyBlock2 env router hrouter sender args gas
  | world effect =>
    apply marks_silently
    exact respects_modify _ fun _ => ⟨rfl, rfl⟩
  | _ => exact hsettings _ (by simp) (by simp) (by simp)

omit hrouter in
theorem marks_run (routers : RollupV5.RouterCallsV5 τ) (depth : ℕ) (p : Logged τ)
    (txs : List (Address × RollupV5.CallV5 τ)) :
    MarksKept p (RollupV5.run env routers depth p txs) := by
  exact runNested_relates Prod.fst (fun _ _ => True) (RollupV5.call env) routers
    (fun router hrouter _ sender c _ => marks_call env router hrouter sender c)
    (fun args s => Script.within_of_forall _ (fun _ _ => trivial) _) depth p txs
    fun _ _ => trivial

end Marks

section Payments

/-- What later steps do to a hash: `more` is what they log. -/
structure Follows (n : Element) (p p' : Logged τ) (more : List Entry) : Prop where
  log : p'.2 = p.2 ++ more
  unregistered : p.1.hasBurn n = false → (∀ v, .registered n v ∉ more) →
    p'.1.hasBurn n = false ∧ ∀ payee a, .paid n payee a ∉ more
  unexecuted : (∀ sender a, .substituted n sender a ∉ more) → (∀ v, .rolledUp n v ∉ more) →
    ∀ payee a, .paid n payee a ∉ more
  substituted : ∀ sender a, .substituted n sender a ∈ more →
    ∃ payee v, .paid n payee v ∈ more

def Repays (n : Element) (p p' : Logged τ) : Prop := ∃ more, Follows n p p' more

variable {n : Element} {p p' p'' : Logged τ}

theorem Follows.trans {more more' : List Entry} (h : Follows n p p' more)
    (h' : Follows n p' p'' more') : Follows n p p'' (more ++ more') := by
  refine ⟨by rw [h'.log, h.log, List.append_assoc], ?_, ?_, ?_⟩
  · intro hburn hnot
    obtain ⟨hburn', hpaid⟩ := h.unregistered hburn fun v hv =>
      hnot v (List.mem_append_left _ hv)
    obtain ⟨hburn'', hpaid'⟩ := h'.unregistered hburn' fun v hv =>
      hnot v (List.mem_append_right _ hv)
    refine ⟨hburn'', fun payee a hmem => ?_⟩
    rcases List.mem_append.mp hmem with hmem | hmem
    · exact hpaid payee a hmem
    · exact hpaid' payee a hmem
  · intro hsubstituted hrolledUp payee a hmem
    rcases List.mem_append.mp hmem with hmem | hmem
    · exact h.unexecuted (fun s v hv => hsubstituted s v (List.mem_append_left _ hv))
        (fun v hv => hrolledUp v (List.mem_append_left _ hv)) payee a hmem
    · exact h'.unexecuted (fun s v hv => hsubstituted s v (List.mem_append_right _ hv))
        (fun v hv => hrolledUp v (List.mem_append_right _ hv)) payee a hmem
  · intro sender a hmem
    rcases List.mem_append.mp hmem with hmem | hmem
    · obtain ⟨payee, v, hpaid⟩ := h.substituted sender a hmem
      exact ⟨payee, v, List.mem_append_left _ hpaid⟩
    · obtain ⟨payee, v, hpaid⟩ := h'.substituted sender a hmem
      exact ⟨payee, v, List.mem_append_right _ hpaid⟩

/-- A step that leaves the burn of the hash alone and logs nothing of its execution. -/
theorem Follows.of_same {more : List Entry} (hlog : p'.2 = p.2 ++ more)
    (hburn : p.1.hasBurn n = false → (∀ v, .registered n v ∉ more) → p'.1.hasBurn n = false)
    (hmore : executed n more = []) : Follows n p p' more := by
  have hnone : ∀ e, executes n e = true → e ∉ more := by
    intro e he hmem
    have hexecuted := (mem_executed n more e).mpr ⟨hmem, he⟩
    rw [hmore] at hexecuted
    cases hexecuted
  refine ⟨hlog, fun hfree hnot => ⟨hburn hfree hnot, fun payee a => ?_⟩, fun _ _ payee a => ?_,
    fun sender a hmem => ?_⟩
  · exact hnone _ (decide_eq_true rfl)
  · exact hnone _ (decide_eq_true rfl)
  · exact absurd hmem (hnone _ (decide_eq_true rfl))

instance : IsPreorder (Logged τ) (Repays n) where
  refl p := ⟨[], Follows.of_same (List.append_nil _).symm (fun h _ => h) rfl⟩
  trans _ _ _ h h' := by
    obtain ⟨more, hmore⟩ := h
    obtain ⟨more', hmore'⟩ := h'
    exact ⟨more ++ more', hmore.trans hmore'⟩

variable {env : Externals τ} {router : Address × Bytes × Element → LoggedM τ Bool}
  {m v : Element}

/-- A burn that is found is registered. -/
theorem pays_found {success : Bool} (h : Pays env router n v p (true, success) p') :
    p.1.hasBurn n = true := by
  rw [hasBurn_iff]
  cases h with
  | transferred _ _ hamount _ _ => exact Or.inr hamount
  | refused _ hamount _ => exact Or.inr hamount
  | routed _ _ _ hkind _ _ _ _ => exact Or.inl (by rw [hkind]; decide)
  | returned _ _ _ hkind _ _ _ _ => exact Or.inl (by rw [hkind]; decide)
  | withheld _ _ hkind _ _ _ => exact Or.inl (by rw [hkind]; decide)
  | unknown hkind _ => exact Or.inl hkind

/-- The payments of one hash are nothing to another. -/
theorem repays_other (hrouter : ∀ args s s', Commits (router args) s true s' → Repays m s s')
    {result : Bool × Bool} (h : Pays env router n v p result p') (hne : n ≠ m) :
    Repays m p p' := by
  have hchain : ∀ (q : Logged τ) (chain : τ) (e : Entry), executes m e = false →
      Repays m q ({ q.1 with chain }, q.2 ++ [e]) := by
    intro q chain e he
    exact ⟨[e], Follows.of_same rfl (fun hfree _ => hfree) (executed_other m e he)⟩
  have hstart : ∀ chain, Repays m p ({ p.1 with chain }, p.2) := fun chain =>
    ⟨[], Follows.of_same (List.append_nil _).symm (fun hfree _ => hfree) rfl⟩
  cases h with
  | missing _ _ => exact refl_of (Repays m) p
  | transferred chain _ _ _ _ => exact hchain p chain _ (decide_eq_false hne)
  | refused _ _ _ => exact hchain p p.1.chain _ (decide_eq_false hne)
  | routed chain chain' t _ _ _ hcalled _ =>
    have hcall := trans_of (Repays m) (hstart chain) (hrouter _ _ _ hcalled)
    exact trans_of (Repays m) hcall
      (hchain t chain' (.paid n (p.1.burnsToRouter n).router v) (decide_eq_false hne))
  | returned _ _ chain _ _ _ _ _ => exact hchain p chain _ (decide_eq_false hne)
  | withheld _ chain _ _ _ _ => exact hstart chain
  | unknown _ _ => exact refl_of (Repays m) p

/-- What executing the burn of the hash logs. -/
theorem pays_logged (hrouter : ∀ args s s', Commits (router args) s true s' → Repays n s s')
    {success : Bool} (h : Pays env router n v p (true, success) p') :
    ∃ more, p'.2 = p.2 ++ more ∧ (success = true → ∃ payee, .paid n payee v ∈ more) ∧
      ∀ sender a, .substituted n sender a ∈ more → ∃ payee w, .paid n payee w ∈ more := by
  have hsingle : ∀ (q : Logged τ) e, (∀ sender a, e ≠ .substituted n sender a) →
      ∀ sender a, Entry.substituted n sender a ∈ [e] → ∃ payee w, .paid n payee w ∈ [e] := by
    intro q e he sender a hmem
    exact absurd (List.mem_singleton.mp hmem).symm (he sender a)
  cases h with
  | transferred chain _ _ _ _ =>
    exact ⟨_, rfl, fun _ => ⟨_, List.mem_singleton_self _⟩, hsingle p _ (by simp)⟩
  | refused _ _ _ => exact ⟨_, rfl, by simp, hsingle p _ (by simp)⟩
  | routed chain chain' t _ _ _ hcalled _ =>
    obtain ⟨more, hmore⟩ := hrouter _ _ _ hcalled
    have hpaid : Entry.paid n (p.1.burnsToRouter n).router v ∈
        more ++ [.paid n (p.1.burnsToRouter n).router v] :=
      List.mem_append_right _ (List.mem_singleton_self _)
    refine ⟨more ++ [.paid n (p.1.burnsToRouter n).router v], ?_, fun _ => ⟨_, hpaid⟩,
      fun _ _ _ => ⟨_, _, hpaid⟩⟩
    have hlog : t.2 = p.2 ++ more := hmore.log
    rw [hlog, List.append_assoc]
  | returned _ _ chain _ _ _ _ _ =>
    exact ⟨_, rfl, fun _ => ⟨_, List.mem_singleton_self _⟩, hsingle p _ (by simp)⟩
  | withheld _ chain _ _ _ _ => exact ⟨[], (List.append_nil _).symm, by simp, by simp⟩
  | unknown _ _ => exact ⟨[], (List.append_nil _).symm, by simp, by simp⟩

theorem registration_repays (h : Registration env p p') : Repays n p p' := by
  cases h with
  | mint chain commitment v _ _ =>
    exact ⟨[.minted commitment v], Follows.of_same rfl (fun hfree _ => hfree) rfl⟩
  | toAddress m v toAddr _ _ _ =>
    refine ⟨[.registered m v], Follows.of_same rfl ?_ rfl⟩
    intro hfree hnot
    have hne : n ≠ m := by
      rintro rfl
      exact hnot v (List.mem_singleton_self _)
    unfold Rollup.hasBurn at hfree ⊢
    simp only [Function.update_of_ne hne]
    exact hfree
  | toRouter m v address routerCalldata returnAddress _ _ _ =>
    refine ⟨[.registered m v], Follows.of_same rfl ?_ rfl⟩
    intro hfree hnot
    have hne : n ≠ m := by
      rintro rfl
      exact hnot v (List.mem_singleton_self _)
    unfold Rollup.hasBurn at hfree ⊢
    simp only [Function.update_of_ne hne]
    exact hfree

theorem substitution_repays {sender : Address}
    (hrouter : ∀ args s s', Commits (router args) s true s' → Repays n s s')
    (h : Substitution env router sender m v p p') : Repays n p p' := by
  obtain ⟨chain, t, hadvance, hpays, rfl⟩ := h.executed
  by_cases hne : m = n
  · subst hne
    obtain ⟨more, hlog, hpaid, hsubstituted⟩ := pays_logged hrouter hpays
    obtain ⟨payee, hmem⟩ := hpaid rfl
    have hfound := pays_found hpays
    have hburn : p.1.hasBurn m = true := hfound
    have hpayment : Entry.paid m payee v ∈
        [.advanced m sender v] ++ more ++ [.substituted m sender v] :=
      List.mem_append_left _ (List.mem_append_right _ hmem)
    refine ⟨[.advanced m sender v] ++ more ++ [.substituted m sender v], ?_, ?_, ?_, ?_⟩
    · simp only [hlog, List.append_assoc]
    · intro hfree
      rw [hburn] at hfree
      cases hfree
    · intro hnone
      exact absurd (List.mem_append_right _ (List.mem_singleton_self _)) (hnone sender v)
    · exact fun _ _ _ => ⟨payee, v, hpayment⟩
  · have hstart : Repays n p ({ p.1 with
        chain
        substitutedBurns := Function.update p.1.substitutedBurns m true },
        p.2 ++ [.advanced m sender v]) :=
      ⟨_, Follows.of_same rfl (fun hfree _ => hfree) (executed_other n _ (decide_eq_false hne))⟩
    refine trans_of (Repays n) (trans_of (Repays n) hstart (repays_other hrouter hpays hne)) ?_
    refine ⟨[.substituted m sender v], Follows.of_same rfl ?_
      (executed_other n _ (decide_eq_false hne))⟩
    intro hfree _
    unfold Rollup.hasBurn at hfree ⊢
    simp only [Function.update_of_ne (Ne.symm hne)]
    exact hfree

theorem rollsUp_repays
    (hrouter : ∀ args s s', Commits (router args) s true s' → Repays n s s')
    (h : RollsUp env router m v p p') : Repays n p p' := by
  cases h with
  | nothing _ => exact refl_of (Repays n) p
  | mint _ => exact ⟨[], Follows.of_same (List.append_nil _).symm (fun hfree _ => hfree) rfl⟩
  | burn success p' _ hpays =>
    by_cases hne : m = n
    · subst hne
      obtain ⟨more, hlog, -, hsubstituted⟩ := pays_logged hrouter hpays
      have hfound := pays_found hpays
      have hburn : p.1.hasBurn m = true := hfound
      refine ⟨[.rolledUp m v] ++ more, ?_, ?_, ?_, ?_⟩
      · rw [hlog, List.append_assoc]
      · intro hfree
        rw [hburn] at hfree
        cases hfree
      · intro _ hnone
        exact absurd (List.mem_append_left _ (List.mem_singleton_self _)) (hnone v)
      · intro sender a hmem
        rcases List.mem_append.mp hmem with hmem | hmem
        · cases List.mem_singleton.mp hmem
        · obtain ⟨payee, w, hpaid⟩ := hsubstituted sender a hmem
          exact ⟨payee, w, List.mem_append_right _ hpaid⟩
    · have hstart : Repays n p
          ({ p.1 with rolledUpLeafs := Function.update p.1.rolledUpLeafs m true },
            p.2 ++ [.rolledUp m v]) :=
        ⟨_, Follows.of_same rfl (fun hfree _ => hfree) (executed_other n _ (decide_eq_false hne))⟩
      exact trans_of (Repays n) hstart (repays_other hrouter hpays hne)

theorem repays_lawful : Lawful env (fun _ => True) (Repays n) := by
  refine ⟨?_, ?_, ?_, ?_, ?_⟩
  · intro p s' hsame
    refine ⟨[], Follows.of_same (List.append_nil _).symm (fun hfree _ => ?_) rfl⟩
    unfold Rollup.hasBurn at hfree ⊢
    rw [hsame.burnsKind, hsame.burns]
    exact hfree
  · intro p effect _
    exact ⟨[], Follows.of_same (List.append_nil _).symm (fun hfree _ => hfree) rfl⟩
  · intro p p' h
    exact registration_repays h
  · intro router hrouter sender m v p p' h
    exact substitution_repays (fun args s s' hs => (hrouter args).relates s true s' hs) h
  · intro router hrouter m v p p' h
    exact rollsUp_repays (fun args s s' hs => (hrouter args).relates s true s' hs) h

end Payments

section Upgrade

variable (env : Externals τ) (routers₅ : RollupV5.RouterCallsV5 τ) (routers₆ : RouterCalls τ)
  (depth₅ depth₆ : ℕ)

/-- After an upgrade no hash is marked. One that the fifth version paid out is not paid
again if it has no burn then and none is registered for it; and if it is not rolled up
again, it is paid again exactly if it is substituted. -/
theorem upgrade_payouts (chain : τ) (owner prover : Address) (initialValidators : List Address)
    (emptyRoot : Element) (before : List (Address × RollupV5.CallV5 τ))
    (after : List (Address × Call τ)) :
    let p := RollupV5.run env routers₅ depth₅
      (RollupV5.initialState chain owner prover initialValidators emptyRoot, []) before
    let s := RollupV5.initializeV6 p.1
    let p' := runLogged env routers₆ depth₆ (s, []) after
    p'.1 = runNestedCalls env routers₆ depth₆ s after ∧
      ∀ n payee a, .paid n payee a ∈ p.2 →
        (s.rolledUpLeafs n = false ∧ s.substitutedBurns n = false) ∧
        (s.hasBurn n = false → (∀ v, .registered n v ∉ p'.2) →
          ∀ payee' a', .paid n payee' a' ∉ p'.2) ∧
        ((∀ v, .rolledUp n v ∉ p'.2) →
          ((∀ payee' a', .paid n payee' a' ∉ p'.2) ↔
            ∀ sender a', .substituted n sender a' ∉ p'.2)) := by
  intro p s p'
  refine ⟨runLogged_state env routers₆ depth₆ s [] after, ?_⟩
  intro n payee a _
  have hmarks : MarksKept
      (RollupV5.initialState chain owner prover initialValidators emptyRoot, []) p :=
    marks_run env routers₅ depth₅ _ before
  obtain ⟨more, hfollows⟩ : Repays n (s, []) p' :=
    (show Lawful env (fun _ => True) (Repays n) from repays_lawful).run routers₆ depth₆
      (fun args t => Script.within_of_forall _ (fun _ _ _ _ => trivial) _) (s, []) after
      fun _ _ _ _ => trivial
  have hlog : p'.2 = more := hfollows.log
  rw [hlog]
  refine ⟨⟨?_, ?_⟩, ?_, ?_⟩
  · exact congrFun hmarks.rolledUp n
  · exact congrFun hmarks.substituted n
  · exact fun hfree hnone => (hfollows.unregistered hfree hnone).2
  · intro hrolledUp
    constructor
    · intro hunpaid sender a' hmem
      obtain ⟨payee', v, hpaid⟩ := hfollows.substituted sender a' hmem
      exact hunpaid payee' v hpaid
    · exact fun hnone => hfollows.unexecuted hnone hrolledUp

end Upgrade

section Replay

open PayoutSafety

def stopRouters {κ : Type} : Callees (Rollup Purse) Address κ (Address × Bytes × Element) :=
  fun _ _ => .stop true

/-- A burn of 5 to the address 4 is registered and rolled up under the fifth version. -/
def rolledUpBurn : List (Address × RollupV5.CallV5 Purse) :=
  [(1#160, .mint [] 100#256 5#256 0#256),
    (1#160, .burnToAddress 0#256 4#256 [] 50#256 5#256 0#256 0#256),
    (2#160, .verifyBlock2 burnBlock 0#256)]

/-- The same burn is registered once more. -/
def replayedBurn : Address × Call Purse :=
  (1#160, .request (.burnToAddress 0#256 4#256 [] 50#256 5#256 0#256 0#256))

private theorem rolledUpBurn_paid :
    let p := RollupV5.run purseEnv stopRouters 1
      (RollupV5.initialState emptyPurse 7#160 2#160 [1#160] 0#256, []) rolledUpBurn
    p.2 = [.registered 50#256 5#256, .rolledUp 50#256 5#256, .paid 50#256 4#160 5#256] := by
  decide +kernel

/-- A burn registered again and not substituted. -/
theorem upgrade_payouts_registered :
    let p := RollupV5.run purseEnv stopRouters 1
      (RollupV5.initialState emptyPurse 7#160 2#160 [1#160] 0#256, []) rolledUpBurn
    let s := RollupV5.initializeV6 p.1
    let p' := runLogged purseEnv stopRouters 1 (s, []) [replayedBurn]
    ∀ payee a, .paid 50#256 payee a ∉ p'.2 := by
  intro p s p'
  have h := upgrade_payouts purseEnv stopRouters stopRouters 1 1 emptyPurse 7#160 2#160 [1#160]
    0#256 rolledUpBurn [replayedBurn]
  have hpaid : .paid 50#256 4#160 5#256 ∈ p.2 := by
    rw [rolledUpBurn_paid]
    simp
  have hlog : p'.2 = [.registered 50#256 5#256] := by decide +kernel
  obtain ⟨-, -, hsubstituted⟩ := h.2 50#256 4#160 5#256 hpaid
  refine (hsubstituted ?_).mpr ?_
  · intro v
    change _ ∉ p'.2
    rw [hlog]
    simp
  · intro sender a
    change _ ∉ p'.2
    rw [hlog]
    simp

/-- A burn that the fifth version paid out is registered and substituted under the sixth:
its beneficiary is paid a second time. -/
theorem not_upgrade_payouts_replayed :
    let p := RollupV5.run purseEnv stopRouters 1
      (RollupV5.initialState emptyPurse 7#160 2#160 [1#160] 0#256, []) rolledUpBurn
    let s := RollupV5.initializeV6 p.1
    let txs := [replayedBurn, (8#160, .request (.substituteBurn 50#256 5#256))]
    let p' := runLogged purseEnv stopRouters 1 (s, []) txs
    p'.1 = runNestedCalls purseEnv stopRouters 1 s txs ∧
      .rolledUp 50#256 5#256 ∈ p.2 ∧ .paid 50#256 4#160 5#256 ∈ p.2 ∧
      .paid 50#256 4#160 5#256 ∈ p'.2 ∧ ∀ v, .rolledUp 50#256 v ∉ p'.2 := by
  intro p s txs p'
  have hlog : p'.2 = [.registered 50#256 5#256, .advanced 50#256 8#160 5#256,
      .paid 50#256 4#160 5#256, .substituted 50#256 8#160 5#256] := by decide +kernel
  refine ⟨runLogged_state purseEnv stopRouters 1 s [] txs, ?_, ?_, ?_, ?_⟩
  · rw [rolledUpBurn_paid]
    simp
  · rw [rolledUpBurn_paid]
    simp
  · rw [hlog]
    simp
  · intro v
    rw [hlog]
    simp

end Replay
end PayyRollup.UpgradePayouts
