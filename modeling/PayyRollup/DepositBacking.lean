import PayyRollup.AmountBinding

/-!
What the contract makes of the transactions that a node admits. A node asks the contract about
a mint or burn only if both its hash and its value are not zero; the circuit takes the hash from
the first note of a side, so a padding note in front of a real one hides the hash and keeps the
value. Such a transaction mints a value for which nothing is registered, and no block with it can
be verified. Whenever the hash is there, the contract has it with exactly that value: it had it
in the state that the node read, and no later call takes it away.
-/
namespace PayyRollup.DepositBacking

open ScalarField ConstraintProgram Layouter Notes UtxoCircuit BridgeCircuits AmountBinding
  VerifierContracts Transactions RollupState RollupCalls RollupEffects RollupReverts
  PaymentEffects SmirkTree NodeBlocks BlockValidation NodeAdmission

variable {τ : Type} {D : ℕ}

/-- The hash is registered with the value and not spent, and verifying it reverts with nothing
but a revert of the token. -/
structure Backed (env : Externals τ) (routerCall : Address → Bytes → Element → RollupM τ Bool)
    (s : Rollup τ) (mb value : Element) : Prop where
  registered : s.mints mb = value ∨ registeredBurn s mb = some value
  unspent : s.rolledUpLeafs mb = false
  processed : ∀ e, Reverts (verifyTxn env routerCall mb value) s e → TokenReverts env e

/-- Later states keep what is registered with an amount. -/
structure Persists (s s' : Rollup τ) : Prop where
  mints : ∀ c, s.mints c ≠ 0#256 → s'.mints c = s.mints c
  burns : ∀ c v, v ≠ 0#256 → registeredBurn s c = some v → registeredBurn s' c = some v

instance : IsPreorder (Rollup τ) Persists where
  refl := fun _ => ⟨fun _ _ => rfl, fun _ _ _ h => h⟩
  trans := fun a b c h h' => by
    refine ⟨fun k hk => ?_, fun k v hv hk => h'.burns k v hv (h.burns k v hv hk)⟩
    have hb := h.mints k hk
    rw [h'.mints k (by rw [hb]; exact hk), hb]

section Persistence

variable {env : Externals τ} {s s' : Rollup τ}

theorem registeredBurn_congr {c : Element} (hkind : s'.burnsKind c = s.burnsKind c)
    (hburn : s'.burns c = s.burns c) (hrouter : s'.burnsToRouter c = s.burnsToRouter c) :
    registeredBurn s' c = registeredBurn s c := by
  unfold registeredBurn
  rw [hkind, hburn, hrouter]

/-- What leaves the mints and the burns alone persists. -/
theorem Persists.of_same (hmints : s'.mints = s.mints) (hkind : s'.burnsKind = s.burnsKind)
    (hburns : s'.burns = s.burns) (hrouter : s'.burnsToRouter = s.burnsToRouter) :
    Persists s s' := by
  refine ⟨fun c _ => by rw [hmints], fun c v _ h => ?_⟩
  have hsame : registeredBurn s' c = registeredBurn s c :=
    registeredBurn_congr (congrFun hkind c) (congrFun hburns c) (congrFun hrouter c)
  rw [hsame]
  exact h

theorem Persists.registered {c v : Element} (h : Persists s s') (hv : v ≠ 0#256)
    (hregistered : s.mints c = v ∨ registeredBurn s c = some v) :
    s'.mints c = v ∨ registeredBurn s' c = some v := by
  rcases hregistered with hmint | hburn
  · have hkept := h.mints c (by rwa [hmint])
    exact Or.inl (hkept.trans hmint)
  · exact Or.inr (h.burns c v hv hburn)

theorem registeredBurn_vacant {c : Element} (hkind : s.burnsKind c = 0#256)
    (hamount : (s.burns c).amount = 0#256) : registeredBurn s c = none := by
  rw [registeredBurn, if_pos hkind, if_pos hamount]

theorem registeredBurn_direct (s : Rollup τ) (c : Element) (burn : Burn)
    (hkind : s.burnsKind c = 0#256) (hburn : s.burns c = burn) (hamount : burn.amount ≠ 0#256) :
    registeredBurn s c = some burn.amount := by
  rw [registeredBurn, if_pos hkind, hburn, if_neg hamount]

/-- A burn under a vacant nullifier changes no other burn. -/
theorem Persists.of_vacant {n : Element} (hmints : s'.mints = s.mints)
    (hkind : s.burnsKind n = 0#256) (hamount : (s.burns n).amount = 0#256)
    (hothers : ∀ c, c ≠ n → registeredBurn s' c = registeredBurn s c) : Persists s s' := by
  refine ⟨fun c _ => by rw [hmints], fun c v _ h => ?_⟩
  have hne : c ≠ n := by
    intro heq
    rw [heq, registeredBurn_vacant hkind hamount] at h
    cases h
  rw [hothers c hne]
  exact h

theorem registeredBurn_setBurn (s : Rollup τ) {n c : Element} (kind : Element) (burn : Burn)
    (hne : c ≠ n) :
    registeredBurn { s with
      burnsKind := Function.update s.burnsKind n kind
      burns := Function.update s.burns n burn } c = registeredBurn s c :=
  registeredBurn_congr (Function.update_of_ne hne _ _) (Function.update_of_ne hne _ _) rfl

theorem registers_persists (h : Registers env s s') : Persists s s' := by
  cases h with
  | mint chain proof commitment value source hfree _ =>
    refine ⟨fun c hc => ?_, fun c v _ hburn => hburn⟩
    have hne : c ≠ commitment := by
      intro heq
      rw [heq] at hc
      exact hc hfree
    exact Function.update_of_ne hne _ _
  | burn toAddr proof nullifier value source sig hkind hamount _ =>
    exact Persists.of_vacant rfl hkind hamount fun c hne => registeredBurn_setBurn s _ _ hne
  | burnToAddress toAddr proof nullifier value source sig hkind hamount _ =>
    exact Persists.of_vacant rfl hkind hamount fun c hne => registeredBurn_setBurn s _ _ hne
  | burnToRouter msgHash proof nullifier value source sig router routerCalldata returnAddress
      hkind hamount _ =>
    refine Persists.of_vacant rfl hkind hamount fun c hne => ?_
    exact registeredBurn_congr (Function.update_of_ne hne _ _) rfl (Function.update_of_ne hne _ _)

/-- The amount that a burn is executed for is the registered one. -/
theorem executeBurn_registered (routerCall : Address → Bytes → Element → RollupM τ Bool)
    {n amount v : Element} {t : Rollup τ}
    (hexecuted : Commits (executeBurn env routerCall n amount) s (true, true) t)
    (hregistered : registeredBurn s n = some v) : v = amount := by
  unfold registeredBurn at hregistered
  rcases executeBurn_amount env _ _ routerCall n amount hexecuted with
    ⟨hkind, hne, hsame⟩ | ⟨hkind, hsame⟩
  · rw [if_pos hkind, if_neg hne] at hregistered
    exact (Option.some.inj hregistered).symm.trans hsame
  · rw [hkind, if_neg (by decide), if_pos rfl] at hregistered
    exact (Option.some.inj hregistered).symm.trans hsame

/-- A substitution keeps the amount of the burn. -/
theorem persists_admissible : Admissible env Persists := by
  refine ⟨fun s chain => Persists.of_same rfl rfl rfl rfl, fun s s' h => registers_persists h, ?_⟩
  intro routerCall hrouter sender n amount s s' hsubstitutes
  obtain ⟨chain, t, hexecuted, rfl⟩ := hsubstitutes.executed
  have hburn : Respects Persists (executeBurn env routerCall n amount) :=
    respects_executeBurn routerCall (fun _ _ => Persists.of_same rfl rfl rfl rfl) hrouter n amount
  have ht := hburn.relates _ _ _ hexecuted
  refine ⟨ht.mints, fun c v hv hregistered => ?_⟩
  by_cases heq : c = n
  · have hamount : v = amount := by
      rw [heq] at hregistered
      exact executeBurn_registered routerCall hexecuted hregistered
    subst heq hamount
    exact registeredBurn_direct _ c ⟨sender, v⟩ (Function.update_self c 0#256 t.burnsKind)
      (Function.update_self c _ t.burns) hv
  · rw [registeredBurn_setBurn t _ _ heq]
    exact ht.burns c v hv hregistered

variable (routers : Routers τ) (depth : ℕ)

theorem persists_verifyTxns (pairs : List (Element × Element)) :
    Respects Persists (pairs.forM fun pair =>
      verifyTxn env (routerCallAt env routers depth) pair.1 pair.2) := by
  apply respects_forM
  intro pair _
  exact respects_verifyTxn _ (fun _ _ => Persists.of_same rfl rfl rfl rfl)
    (fun _ _ => Persists.of_same rfl rfl rfl rfl)
    (persists_admissible.routerCallAt routers depth) _ _

/-- No call takes away a registered amount. -/
theorem persists_call {sender : Address} {c : Call τ}
    (h : Calls env (routerCallAt env routers depth) sender s c s') : Persists s s' := by
  cases h with
  | request r _ hrequest =>
    exact (persists_admissible.request _ (persists_admissible.routerCallAt routers depth) sender
      r).relates _ _ _ hrequest
  | verifyBlock2 args _ hblock =>
    obtain ⟨t, hexecuted, -, rfl⟩ := (verifyBlock2_verifies env _ sender args s _ hblock).executed
    have hpairs : Respects Persists ([0, 3, 6, 9, 12, 15].forM fun i =>
        verifyTxn env (routerCallAt env routers depth) (args.utxoHash (i + 1))
          (args.utxoHash (i + 2))) :=
      persists_verifyTxns routers depth ([0, 3, 6, 9, 12, 15].map fun i =>
        (args.utxoHash (i + 1), args.utxoHash (i + 2)))
    have ht := hpairs.relates _ _ _ hexecuted
    exact ⟨ht.mints, ht.burns⟩
  | setRoot newRoot => exact Persists.of_same rfl rfl rfl rfl
  | setValidators validFrom validators => exact Persists.of_same rfl rfl rfl rfl
  | settings c chain owner provers routerWhitelist gasPerRouterCall =>
    exact Persists.of_same rfl rfl rfl rfl

theorem persists_run (txs : List (Address × Call τ)) (s : Rollup τ) :
    Persists s (runCalls env routers depth s txs) := by
  refine runCalls_keeps env routers depth (Persists s) ?_ txs s (refl_of Persists s)
  intro sender c t t' ht hcall
  exact trans_of Persists ht (persists_call routers depth hcall)

/-- What is registered after some of the transactions is registered after all of them. -/
theorem persists_take (txs : List (Address × Call τ)) (k : ℕ) (s : Rollup τ) :
    Persists (runCalls env routers depth s (txs.take k)) (runCalls env routers depth s txs) := by
  have hsplit : runCalls env routers depth s txs =
      runCalls env routers depth (runCalls env routers depth s (txs.take k)) (txs.drop k) := by
    rw [runCalls, runCalls, runCalls, ← List.foldl_append, List.take_append_drop]
  rw [hsplit]
  exact persists_run routers depth _ _

end Persistence

section Hashes

variable {O : HashOracle Fr} (hnull : O.NoNullPreimage) {c v : Fr}

include hnull in
theorem commitmentOf_ne_zero (h : CommitmentOf O c v) (hv : v ≠ 0) : c ≠ 0 := by
  obtain ⟨cells, version, hopens, rfl, rfl⟩ := h
  exact fun hzero => hv ((opens_cm_eq_zero hnull hopens).mp hzero)

include hnull in
theorem nullifierOf_ne_zero (h : NullifierOf O c v) : c ≠ 0 := by
  obtain ⟨cells, version, secretKey, -, hmem, rfl, -⟩ := h
  exact hnull _ hmem

theorem eq_submitted (leaf e : Element) (hlt : leaf.toNat < modulus)
    (h : leaf.toBase = e.toBase) : leaf = submitted e := by
  rw [submitted, ← h, Element.fromBase_toBase leaf hlt]

theorem submitted_zero : submitted 0#256 = 0#256 :=
  Element.fromBase_toBase Element.zero modulus_prime.pos

end Hashes

section Backing

variable {O : HashOracle Fr} (hO : O.CollisionFree) (hnull : O.NoNullPreimage)
  {env : Externals τ} (hsound : ContractSound O env) {s : Rollup τ}

include hnull hsound in
/-- Nothing is ever registered for the hash zero. -/
theorem zero_not_registered (hs : Registered env s) (v : Element) (hv : v ≠ 0#256) :
    ¬(s.mints 0#256 = v ∨ registeredBurn s 0#256 = some v) := by
  have hzero : Element.toBase 0#256 = 0 := Element.toBase_zero
  rintro (hmint | hburn)
  · have hne : s.mints 0#256 ≠ 0#256 := by rwa [hmint]
    obtain ⟨hlt, hproves⟩ := (hs.minted 0#256 hne).proves hsound
    rw [hmint] at hlt hproves
    have hvalue : v.toBase ≠ 0 := by
      intro heq
      exact hv (Element.toBase_inj v 0#256 hlt modulus_prime.pos (heq.trans hzero.symm))
    exact commitmentOf_ne_zero hnull hproves.commitmentOf hvalue hzero
  · obtain ⟨-, hproves⟩ := burnVerified_proves hsound (hs.burnVerified 0#256 v hburn)
    exact nullifierOf_ne_zero hnull hproves.nullifierOf hzero

theorem registeredBurn_of_hasBurn (hs : Registered env s) (c : Element)
    (h : s.hasBurn c = true) : ∃ v, registeredBurn s c = some v := by
  unfold registeredBurn
  rcases hs.kinds c with hkind | hkind
  · rw [Rollup.hasBurn, if_pos hkind] at h
    rw [if_pos hkind, if_neg (of_decide_eq_true h)]
    exact ⟨_, rfl⟩
  · rw [hkind, if_neg (by decide), if_pos rfl]
    exact ⟨_, rfl⟩

variable (utxo : UtxoProof)
  (hutxo : UtxoProves O D (fieldInstances utxo) utxo.mbHash.toBase utxo.mbValue.toBase)
  (hvalue : submitted utxo.mbValue ≠ 0#256)

include hsound hO hnull hutxo hvalue in
/-- A registered transaction passes every check of the contract. -/
theorem processed_of_registered (routers : Routers τ) (depth : ℕ) (hs : Registered env s)
    (hpattern : MintPattern (fieldInstances utxo) ∨ BurnPattern (fieldInstances utxo))
    (hregistered : s.mints (submitted utxo.mbHash) = submitted utxo.mbValue ∨
      registeredBurn s (submitted utxo.mbHash) = some (submitted utxo.mbValue)) :
    ∀ e, Reverts (verifyTxn env (routerCallAt env routers depth) (submitted utxo.mbHash)
      (submitted utxo.mbValue)) s e → TokenReverts env e := by
  intro e hreverts
  obtain ⟨-, hreason, htoken⟩ := verifyTxn_fails _ (routerCallAt_total routers depth) _ _ hreverts
  rcases htoken with htoken | ⟨text, rfl⟩
  · exact htoken
  exfalso
  obtain ⟨hmintAmount, hburnAmount⟩ :=
    amount_checks_pass hsound hO hnull hs utxo hutxo hvalue hpattern hreason
  cases hreason with
  | mintAmount _ _ => exact hmintAmount rfl
  | burnAmount _ _ _ _ => exact hburnAmount rfl
  | routerAmount _ _ _ => exact hburnAmount rfl
  | notFound hmint hkind hamount =>
    rcases hregistered with hregistered | hregistered
    · exact hvalue (hregistered.symm.trans hmint)
    · rw [registeredBurn_vacant hkind hamount] at hregistered
      cases hregistered

include hsound hO hnull hutxo hvalue in
/-- What the contract answered was registered with the value of the transaction, under a leaf. -/
theorem known_registered (known : Rollup τ) (hknown : Registered env known)
    (contract : ContractView) (height : ℕ)
    (hmints : ∀ c m, contract.getMint height c = some m → m = known.getMint c)
    (hburns : ∀ c b, contract.hasBurn height c = some b → b = known.hasBurn c)
    (hsized : ∀ leaf ∈ utxo.leaves, leaf.toNat < modulus)
    (hcheck : checkContract contract height utxo = .ok ()) :
    (known.mints (submitted utxo.mbHash) = submitted utxo.mbValue ∨
      registeredBurn known (submitted utxo.mbHash) = some (submitted utxo.mbValue)) ∧
      submitted utxo.mbHash ∈ utxo.leaves ∧ submitted utxo.mbHash ≠ 0#256 := by
  have hw := submitted_ne_zero _ hvalue
  have hpattern := checkContract_pattern contract height utxo hcheck
  have hamount := fun v => verified_amount hsound hO hnull utxo v hutxo hvalue hpattern
  rcases checkContract_registered contract height utxo hcheck with
    ⟨hmint, mint, hnonzero, hanswer⟩ | ⟨hburn, hanswer⟩
  · obtain ⟨hcommitment, hleaf⟩ := hutxo.commitmentOf hnull hw hmint
    have hhash : utxo.outputLeaves.1 = submitted utxo.mbHash :=
      eq_submitted _ _ (hsized _ (by simp [UtxoProof.leaves])) (Option.some.inj hleaf)
    have hne := hmints _ _ hanswer
    rw [hhash] at hne
    have hregistered : known.mints (submitted utxo.mbHash) ≠ 0#256 := by
      intro hzero
      exact hnonzero (hne.trans hzero)
    have hvalid := hamount _ (Or.inl (hknown.minted _ hregistered))
    refine ⟨Or.inl hvalid, ?_, ?_⟩
    · simp [UtxoProof.leaves, ← hhash]
    · intro hzero
      rw [hzero] at hregistered hvalid
      exact zero_not_registered hnull hsound hknown _ hvalue (Or.inl hvalid)
  · obtain ⟨hnullifier, hleaf⟩ := hutxo.nullifierOf hnull hw hburn
    have hhash : utxo.inputLeaves.1 = submitted utxo.mbHash :=
      eq_submitted _ _ (hsized _ (by simp [UtxoProof.leaves])) (Option.some.inj hleaf)
    have hfound := hburns _ _ hanswer
    rw [hhash] at hfound
    obtain ⟨v, hv⟩ := registeredBurn_of_hasBurn hknown _ hfound.symm
    have hvalid := hamount v (Or.inr (hknown.burnVerified _ v hv))
    rw [hvalid] at hv
    refine ⟨Or.inr hv, ?_, ?_⟩
    · simp [UtxoProof.leaves, ← hhash]
    · intro hzero
      rw [hzero] at hv
      exact zero_not_registered hnull hsound hknown _ hvalue (Or.inr hv)

end Backing

section Admitted

/-- The contract as it answers in one state. -/
def answersOf (s : Rollup τ) (blockNumber : ℕ) : ContractView :=
  ⟨some blockNumber, fun _ c => some (s.getMint c), fun _ c => some (s.hasBurn c)⟩

/-- At every height the contract answers from a state it had after some of the transactions. -/
def AnswersFrom (env : Externals τ) (routers : Routers τ) (depth : ℕ) (start : Rollup τ)
    (history : List (Address × Call τ)) (contract : ContractView) : Prop :=
  ∀ height, ∃ k, let known := runCalls env routers depth start (history.take k)
    (∀ c mint, contract.getMint height c = some mint → mint = known.getMint c) ∧
      ∀ c found, contract.hasBurn height c = some found → found = known.hasBurn c

theorem answersOf_run (env : Externals τ) (routers : Routers τ) (depth : ℕ) (start : Rollup τ)
    (history : List (Address × Call τ)) (blockNumber : ℕ) :
    AnswersFrom env routers depth start history
      (answersOf (runCalls env routers depth start history) blockNumber) := by
  intro height
  refine ⟨history.length, ?_⟩
  rw [List.take_length]
  exact ⟨fun c mint h => (Option.some.inj h).symm, fun c found h => (Option.some.inj h).symm⟩

/-- A transaction with a value that a node admits is registered, unspent and can be processed
exactly if it names its hash and the node is not behind the contract on that hash. -/
theorem backed_iff (O : HashOracle Fr) (hO : O.CollisionFree) (hnull : O.NoNullPreimage)
    (env : Externals τ) (hsound : ContractSound O env) (nodeEnv : NodeEnv)
    (routers : Routers τ) (depth : ℕ) (chain : τ) (owner prover : Address)
    (initialValidators : List Address) (emptyRoot : Element)
    (history : List (Address × Call τ)) (contract : ContractView)
    (hanswers : AnswersFrom env routers depth
      (initialState chain owner prover initialValidators emptyRoot) history contract)
    (utxo : UtxoProof) (haccepts : UtxoAccepts O D (fieldInstances utxo)) (mode : Mode)
    (safeEthHeightOffset height : ℕ) (store : BlockStore) (tree : Tree D)
    (hadmitted : validateTransaction nodeEnv mode safeEthHeightOffset contract utxo height store
      tree = .ok ())
    (blockHeight : Element) (earlier : List (Element × Element)) (s : Rollup τ)
    (hearlier : Commits (earlier.forM fun pair =>
        verifyTxn env (routerCallAt env routers depth) pair.1 pair.2)
      ((runCalls env routers depth (initialState chain owner prover initialValidators emptyRoot)
        history).updateValidatorSetIndex blockHeight) () s) :
    (submitted utxo.mbValue ≠ 0#256 → Backed env (routerCallAt env routers depth) s
      (submitted utxo.mbHash) (submitted utxo.mbValue)) ↔
    submitted utxo.mbValue = 0#256 ∨ utxo.mbHash ≠ 0#256 ∧
      (s.rolledUpLeafs (submitted utxo.mbHash) = true →
        tree.containsElement (submitted utxo.mbHash) = true) := by
  have hafter : ∀ txs, Registered env (runCalls env routers depth
      (initialState chain owner prover initialValidators emptyRoot) txs) := fun txs =>
    registered_run depth routers txs
      (registered_initial chain owner prover initialValidators emptyRoot)
  have hnow := hafter history
  have hpairs : Respects (Keeps env) (earlier.forM fun pair =>
      verifyTxn env (routerCallAt env routers depth) pair.1 pair.2) :=
    keeps_verifyTxns (keeps_admissible.routerCallAt routers depth) earlier
  have hs : Registered env s := hpairs.relates _ _ _ hearlier
    ⟨hnow.minted, hnow.burned, hnow.routed, hnow.kinds⟩
  have hblock := (persists_verifyTxns routers depth earlier).relates _ _ _ hearlier
  by_cases hvalue : submitted utxo.mbValue = 0#256
  · exact iff_of_true (fun h => absurd hvalue h) (Or.inl hvalue)
  rw [or_iff_right hvalue]
  constructor
  · intro hbacked
    obtain ⟨hregistered, hunspent, -⟩ := hbacked hvalue
    refine ⟨fun hzero => ?_, fun hspent => ?_⟩
    · rw [hzero, submitted_zero] at hregistered
      exact zero_not_registered hnull hsound hs _ hvalue hregistered
    · rw [hunspent] at hspent
      cases hspent
  · rintro ⟨hhash, hsynchronised⟩ -
    obtain ⟨hvalid, hknown⟩ := validateTransaction_ok mode safeEthHeightOffset contract utxo
      height store tree hadmitted
    have hnonzero : utxo.mbValue ≠ 0#256 := by
      intro hzero
      rw [hzero, submitted_zero] at hvalue
      exact hvalue rfl
    obtain ⟨ethBlock, -, hcheck⟩ := hknown hhash hnonzero
    have hutxo : UtxoProves O D (fieldInstances utxo) utxo.mbHash.toBase utxo.mbValue.toBase :=
      ⟨haccepts, rfl, rfl⟩
    obtain ⟨k, hmints, hburns⟩ := hanswers (ethBlock - safeEthHeightOffset)
    obtain ⟨hthen, hleaf, hne⟩ := known_registered hO hnull hsound utxo hutxo hvalue _
      (hafter (history.take k)) contract _ hmints hburns hvalid.sized hcheck
    have hlater : Persists _ (runCalls env routers depth
        (initialState chain owner prover initialValidators emptyRoot) history) :=
      persists_take routers depth history k _
    have hregistered : s.mints (submitted utxo.mbHash) = submitted utxo.mbValue ∨
        registeredBurn s (submitted utxo.mbHash) = some (submitted utxo.mbValue) :=
      hblock.registered hvalue (hlater.registered hvalue hthen)
    refine ⟨hregistered, ?_, ?_⟩
    · cases hspent : s.rolledUpLeafs (submitted utxo.mbHash) with
      | false => rfl
      | true =>
        have hfresh := hvalid.fresh _ hleaf hne
        rw [hsynchronised hspent] at hfresh
        cases hfresh
    · exact processed_of_registered hO hnull hsound utxo hutxo hvalue routers depth hs
        (checkContract_pattern contract _ utxo hcheck) hregistered

/-- A mint of 5 whose first output is padding. -/
def hiddenCells : UtxoCells where
  unverifiedRoot := 0
  utxoKind := 2
  inputs := [paddingInput, paddingInput]
  outputs := [paddingCells, fiveCells]

theorem hiddenCells_constrained : Constrained fewMessages 1 [0, 0, 5, 0, 0, 0, 4] hiddenCells := by
  refine ⟨rfl, rfl, ?_, ?_, by decide, ?_, by decide, by decide, ?_⟩
  · simp only [hiddenCells, List.forall_mem_cons]
    exact ⟨paddingInput_constrained, paddingInput_constrained, by simp⟩
  · simp only [hiddenCells, List.forall_mem_cons]
    exact ⟨paddingCells_constrained, fiveCells_constrained, by simp⟩
  · simp [hiddenCells, paddingInput]
  · simp only [hiddenCells, UtxoCells.nullifiers, UtxoCells.commitments]
    decide

def hiddenMint : UtxoProof := ⟨0#256, 0#256, 5#256, (0#256, 0#256), (0#256, 4#256), []⟩

theorem hiddenMint_fields : fieldInstances hiddenMint = [0, 0, 5, 0, 0, 0, 4] := by
  unfold fieldInstances
  decide

theorem hiddenMint_accepted : UtxoAccepts fewMessages 1 (fieldInstances hiddenMint) := by
  rw [hiddenMint_fields]
  exact (utxoAccepts_iff _ _ _).mpr ⟨hiddenCells, hiddenCells_constrained⟩

/-- A node whose verifier accepts the UTXO proof of that mint. -/
def hidingNode : NodeEnv :=
  { BlockCommit.trustingEnv with
    verifyProof := fun instances _ => some (decide (instances = [0, 0, 5, 0, 0, 0, 4])) }

theorem hiddenMint_admitted (contract : ContractView) :
    validateTransaction hidingNode .node 0 contract hiddenMint 1 BlockStore.empty (Tree.new 1) =
      .ok () := by
  have hhidden : ¬(hiddenMint.mbHash ≠ 0#256 ∧ hiddenMint.mbValue ≠ 0#256) := by decide
  have hverified : hiddenMint.verify hidingNode = some true :=
    congrArg some (decide_eq_true hiddenMint_fields)
  have hsized : ∀ leaf ∈ hiddenMint.leaves, leaf.toNat < modulus := by
    simp only [hiddenMint, UtxoProof.leaves, List.forall_mem_cons]
    have hzero : (0#256).toNat < modulus := modulus_prime.pos
    have hfour : (4#256).toNat < modulus := by
      have hbig : 4 < modulus := by decide
      simpa using hbig
    exact ⟨hzero, hzero, hzero, hfour, by simp⟩
  have hempty : (Tree.new 1).entries = [] := by decide
  have hvalid : ValidTxn hidingNode .node hiddenMint 1 BlockStore.empty (Tree.new 1) := by
    refine ⟨hverified, Or.inl rfl, hsized, fun leaf _ _ => ?_⟩
    rw [Tree.containsElement, hempty]
    exact decide_eq_false List.not_mem_nil
  unfold validateTransaction
  rw [(validateTxn_ok _ _ _ _ _).mpr hvalid, if_neg hhidden]

/-- A node admits a mint of 5 that nobody registered, and the contract cannot verify it. -/
theorem backed_not_hidden :
    let s := runCalls mintingEnv noRouters 0 (initialState () 7#160 2#160 [1#160] 0#256) []
    UtxoAccepts fewMessages 1 (fieldInstances hiddenMint) ∧
      validateTransaction hidingNode .node 0 (answersOf s 1) hiddenMint 1 BlockStore.empty
        (Tree.new 1) = .ok () ∧
      submitted hiddenMint.mbValue = 5#256 ∧ submitted hiddenMint.mbHash = 0#256 ∧
      s.mints 0#256 = 0#256 ∧ registeredBurn s 0#256 = none ∧
      Reverts (verifyTxn mintingEnv (routerCallAt mintingEnv noRouters 0)
        (submitted hiddenMint.mbHash) (submitted hiddenMint.mbValue)) s
        (.reason "RollupV6: Burn was not found") := by
  have hvalue : submitted hiddenMint.mbValue = 5#256 := by decide
  have hhash : submitted hiddenMint.mbHash = 0#256 := submitted_zero
  refine ⟨hiddenMint_accepted, hiddenMint_admitted _, hvalue, hhash, rfl, rfl, ?_⟩
  rw [hvalue, hhash]
  rfl

theorem mintOfFive_accepted : UtxoAccepts fewMessages 1 (fieldInstances mintOfFive) := by
  have hfields : fieldInstances mintOfFive = [0, 4, 5, 0, 0, 4, 0] := mintOfFive_fields
  rw [hfields]
  exact (utxoAccepts_iff _ _ _).mpr ⟨mintCells, mintCells_constrained⟩

/-- A mint of 5 that is registered first is backed. -/
theorem backed_iff_registered :
    let s := runCalls mintingEnv noRouters 0 (initialState () 7#160 2#160 [1#160] 0#256) mintTxs
    validateTransaction mintingNode .node 0 (answersOf s 1) mintOfFive 1 BlockStore.empty
        (Tree.new 1) = .ok () ∧
      Backed mintingEnv (routerCallAt mintingEnv noRouters 0) (s.updateValidatorSetIndex 0#256)
        (submitted mintOfFive.mbHash) (submitted mintOfFive.mbValue) := by
  intro s
  have hanswer : (answersOf s 1).getMint 1 4#256 = some 5#256 := congrArg some mintTxs_mints
  have hadmitted := mintOfFive_admitted (answersOf s 1) rfl hanswer
  have hnone : Commits (List.forM [] fun pair : Element × Element =>
      verifyTxn mintingEnv (routerCallAt mintingEnv noRouters 0) pair.1 pair.2)
      (s.updateValidatorSetIndex 0#256) () (s.updateValidatorSetIndex 0#256) :=
    (commits_pure _ _ _ _).mpr ⟨rfl, rfl⟩
  have hbacked := backed_iff fewMessages (HashOracle.ofDecoder_collisionFree fewHash fewDecode)
    fewMessages_nonNull mintingEnv mintingEnv_sound mintingNode noRouters 0 () 7#160 2#160 [1#160]
    0#256 mintTxs (answersOf s 1) (answersOf_run _ _ _ _ _ _) mintOfFive mintOfFive_accepted .node
    0 1 BlockStore.empty (Tree.new 1) hadmitted 0#256 [] _ hnone
  have hnamed : mintOfFive.mbHash ≠ 0#256 := by decide
  have hvalue : submitted mintOfFive.mbValue ≠ 0#256 := by decide
  refine ⟨hadmitted, hbacked.mpr (Or.inr ⟨hnamed, fun hspent => ?_⟩) hvalue⟩
  have hunspent : (s.updateValidatorSetIndex 0#256).rolledUpLeafs (submitted mintOfFive.mbHash) =
      false := by decide
  rw [hunspent] at hspent
  cases hspent

end Admitted

end PayyRollup.DepositBacking
