import PayyRollup.PaymentEffects

/-!
The roots that the contract records. Only a block verification and the owner's `setRoot` write
the ring of roots. A verification compares its old root with the current one, then executes
its transactions, which may call routers, and records its new root without comparing again. So
the log of recorded roots also tells which root was current when a block recorded its own.
Where that is still its old root, the recorded blocks follow each other, whatever the routers
do.
-/
namespace PayyRollup.RecordedRoots

open ScalarField VerifierContracts Transactions RollupState RollupCalls RollupEffects CallBacks
  PaymentLog PaymentEffects

section Ring

variable {τ : Type}

/-- The two states hold the same ring of roots. -/
structure SameRoots (s s' : Rollup τ) : Prop where
  roots : s'.rootHashes = s.rootHashes
  next : s'.nextRootHashIndex = s.nextRootHashIndex

instance : IsPreorder (Rollup τ) SameRoots where
  refl := fun _ => ⟨rfl, rfl⟩
  trans := fun _ _ _ h h' => ⟨h'.roots.trans h.roots, h'.next.trans h.next⟩

theorem SameRoots.current {s s' : Rollup τ} (h : SameRoots s s') :
    s'.currentRootHash = s.currentRootHash := by
  unfold Rollup.currentRootHash
  rw [h.roots, h.next]

theorem currentRootIndex_succ (next : Fin 64) : currentRootIndex (next + 1) = next := by
  have hadd : (next + 1).val = (next.val + 1) % 64 := Fin.val_add _ _
  unfold currentRootIndex
  split
  · apply Fin.ext
    dsimp only
    omega
  · apply Fin.ext
    change 63 = next.val
    omega

theorem addRootHash_current (s : Rollup τ) (rootHash : Element) :
    (s.addRootHash rootHash).currentRootHash = rootHash := by
  unfold Rollup.currentRootHash Rollup.addRootHash
  dsimp only
  rw [currentRootIndex_succ, Function.update_self]

/-- The root before the current one. -/
def previousRootHash (s : Rollup τ) : Element :=
  s.rootHashes (currentRootIndex (currentRootIndex s.nextRootHashIndex))

theorem SameRoots.previous {s s' : Rollup τ} (h : SameRoots s s') :
    previousRootHash s' = previousRootHash s := by
  unfold previousRootHash
  rw [h.roots, h.next]

theorem currentRootIndex_ne (next : Fin 64) : currentRootIndex next ≠ next := by
  intro h
  have hval := congrArg Fin.val h
  unfold currentRootIndex at hval
  split at hval
  · dsimp only at hval
    omega
  · change 63 = next.val at hval
    omega

theorem addRootHash_previous (s : Rollup τ) (rootHash : Element) :
    previousRootHash (s.addRootHash rootHash) = s.currentRootHash := by
  unfold previousRootHash Rollup.currentRootHash Rollup.addRootHash
  dsimp only
  rw [currentRootIndex_succ, Function.update_of_ne (currentRootIndex_ne _)]

variable (env : Externals τ)

theorem sameRoots_admissible : Admissible env SameRoots := by
  refine ⟨fun s chain => ⟨rfl, rfl⟩, ?_, ?_⟩
  · intro s s' h
    cases h with
    | mint => exact ⟨rfl, rfl⟩
    | burn => exact ⟨rfl, rfl⟩
    | burnToAddress => exact ⟨rfl, rfl⟩
    | burnToRouter => exact ⟨rfl, rfl⟩
  · intro routerCall hrouter sender nullifier amount s s' h
    obtain ⟨chain, t, hexecuted, rfl⟩ := h.executed
    have hburn : Respects SameRoots (executeBurn env routerCall nullifier amount) :=
      respects_executeBurn routerCall (fun _ _ => ⟨rfl, rfl⟩) hrouter nullifier amount
    have hsame := hburn.relates _ _ _ hexecuted
    exact ⟨hsame.roots, hsame.next⟩

section Calls

variable (routerCall : Address → Bytes → Element → RollupM τ Bool)
  (hrouter : ∀ router routerCalldata gas,
    Respects SameRoots (routerCall router routerCalldata gas))

/-- A guard of the owner before a write that leaves the roots alone. -/
theorem respects_owner (sender : Address) (x : RollupM τ Unit) (hx : Respects SameRoots x) :
    Respects SameRoots (onlyOwner sender >>= fun _ => x) := by
  apply respects_bind _ _ _ fun _ => hx
  apply respects_bind _ _ respects_get
  intro s
  exact respects_require _ _

include hrouter in
/-- Every other call leaves the roots alone. -/
theorem call_sameRoots (sender : Address) (c : Call τ) (hblock : ∀ args, c ≠ .verifyBlock2 args)
    (hroot : ∀ r, c ≠ .setRoot r) :
    Respects SameRoots (call env routerCall sender c) := by
  have hmodify : ∀ f : Rollup τ → Rollup τ, (∀ s, SameRoots s (f s)) →
      Respects SameRoots (modify f : RollupM τ PUnit) := fun f hf => respects_modify f hf
  cases c with
  | request r =>
    exact (sameRoots_admissible env).request _ hrouter sender r
  | verifyBlock2 args => exact absurd rfl (hblock args)
  | setRoot r => exact absurd rfl (hroot r)
  | setValidators validFrom validators =>
    refine ⟨fun s u s' h => ?_⟩
    change Commits (setValidators sender validFrom validators) s u s' at h
    unfold setValidators onlyOwner at h
    simp only [commits_bind, commits_get, commits_require, commits_set] at h
    obtain ⟨_, _, ⟨_, _, ⟨rfl, rfl⟩, -, rfl⟩, _, _, ⟨rfl, rfl⟩, _, _, ⟨-, rfl⟩, _, _, ⟨-, rfl⟩,
      rfl⟩ := h
    exact ⟨rfl, rfl⟩
  | addProver prover => exact respects_owner sender _ (hmodify _ fun _ => ⟨rfl, rfl⟩)
  | addRouter router =>
    refine ⟨fun s u s' h => ?_⟩
    simp only [call, onlyOwner, commits_bind, commits_get, commits_require, commits_set] at h
    obtain ⟨_, _, ⟨_, _, ⟨rfl, rfl⟩, -, rfl⟩, _, _, ⟨rfl, rfl⟩, _, _, ⟨-, rfl⟩, rfl⟩ := h
    exact ⟨rfl, rfl⟩
  | removeRouter router => exact respects_owner sender _ (hmodify _ fun _ => ⟨rfl, rfl⟩)
  | setGasPerRouterCall gas => exact respects_owner sender _ (hmodify _ fun _ => ⟨rfl, rfl⟩)
  | transferOwnership newOwner =>
    apply respects_owner sender
    apply respects_bind _ _ (respects_require _ _)
    intro _
    exact hmodify _ fun _ => ⟨rfl, rfl⟩
  | renounceOwnership => exact respects_owner sender _ (hmodify _ fun _ => ⟨rfl, rfl⟩)
  | world effect => exact hmodify _ fun _ => ⟨rfl, rfl⟩

end Calls

variable (routers : Routers τ) (depth : ℕ)

/-- The transactions of a block leave the roots alone. -/
theorem verifyTxns_sameRoots (args : BlockArgs) :
    Respects SameRoots ([0, 3, 6, 9, 12, 15].forM fun i =>
      verifyTxn env (routerCallAt env routers depth) (args.utxoHash (i + 1))
        (args.utxoHash (i + 2))) := by
  apply respects_forM
  intro i hi
  exact respects_verifyTxn _ (fun _ _ => ⟨rfl, rfl⟩) (fun _ _ => ⟨rfl, rfl⟩)
    ((sameRoots_admissible env).routerCallAt routers depth) _ _

/-- A block verification adds its new root to the ring and nothing else. -/
theorem verifyBlock2_roots (sender : Address) (args : BlockArgs) (s s' : Rollup τ)
    (h : Commits (verifyBlock2 env (routerCallAt env routers depth) sender args) s () s') :
    SameRoots (s.addRootHash args.newRoot) s' := by
  have hverifies := verifyBlock2_verifies env _ sender args s s' h
  obtain ⟨t, hexecuted, -, rfl⟩ := hverifies.executed
  have hsame := (verifyTxns_sameRoots env routers depth args).relates _ _ _ hexecuted
  have hroots : t.rootHashes = s.rootHashes := hsame.roots
  have hnext : t.nextRootHashIndex = s.nextRootHashIndex := hsame.next
  constructor
  · change Function.update t.rootHashes t.nextRootHashIndex args.newRoot =
      Function.update s.rootHashes s.nextRootHashIndex args.newRoot
    rw [hroots, hnext]
  · change t.nextRootHashIndex + 1 = s.nextRootHashIndex + 1
    rw [hnext]

/-- A transaction verifies a block and adds its root, or leaves the roots alone. -/
theorem step_cases (s : Rollup τ) (tx : Address × Call τ) (hroot : ∀ r, tx.2 ≠ .setRoot r) :
    (acceptedBlock env routers depth s tx = none ∧
        SameRoots s (step env routers depth s tx)) ∨
      ∃ args, acceptedBlock env routers depth s tx = some args ∧
        VerifiesBlock env (routerCallAt env routers depth) tx.1 args s
          (step env routers depth s tx) ∧
        SameRoots (s.addRootHash args.newRoot) (step env routers depth s tx) := by
  obtain ⟨sender, c⟩ := tx
  unfold acceptedBlock step
  cases hcall : call env (routerCallAt env routers depth) sender c s with
  | error reason =>
    exact Or.inl ⟨rfl, refl_of SameRoots s⟩
  | ok result =>
    obtain ⟨u, s'⟩ := result
    by_cases hblock : ∃ args, c = .verifyBlock2 args
    · obtain ⟨args, rfl⟩ := hblock
      exact Or.inr ⟨args, rfl, verifyBlock2_verifies env _ sender args s s' hcall,
        verifyBlock2_roots env routers depth sender args s s' hcall⟩
    · refine Or.inl ⟨?_, ?_⟩
      · cases c with
        | verifyBlock2 args => exact absurd ⟨args, rfl⟩ hblock
        | _ => rfl
      · have hsame := call_sameRoots env _
          ((sameRoots_admissible env).routerCallAt routers depth) sender c
          (fun args h => hblock ⟨args, h⟩) hroot
        exact hsame.relates s u s' hcall

theorem acceptedBlocks_concat (s : Rollup τ) (txs : List (Address × Call τ))
    (tx : Address × Call τ) :
    acceptedBlocks env routers depth s (txs ++ [tx]) =
      acceptedBlocks env routers depth s txs ++
        (acceptedBlock env routers depth (runCalls env routers depth s txs) tx).toList := by
  induction txs generalizing s with
  | nil => simp [acceptedBlocks, runCalls]
  | cons first rest ih =>
    rw [List.cons_append, acceptedBlocks, ih, acceptedBlocks, List.append_assoc]
    rfl

theorem runCalls_concat (s : Rollup τ) (txs : List (Address × Call τ)) (tx : Address × Call τ) :
    runCalls env routers depth s (txs ++ [tx]) =
      step env routers depth (runCalls env routers depth s txs) tx := by
  rw [runCalls, List.foldl_append]
  rfl

end Ring

section Log

/-- A recorded root: of a block, with the root that was current before, or of the owner. -/
inductive RootEntry
  | block (args : BlockArgs) (found : Element)
  | set (newRoot : Element)
  deriving DecidableEq

/-- Payments are not noted here. -/
instance notes_roots : Notes (List RootEntry) := ⟨fun log _ => log⟩

abbrev Rooted (τ : Type) := Rollup τ × List RootEntry

abbrev RootedM (τ α : Type) := Transaction Revert (Rooted τ) α

variable {τ α : Type}

def noteRoot (e : RootEntry) : RootedM τ Unit := modify fun p => (p.1, p.2 ++ [e])

variable (env : Externals τ)

/-- No router is called after the new root of a block is recorded. -/
def rootedCall (router : Address × Bytes × Element → RootedM τ Bool) (sender : Address) :
    Call τ → RootedM τ Unit
  | .verifyBlock2 args => do
      loggedVerifyBlock2 env router sender args
      let s ← silently get
      noteRoot (.block args (previousRootHash s))
  | .setRoot newRoot => do
      loggedCall env router sender (.setRoot newRoot)
      noteRoot (.set newRoot)
  | c => loggedCall env router sender c

def runRooted (routers : RouterCalls τ) (depth : ℕ) (p : Rooted τ)
    (txs : List (Address × Call τ)) : Rooted τ :=
  runNested Prod.fst (rootedCall env) routers depth p txs

theorem commits_noteRoot (p p' : Rooted τ) (e : RootEntry) (u : Unit) :
    Commits (noteRoot e) p u p' ↔ p' = (p.1, p.2 ++ [e]) := commits_modify p p' _ u

theorem noteRoot_erases (e : RootEntry) :
    Erases (erasing (List RootEntry)) (noteRoot e) (pure () : RollupM τ Unit) := ⟨fun _ => rfl⟩

theorem rootedCall_erases {router : Address × Bytes × Element → RootedM τ Bool}
    {router' : Address × Bytes × Element → RollupM τ Bool}
    (hrouter : ∀ args, Erases (erasing (List RootEntry)) (router args) (router' args))
    (sender : Address) (c : Call τ) :
    Erases (erasing (List RootEntry)) (rootedCall env router sender c)
      (nestedCall env router' sender c) := by
  have hlogged := loggedCall_erases env hrouter sender c
  cases c with
  | verifyBlock2 args =>
    apply bind_pure_erases hlogged
    exact ⟨fun _ => rfl⟩
  | setRoot newRoot => exact bind_pure_erases hlogged (noteRoot_erases _)
  | _ => exact hlogged

/-- The log of roots is written beside the state of the contract. -/
theorem runRooted_state (routers : RouterCalls τ) (depth : ℕ) (s : Rollup τ)
    (log : List RootEntry) (txs : List (Address × Call τ)) :
    (runRooted env routers depth (s, log) txs).1 = runNestedCalls env routers depth s txs :=
  runNested_erases id routers (fun _ _ h sender c => rootedCall_erases env h sender c) depth
    (s, log) txs

end Log

section Steps

variable {τ α : Type} {env : Externals τ} {R : Rooted τ → Rooted τ → Prop}
  [IsPreorder (Rooted τ) R] (hR : ∀ p p', SameRoots p.1 p'.1 → p'.2 = p.2 → R p p')

theorem sameRoots_chain (s : Rollup τ) (chain : τ) : SameRoots s { s with chain } := ⟨rfl, rfl⟩

include hR in
omit [IsPreorder (Rooted τ) R] in
theorem rooted_silently (x : RollupM τ α) (hx : Respects SameRoots x) :
    Respects R (silently x) := by
  refine ⟨fun p a p' h => ?_⟩
  obtain ⟨hcommits, hlog⟩ := (commits_silently p p' x a).mp h
  exact hR p p' (hx.relates _ _ _ hcommits) hlog

theorem rooted_note (e : Entry) : Respects R (note e : NotedM τ (List RootEntry) Unit) :=
  respects_modify _ fun p => refl_of R p

include hR

theorem rooted_executeBurnToAddress (nullifier value : Element) :
    Respects R (loggedExecuteBurnToAddress env nullifier value) := by
  unfold loggedExecuteBurnToAddress
  apply respects_bind _ _ (rooted_silently hR _ respects_get)
  intro s
  apply respects_bind
  · apply rooted_silently hR
    exact respects_executeBurnToAddress sameRoots_chain _ _
  intro success
  exact respects_bind _ _ (rooted_note _) fun _ => respects_pure success

variable {router : Address × Bytes × Element → RootedM τ Bool}
  (hrouter : ∀ args, Respects R (router args))

include hrouter

theorem rooted_executeBurnToRouter (nullifier value : Element) :
    Respects R (loggedExecuteBurnToRouter env router nullifier value) := by
  have htoken : ∀ tokenFn : τ → Except Bytes τ, Respects R (silently (tokenCall tokenFn)) :=
    fun tokenFn => rooted_silently hR _ (respects_tokenCall sameRoots_chain tokenFn)
  unfold loggedExecuteBurnToRouter
  apply respects_bind _ _ (rooted_silently hR _ respects_get)
  intro s
  apply respects_bind _ _ (rooted_silently hR _ (respects_require _ _))
  intro _
  apply respects_bind _ _ (htoken _)
  intro _
  apply respects_bind
  · unfold loggedRouterCallIfWhitelisted
    apply respects_bind _ _ (rooted_silently hR _ respects_get)
    intro t
    exact respects_ite _ _ _ (hrouter _) (respects_pure false)
  intro success
  apply respects_bind _ _ (htoken _)
  intro _
  apply respects_ite
  · exact respects_bind _ _ (rooted_note _) fun _ => respects_pure true
  · apply respects_bind _ _ (rooted_silently hR _ respects_get)
    intro s'
    apply respects_ite _ _ _ (respects_pure false)
    apply respects_bind _ _ (htoken _)
    intro _
    exact respects_bind _ _ (rooted_note _) fun _ => respects_pure true

theorem rooted_executeBurn (mb value : Element) :
    Respects R (loggedExecuteBurn env router mb value) := by
  unfold loggedExecuteBurn
  apply respects_bind _ _ (rooted_silently hR _ respects_get)
  intro s
  apply respects_ite
  · apply respects_ite _ _ _ (respects_pure _)
    exact respects_bind _ _ (rooted_executeBurnToAddress hR mb value) fun _ => respects_pure _
  · apply respects_ite _ _ _ _ (respects_pure _)
    exact respects_bind _ _ (rooted_executeBurnToRouter hR hrouter mb value)
      fun _ => respects_pure _

theorem rooted_verifyTxn (mb value : Element) :
    Respects R (loggedVerifyTxn env router mb value) := by
  unfold loggedVerifyTxn
  apply respects_ite _ _ _ (respects_pure ())
  apply respects_bind
  · exact rooted_silently hR _ (respects_modify _ fun s => ⟨rfl, rfl⟩)
  intro _
  apply respects_bind _ _ (rooted_silently hR _ respects_get)
  intro s
  apply respects_ite _ _ _ (rooted_silently hR _ (respects_require _ _))
  apply respects_bind _ _ (rooted_note _)
  intro _
  apply respects_bind _ _ (rooted_executeBurn hR hrouter mb value)
  intro result
  exact rooted_silently hR _ (respects_require _ _)

theorem rooted_substituteBurn (sender : Address) (nullifier amount : Element) :
    Respects R (loggedSubstituteBurn env router sender nullifier amount) := by
  have hwrite : ∀ f : Rollup τ → Rollup τ, (∀ s, SameRoots s (f s)) →
      Respects R (silently (modify f : RollupM τ PUnit)) := fun f hf =>
    rooted_silently hR _ (respects_modify f hf)
  unfold loggedSubstituteBurn
  apply respects_bind _ _ (rooted_silently hR _ respects_get)
  intro s
  apply respects_bind _ _ (rooted_silently hR _ (respects_require _ _))
  intro _
  apply respects_bind _ _ (rooted_silently hR _ (respects_require _ _))
  intro _
  apply respects_bind _ _ (rooted_silently hR _ (respects_tokenCall sameRoots_chain _))
  intro _
  apply respects_bind _ _ (rooted_note _)
  intro _
  apply respects_bind
  · exact hwrite _ fun s => ⟨rfl, rfl⟩
  intro _
  apply respects_bind _ _ (rooted_executeBurn hR hrouter nullifier amount)
  intro result
  apply respects_bind _ _ (rooted_silently hR _ (respects_require _ _))
  intro _
  apply respects_bind _ _ _ fun _ => rooted_note _
  exact hwrite _ fun s => ⟨rfl, rfl⟩

/-- A block is verified on the current root; its transactions come before its new root. -/
theorem rooted_verifyBlock2 (sender : Address) (args : BlockArgs) (p p' : Rooted τ)
    (h : Commits (loggedVerifyBlock2 env router sender args) p () p') :
    args.oldRoot = p.1.currentRootHash ∧
      Verified env.aggregatePlonk args.aggrProof (AggregateVerifierV1.instances
        args.aggrInstances args.oldRoot args.newRoot args.utxoHashes) ∧
      ∃ t, R p t ∧ p'.2 = t.2 ∧ SameRoots (t.1.addRootHash args.newRoot) p'.1 := by
  unfold loggedVerifyBlock2 onlyProver at h
  simp only [commits_bind, commits_silently, commits_get, commits_require, commits_modify,
    commits_view, and_assoc, exists_and_left, exists_eq_left, exists_const] at h
  obtain ⟨-, q, hq, hqlog, r, hr, hrlog, u, hu, hulog, hroot, v, hv, hvlog, _, t, htxns, -, -, -,
    -, ⟨_, w, hsignatures, _, hverify, hp'⟩, hlog⟩ := h
  obtain rfl := verifySignatures_state env _ _ _ _ _ _ _ hsignatures
  have hindex : v.1 = p.1.updateValidatorSetIndex args.height := by rw [hv, hu, hr, hq]
  have hsame : SameRoots p.1 v.1 := by
    rw [hindex]
    exact ⟨rfl, rfl⟩
  have hbefore : R p v := hR p v hsame (by rw [hvlog, hulog, hrlog, hqlog])
  have hafter : R v t := by
    have hforM : Respects R ([0, 3, 6, 9, 12, 15].forM fun i =>
        loggedVerifyTxn env router (args.utxoHash (i + 1)) (args.utxoHash (i + 2))) :=
      respects_forM _ _ fun i _ => rooted_verifyTxn hR hrouter _ _
    exact hforM.relates _ _ _ htxns
  refine ⟨?_, verified_of_ok hverify, t, trans_of R hbefore hafter, hlog, ?_⟩
  · rw [hroot, hr, hq]
    rfl
  · rw [hp']
    exact ⟨rfl, rfl⟩

/-- The new root is noted with the root that was current before it. -/
theorem rooted_block (sender : Address) (args : BlockArgs) (p p' : Rooted τ)
    (h : Commits (rootedCall env router sender (.verifyBlock2 args)) p () p') :
    args.oldRoot = p.1.currentRootHash ∧
      Verified env.aggregatePlonk args.aggrProof (AggregateVerifierV1.instances
        args.aggrInstances args.oldRoot args.newRoot args.utxoHashes) ∧
      ∃ t, R p t ∧ p'.2 = t.2 ++ [.block args t.1.currentRootHash] ∧
        SameRoots (t.1.addRootHash args.newRoot) p'.1 := by
  unfold rootedCall at h
  simp only [commits_bind, commits_silently, commits_get, commits_noteRoot] at h
  obtain ⟨_, q, hblock, _, r, ⟨⟨rfl, hr⟩, hrlog⟩, rfl⟩ := h
  obtain ⟨hroot, hverified, t, ht, hlog, hrecorded⟩ :=
    rooted_verifyBlock2 hR hrouter sender args p q hblock
  have hfound : previousRootHash q.1 = t.1.currentRootHash := by
    rw [hrecorded.previous, addRootHash_previous]
  refine ⟨hroot, hverified, t, ht, ?_, ?_⟩
  · rw [hrlog, hlog, hfound]
  · rw [hr]
    exact hrecorded

theorem rooted_call (sender : Address) (c : Call τ) (hblock : ∀ args, c ≠ .verifyBlock2 args)
    (hroot : ∀ r, c ≠ .setRoot r) : Respects R (rootedCall env router sender c) := by
  have hregisters : ∀ r : Request, Respects R
      (silently (request env (fun _ _ _ => return false) sender r) >>= fun _ =>
        (registration r).forM (note : Entry → NotedM τ (List RootEntry) Unit)) := by
    intro r
    apply respects_bind
    · apply rooted_silently hR
      exact (sameRoots_admissible env).request _ (fun _ _ _ => respects_pure false) sender r
    · intro _
      exact respects_forM _ _ fun e _ => rooted_note e
  have hsettings : Respects R (silently (call env (fun _ _ _ => return false) sender c) :
      NotedM τ (List RootEntry) Unit) :=
    rooted_silently hR _
      (call_sameRoots env _ (fun _ _ _ => respects_pure false) sender c hblock hroot)
  cases c with
  | request r =>
    cases r with
    | substituteBurn nullifier amount =>
      exact rooted_substituteBurn hR hrouter sender nullifier amount
    | _ => exact hregisters _
  | verifyBlock2 args => exact absurd rfl (hblock args)
  | setRoot newRoot => exact absurd rfl (hroot newRoot)
  | _ => exact hsettings

end Steps

section Sequence

variable {τ : Type} (env : Externals τ)

/-- A verified block on the current root, whose new root is recorded. -/
structure Records (args : BlockArgs) (s s' : Rollup τ) : Prop where
  old_root : args.oldRoot = s.currentRootHash
  verified : Verified env.aggregatePlonk args.aggrProof (AggregateVerifierV1.instances
    args.aggrInstances args.oldRoot args.newRoot args.utxoHashes)
  recorded : SameRoots (s.addRootHash args.newRoot) s'

/-- Blocks that are recorded one after the other. -/
inductive Sequential (s : Rollup τ) : List BlockArgs → Rollup τ → Prop
  | same (s' : Rollup τ) : SameRoots s s' → Sequential s [] s'
  | block (before : List BlockArgs) (args : BlockArgs) (t s' : Rollup τ) :
      Sequential s before t → Records env args t s' → Sequential s (before ++ [args]) s'

def blocksOf (log : List RootEntry) : List BlockArgs :=
  log.filterMap fun e => match e with
    | .block args _ => some args
    | .set _ => none

/-- Every root is of a block that found its old root when it recorded its own. -/
def OneByOne (log : List RootEntry) : Prop := ∀ e ∈ log, ∃ args, e = .block args args.oldRoot

/-- What a call does to the roots: if every block finds its old root, blocks are recorded one
after the other. -/
structure Advances (p p' : Rooted τ) : Prop where
  logged : ∃ more, p'.2 = p.2 ++ more ∧
    (OneByOne more → Sequential env p.1 (blocksOf more) p'.1)

variable {env}

theorem Sequential.append {s t u : Rollup τ} {blocks blocks' : List BlockArgs}
    (h : Sequential env s blocks t) (h' : Sequential env t blocks' u) :
    Sequential env s (blocks ++ blocks') u := by
  induction h' with
  | same u hsame =>
    rw [List.append_nil]
    cases h with
    | same _ hbefore => exact .same u (trans_of SameRoots hbefore hsame)
    | block before args r _ hbefore hrecords =>
      exact .block before args r u hbefore
        ⟨hrecords.old_root, hrecords.verified, trans_of SameRoots hrecords.recorded hsame⟩
  | block before args r u _ hrecords ih =>
    rw [← List.append_assoc]
    exact .block _ args r u ih hrecords

theorem blocksOf_append (log more : List RootEntry) :
    blocksOf (log ++ more) = blocksOf log ++ blocksOf more := List.filterMap_append

instance : IsPreorder (Rooted τ) (Advances env) where
  refl p := ⟨[], (List.append_nil _).symm, fun _ => .same p.1 (refl_of SameRoots _)⟩
  trans p q r h h' := by
    obtain ⟨more, hmore, hblocks⟩ := h.logged
    obtain ⟨more', hmore', hblocks'⟩ := h'.logged
    refine ⟨more ++ more', by rw [hmore', hmore, List.append_assoc], fun hone => ?_⟩
    rw [blocksOf_append]
    exact (hblocks fun e he => hone e (List.mem_append_left _ he)).append
      (hblocks' fun e he => hone e (List.mem_append_right _ he))

theorem advances_same (p p' : Rooted τ) (hsame : SameRoots p.1 p'.1) (hlog : p'.2 = p.2) :
    Advances env p p' :=
  ⟨[], by rw [hlog, List.append_nil], fun _ => .same p'.1 hsame⟩

theorem advances_block {router : Address × Bytes × Element → RootedM τ Bool}
    (hrouter : ∀ args, Respects (Advances env) (router args)) (sender : Address)
    (args : BlockArgs) :
    Respects (Advances env) (rootedCall env router sender (.verifyBlock2 args)) := by
  refine ⟨fun p u p' h => ?_⟩
  obtain ⟨-, hverified, t, hadvances, hlog, hrecorded⟩ :=
    rooted_block advances_same hrouter sender args p p' h
  obtain ⟨more, hmore, hblocks⟩ := hadvances.logged
  refine ⟨more ++ [.block args t.1.currentRootHash], ?_, fun hone => ?_⟩
  · rw [hlog, hmore, List.append_assoc]
  · obtain ⟨_, hlast⟩ := hone _ (List.mem_append_right _ (List.mem_singleton.mpr rfl))
    obtain ⟨rfl, hfound⟩ := RootEntry.block.inj hlast
    rw [blocksOf_append]
    exact .block _ args t.1 _ (hblocks fun e he => hone e (List.mem_append_left _ he))
      ⟨hfound.symm, hverified, hrecorded⟩

theorem advances_call {router : Address × Bytes × Element → RootedM τ Bool}
    (hrouter : ∀ args, Respects (Advances env) (router args)) (sender : Address) (c : Call τ) :
    Respects (Advances env) (rootedCall env router sender c) := by
  cases c with
  | verifyBlock2 args => exact advances_block hrouter sender args
  | setRoot newRoot =>
    refine ⟨fun p u p' h => ?_⟩
    unfold rootedCall loggedCall at h
    simp only [commits_bind, commits_silently, commits_noteRoot] at h
    obtain ⟨_, q, ⟨-, hlog⟩, rfl⟩ := h
    refine ⟨[.set newRoot], by rw [hlog], fun hone => ?_⟩
    obtain ⟨_, hset⟩ := hone _ (List.mem_singleton.mpr rfl)
    cases hset
  | _ => exact rooted_call advances_same hrouter sender _ (by simp) (by simp)

/-- In every run the blocks are recorded one after the other, if every block finds its old
root. -/
theorem runRooted_advances (routers : RouterCalls τ) (depth : ℕ) (p : Rooted τ)
    (txs : List (Address × Call τ)) : Advances env p (runRooted env routers depth p txs) :=
  runNested_relates Prod.fst (fun _ _ => True) (rootedCall env) routers
    (fun _ hrespects _ sender c _ => advances_call hrespects sender c)
    (fun _ _ => Script.within_of_forall _ (fun _ _ => trivial) _) depth p txs
    fun _ _ => trivial

/-- Nothing is recorded. -/
structure Unrecorded (p p' : Rooted τ) : Prop where
  same : SameRoots p.1 p'.1
  log_eq : p'.2 = p.2

instance : IsPreorder (Rooted τ) Unrecorded where
  refl _ := ⟨refl_of SameRoots _, rfl⟩
  trans _ _ _ h h' := ⟨trans_of SameRoots h.same h'.same, h'.log_eq.trans h.log_eq⟩

theorem unrecorded_same (p p' : Rooted τ) (hsame : SameRoots p.1 p'.1) (hlog : p'.2 = p.2) :
    Unrecorded p p' := ⟨hsame, hlog⟩

/-- A call that records no root. -/
def RecordsNone (_ : Address) (c : Call τ) : Prop :=
  (∀ args, c ≠ .verifyBlock2 args) ∧ ∀ r, c ≠ .setRoot r

/-- Every block finds its old root, if routers do not verify blocks. -/
theorem runRooted_oneByOne (routers : RouterCalls τ)
    (hrouters : ∀ args s, (routers args s).Within RecordsNone) (depth : ℕ) (p : Rooted τ)
    (hp : OneByOne p.2) (txs : List (Address × Call τ))
    (hnoset : ∀ tx ∈ txs, ∀ r, tx.2 ≠ .setRoot r) :
    OneByOne (runRooted env routers depth p txs).2 := by
  have hrouter : ∀ args, Respects Unrecorded
      (calleeAt Prod.fst (rootedCall env) routers depth args) :=
    calleeAt_respects Prod.fst RecordsNone (rootedCall env) routers
      (fun _ hrespects _ sender c hc => rooted_call unrecorded_same hrespects sender c hc.1 hc.2)
      hrouters depth
  induction txs generalizing p with
  | nil => exact hp
  | cons tx rest ih =>
    refine ih _ ?_ fun t ht => hnoset t (List.mem_cons_of_mem _ ht)
    have hset := hnoset tx (List.mem_cons_self ..)
    obtain ⟨sender, c⟩ := tx
    change OneByOne (attempt (rootedCall env (calleeAt Prod.fst (rootedCall env) routers depth)
      sender c) p).2
    cases hcall : rootedCall env (calleeAt Prod.fst (rootedCall env) routers depth) sender c p with
    | error reason =>
      rw [attempt_error hcall]
      exact hp
    | ok result =>
      rw [attempt_ok hcall]
      by_cases hblock : ∃ args, c = .verifyBlock2 args
      · obtain ⟨args, rfl⟩ := hblock
        obtain ⟨hroot, -, t, ht, hlog, -⟩ :=
          rooted_block unrecorded_same hrouter sender args p result.2 hcall
        intro e he
        rw [hlog, ht.log_eq, ht.same.current, ← hroot] at he
        rcases List.mem_append.mp he with he | he
        · exact hp e he
        · exact ⟨args, List.mem_singleton.mp he⟩
      · have hnone := (rooted_call unrecorded_same hrouter sender c
          (fun args h => hblock ⟨args, h⟩) hset).relates p result.1 result.2 hcall
        rw [hnone.log_eq]
        exact hp

end Sequence
end PayyRollup.RecordedRoots
