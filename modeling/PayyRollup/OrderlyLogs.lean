import PayyRollup.AmountBinding
import PayyRollup.BurnLife
import PayyRollup.TokenLedger

/-!
The log of a contract whose routers only send requests. Blocks are then verified by top-level
calls alone, and a substitution that a router sends is over before its block goes on: when a
hash is rolled up, no substitution is under way. Every transaction of a block is settled by the
mint or by the burn of its hash, for the amount that was registered; the entries that roll
hashes up are those of the burns, in the order of the blocks.
-/
namespace PayyRollup.OrderlyLogs

open ScalarField VerifierContracts Transactions RollupState RollupCalls RollupEffects
  CallBacks PaymentLog PaymentEffects AmountBinding BurnLife

/-- Every advance is followed up by a substitution. -/
def Balanced (log : List Entry) : Prop :=
  ∀ n sender a, .advanced n sender a ∈ log → ∃ sender' a', .substituted n sender' a' ∈ log

/-- The burns that are rolled up, with their amounts. -/
def rolledUps (log : List Entry) : List (Element × Element) :=
  log.filterMap fun e => match e with
    | .rolledUp n v => some (n, v)
    | _ => none

/-- The commitments that are minted for an amount. -/
def mintedAmounts (log : List Entry) : List (Element × Element) :=
  log.filterMap fun e => match e with
    | .minted c v => if v = 0#256 then none else some (c, v)
    | _ => none

/-- No substitution is under way where a hash is rolled up, or at the end. -/
structure Orderly (log : List Entry) : Prop where
  balanced : Balanced log
  settled : ∀ before n v after, log = before ++ .rolledUp n v :: after → Balanced before

section Logs

variable {log more : List Entry}

theorem Balanced.append (h : Balanced log) (h' : Balanced more) : Balanced (log ++ more) := by
  intro n sender a hmem
  rcases List.mem_append.mp hmem with hmem | hmem
  · obtain ⟨sender', a', hsub⟩ := h n sender a hmem
    exact ⟨sender', a', List.mem_append_left _ hsub⟩
  · obtain ⟨sender', a', hsub⟩ := h' n sender a hmem
    exact ⟨sender', a', List.mem_append_right _ hsub⟩

theorem balanced_of_none (h : ∀ n sender a, .advanced n sender a ∉ log) : Balanced log :=
  fun n sender a hmem => absurd hmem (h n sender a)

@[simp] theorem rolledUps_append : rolledUps (log ++ more) = rolledUps log ++ rolledUps more :=
  List.filterMap_append ..

@[simp] theorem mintedAmounts_append :
    mintedAmounts (log ++ more) = mintedAmounts log ++ mintedAmounts more :=
  List.filterMap_append ..

theorem mem_rolledUps (n v : Element) : (n, v) ∈ rolledUps log ↔ .rolledUp n v ∈ log := by
  unfold rolledUps
  rw [List.mem_filterMap]
  constructor
  · rintro ⟨e, hmem, he⟩
    cases e with
    | rolledUp m w =>
      cases he
      exact hmem
    | _ => cases he
  · intro hmem
    exact ⟨_, hmem, rfl⟩

theorem mem_mintedAmounts (c v : Element) :
    (c, v) ∈ mintedAmounts log ↔ .minted c v ∈ log ∧ v ≠ 0#256 := by
  unfold mintedAmounts
  rw [List.mem_filterMap]
  constructor
  · rintro ⟨e, hmem, he⟩
    cases e with
    | minted d w =>
      by_cases hw : w = 0#256
      · simp [hw] at he
      · simp only [if_neg hw, Option.some.injEq, Prod.mk.injEq] at he
        obtain ⟨rfl, rfl⟩ := he
        exact ⟨hmem, hw⟩
    | _ => cases he
  · rintro ⟨hmem, hv⟩
    exact ⟨_, hmem, if_neg hv⟩

/-- A log goes on without a roll-up, and finishes the substitutions it starts. -/
structure Quiet (more : List Entry) : Prop where
  balanced : Balanced more
  silent : rolledUps more = []

theorem Quiet.append {rest : List Entry} (h : Quiet more) (h' : Quiet rest) :
    Quiet (more ++ rest) := by
  refine ⟨h.balanced.append h'.balanced, ?_⟩
  rw [rolledUps_append, h.silent, h'.silent]
  rfl

theorem quiet_nil : Quiet [] := ⟨balanced_of_none (by simp), rfl⟩

theorem Orderly.quiet (h : Orderly log) (hmore : Quiet more) : Orderly (log ++ more) := by
  refine ⟨h.balanced.append hmore.balanced, ?_⟩
  intro before n v after hlog
  rcases List.append_eq_append_iff.mp hlog with ⟨rest, -, hrest⟩ | ⟨rest, hbefore, hrest⟩
  · have hmem : (n, v) ∈ rolledUps more := by
      rw [mem_rolledUps, hrest]
      exact List.mem_append_right _ List.mem_cons_self
    rw [hmore.silent] at hmem
    cases hmem
  · cases rest with
    | nil =>
      rw [hbefore, List.append_nil] at h
      exact h.balanced
    | cons e rest =>
      obtain ⟨rfl, -⟩ := List.cons_eq_cons.mp hrest
      exact h.settled before n v rest hbefore

theorem Orderly.rollUp (h : Orderly log) (n v : Element) (hmore : Quiet more) :
    Orderly (log ++ [.rolledUp n v] ++ more) := by
  refine Orderly.quiet ⟨h.balanced.append (balanced_of_none (by simp)), ?_⟩ hmore
  intro before m w after hlog
  rcases List.append_eq_append_iff.mp hlog with ⟨rest, hbefore, hrest⟩ | ⟨rest, hbefore, hrest⟩
  · cases rest with
    | nil =>
      rw [hbefore, List.append_nil]
      exact h.balanced
    | cons e rest => simp at hrest
  · cases rest with
    | nil =>
      rw [hbefore, List.append_nil] at h
      exact h.balanced
    | cons e rest =>
      obtain ⟨rfl, -⟩ := List.cons_eq_cons.mp hrest
      exact h.settled before m w rest hbefore

theorem orderly_nil : Orderly [] := ⟨quiet_nil.balanced, fun before n v after h => by simp at h⟩

/-- In an orderly log that rolls no hash up twice, every hash is handled properly. -/
theorem Orderly.proper (h : Orderly log) (hnodup : ((rolledUps log).map Prod.fst).Nodup)
    (n : Element) : Proper n log := by
  refine ⟨?_, ?_⟩
  · have hcount : log.countP (rollsUp n) = ((rolledUps log).map Prod.fst).count n := by
      clear hnodup h
      induction log with
      | nil => rfl
      | cons e rest ih =>
        rw [List.countP_cons, ih]
        cases e with
        | rolledUp m v =>
          have hcons : rolledUps (.rolledUp m v :: rest) = (m, v) :: rolledUps rest := rfl
          rw [hcons, List.map_cons, List.count_cons]
          by_cases hm : m = n <;> simp [rollsUp, hm]
        | _ => rfl
    rw [hcount]
    exact List.nodup_iff_count_le_one.mp hnodup n
  · intro before v after hlog sender a hmem
    exact h.settled before n v after hlog n sender a hmem

end Logs

section Steps

variable {τ : Type} (env : Externals τ)

/-- The storage of mints and burns is that of the log, and burns were verified. -/
structure Recorded (p : Logged τ) : Prop where
  minted : ∀ c, p.1.mints c ≠ 0#256 → .minted c (p.1.mints c) ∈ p.2
  kept : ∀ c v, (c, v) ∈ mintedAmounts p.2 → p.1.mints c = v
  once : ((mintedAmounts p.2).map Prod.fst).Nodup
  burned : ∀ n, (p.1.burns n).amount ≠ 0#256 → BurnVerified env n (p.1.burns n).amount
  routed : ∀ n, p.1.burnsKind n = 1#256 → BurnVerified env n (p.1.burnsToRouter n).amount
  kinds : ∀ n, p.1.burnsKind n = 0#256 ∨ p.1.burnsKind n = 1#256

/-- The log goes on quietly, and stays that of the storage. -/
def Sends (p p' : Logged τ) : Prop :=
  ∃ more, p'.2 = p.2 ++ more ∧ Quiet more ∧ (Recorded env p → Recorded env p')

instance sendsPreorder : IsPreorder (Logged τ) (Sends env) where
  refl p := ⟨[], (List.append_nil _).symm, quiet_nil, id⟩
  trans p p' p'' h h' := by
    obtain ⟨more, hmore, hquiet, hrecorded⟩ := h
    obtain ⟨more', hmore', hquiet', hrecorded'⟩ := h'
    refine ⟨more ++ more', ?_, hquiet.append hquiet', fun hp => hrecorded' (hrecorded hp)⟩
    rw [hmore', hmore, List.append_assoc]

/-- The mints and burns are the same in both states. -/
structure SameRecords (s s' : Rollup τ) : Prop where
  mints : s'.mints = s.mints
  burns : s'.burns = s.burns
  burnsKind : s'.burnsKind = s.burnsKind
  burnsToRouter : s'.burnsToRouter = s.burnsToRouter

variable {env} {p p' : Logged τ}

theorem Recorded.same (h : Recorded env p) {s' : Rollup τ} (hsame : SameRecords p.1 s')
    (more : List Entry) (hmore : mintedAmounts more = []) :
    Recorded env (s', p.2 ++ more) := by
  obtain ⟨hmints, hburns, hkind, hrouter⟩ := hsame
  refine ⟨?_, ?_, ?_, ?_, ?_, ?_⟩
  · dsimp only
    rw [hmints]
    exact fun c hc => List.mem_append_left _ (h.minted c hc)
  · dsimp only
    rw [mintedAmounts_append, hmore, List.append_nil, hmints]
    exact h.kept
  · dsimp only
    rw [mintedAmounts_append, hmore, List.append_nil]
    exact h.once
  · dsimp only
    rw [hburns]
    exact h.burned
  · dsimp only
    rw [hkind, hrouter]
    exact h.routed
  · dsimp only
    rw [hkind]
    exact h.kinds

/-- A step that notes neither a roll-up nor an advance nor a mint. -/
theorem sends_of_same {s' : Rollup τ} (hsame : SameRecords p.1 s') (more : List Entry)
    (hquiet : Quiet more) (hmore : mintedAmounts more = []) :
    Sends env p (s', p.2 ++ more) :=
  ⟨more, rfl, hquiet, fun h => h.same hsame more hmore⟩

theorem sends_settings {s' : Rollup τ} (hsame : SameRecords p.1 s') :
    Sends env p (s', p.2) := by
  have h : Sends env p (s', p.2 ++ []) := sends_of_same hsame [] quiet_nil rfl
  rwa [List.append_nil] at h

theorem sends_paid (chain : τ) (n : Element) (payee : Address) (v : Element) :
    Sends env p ({ p.1 with chain }, p.2 ++ [.paid n payee v]) := by
  refine sends_of_same ?_ _ ⟨balanced_of_none (by simp), rfl⟩ rfl
  exact ⟨rfl, rfl, rfl, rfl⟩

variable {router : Address × Bytes × Element → LoggedM τ Bool} {n v : Element}

/-- What a burn pays was registered for its hash. -/
theorem Recorded.verified (h : Recorded env p) {success : Bool}
    (hpays : Pays env router n v p (true, success) p') : BurnVerified env n v := by
  cases hpays with
  | transferred chain _ hamount hvalue _ =>
    rw [← hvalue]
    exact h.burned n hamount
  | refused _ hamount hvalue =>
    rw [← hvalue]
    exact h.burned n hamount
  | routed chain chain' t hkind hvalue _ _ _ =>
    rw [← hvalue]
    exact h.routed n hkind
  | returned chain₁ chain₂ chain₃ hkind hvalue _ _ _ =>
    rw [← hvalue]
    exact h.routed n hkind
  | withheld chain₁ chain₂ hkind hvalue _ _ =>
    rw [← hvalue]
    exact h.routed n hkind
  | unknown hzero hone =>
    rcases h.kinds n with hkind | hkind
    · exact absurd hkind hzero
    · exact absurd hkind hone

theorem pays_sends
    (hrouter : ∀ args s s', Commits (router args) s true s' → Sends env s s')
    {result : Bool × Bool} (h : Pays env router n v p result p') : Sends env p p' := by
  cases h with
  | missing _ _ => exact refl_of (Sends env) p
  | transferred chain _ _ _ _ => exact sends_paid chain n _ v
  | refused _ _ _ =>
    exact sends_of_same ⟨rfl, rfl, rfl, rfl⟩ _ ⟨balanced_of_none (by simp), rfl⟩ rfl
  | routed chain chain' t _ _ _ hcalled _ =>
    have hstart : Sends env p ({ p.1 with chain }, p.2) := sends_settings ⟨rfl, rfl, rfl, rfl⟩
    exact trans_of (Sends env) (trans_of (Sends env) hstart (hrouter _ _ _ hcalled))
      (sends_paid chain' n _ v)
  | returned _ _ chain _ _ _ _ _ => exact sends_paid chain n _ v
  | withheld _ chain _ _ _ _ => exact sends_settings ⟨rfl, rfl, rfl, rfl⟩
  | unknown _ _ => exact refl_of (Sends env) p

theorem Recorded.setBurn (h : Recorded env p) (n : Element) (b : RollupState.Burn)
    (hverified : BurnVerified env n b.amount) (more : List Entry)
    (hmore : mintedAmounts more = []) :
    Recorded env ({ p.1 with
      burnsKind := Function.update p.1.burnsKind n 0#256
      burns := Function.update p.1.burns n b }, p.2 ++ more) := by
  have hsame := h.same ⟨rfl, rfl, rfl, rfl⟩ more hmore
  refine ⟨hsame.minted, hsame.kept, hsame.once, fun m hm => ?_, fun m hm => ?_, fun m => ?_⟩
  · dsimp only at hm ⊢
    by_cases heq : m = n
    · subst heq
      rwa [Function.update_self]
    · rw [Function.update_of_ne heq] at hm ⊢
      exact h.burned m hm
  · dsimp only at hm ⊢
    by_cases heq : m = n
    · subst heq
      rw [Function.update_self] at hm
      cases hm
    · rw [Function.update_of_ne heq] at hm
      exact h.routed m hm
  · dsimp only
    by_cases heq : m = n
    · subst heq
      exact Or.inl (Function.update_self ..)
    · rw [Function.update_of_ne heq]
      exact h.kinds m

theorem Recorded.setBurnToRouter (h : Recorded env p) (n : Element) (b : BurnToRouter)
    (hverified : BurnVerified env n b.amount) (more : List Entry)
    (hmore : mintedAmounts more = []) :
    Recorded env ({ p.1 with
      burnsKind := Function.update p.1.burnsKind n 1#256
      burnsToRouter := Function.update p.1.burnsToRouter n b }, p.2 ++ more) := by
  have hsame := h.same ⟨rfl, rfl, rfl, rfl⟩ more hmore
  refine ⟨hsame.minted, hsame.kept, hsame.once, h.burned, fun m hm => ?_, fun m => ?_⟩
  · dsimp only at hm ⊢
    by_cases heq : m = n
    · subst heq
      rwa [Function.update_self]
    · rw [Function.update_of_ne heq] at hm ⊢
      exact h.routed m hm
  · dsimp only
    by_cases heq : m = n
    · subst heq
      exact Or.inr (Function.update_self ..)
    · rw [Function.update_of_ne heq]
      exact h.kinds m

/-- A commitment without an amount is not in the log with one. -/
theorem Recorded.setMint (h : Recorded env p) (chain : τ) (c v : Element)
    (hfree : p.1.mints c = 0#256) :
    Recorded env ({ p.1 with chain, mints := Function.update p.1.mints c v },
      p.2 ++ [.minted c v]) := by
  have hother : c ∉ (mintedAmounts p.2).map Prod.fst := by
    intro hmem
    obtain ⟨⟨d, w⟩, hpair, rfl⟩ := List.mem_map.mp hmem
    have hne := ((mem_mintedAmounts d w).mp hpair).2
    exact hne ((h.kept d w hpair).symm.trans hfree)
  have hlast : mintedAmounts [.minted c v] = if v = 0#256 then [] else [(c, v)] := by
    by_cases hv : v = 0#256 <;> simp [mintedAmounts, hv]
  refine ⟨fun d hd => ?_, fun d w hd => ?_, ?_, h.burned, h.routed, h.kinds⟩
  · dsimp only at hd ⊢
    by_cases heq : d = c
    · subst heq
      rw [Function.update_self]
      exact List.mem_append_right _ List.mem_cons_self
    · rw [Function.update_of_ne heq] at hd ⊢
      exact List.mem_append_left _ (h.minted d hd)
  · dsimp only at hd ⊢
    rw [mintedAmounts_append, List.mem_append, hlast] at hd
    rcases hd with hd | hd
    · have hne : d ≠ c := by
        rintro rfl
        exact hother (List.mem_map_of_mem hd)
      rw [Function.update_of_ne hne]
      exact h.kept d w hd
    · split at hd
      · cases hd
      · cases List.mem_singleton.mp hd
        exact Function.update_self ..
  · dsimp only
    rw [mintedAmounts_append, hlast]
    split
    · rw [List.append_nil]
      exact h.once
    · rw [List.map_append, List.nodup_append]
      refine ⟨h.once, List.nodup_singleton _, fun a ha b hb heq => ?_⟩
      rw [List.map_singleton, List.mem_singleton] at hb
      rw [heq, hb] at ha
      exact hother ha

theorem registration_sends (h : Registration env p p') : Sends env p p' := by
  cases h with
  | mint chain c v hfree _ =>
    exact ⟨_, rfl, ⟨balanced_of_none (by simp), rfl⟩, fun hp => hp.setMint chain c v hfree⟩
  | toAddress n v toAddr _ _ hverified =>
    exact ⟨_, rfl, ⟨balanced_of_none (by simp), rfl⟩,
      fun hp => hp.setBurn n ⟨toAddr, v⟩ hverified _ rfl⟩
  | toRouter n v address routerCalldata returnAddress _ _ hverified =>
    exact ⟨_, rfl, ⟨balanced_of_none (by simp), rfl⟩,
      fun hp => hp.setBurnToRouter n ⟨address, routerCalldata, v, returnAddress⟩ hverified _ rfl⟩

/-- A substitution is over when its transaction is. -/
theorem substitution_sends
    (hrouter : ∀ args s s', Commits (router args) s true s' → Sends env s s')
    {sender : Address} (h : Substitution env router sender n v p p') : Sends env p p' := by
  obtain ⟨chain, t, -, hpays, rfl⟩ := h.executed
  obtain ⟨more, hmore, hquiet, hrecorded⟩ := pays_sends hrouter hpays
  refine ⟨[.advanced n sender v] ++ more ++ [.substituted n sender v], ?_, ⟨?_, ?_⟩, fun hp => ?_⟩
  · dsimp only at hmore ⊢
    rw [hmore]
    simp only [List.append_assoc]
  · intro m sender' a hmem
    rw [List.append_assoc, List.mem_append] at hmem
    rcases hmem with hmem | hmem
    · cases List.mem_singleton.mp hmem
      exact ⟨sender, v, by simp⟩
    · have hrest : Balanced (more ++ [.substituted n sender v]) :=
        hquiet.balanced.append (balanced_of_none (by simp))
      obtain ⟨sender'', a', hsub⟩ := hrest m sender' a hmem
      rw [List.append_assoc]
      exact ⟨sender'', a', List.mem_append_right _ hsub⟩
  · rw [rolledUps_append, rolledUps_append, hquiet.silent]
    rfl
  · have hsame : SameRecords p.1 { p.1 with
        chain
        substitutedBurns := Function.update p.1.substitutedBurns n true } :=
      ⟨rfl, rfl, rfl, rfl⟩
    have hstart := hp.same hsame [.advanced n sender v] rfl
    exact (hrecorded hstart).setBurn n ⟨sender, v⟩ (hstart.verified hpays) _ rfl

end Steps

section Calls

variable {τ : Type} (env : Externals τ) (router : Address × Bytes × Element → LoggedM τ Bool)
  (hrespects : ∀ args, Respects (Sends env) (router args))
  (hquiet : ∀ args, FailsQuietly (router args))

/-- The call verifies no block. -/
def VerifiesNoBlock (_ : Address) (c : Call τ) : Prop := ∀ args, c ≠ .verifyBlock2 args

theorem sameRecords_of_burns {s s' : Rollup τ} (h : SameBurns s s') : SameRecords s s' :=
  ⟨h.mints, h.burns, h.burnsKind, h.burnsToRouter⟩

include hrespects hquiet in
theorem request_sends (sender : Address) (r : Request) :
    Respects (Sends env) (loggedCall env router sender (.request r)) := by
  refine ⟨fun p u p' h => ?_⟩
  by_cases hr : ∃ n v, r = .substituteBurn n v
  · obtain ⟨n, v, rfl⟩ := hr
    exact substitution_sends (fun args s s' hs => (hrespects args).relates s true s' hs)
      (substituteBurn_substitution env router p p' hquiet sender n v u h)
  · have hcall : loggedCall env router sender (.request r) = (do
        silently (request env (fun _ _ _ => return false) sender r)
        (registration r).forM note) := by
      cases r with
      | substituteBurn n v => exact absurd ⟨n, v, rfl⟩ hr
      | _ => rfl
    rw [hcall] at h
    simp only [commits_bind, commits_silently, commits_noteAll] at h
    obtain ⟨_, t, ⟨hrequest, hlog⟩, rfl⟩ := h
    rw [hlog]
    exact registration_sends
      (request_registration env p r (fun n v h => hr ⟨n, v, h⟩) _ sender t.1 hrequest)

include hrespects hquiet in
/-- Every call that verifies no block goes on quietly. -/
theorem call_sends (sender : Address) (c : Call τ) (hc : VerifiesNoBlock sender c) :
    Respects (Sends env) (loggedCall env router sender c) := by
  have hsettings : (∀ r, c ≠ .request r) → (∀ effect, c ≠ .world effect) →
      Respects (Sends env) (silently (RollupCalls.call env (fun _ _ _ => return false)
        sender c)) := by
    intro hrequest hworld
    refine ⟨fun p u p' h => ?_⟩
    rw [commits_silently] at h
    have hsame := call_sameBurns env _ sender c hrequest hc hworld _ _ _ h.1
    have hsends : Sends env p (p'.1, p.2) := sends_settings (sameRecords_of_burns hsame)
    rwa [← h.2] at hsends
  cases c with
  | request r => exact request_sends env router hrespects hquiet sender r
  | verifyBlock2 args => exact absurd rfl (hc args)
  | world effect =>
    refine ⟨fun p u p' h => ?_⟩
    simp only [loggedCall, RollupCalls.call] at h
    rw [commits_silent_modify] at h
    rw [h]
    exact sends_settings ⟨rfl, rfl, rfl, rfl⟩
  | _ => exact hsettings (by simp) (by simp)

theorem ofRouterScript_within (script : RouterScript τ) :
    (ofRouterScript script).Within VerifiesNoBlock := by
  induction script with
  | stop success => exact .stop success
  | world effect next ih => exact .call _ _ _ (by rintro args ⟨⟩) fun _ => ih
  | call sender r next ih => exact .call _ _ _ (by rintro args ⟨⟩) fun s => ih s

/-- A router that only sends requests goes on quietly, at every depth. -/
theorem router_sends (routers : Routers τ) (depth : ℕ) (args : Address × Bytes × Element) :
    Respects (Sends env) (calleeAt Prod.fst (loggedCall env) (ofRouters routers) depth args) :=
  calleeAt_respects Prod.fst VerifiesNoBlock (loggedCall env) (ofRouters routers)
    (fun callee hrespects hquiet sender c hc => call_sends env callee hrespects hquiet sender c hc)
    (fun _ _ => ofRouterScript_within _) depth args

end Calls

section Blocks

variable {τ : Type} (env : Externals τ)

/-- The hashes and values of the six transactions of a block. -/
def pairs (args : BlockArgs) : List (Element × Element) :=
  [0, 3, 6, 9, 12, 15].map fun i => (args.utxoHash (i + 1), args.utxoHash (i + 2))

/-- Every transaction with a value is settled by a mint of the log, or by a verified burn; the
burns are the second list. -/
inductive Settled (log : List Entry) :
    List (Element × Element) → List (Element × Element) → Prop
  | nil : Settled log [] []
  | nothing (n : Element) (ps rs : List (Element × Element)) : Settled log ps rs →
      Settled log ((n, 0#256) :: ps) rs
  | mint (n v : Element) (ps rs : List (Element × Element)) : v ≠ 0#256 → .minted n v ∈ log →
      Settled log ps rs → Settled log ((n, v) :: ps) rs
  | burn (n v : Element) (ps rs : List (Element × Element)) : v ≠ 0#256 → BurnVerified env n v →
      Settled log ps rs → Settled log ((n, v) :: ps) ((n, v) :: rs)

/-- Between the two states the transactions are settled, and nothing else is rolled up. -/
structure Settles (ps : List (Element × Element)) (p p' : Logged τ) : Prop where
  grows : p.2 <+: p'.2
  recorded : Recorded env p → Recorded env p'
  orderly : Orderly p.2 → Orderly p'.2
  settled : Recorded env p → ∃ rs, rolledUps p'.2 = rolledUps p.2 ++ rs ∧ Settled env p'.2 ps rs

variable {env} {log log' : List Entry} {ps qs rs ts : List (Element × Element)}

theorem Settled.mono (h : Settled env log ps rs) (hle : log <+: log') : Settled env log' ps rs := by
  induction h with
  | nil => exact .nil
  | nothing n ps rs _ ih => exact .nothing n ps rs ih
  | mint n v ps rs hv hmem _ ih => exact .mint n v ps rs hv (hle.subset hmem) ih
  | burn n v ps rs hv hverified _ ih => exact .burn n v ps rs hv hverified ih

theorem Settled.append (h : Settled env log ps rs) (h' : Settled env log qs ts) :
    Settled env log (ps ++ qs) (rs ++ ts) := by
  induction h with
  | nil => exact h'
  | nothing n ps rs _ ih => exact .nothing n _ _ ih
  | mint n v ps rs hv hmem _ ih => exact .mint n v _ _ hv hmem ih
  | burn n v ps rs hv hverified _ ih => exact .burn n v _ _ hv hverified ih

variable {p p' p'' : Logged τ}

theorem Settles.trans (h : Settles env ps p p') (h' : Settles env qs p' p'') :
    Settles env (ps ++ qs) p p'' := by
  refine ⟨h.grows.trans h'.grows, fun hp => h'.recorded (h.recorded hp),
    fun hp => h'.orderly (h.orderly hp), fun hp => ?_⟩
  obtain ⟨rs, hrolled, hsettled⟩ := h.settled hp
  obtain ⟨ts, hrolled', hsettled'⟩ := h'.settled (h.recorded hp)
  refine ⟨rs ++ ts, ?_, (hsettled.mono h'.grows).append hsettled'⟩
  rw [hrolled', hrolled, List.append_assoc]

theorem Sends.settles (h : Sends env p p') : Settles env [] p p' := by
  obtain ⟨more, hmore, hquiet, hrecorded⟩ := h
  refine ⟨⟨more, hmore.symm⟩, hrecorded, fun hp => ?_, fun _ => ⟨[], ?_, .nil⟩⟩
  · rw [hmore]
    exact hp.quiet hquiet
  · rw [hmore, rolledUps_append, hquiet.silent]

variable {router : Address × Bytes × Element → LoggedM τ Bool}
  (hrespects : ∀ args, Respects (Sends env) (router args))
  (hquiet : ∀ args, FailsQuietly (router args))

include hrespects hquiet in
/-- A transaction of a block is settled. -/
theorem verifyTxn_settles (n v : Element) (u : Unit)
    (h : Commits (loggedVerifyTxn env router n v) p u p') : Settles env [(n, v)] p p' := by
  unfold loggedVerifyTxn setRolledUp at h
  simp only [commits_bind, commits_silent_get, commits_silent_modify, commits_silent_require,
    commits_note, commits_ite, commits_pure, and_assoc, exists_and_left, exists_eq_left,
    exists_const] at h
  rcases h with ⟨rfl, -, rfl⟩ | ⟨hvalue, ⟨hmint, hamount, rfl⟩ |
    ⟨-, result, t, hburn, hfound, rfl⟩⟩
  · exact ⟨List.prefix_rfl, id, id, fun _ => ⟨[], (List.append_nil _).symm, .nothing n _ _ .nil⟩⟩
  · have hsends : Sends env p ({ p.1 with
        rolledUpLeafs := Function.update p.1.rolledUpLeafs n true }, p.2) :=
      sends_settings ⟨rfl, rfl, rfl, rfl⟩
    have hsettles := hsends.settles
    refine ⟨hsettles.grows, hsettles.recorded, hsettles.orderly, fun hp => ?_⟩
    refine ⟨[], (List.append_nil _).symm, .mint n v _ _ hvalue ?_ .nil⟩
    have hminted := hp.minted n hmint
    rwa [hamount] at hminted
  · have hpays := executeBurn_pays env router _ _ n v hquiet result hburn
    obtain ⟨found, success⟩ := result
    obtain rfl : found = true := hfound
    obtain ⟨more, hmore, hquietly, hrecorded⟩ :=
      pays_sends (fun args s s' hs => (hrespects args).relates s true s' hs) hpays
    have hstart : Recorded env p → Recorded env ({ p.1 with
        rolledUpLeafs := Function.update p.1.rolledUpLeafs n true },
        p.2 ++ [.rolledUp n v]) := by
      intro hp
      refine hp.same ?_ _ rfl
      exact ⟨rfl, rfl, rfl, rfl⟩
    refine ⟨?_, fun hp => hrecorded (hstart hp), fun hp => ?_, fun hp => ⟨[(n, v)], ?_, ?_⟩⟩
    · rw [hmore]
      exact (List.prefix_append ..).trans (List.prefix_append ..)
    · rw [hmore]
      exact hp.rollUp n v hquietly
    · rw [hmore, rolledUps_append, rolledUps_append, hquietly.silent, List.append_nil]
      rfl
    · exact .burn n v _ _ hvalue ((hstart hp).verified hpays) .nil

/-- Every way a transaction commits settles the pairs. -/
def SettlesAll (env : Externals τ) {α : Type} (ps : List (Element × Element))
    (x : LoggedM τ α) : Prop :=
  ∀ p a p', Commits x p a p' → Settles env ps p p'

theorem settlesAll_bind {α β : Type} {x : LoggedM τ α} {f : α → LoggedM τ β}
    (hx : SettlesAll env ps x) (hf : ∀ a, SettlesAll env qs (f a)) :
    SettlesAll env (ps ++ qs) (x >>= f) := by
  intro p b p' h
  rw [commits_bind] at h
  obtain ⟨a, t, hfirst, hrest⟩ := h
  exact (hx p a t hfirst).trans (hf a t b p' hrest)

theorem settlesAll_silently {α : Type} (x : RollupM τ α) (hx : Respects SameBurns x) :
    SettlesAll env [] (silently x) := by
  intro p a p' h
  rw [commits_silently] at h
  have hsends : Sends env p (p'.1, p.2) :=
    sends_settings (sameRecords_of_burns (hx.relates _ _ _ h.1))
  rw [← h.2] at hsends
  exact hsends.settles

include hrespects hquiet in
theorem settlesAll_forM (is : List ℕ) (hash value : ℕ → Element) :
    SettlesAll env (is.map fun i => (hash i, value i))
      (is.forM fun i => loggedVerifyTxn env router (hash i) (value i)) := by
  induction is with
  | nil =>
    intro p a p' h
    obtain ⟨-, rfl⟩ := (commits_pure _ _ _ _).mp h
    exact (refl_of (Sends env) p).settles
  | cons i rest ih =>
    exact settlesAll_bind (fun p a p' h => verifyTxn_settles hrespects hquiet _ _ a h) fun _ => ih

include hrespects hquiet in
/-- A block settles its transactions. -/
theorem verifyBlock2_settles (sender : Address) (args : BlockArgs) :
    SettlesAll env (pairs args) (loggedVerifyBlock2 env router sender args) := by
  have hshape : pairs args = [] ++ ([] ++ ([] ++ ([] ++ (pairs args ++ [])))) := by simp
  rw [hshape]
  unfold loggedVerifyBlock2
  apply settlesAll_bind (settlesAll_silently _ (respects_onlyProver sender))
  intro _
  apply settlesAll_bind
  · apply settlesAll_silently
    exact respects_modify _ fun s => ⟨rfl, rfl, rfl, rfl, rfl, rfl, rfl⟩
  intro _
  apply settlesAll_bind (settlesAll_silently _ respects_get)
  intro s
  apply settlesAll_bind (settlesAll_silently _ (respects_require _ _))
  intro _
  apply settlesAll_bind (settlesAll_forM hrespects hquiet _ _ _)
  intro _
  apply settlesAll_silently
  apply respects_bind _ _ respects_get
  intro s'
  apply respects_bind _ _ (respects_require _ _)
  intro _
  apply respects_bind _ _ (respects_require _ _)
  intro _
  apply respects_bind _ _ (respects_require _ _)
  intro _
  apply respects_bind _ _ (respects_require _ _)
  intro _
  apply respects_bind _ _ (respects_verifySignatures _ _ _ _)
  intro _
  apply respects_bind _ _ (respects_view _)
  intro _
  exact respects_modify _ fun t => ⟨rfl, rfl, rfl, rfl, rfl, rfl, rfl⟩

end Blocks

section Runs

variable {τ : Type} (env : Externals τ) (routers : Routers τ) (depth : ℕ)

/-- A transaction of the logged contract, whose routers only send requests. -/
def loggedStep (p : Logged τ) (tx : Address × Call τ) : Logged τ :=
  attempt (loggedCall env (calleeAt Prod.fst (loggedCall env) (ofRouters routers) depth) tx.1 tx.2)
    p

/-- What a call does with the log is what it does without. -/
theorem loggedCall_result (sender : Address) (c : Call τ) (p : Logged τ) :
    (loggedCall env (calleeAt Prod.fst (loggedCall env) (ofRouters routers) depth) sender c
      p).map (fun r => (r.1, r.2.1)) =
      call env (routerCallAt env routers depth) sender c p.1 := by
  have herases := @calleeAt_erases _ (Logged τ) _ _ _ _ (Rollup τ) Prod.fst id _ _
    (ofRouters routers) (fun _ _ h sender c => loggedCall_erases env h sender c) depth
  have hrouter : routerCallAt env routers depth = fun address data gas =>
      calleeAt id (nestedCall env) (ofRouters routers) depth (address, data, gas) := by
    funext address data gas
    exact routerCallAt_eq env routers depth address data gas
  rw [hrouter]
  exact (loggedCall_erases env herases sender c).erased p

theorem loggedStep_state (p : Logged τ) (tx : Address × Call τ) :
    (loggedStep env routers depth p tx).1 = step env routers depth p.1 tx := by
  have hresult := loggedCall_result env routers depth tx.1 tx.2 p
  unfold loggedStep step
  cases h : loggedCall env (calleeAt Prod.fst (loggedCall env) (ofRouters routers) depth) tx.1
      tx.2 p with
  | error reason =>
    rw [h] at hresult
    rw [attempt_error h, ← hresult]
    rfl
  | ok r =>
    rw [h] at hresult
    rw [attempt_ok h, ← hresult]
    rfl

/-- A transaction settles the block it verifies, if any. -/
theorem loggedStep_settles (p : Logged τ) (tx : Address × Call τ) :
    Settles env ((acceptedBlock env routers depth p.1 tx).toList.flatMap pairs) p
      (loggedStep env routers depth p tx) := by
  have hrespects := router_sends env routers depth
  have hquiet := calleeAt_failsQuietly (Prod.fst : Logged τ → Rollup τ) (loggedCall env)
    (ofRouters routers) depth
  have hresult := loggedCall_result env routers depth tx.1 tx.2 p
  unfold loggedStep acceptedBlock
  cases h : loggedCall env (calleeAt Prod.fst (loggedCall env) (ofRouters routers) depth) tx.1
      tx.2 p with
  | error reason =>
    rw [h] at hresult
    rw [attempt_error h, ← hresult]
    exact (refl_of (Sends env) p).settles
  | ok r =>
    rw [h] at hresult
    rw [attempt_ok h, ← hresult]
    by_cases hblock : ∃ args, tx.2 = .verifyBlock2 args
    · obtain ⟨args, hargs⟩ := hblock
      rw [hargs] at h ⊢
      change Settles env ([args].flatMap pairs) p r.2
      rw [List.flatMap_singleton]
      exact verifyBlock2_settles hrespects hquiet tx.1 args p r.1 r.2 h
    · have hnone : ∀ args, tx.2 ≠ .verifyBlock2 args := fun args hargs => hblock ⟨args, hargs⟩
      have hsends := (call_sends env _ hrespects hquiet tx.1 tx.2 hnone).relates p r.1 r.2 h
      cases hc : tx.2 with
      | verifyBlock2 args => exact absurd hc (hnone args)
      | _ => exact hsends.settles

/-- A run settles the blocks it accepts. -/
theorem run_settles (p : Logged τ) (txs : List (Address × Call τ)) :
    Settles env ((acceptedBlocks env routers depth p.1 txs).flatMap pairs) p
      (runLogged env (ofRouters routers) depth p txs) := by
  induction txs generalizing p with
  | nil => exact (refl_of (Sends env) p).settles
  | cons tx rest ih =>
    have hfirst := loggedStep_settles env routers depth p tx
    have hrest := ih (loggedStep env routers depth p tx)
    rw [loggedStep_state] at hrest
    rw [acceptedBlocks, List.flatMap_append]
    exact hfirst.trans hrest

theorem initial_recorded (chain : τ) (owner prover : Address) (initialValidators : List Address)
    (emptyRoot : Element) :
    Recorded env (initialState chain owner prover initialValidators emptyRoot, []) :=
  ⟨fun _ h => absurd rfl h, nofun, List.nodup_nil, fun _ h => absurd rfl h, nofun,
    fun _ => Or.inl rfl⟩

end Runs

end PayyRollup.OrderlyLogs
