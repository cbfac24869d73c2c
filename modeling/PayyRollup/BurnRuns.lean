import PayyRollup.BurnPages
import PayyRollup.SignatureQuorums

/-!
Runs of the burn substitutor. Over any sequence of ticks, new blocks, calls and failures a
burn is substituted at most once, and a tick that fails leaves the cursor. In a run in which
no transaction reverts when it is mined, completed ticks pass no burn that is not substituted
and reach every listed one, in the order of the listing. The first error ends a tick: while
the substitution of a burn keeps failing, ticks send nothing for the burns behind it.
-/
namespace PayyRollup.BurnRuns

open NodeBlocks hiding Error
open RollupCalls hiding substituteBurn
open BlockStoreDb hiding Error Event
open BlockCommit (trustingEnv)
open ScalarField RollupState PaymentLog
open TxnPages TxnPaging PendingTxns Sessions BurnSubstitutor SubstitutionCounts BurnTicks BurnPages

variable {τ : Type}

section Runs

variable {setup : Setup τ} {s : State τ}

theorem tickWith_ticks (horderly : Orderly setup s) (turns : List (Turn τ)) :
    Ticks setup s (tickWith setup s turns).1 (tickWith setup s turns).2 := by
  have hready : Orderly setup { s with turns } := by
    cases horderly with
    | idle hs hcursor hstart hsent => exact .idle hs hcursor hstart hsent
    | begun h cursor hs hstart hcursor hstand =>
      exact .begun h cursor hs hstart hcursor ⟨hstand.placed, hstand.handled, hstand.in_order⟩
  obtain ⟨horderly', hlater, hstart, hcursor, hnears⟩ :=
    tick_ticks hready _ (ends_self (tick setup) { s with turns })
  exact ⟨horderly', ⟨hlater.stored, hlater.grows, hlater.contract, hlater.reverted⟩, hstart,
    hcursor, hnears⟩

/-- What a run keeps, and how near it brings what is still to come. -/
structure Runs (setup : Setup τ) (s : State τ) (results : List (Except Error (List Element)))
    (s' : State τ) : Prop where
  orderly : Orderly setup s'
  later : Later setup s s'
  start_kept : ∀ h, s.start = some h → s'.start = some h
  nears : ∀ h, (∀ h', s'.start = some h' → h' = h) → ∀ i e,
    (pending (afterCursor h s) s.db)[i]? = some e → Nears h (completed results) i e s'

theorem runTicks_runs (horderly : Orderly setup s) (ticks : List (List (Turn τ))) :
    Runs setup s (runTicks setup s ticks).1 (runTicks setup s ticks).2 := by
  induction ticks generalizing s with
  | nil =>
    exact ⟨horderly, refl_of (Later setup) s, fun _ => id,
      fun h _ i e he => Or.inr ⟨i, he, Nat.le_refl _⟩⟩
  | cons turns rest ih =>
    have hfirst := tickWith_ticks horderly turns
    have hrest := ih hfirst.orderly
    refine ⟨hrest.orderly, trans_of (Later setup) hfirst.later hrest.later,
      fun h hh => hrest.start_kept h (hfirst.start_kept h hh), fun h hone i e he => ?_⟩
    have hcount : completed (runTicks setup s (turns :: rest)).1 =
        (if (tickWith setup s turns).1.isOk = true then 1 else 0) +
          completed (runTicks setup (tickWith setup s turns).2 rest).1 := by
      change completed (_ :: _) = _
      unfold completed
      rw [List.countP_cons, Nat.add_comm]
    rcases hfirst.nears h (fun h' hh' => hone h' (hrest.start_kept h' hh')) i e he with
      hhandled | ⟨j, hj, hle⟩
    · exact Or.inl fun hburn => hrest.later.handled _ (hhandled hburn)
    · rcases hrest.nears h hone j e hj with hhandled | ⟨k, hk, hle'⟩
      · exact Or.inl hhandled
      · exact Or.inr ⟨k, hk, by rw [hcount]; omega⟩

theorem Orderly.above (horderly : Orderly setup s) (h : Height)
    (hone : ∀ h', s.start = some h' → h' = h) (p : ListTxnsPosition)
    (hp : Passes (afterCursor h s) p) : h < p.block := by
  cases horderly with
  | idle _ hcursor _ _ =>
    unfold afterCursor at hp
    rw [hcursor] at hp
    exact hp
  | begun h' cursor _ hstart hcursor hstand =>
    obtain rfl := hone h' hstart
    rw [afterCursor_eq hcursor] at hp
    exact hstand.above p hp

end Runs

/-- What every run from a state does: no burn is substituted twice, and a tick that fails
leaves the cursor. As long as no transaction that was waited for reverted, the burns behind
the cursor are substituted, and so is each listed one after as many completed ticks as it
takes to read up to it; nothing is sent for a burn before all burns listed before it are
substituted, so one that is not holds up the later ones. -/
structure ProcessesBurns (setup : Setup τ) (first : State τ) : Prop where
  once : ∀ ticks n, substitutions n (runTicks setup first ticks).2.contract.2 ≤ 1
  passed : ∀ ticks s, (runTicks setup first ticks).2 = s → s.reverted = [] →
    ∀ h cursor, s.start = some h → s.cursor = some (.after cursor) → ∀ e ∈ listing s.db,
      ListedBurn h e → ¬Passes cursor e.1 → Substituted s (nullifier e.2)
  reached : ∀ before s, (runTicks setup first before).2 = s → ∀ after s',
    (runTicks setup s after).2 = s' → s'.reverted = [] → ∀ h, s'.start = some h → ∀ i e,
      (pending (afterCursor h s) s.db)[i]? = some e → isBurn e.2 = true →
        i < 10 * completed (runTicks setup s after).1 → Substituted s' (nullifier e.2)
  failed : ∀ before s, (runTicks setup first before).2 = s → ∀ turns,
    (tickWith setup s turns).1.isOk = false →
      (tickWith setup s turns).2.cursor = s.cursor ∨ s.cursor = none ∧ ∃ h,
        (tickWith setup s turns).2.start = some h ∧
          (tickWith setup s turns).2.cursor = some (.after (startCursor h))
  in_order : ∀ ticks s, (runTicks setup first ticks).2 = s → s.reverted = [] → ∀ n ∈ s.sent,
    ∃ h, s.start = some h ∧ InTurn (Substituted s) h s n
  held_up : ∀ ticks s, (runTicks setup first ticks).2 = s → s.reverted = [] →
    ∀ h, s.start = some h → ∀ before e after, listing s.db = before ++ e :: after →
      ListedBurn h e → ¬Substituted s (nullifier e.2) →
        ∀ n ∈ s.sent, ∃ d ∈ before ++ [e], nullifier d.2 = n

theorem InTurn.mono {h : Height} {s : State τ} {n : Element} {isDone isDone' : Element → Prop}
    (hturn : InTurn isDone h s n) (hdone : ∀ m, isDone m → isDone' m) :
    InTurn isDone' h s n := by
  obtain ⟨before, e, after, hplace, hburn, hn, hbefore⟩ := hturn
  exact ⟨before, e, after, hplace, hburn, hn, fun d hd hd' => hdone _ (hbefore d hd hd')⟩

/-- A burn that is not done is among the first that nothing behind is sent for. -/
theorem InTurn.not_behind {h : Height} {s : State τ} {n : Element} {isDone : Element → Prop}
    (hturn : InTurn isDone h s n) (before after : List Listed) (e : Listed)
    (hplace : listing s.db = before ++ e :: after) (hburn : ListedBurn h e)
    (hnot : ¬isDone (nullifier e.2)) : ∃ d ∈ before ++ [e], nullifier d.2 = n := by
  obtain ⟨before', d, after', hplace', -, hn, hbefore⟩ := hturn
  rw [hplace, List.append_eq_append_iff] at hplace'
  rcases hplace' with ⟨later, rfl, hlater⟩ | ⟨later, rfl, hlater⟩
  · cases later with
    | nil => exact ⟨d, by rw [(List.cons.inj hlater).1]; simp, hn⟩
    | cons x later =>
      obtain ⟨rfl, -⟩ := List.cons.inj hlater
      exact absurd (hbefore e (by simp) hburn) hnot
  · cases later with
    | nil => exact ⟨d, by rw [← (List.cons.inj hlater).1]; simp, hn⟩
    | cons x later =>
      obtain ⟨rfl, -⟩ := List.cons.inj hlater
      exact ⟨d, by simp, hn⟩

/-- The burn substitutor substitutes all burns once and in order. -/
theorem ticks_process_burns (setup : Setup τ) (calls : List BlockFormat) (contract : Rollup τ) :
    ∃ db, sets (nodeApi setup.node) (create _ _) calls = .ok db ∧
      ProcessesBurns setup (new db contract) := by
  obtain ⟨db, hsets, hcontent⟩ := sets_content (nodeApi setup.node) calls
  have hnew : Orderly setup (new db contract) := .idle ⟨calls, hcontent⟩ rfl rfl rfl
  have hsent : ∀ ticks s, (runTicks setup (new db contract) ticks).2 = s → s.reverted = [] →
      ∀ n ∈ s.sent, ∃ h, s.start = some h ∧ InTurn (Substituted s) h s n := by
    rintro ticks s rfl hnone n hn
    cases (runTicks_runs hnew ticks).orderly with
    | idle _ _ _ hsent =>
      rw [hsent] at hn
      cases hn
    | begun h cursor _ hstart _ hstand =>
      exact ⟨h, hstart, InTurn.mono (hstand.in_order n hn) fun _ hm => hm.substituted hnone⟩
  refine ⟨db, hsets, fun ticks n => ?_, ?_, ?_, ?_, hsent, ?_⟩
  · exact (runTicks_runs hnew ticks).later.contract.once n
  · rintro ticks s rfl hnone h cursor hstart hcursor e he hburn hpassed
    cases (runTicks_runs hnew ticks).orderly with
    | idle _ _ hidle _ =>
      rw [hidle] at hstart
      cases hstart
    | begun h' cursor' _ hstart' hcursor' hstand =>
      obtain rfl : h' = h := Option.some.inj (hstart'.symm.trans hstart)
      rw [hcursor'] at hcursor
      cases hcursor
      exact (hstand.handled e he hburn hpassed).substituted hnone
  · rintro before s rfl after s' rfl hnone h hstart i e he hburn hlt
    have horderly := (runTicks_runs hnew before).orderly
    have hruns := runTicks_runs horderly after
    have hone : ∀ h', (runTicks setup (runTicks setup (new db contract) before).2 after).2.start =
        some h' → h' = h := fun h' hh' => Option.some.inj (hh'.symm.trans hstart)
    rcases hruns.nears h hone i e he with hhandled | ⟨j, -, hle⟩
    · refine (hhandled ⟨?_, hburn⟩).substituted hnone
      apply Orderly.above horderly h fun h' hh' => hone h' (hruns.start_kept h' hh')
      exact of_decide_eq_true (List.mem_filter.mp (List.mem_of_getElem? he)).2
    · omega
  · rintro before s rfl turns hfailed
    exact (tickWith_ticks (runTicks_runs hnew before).orderly turns).cursor_kept hfailed
  · intro ticks s hs hnone h hstart before e after hplace hburn hnot n hn
    obtain ⟨h', hstart', hturn⟩ := hsent ticks s hs hnone n hn
    obtain rfl : h' = h := Option.some.inj (hstart'.symm.trans hstart)
    exact InTurn.not_behind hturn before after e hplace hburn hnot

section Stuck

variable {setup : Setup τ} {s s' : State τ}

theorem await_quiet (hquiet : s.turns = []) (e : Error) (r : Except Error (Turn τ))
    (h : Ends (await setup e) s r s') : r = .ok quietTurn ∧ s' = s := by
  unfold await at h
  simp only [ends_bind, ends_ite, ends_throw, ends_pure] at h
  have hturn : Ends (nextTurn setup) s (.ok quietTurn) s := by
    unfold Ends nextTurn
    rw [hquiet]
  rcases h with ⟨e, h, -⟩ | ⟨turn, t, h, h'⟩
  · cases (h.unique hturn).1
  · obtain ⟨hr, rfl⟩ := h.unique hturn
    obtain rfl := Except.ok.inj hr
    rcases h' with ⟨hfails, -⟩ | ⟨-, rfl, rfl⟩
    · cases hfails
    · exact ⟨rfl, rfl⟩

/-- Whether a substitution would succeed now. -/
def canSubstitute (setup : Setup τ) (s : State τ) (e : Listed) : Bool :=
  wouldSucceed setup s.contract setup.signerAddress
    (.request (.substituteBurn (nullifier e.2) e.2.mbValue))

/-- The loop does not get past a burn whose substitution fails. -/
theorem substituteTxns_stuck (hquiet : s.turns = []) (e : Listed) (es : List Listed)
    (hburn : isBurn e.2 = true)
    (hmark : s.contract.1.substitutedBurns (nullifier e.2) = false)
    (hfails : canSubstitute setup s e = false) (r : Except Error (List Element))
    (h : Ends (substituteTxns setup ((e :: es).map Prod.snd)) s r s') :
    r.isOk = false ∧ s' = s := by
  have hcheck : ∀ r₁ t, Ends (wasBurnSubstituted setup (nullifier e.2)) s r₁ t →
      r₁ = .ok false ∧ t = s := by
    intro r₁ t h₁
    unfold wasBurnSubstituted at h₁
    simp only [ends_bind, ends_get, ends_pure] at h₁
    rcases h₁ with ⟨e, h₁, -⟩ | ⟨turn, u, h₁, ⟨e, ⟨he, -⟩, -⟩ | ⟨v, w, ⟨hv, rfl⟩, rfl, rfl⟩⟩
    · cases (await_quiet hquiet _ _ h₁).1
    · cases he
    · obtain rfl := Except.ok.inj hv
      obtain rfl := (await_quiet hquiet _ _ h₁).2
      exact ⟨congrArg Except.ok hmark, rfl⟩
  have hsend : ∀ r₁ t, Ends (substituteBurn setup (nullifier e.2) e.2.mbValue) s r₁ t →
      r₁.isOk = false ∧ t = s := by
    intro r₁ t h₁
    unfold substituteBurn at h₁
    simp only [ends_bind, ends_get, ends_ite, ends_throw] at h₁
    rcases h₁ with ⟨e, h₁, -⟩ | ⟨turn, u, h₁, ⟨e, ⟨he, -⟩, -⟩ | ⟨v, w, ⟨hv, rfl⟩,
      ⟨hok, -⟩ | ⟨-, rfl, rfl⟩⟩⟩
    · cases (await_quiet hquiet _ _ h₁).1
    · cases he
    · obtain rfl := Except.ok.inj hv
      obtain rfl := (await_quiet hquiet _ _ h₁).2
      exact absurd (hfails.symm.trans hok) Bool.false_ne_true
    · exact ⟨rfl, (await_quiet hquiet _ _ h₁).2⟩
  have hone : ∀ r₁ t, Ends (substituteTxn setup e.2) s r₁ t → r₁.isOk = false ∧ t = s := by
    intro r₁ t h₁
    unfold substituteTxn at h₁
    rw [if_pos hburn] at h₁
    simp only [ends_bind, ends_ite, ends_pure] at h₁
    rcases h₁ with ⟨e, h₁, -⟩ | ⟨was, u, h₁, h₂⟩
    · cases (hcheck _ _ h₁).1
    · obtain ⟨hwas, rfl⟩ := hcheck _ _ h₁
      obtain rfl := Except.ok.inj hwas
      rcases h₂ with ⟨habsurd, -⟩ | ⟨-, ⟨e, h₂, rfl⟩ | ⟨_, v, h₂, -⟩⟩
      · cases habsurd
      · exact ⟨rfl, (hsend _ _ h₂).2⟩
      · cases (hsend _ _ h₂).1
  rw [List.map_cons, substituteTxns] at h
  simp only [ends_bind] at h
  rcases h with ⟨e, h, rfl⟩ | ⟨one, t, h, -⟩
  · exact ⟨rfl, (hone _ _ h).2⟩
  · cases (hone _ _ h).1

theorem fetchTransactions_quiet (hs : Stored setup s) (hquiet : s.turns = [])
    (cursor : CursorChoiceAfter ListTxnsPosition)
    (r : Except Error (List UtxoProof × Cursor ListTxnsPosition))
    (h : Ends (fetchTransactions setup none (some (.after cursor))) s r s') :
    s' = s ∧ ∃ next, r = .ok (((pending cursor s.db).take 10).map Prod.snd, next) := by
  have hpage := (fetchTransactions_ends hs cursor r h).2
  unfold fetchTransactions at h
  simp only [ends_bind, ends_get] at h
  rcases h with ⟨e, h, -⟩ | ⟨turn, t, h, ⟨e, ⟨he, -⟩, -⟩ | ⟨u, v, ⟨hu, rfl⟩, h'⟩⟩
  · cases (await_quiet hquiet _ _ h).1
  · cases he
  · obtain rfl := Except.ok.inj hu
    obtain rfl := (await_quiet hquiet _ _ h).2
    obtain ⟨calls, hcontent⟩ := hs
    obtain ⟨blocks, hindex⟩ := exists_txnIndex setup.node turn.now turn.maxHeight hcontent
    obtain ⟨txns, hlist, -⟩ := listTxns_pending hindex none cursor
    rw [hlist] at h'
    obtain ⟨rfl, rfl⟩ := (ends_pure _ _ _ _).mp h'
    exact ⟨rfl, _, by rw [← (hpage _ rfl).1]⟩

/-- The cursor is set, and the rest that matters is as before. -/
structure Unmoved (cursor : CursorChoiceAfter ListTxnsPosition) (s s' : State τ) : Prop where
  cursor_eq : s'.cursor = some (.after cursor)
  contract_eq : s'.contract = s.contract
  db_eq : s'.db = s.db

theorem Unmoved.canSubstitute {cursor : CursorChoiceAfter ListTxnsPosition}
    (h : Unmoved cursor s s') (e : Listed) :
    canSubstitute setup s' e = canSubstitute setup s e := by
  unfold BurnRuns.canSubstitute
  rw [h.contract_eq]

/-- The cursor of the next request, if the block height is asked for now. -/
def Asks (cursor : CursorChoiceAfter ListTxnsPosition) (s : State τ) : Prop :=
  s.cursor = some (.after cursor) ∨ s.cursor = none ∧
    cursor = startCursor (Fin.ofNat (2 ^ 64) s.contract.1.blockHeight.toNat)

theorem initCursor_quiet (hquiet : s.turns = []) (cursor : CursorChoiceAfter ListTxnsPosition)
    (hcursor : Asks cursor s) (r : Except Error (CursorChoice ListTxnsPosition))
    (h : Ends (initCursor setup) s r s') :
    r = .ok (.after cursor) ∧ Unmoved cursor s s' ∧ s'.turns = [] := by
  unfold initCursor at h
  simp only [ends_bind, ends_get] at h
  rcases h with ⟨e, ⟨he, -⟩, -⟩ | ⟨u, v, ⟨hu, rfl⟩, h⟩
  · cases he
  · obtain rfl := Except.ok.inj hu
    rcases hcursor with hcursor | ⟨hcursor, rfl⟩
    · rw [hcursor] at h
      obtain ⟨rfl, rfl⟩ := (ends_pure _ _ _ _).mp h
      exact ⟨rfl, ⟨hcursor, rfl, rfl⟩, hquiet⟩
    · rw [hcursor] at h
      dsimp only at h
      unfold fetchLastRollupBlock at h
      simp only [ends_bind, ends_get, ends_modify, ends_pure] at h
      rcases h with ⟨e, ⟨e', h, -⟩ | ⟨turn, v, h, ⟨e, ⟨he, -⟩, -⟩ | ⟨_, _, _, he, -⟩⟩, -⟩ |
        ⟨h', v, ⟨e, -, he⟩ | ⟨turn, w, h, ⟨e, ⟨he, -⟩, -⟩ | ⟨x, y, ⟨hx, rfl⟩, hh, rfl⟩⟩, hset⟩
      · cases (await_quiet hquiet _ _ h).1
      · cases he
      · cases he
      · cases he
      · cases he
      · obtain rfl := Except.ok.inj hx
        obtain rfl := (await_quiet hquiet _ _ h).2
        obtain rfl := Except.ok.inj hh
        rcases hset with ⟨e, ⟨he, -⟩, -⟩ | ⟨_, z, ⟨-, rfl⟩, rfl, rfl⟩
        · cases he
        · exact ⟨rfl, ⟨rfl, rfl, rfl⟩, hquiet⟩

/-- A tick with nothing happening around it stops at a first burn whose substitution fails. -/
theorem tick_stuck (hs : Stored setup s) (hquiet : s.turns = [])
    (cursor : CursorChoiceAfter ListTxnsPosition) (hcursor : Asks cursor s)
    (e : Listed) (es : List Listed) (hpending : pending cursor s.db = e :: es)
    (hburn : isBurn e.2 = true)
    (hmark : s.contract.1.substitutedBurns (nullifier e.2) = false)
    (hfails : canSubstitute setup s e = false) (r : Except Error (List Element))
    (h : Ends (tick setup) s r s') : r.isOk = false ∧ Unmoved cursor s s' := by
  unfold tick at h
  rw [ends_bind] at h
  rcases h with ⟨e', h₁, -⟩ | ⟨c, t, h₁, h⟩
  · cases (initCursor_quiet hquiet cursor hcursor _ h₁).1
  · obtain ⟨hc, hunmoved, ht⟩ := initCursor_quiet hquiet cursor hcursor _ h₁
    obtain rfl := Except.ok.inj hc
    have hst : Stored setup t := by
      unfold BurnTicks.Stored
      rw [hunmoved.db_eq]
      exact hs
    rw [ends_bind] at h
    rcases h with ⟨e', h₂, -⟩ | ⟨page, u, h₂, h⟩
    · obtain ⟨-, next, hnext⟩ := fetchTransactions_quiet hst ht _ _ h₂
      cases hnext
    · obtain ⟨rfl, next, hnext⟩ := fetchTransactions_quiet hst ht _ _ h₂
      obtain rfl := Except.ok.inj hnext
      rw [hunmoved.db_eq, hpending, List.take_succ_cons] at h
      have hloop : ∀ r₃ v, Ends (substituteTxns setup ((e :: es.take 9).map Prod.snd)) u r₃ v →
          r₃.isOk = false ∧ v = u := by
        intro r₃ v h₃
        apply substituteTxns_stuck ht e _ hburn _ _ r₃ h₃
        · rw [hunmoved.contract_eq, hmark]
        · rw [hunmoved.canSubstitute, hfails]
      dsimp only at h
      rw [ends_bind] at h
      rcases h with ⟨e', h₃, rfl⟩ | ⟨burns, v, h₃, -⟩
      · rw [(hloop _ _ h₃).2]
        exact ⟨rfl, hunmoved⟩
      · cases (hloop _ _ h₃).1

def quietRun (setup : Setup τ) (s : State τ) (k : ℕ) : State τ :=
  (runTicks setup s (List.replicate k [])).2

/-- A later burn whose own substitution would succeed is substituted in the end, also if the
substitution of an earlier one keeps failing. -/
def LaterBurnsServed (setup : Setup τ) (s : State τ) : Prop :=
  ∀ before e between f after, listing s.db = before ++ e :: between ++ f :: after →
    isBurn e.2 = true → isBurn f.2 = true →
      (∀ k, canSubstitute setup (quietRun setup s k) e = false) →
        (∀ k, canSubstitute setup (quietRun setup s k) f = true ∨
          Substituted (quietRun setup s k) (nullifier f.2)) →
          ∃ k, Substituted (quietRun setup s k) (nullifier f.2)

/-- While nothing else happens, a first burn whose substitution fails stops all ticks. -/
theorem quietRun_stuck (cursor : CursorChoiceAfter ListTxnsPosition) (e : Listed)
    (es : List Listed) (hburn : isBurn e.2 = true) (k : ℕ) (s : State τ) (hs : Stored setup s)
    (hcursor : Asks cursor s) (hpending : pending cursor s.db = e :: es)
    (hmark : s.contract.1.substitutedBurns (nullifier e.2) = false)
    (hfails : canSubstitute setup s e = false) :
    (quietRun setup s k).contract = s.contract := by
  induction k generalizing s with
  | zero => rfl
  | succ k ih =>
    obtain ⟨-, hstuck⟩ := tick_stuck (s := { s with turns := [] }) hs rfl cursor hcursor e es
      hpending hburn hmark hfails _ (ends_self (tick setup) _)
    have hunmoved : Unmoved cursor s (tickWith setup s []).2 :=
      ⟨hstuck.cursor_eq, hstuck.contract_eq, hstuck.db_eq⟩
    have hs' : Stored setup (tickWith setup s []).2 := by
      unfold BurnTicks.Stored
      rw [hunmoved.db_eq]
      exact hs
    have hcontract := ih (tickWith setup s []).2 hs' (Or.inl hunmoved.cursor_eq)
      (by rw [hunmoved.db_eq, hpending]) (by rw [hunmoved.contract_eq, hmark])
      (by rw [hunmoved.canSubstitute, hfails])
    exact hcontract.trans hunmoved.contract_eq

end Stuck

section Blacklisted

def burnOf (nullifier : Element) : UtxoProof :=
  ⟨0#256, nullifier, 5#256, (nullifier, 0#256), (0#256, 0#256), []⟩

/-- A block with the burns of two nullifiers. -/
def twoBurns : BlockFormat :=
  .v1 ⟨⟨⟨1, 0#256, 0, 0#256, []⟩, ⟨0#256, [burnOf 1#256, burnOf 2#256]⟩⟩, Vector.replicate 65 0⟩

/-- A token that keeps a blacklist and pays nobody on it. -/
def blacklistEnv : Externals (RollupState.Address → Bool) where
  address := 9#160
  mintPlonk := fun _ _ => true
  burnPlonk := fun _ _ => true
  burnPlonkV2 := fun _ _ => true
  aggregatePlonk := fun _ _ => true
  keccak256 := fun _ => 0#256
  recover := fun _ _ _ _ => .ok 1#160
  domainSeparator := 0#256
  hasCode := fun _ _ => false
  isBlacklisted := fun listed account => listed account
  transfer := fun listed toAddr _ => if listed toAddr = true then .error [] else .ok listed
  transferFrom := fun listed _ _ _ => .ok listed
  approve := fun listed _ _ => .ok listed
  receiveWithAuthorization := fun listed _ _ _ _ _ _ _ _ _ => .ok listed

def burnSetup : Setup (RollupState.Address → Bool) :=
  ⟨trustingEnv, blacklistEnv, fun _ _ => .stop true, 1, 7#160⟩

/-- Two burns are registered, and then the receiver of the first is blacklisted. -/
def receiverBlacklisted :
    List (RollupState.Address × Call (RollupState.Address → Bool)) :=
  [(1#160, .request (.burnToAddress 0#256 3#256 [] 1#256 5#256 0#256 0#256)),
    (1#160, .request (.burnToAddress 0#256 4#256 [] 2#256 5#256 0#256 0#256)),
    (1#160, .world fun listed => Function.update listed 3#160 true)]

def blacklisted : Rollup (RollupState.Address → Bool) :=
  runNestedCalls blacklistEnv burnSetup.routers 1
    (initialState (fun _ => false) 7#160 2#160 [1#160] 0#256) receiverBlacklisted

theorem not_laterBurnsServed : ∃ db, sets (nodeApi burnSetup.node) (create _ _) [twoBurns] =
    .ok db ∧ ¬LaterBurnsServed burnSetup (new db blacklisted) := by
  obtain ⟨db, hsets, hcontent⟩ := sets_content (nodeApi burnSetup.node) [twoBurns]
  have hlisting : listing db = [(⟨1, 0⟩, burnOf 1#256), (⟨1, 1⟩, burnOf 2#256)] := by
    have hcreated : Content (nodeApi burnSetup.node) [] (create BlockFormat TxnFormat) :=
      create_content
    have hempty : Filed keyNonEmptyBlock (create BlockFormat TxnFormat) [] := by
      refine ⟨fun k v => ?_, List.Pairwise.nil⟩
      have hnone := hcreated.nonEmpty k
      change (create BlockFormat TxnFormat).lookup (.nonEmptyBlock k) = some v ↔ _
      rw [hnone]
      simp
    rw [listing_eq (filed_concat hcreated twoBurns rfl [] hempty db hcontent)]
    rfl
  let s : State (RollupState.Address → Bool) := new db blacklisted
  have hfails : canSubstitute burnSetup s (⟨1, 0⟩, burnOf 1#256) = false := by
    change wouldSucceed burnSetup (blacklisted, []) 7#160
      (.request (.substituteBurn 1#256 5#256)) = false
    decide
  have hserved : canSubstitute burnSetup s (⟨1, 1⟩, burnOf 2#256) = true := by
    change wouldSucceed burnSetup (blacklisted, []) 7#160
      (.request (.substituteBurn 2#256 5#256)) = true
    decide
  have hpending : pending (startCursor 0) db =
      [(⟨1, 0⟩, burnOf 1#256), (⟨1, 1⟩, burnOf 2#256)] := by
    unfold pending
    rw [hlisting]
    decide
  have hmark : ∀ n, blacklisted.substitutedBurns n = false := fun _ => rfl
  have hasks : Asks (startCursor 0) s := Or.inr ⟨rfl, rfl⟩
  have hall : ∀ k, (quietRun burnSetup s k).contract = s.contract := fun k =>
    quietRun_stuck (startCursor 0) _ _ (by decide) k s ⟨_, hcontent⟩ hasks hpending
      (hmark _) hfails
  have hsame : ∀ k e, canSubstitute burnSetup (quietRun burnSetup s k) e =
      canSubstitute burnSetup s e := by
    intro k e
    unfold canSubstitute
    rw [hall k]
  refine ⟨db, hsets, fun hall_served => ?_⟩
  obtain ⟨k, hsubstituted⟩ := hall_served [] (⟨1, 0⟩, burnOf 1#256) []
    (⟨1, 1⟩, burnOf 2#256) [] hlisting (by decide) (by decide)
    (fun k => (hsame k _).trans hfails) (fun k => Or.inl ((hsame k _).trans hserved))
  unfold Substituted at hsubstituted
  rw [hall k] at hsubstituted
  exact absurd ((hmark _).symm.trans hsubstituted) Bool.false_ne_true

end Blacklisted
end PayyRollup.BurnRuns
