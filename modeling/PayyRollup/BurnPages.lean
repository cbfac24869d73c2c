import PayyRollup.BurnTicks

/-!
The pages of the burn substitutor. Its cursor stands at the height it started from or at a
listed transaction, with every burn it has passed dealt with. A tick takes the next page of
what is still to come in the order of the listing, sends for a burn only when all burns
listed before it are dealt with, and either leaves the cursor or moves it behind the page.
What is still to come after the cursor is then ten places nearer.
-/
namespace PayyRollup.BurnPages

open NodeBlocks hiding Error
open RollupCalls hiding substituteBurn
open BlockStoreDb hiding Error Event
open ScalarField RollupState PaymentLog
open TxnPages TxnPaging PendingTxns Sessions BurnSubstitutor SubstitutionCounts BurnTicks

variable {τ : Type}

/-- A listed burn, before which all listed burns are done. -/
def InTurn (isDone : Element → Prop) (h : Height) (s : State τ) (n : Element) : Prop :=
  ∃ before e after, listing s.db = before ++ e :: after ∧ ListedBurn h e ∧ nullifier e.2 = n ∧
    ∀ d ∈ before, ListedBurn h d → isDone (nullifier d.2)

def InOrder (h : Height) (s : State τ) : Prop := ∀ n ∈ s.sent, InTurn (Handled s) h s n

/-- The cursor stands at the start or at a listed transaction, and has passed no burn that is
not dealt with. -/
structure Standing (h : Height) (cursor : CursorChoiceAfter ListTxnsPosition) (s : State τ) :
    Prop where
  placed : cursor = startCursor h ∨
    ∃ e ∈ listing s.db, h < e.1.block ∧ cursor = .afterInclusive e.1
  handled : ∀ e ∈ listing s.db, ListedBurn h e → ¬Passes cursor e.1 → Handled s (nullifier e.2)
  in_order : InOrder h s

section Order

variable {setup : Setup τ} {h : Height} {s s' : State τ}

theorem Later.inTurn (hlater : Later setup s s') (hs : Stored setup s) (n : Element)
    (hn : InTurn (Handled s) h s n) : InTurn (Handled s') h s' n := by
  obtain ⟨before, e, after, hplace, hburn, hn, hbefore⟩ := hn
  obtain ⟨more, hmore, -⟩ := hlater.grows hs
  refine ⟨before, e, after ++ more, by rw [hmore, hplace]; simp, hburn, hn, fun d hd hd' => ?_⟩
  exact hlater.handled _ (hbefore d hd hd')

/-- What the store adds is behind the cursor. -/
theorem Standing.later {cursor : CursorChoiceAfter ListTxnsPosition}
    (hstand : Standing h cursor s) (hlater : Later setup s s') (hs : Stored setup s)
    (hsent : InOrder h s') : Standing h cursor s' := by
  obtain ⟨more, hmore, habove⟩ := hlater.grows hs
  refine ⟨?_, fun e he hburn hpassed => ?_, hsent⟩
  · rcases hstand.placed with hstart | ⟨e, he, hplaced⟩
    · exact Or.inl hstart
    · exact Or.inr ⟨e, by rw [hmore]; exact List.mem_append_left _ he, hplaced⟩
  · rw [hmore, List.mem_append] at he
    rcases he with he | he
    · exact hlater.handled _ (hstand.handled e he hburn hpassed)
    · refine absurd ?_ hpassed
      rcases hstand.placed with rfl | ⟨d, hd, -, rfl⟩
      · exact hburn.above
      · exact Or.inl (habove d hd e he)

theorem InOrder.later (horder : InOrder h s) (hlater : Later setup s s') (hs : Stored setup s)
    (hsent : s'.sent = s.sent) : InOrder h s' := by
  intro n hn
  rw [hsent] at hn
  exact Later.inTurn hlater hs n (horder n hn)

/-- The loop of a tick goes over the listed transactions in order. -/
theorem substituteTxns_ends (es : List Listed) (before after : List Listed)
    (hplace : listing s.db = before ++ es ++ after) (hs : Stored setup s)
    (habove : ∀ e ∈ es, h < e.1.block)
    (hbefore : ∀ d ∈ before, ListedBurn h d → Handled s (nullifier d.2)) (horder : InOrder h s)
    (r : Except Error (List Element))
    (hends : Ends (substituteTxns setup (es.map Prod.snd)) s r s') :
    Later setup s s' ∧ s'.cursor = s.cursor ∧ s'.start = s.start ∧ InOrder h s' ∧
      (r.isOk = true → ∀ e ∈ es, ListedBurn h e → Handled s' (nullifier e.2)) := by
  induction es generalizing s before after r with
  | nil =>
    obtain ⟨-, rfl⟩ := (ends_pure _ _ _ _).mp hends
    exact ⟨refl_of (Later setup) s', rfl, rfl, horder, fun _ e he => absurd he (by simp)⟩
  | cons e es ih =>
    obtain ⟨hown, habove⟩ := List.forall_mem_cons.mp habove
    have hfirst : ∀ r₁ t, Ends (substituteTxn setup e.2) s r₁ t → Later setup s t ∧
        t.cursor = s.cursor ∧ t.start = s.start ∧ InOrder h t ∧
          (r₁.isOk = true → isBurn e.2 = true → Handled t (nullifier e.2)) := by
      intro r₁ t h₁
      obtain ⟨hlater, hcursor, hstart, hsent, hhandled⟩ := substituteTxn_ends e.2 r₁ h₁
      refine ⟨hlater, hcursor, hstart, ?_, hhandled⟩
      rcases hsent with hsent | ⟨hburn, hsent⟩
      · exact horder.later hlater hs hsent
      · intro n hn
        apply Later.inTurn hlater hs
        rw [hsent, List.mem_append, List.mem_singleton] at hn
        rcases hn with hn | rfl
        · exact horder n hn
        · exact ⟨before, e, es ++ after, by rw [hplace]; simp, ⟨hown, hburn⟩, rfl, hbefore⟩
    rw [List.map_cons, substituteTxns] at hends
    simp only [ends_bind, ends_pure] at hends
    rcases hends with ⟨e', h₁, rfl⟩ | ⟨one, t, h₁, h₂⟩
    · obtain ⟨hlater, hcursor, hstart, horder', -⟩ := hfirst _ _ h₁
      exact ⟨hlater, hcursor, hstart, horder', fun hr => by cases hr⟩
    · obtain ⟨hlater, hcursor, hstart, horder', hhandled⟩ := hfirst _ _ h₁
      obtain ⟨more, hmore, -⟩ := hlater.grows hs
      have hrest : ∀ r₂, Ends (substituteTxns setup (es.map Prod.snd)) t r₂ s' →
          Later setup s s' ∧ s'.cursor = s.cursor ∧ s'.start = s.start ∧ InOrder h s' ∧
            (r₂.isOk = true → ∀ d ∈ e :: es, ListedBurn h d → Handled s' (nullifier d.2)) := by
        intro r₂ h₂
        obtain ⟨hlater', hcursor', hstart', horder'', hhandled'⟩ := ih (before ++ [e])
          (after ++ more) (by rw [hmore, hplace]; simp) (hlater.stored hs) habove (by
            intro d hd hburn
            rcases List.mem_append.mp hd with hd | hd
            · exact hlater.handled _ (hbefore d hd hburn)
            · rw [List.mem_singleton.mp hd] at hburn ⊢
              exact hhandled rfl hburn.burn) horder' r₂ h₂
        refine ⟨trans_of (Later setup) hlater hlater', hcursor'.trans hcursor,
          hstart'.trans hstart, horder'', fun hr d hd hburn => ?_⟩
        rcases List.mem_cons.mp hd with rfl | hd
        · exact hlater'.handled _ (hhandled rfl hburn.burn)
        · exact hhandled' hr d hd hburn
      rcases h₂ with ⟨e', h₂, rfl⟩ | ⟨others, t', h₂, rfl, rfl⟩
      · obtain ⟨hlater', hcursor', hstart', horder'', -⟩ := hrest _ h₂
        exact ⟨hlater', hcursor', hstart', horder'', fun hr => by cases hr⟩
      · obtain ⟨hlater', hcursor', hstart', horder'', hall⟩ := hrest _ h₂
        exact ⟨hlater', hcursor', hstart', horder'', fun _ => hall rfl⟩

end Order

section Ticks

variable {setup : Setup τ} {s s' : State τ}

/-- The page after a cursor, as the substitutor reads it. -/
theorem fetchTransactions_ends (hs : Stored setup s)
    (cursor : CursorChoiceAfter ListTxnsPosition)
    (r : Except Error (List UtxoProof × Cursor ListTxnsPosition))
    (h : Ends (fetchTransactions setup none (some (.after cursor))) s r s') :
    Waits setup s s' ∧ ∀ page, r = .ok page →
      page.1 = ((pending cursor s'.db).take 10).map Prod.snd ∧
        page.2.after = ((pending cursor s'.db).take 10).getLast?.map fun e =>
          .afterInclusive e.1 := by
  unfold fetchTransactions at h
  simp only [ends_bind, ends_get] at h
  rcases h with ⟨e, h, rfl⟩ | ⟨turn, t, h, h'⟩
  · exact ⟨await_waits _ h, fun page hpage => by cases hpage⟩
  · have hwait := await_waits _ h
    rcases h' with ⟨e, ⟨he, -⟩, -⟩ | ⟨u, t', ⟨hu, rfl⟩, h'⟩
    · cases he
    · obtain rfl := Except.ok.inj hu
      obtain ⟨calls, hcontent⟩ := hwait.stored hs
      obtain ⟨blocks, hindex⟩ := exists_txnIndex setup.node turn.now turn.maxHeight hcontent
      obtain ⟨txns, hlist, hentries⟩ := listTxns_pending hindex none cursor
      rw [hlist] at h'
      obtain ⟨rfl, rfl⟩ := (ends_pure _ _ _ _).mp h'
      refine ⟨hwait, fun page hpage => ?_⟩
      obtain rfl := Except.ok.inj hpage
      have htake : (pending cursor s'.db).take 10 = txns.map entry := hentries.symm
      rw [htake, List.map_map, List.getLast?_map, Option.map_map]
      exact ⟨rfl, rfl⟩

/-- The cursor of the next request, from the height it starts at. -/
def afterCursor (h : Height) (s : State τ) : CursorChoiceAfter ListTxnsPosition :=
  match s.cursor with
  | some (.after cursor) => cursor
  | _ => startCursor h

/-- Before the first answer there is no cursor; from then on it stands. -/
inductive Orderly (setup : Setup τ) (s : State τ) : Prop
  | idle : Stored setup s → s.cursor = none → s.start = none → s.sent = [] → Orderly setup s
  | begun (h : Height) (cursor : CursorChoiceAfter ListTxnsPosition) : Stored setup s →
      s.start = some h → s.cursor = some (.after cursor) → Standing h cursor s →
      Orderly setup s

theorem Orderly.stored (h : Orderly setup s) : Stored setup s := by
  cases h with
  | idle hs _ _ _ => exact hs
  | begun _ _ hs _ _ _ => exact hs

theorem fetchLastRollupBlock_waits (r : Except Error Height)
    (h : Ends (fetchLastRollupBlock setup) s r s') : Waits setup s s' := by
  unfold fetchLastRollupBlock at h
  simp only [ends_bind, ends_get, ends_pure] at h
  rcases h with ⟨e, h, -⟩ | ⟨turn, t, h, ⟨e, ⟨he, -⟩, -⟩ | ⟨u, t', ⟨-, rfl⟩, -, rfl⟩⟩
  · exact await_waits _ h
  · cases he
  · exact await_waits _ h

theorem standing_start (h : Height) (hsent : s.sent = []) :
    Standing h (startCursor h) s := by
  refine ⟨Or.inl rfl, fun e _ hburn hpassed => absurd hburn.above hpassed, fun n hn => ?_⟩
  rw [hsent] at hn
  cases hn

/-- A tick waits in vain for the block height, or has a cursor that stands. -/
theorem initCursor_ends (horderly : Orderly setup s)
    (r : Except Error (CursorChoice ListTxnsPosition))
    (hends : Ends (initCursor setup) s r s') :
    (Waits setup s s' ∧ s.cursor = none ∧ ∃ e, r = .error e) ∨
      ∃ h, r = .ok (.after (afterCursor h s)) ∧ Later setup s s' ∧ s'.start = some h ∧
        s'.cursor = some (.after (afterCursor h s)) ∧ Standing h (afterCursor h s) s' ∧
        ∀ h', s.start = some h' → h' = h := by
  unfold initCursor at hends
  simp only [ends_bind, ends_get] at hends
  rcases hends with ⟨e, ⟨he, -⟩, -⟩ | ⟨u, t, ⟨hu, rfl⟩, hends⟩
  · cases he
  · obtain rfl := Except.ok.inj hu
    cases horderly with
    | idle hs hcursor hstart hsent =>
      rw [hcursor] at hends
      dsimp only at hends
      simp only [ends_bind, ends_modify, ends_pure] at hends
      rcases hends with ⟨e, hends, rfl⟩ | ⟨h, t', hends, hset⟩
      · exact Or.inl ⟨fetchLastRollupBlock_waits _ hends, hcursor, e, rfl⟩
      · have hwait := fetchLastRollupBlock_waits _ hends
        rcases hset with ⟨e, ⟨he, -⟩, -⟩ | ⟨_, t₂, ⟨-, rfl⟩, rfl, rfl⟩
        · cases he
        · have hat : afterCursor h u = startCursor h := by
            unfold afterCursor
            rw [hcursor]
          refine Or.inr ⟨h, ?_⟩
          rw [hat]
          refine ⟨rfl, hwait.toLater.with_cursor _ _ t'.sent, rfl, rfl,
            standing_start h (hwait.sent_eq.trans hsent), fun h' hh' => ?_⟩
          rw [hstart] at hh'
          cases hh'
    | begun h cursor hs hstart hcursor hstand =>
      rw [hcursor] at hends
      obtain ⟨rfl, rfl⟩ := (ends_pure _ _ _ _).mp hends
      have hat : afterCursor h s' = cursor := by
        unfold afterCursor
        rw [hcursor]
      refine Or.inr ⟨h, ?_⟩
      rw [hat]
      refine ⟨rfl, refl_of (Later setup) s', hstart, hcursor, hstand, fun h' hh' => ?_⟩
      rw [hstart] at hh'
      exact (Option.some.inj hh').symm

/-- A transaction that is still to come at some place comes nearer, or is passed. -/
def Nears (h : Height) (completedTicks i : ℕ) (e : Listed) (s' : State τ) : Prop :=
  (ListedBurn h e → Handled s' (nullifier e.2)) ∨
    ∃ j, (pending (afterCursor h s') s'.db)[j]? = some e ∧ j + 10 * completedTicks ≤ i

/-- What a tick does: the state stays orderly, an error leaves the cursor, and what is still
to come comes nearer by a page if the tick completes. -/
structure Ticks (setup : Setup τ) (s : State τ) (r : Except Error (List Element))
    (s' : State τ) : Prop where
  orderly : Orderly setup s'
  later : Later setup s s'
  start_kept : ∀ h, s.start = some h → s'.start = some h
  cursor_kept : r.isOk = false → s'.cursor = s.cursor ∨
    s.cursor = none ∧ ∃ h, s'.start = some h ∧ s'.cursor = some (.after (startCursor h))
  nears : ∀ h, (∀ h', s'.start = some h' → h' = h) → ∀ i e,
    (pending (afterCursor h s) s.db)[i]? = some e → Nears h (if r.isOk = true then 1 else 0) i e s'

theorem pending_append {db db' : Db BlockFormat TxnFormat} {more : List Listed}
    (hmore : listing db' = listing db ++ more) (cursor : CursorChoiceAfter ListTxnsPosition)
    (i : ℕ) (e : Listed) (he : (pending cursor db)[i]? = some e) :
    (pending cursor db')[i]? = some e := by
  unfold pending at he ⊢
  rw [hmore, List.filter_append, List.getElem?_append_left]
  · exact he
  · exact (List.getElem?_eq_some_iff.mp he).1

theorem Later.pending (hlater : Later setup s s') (hs : Stored setup s)
    (cursor : CursorChoiceAfter ListTxnsPosition) (i : ℕ) (e : Listed)
    (he : (pending cursor s.db)[i]? = some e) : (pending cursor s'.db)[i]? = some e := by
  obtain ⟨more, hmore, -⟩ := hlater.grows hs
  exact pending_append hmore cursor i e he

theorem Stored.sorted (hs : Stored setup s) :
    (listing s.db).Pairwise fun d e => ListTxnsPosition.Lt d.1 e.1 := by
  obtain ⟨calls, hcontent⟩ := hs
  obtain ⟨blocks, hindex⟩ := exists_txnIndex setup.node 0 0 hcontent
  exact listing_sorted hindex

theorem Standing.above {h : Height} {cursor : CursorChoiceAfter ListTxnsPosition}
    (hstand : Standing h cursor s) (p : ListTxnsPosition) (hp : Passes cursor p) :
    h < p.block := by
  rcases hstand.placed with rfl | ⟨d, -, hd, rfl⟩
  · exact hp
  · rcases hp with hp | ⟨hp, -⟩
    · exact lt_trans hd hp
    · rwa [← hp]

theorem afterCursor_eq {h : Height} {cursor : CursorChoiceAfter ListTxnsPosition}
    (hcursor : s.cursor = some (.after cursor)) : afterCursor h s = cursor := by
  unfold afterCursor
  rw [hcursor]

theorem Orderly.cursor (horderly : Orderly setup s) (h : Height) :
    s.cursor = some (.after (afterCursor h s)) ∨
      s.cursor = none ∧ afterCursor h s = startCursor h := by
  cases horderly with
  | idle _ hcursor _ _ =>
    refine Or.inr ⟨hcursor, ?_⟩
    unfold afterCursor
    rw [hcursor]
  | begun h' cursor _ _ hcursor _ => exact Or.inl (by rw [afterCursor_eq hcursor, hcursor])

/-- A tick that leaves the cursor where it was. -/
theorem ticks_held (horderly : Orderly setup s) (h : Height)
    (hone : ∀ h', s.start = some h' → h' = h) (hlater : Later setup s s')
    (hstart : s'.start = some h) (hcursor : s'.cursor = some (.after (afterCursor h s)))
    (hstand : Standing h (afterCursor h s) s') (r : Except Error (List Element))
    (hdone : r.isOk = true → pending (afterCursor h s) s.db = []) : Ticks setup s r s' := by
  refine ⟨Orderly.begun h _ (hlater.stored horderly.stored) hstart hcursor hstand, hlater,
    fun h' hh' => by rw [hstart, hone h' hh'], fun _ => ?_, fun h' hh' i e he => ?_⟩
  · rcases horderly.cursor h with hs | ⟨hs, hat⟩
    · exact Or.inl (hcursor.trans hs.symm)
    · exact Or.inr ⟨hs, h, hstart, by rw [hcursor, hat]⟩
  · obtain rfl : h = h' := hh' h hstart
    cases hr : r.isOk with
    | true =>
      rw [hdone hr] at he
      cases he
    | false =>
      refine Or.inr ⟨i, ?_, Nat.le_refl _⟩
      rw [afterCursor_eq hcursor]
      exact Later.pending hlater horderly.stored _ i e he

/-- A tick that completes moves the cursor behind its page. -/
theorem ticks_moved (horderly : Orderly setup s) (h : Height)
    (hone : ∀ h', s.start = some h' → h' = h) (t : State τ) (hlater : Later setup s t)
    (hstand : Standing h (afterCursor h s) t) (u : State τ) (hlater' : Later setup t u)
    (horder : InOrder h u) (init : List Listed) (last : Listed)
    (hpage : (pending (afterCursor h s) t.db).take 10 = init ++ [last])
    (hhandled : ∀ e ∈ init ++ [last], ListedBurn h e → Handled u (nullifier e.2))
    (hstart : u.start = some h) (r : Except Error (List Element)) (hr : r.isOk = true) :
    Ticks setup s r { u with cursor := some (.after (.afterInclusive last.1)) } := by
  have hs := hlater.stored horderly.stored
  have hs' := hlater'.stored hs
  obtain ⟨more, hmore, habove⟩ := hlater'.grows hs
  let passed := (listing t.db).filter fun e => !decide (Passes (afterCursor h s) e.1)
  let rest := (pending (afterCursor h s) t.db).drop 10
  have hplace : listing t.db = (passed ++ init) ++ last :: rest := by
    have hsplit := listing_split (Stored.sorted hs) (afterCursor h s)
    rw [← List.take_append_drop 10 (pending (afterCursor h s) t.db), hpage] at hsplit
    rw [hsplit]
    simp [passed, rest]
  have hplace' : listing u.db = (passed ++ init) ++ last :: (rest ++ more) := by
    rw [hmore, hplace]
    simp
  have hin : last ∈ listing t.db := by
    rw [hplace]
    simp
  have hlast : Passes (afterCursor h s) last.1 := by
    have hmem : last ∈ pending (afterCursor h s) t.db := by
      apply List.mem_of_mem_take (i := 10)
      rw [hpage]
      simp
    exact of_decide_eq_true (List.mem_filter.mp hmem).2
  have hnew : Standing h (.afterInclusive last.1) u := by
    refine ⟨Or.inr ⟨last, by rw [hplace']; simp, hstand.above last.1 hlast, rfl⟩,
      fun e he hburn hpassed => ?_, horder⟩
    rw [hplace', List.append_cons, List.mem_append] at he
    rcases he with he | he
    · rw [List.append_assoc, List.mem_append] at he
      rcases he with he | he
      · obtain ⟨hmem, hnot⟩ := List.mem_filter.mp he
        apply hlater'.handled
        exact hstand.handled e hmem hburn (by simpa using hnot)
      · exact hhandled e he hburn
    · have hsorted := Stored.sorted hs'
      rw [hplace', List.pairwise_append, List.pairwise_cons] at hsorted
      exact absurd (hsorted.2.1.1 e he) hpassed
  have hall : Later setup s { u with cursor := some (.after (.afterInclusive last.1)) } :=
    (trans_of (Later setup) hlater hlater').with_cursor _ u.start u.sent
  refine ⟨Orderly.begun h _ hs' hstart rfl ⟨hnew.placed, hnew.handled, hnew.in_order⟩, hall,
    fun h' hh' => ?_, fun hfail => ?_, fun h' hh' i e he => ?_⟩
  · rw [hone h' hh']
    exact hstart
  · rw [hr] at hfail
    cases hfail
  obtain rfl : h = h' := hh' h hstart
  have het := Later.pending hlater horderly.stored _ i e he
  rcases Nat.lt_or_ge i 10 with hlt | hge
  · left
    intro hburn
    apply hhandled e _ hburn
    rw [← hpage]
    apply List.mem_of_getElem? (i := i)
    rw [List.getElem?_take_of_lt hlt, het]
  · right
    refine ⟨i - 10, ?_, by rw [hr, if_pos rfl]; omega⟩
    have hrest : rest[i - 10]? = some e := by
      unfold rest
      rw [List.getElem?_drop, ← het]
      congr 1
      omega
    have hpending := pending_afterInclusive (Stored.sorted hs') _ _ last hplace'
    change (pending (.afterInclusive last.1) u.db)[i - 10]? = some e
    rw [hpending, List.getElem?_append_left (List.getElem?_eq_some_iff.mp hrest).1]
    exact hrest

/-- The loop over the page after the cursor. -/
theorem page_ends (hs : Stored setup s) {h : Height}
    {cursor : CursorChoiceAfter ListTxnsPosition} (hstand : Standing h cursor s)
    (r : Except Error (List Element))
    (hends : Ends (substituteTxns setup (((pending cursor s.db).take 10).map Prod.snd)) s r s') :
    Later setup s s' ∧ s'.cursor = s.cursor ∧ s'.start = s.start ∧ InOrder h s' ∧
      (r.isOk = true → ∀ e ∈ (pending cursor s.db).take 10, ListedBurn h e →
        Handled s' (nullifier e.2)) := by
  apply substituteTxns_ends ((pending cursor s.db).take 10)
    ((listing s.db).filter fun e => !decide (Passes cursor e.1)) ((pending cursor s.db).drop 10)
    ?_ hs ?_ ?_ hstand.in_order r hends
  · rw [List.append_assoc, List.take_append_drop]
    exact listing_split (Stored.sorted hs) cursor
  · intro e he
    have hpasses := (List.mem_filter.mp (List.mem_of_mem_take he)).2
    exact hstand.above e.1 (of_decide_eq_true hpasses)
  · intro d hd hburn
    obtain ⟨hmem, hnot⟩ := List.mem_filter.mp hd
    exact hstand.handled d hmem hburn (by simpa using hnot)

theorem tick_ticks (horderly : Orderly setup s) (r : Except Error (List Element))
    (hends : Ends (tick setup) s r s') : Ticks setup s r s' := by
  unfold tick at hends
  rw [ends_bind] at hends
  rcases hends with ⟨e, hinit, rfl⟩ | ⟨cursor, t, hinit, hends⟩
  · rcases initCursor_ends horderly _ hinit with ⟨hwait, hcursor, -⟩ | ⟨h, hok, -⟩
    · cases horderly with
      | idle hs _ hstart hsent =>
        refine ⟨Orderly.idle (hwait.stored hs) (hwait.cursor_eq.trans hcursor)
          (hwait.start_eq.trans hstart) (hwait.sent_eq.trans hsent), hwait.toLater,
          fun h hh => hwait.start_eq.trans hh, fun _ => Or.inl hwait.cursor_eq,
          fun h _ i e he => Or.inr ⟨i, ?_, Nat.le_refl _⟩⟩
        have hat : afterCursor h s' = afterCursor h s := by
          unfold afterCursor
          rw [hwait.cursor_eq]
        rw [hat]
        exact Later.pending hwait.toLater hs _ i e he
      | begun _ _ _ _ hbegun _ =>
        rw [hcursor] at hbegun
        cases hbegun
    · cases hok
  · rcases initCursor_ends horderly _ hinit with ⟨-, -, e, he⟩ | ⟨h, hok, hlater, hstart, hcursor,
      hstand, hone⟩
    · cases he
    · obtain rfl := Except.ok.inj hok
      have hs := hlater.stored horderly.stored
      rw [ends_bind] at hends
      rcases hends with ⟨e, hfetch, rfl⟩ | ⟨⟨txns, next⟩, u, hfetch, hends⟩
      · have hwait := (fetchTransactions_ends hs _ _ hfetch).1
        refine ticks_held horderly h hone (trans_of (Later setup) hlater hwait.toLater)
          (hwait.start_eq.trans hstart) (hwait.cursor_eq.trans hcursor) ?_ _
          (fun hr => by cases hr)
        exact hstand.later hwait.toLater hs (hstand.in_order.later hwait.toLater hs hwait.sent_eq)
      · obtain ⟨hwait, hpage⟩ := fetchTransactions_ends hs _ _ hfetch
        obtain ⟨htxns, hnext⟩ := hpage _ rfl
        dsimp only at htxns hnext hends
        have hs₁ := hwait.stored hs
        have hstand₁ := hstand.later hwait.toLater hs
          (hstand.in_order.later hwait.toLater hs hwait.sent_eq)
        have hlater₁ := trans_of (Later setup) hlater hwait.toLater
        have hcursor₁ := hwait.cursor_eq.trans hcursor
        have hstart₁ := hwait.start_eq.trans hstart
        rw [htxns, ends_bind] at hends
        rcases hends with ⟨e, hloop, rfl⟩ | ⟨burns, v, hloop, hends⟩
        · obtain ⟨hlater₂, hcursor₂, hstart₂, horder₂, -⟩ := page_ends hs₁ hstand₁ _ hloop
          exact ticks_held horderly h hone (trans_of (Later setup) hlater₁ hlater₂)
            (hstart₂.trans hstart₁) (hcursor₂.trans hcursor₁)
            (hstand₁.later hlater₂ hs₁ horder₂) _ (fun hr => by cases hr)
        · obtain ⟨hlater₂, hcursor₂, hstart₂, horder₂, hhandled⟩ := page_ends hs₁ hstand₁ _ hloop
          rw [ends_ite] at hends
          rcases List.eq_nil_or_concat' ((pending (afterCursor h s) u.db).take 10) with
            hempty | ⟨init, last, hlast⟩
          · have hnone : pending (afterCursor h s) u.db = [] := by
              rw [List.take_eq_nil_iff] at hempty
              exact hempty.resolve_left (by omega)
            have hdone : pending (afterCursor h s) s.db = [] := by
              rw [List.eq_nil_iff_forall_not_mem]
              intro e he
              obtain ⟨i, hi⟩ := List.mem_iff_getElem?.mp he
              have hmem := Later.pending hlater₁ horderly.stored _ i e hi
              rw [hnone] at hmem
              cases hmem
            rcases hends with ⟨-, hends⟩ | ⟨hne, -⟩
            · obtain ⟨rfl, rfl⟩ := (ends_pure _ _ _ _).mp hends
              exact ticks_held horderly h hone (trans_of (Later setup) hlater₁ hlater₂)
                (hstart₂.trans hstart₁) (hcursor₂.trans hcursor₁)
                (hstand₁.later hlater₂ hs₁ horder₂) _ fun _ => hdone
            · rw [hempty] at hne
              exact absurd rfl hne
          · rcases hends with ⟨hnil, -⟩ | ⟨-, hends⟩
            · rw [hlast] at hnil
              simp at hnil
            · simp only [ends_bind, ends_modify, ends_pure] at hends
              rcases hends with ⟨e, ⟨he, -⟩, -⟩ | ⟨_, w, ⟨-, rfl⟩, rfl, rfl⟩
              · cases he
              · have hmoved := ticks_moved horderly h hone u hlater₁ hstand₁ v hlater₂ horder₂
                  init last hlast (by rw [← hlast]; exact hhandled rfl) (hstart₂.trans hstart₁)
                  (.ok burns) rfl
                rw [hnext, hlast]
                simpa using hmoved

end Ticks
end PayyRollup.BurnPages
