import PayyRollup.BurnSubstitutor
import PayyRollup.SubstitutionCounts

/-!
The ticks of the burn substitutor. Whatever happens between the answers, a burn is
substituted at most once, and a tick moves the cursor only behind burns that are dealt with:
they are substituted, or their substitution was mined while the tick waited for it. A tick
that completes goes on by a whole page. Burns are taken in the order in which they are
listed and an error ends the tick, so nothing is sent for a burn before all burns listed
before it are dealt with, and one that keeps failing holds up the later ones.
-/
namespace PayyRollup.BurnTicks

open NodeBlocks hiding Error
open RollupCalls hiding substituteBurn
open BlockStoreDb hiding Error Event
open ScalarField Transactions RollupState CallBacks PaymentLog PaymentEffects
open TxnPages TxnPaging PendingTxns Sessions BurnSubstitutor SubstitutionCounts

variable {τ : Type}

def Substituted (s : State τ) (n : Element) : Prop := s.contract.1.substitutedBurns n = true

/-- What a tick takes for done: the burn is substituted, or its substitution reverted when it
was mined, which nothing looks at. -/
def Handled (s : State τ) (n : Element) : Prop := Substituted s n ∨ n ∈ s.reverted

theorem Handled.substituted {s : State τ} {n : Element} (h : Handled s n)
    (hnone : s.reverted = []) : Substituted s n := by
  rcases h with h | h
  · exact h
  · rw [hnone] at h
    cases h

/-- A burn in a block above the one the cursor started from. -/
structure ListedBurn (h : Height) (e : Listed) : Prop where
  above : h < e.1.block
  burn : isBurn e.2 = true

/-- More is listed behind what is listed already. -/
def Grows (db db' : Db BlockFormat TxnFormat) : Prop :=
  ∃ more, listing db' = listing db ++ more ∧
    ∀ d ∈ listing db, ∀ e ∈ more, d.1.block < e.1.block

theorem Grows.trans {db db' db'' : Db BlockFormat TxnFormat} (h : Grows db db')
    (h' : Grows db' db'') : Grows db db'' := by
  obtain ⟨more, hmore, habove⟩ := h
  obtain ⟨more', hmore', habove'⟩ := h'
  refine ⟨more ++ more', by rw [hmore', hmore, List.append_assoc], fun d hd e he => ?_⟩
  rcases List.mem_append.mp he with he | he
  · exact habove d hd e he
  · exact habove' d (by rw [hmore]; exact List.mem_append_left _ hd) e he

section Steps

variable (setup : Setup τ)

/-- The store holds the records of the blocks it was filled with. -/
def Stored (s : State τ) : Prop := ∃ calls, Content (nodeApi setup.node) calls s.db

/-- What any part of a tick keeps. -/
structure Later (s s' : State τ) : Prop where
  stored : Stored setup s → Stored setup s'
  grows : Stored setup s → Grows s.db s'.db
  contract : SubstitutesOnce s.contract s'.contract
  reverted : ∀ n ∈ s.reverted, n ∈ s'.reverted

instance : IsPreorder (State τ) (Later setup) where
  refl s := ⟨id, fun _ => ⟨[], (List.append_nil _).symm, fun _ _ _ he => absurd he (by simp)⟩,
    refl_of SubstitutesOnce _, fun _ => id⟩
  trans _ _ _ h h' :=
    ⟨fun hs => h'.stored (h.stored hs),
      fun hs => (h.grows hs).trans (h'.grows (h.stored hs)),
      trans_of SubstitutesOnce h.contract h'.contract,
      fun n hn => h'.reverted n (h.reverted n hn)⟩

/-- What waiting keeps. -/
structure Waits (s s' : State τ) : Prop extends Later setup s s' where
  cursor_eq : s'.cursor = s.cursor
  start_eq : s'.start = s.start
  sent_eq : s'.sent = s.sent

instance : IsPreorder (State τ) (Waits setup) where
  refl s := ⟨refl_of (Later setup) s, rfl, rfl, rfl⟩
  trans _ _ _ h h' :=
    ⟨trans_of (Later setup) h.toLater h'.toLater, h'.cursor_eq.trans h.cursor_eq,
      h'.start_eq.trans h.start_eq, h'.sent_eq.trans h.sent_eq⟩

variable {setup} {s s' : State τ}

theorem Later.handled (h : Later setup s s') (n : Element) (hn : Handled s n) : Handled s' n :=
  hn.imp (fun hmark => (h.contract.marked n hmark).1) (h.reverted n)

/-- The state around the cursor does not matter. -/
theorem Later.with_cursor (h : Later setup s s') (cursor : Option (CursorChoice ListTxnsPosition))
    (start : Option Height) (sent : List Element) :
    Later setup s { s' with cursor, start, sent } :=
  ⟨h.stored, h.grows, h.contract, h.reverted⟩

theorem happen_waits (e : Event τ) : Waits setup s (happen setup s e) := by
  cases e with
  | block b =>
    refine ⟨⟨fun ⟨calls, hcontent⟩ => (storeNew_grows hcontent b).1,
      fun ⟨calls, hcontent⟩ => (storeNew_grows hcontent b).2, refl_of SubstitutesOnce _,
      fun _ => id⟩, rfl, rfl, rfl⟩
  | call sender c =>
    exact ⟨⟨id, fun hs => (refl_of (Later setup) s).grows hs,
      run_once setup.env setup.routers setup.depth _ _, fun _ => id⟩, rfl, rfl, rfl⟩

theorem events_waits (events : List (Event τ)) :
    Waits setup s (events.foldl (happen setup) s) := by
  induction events generalizing s with
  | nil => exact refl_of (Waits setup) s
  | cons e events ih => exact trans_of (Waits setup) (happen_waits e) ih

variable {r : Except Error (Turn τ)}

theorem nextTurn_waits (h : Ends (nextTurn setup) s r s') :
    Waits setup s s' ∧ ∃ turn, r = .ok turn := by
  unfold Ends nextTurn at h
  cases hturns : s.turns with
  | nil =>
    rw [hturns] at h
    obtain ⟨rfl, rfl⟩ := Prod.mk.inj h
    exact ⟨refl_of (Waits setup) s, _, rfl⟩
  | cons turn turns =>
    rw [hturns] at h
    obtain ⟨rfl, rfl⟩ := Prod.mk.inj h
    have hevents : Waits setup s (turn.events.foldl (happen setup) s) := events_waits turn.events
    exact ⟨⟨⟨hevents.stored, hevents.grows, hevents.contract, hevents.reverted⟩,
      hevents.cursor_eq, hevents.start_eq, hevents.sent_eq⟩, _, rfl⟩

theorem await_waits (e : Error) (h : Ends (await setup e) s r s') : Waits setup s s' := by
  unfold await at h
  rw [ends_bind] at h
  rcases h with ⟨e', h, -⟩ | ⟨turn, t, h, hanswer⟩
  · exact (nextTurn_waits h).1
  · rw [ends_ite] at hanswer
    have hs' : s' = t := by
      rcases hanswer with ⟨-, hanswer⟩ | ⟨-, hanswer⟩
      · exact ((ends_throw _ _ _ _).mp hanswer).2
      · exact ((ends_pure _ _ _ _).mp hanswer).2
    rw [hs']
    exact (nextTurn_waits h).1

theorem wasBurnSubstituted_ends (n : Element) (r : Except Error Bool)
    (h : Ends (wasBurnSubstituted setup n) s r s') :
    Waits setup s s' ∧ ∀ b, r = .ok b → b = s'.contract.1.substitutedBurns n := by
  unfold wasBurnSubstituted at h
  simp only [ends_bind, ends_get, ends_pure] at h
  rcases h with ⟨e, h, rfl⟩ | ⟨turn, t, h, h'⟩
  · exact ⟨await_waits _ h, fun b hb => by cases hb⟩
  · rcases h' with ⟨e, ⟨he, -⟩, -⟩ | ⟨u, t', ⟨hu, rfl⟩, rfl, rfl⟩
    · cases he
    · obtain rfl := Except.ok.inj hu
      exact ⟨await_waits _ h, fun b hb => (Except.ok.inj hb).symm⟩

/-- A substitution is sent at most, and then waited for. -/
theorem substituteBurn_ends (n v : Element) (r : Except Error Unit)
    (h : Ends (substituteBurn setup n v) s r s') :
    Later setup s s' ∧ s'.cursor = s.cursor ∧ s'.start = s.start ∧
      (s'.sent = s.sent ∨ s'.sent = s.sent ++ [n]) := by
  unfold substituteBurn at h
  simp only [ends_bind, ends_get, ends_ite, ends_modify, ends_throw, ends_pure] at h
  rcases h with ⟨e, h, -⟩ | ⟨turn, t, h, h'⟩
  · have hwait := await_waits _ h
    exact ⟨hwait.toLater, hwait.cursor_eq, hwait.start_eq, Or.inl hwait.sent_eq⟩
  · have hwait := await_waits _ h
    rcases h' with ⟨e, ⟨he, -⟩, -⟩ | ⟨u, t', ⟨-, rfl⟩, ⟨-, h'⟩ | ⟨-, -, rfl⟩⟩
    · cases he
    · have hsent : ∀ r₂ t₂, Ends (await setup .substituteBurn)
          { t' with sent := t'.sent ++ [n] } r₂ t₂ →
          Later setup s t₂ ∧ t₂.cursor = s.cursor ∧ t₂.start = s.start ∧
            (t₂.sent = s.sent ∨ t₂.sent = s.sent ++ [n]) := by
        intro r₂ t₂ h₂
        have hwait₂ := await_waits _ h₂
        refine ⟨trans_of (Later setup) (hwait.toLater.with_cursor t'.cursor t'.start _)
          hwait₂.toLater, hwait₂.cursor_eq.trans hwait.cursor_eq,
          hwait₂.start_eq.trans hwait.start_eq, Or.inr ?_⟩
        rw [hwait₂.sent_eq, hwait.sent_eq]
      rcases h' with ⟨e, ⟨he, -⟩, -⟩ | ⟨_, t₁, ⟨-, rfl⟩, ⟨e, h₂, -⟩ | ⟨_, t₂, h₂, -, rfl⟩⟩
      · cases he
      · exact hsent _ _ h₂
      · exact hsent _ _ h₂
    · exact ⟨hwait.toLater, hwait.cursor_eq, hwait.start_eq, Or.inl hwait.sent_eq⟩

/-- A confirmed substitution is dealt with. -/
theorem waitForConfirm_ends (n v : Element) (r : Except Error Unit)
    (h : Ends (waitForConfirm setup n v) s r s') :
    Later setup s s' ∧ s'.cursor = s.cursor ∧ s'.start = s.start ∧ s'.sent = s.sent ∧
      (r = .ok () → Handled s' n) := by
  unfold waitForConfirm at h
  simp only [ends_bind, ends_modify] at h
  rcases h with ⟨e, h, rfl⟩ | ⟨turn, t, h, rfl, rfl⟩
  · have hwait := await_waits _ h
    exact ⟨hwait.toLater, hwait.cursor_eq, hwait.start_eq, hwait.sent_eq, fun hr => by cases hr⟩
  · have hwait := await_waits _ h
    split
    · next hmined =>
      rw [Bool.and_eq_true] at hmined
      have hlater : Later setup t
          (happen setup t (.call setup.signerAddress (.request (.substituteBurn n v)))) :=
        (happen_waits _).toLater
      refine ⟨trans_of (Later setup) hwait.toLater hlater, hwait.cursor_eq, hwait.start_eq,
        hwait.sent_eq, fun _ => Or.inl ?_⟩
      have hok := hmined.1
      unfold wouldSucceed at hok
      cases hcall : loggedCall setup.env
          (calleeAt Prod.fst (loggedCall setup.env) setup.routers setup.depth)
          setup.signerAddress (.request (.substituteBurn n v)) t.contract with
      | error reason =>
        rw [hcall] at hok
        cases hok
      | ok result =>
        have hmarked := substituteBurn_marks setup.env setup.routers setup.depth
          setup.signerAddress n v result.1 hcall
        have htransact : transact setup t.contract setup.signerAddress
            (.request (.substituteBurn n v)) = result.2 := attempt_ok hcall
        unfold Substituted
        rw [htransact]
        exact hmarked
    · exact ⟨⟨hwait.stored, hwait.grows, hwait.contract,
        fun m hm => List.mem_append_left _ (hwait.reverted m hm)⟩, hwait.cursor_eq,
        hwait.start_eq, hwait.sent_eq, fun _ => Or.inr (by simp)⟩

/-- A burn that a tick went over is dealt with. -/
theorem substituteTxn_ends (txn : UtxoProof) (r : Except Error (Option Element))
    (h : Ends (substituteTxn setup txn) s r s') :
    Later setup s s' ∧ s'.cursor = s.cursor ∧ s'.start = s.start ∧
      (s'.sent = s.sent ∨ isBurn txn = true ∧ s'.sent = s.sent ++ [nullifier txn]) ∧
      (r.isOk = true → isBurn txn = true → Handled s' (nullifier txn)) := by
  unfold substituteTxn at h
  simp only [ends_bind, ends_ite, ends_pure] at h
  rcases h with ⟨hburn, h⟩ | ⟨hburn, rfl, rfl⟩
  · rcases h with ⟨e, h, rfl⟩ | ⟨was, t, h, h'⟩
    · have hwait := (wasBurnSubstituted_ends _ _ h).1
      exact ⟨hwait.toLater, hwait.cursor_eq, hwait.start_eq, Or.inl hwait.sent_eq,
        fun hr => by cases hr⟩
    · obtain ⟨hwait, hwas⟩ := wasBurnSubstituted_ends _ _ h
      rcases h' with ⟨rfl, rfl, rfl⟩ | ⟨-, h'⟩
      · exact ⟨hwait.toLater, hwait.cursor_eq, hwait.start_eq, Or.inl hwait.sent_eq,
          fun _ _ => Or.inl (hwas true rfl).symm⟩
      · have hsend : ∀ r₁ t₁, Ends (substituteBurn setup (nullifier txn) txn.mbValue) t r₁ t₁ →
            Later setup s t₁ ∧ t₁.cursor = s.cursor ∧ t₁.start = s.start ∧
              (t₁.sent = s.sent ∨ isBurn txn = true ∧ t₁.sent = s.sent ++ [nullifier txn]) := by
          intro r₁ t₁ h₁
          obtain ⟨hlater, hcursor, hstart, hsent⟩ := substituteBurn_ends _ _ _ h₁
          rw [hwait.sent_eq] at hsent
          exact ⟨trans_of (Later setup) hwait.toLater hlater, hcursor.trans hwait.cursor_eq,
            hstart.trans hwait.start_eq, hsent.imp_right fun h => ⟨hburn, h⟩⟩
        rcases h' with ⟨e, h₁, rfl⟩ | ⟨_, t₁, h₁, h'⟩
        · obtain ⟨hlater, hcursor, hstart, hsent⟩ := hsend _ _ h₁
          exact ⟨hlater, hcursor, hstart, hsent, fun hr => by cases hr⟩
        · obtain ⟨hlater, hcursor, hstart, hsent⟩ := hsend _ _ h₁
          have hconfirm : ∀ r₂, Ends (waitForConfirm setup (nullifier txn) txn.mbValue) t₁ r₂ s' →
              Later setup s s' ∧ s'.cursor = s.cursor ∧ s'.start = s.start ∧
                (s'.sent = s.sent ∨ isBurn txn = true ∧ s'.sent = s.sent ++ [nullifier txn]) ∧
                (r₂ = .ok () → Handled s' (nullifier txn)) := by
            intro r₂ h₂
            obtain ⟨hlater', hcursor', hstart', hsent', hhandled⟩ := waitForConfirm_ends _ _ _ h₂
            rw [hsent', hcursor', hstart']
            exact ⟨trans_of (Later setup) hlater hlater', hcursor, hstart, hsent, hhandled⟩
          rcases h' with ⟨e, h₂, rfl⟩ | ⟨_, _, h₂, rfl, rfl⟩
          · obtain ⟨hlater, hcursor, hstart, hsent, -⟩ := hconfirm _ h₂
            exact ⟨hlater, hcursor, hstart, hsent, fun hr => by cases hr⟩
          · obtain ⟨hlater, hcursor, hstart, hsent, hhandled⟩ := hconfirm _ h₂
            exact ⟨hlater, hcursor, hstart, hsent, fun _ _ => hhandled rfl⟩
  · exact ⟨refl_of (Later setup) s', rfl, rfl, Or.inl rfl, fun _ hburn' => absurd hburn' hburn⟩

end Steps
end PayyRollup.BurnTicks
