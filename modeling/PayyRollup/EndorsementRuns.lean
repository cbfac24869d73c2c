import PayyRollup.Approvals

/-!
Runs of the timer of a validator. An endorsement is an approval of the height after the tip.
The timer endorses the tip itself when no later height was approved; when it times out it
approves the height after its own, which is a skip as long as the timer is ahead of the tip.
Before the first block the timer is at the height of the tip, and its first time out is an
endorsement that no earlier approval was compared with.
-/
namespace PayyRollup.EndorsementRuns

open NodeBlocks Approvals

/-- What moves the timer: a new tip, or a reading of the clock. -/
inductive Event
  | onBlock (now : ℕ) (blockHash : CryptoHash) (height lastFinalHeight : ℕ)
  | processTimer (curTime : ℕ)

def step (self : Doomslug) : Event → Doomslug × List ApprovalContent
  | .onBlock now blockHash height lastFinalHeight =>
      (self.onBlock now blockHash height lastFinalHeight, [])
  | .processTimer curTime => self.processTimer curTime

/-- The approvals of a run, in order. -/
def emitted (self : Doomslug) : List Event → List ApprovalContent
  | [] => []
  | event :: rest => (step self event).2 ++ emitted (step self event).1 rest

def IsEndorsement (approval : ApprovalContent) : Prop :=
  ∃ parentHash, approval.inner = .endorsement parentHash

/-- Every endorsement is above the first sent height and above all approvals before it. -/
def Rises (sent : ℕ) (approvals : List ApprovalContent) : Prop :=
  ∀ before a after, approvals = before ++ a :: after → IsEndorsement a →
    sent < a.targetHeight ∧ ∀ b ∈ before, b.targetHeight < a.targetHeight

section Approving

theorem rises_nil (sent : ℕ) : Rises sent [] := by
  intro before a after h
  simp at h

/-- One more approval, which is above the others if it is an endorsement. -/
theorem Rises.concat {sent : ℕ} {approvals : List ApprovalContent} (h : Rises sent approvals)
    (last : ApprovalContent) (hlast : IsEndorsement last →
      sent < last.targetHeight ∧ ∀ b ∈ approvals, b.targetHeight < last.targetHeight) :
    Rises sent (approvals ++ [last]) := by
  intro before a after hsplit hendorsement
  rcases List.eq_nil_or_concat after with rfl | ⟨rest, x, rfl⟩
  · obtain ⟨rfl, heq⟩ := List.append_inj' hsplit rfl
    obtain rfl := List.singleton_inj.mp heq
    exact hlast hendorsement
  · rw [List.concat_eq_append, ← List.cons_append, ← List.append_assoc] at hsplit
    obtain ⟨hinit, -⟩ := List.append_inj' hsplit rfl
    exact h before a rest hinit hendorsement

/-- An approval of another height than the next one is a skip. -/
theorem not_isEndorsement (parentHash : CryptoHash) (parentHeight targetHeight : ℕ)
    (h : targetHeight ≠ nextHeight parentHeight) :
    ¬IsEndorsement (ApprovalContent.new parentHash parentHeight targetHeight) := by
  rintro ⟨hash, hinner⟩
  simp [ApprovalContent.new, ApprovalInner.new, h] at hinner

theorem nextHeight_eq (height : ℕ) (h : height + 1 < 2 ^ 64) : nextHeight height = height + 1 :=
  Nat.mod_eq_of_lt h

end Approving

/-- What holds between the steps: the largest sent height bounds what was sent, and the timer
is ahead of the tip unless no block has arrived. -/
structure Ordered (sent : ℕ) (s : Doomslug) (approvals : List ApprovalContent) : Prop where
  rises : Rises sent approvals
  sent_le : sent ≤ s.largestSentTargetHeight
  bounded : ∀ b ∈ approvals, b.targetHeight ≤ s.largestSentTargetHeight
  tip_lt : s.tip.height + 1 < 2 ^ 64
  ahead : s.tip.height < s.timer.height ∨
    (s.endorsementPending = false ∧ s.timer.height = s.tip.height)

section Steps

variable {sent : ℕ} {s : Doomslug} {approvals : List ApprovalContent}

theorem ordered_new (now endorsementDelay minDelay delayStep maxDelay : ℕ)
    (thresholdMode : DoomslugThresholdMode) :
    Ordered sent (Doomslug.new now sent endorsementDelay minDelay delayStep maxDelay
      thresholdMode) [] := by
  refine ⟨rises_nil sent, le_refl sent, ?_, ?_, Or.inr ⟨rfl, rfl⟩⟩
  · intro b hb
    cases hb
  · change 0 + 1 < 2 ^ 64
    omega

/-- Endorsing the tip moves neither the tip nor the height of the timer. -/
theorem endorse_heights (curTime : ℕ) :
    (s.endorse curTime).1.tip = s.tip ∧
      (s.endorse curTime).1.timer.height = s.timer.height ∧
      (s.endorse curTime).1.timer.started = s.timer.started := by
  unfold Doomslug.endorse
  split
  · split
    · exact ⟨rfl, rfl, rfl⟩
    · exact ⟨rfl, rfl, rfl⟩
  · exact ⟨rfl, rfl, rfl⟩

theorem Ordered.endorse (h : Ordered sent s approvals) (curTime : ℕ) :
    Ordered sent (s.endorse curTime).1 (approvals ++ (s.endorse curTime).2) := by
  by_cases hpending : s.endorsementPending = true ∧
      s.timer.lastEndorsementSent + s.timer.endorsementDelay ≤ curTime
  · have hahead : s.tip.height < s.timer.height := by
      rcases h.ahead with hahead | ⟨hnone, -⟩
      · exact hahead
      · rw [hnone] at hpending
        cases hpending.1
    have hnext := nextHeight_eq s.tip.height h.tip_lt
    by_cases hguard : s.largestSentTargetHeight ≤ s.tip.height
    · have hendorsed : s.endorse curTime = ({ s with
          largestSentTargetHeight := nextHeight s.tip.height
          timer := { s.timer with lastEndorsementSent := curTime }
          endorsementPending := false }, [s.createApproval (nextHeight s.tip.height)]) := by
        unfold Doomslug.endorse
        rw [if_pos hpending]
        dsimp only
        rw [if_pos hguard]
      have hsent := h.sent_le
      rw [hendorsed]
      refine ⟨h.rises.concat _ fun _ => ⟨?_, fun b hb => ?_⟩, ?_, ?_, h.tip_lt, Or.inl hahead⟩
      · change sent < nextHeight s.tip.height
        omega
      · have hb' := h.bounded b hb
        change b.targetHeight < nextHeight s.tip.height
        omega
      · dsimp only
        omega
      · intro b hb
        rcases List.mem_append.mp hb with hold | hnew
        · have hb' := h.bounded b hold
          dsimp only
          omega
        · obtain rfl := List.mem_singleton.mp hnew
          exact le_refl _
    · have hendorsed : s.endorse curTime = ({ s with
          timer := { s.timer with lastEndorsementSent := curTime }
          endorsementPending := false }, []) := by
        unfold Doomslug.endorse
        rw [if_pos hpending]
        dsimp only
        rw [if_neg hguard]
      rw [hendorsed, List.append_nil]
      exact ⟨h.rises, h.sent_le, h.bounded, h.tip_lt, Or.inl hahead⟩
  · have hsame : s.endorse curTime = (s, []) := by
      unfold Doomslug.endorse
      rw [if_neg hpending]
    rw [hsame, List.append_nil]
    exact h

/-- A time out of a timer that is ahead of the tip, or has sent nothing above it. -/
theorem Ordered.skip (h : Ordered sent s approvals) (curTime skipDelay : ℕ) (s' : Doomslug)
    (approval : ApprovalContent) (hskip : s.skip curTime skipDelay = some (s', approval))
    (htimer : s.timer.height + 1 < 2 ^ 64)
    (hguard : s.tip.height < s.timer.height ∨ s.largestSentTargetHeight ≤ s.tip.height) :
    Ordered sent s' (approvals ++ [approval]) ∧ s'.tip.height < s'.timer.height ∧
      s'.timer.height = s.timer.height + 1 := by
  unfold Doomslug.skip at hskip
  split at hskip
  · simp only [Option.some.injEq, Prod.mk.injEq] at hskip
    obtain ⟨rfl, rfl⟩ := hskip
    have hnext := nextHeight_eq s.timer.height htimer
    have htip := nextHeight_eq s.tip.height h.tip_lt
    have hsent := h.sent_le
    have hahead : s.tip.height < s.timer.height + 1 := by
      rcases h.ahead with hahead | ⟨-, heq⟩
      · omega
      · omega
    refine ⟨⟨h.rises.concat _ fun hendorsement => ?_, ?_, ?_, h.tip_lt, ?_⟩, ?_, hnext⟩
    · have htarget : nextHeight s.timer.height = nextHeight s.tip.height := by
        by_contra hne
        exact not_isEndorsement _ _ _ hne hendorsement
      have hlargest : s.largestSentTargetHeight ≤ s.tip.height := by
        rcases hguard with hlt | hle
        · omega
        · exact hle
      refine ⟨?_, fun b hb => ?_⟩
      · change sent < nextHeight s.timer.height
        omega
      · have hb' := h.bounded b hb
        change b.targetHeight < nextHeight s.timer.height
        omega
    · dsimp only
      omega
    · intro b hb
      rcases List.mem_append.mp hb with hold | hnew
      · have hb' := h.bounded b hold
        dsimp only
        omega
      · obtain rfl := List.mem_singleton.mp hnew
        exact le_max_left _ _
    · refine Or.inl ?_
      dsimp only
      omega
    · dsimp only
      omega
  · cases hskip

/-- Reading the clock: no height overflows, and the timer is ahead of the tip, nothing above
the tip was sent, or the timer does not time out. -/
structure TimerPrompt (s : Doomslug) (curTime : ℕ) : Prop where
  no_overflow : s.timer.height + maxTimerIters < 2 ^ 64
  guarded : s.tip.height < s.timer.height ∨ s.largestSentTargetHeight ≤ s.tip.height ∨
    curTime < s.timer.started + s.timer.getDelay (s.timer.height - s.largestFinalHeight)

theorem Ordered.processTimerLoop (curTime iters : ℕ) (h : Ordered sent s approvals)
    (htimer : s.timer.height + iters < 2 ^ 64)
    (hguard : s.tip.height < s.timer.height ∨ s.largestSentTargetHeight ≤ s.tip.height ∨
      curTime < s.timer.started + s.timer.getDelay (s.timer.height - s.largestFinalHeight)) :
    Ordered sent (Doomslug.processTimerLoop curTime iters s).1
      (approvals ++ (Doomslug.processTimerLoop curTime iters s).2) := by
  induction iters generalizing s approvals with
  | zero =>
    unfold Doomslug.processTimerLoop
    rw [List.append_nil]
    exact h
  | succ iters ih =>
    have hendorse := h.endorse curTime
    obtain ⟨htip, hheight, hstarted⟩ := @endorse_heights s curTime
    unfold Doomslug.processTimerLoop
    dsimp only
    generalize hdelay : s.timer.getDelay (s.timer.height - s.largestFinalHeight) = delay
      at hguard ⊢
    cases hskip : (s.endorse curTime).1.skip curTime delay with
    | none => exact hendorse
    | some result =>
      obtain ⟨s', approval⟩ := result
      dsimp only
      have hguard' : (s.endorse curTime).1.tip.height < (s.endorse curTime).1.timer.height ∨
          (s.endorse curTime).1.largestSentTargetHeight ≤
            (s.endorse curTime).1.tip.height := by
        rw [htip, hheight]
        by_cases hahead : s.tip.height < s.timer.height
        · exact Or.inl hahead
        · have hnone : s.endorsementPending = false := (h.ahead.resolve_left hahead).1
          have hsame : s.endorse curTime = (s, []) := by
            unfold Doomslug.endorse
            rw [hnone, if_neg (by simp)]
          rcases hguard.resolve_left hahead with hle | hearly
          · rw [hsame]
            exact Or.inr hle
          · have hlate : ¬s.timer.started + delay ≤ curTime := by omega
            rw [hsame] at hskip
            unfold Doomslug.skip at hskip
            rw [if_neg hlate] at hskip
            cases hskip
      obtain ⟨hskipped, hahead, hnext⟩ := hendorse.skip curTime delay s' approval hskip
        (by omega) hguard'
      have hrest := ih hskipped (by omega) (Or.inl hahead)
      rw [List.append_assoc, List.append_assoc] at hrest
      exact hrest

/-- The steps in which the heights do not overflow and the timer is prompt. -/
def Prompt (s : Doomslug) : Event → Prop
  | .onBlock _ _ height _ => height + 1 < 2 ^ 64
  | .processTimer curTime => TimerPrompt s curTime

def PromptRun (s : Doomslug) : List Event → Prop
  | [] => True
  | event :: rest => Prompt s event ∧ PromptRun (step s event).1 rest

theorem Ordered.step (h : Ordered sent s approvals) (event : Event) (hprompt : Prompt s event) :
    Ordered sent (step s event).1 (approvals ++ (EndorsementRuns.step s event).2) := by
  cases event with
  | onBlock now blockHash height lastFinalHeight =>
    have hlt : height + 1 < 2 ^ 64 := hprompt
    have hnext := nextHeight_eq height hlt
    change Ordered sent (s.onBlock now blockHash height lastFinalHeight) (approvals ++ [])
    rw [List.append_nil]
    refine ⟨h.rises, h.sent_le, h.bounded, hlt, Or.inl ?_⟩
    change height < nextHeight height
    omega
  | processTimer curTime =>
    have htimer : TimerPrompt s curTime := hprompt
    exact h.processTimerLoop curTime maxTimerIters htimer.no_overflow htimer.guarded

theorem Ordered.run (events : List Event) (h : Ordered sent s approvals)
    (hprompt : PromptRun s events) : Rises sent (approvals ++ emitted s events) := by
  induction events generalizing s approvals with
  | nil =>
    change Rises sent (approvals ++ [])
    rw [List.append_nil]
    exact h.rises
  | cons event rest ih =>
    change Rises sent (approvals ++ ((EndorsementRuns.step s event).2 ++
      emitted (EndorsementRuns.step s event).1 rest))
    rw [← List.append_assoc]
    exact ih (h.step event hprompt.1) hprompt.2

end Steps

/-- In every run of prompt steps, every endorsement is above the height the machine was
built with and above all approvals sent before it, skips included. -/
theorem endorsements_rise (now sent endorsementDelay minDelay delayStep maxDelay : ℕ)
    (thresholdMode : DoomslugThresholdMode) (events : List Event)
    (hprompt : PromptRun (Doomslug.new now sent endorsementDelay minDelay delayStep maxDelay
      thresholdMode) events) :
    Rises sent (emitted (Doomslug.new now sent endorsementDelay minDelay delayStep maxDelay
      thresholdMode) events) :=
  (ordered_new now endorsementDelay minDelay delayStep maxDelay thresholdMode).run events hprompt

/-- A block at height 5 is endorsed at 6, and the height 6 is then skipped. -/
theorem endorsements_rise_after_block :
    Rises 5 (emitted (Doomslug.new 0 5 1 2 1 10 .twoThirds)
      [.onBlock 1 7#256 5 3, .processTimer 9]) := by
  apply endorsements_rise 0 5 1 2 1 10 .twoThirds
  refine ⟨?_, ⟨?_, Or.inl ?_⟩, trivial⟩
  · change 5 + 1 < 2 ^ 64
    omega
  · change 6 + 20 < 2 ^ 64
    omega
  · change 5 < 6
    omega

/-- A machine built with the height 5 times out before its first block, and endorses the
height 1. -/
theorem not_endorsements_rise :
    ¬Rises 5 (emitted (Doomslug.new 0 5 1 2 1 10 .twoThirds) [.processTimer 2]) := by
  intro h
  have hfirst : emitted (Doomslug.new 0 5 1 2 1 10 .twoThirds) [.processTimer 2] =
      [⟨.endorsement 0#256, 1⟩] := by
    decide
  rw [hfirst] at h
  have hsent := (h [] _ [] rfl ⟨_, rfl⟩).1
  change 5 < 1 at hsent
  omega

end PayyRollup.EndorsementRuns
