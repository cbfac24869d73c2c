import PayyRollup.Approvals
import PayyRollup.PrefixRuns

/-!
Since when a block is ready. A tracker notes the first moment at which it finds the approved
stake above the threshold, and reports that moment from then on. A withdrawal that takes the
stake below the threshold leaves the note where it is, so once later approvals lift the stake
again the report goes back to before the gap. The report is right in a run exactly while no
event lifts the stake a second time.
-/
namespace PayyRollup.ReadinessMoments

open VerifierContracts RollupState NodeBlocks Approvals PrefixRuns

inductive Kind
  | process (arrival : ℕ) (approval : ApprovalValidated)
  | withdraw (validator : Address)
  | check

/-- What is done to a tracker, and when. -/
structure Event where
  now : ℕ
  kind : Kind

def step (self : DoomslugApprovalsTracker) (event : Event) : DoomslugApprovalsTracker :=
  match event.kind with
  | .process arrival approval => (self.processApproval event.now arrival approval).1
  | .withdraw validator => self.withdrawApproval validator
  | .check => (self.getBlockProductionReadiness event.now).1

def run (start : DoomslugApprovalsTracker) (events : List Event) : DoomslugApprovalsTracker :=
  events.foldl step start

/-- The stake is above the threshold in both epochs, or none is asked for. -/
def Enough (self : DoomslugApprovalsTracker) : Prop :=
  self.CrossesThreshold ∨ self.thresholdMode = .noApprovals

instance (self : DoomslugApprovalsTracker) : Decidable (Enough self) :=
  inferInstanceAs (Decidable (_ ∨ _))

/-- From some event at that moment on, the stake was above the threshold after every event. -/
def Since (start : DoomslugApprovalsTracker) (events : List Event) (moment : ℕ) : Prop :=
  ∃ before event after, events = before ++ event :: after ∧ event.now = moment ∧
    ∀ part, part <+: after → Enough (run start (before ++ event :: part))

/-- Whatever moment is reported after the events, the stake was above the threshold from it to
the moment of the report. -/
def Genuine (start : DoomslugApprovalsTracker) (events : List Event) : Prop :=
  ∀ now moment, (∀ event ∈ events, event.now ≤ now) →
    ((run start events).getBlockProductionReadiness now).2 = .readySince moment →
      Since start (events ++ [⟨now, .check⟩]) moment

/-- The event does not lift the stake in a tracker that has noted an earlier moment. -/
def LiftsOnce (self : DoomslugApprovalsTracker) (event : Event) : Prop :=
  ∀ noted, self.timePassedThreshold = some noted → Enough (step self event) →
    Enough self ∨ noted = event.now

section Moments

variable {start : DoomslugApprovalsTracker}

theorem run_concat (events : List Event) (event : Event) :
    run start (events ++ [event]) = step (run start events) event := List.foldl_concat ..

theorem Since.enough {events : List Event} {moment : ℕ} (h : Since start events moment) :
    Enough (run start events) := by
  obtain ⟨before, event, after, rfl, -, habove⟩ := h
  exact habove after List.prefix_rfl

/-- A moment goes back over an event if the stake is still above the threshold after it. -/
theorem since_concat (events : List Event) (event : Event) (moment : ℕ) :
    Since start (events ++ [event]) moment ↔
      Enough (run start (events ++ [event])) ∧ (event.now = moment ∨ Since start events moment) := by
  constructor
  · intro h
    refine ⟨h.enough, ?_⟩
    obtain ⟨before, first, after, hevents, hnow, habove⟩ := h
    rcases List.eq_nil_or_concat after with rfl | ⟨after, last, rfl⟩
    · obtain ⟨-, hlast⟩ := List.append_inj' hevents rfl
      cases hlast
      exact Or.inl hnow
    · rw [List.concat_eq_append, ← List.cons_append, ← List.append_assoc] at hevents
      obtain ⟨rfl, -⟩ := List.append_inj' hevents rfl
      refine Or.inr ⟨before, first, after, rfl, hnow, fun part hpart => habove part ?_⟩
      rw [List.concat_eq_append]
      exact hpart.trans (List.prefix_append after [last])
  · rintro ⟨henough, rfl | ⟨before, first, after, rfl, hnow, habove⟩⟩
    · refine ⟨events, event, [], rfl, rfl, fun part hpart => ?_⟩
      rw [List.prefix_nil.mp hpart]
      exact henough
    · refine ⟨before, first, after ++ [event], by simp, hnow, fun part hpart => ?_⟩
      rcases List.prefix_concat_iff.mp hpart with rfl | hshort
      · rw [List.append_assoc, List.cons_append] at henough
        exact henough
      · exact habove part hshort

theorem readiness_snd (self : DoomslugApprovalsTracker) (now moment : ℕ) :
    (self.getBlockProductionReadiness now).2 = .readySince moment ↔
      Enough self ∧ self.timePassedThreshold.getD now = moment := by
  unfold DoomslugApprovalsTracker.getBlockProductionReadiness Enough
  by_cases h : self.CrossesThreshold ∨ self.thresholdMode = .noApprovals
  · rw [if_pos h]
    simp [h]
  · rw [if_neg h]
    simp [h]

/-- A check changes the note and not the stake. -/
theorem enough_check (self : DoomslugApprovalsTracker) (now : ℕ) :
    Enough (self.getBlockProductionReadiness now).1 ↔ Enough self := by
  unfold DoomslugApprovalsTracker.getBlockProductionReadiness
  split
  · exact Iff.rfl
  · exact Iff.rfl

/-- While the stake is above the threshold, it has been so since the noted moment. -/
def NotedRight (start : DoomslugApprovalsTracker) (events : List Event) : Prop :=
  Enough (run start events) → ∀ noted, (run start events).timePassedThreshold = some noted →
    Since start events noted

theorem genuine_iff (events : List Event) :
    Genuine start events ↔ NotedRight start events := by
  constructor
  · intro h henough noted hnoted
    have hlate : ∃ now, (∀ event ∈ events, event.now ≤ now) ∧ noted < now := by
      refine ⟨(events.map Event.now).sum + noted + 1, ?_, by omega⟩
      intro event hmem
      have hle := List.single_le_sum (fun _ _ => Nat.zero_le _) event.now
        (List.mem_map_of_mem (f := Event.now) hmem)
      omega
    obtain ⟨now, hlast, hlt⟩ := hlate
    have hsince := h now noted hlast ((readiness_snd _ _ _).mpr ⟨henough, by rw [hnoted]; rfl⟩)
    rcases ((since_concat _ _ _).mp hsince).2 with hnow | hbefore
    · exact absurd hnow hlt.ne'
    · exact hbefore
  · intro h now moment _ hreport
    obtain ⟨henough, hmoment⟩ := (readiness_snd _ _ _).mp hreport
    refine (since_concat _ _ _).mpr ⟨?_, ?_⟩
    · rw [run_concat]
      exact (enough_check _ now).mpr henough
    · cases hnoted : (run start events).timePassedThreshold with
      | none =>
        rw [hnoted] at hmoment
        exact Or.inl hmoment
      | some noted =>
        rw [hnoted] at hmoment
        obtain rfl : noted = moment := hmoment
        exact Or.inr (h henough noted hnoted)

/-- The note is written once, with the moment of the event. -/
theorem noted_readiness (self : DoomslugApprovalsTracker) (now noted : ℕ)
    (h : (self.getBlockProductionReadiness now).1.timePassedThreshold = some noted) :
    self.timePassedThreshold = some noted ∨ self.timePassedThreshold = none ∧ now = noted := by
  unfold DoomslugApprovalsTracker.getBlockProductionReadiness at h
  split at h
  · cases hnoted : self.timePassedThreshold with
    | none =>
      rw [hnoted] at h
      exact Or.inr ⟨rfl, Option.some.inj h⟩
    | some first =>
      rw [hnoted] at h
      exact Or.inl h
  · exact Or.inl h

theorem noted_step (self : DoomslugApprovalsTracker) (event : Event) (noted : ℕ)
    (h : (step self event).timePassedThreshold = some noted) :
    self.timePassedThreshold = some noted ∨
      self.timePassedThreshold = none ∧ event.now = noted := by
  obtain ⟨now, kind⟩ := event
  cases kind with
  | check => exact noted_readiness self now noted h
  | withdraw validator =>
    change (self.withdrawApproval validator).timePassedThreshold = some noted at h
    unfold DoomslugApprovalsTracker.withdrawApproval at h
    split at h
    · exact Or.inl h
    · exact Or.inl h
  | process arrival approval =>
    have hcounted := noted_readiness _ now noted h
    split at hcounted
    · exact hcounted
    · exact hcounted

/-- A note that was there before the event is there after it. -/
theorem noted_kept (self : DoomslugApprovalsTracker) (event : Event) (noted : ℕ)
    (h : self.timePassedThreshold = some noted) :
    (step self event).timePassedThreshold = some noted := by
  have hreadiness : ∀ (tracker : DoomslugApprovalsTracker) (now : ℕ),
      tracker.timePassedThreshold = some noted →
        (tracker.getBlockProductionReadiness now).1.timePassedThreshold = some noted := by
    intro tracker now hnoted
    unfold DoomslugApprovalsTracker.getBlockProductionReadiness
    split
    · rw [hnoted]
      rfl
    · exact hnoted
  obtain ⟨now, kind⟩ := event
  cases kind with
  | check => exact hreadiness self now h
  | withdraw validator =>
    change (self.withdrawApproval validator).timePassedThreshold = some noted
    unfold DoomslugApprovalsTracker.withdrawApproval
    split
    · exact h
    · exact h
  | process arrival approval =>
    refine hreadiness _ now ?_
    split
    · exact h
    · exact h

theorem notedRight_concat (events : List Event) (event : Event)
    (h : NotedRight start events) :
    NotedRight start (events ++ [event]) ↔ LiftsOnce (run start events) event := by
  constructor
  · intro hnext noted hnoted henough
    have hsince := hnext (by rwa [run_concat]) noted
      (by rw [run_concat]; exact noted_kept _ event noted hnoted)
    rcases ((since_concat _ _ _).mp hsince).2 with hnow | hbefore
    · exact Or.inr hnow.symm
    · exact Or.inl hbefore.enough
  · intro hlifts henough noted hnoted
    refine (since_concat _ _ _).mpr ⟨henough, ?_⟩
    rw [run_concat] at henough hnoted
    rcases noted_step _ event noted hnoted with hbefore | ⟨-, hnow⟩
    · rcases hlifts noted hbefore henough with habove | hnow
      · exact Or.inr (h habove noted hbefore)
      · exact Or.inl hnow.symm
    · exact Or.inl hnow

theorem notedRight_new (accounts : AList fun _ : Address => Balance × Balance)
    (mode : DoomslugThresholdMode) :
    NotedRight (DoomslugApprovalsTracker.new accounts mode) [] := by
  intro _ noted hnoted
  cases hnoted

/-- The steps of a history are its events. -/
theorem history_criterion (start : DoomslugApprovalsTracker) :
    Criterion (fun history event => history ++ [event]) (fun _ => True) (NotedRight start)
      (Genuine start) (fun history event => LiftsOnce (run start history) event) where
  good := fun events h => (genuine_iff events).mpr h
  necessary := fun events event _ _ hinv hgood =>
    (notedRight_concat events event hinv).mp ((genuine_iff _).mp hgood)
  sufficient := fun events event _ _ hinv hok => (notedRight_concat events event hinv).mpr hok

/-- In a run of a new tracker every moment that is reported is genuine exactly when no event lifts
the stake above the threshold in a tracker that has noted an earlier moment. -/
theorem run_genuine_iff (accounts : AList fun _ : Address => Balance × Balance)
    (mode : DoomslugThresholdMode) (events : List Event) :
    (∀ before, before <+: events →
        Genuine (DoomslugApprovalsTracker.new accounts mode) before) ↔
      ∀ before event, before ++ [event] <+: events →
        LiftsOnce (run (DoomslugApprovalsTracker.new accounts mode) before) event := by
  have hhistory : ∀ before : List Event,
      before.foldl (fun history event => history ++ [event]) [] = before := by
    intro before
    induction before using List.reverseRecOn with
    | nil => rfl
    | append_singleton before event ih => rw [List.foldl_concat, ih]
  have hruns := @forall_prefix_iff _ _ _ _ _ _ _ _ events (history_criterion _)
    (notedRight_new accounts mode) fun _ _ => trivial
  simp only [hhistory] at hruns
  exact hruns

end Moments

section Gap

/-- An approval of a block by one of three validators. -/
def approvalOf (validator : Address) : ApprovalValidated :=
  ⟨⟨.endorsement 0#256, 1⟩, Vector.replicate 65 0, validator⟩

def unitTracker : DoomslugApprovalsTracker :=
  DoomslugApprovalsTracker.new (accountStakes (unitStakes [1#160, 2#160, 3#160])) .twoThirds

/-- Three approvals that make the block ready at the moment 3. -/
def threeApprovals : List Event :=
  [⟨1, .process 0 (approvalOf 1#160)⟩, ⟨2, .process 0 (approvalOf 2#160)⟩,
    ⟨3, .process 0 (approvalOf 3#160)⟩]

theorem run_genuine_iff_threeApprovals :
    ((run unitTracker threeApprovals).getBlockProductionReadiness 4).2 = .readySince 3 ∧
      Genuine unitTracker threeApprovals := by
  refine ⟨by decide, ?_⟩
  refine (run_genuine_iff _ _ threeApprovals).mpr ?_ _ List.prefix_rfl
  have hfirst : ∀ self : DoomslugApprovalsTracker, self.timePassedThreshold = none →
      ∀ event, LiftsOnce self event := by
    intro self hnone event noted hnoted
    cases hnone.symm.trans hnoted
  simp only [threeApprovals, forall_prefix_cons, forall_prefix_nil]
  exact ⟨hfirst _ (by decide) _, hfirst _ (by decide) _,
    hfirst _ (by decide) _, trivial⟩

/-- The last of the three withdraws and approves again. -/
def withGap : List Event :=
  threeApprovals ++ [⟨4, .withdraw 3#160⟩] ++ [⟨5, .process 0 (approvalOf 3#160)⟩]

/-- Ready since the moment 3, with a gap after the moment 4. -/
theorem not_genuine_withGap :
    ((run unitTracker withGap).getBlockProductionReadiness 6).2 = .readySince 3 ∧
      ¬Genuine unitTracker withGap := by
  have hreport : ((run unitTracker withGap).getBlockProductionReadiness 6).2 = .readySince 3 := by
    decide
  refine ⟨hreport, fun h => ?_⟩
  have hgap : ¬Enough (run unitTracker (threeApprovals ++ [⟨4, .withdraw 3#160⟩])) := by
    decide
  have hsince := h 6 3 (by decide) hreport
  rcases ((since_concat _ _ _).mp hsince).2 with hnow | hbefore
  · exact absurd hnow (by decide)
  · rcases ((since_concat _ _ _).mp hbefore).2 with hnow | hgapped
    · exact absurd hnow (by decide)
    · exact hgap hgapped.enough

end Gap

end PayyRollup.ReadinessMoments
