import Mathlib.Data.List.Forall2
import PayyRollup.PrefixRuns

/-!
A forward simulation along an abstraction. The steps of a system are each matched by some steps
of another one, from the abstraction of the state before to that of the state after; what a step
shows of itself is a relation to the labels that match it. A whole run is then matched by the
labels of its steps, one after the other. A second notion concerns systems that step alone: where
a measure falls until a state is final, enough steps make it so.
-/
namespace PayyRollup.RunRefinement

variable {S A T B : Type}

/-- A path of labelled steps. -/
inductive Path (spec : T → B → T → Prop) : T → List B → T → Prop
  | nil (t : T) : Path spec t [] t
  | cons (t u v : T) (b : B) (bs : List B) :
      spec t b u → Path spec u bs v → Path spec t (b :: bs) v

theorem Path.append {spec : T → B → T → Prop} {t u v : T} {bs bs' : List B}
    (h : Path spec t bs u) (h' : Path spec u bs' v) : Path spec t (bs ++ bs') v := by
  induction h with
  | nil t => exact h'
  | cons t u w b bs hstep _ ih => exact .cons _ _ _ _ _ hstep (ih h')

theorem Path.single {spec : T → B → T → Prop} {t u : T} {b : B} (h : spec t b u) :
    Path spec t [b] u := .cons _ _ _ _ _ h (.nil u)

/-- A path of a function is a fold. -/
theorem Path.foldl {f : T → B → T} {t u : T} {bs : List B}
    (h : Path (fun t b u => f t b = u) t bs u) : u = bs.foldl f t := by
  induction h with
  | nil t => rfl
  | cons t u v b bs hstep _ ih => rw [List.foldl_cons, hstep, ih]

/-- Every admitted step keeps the invariant, and is matched by labels that it shows. -/
structure Simulates (step : S → A → S) (spec : T → B → T → Prop) (abstraction : S → T)
    (Inv : S → Prop) (Ok : S → A → Prop) (Shows : A → List B → Prop) : Prop where
  kept : ∀ s a, Inv s → Ok s a → Inv (step s a)
  matched : ∀ s a, Inv s → Ok s a →
    ∃ bs, Shows a bs ∧ Path spec (abstraction s) bs (abstraction (step s a))

variable {step : S → A → S} {spec : T → B → T → Prop} {abstraction : S → T} {Inv : S → Prop}
  {Ok : S → A → Prop} {Shows : A → List B → Prop} {s : S}

theorem Simulates.of_step (h : ∀ s a, Inv s → Ok s a → Inv (step s a) ∧
    ∃ bs, Shows a bs ∧ Path spec (abstraction s) bs (abstraction (step s a))) :
    Simulates step spec abstraction Inv Ok Shows :=
  ⟨fun s a hs hok => (h s a hs hok).1, fun s a hs hok => (h s a hs hok).2⟩

/-- A run of admitted steps is matched by the labels of its steps. -/
theorem Simulates.run (h : Simulates step spec abstraction Inv Ok Shows) (hs : Inv s)
    (steps : List A) (hok : ∀ before a, before ++ [a] <+: steps → Ok (before.foldl step s) a) :
    Inv (steps.foldl step s) ∧ ∃ traces, List.Forall₂ Shows steps traces ∧
      Path spec (abstraction s) traces.flatten (abstraction (steps.foldl step s)) := by
  induction steps generalizing s with
  | nil => exact ⟨hs, [], .nil, .nil _⟩
  | cons a rest ih =>
    obtain ⟨hfirst, hrest⟩ := (PrefixRuns.forall_prefix_cons
      (fun before a => Ok (before.foldl step s) a) a).mp hok
    obtain ⟨bs, hshows, hpath⟩ := h.matched s a hs hfirst
    obtain ⟨hinv, traces, htraces, hpaths⟩ := ih (h.kept s a hs hfirst) hrest
    exact ⟨hinv, bs :: traces, .cons hshows htraces, hpath.append hpaths⟩

/-- Where every step lowers a measure until the state is final, and final states stay so, enough
steps lead to one. -/
theorem final_of_measure (step : S → A → S) (Inv Final : S → Prop) (weight : S → ℕ)
    (hstep : ∀ s a, Inv s → Inv (step s a) ∧
      (Final (step s a) ∨ ¬Final s ∧ weight (step s a) < weight s)) (s : S) (hs : Inv s)
    (steps : List A) (hlength : weight s < steps.length) : Final (steps.foldl step s) := by
  have hstays : ∀ (steps : List A) (s : S), Inv s → Final s → Final (steps.foldl step s) := by
    intro steps
    induction steps with
    | nil => exact fun s _ hfinal => hfinal
    | cons a rest ih =>
      intro s hs hfinal
      obtain ⟨hinv, hnext | ⟨hnot, -⟩⟩ := hstep s a hs
      · exact ih _ hinv hnext
      · exact absurd hfinal hnot
  induction steps generalizing s with
  | nil => exact absurd hlength (Nat.not_lt_zero _)
  | cons a rest ih =>
    obtain ⟨hinv, hfinal | ⟨-, hlower⟩⟩ := hstep s a hs
    · exact hstays rest _ hinv hfinal
    · rw [List.length_cons] at hlength
      exact ih _ hinv (by omega)

end PayyRollup.RunRefinement
