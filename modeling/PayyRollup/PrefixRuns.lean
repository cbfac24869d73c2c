import Mathlib.Data.List.Infix

/-!
When a property holds along a run. The steps of a run are folded over a state, so the states
of the run are those after each prefix of the steps. A criterion names the steps that keep an
invariant; where the property follows from the invariant and fails after any other step, it
holds in every state of a run exactly when all steps of the run meet the criterion. What is
assumed about the environment is assumed of every state of the run.
-/
namespace PayyRollup.PrefixRuns

variable {S A : Type}

/-- The steps that keep the invariant are those after which the property holds. -/
structure Criterion (step : S → A → S) (Env Inv Good : S → Prop) (Ok : S → A → Prop) : Prop where
  good : ∀ s, Inv s → Good s
  necessary : ∀ s a, Env s → Env (step s a) → Inv s → Good (step s a) → Ok s a
  sufficient : ∀ s a, Env s → Env (step s a) → Inv s → Ok s a → Inv (step s a)

variable {step : S → A → S} {Env Inv Good : S → Prop} {Ok : S → A → Prop} {s : S} {steps : List A}

theorem prefix_of_concat {before : List A} {a : A} (h : before ++ [a] <+: steps) :
    before <+: steps := (List.prefix_append before [a]).trans h

theorem forall_prefix_nil (P : List A → A → Prop) :
    (∀ before a, before ++ [a] <+: [] → P before a) ↔ True := by
  simp

/-- What holds of the steps of a run, step by step. -/
theorem forall_prefix_cons (P : List A → A → Prop) (first : A) :
    (∀ before a, before ++ [a] <+: first :: steps → P before a) ↔
      P [] first ∧ ∀ before a, before ++ [a] <+: steps → P (first :: before) a := by
  constructor
  · intro h
    refine ⟨h [] first (List.prefix_append [first] steps), fun before a hprefix => ?_⟩
    exact h (first :: before) a (List.cons_prefix_cons.mpr ⟨rfl, hprefix⟩)
  · rintro ⟨hfirst, hrest⟩ before a hprefix
    cases before with
    | nil =>
      obtain ⟨rfl, -⟩ := List.cons_prefix_cons.mp hprefix
      exact hfirst
    | cons b before =>
      obtain ⟨rfl, htail⟩ := List.cons_prefix_cons.mp hprefix
      exact hrest before a htail

/-- The invariant holds while the steps meet the criterion. -/
theorem inv_of_ok (h : Criterion step Env Inv Good Ok) (hs : Inv s)
    (henv : ∀ before, before <+: steps → Env (before.foldl step s))
    (hok : ∀ before a, before ++ [a] <+: steps → Inv (before.foldl step s) →
      Ok (before.foldl step s) a)
    (before : List A) (hbefore : before <+: steps) : Inv (before.foldl step s) := by
  induction before using List.reverseRecOn with
  | nil => exact hs
  | append_singleton before a ih =>
    have hfirst := prefix_of_concat hbefore
    have hinv := ih hfirst
    have hnext := henv _ hbefore
    rw [List.foldl_concat] at hnext ⊢
    exact h.sufficient _ a (henv before hfirst) hnext hinv (hok before a hbefore hinv)

/-- The property holds all along a run exactly when every step meets the criterion. -/
theorem forall_prefix_iff (h : Criterion step Env Inv Good Ok) (hs : Inv s)
    (henv : ∀ before, before <+: steps → Env (before.foldl step s)) :
    (∀ before, before <+: steps → Good (before.foldl step s)) ↔
      ∀ before a, before ++ [a] <+: steps → Ok (before.foldl step s) a := by
  constructor
  · intro hgood
    have hok : ∀ before a, before ++ [a] <+: steps → Inv (before.foldl step s) →
        Ok (before.foldl step s) a := by
      intro before a hprefix hinv
      have hnext := henv _ hprefix
      have hafter := hgood _ hprefix
      rw [List.foldl_concat] at hnext hafter
      exact h.necessary _ a (henv before (prefix_of_concat hprefix)) hnext hinv hafter
    intro before a hprefix
    exact hok before a hprefix (inv_of_ok h hs henv hok before (prefix_of_concat hprefix))
  · intro hok before hbefore
    exact h.good _ (inv_of_ok h hs henv (fun b a hb _ => hok b a hb) before hbefore)

end PayyRollup.PrefixRuns
