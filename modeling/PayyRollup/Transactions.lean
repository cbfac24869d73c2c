import Mathlib.Order.Defs.Unbundled

/-!
Transactions over a store: a transaction reads and writes a state, returns a value, or
reverts with a reason and leaves no state. `Commits` is the relation of its successful
runs, with one law per operation; `Respects` lifts a preorder on states, such as the
preservation of an invariant, from the operations to whole transactions.
-/
namespace PayyRollup.Transactions

variable {ε σ α β : Type}

abbrev Transaction (ε σ α : Type) := StateT σ (Except ε) α

/-- The transaction ends in `s'` with the result `a`. -/
def Commits (x : Transaction ε σ α) (s : σ) (a : α) (s' : σ) : Prop := x s = .ok (a, s')

/-- Revert with a reason unless the condition holds. -/
def require (condition : Prop) [Decidable condition] (reason : ε) : Transaction ε σ Unit :=
  if condition then return () else throw reason

/-- A call that does not change the state. -/
def view (x : Except ε α) : Transaction ε σ α := fun s => x.map fun a => (a, s)

section Laws

variable (s s' : σ)

@[simp] theorem commits_pure (a b : α) :
    Commits (pure a : Transaction ε σ α) s b s' ↔ a = b ∧ s = s' := by
  change (Except.ok (a, s) : Except ε (α × σ)) = .ok (b, s') ↔ _
  rw [Except.ok.injEq, Prod.mk.injEq]

@[simp] theorem commits_bind (x : Transaction ε σ α) (f : α → Transaction ε σ β) (b : β) :
    Commits (x >>= f) s b s' ↔ ∃ a t, Commits x s a t ∧ Commits (f a) t b s' := by
  unfold Commits
  simp only [bind, StateT.bind, Except.bind]
  cases hx : x s with
  | error e => simp
  | ok r =>
    obtain ⟨a, t⟩ := r
    simp only [Except.ok.injEq, Prod.mk.injEq]
    constructor
    · intro h
      exact ⟨a, t, ⟨rfl, rfl⟩, h⟩
    · rintro ⟨_, _, ⟨rfl, rfl⟩, h⟩
      exact h

@[simp] theorem commits_get (t : σ) :
    Commits (get : Transaction ε σ σ) s t s' ↔ t = s ∧ s' = s := by
  change (Except.ok (s, s) : Except ε (σ × σ)) = .ok (t, s') ↔ _
  rw [Except.ok.injEq, Prod.mk.injEq, eq_comm, @eq_comm _ s s']

@[simp] theorem commits_set (t : σ) (u : PUnit) :
    Commits (set t : Transaction ε σ PUnit) s u s' ↔ s' = t := by
  change (Except.ok (u, t) : Except ε (PUnit × σ)) = .ok (u, s') ↔ _
  rw [Except.ok.injEq, Prod.mk.injEq, eq_self, true_and, eq_comm]

@[simp] theorem commits_modify (f : σ → σ) (u : PUnit) :
    Commits (modify f : Transaction ε σ PUnit) s u s' ↔ s' = f s := by
  change (Except.ok (u, f s) : Except ε (PUnit × σ)) = .ok (u, s') ↔ _
  rw [Except.ok.injEq, Prod.mk.injEq, eq_self, true_and, eq_comm]

@[simp] theorem not_commits_throw (reason : ε) (a : α) :
    ¬Commits (throw reason : Transaction ε σ α) s a s' := by
  unfold Commits
  intro h
  cases h

@[simp] theorem commits_require (condition : Prop) [Decidable condition] (reason : ε)
    (u : Unit) : Commits (require condition reason) s u s' ↔ condition ∧ s' = s := by
  unfold require
  by_cases h : condition
  · rw [if_pos h, commits_pure]
    simp [h, eq_comm]
  · rw [if_neg h]
    simp [h]

@[simp] theorem commits_view (x : Except ε α) (a : α) :
    Commits (view x) s a s' ↔ x = .ok a ∧ s' = s := by
  unfold Commits view
  cases x with
  | error e => simp [Except.map]
  | ok b =>
    simp only [Except.map, Except.ok.injEq, Prod.mk.injEq]
    exact and_congr_right' eq_comm

theorem commits_ite (condition : Prop) [Decidable condition] (x y : Transaction ε σ α) (a : α) :
    Commits (if condition then x else y) s a s' ↔
      (condition ∧ Commits x s a s') ∨ (¬condition ∧ Commits y s a s') := by
  by_cases h : condition <;> simp [h]

/-- A transaction with one result state per start state. -/
theorem Commits.unique {x : Transaction ε σ α} {a b : α} {t : σ} (h : Commits x s a s')
    (h' : Commits x s b t) : a = b ∧ s' = t := by
  unfold Commits at h h'
  rw [h] at h'
  cases h'
  exact ⟨rfl, rfl⟩

end Laws

/-- The transaction reverts from `s` with the reason `e`. -/
def Reverts (x : Transaction ε σ α) (s : σ) (e : ε) : Prop := x s = .error e

section Reverting

variable (s : σ) (e : ε)

@[simp] theorem not_reverts_pure (a : α) : ¬Reverts (pure a : Transaction ε σ α) s e := by
  intro h
  cases h

@[simp] theorem reverts_bind (x : Transaction ε σ α) (f : α → Transaction ε σ β) :
    Reverts (x >>= f) s e ↔ Reverts x s e ∨ ∃ a t, Commits x s a t ∧ Reverts (f a) t e := by
  unfold Reverts Commits
  simp only [bind, StateT.bind, Except.bind]
  cases hx : x s with
  | error e' => simp
  | ok r =>
    obtain ⟨a, t⟩ := r
    simp only [Except.ok.injEq, Prod.mk.injEq, reduceCtorEq, false_or]
    constructor
    · intro h
      exact ⟨a, t, ⟨rfl, rfl⟩, h⟩
    · rintro ⟨_, _, ⟨rfl, rfl⟩, h⟩
      exact h

@[simp] theorem not_reverts_get : ¬Reverts (get : Transaction ε σ σ) s e := by
  intro h
  cases h

@[simp] theorem not_reverts_set (t : σ) : ¬Reverts (set t : Transaction ε σ PUnit) s e := by
  intro h
  cases h

@[simp] theorem not_reverts_modify (f : σ → σ) :
    ¬Reverts (modify f : Transaction ε σ PUnit) s e := by
  intro h
  cases h

@[simp] theorem reverts_require (condition : Prop) [Decidable condition] (reason : ε) :
    Reverts (require condition reason) s e ↔ ¬condition ∧ reason = e := by
  unfold require
  by_cases h : condition
  · rw [if_pos h]
    exact iff_of_false (not_reverts_pure s e ()) fun hnot => hnot.1 h
  · rw [if_neg h]
    unfold Reverts
    simp [h, throw, throwThe, MonadExceptOf.throw, StateT.lift, bind, Except.bind]

@[simp] theorem reverts_view (x : Except ε α) : Reverts (view x) s e ↔ x = .error e := by
  unfold Reverts view
  cases x with
  | error e' => simp [Except.map]
  | ok a => simp [Except.map]

theorem reverts_ite (condition : Prop) [Decidable condition] (x y : Transaction ε σ α) :
    Reverts (if condition then x else y) s e ↔
      (condition ∧ Reverts x s e) ∨ (¬condition ∧ Reverts y s e) := by
  by_cases h : condition
  · simp [h]
  · simp [h]

/-- A loop reverts in one of its turns, after the turns before it. -/
theorem reverts_forM (f : α → Transaction ε σ PUnit) (xs : List α)
    (h : Reverts (xs.forM f) s e) :
    ∃ before x after t, xs = before ++ x :: after ∧ Commits (before.forM f) s () t ∧
      Reverts (f x) t e := by
  induction xs generalizing s with
  | nil => exact absurd h (not_reverts_pure s e PUnit.unit)
  | cons x rest ih =>
    change Reverts (f x >>= fun _ => rest.forM f) s e at h
    rcases (reverts_bind _ _ _ _).mp h with hfirst | ⟨u, t, hcommits, hrest⟩
    · exact ⟨[], x, rest, s, rfl, (commits_pure _ _ _ _).mpr ⟨rfl, rfl⟩, hfirst⟩
    · obtain ⟨before, y, after, t', rfl, hbefore, hy⟩ := ih t hrest
      refine ⟨x :: before, y, after, t', rfl, ?_, hy⟩
      change Commits (f x >>= fun _ => before.forM f) s () t'
      exact (commits_bind _ _ _ _ _).mpr ⟨u, t, hcommits, hbefore⟩

end Reverting

/-- Every committed run relates its start to its end. -/
structure Respects (R : σ → σ → Prop) (x : Transaction ε σ α) : Prop where
  relates : ∀ s a s', Commits x s a s' → R s s'

section Relations

variable {R : σ → σ → Prop}

theorem respects_throw (reason : ε) : Respects R (throw reason : Transaction ε σ α) := by
  refine ⟨fun s a s' h => ?_⟩
  exact absurd h (not_commits_throw s s' reason a)

theorem respects_modify (f : σ → σ) (hf : ∀ s, R s (f s)) :
    Respects R (modify f : Transaction ε σ PUnit) := by
  refine ⟨fun s u s' h => ?_⟩
  obtain rfl := (commits_modify s s' f u).mp h
  exact hf s

theorem respects_ite (condition : Prop) [Decidable condition] (x y : Transaction ε σ α)
    (hx : Respects R x) (hy : Respects R y) : Respects R (if condition then x else y) := by
  by_cases h : condition
  · rw [if_pos h]
    exact hx
  · rw [if_neg h]
    exact hy

end Relations

section Preorders

variable {R : σ → σ → Prop} [IsPreorder σ R]

theorem respects_pure (a : α) : Respects R (pure a : Transaction ε σ α) := by
  refine ⟨fun s b s' h => ?_⟩
  obtain ⟨-, rfl⟩ := (commits_pure s s' a b).mp h
  exact refl_of R s

theorem respects_get : Respects R (get : Transaction ε σ σ) := by
  refine ⟨fun s a s' h => ?_⟩
  obtain ⟨-, rfl⟩ := (commits_get s s' a).mp h
  exact refl_of R s'

theorem respects_require (condition : Prop) [Decidable condition] (reason : ε) :
    Respects R (require condition reason) := by
  refine ⟨fun s a s' h => ?_⟩
  obtain ⟨-, rfl⟩ := (commits_require s s' condition reason a).mp h
  exact refl_of R s'

theorem respects_view (x : Except ε α) : Respects R (view x) := by
  refine ⟨fun s a s' h => ?_⟩
  obtain ⟨-, rfl⟩ := (commits_view s s' x a).mp h
  exact refl_of R s'

theorem respects_bind (x : Transaction ε σ α) (f : α → Transaction ε σ β)
    (hx : Respects R x) (hf : ∀ a, Respects R (f a)) : Respects R (x >>= f) := by
  refine ⟨fun s b s' h => ?_⟩
  obtain ⟨a, t, hxt, hft⟩ := (commits_bind s s' x f b).mp h
  exact trans_of R (hx.relates s a t hxt) ((hf a).relates t b s' hft)

theorem respects_forM (f : α → Transaction ε σ PUnit) (xs : List α)
    (hf : ∀ x ∈ xs, Respects R (f x)) : Respects R (xs.forM f) := by
  induction xs with
  | nil => exact respects_pure PUnit.unit
  | cons x rest ih =>
    apply respects_bind
    · exact hf x (List.mem_cons_self ..)
    · intro _
      exact ih fun y hy => hf y (List.mem_cons_of_mem _ hy)

end Preorders
end PayyRollup.Transactions
