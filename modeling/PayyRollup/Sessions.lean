import Mathlib.Order.Defs.Unbundled

/-!
Programs whose state outlives their errors. A program that fails on its way has still done
what came before, so its runs are described by the answer, which may be an error, and the
state it leaves. A preorder that the steps of a program respect relates its first state to
its last, however it ends.
-/
namespace PayyRollup.Sessions

variable {ε σ α β : Type}

abbrev Session (ε σ α : Type) := ExceptT ε (StateM σ) α

def Ends (x : Session ε σ α) (s : σ) (r : Except ε α) (s' : σ) : Prop := x s = (r, s')

section Endings

variable (s s' : σ) (r : Except ε α)

theorem Ends.unique {x : Session ε σ α} {s t t' : σ} {r r' : Except ε α} (h : Ends x s r t)
    (h' : Ends x s r' t') : r = r' ∧ t = t' :=
  Prod.mk.inj (h.symm.trans h')

theorem ends_self (x : Session ε σ α) (s : σ) : Ends x s (x s).1 (x s).2 := rfl

@[simp] theorem ends_pure (a : α) :
    Ends (pure a : Session ε σ α) s r s' ↔ r = .ok a ∧ s' = s := by
  change ((.ok a : Except ε α), s) = (r, s') ↔ _
  rw [Prod.mk.injEq, eq_comm, @eq_comm _ s]

@[simp] theorem ends_throw (e : ε) :
    Ends (throw e : Session ε σ α) s r s' ↔ r = .error e ∧ s' = s := by
  change ((.error e : Except ε α), s) = (r, s') ↔ _
  rw [Prod.mk.injEq, eq_comm, @eq_comm _ s]

@[simp] theorem ends_get (r : Except ε σ) :
    Ends (get : Session ε σ σ) s r s' ↔ r = .ok s ∧ s' = s := by
  change ((.ok s : Except ε σ), s) = (r, s') ↔ _
  rw [Prod.mk.injEq, eq_comm, @eq_comm _ s]

@[simp] theorem ends_modify (f : σ → σ) (r : Except ε PUnit) :
    Ends (modify f : Session ε σ PUnit) s r s' ↔ r = .ok ⟨⟩ ∧ s' = f s := by
  change ((.ok ⟨⟩ : Except ε PUnit), f s) = (r, s') ↔ _
  rw [Prod.mk.injEq, eq_comm, @eq_comm _ (f s)]

/-- A sequence ends with the error of its first part, or with its second part. -/
@[simp] theorem ends_bind (x : Session ε σ β) (f : β → Session ε σ α) :
    Ends (x >>= f) s r s' ↔ (∃ e, Ends x s (.error e) s' ∧ r = .error e) ∨
      ∃ b t, Ends x s (.ok b) t ∧ Ends (f b) t r s' := by
  have hbind : (x >>= f) s = match x s with
      | (.ok b, t) => f b t
      | (.error e, t) => (.error e, t) := by
    change (match (x s).1 with
      | .ok b => f b
      | .error e => pure (.error e) : StateM σ (Except ε α)) (x s).2 = _
    rcases x s with ⟨_ | _, _⟩ <;> rfl
  unfold Ends
  rw [hbind]
  rcases x s with ⟨e | b, t⟩
  · constructor
    · intro h
      obtain ⟨rfl, rfl⟩ := Prod.mk.inj h
      exact Or.inl ⟨e, rfl, rfl⟩
    · rintro (⟨e', h, rfl⟩ | ⟨b, t', h, -⟩)
      · obtain ⟨he, rfl⟩ := Prod.mk.inj h
        rw [Except.error.inj he]
      · cases h
  · constructor
    · exact fun h => Or.inr ⟨b, t, rfl, h⟩
    · rintro (⟨e', h, -⟩ | ⟨b', t', h, hf⟩)
      · cases h
      · obtain ⟨hb, rfl⟩ := Prod.mk.inj h
        rw [Except.ok.inj hb]
        exact hf

theorem ends_ite (condition : Prop) [Decidable condition] (x y : Session ε σ α) :
    Ends (if condition then x else y) s r s' ↔
      condition ∧ Ends x s r s' ∨ ¬condition ∧ Ends y s r s' := by
  by_cases h : condition <;> simp [h]

end Endings
end PayyRollup.Sessions
