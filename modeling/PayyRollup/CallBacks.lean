import Mathlib.Data.Nat.Notation
import PayyRollup.Transactions

/-!
Transactions whose callees call back. A callee is a script: it sends calls, reads what it
may see of the state after each, and succeeds or fails; a failed callee leaves no trace.
Calls nest up to a depth, where the innermost callee fails. A preorder that every call
respects whenever its callees do is respected by runs of any depth, and a map of states
that commutes with the calls commutes with the runs.
-/
namespace PayyRollup.CallBacks

open Transactions

/-- What a callee does, where `ρ` is what it sees of the state. -/
inductive Script (ρ ι κ : Type) where
  | stop (success : Bool)
  | call (sender : ι) (c : κ) (next : ρ → Script ρ ι κ)

/-- The script of a callee for its arguments and the state it sees. -/
abbrev Callees (ρ ι κ α : Type) := α → ρ → Script ρ ι κ

variable {ε σ ρ ι κ α β : Type}

section Runs

variable (see : σ → ρ)

/-- A call that reverts changes nothing. -/
def attempt (x : Transaction ε σ β) (s : σ) : σ :=
  match x s with
  | .ok result => result.2
  | .error _ => s

theorem attempt_ok {x : Transaction ε σ β} {s : σ} {r : β × σ} (h : x s = .ok r) :
    attempt x s = r.2 := by
  unfold attempt
  rw [h]

theorem attempt_error {x : Transaction ε σ β} {s : σ} {reason : ε} (h : x s = .error reason) :
    attempt x s = s := by
  unfold attempt
  rw [h]

def Script.run (send : ι → κ → Transaction ε σ Unit) : Script ρ ι κ → σ → Bool × σ
  | .stop success, s => (success, s)
  | .call sender c next, s =>
      let s' := attempt (send sender c) s
      Script.run send (next (see s')) s'

variable (callFn : (α → Transaction ε σ Bool) → ι → κ → Transaction ε σ Unit)
  (callees : Callees ρ ι κ α)

/-- A callee at some remaining depth. -/
def calleeAt : ℕ → α → Transaction ε σ Bool
  | 0 => fun _ => return false
  | depth + 1 => fun args s =>
      let result := (callees args (see s)).run see (callFn (calleeAt depth)) s
      .ok (result.1, if result.1 = true then result.2 else s)

def runNested (depth : ℕ) (s : σ) (txs : List (ι × κ)) : σ :=
  txs.foldl (fun t tx => attempt (callFn (calleeAt see callFn callees depth) tx.1 tx.2) t) s

theorem runNested_append (depth : ℕ) (s : σ) (before after : List (ι × κ)) :
    runNested see callFn callees depth s (before ++ after) =
      runNested see callFn callees depth (runNested see callFn callees depth s before) after :=
  List.foldl_append ..

end Runs

/-- A callee that fails leaves no trace. -/
structure FailsQuietly (x : Transaction ε σ Bool) : Prop where
  unchanged : ∀ s s', Commits x s false s' → s' = s

theorem calleeAt_failsQuietly (see : σ → ρ)
    (callFn : (α → Transaction ε σ Bool) → ι → κ → Transaction ε σ Unit)
    (callees : Callees ρ ι κ α) (depth : ℕ) (args : α) :
    FailsQuietly (calleeAt see callFn callees depth args) := by
  refine ⟨fun s s' h => ?_⟩
  cases depth with
  | zero => exact ((commits_pure s s' false false).mp h).2.symm
  | succ depth =>
    unfold Commits calleeAt at h
    simp only [Except.ok.injEq, Prod.mk.injEq] at h
    obtain ⟨hfailed, hs'⟩ := h
    rw [← hs', hfailed]
    rfl

section Rules

/-- Every call of the script is one of the given ones. -/
inductive Script.Within (allowed : ι → κ → Prop) : Script ρ ι κ → Prop
  | stop (success : Bool) : Within allowed (.stop success)
  | call (sender : ι) (c : κ) (next : ρ → Script ρ ι κ) :
      allowed sender c → (∀ seen, Within allowed (next seen)) →
      Within allowed (.call sender c next)

theorem Script.within_of_forall (allowed : ι → κ → Prop) (h : ∀ sender c, allowed sender c)
    (script : Script ρ ι κ) : script.Within allowed := by
  induction script with
  | stop success => exact .stop success
  | call sender c next ih => exact .call sender c next (h sender c) ih

variable {R : σ → σ → Prop} [IsPreorder σ R] (see : σ → ρ) (allowed : ι → κ → Prop)

theorem attempt_relates (x : Transaction ε σ β) (hx : Respects R x) (s : σ) :
    R s (attempt x s) := by
  unfold attempt
  cases hresult : x s with
  | error reason => exact refl_of R s
  | ok result => exact hx.relates s result.1 result.2 hresult

theorem script_relates (send : ι → κ → Transaction ε σ Unit)
    (hsend : ∀ sender c, allowed sender c → Respects R (send sender c))
    (script : Script ρ ι κ) (hscript : script.Within allowed) (s : σ) :
    R s (script.run see send s).2 := by
  induction hscript generalizing s with
  | stop success => exact refl_of R s
  | call sender c next hcall hnext ih =>
    have hstep := attempt_relates (send sender c) (hsend sender c hcall) s
    exact trans_of R hstep (ih _ _)

variable (callFn : (α → Transaction ε σ Bool) → ι → κ → Transaction ε σ Unit)
  (callees : Callees ρ ι κ α)
  (hcall : ∀ callee : α → Transaction ε σ Bool,
    (∀ args, Respects R (callee args)) → (∀ args, FailsQuietly (callee args)) →
    ∀ sender c, allowed sender c → Respects R (callFn callee sender c))
  (hcallees : ∀ args seen, (callees args seen).Within allowed)

include hcall hcallees

/-- Callees of every depth respect what the calls respect. -/
theorem calleeAt_respects (depth : ℕ) (args : α) :
    Respects R (calleeAt see callFn callees depth args) := by
  induction depth generalizing args with
  | zero => exact respects_pure false
  | succ depth ih =>
    refine ⟨fun s success s' h => ?_⟩
    have hscript := script_relates see allowed (callFn (calleeAt see callFn callees depth))
      (fun sender c hc => hcall _ ih (calleeAt_failsQuietly see callFn callees depth) sender c hc)
      (callees args (see s)) (hcallees args (see s)) s
    unfold Commits calleeAt at h
    simp only [Except.ok.injEq, Prod.mk.injEq] at h
    obtain ⟨-, rfl⟩ := h
    split
    · exact hscript
    · exact refl_of R s

/-- A run relates its start to its end. -/
theorem runNested_relates (depth : ℕ) (s : σ) (txs : List (ι × κ))
    (htxs : ∀ tx ∈ txs, allowed tx.1 tx.2) :
    R s (runNested see callFn callees depth s txs) := by
  induction txs generalizing s with
  | nil => exact refl_of R s
  | cons tx rest ih =>
    have hrespects := hcall (calleeAt see callFn callees depth)
      (calleeAt_respects see allowed callFn callees hcall hcallees depth)
      (calleeAt_failsQuietly see callFn callees depth) tx.1 tx.2
      (htxs tx (List.mem_cons_self ..))
    have hstep := attempt_relates _ hrespects s
    exact trans_of R hstep (ih _ fun tx' h => htxs tx' (List.mem_cons_of_mem _ h))

end Rules

section Erasure

variable {σ' : Type} (erase : σ → σ')

/-- `x` does on `σ` what `y` does on the erased states. -/
structure Erases (x : Transaction ε σ β) (y : Transaction ε σ' β) : Prop where
  erased : ∀ s, (x s).map (fun r => (r.1, erase r.2)) = y (erase s)

variable {erase}

theorem erases_pure (b : β) :
    Erases erase (pure b : Transaction ε σ β) (pure b : Transaction ε σ' β) := ⟨fun _ => rfl⟩

theorem erases_bind {γ : Type} {x : Transaction ε σ β} {y : Transaction ε σ' β}
    {f : β → Transaction ε σ γ} {g : β → Transaction ε σ' γ}
    (hx : Erases erase x y) (hf : ∀ b, Erases erase (f b) (g b)) :
    Erases erase (x >>= f) (y >>= g) := by
  refine ⟨fun s => ?_⟩
  have h := hx.erased s
  simp only [bind, StateT.bind]
  cases hxs : x s with
  | error reason =>
    rw [hxs] at h
    rw [← h]
    rfl
  | ok r =>
    rw [hxs] at h
    rw [← h]
    exact (hf r.1).erased r.2

theorem erases_ite (condition : Prop) [Decidable condition] {x x' : Transaction ε σ β}
    {y y' : Transaction ε σ' β} (hx : Erases erase x y) (hx' : Erases erase x' y') :
    Erases erase (if condition then x else x') (if condition then y else y') := by
  by_cases h : condition
  · rw [if_pos h, if_pos h]
    exact hx
  · rw [if_neg h, if_neg h]
    exact hx'

theorem erases_forM {γ : Type} {f : γ → Transaction ε σ PUnit} {g : γ → Transaction ε σ' PUnit}
    (xs : List γ) (hf : ∀ x, Erases erase (f x) (g x)) :
    Erases erase (xs.forM f) (xs.forM g) := by
  induction xs with
  | nil => exact erases_pure PUnit.unit
  | cons x rest ih => exact erases_bind (hf x) fun _ => ih

theorem attempt_erases {x : Transaction ε σ β} {y : Transaction ε σ' β}
    (h : Erases erase x y) (s : σ) : erase (attempt x s) = attempt y (erase s) := by
  unfold attempt
  rw [← h.erased s]
  cases x s with
  | error reason => rfl
  | ok r => rfl

variable (see : σ' → ρ) {send : ι → κ → Transaction ε σ Unit}
  {send' : ι → κ → Transaction ε σ' Unit}

theorem script_erases (hsend : ∀ sender c, Erases erase (send sender c) (send' sender c))
    (script : Script ρ ι κ) (s : σ) :
    (script.run (fun t => see (erase t)) send s).1 = (script.run see send' (erase s)).1 ∧
      erase (script.run (fun t => see (erase t)) send s).2 =
        (script.run see send' (erase s)).2 := by
  induction script generalizing s with
  | stop success => exact ⟨rfl, rfl⟩
  | call sender c next ih =>
    have h := ih (see (erase (attempt (send sender c) s))) (attempt (send sender c) s)
    simp only [Script.run]
    rw [attempt_erases (hsend sender c) s] at h ⊢
    exact h

variable {callFn : (α → Transaction ε σ Bool) → ι → κ → Transaction ε σ Unit}
  {callFn' : (α → Transaction ε σ' Bool) → ι → κ → Transaction ε σ' Unit}
  (callees : Callees ρ ι κ α)
  (hcall : ∀ callee callee', (∀ args, Erases erase (callee args) (callee' args)) →
    ∀ sender c, Erases erase (callFn callee sender c) (callFn' callee' sender c))

include hcall

theorem calleeAt_erases (depth : ℕ) (args : α) :
    Erases erase (calleeAt (fun t => see (erase t)) callFn callees depth args)
      (calleeAt see callFn' callees depth args) := by
  induction depth generalizing args with
  | zero => exact erases_pure false
  | succ depth ih =>
    refine ⟨fun s => ?_⟩
    have hscript := script_erases see (fun sender c => hcall _ _ ih sender c)
      (callees args (see (erase s))) s
    simp only [calleeAt, Except.map, Except.ok.injEq, Prod.mk.injEq]
    refine ⟨hscript.1, ?_⟩
    rw [← hscript.1, ← hscript.2]
    split <;> rfl

/-- Erasing the states of a run is the run of the erased state. -/
theorem runNested_erases (depth : ℕ) (s : σ) (txs : List (ι × κ)) :
    erase (runNested (fun t => see (erase t)) callFn callees depth s txs) =
      runNested see callFn' callees depth (erase s) txs := by
  induction txs generalizing s with
  | nil => rfl
  | cons tx rest ih =>
    have hstep := attempt_erases
      (hcall _ _ (calleeAt_erases see callees hcall depth) tx.1 tx.2) s
    have hrest := ih (attempt (callFn (calleeAt (fun t => see (erase t)) callFn callees depth)
      tx.1 tx.2) s)
    rw [hstep] at hrest
    exact hrest

end Erasure
end PayyRollup.CallBacks
