import Mathlib.Algebra.Group.Basic
import Mathlib.Data.List.Forall2
import Mathlib.Data.Set.Function

/-!
Constraint programs of a Plonkish proof system. A program assigns advice cells,
asks a hash gadget, imposes polynomial gates and exposes cells in the instance
column. Two readings share one text: `Sat` lets an adversary choose every advice
cell, and `run` fills each cell with the value its assignment computes.
-/
namespace PayyRollup.ConstraintProgram

variable {F α β : Type}

/-- A hash together with the messages that are hashed. No function into a finite field is
injective on all lists, so collision freedom speaks about these messages. -/
structure HashOracle (F : Type) where
  hash : List F → F
  messages : Set (List F)

namespace HashOracle

/-- No two messages that are hashed have one hash. -/
def CollisionFree (O : HashOracle F) : Prop := Set.InjOn O.hash O.messages

/-- No message that is hashed has the null hash. -/
def NoNullPreimage [Zero F] (O : HashOracle F) : Prop :=
  ∀ m ∈ O.messages, O.hash m ≠ 0

theorem CollisionFree.eq {O : HashOracle F} (hO : O.CollisionFree) {m n : List F}
    (hm : m ∈ O.messages) (hn : n ∈ O.messages) (h : O.hash m = O.hash n) : m = n :=
  hO hm hn h

/-- The messages a decoder recovers from their hash. -/
def ofDecoder (hash : List F → F) (decode : F → List F) : HashOracle F where
  hash := hash
  messages := {m | decode (hash m) = m}

theorem ofDecoder_collisionFree (hash : List F → F) (decode : F → List F) :
    (ofDecoder hash decode).CollisionFree := by
  intro a ha b hb hab
  have hdecode : decode (hash a) = decode (hash b) := congrArg decode hab
  exact ha.symm.trans (hdecode.trans hb)

end HashOracle

/-- One synthesis of a circuit. `advice` carries the value the honest prover assigns. -/
inductive Layouter (F α : Type) where
  | done (result : α)
  | advice (honest : F) (next : F → Layouter F α)
  | query (message : List F) (next : F → Layouter F α)
  | gate (poly : F) (next : Layouter F α)
  | expose (cell : F) (row : ℕ) (next : Layouter F α)

namespace Layouter

def bind (x : Layouter F α) (f : α → Layouter F β) : Layouter F β :=
  match x with
  | done a => f a
  | advice honest next => advice honest fun cell => (next cell).bind f
  | query message next => query message fun digest => (next digest).bind f
  | gate poly next => gate poly (next.bind f)
  | expose cell row next => expose cell row (next.bind f)

instance : Monad (Layouter F) where
  pure := done
  bind := bind

/-- Assign an advice cell; only the honest prover is bound to the given value. -/
def assignAdvice (honest : F) : Layouter F F :=
  advice honest done

/-- The hash gadget: its output cell is the hash of the message cells. -/
def hashGadget (message : List F) : Layouter F F :=
  query message done

/-- Require a gate polynomial to vanish. -/
def constrainZero (poly : F) : Layouter F Unit :=
  gate poly (done ())

def constrainEqual [Sub F] (a b : F) : Layouter F Unit :=
  constrainZero (a - b)

/-- Copy a cell to a row of the instance column. -/
def constrainInstance (cell : F) (row : ℕ) : Layouter F Unit :=
  expose cell row (done ())

/-- Some assignment of the advice cells satisfies every gate and copy of `x` against the
instance column, and the program returns `a` on it. -/
def Sat [Zero F] (O : HashOracle F) (inst : List F) : Layouter F α → α → Prop
  | done b, a => b = a
  | advice _ next, a => ∃ cell, Sat O inst (next cell) a
  | query message next, a =>
      message ∈ O.messages ∧ Sat O inst (next (O.hash message)) a
  | gate poly next, a => poly = 0 ∧ Sat O inst next a
  | expose cell row next, a => inst[row]? = some cell ∧ Sat O inst next a

/-- Synthesis by the honest prover; `none` when a constraint is violated. -/
def run [Zero F] [DecidableEq F] (hash : List F → F) (inst : List F) :
    Layouter F α → Option α
  | done a => some a
  | advice honest next => run hash inst (next honest)
  | query message next => run hash inst (next (hash message))
  | gate poly next => if poly = 0 then run hash inst next else none
  | expose cell row next => if inst[row]? = some cell then run hash inst next else none

/-- Run a program on each element of a list and collect the results. -/
def forEach (f : α → Layouter F β) : List α → Layouter F (List β)
  | [] => return []
  | x :: rest => do
      let y ← f x
      let ys ← forEach f rest
      return y :: ys

/-- Run a check on each element of a list. -/
def forAll (f : α → Layouter F Unit) : List α → Layouter F Unit
  | [] => return ()
  | x :: rest => do
      f x
      forAll f rest

section Adversary

variable [Zero F] (O : HashOracle F) (inst : List F)

@[simp] theorem sat_pure (a b : α) : Sat O inst (pure a : Layouter F α) b ↔ a = b := Iff.rfl

@[simp] theorem sat_bind (x : Layouter F α) (f : α → Layouter F β) (b : β) :
    Sat O inst (x >>= f) b ↔ ∃ a, Sat O inst x a ∧ Sat O inst (f a) b := by
  change Sat O inst (x.bind f) b ↔ _
  induction x with
  | done a => simp [bind, Sat]
  | advice honest next ih =>
    simp only [bind, Sat, ih]
    constructor
    · rintro ⟨cell, a, ha, hb⟩
      exact ⟨a, ⟨cell, ha⟩, hb⟩
    · rintro ⟨a, ⟨cell, ha⟩, hb⟩
      exact ⟨cell, a, ha, hb⟩
  | query message next ih =>
    simp only [bind, Sat, ih]
    constructor
    · rintro ⟨hm, a, ha, hb⟩
      exact ⟨a, ⟨hm, ha⟩, hb⟩
    · rintro ⟨a, ⟨hm, ha⟩, hb⟩
      exact ⟨hm, a, ha, hb⟩
  | gate poly next ih =>
    simp only [bind, Sat, ih]
    constructor
    · rintro ⟨hp, a, ha, hb⟩
      exact ⟨a, ⟨hp, ha⟩, hb⟩
    · rintro ⟨a, ⟨hp, ha⟩, hb⟩
      exact ⟨hp, a, ha, hb⟩
  | expose cell row next ih =>
    simp only [bind, Sat, ih]
    constructor
    · rintro ⟨hc, a, ha, hb⟩
      exact ⟨a, ⟨hc, ha⟩, hb⟩
    · rintro ⟨a, ⟨hc, ha⟩, hb⟩
      exact ⟨hc, a, ha, hb⟩

@[simp] theorem sat_assignAdvice (honest cell : F) :
    Sat O inst (assignAdvice honest) cell := ⟨cell, rfl⟩

@[simp] theorem sat_hashGadget (message : List F) (digest : F) :
    Sat O inst (hashGadget message) digest ↔
      message ∈ O.messages ∧ O.hash message = digest := Iff.rfl

@[simp] theorem sat_constrainZero (poly : F) (u : Unit) :
    Sat O inst (constrainZero poly) u ↔ poly = 0 := by
  simp [constrainZero, Sat]

@[simp] theorem sat_constrainInstance (cell : F) (row : ℕ) (u : Unit) :
    Sat O inst (constrainInstance cell row) u ↔ inst[row]? = some cell := by
  simp [constrainInstance, Sat]

theorem sat_forEach (f : α → Layouter F β) (xs : List α) (ys : List β) :
    Sat O inst (forEach f xs) ys ↔ List.Forall₂ (fun x y => Sat O inst (f x) y) xs ys := by
  induction xs generalizing ys with
  | nil => simp [forEach, eq_comm]
  | cons x rest ih =>
    simp only [forEach, sat_bind, ih, sat_pure, List.forall₂_cons_left_iff]
    constructor
    · rintro ⟨y, hy, zs, hzs, rfl⟩
      exact ⟨y, zs, hy, hzs, rfl⟩
    · rintro ⟨y, zs, hy, hzs, rfl⟩
      exact ⟨y, hy, zs, hzs, rfl⟩

/-- When a program returns the same cells for every element, only their number is bound. -/
theorem sat_forEach_const (f : α → Layouter F β) (P : β → Prop)
    (hf : ∀ x y, Sat O inst (f x) y ↔ P y) (xs : List α) (ys : List β) :
    Sat O inst (forEach f xs) ys ↔ ys.length = xs.length ∧ ∀ y ∈ ys, P y := by
  rw [sat_forEach]
  induction xs generalizing ys with
  | nil =>
    rw [List.forall₂_nil_left_iff, List.length_nil, List.length_eq_zero_iff]
    exact ⟨fun h => ⟨h, by simp [h]⟩, And.left⟩
  | cons x rest ih =>
    cases ys with
    | nil => simp
    | cons y ys =>
      rw [List.forall₂_cons, hf, ih]
      simp [and_left_comm]

@[simp] theorem sat_forAll (f : α → Layouter F Unit) (xs : List α) (u : Unit) :
    Sat O inst (forAll f xs) u ↔ ∀ x ∈ xs, Sat O inst (f x) () := by
  induction xs with
  | nil => simp [forAll]
  | cons x rest ih =>
    simp only [forAll, sat_bind, ih, List.forall_mem_cons]
    constructor
    · rintro ⟨⟨⟩, hx, hrest⟩
      exact ⟨hx, hrest⟩
    · rintro ⟨hx, hrest⟩
      exact ⟨(), hx, hrest⟩

end Adversary

@[simp] theorem sat_constrainEqual [AddGroup F] (O : HashOracle F) (inst : List F)
    (a b : F) (u : Unit) : Sat O inst (constrainEqual a b) u ↔ a = b := by
  simp [constrainEqual, sub_eq_zero]

section Honest

variable [Zero F] [DecidableEq F] (hash : List F → F) (inst : List F)

@[simp] theorem run_pure (a : α) : run hash inst (pure a : Layouter F α) = some a := rfl

@[simp] theorem run_bind (x : Layouter F α) (f : α → Layouter F β) :
    run hash inst (x >>= f) = (run hash inst x).bind fun a => run hash inst (f a) := by
  change run hash inst (x.bind f) = _
  induction x with
  | done a => rfl
  | advice honest next ih => simp only [bind, run, ih]
  | query message next ih => simp only [bind, run, ih]
  | gate poly next ih =>
    simp only [bind, run, ih]
    split <;> rfl
  | expose cell row next ih =>
    simp only [bind, run, ih]
    split <;> rfl

@[simp] theorem run_assignAdvice (honest : F) :
    run hash inst (assignAdvice honest) = some honest := rfl

@[simp] theorem run_hashGadget (message : List F) :
    run hash inst (hashGadget message) = some (hash message) := rfl

@[simp] theorem run_constrainZero (poly : F) :
    run hash inst (constrainZero poly) = if poly = 0 then some () else none := rfl

@[simp] theorem run_constrainInstance (cell : F) (row : ℕ) :
    run hash inst (constrainInstance cell row) =
      if inst[row]? = some cell then some () else none := rfl

theorem run_forEach (f : α → Layouter F β) (g : α → β) (xs : List α)
    (h : ∀ x ∈ xs, run hash inst (f x) = some (g x)) :
    run hash inst (forEach f xs) = some (xs.map g) := by
  induction xs with
  | nil => rfl
  | cons x rest ih =>
    obtain ⟨hfirst, hrest⟩ := List.forall_mem_cons.mp h
    simp [forEach, hfirst, ih hrest]

@[simp] theorem run_forEach_assignAdvice (cells : List F) :
    run hash inst (forEach assignAdvice cells) = some cells := by
  rw [run_forEach hash inst assignAdvice id cells fun _ _ => rfl, List.map_id]

/-- A check before a program passes and the program follows. -/
theorem run_check_isSome (x : Layouter F Unit) (f : Unit → Layouter F β) :
    (run hash inst (x >>= f)).isSome ↔
      (run hash inst x).isSome ∧ (run hash inst (f ())).isSome := by
  rw [run_bind]
  cases run hash inst x with
  | none => simp
  | some u => simp

theorem run_constrainInstance_isSome (cell : F) (row : ℕ) :
    (run hash inst (constrainInstance cell row)).isSome ↔ inst[row]? = some cell := by
  rw [run_constrainInstance]
  by_cases h : inst[row]? = some cell
  · simp [h]
  · rw [if_neg h]
    simp [h]

/-- Checks over a list all pass or the synthesis stops. -/
theorem run_forAll_isSome (f : α → Layouter F Unit) (xs : List α) :
    (run hash inst (forAll f xs)).isSome ↔ ∀ x ∈ xs, (run hash inst (f x)).isSome := by
  induction xs with
  | nil => simp [forAll]
  | cons x rest ih =>
    rw [forAll, run_check_isSome, ih, List.forall_mem_cons]

end Honest

@[simp] theorem run_constrainEqual [AddGroup F] [DecidableEq F] (hash : List F → F)
    (inst : List F) (a b : F) :
    run hash inst (constrainEqual a b) = if a = b then some () else none := by
  simp [constrainEqual, sub_eq_zero]

theorem run_constrainEqual_isSome [AddGroup F] [DecidableEq F] (hash : List F → F)
    (inst : List F) (a b : F) : (run hash inst (constrainEqual a b)).isSome ↔ a = b := by
  rw [run_constrainEqual]
  by_cases h : a = b <;> simp [h]

end Layouter
end PayyRollup.ConstraintProgram
