import PayyRollup.PaymentEffects

/-!
How often a burn is substituted. The mark of a substituted burn is never taken back, and a
substitution needs a burn without the mark, so no run of the contract, with whatever calls
its routers make in between, substitutes a burn twice.
-/
namespace PayyRollup.SubstitutionCounts

open ScalarField VerifierContracts Transactions RollupState RollupCalls CallBacks PaymentLog
  PaymentEffects

variable {τ : Type}

def substitutes (n : Element) : Entry → Bool
  | .substituted m _ _ => decide (m = n)
  | _ => false

/-- The finished substitutions of a burn. -/
def substitutions (n : Element) (log : List Entry) : ℕ := log.countP (substitutes n)

/-- Marked burns stay marked and are not substituted again; others are substituted at most
once, and only if they are marked in the end. -/
structure SubstitutesOnce (p p' : Logged τ) : Prop where
  marked : ∀ n, p.1.substitutedBurns n = true → p'.1.substitutedBurns n = true ∧
    substitutions n p'.2 = substitutions n p.2
  unmarked : ∀ n, p'.1.substitutedBurns n = false →
    substitutions n p'.2 = substitutions n p.2
  once : ∀ n, substitutions n p'.2 ≤ substitutions n p.2 + 1

instance : IsPreorder (Logged τ) SubstitutesOnce where
  refl p := ⟨fun _ h => ⟨h, rfl⟩, fun _ _ => rfl, fun _ => Nat.le_succ _⟩
  trans p p' p'' h h' := by
    refine ⟨fun n hn => ?_, fun n hn => ?_, fun n => ?_⟩
    · obtain ⟨hmark, hcount⟩ := h.marked n hn
      obtain ⟨hmark', hcount'⟩ := h'.marked n hmark
      exact ⟨hmark', hcount'.trans hcount⟩
    · have hmiddle : p'.1.substitutedBurns n = false := by
        by_contra hmark
        rw [Bool.not_eq_false] at hmark
        rw [(h'.marked n hmark).1] at hn
        cases hn
      rw [h'.unmarked n hn, h.unmarked n hmiddle]
    · cases hmark : p'.1.substitutedBurns n with
      | true =>
        rw [(h'.marked n hmark).2]
        exact h.once n
      | false =>
        rw [← h.unmarked n hmark]
        exact h'.once n

section Steps

variable {env : Externals τ} {router : Address × Bytes × Element → LoggedM τ Bool}
  {p p' : Logged τ}

/-- A step that sets no mark and ends no substitution. -/
theorem once_of_same (more : List Entry) (s' : Rollup τ)
    (hmarks : s'.substitutedBurns = p.1.substitutedBurns)
    (hmore : ∀ n, substitutions n more = 0) : SubstitutesOnce p (s', p.2 ++ more) := by
  have hcount : ∀ n, substitutions n (p.2 ++ more) = substitutions n p.2 := by
    intro n
    unfold substitutions
    rw [List.countP_append]
    exact congrArg (_ + ·) (hmore n)
  exact ⟨fun n hn => ⟨(congrFun hmarks n).trans hn, hcount n⟩, fun n _ => hcount n,
    fun n => (hcount n).trans_le (Nat.le_succ _)⟩

theorem once_of_silent (s' : Rollup τ) (hmarks : s'.substitutedBurns = p.1.substitutedBurns) :
    SubstitutesOnce p (s', p.2) := by
  have hsame := once_of_same (p := p) [] s' hmarks fun _ => rfl
  rwa [List.append_nil] at hsame

theorem pays_once
    (hrouter : ∀ args s s', Commits (router args) s true s' → SubstitutesOnce s s')
    {n v : Element} {result : Bool × Bool} (h : Pays env router n v p result p') :
    SubstitutesOnce p p' := by
  cases h with
  | missing _ _ => exact refl_of SubstitutesOnce p
  | transferred chain _ _ _ _ => exact once_of_same _ _ rfl fun _ => rfl
  | refused _ _ _ => exact once_of_same _ _ rfl fun _ => rfl
  | routed chain chain' t _ _ _ hcalled _ =>
    have hstart : SubstitutesOnce p ({ p.1 with chain }, p.2) := once_of_silent _ rfl
    have hend : SubstitutesOnce t ({ t.1 with chain := chain' },
        t.2 ++ [.paid n (p.1.burnsToRouter n).router v]) := once_of_same _ _ rfl fun _ => rfl
    exact trans_of SubstitutesOnce (trans_of SubstitutesOnce hstart (hrouter _ _ _ hcalled)) hend
  | returned _ _ chain _ _ _ _ _ => exact once_of_same _ _ rfl fun _ => rfl
  | withheld _ chain _ _ _ _ => exact once_of_silent _ rfl
  | unknown _ _ => exact refl_of SubstitutesOnce p

theorem registration_once (h : Registration env p p') : SubstitutesOnce p p' := by
  cases h with
  | mint chain commitment v _ _ => exact once_of_same _ _ rfl fun _ => rfl
  | toAddress n v toAddr _ _ _ => exact once_of_same _ _ rfl fun _ => rfl
  | toRouter n v address routerCalldata returnAddress _ _ _ =>
    exact once_of_same _ _ rfl fun _ => rfl

/-- A substitution marks a burn, executes it while it is marked, and counts once. -/
theorem substitution_once
    (hrouter : ∀ args s s', Commits (router args) s true s' → SubstitutesOnce s s')
    {sender : Address} {n v : Element} (h : Substitution env router sender n v p p') :
    SubstitutesOnce p p' ∧ p'.1.substitutedBurns n = true := by
  obtain ⟨chain, t, _, hpays, rfl⟩ := h.executed
  have hpaid := pays_once hrouter hpays
  have hadvanced : ∀ m, substitutions m (p.2 ++ [.advanced n sender v]) =
      substitutions m p.2 := by
    intro m
    unfold substitutions
    rw [List.countP_append]
    rfl
  have hfinished : ∀ m, substitutions m (t.2 ++ [.substituted n sender v]) =
      substitutions m t.2 + if n = m then 1 else 0 := by
    intro m
    unfold substitutions
    rw [List.countP_append, List.countP_singleton]
    by_cases hm : n = m <;> simp [substitutes, hm]
  have hown := hpaid.marked n (Function.update_self ..)
  dsimp only at hown
  rw [hadvanced] at hown
  refine ⟨⟨fun m hm => ?_, fun m hm => ?_, fun m => ?_⟩, hown.1⟩
  · have hne : n ≠ m := by
      rintro rfl
      rw [h.fresh] at hm
      cases hm
    have hother := hpaid.marked m ((Function.update_of_ne hne.symm ..).trans hm)
    dsimp only at hother ⊢
    rw [hadvanced] at hother
    rw [hfinished, if_neg hne]
    exact hother
  · have hne : n ≠ m := by
      rintro rfl
      exact Bool.false_ne_true (hm.symm.trans hown.1)
    have hother := hpaid.unmarked m hm
    dsimp only at hother ⊢
    rw [hadvanced] at hother
    rw [hfinished, if_neg hne]
    exact hother
  · dsimp only
    rw [hfinished]
    by_cases hm : n = m
    · subst hm
      rw [if_pos rfl, hown.2]
    · rw [if_neg hm]
      have hother := hpaid.once m
      dsimp only at hother
      rwa [hadvanced] at hother

theorem once_lawful (env : Externals τ) (fair : (τ → τ) → Prop) :
    Lawful env fair (SubstitutesOnce (τ := τ)) := by
  refine ⟨?_, ?_, ?_, ?_, ?_⟩
  · intro p s' hsame
    exact once_of_silent s' hsame.substitutedBurns
  · intro p effect _
    exact once_of_silent _ rfl
  · intro p p' h
    exact registration_once h
  · intro router hrouter sender n v p p' h
    exact (substitution_once (fun args s s' hs => (hrouter args).relates s true s' hs) h).1
  · intro router hrouter n v p p' h
    cases h with
    | nothing _ => exact refl_of SubstitutesOnce p
    | mint _ => exact once_of_silent _ rfl
    | burn success p' _ hpays =>
      have hpaid := pays_once (fun args s s' hs => (hrouter args).relates s true s' hs) hpays
      have hstart : SubstitutesOnce p
          ({ p.1 with rolledUpLeafs := Function.update p.1.rolledUpLeafs n true },
            p.2 ++ [.rolledUp n v]) := once_of_same _ _ rfl fun _ => rfl
      exact trans_of SubstitutesOnce hstart hpaid

/-- Runs of the contract substitute a burn at most once. -/
theorem run_once (env : Externals τ) (routers : RouterCalls τ) (depth : ℕ) (p : Logged τ)
    (txs : List (Address × Call τ)) :
    SubstitutesOnce p (runLogged env routers depth p txs) := by
  have hall : ∀ sender (c : Call τ), FairCall (fun _ => True) sender c :=
    fun _ _ _ _ => trivial
  apply (once_lawful env fun _ => True).run routers depth _ p txs fun tx _ => hall tx.1 tx.2
  intro args s
  exact Script.within_of_forall _ hall _

/-- A substitution that commits leaves the burn marked. -/
theorem substituteBurn_marks (env : Externals τ) (routers : RouterCalls τ) (depth : ℕ)
    (sender : Address) (n v : Element) (u : Unit)
    (h : Commits (loggedCall env (calleeAt Prod.fst (loggedCall env) routers depth) sender
      (.request (.substituteBurn n v))) p u p') : p'.1.substitutedBurns n = true := by
  have hall : ∀ sender (c : Call τ), FairCall (fun _ => True) sender c :=
    fun _ _ _ _ => trivial
  have hrouters := calleeAt_respects Prod.fst (FairCall fun _ => True) (loggedCall env) routers
    (fun router hrespects hquiet sender c hfair =>
      (once_lawful env fun _ => True).call router hrespects hquiet sender c hfair)
    (fun args s => Script.within_of_forall _ hall _) depth
  have hsub := substituteBurn_substitution env _ p p'
    (calleeAt_failsQuietly Prod.fst (loggedCall env) routers depth) sender n v u h
  exact (substitution_once (fun args s s' hs => (hrouters args).relates s true s' hs) hsub).2

end Steps
end PayyRollup.SubstitutionCounts
