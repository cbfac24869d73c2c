import PayyRollup.BurnLife
import PayyRollup.TokenLedger

/-!
Payouts of the rollup contract over whole runs. As long as no hash is rolled up twice, or
while its own substitution is under way, a burn pays no more than its amount beyond what its
substitute paid in, its beneficiary is paid once, its substitute is paid the advance when it
is rolled up unless the token refuses it, its record is replaced by its substitution only
unless its amount is 0, and the balance covers the deposits less the burns rolled up. A router
that has its own burn rolled up while a substitute pays for it is paid twice.
-/
namespace PayyRollup.PayoutSafety

open ScalarField VerifierContracts Transactions RollupState RollupCalls RollupEffects
  CallBacks PaymentLog PaymentEffects BurnLife TokenLedger

def isPaid : Entry → Bool
  | .paid _ _ _ => true
  | _ => false

/-- The amount a burn was first registered with. -/
def registeredAmount (n : Element) (log : List Entry) : ℕ :=
  (log.findSome? fun e => match e with
    | .registered m a => if m = n then some a.toNat else none
    | _ => none).getD 0

/-- What a burn hash costs and whom it pays, where the token may refuse the substitute. -/
structure PaidUnlessRefused (n : Element) (log : List Entry) : Prop where
  net : total paidIn (executed n log) ≤
    total advancedIn (executed n log) + registeredAmount n log
  beneficiary : ∀ before after, log = before ++ after →
    (∀ sender a, .substituted n sender a ∉ before) → (executed n before).countP isPaid ≤ 1
  substitutor : ∀ before after sender a, log = before ++ .substituted n sender a :: after →
    (∃ payee, executed n before = [.advanced n sender a, .paid n payee a]) ∧
      (executed n after = [] ∨ executed n after = [.rolledUp n a, .paid n sender a] ∨
        executed n after = [.rolledUp n a, .refused n sender a])

/-- The substitute of a burn that is rolled up is paid its advance. -/
structure PaidSafely (n : Element) (log : List Entry) : Prop extends
    PaidUnlessRefused n log where
  repaid : ∀ before after sender a, log = before ++ .substituted n sender a :: after →
    executed n after = [] ∨ executed n after = [.rolledUp n a, .paid n sender a]

def registers (n : Element) : Entry → Bool
  | .registered m _ => decide (m = n)
  | _ => false

/-- A hash is rolled up as in `Proper`, is not registered again with the amount 0, and after
its substitution the token refuses no payment for it. -/
structure Regular (n : Element) (log : List Entry) : Prop extends Proper n log where
  zero_once : .registered n 0#256 ∈ log → log.countP (registers n) ≤ 1
  accepted : ∀ before payee a after, log = before ++ .refused n payee a :: after →
    ∀ sender b, .substituted n sender b ∉ before

variable {τ : Type}

/-- The balance covers the deposits less the burns rolled up, at their registered amounts. -/
structure Solvent {env : Externals τ} (ledger : Ledger env) (p : Logged τ) : Prop where
  covered : total mintedIn p.2 ≤ ledger.balance p.1.chain + total rolledUpIn p.2
  registered : ∀ n a, .rolledUp n a ∈ p.2 → .registered n a ∈ p.2

/-- The record of a burn is the same in both states. -/
structure KeepsRecord (n : Element) (p p' : Logged τ) : Prop where
  kind : p'.1.burnsKind n = p.1.burnsKind n
  burn : p'.1.burns n = p.1.burns n
  router : p'.1.burnsToRouter n = p.1.burnsToRouter n

/-- A registered burn without a substitution between the two states keeps its record. -/
def Keeps (p p' : Logged τ) : Prop :=
  ∃ more, p'.2 = p.2 ++ more ∧ ∀ n v, .registered n v ∈ p.2 →
    (∀ sender a, .substituted n sender a ∉ more) → KeepsRecord n p p'

/-- A burn that is neither registered nor substituted between the two states keeps its
record. -/
def Untouched (p p' : Logged τ) : Prop :=
  ∃ more, p'.2 = p.2 ++ more ∧ ∀ n, (∀ v, .registered n v ∉ more) →
    (∀ sender a, .substituted n sender a ∉ more) → KeepsRecord n p p'

section Records

variable {p p' : Logged τ}

instance : IsPreorder (Logged τ) Untouched where
  refl p := ⟨[], (List.append_nil _).symm, fun _ _ _ => ⟨rfl, rfl, rfl⟩⟩
  trans p p' p'' h h' := by
    obtain ⟨more, hmore, hkeeps⟩ := h
    obtain ⟨more', hmore', hkeeps'⟩ := h'
    refine ⟨more ++ more', by rw [hmore', hmore, List.append_assoc], ?_⟩
    intro n hnew hnot
    have hfirst := hkeeps n (fun v hmem => hnew v (List.mem_append_left _ hmem))
      fun sender a hmem => hnot sender a (List.mem_append_left _ hmem)
    have hsecond := hkeeps' n (fun v hmem => hnew v (List.mem_append_right _ hmem))
      fun sender a hmem => hnot sender a (List.mem_append_right _ hmem)
    exact ⟨hsecond.kind.trans hfirst.kind, hsecond.burn.trans hfirst.burn,
      hsecond.router.trans hfirst.router⟩

/-- A step that leaves the records of all burns alone. -/
theorem untouched_of_same (more : List Entry) (s' : Rollup τ)
    (hkind : s'.burnsKind = p.1.burnsKind) (hburn : s'.burns = p.1.burns)
    (hrouter : s'.burnsToRouter = p.1.burnsToRouter) : Untouched p (s', p.2 ++ more) :=
  ⟨more, rfl, fun n _ _ => ⟨congrFun hkind n, congrFun hburn n, congrFun hrouter n⟩⟩

theorem untouched_of_silent (s' : Rollup τ) (hkind : s'.burnsKind = p.1.burnsKind)
    (hburn : s'.burns = p.1.burns) (hrouter : s'.burnsToRouter = p.1.burnsToRouter) :
    Untouched p (s', p.2) := by
  have h := untouched_of_same [] s' hkind hburn hrouter
  rwa [List.append_nil] at h

variable {env : Externals τ} {router : Address × Bytes × Element → LoggedM τ Bool}

theorem pays_untouched
    (hrouter : ∀ args s s', Commits (router args) s true s' → Untouched s s')
    {n v : Element} {result : Bool × Bool} (h : Pays env router n v p result p') :
    Untouched p p' := by
  cases h with
  | missing _ _ => exact refl_of Untouched p
  | transferred chain _ _ _ _ => exact untouched_of_same _ _ rfl rfl rfl
  | refused _ _ _ => exact untouched_of_same _ _ rfl rfl rfl
  | routed chain chain' t _ _ _ hcalled _ =>
    have hstart : Untouched p ({ p.1 with chain }, p.2) := untouched_of_silent _ rfl rfl rfl
    have hend : Untouched t ({ t.1 with chain := chain' },
        t.2 ++ [.paid n (p.1.burnsToRouter n).router v]) := untouched_of_same _ _ rfl rfl rfl
    exact trans_of Untouched (trans_of Untouched hstart (hrouter _ _ _ hcalled)) hend
  | returned _ _ chain _ _ _ _ _ => exact untouched_of_same _ _ rfl rfl rfl
  | withheld _ chain _ _ _ _ => exact untouched_of_silent _ rfl rfl rfl
  | unknown _ _ => exact refl_of Untouched p

/-- A registration writes the record of its own hash. -/
theorem registration_untouched (h : Registration env p p') : Untouched p p' := by
  have hother : ∀ (m n v : Element), (∀ w, .registered m w ∉ [Entry.registered n v]) → m ≠ n := by
    rintro m n v hnew rfl
    exact hnew v (List.mem_singleton_self _)
  cases h with
  | mint chain commitment v _ _ => exact untouched_of_same _ _ rfl rfl rfl
  | toAddress n v toAddr _ _ _ =>
    refine ⟨[.registered n v], rfl, fun m hnew _ => ?_⟩
    have hne := hother m n v hnew
    exact ⟨Function.update_of_ne hne .., Function.update_of_ne hne .., rfl⟩
  | toRouter n v address routerCalldata returnAddress _ _ _ =>
    refine ⟨[.registered n v], rfl, fun m hnew _ => ?_⟩
    have hne := hother m n v hnew
    exact ⟨Function.update_of_ne hne .., rfl, Function.update_of_ne hne ..⟩

/-- Every step of the contract keeps the records of burns it neither registers nor
substitutes. -/
theorem untouched_lawful (env : Externals τ) (fair : (τ → τ) → Prop) :
    Lawful env fair (Untouched (τ := τ)) := by
  refine ⟨?_, ?_, ?_, ?_, ?_⟩
  · intro p s' hsame
    exact untouched_of_silent s' hsame.burnsKind hsame.burns hsame.burnsToRouter
  · intro p effect _
    exact untouched_of_silent _ rfl rfl rfl
  · intro p p' h
    exact registration_untouched h
  · intro router hrouter sender n v p p' h
    obtain ⟨chain, t, _, hpays, rfl⟩ := h.executed
    have hpaid := pays_untouched (fun args s s' hs => (hrouter args).relates s true s' hs) hpays
    have hstart : Untouched p ({ p.1 with
        chain
        substitutedBurns := Function.update p.1.substitutedBurns n true },
        p.2 ++ [.advanced n sender v]) := untouched_of_same _ _ rfl rfl rfl
    refine trans_of Untouched (trans_of Untouched hstart hpaid)
      ⟨[.substituted n sender v], rfl, ?_⟩
    intro m _ hnot
    have hne : m ≠ n := by
      rintro rfl
      exact hnot sender v (List.mem_singleton_self _)
    exact ⟨Function.update_of_ne hne .., Function.update_of_ne hne .., rfl⟩
  · intro router hrouter n v p p' h
    cases h with
    | nothing _ => exact refl_of Untouched p
    | mint _ => exact untouched_of_silent _ rfl rfl rfl
    | burn success p' _ hpays =>
      have hpaid := pays_untouched (fun args s s' hs => (hrouter args).relates s true s' hs) hpays
      have hstart : Untouched p
          ({ p.1 with rolledUpLeafs := Function.update p.1.rolledUpLeafs n true },
            p.2 ++ [.rolledUp n v]) := untouched_of_same _ _ rfl rfl rfl
      exact trans_of Untouched hstart hpaid

/-- Records are kept where no hash is registered again. -/
theorem Untouched.keeps (h : Untouched p p') (honce : ∀ n, p'.2.countP (registers n) ≤ 1) :
    Keeps p p' := by
  obtain ⟨more, hmore, hkeeps⟩ := h
  refine ⟨more, hmore, fun n v hmem hnot => hkeeps n (fun w hagain => ?_) hnot⟩
  have hcount := honce n
  have hfirst : 0 < p.2.countP (registers n) :=
    List.countP_pos_iff.mpr ⟨_, hmem, decide_eq_true rfl⟩
  have hsecond : 0 < more.countP (registers n) :=
    List.countP_pos_iff.mpr ⟨_, hagain, decide_eq_true rfl⟩
  rw [hmore, List.countP_append] at hcount
  omega

end Records

section Registry

/-- A hash whose amount is not 0 is registered once and then stays registered. -/
structure RegisteredOnce (a n : Element) (p : Logged τ) : Prop where
  router : p.1.burnsKind n = 1#256 → (p.1.burnsToRouter n).amount = a
  hasBurn : ∀ v, .registered n v ∈ p.2 → p.1.hasBurn n = true
  once : p.2.countP (registers n) ≤ 1

/-- What keeps the registry of every hash with its amount, unless that is 0. -/
def KeepsRegistry (amountOf : Element → Element) (p p' : Logged τ) : Prop :=
  ∀ n, amountOf n ≠ 0#256 → RegisteredOnce (amountOf n) n p → RegisteredOnce (amountOf n) n p'

instance (amountOf : Element → Element) : IsPreorder (Logged τ) (KeepsRegistry amountOf) where
  refl _ _ _ h := h
  trans _ _ _ h h' n hn hp := h' n hn (h n hn hp)

variable {a n : Element} {p p' : Logged τ} {amountOf : Element → Element} {env : Externals τ}

/-- The records of a hash and its registrations are as before. -/
theorem RegisteredOnce.congr (h : RegisteredOnce a n p) (hrecord : KeepsRecord n p p')
    (more : List Entry) (hlog : p'.2 = p.2 ++ more) (hnew : ∀ v, .registered n v ∉ more) :
    RegisteredOnce a n p' := by
  have hnone : more.countP (registers n) = 0 := by
    rw [List.countP_eq_zero]
    intro e he
    cases e with
    | registered m v =>
      intro hm
      rw [registers, decide_eq_true_eq] at hm
      subst hm
      exact hnew v he
    | _ => exact Bool.false_ne_true
  refine ⟨?_, fun v hmem => ?_, ?_⟩
  · rw [hrecord.kind, hrecord.router]
    exact h.router
  · rw [hlog, List.mem_append] at hmem
    have hburn := h.hasBurn v (hmem.resolve_right (hnew v))
    unfold Rollup.hasBurn at hburn ⊢
    rwa [hrecord.kind, hrecord.burn]
  · rw [hlog, List.countP_append, hnone]
    exact h.once

theorem keepsRegistry_of_same (more : List Entry) (s' : Rollup τ)
    (hkind : s'.burnsKind = p.1.burnsKind) (hburn : s'.burns = p.1.burns)
    (hrouter : s'.burnsToRouter = p.1.burnsToRouter) (hnew : ∀ n v, .registered n v ∉ more) :
    KeepsRegistry amountOf p (s', p.2 ++ more) :=
  fun n _ h => h.congr ⟨congrFun hkind n, congrFun hburn n, congrFun hrouter n⟩ more rfl (hnew n)

theorem keepsRegistry_of_silent (s' : Rollup τ) (hkind : s'.burnsKind = p.1.burnsKind)
    (hburn : s'.burns = p.1.burns) (hrouter : s'.burnsToRouter = p.1.burnsToRouter) :
    KeepsRegistry amountOf p (s', p.2) :=
  fun n _ h => h.congr ⟨congrFun hkind n, congrFun hburn n, congrFun hrouter n⟩ []
    (List.append_nil _).symm fun _ => List.not_mem_nil

/-- A hash is registered where it has no burn, with its amount. -/
theorem RegisteredOnce.register (h : RegisteredOnce a n p) (hnone : p.1.hasBurn n ≠ true)
    (hlog : p'.2 = p.2 ++ [.registered n a]) (hburn : p'.1.hasBurn n = true)
    (hrouter : p'.1.burnsKind n = 1#256 → (p'.1.burnsToRouter n).amount = a) :
    RegisteredOnce a n p' := by
  refine ⟨hrouter, fun _ _ => hburn, ?_⟩
  have hfirst : p.2.countP (registers n) = 0 := by
    rw [List.countP_eq_zero]
    intro e he hregisters
    cases e with
    | registered m v =>
      rw [registers, decide_eq_true_eq] at hregisters
      subst hregisters
      exact hnone (h.hasBurn v he)
    | _ => cases hregisters
  rw [hlog, List.countP_append, hfirst, Nat.zero_add]
  exact List.countP_le_length

theorem registration_keepsRegistry (hbinds : ∀ n v, BurnVerified env n v → v = amountOf n)
    (h : Registration env p p') : KeepsRegistry amountOf p p' := by
  have hfree : ∀ m, p.1.burnsKind m = 0#256 → (p.1.burns m).amount = 0#256 →
      p.1.hasBurn m ≠ true := by
    intro m hkind hamount hburn
    rcases (hasBurn_iff p.1 m).mp hburn with hone | hsome
    · exact hone hkind
    · exact hsome hamount
  cases h with
  | mint chain commitment v _ _ => exact keepsRegistry_of_same _ _ rfl rfl rfl (by simp)
  | toAddress n v toAddr hkind hamount hverified =>
    intro m hm hp
    by_cases hne : m = n
    · subst hne
      obtain rfl := hbinds m v hverified
      refine hp.register (hfree m hkind hamount) rfl ?_ fun hone => ?_
      · rw [hasBurn_iff]
        dsimp only
        rw [Function.update_self, Function.update_self]
        exact Or.inr hm
      · dsimp only at hone
        rw [Function.update_self] at hone
        cases hone
    · refine hp.congr ⟨Function.update_of_ne hne .., Function.update_of_ne hne .., rfl⟩ _ rfl ?_
      simp [hne]
  | toRouter n v address routerCalldata returnAddress hkind hamount hverified =>
    intro m hm hp
    by_cases hne : m = n
    · subst hne
      obtain rfl := hbinds m v hverified
      refine hp.register (hfree m hkind hamount) rfl ?_ fun _ => ?_
      · rw [hasBurn_iff]
        dsimp only
        rw [Function.update_self]
        exact Or.inl (by decide)
      · dsimp only
        rw [Function.update_self]
    · refine hp.congr ⟨Function.update_of_ne hne .., rfl, Function.update_of_ne hne ..⟩ _ rfl ?_
      simp [hne]

variable {router : Address × Bytes × Element → LoggedM τ Bool}
  (hrouter : ∀ args s s', Commits (router args) s true s' → KeepsRegistry amountOf s s')

include hrouter

theorem pays_keepsRegistry {v : Element} {result : Bool × Bool}
    (h : Pays env router n v p result p') : KeepsRegistry amountOf p p' := by
  cases h with
  | missing _ _ => exact refl_of (KeepsRegistry amountOf) p
  | transferred chain _ _ _ _ => exact keepsRegistry_of_same _ _ rfl rfl rfl (by simp)
  | refused _ _ _ => exact keepsRegistry_of_same _ _ rfl rfl rfl (by simp)
  | routed chain chain' t _ _ _ hcalled _ =>
    have hstart : KeepsRegistry amountOf p ({ p.1 with chain }, p.2) :=
      keepsRegistry_of_silent _ rfl rfl rfl
    have hend : KeepsRegistry amountOf t ({ t.1 with chain := chain' },
        t.2 ++ [.paid n (p.1.burnsToRouter n).router v]) :=
      keepsRegistry_of_same _ _ rfl rfl rfl (by simp)
    exact trans_of (KeepsRegistry amountOf) (trans_of (KeepsRegistry amountOf) hstart
      (hrouter _ _ _ hcalled)) hend
  | returned _ _ chain _ _ _ _ _ => exact keepsRegistry_of_same _ _ rfl rfl rfl (by simp)
  | withheld _ chain _ _ _ _ => exact keepsRegistry_of_silent _ rfl rfl rfl
  | unknown _ _ => exact refl_of (KeepsRegistry amountOf) p

omit hrouter in
/-- A burn that is executed with success has an amount that is not 0, unless its own is. -/
theorem pays_amount {v : Element} (h : Pays env router n v p (true, true) p')
    (hone : p.1.burnsKind n = 1#256 → (p.1.burnsToRouter n).amount = a) (ha : a ≠ 0#256) :
    v ≠ 0#256 := by
  cases h with
  | transferred chain _ hamount hv _ =>
    rw [← hv]
    exact hamount
  | routed _ _ _ hkind hv _ _ _ =>
    rw [← hv, hone hkind]
    exact ha
  | returned _ _ _ hkind hv _ _ _ =>
    rw [← hv, hone hkind]
    exact ha

theorem substitution_keepsRegistry {sender : Address} {v : Element}
    (h : Substitution env router sender n v p p') : KeepsRegistry amountOf p p' := by
  obtain ⟨chain, t, _, hpays, rfl⟩ := h.executed
  have hstart : KeepsRegistry amountOf p ({ p.1 with
      chain
      substitutedBurns := Function.update p.1.substitutedBurns n true },
      p.2 ++ [.advanced n sender v]) := keepsRegistry_of_same _ _ rfl rfl rfl (by simp)
  have hpaid := trans_of (KeepsRegistry amountOf) hstart (pays_keepsRegistry hrouter hpays)
  intro m hm hp
  have ht := hpaid m hm hp
  by_cases hne : m = n
  · subst hne
    have hv : v ≠ 0#256 := pays_amount hpays (hstart m hm hp).router hm
    refine ⟨fun hone => ?_, fun _ _ => ?_, ?_⟩
    · dsimp only at hone
      rw [Function.update_self] at hone
      cases hone
    · rw [hasBurn_iff]
      dsimp only
      rw [Function.update_self, Function.update_self]
      exact Or.inr hv
    · rw [List.countP_append]
      exact ht.once
  · exact ht.congr ⟨Function.update_of_ne hne .., Function.update_of_ne hne .., rfl⟩ _ rfl
      (by simp)

omit hrouter in
theorem keepsRegistry_lawful (fair : (τ → τ) → Prop)
    (hbinds : ∀ n v, BurnVerified env n v → v = amountOf n) :
    Lawful env fair (KeepsRegistry (τ := τ) amountOf) := by
  refine ⟨?_, ?_, ?_, ?_, ?_⟩
  · intro p s' hsame
    exact keepsRegistry_of_silent s' hsame.burnsKind hsame.burns hsame.burnsToRouter
  · intro p effect _
    exact keepsRegistry_of_silent _ rfl rfl rfl
  · intro p p' h
    exact registration_keepsRegistry hbinds h
  · intro router hrouter sender n v p p' h
    exact substitution_keepsRegistry (fun args s s' hs => (hrouter args).relates s true s' hs) h
  · intro router hrouter n v p p' h
    cases h with
    | nothing _ => exact refl_of (KeepsRegistry amountOf) p
    | mint _ => exact keepsRegistry_of_silent _ rfl rfl rfl
    | burn success p' _ hpays =>
      have hpaid : KeepsRegistry amountOf _ p' :=
        pays_keepsRegistry (fun args s s' hs => (hrouter args).relates s true s' hs) hpays
      have hstart : KeepsRegistry amountOf p
          ({ p.1 with rolledUpLeafs := Function.update p.1.rolledUpLeafs n true },
            p.2 ++ [.rolledUp n v]) := keepsRegistry_of_same _ _ rfl rfl rfl (by simp)
      exact trans_of (KeepsRegistry amountOf) hstart hpaid

end Registry

section Sums

/-- An entry executes one hash at most. -/
theorem executes_unique (e : Entry) (n m : Element) (hn : executes n e = true)
    (hm : executes m e = true) : n = m := by
  cases e <;> simp only [executes, decide_eq_true_eq, Bool.false_eq_true] at hn hm <;>
    exact hn.symm.trans hm

theorem total_filter (amountIn : Entry → ℕ) (keep : Entry → Bool) (log : List Entry) :
    total amountIn log = total amountIn (log.filter keep) +
      total amountIn (log.filter fun e => !keep e) := by
  induction log with
  | nil => rfl
  | cons e rest ih =>
    unfold total at *
    cases h : keep e with
    | true =>
      rw [List.filter_cons_of_pos h, List.filter_cons_of_neg (by simp [h])]
      simp only [List.map_cons, List.sum_cons, ih]
      omega
    | false =>
      rw [List.filter_cons_of_neg (by simp [h]), List.filter_cons_of_pos (by simp [h])]
      simp only [List.map_cons, List.sum_cons, ih]
      omega

/-- What holds of the amounts of every hash holds of the amounts together. -/
theorem total_le_of_executed (f g : Entry → ℕ)
    (hf : ∀ e, (∀ n, executes n e = false) → f e = 0) (log : List Entry)
    (h : ∀ n, total f (executed n log) ≤ total g (executed n log)) :
    total f log ≤ total g log := by
  induction hlength : log.length using Nat.strong_induction_on generalizing log with
  | _ length ih =>
    cases log with
    | nil => exact le_refl _
    | cons e rest =>
      by_cases hexecutes : ∃ n, executes n e = true
      · obtain ⟨n, hn⟩ := hexecutes
        have hother := ih ((e :: rest).filter fun e' => !executes n e').length ?_
          ((e :: rest).filter fun e' => !executes n e') ?_ rfl
        · have hself := h n
          rw [total_filter f (executes n), total_filter g (executes n)]
          unfold executed at hself
          omega
        · rw [← hlength, List.filter_cons_of_neg (by simp [hn]), List.length_cons]
          exact Nat.lt_succ_of_le (List.length_filter_le ..)
        · intro m
          by_cases hne : m = n
          · subst hne
            have hempty : executed m ((e :: rest).filter fun e' => !executes m e') = [] := by
              unfold executed
              rw [List.filter_filter, List.filter_eq_nil_iff]
              intro e' _
              simp
            rw [hempty]
            exact le_refl _
          · have hsame : executed m ((e :: rest).filter fun e' => !executes n e') =
                executed m (e :: rest) := by
              unfold executed
              rw [List.filter_filter]
              apply List.filter_congr
              intro e' _
              cases hm : executes m e' with
              | false => rfl
              | true =>
                cases hn' : executes n e' with
                | false => rfl
                | true => exact absurd (executes_unique e' m n hm hn') hne
            rw [hsame]
            exact h m
      · have hnone : ∀ n, executes n e = false := by
          intro n
          rw [← Bool.not_eq_true]
          exact fun hn => hexecutes ⟨n, hn⟩
        have hrest := ih rest.length (by rw [← hlength]; exact Nat.lt_succ_self _) rest ?_ rfl
        · have hzero := hf e hnone
          unfold total at *
          rw [List.map_cons, List.map_cons, List.sum_cons, List.sum_cons]
          omega
        · intro n
          have hsame : executed n (e :: rest) = executed n rest :=
            List.filter_cons_of_neg (by rw [hnone n]; exact Bool.false_ne_true)
          rw [← hsame]
          exact h n

end Sums

section Lives

variable {a n : Element} {p : Logged τ}

/-- A registered hash has its amount registered. -/
theorem registeredAmount_eq (log : List Entry) (hmem : .registered n a ∈ log)
    (hbound : ∀ v, .registered n v ∈ log → v = a) : registeredAmount n log = a.toNat := by
  unfold registeredAmount
  induction log with
  | nil => cases hmem
  | cons e rest ih =>
    rw [List.findSome?_cons]
    by_cases hhead : ∃ v, e = .registered n v
    · obtain ⟨v, rfl⟩ := hhead
      obtain rfl := hbound v (List.mem_cons_self ..)
      simp
    · have hrest : .registered n a ∈ rest := by
        rcases List.mem_cons.mp hmem with rfl | hrest
        · exact absurd ⟨a, rfl⟩ hhead
        · exact hrest
      have hih := ih hrest fun v hv => hbound v (List.mem_cons_of_mem _ hv)
      cases e with
      | registered m v =>
        have hne : m ≠ n := by
          rintro rfl
          exact hhead ⟨v, rfl⟩
        simp only [if_neg hne]
        exact hih
      | _ => exact hih

/-- A burn that was paid or rolled up was registered. -/
theorem life_registered (h : Life a n p) (hburn : p.1.hasBurn n = true) :
    registeredAmount n p.2 = a.toNat :=
  registeredAmount_eq p.2 (h.registered hburn) h.bound

theorem life_net (h : Life a n p) :
    total paidIn (executed n p.2) ≤ total advancedIn (executed n p.2) + registeredAmount n p.2 := by
  have hstage := h.stage
  have hregistered := life_registered h
  generalize executed n p.2 = log at hstage ⊢
  cases hstage with
  | idle _ => exact Nat.zero_le _
  | substituting sender _ _ => exact Nat.zero_le _
  | substituted sender payee _ _ =>
    simp [total, paidIn, advancedIn]
  | rolledUp payment _ hburn hpayment =>
    rw [hregistered hburn]
    rcases hpayment with rfl | ⟨payee, rfl | rfl⟩ <;> simp [total, paidIn, advancedIn]
  | repaid sender payee payment _ hburn hpayment =>
    rw [hregistered hburn]
    rcases hpayment with rfl | rfl <;> simp [total, paidIn, advancedIn]

/-- The payments of a hash are covered by its advance and by its roll-up. -/
theorem life_covered (h : Life a n p) :
    total paidIn (executed n p.2) ≤
      total (fun e => advancedIn e + rolledUpIn e) (executed n p.2) := by
  have hstage := h.stage
  generalize executed n p.2 = log at hstage ⊢
  cases hstage with
  | idle _ => exact Nat.zero_le _
  | substituting sender _ _ => exact Nat.zero_le _
  | substituted sender payee _ _ => simp [total, paidIn, advancedIn, rolledUpIn]
  | rolledUp payment _ _ hpayment =>
    rcases hpayment with rfl | ⟨payee, rfl | rfl⟩ <;>
      simp [total, paidIn, advancedIn, rolledUpIn]
  | repaid sender payee payment _ _ hpayment =>
    rcases hpayment with rfl | rfl <;> simp [total, paidIn, advancedIn, rolledUpIn]

theorem life_rolledUp {v : Element} (h : Life a n p) (hmem : .rolledUp n v ∈ p.2) :
    .registered n v ∈ p.2 := by
  have hexecuted : .rolledUp n v ∈ executed n p.2 :=
    (mem_executed n p.2 _).mpr ⟨hmem, decide_eq_true rfl⟩
  have hburn := h.hasBurn_of_locked (Or.inr ⟨v, hexecuted⟩)
  have hstage := h.stage
  have hv : v = a := by
    generalize executed n p.2 = log at hstage hexecuted
    cases hstage with
    | idle _ => simp at hexecuted
    | substituting sender _ _ => simp at hexecuted
    | substituted sender payee _ _ => simp at hexecuted
    | rolledUp payment _ _ hpayment =>
      rcases hpayment with rfl | ⟨payee, rfl | rfl⟩ <;> simpa using hexecuted
    | repaid sender payee payment _ _ hpayment =>
      rcases hpayment with rfl | rfl <;> simpa using hexecuted
  rw [hv]
  exact h.registered hburn

/-- A start of the list without the element ends before it. -/
theorem prefix_before {β : Type} {first second front back : List β} {x : β}
    (h : first ++ second = front ++ x :: back) (hx : x ∉ first) : first <+: front := by
  rcases List.append_eq_append_iff.mp h with ⟨rest, hfront, -⟩ | ⟨rest, hfirst, hback⟩
  · exact ⟨rest, hfront.symm⟩
  · cases rest with
    | nil =>
      rw [hfirst, List.append_nil]
    | cons y ys =>
      obtain ⟨rfl, -⟩ := List.cons_eq_cons.mp hback
      exact absurd (hfirst ▸ List.mem_append_right _ (List.mem_cons_self ..)) hx

theorem life_beneficiary (h : Life a n p) (before after : List Entry) (hlog : p.2 = before ++ after)
    (hnot : ∀ sender v, .substituted n sender v ∉ before) :
    (executed n before).countP isPaid ≤ 1 := by
  have hstage := h.stage
  have hnone : ∀ sender v, .substituted n sender v ∉ executed n before :=
    fun sender v hmem => hnot sender v ((mem_executed n before _).mp hmem).1
  rw [hlog, executed_append] at hstage
  generalize executed n before = first at hstage hnone ⊢
  generalize executed n after = second at hstage
  generalize hsplit : first ++ second = log at hstage
  have hfirst : first <+: log := ⟨second, hsplit⟩
  have hcount := fun front (hle : first <+: front) => (hle.sublist).countP_le (p := isPaid)
  cases hstage with
  | idle _ => exact (hcount _ hfirst).trans (by simp)
  | substituting sender _ _ => exact (hcount _ hfirst).trans (by simp [isPaid])
  | substituted sender payee _ _ =>
    have hle : first <+: [.advanced n sender a, .paid n payee a] :=
      prefix_before hsplit (hnone sender a)
    exact (hcount _ hle).trans (by simp [isPaid])
  | rolledUp payment _ _ hpayment =>
    refine (hcount _ hfirst).trans ?_
    rcases hpayment with rfl | ⟨payee, rfl | rfl⟩ <;> simp [isPaid]
  | repaid sender payee payment _ _ _ =>
    have hle : first <+: [.advanced n sender a, .paid n payee a] :=
      prefix_before hsplit (hnone sender a)
    exact (hcount _ hle).trans (by simp [isPaid])

/-- The one substitution of a hash splits what was executed for it. -/
theorem life_substitutor (h : Life a n p) (before after : List Entry) (sender : Address)
    (v : Element) (hlog : p.2 = before ++ .substituted n sender v :: after) :
    (∃ payee, executed n before = [.advanced n sender v, .paid n payee v]) ∧
      (executed n after = [] ∨ executed n after = [.rolledUp n v, .paid n sender v] ∨
        executed n after = [.rolledUp n v, .refused n sender v]) := by
  have hstage := h.stage
  have hcons : executed n (.substituted n sender v :: after) =
      .substituted n sender v :: executed n after :=
    List.filter_cons_of_pos (decide_eq_true rfl)
  rw [hlog, executed_append, hcons] at hstage
  generalize executed n before = first at hstage ⊢
  generalize executed n after = second at hstage ⊢
  generalize hsplit : first ++ .substituted n sender v :: second = log at hstage
  have hmem : .substituted n sender v ∈ log := by
    rw [← hsplit]
    exact List.mem_append_right _ (List.mem_cons_self ..)
  cases hstage with
  | idle _ => simp at hmem
  | substituting sender' _ _ => simp at hmem
  | substituted sender' payee _ _ =>
    rcases first with _ | ⟨x, _ | ⟨y, _ | ⟨z, rest⟩⟩⟩ <;> simp at hsplit
    obtain ⟨rfl, rfl, ⟨rfl, rfl⟩, rfl⟩ := hsplit
    exact ⟨⟨payee, rfl⟩, Or.inl rfl⟩
  | rolledUp payment _ _ hpayment =>
    rcases hpayment with rfl | ⟨payee, rfl | rfl⟩ <;> simp at hmem
  | repaid sender' payee payment _ _ hpayment =>
    have hne : payment ≠ .substituted n sender v := by
      rcases hpayment with rfl | rfl <;> simp
    rcases first with _ | ⟨x, _ | ⟨y, _ | ⟨z, _ | ⟨w, _ | ⟨u, rest⟩⟩⟩⟩⟩ <;> simp at hsplit
    · obtain ⟨rfl, rfl, ⟨rfl, rfl⟩, rfl⟩ := hsplit
      refine ⟨⟨payee, rfl⟩, Or.inr ?_⟩
      rcases hpayment with rfl | rfl
      · exact Or.inl rfl
      · exact Or.inr rfl
    · exact absurd hsplit.2.2.2.2.1.symm hne

theorem life_paidUnlessRefused (h : Life a n p) : PaidUnlessRefused n p.2 :=
  ⟨life_net h, life_beneficiary h, life_substitutor h⟩

/-- A substitute that the token does not refuse is repaid. -/
theorem PaidUnlessRefused.paidSafely {log : List Entry} (h : PaidUnlessRefused n log)
    (hregular : Regular n log) : PaidSafely n log := by
  refine ⟨h, fun before after sender v hlog => ?_⟩
  rcases (h.substitutor before after sender v hlog).2 with hnone | hpaid | hrefused
  · exact Or.inl hnone
  · exact Or.inr hpaid
  · have hmem : .refused n sender v ∈ after := by
      refine ((mem_executed n after _).mp ?_).1
      rw [hrefused]
      simp
    obtain ⟨front, back, rfl⟩ := List.append_of_mem hmem
    refine absurd ?_ (hregular.accepted (before ++ .substituted n sender v :: front) sender v back
      (by rw [hlog]; simp) sender v)
    simp

end Lives

section Runs

variable (env : Externals τ) (ledger : Ledger env) (routers : RouterCalls τ) (depth : ℕ)

/-- Burn proofs bind a hash to one amount. -/
def BindsAmount : Prop := ∀ n v w, BurnVerified env n v → BurnVerified env n w → v = w

theorem initial_life (chain : τ) (owner prover : Address) (initialValidators : List Address)
    (emptyRoot : Element) (a n : Element) :
    Life a n (initialState chain owner prover initialValidators emptyRoot, []) := by
  refine ⟨Or.inl ⟨rfl, Or.inl rfl⟩, ?_, by simp, Stage.idle rfl⟩
  intro hburn
  rw [hasBurn_iff] at hburn
  rcases hburn with hkind | hamount
  · exact absurd rfl hkind
  · exact absurd rfl hamount

theorem initial_registeredOnce (chain : τ) (owner prover : Address)
    (initialValidators : List Address) (emptyRoot : Element) (a n : Element) :
    RegisteredOnce a n (initialState chain owner prover initialValidators emptyRoot, []) :=
  ⟨fun hone => (nomatch hone), fun _ hmem => absurd hmem List.not_mem_nil, Nat.zero_le 1⟩

/-- Payouts are safe in every run from fresh storage that is regular for every hash: at the end
for every hash and for the balance, and between any two states for every record. -/
theorem payouts_safe (hbinds : BindsAmount env)
    (hrouters : ∀ args s, (routers args s).Within (FairCall ledger.Fair))
    (chain : τ) (owner prover : Address) (initialValidators : List Address)
    (emptyRoot : Element) (hallowed : ledger.allowed chain = 0)
    (earlier later : List (Address × Call τ))
    (htxs : ∀ tx ∈ earlier ++ later, FairCall ledger.Fair tx.1 tx.2)
    (hregular : ∀ n, Regular n (runLogged env routers depth
      (initialState chain owner prover initialValidators emptyRoot, []) (earlier ++ later)).2) :
    let s₀ := initialState chain owner prover initialValidators emptyRoot
    let p := runLogged env routers depth (s₀, []) earlier
    let p' := runLogged env routers depth (s₀, []) (earlier ++ later)
    p'.1 = runNestedCalls env routers depth s₀ (earlier ++ later) ∧
      (∀ n, PaidSafely n p'.2) ∧ Keeps p p' ∧ Solvent ledger p' := by
  intro s₀ p p'
  obtain ⟨amountOf, hamountOf⟩ : ∃ amountOf : Element → Element,
      ∀ n v, BurnVerified env n v → v = amountOf n := by
    classical
    refine ⟨fun n => if h : ∃ v, BurnVerified env n v then h.choose else 0#256, ?_⟩
    intro n v hv
    have hex : ∃ v, BurnVerified env n v := ⟨v, hv⟩
    simp only [dif_pos hex]
    exact hbinds n v _ hv hex.choose_spec
  have hlives := (lives_lawful amountOf ledger.Fair hamountOf).run routers depth hrouters (s₀, [])
    (earlier ++ later) htxs
  have hlife : ∀ n, Life (amountOf n) n p' := fun n =>
    (hlives n).lives (hregular n).toProper
      (initial_life chain owner prover initialValidators emptyRoot _ n)
  have hcovers : ledger.Covers (s₀, []) p' :=
    (covers_lawful ledger).run routers depth hrouters (s₀, []) (earlier ++ later) htxs
  have honce : ∀ n, p'.2.countP (registers n) ≤ 1 := by
    intro n
    by_cases hzero : amountOf n = 0#256
    · by_cases hmem : .registered n 0#256 ∈ p'.2
      · exact (hregular n).zero_once hmem
      · have hnone : p'.2.countP (registers n) = 0 := by
          rw [List.countP_eq_zero]
          intro e he hregisters
          cases e with
          | registered m v =>
            rw [registers, decide_eq_true_eq] at hregisters
            subst hregisters
            rw [(hlife m).bound v he, hzero] at he
            exact hmem he
          | _ => cases hregisters
        rw [hnone]
        exact Nat.zero_le 1
    · exact ((keepsRegistry_lawful ledger.Fair hamountOf).run routers depth hrouters (s₀, [])
        (earlier ++ later) htxs n hzero
        (initial_registeredOnce chain owner prover initialValidators emptyRoot _ n)).once
  have hkeeps : Keeps p p' := by
    have hsplit : p' = runLogged env routers depth p later :=
      runNested_append Prod.fst (loggedCall env) routers depth (s₀, []) earlier later
    have huntouched : Untouched p p' := by
      rw [hsplit]
      exact (untouched_lawful env ledger.Fair).run routers depth hrouters p later
        fun tx htx => htxs tx (List.mem_append_right _ htx)
    exact huntouched.keeps honce
  refine ⟨runLogged_state env routers depth s₀ [] _,
    fun n => (life_paidUnlessRefused (hlife n)).paidSafely (hregular n), hkeeps,
    ?_, fun n v hmem => life_rolledUp (hlife n) hmem⟩
  have hpaid := total_le_of_executed paidIn (fun e => advancedIn e + rolledUpIn e) ?_ p'.2
    fun n => life_covered (hlife n)
  · have hsum : total (fun e => advancedIn e + rolledUpIn e) p'.2 =
        total advancedIn p'.2 + total rolledUpIn p'.2 := List.sum_map_add
    have hstart : ledger.allowed s₀.chain = 0 := hallowed
    unfold Ledger.Covers at hcovers
    simp only [total_nil] at hcovers
    omega
  · intro e hnone
    cases e with
    | paid n payee v => exact absurd (hnone n) (by simp [executes])
    | _ => rfl

end Runs

section Reentry

/-- What the contract holds, and what it lets others take. -/
structure Purse where
  held : ℕ
  allowed : Address → ℕ

/-- A chain whose token keeps a purse, and whose burn proofs are all for the amount 5. -/
def purseEnv : Externals Purse where
  address := 9#160
  mintPlonk := fun _ _ => true
  burnPlonk := fun _ _ => false
  burnPlonkV2 := fun instances _ => decide (instances[3]? = some (Element.toBase 5#256))
  aggregatePlonk := fun _ _ => true
  keccak256 := fun _ => 0#256
  recover := fun _ _ _ _ => .ok 1#160
  domainSeparator := 0#256
  hasCode := fun _ _ => true
  isBlacklisted := fun _ _ => false
  transfer := fun c toAddr x =>
    if x.toNat ≤ c.held then
      .ok { c with held := c.held - (if toAddr = 9#160 then 0 else x.toNat) }
    else .error []
  transferFrom := fun c sender _ x =>
    if sender = 9#160 then
      if x.toNat ≤ c.allowed sender then
        .ok { c with allowed := Function.update c.allowed sender (c.allowed sender - x.toNat) }
      else .error []
    else .ok { c with held := c.held + x.toNat }
  approve := fun c spender x => .ok { c with allowed := Function.update c.allowed spender x.toNat }
  receiveWithAuthorization := fun c _ _ x _ _ _ _ _ _ => .ok { c with held := c.held + x.toNat }

/-- A spender takes what it is allowed to. -/
def takeAllowance (spender : Address) (c : Purse) : Purse :=
  let x := min c.held (c.allowed spender)
  { held := c.held - x
    allowed := Function.update c.allowed spender (c.allowed spender - x) }

def emptyPurse : Purse := ⟨0, fun _ => 0⟩

/-- A block that rolls up the hash 50 with the value 5. -/
def burnBlock : BlockArgs where
  aggrProof := []
  aggrInstances := Vector.replicate 12 0#256
  oldRoot := 0#256
  newRoot := 0#256
  utxoHashes := #v[0#256, 50#256, 5#256, 0#256, 0#256, 0#256, 0#256, 0#256, 0#256, 0#256, 0#256,
    0#256, 0#256, 0#256, 0#256, 0#256, 0#256, 0#256]
  otherHashFromBlockHash := 0#256
  height := 1#256
  signatures := [⟨0#256, 0#256, 0#256⟩]

/-- The router takes its allowance; called with data, it has the block verified first time. -/
def takingRouters : RouterCalls Purse := fun args s =>
  .call 3#160 (.world (takeAllowance 3#160)) fun _ =>
    if args.2.1 = [] ∨ s.rolledUpLeafs 50#256 = true then .stop true
    else .call 3#160 (.verifyBlock2 burnBlock) fun _ => .stop true

def purseStart : Rollup Purse := initialState emptyPurse 7#160 2#160 [1#160] 0#256

/-- The router 3 is set up, 5 are minted, and a burn of 5 to the router is substituted. -/
def substitutedBurn (routerCalldata : Bytes) : List (Address × Call Purse) :=
  [(7#160, .addRouter 3#160), (7#160, .addProver 3#160),
    (1#160, .request (.mint [] 100#256 5#256 0#256)),
    (1#160, .request (.burnToRouter 1#256 0#256 [] 50#256 5#256 0#256 0#256 3#160
      routerCalldata 4#160)),
    (8#160, .request (.substituteBurn 50#256 5#256))]

def purseLedger : Ledger purseEnv where
  balance := Purse.held
  allowance := Purse.allowed
  transfer := by
    intro c toAddr x c' h
    simp only [purseEnv] at h ⊢
    split at h
    · cases h
      refine ⟨?_, rfl⟩
      change c.held - (if toAddr = 9#160 then 0 else x.toNat) +
        (if toAddr = 9#160 then 0 else x.toNat) = c.held
      split <;> omega
    · cases h
  approve := by
    intro c spender x c' h
    simp only [purseEnv, Except.ok.injEq] at h
    subst h
    exact ⟨rfl, rfl⟩
  transferFrom := by
    intro c sender x c' hne h
    have hsender : sender ≠ 9#160 := hne
    simp only [purseEnv, if_neg hsender, Except.ok.injEq] at h
    subst h
    exact ⟨rfl, rfl⟩
  transferFrom_self := by
    intro c x c' h
    simp only [purseEnv, if_true] at h
    split at h
    · cases h
      exact ⟨rfl, by assumption, rfl⟩
    · cases h
  receiveWithAuthorization := by
    intro c payer x validAfter validBefore nonce v r s c' h
    simp only [purseEnv, Except.ok.injEq] at h
    subst h
    exact ⟨rfl, rfl⟩

theorem purse_amount (n v : Element) (h : BurnVerified purseEnv n v) : v = 5#256 := by
  rcases h with ⟨proof, toAddr, source, sig, -, hproof⟩ | ⟨proof, kind, toAddr, source, sig,
    hwords, hproof⟩
  · cases hproof
  · have hvalue : Element.toBase v = Element.toBase 5#256 := by
      simpa [purseEnv] using hproof
    have hv : v.toNat < modulus := hwords v (by simp)
    have hfive : (5#256 : Element).toNat < modulus := by norm_num [modulus]
    exact Element.toBase_inj v 5#256 hv hfive hvalue

theorem purse_binds : BindsAmount purseEnv := by
  intro n v w hv hw
  rw [purse_amount n v hv, purse_amount n w hw]

theorem takeAllowance_fair (spender : Address) : purseLedger.Fair (takeAllowance spender) := by
  intro c
  have hsum := sum_update_add c.allowed spender (c.allowed spender - min c.held (c.allowed spender))
  have hle : min c.held (c.allowed spender) ≤ c.held := min_le_left ..
  have hle' : min c.held (c.allowed spender) ≤ c.allowed spender := min_le_right ..
  change c.held + ∑ a, Function.update c.allowed spender
      (c.allowed spender - min c.held (c.allowed spender)) a ≤
    c.held - min c.held (c.allowed spender) + ∑ a, c.allowed a
  omega

theorem takingRouters_fair (args : Address × Bytes × Element) (s : Rollup Purse) :
    (takingRouters args s).Within (FairCall purseLedger.Fair) := by
  unfold takingRouters
  refine .call _ _ _ ?_ fun _ => ?_
  · rintro effect ⟨rfl⟩
    exact takeAllowance_fair 3#160
  · split
    · exact .stop true
    · exact .call _ _ _ (by rintro effect ⟨⟩) fun _ => .stop true

theorem substitutedBurn_fair (routerCalldata : Bytes) (tx : Address × Call Purse)
    (htx : tx ∈ substitutedBurn routerCalldata ++ [(2#160, .verifyBlock2 burnBlock)]) :
    FairCall purseLedger.Fair tx.1 tx.2 := by
  intro effect heffect
  simp only [substitutedBurn, List.cons_append, List.nil_append, List.mem_cons,
    List.not_mem_nil, or_false] at htx
  rcases htx with rfl | rfl | rfl | rfl | rfl | rfl <;> cases heffect

theorem emptyPurse_allowed : purseLedger.allowed emptyPurse = 0 := Finset.sum_const_zero

private theorem orderly_log :
    (runLogged purseEnv takingRouters 2 (purseStart, [])
      (substitutedBurn [] ++ [(2#160, .verifyBlock2 burnBlock)])).2 =
    [.minted 100#256 5#256, .registered 50#256 5#256, .advanced 50#256 8#160 5#256,
      .paid 50#256 3#160 5#256, .substituted 50#256 8#160 5#256, .rolledUp 50#256 5#256,
      .paid 50#256 8#160 5#256] := by
  decide +kernel

private theorem reentrant_log :
    (runLogged purseEnv takingRouters 2 (purseStart, []) (substitutedBurn [1])).2 =
    [.minted 100#256 5#256, .registered 50#256 5#256, .advanced 50#256 8#160 5#256,
      .rolledUp 50#256 5#256, .paid 50#256 3#160 5#256, .paid 50#256 3#160 5#256,
      .substituted 50#256 8#160 5#256] := by
  decide +kernel

private theorem orderly_regular (n : Element) :
    Regular n (runLogged purseEnv takingRouters 2 (purseStart, [])
      (substitutedBurn [] ++ [(2#160, .verifyBlock2 burnBlock)])).2 := by
  rw [orderly_log]
  refine ⟨⟨?_, ?_⟩, by simp, ?_⟩
  · by_cases hn : 50#256 = n <;> simp [rollsUp, hn]
  · intro before v after hlog sender a hmem
    have hsplit : before = [.minted 100#256 5#256, .registered 50#256 5#256,
        .advanced 50#256 8#160 5#256, .paid 50#256 3#160 5#256,
        .substituted 50#256 8#160 5#256] ∧ n = 50#256 := by
      rcases before with _ | ⟨e₁, _ | ⟨e₂, _ | ⟨e₃, _ | ⟨e₄, _ | ⟨e₅, _ | ⟨e₆, _ | ⟨e₇, rest⟩⟩⟩⟩⟩⟩⟩ <;>
        simp at hlog
      obtain ⟨rfl, rfl, rfl, rfl, rfl, ⟨rfl, rfl⟩, rfl⟩ := hlog
      exact ⟨rfl, rfl⟩
    rw [hsplit.1, hsplit.2]
    exact ⟨8#160, 5#256, by simp⟩
  · intro before payee a after hlog
    have hmem : Entry.refused n payee a ∈ before ++ .refused n payee a :: after := by simp
    rw [← hlog] at hmem
    simp at hmem

/-- A burn that is substituted and then rolled up. -/
theorem payouts_safe_substituted :
    let txs := substitutedBurn []
    let block : List (Address × Call Purse) := [(2#160, .verifyBlock2 burnBlock)]
    let p := runLogged purseEnv takingRouters 2 (purseStart, []) txs
    let p' := runLogged purseEnv takingRouters 2 (purseStart, []) (txs ++ block)
    p'.1 = runNestedCalls purseEnv takingRouters 2 purseStart (txs ++ block) ∧
      (∀ n, PaidSafely n p'.2) ∧ Keeps p p' ∧ Solvent purseLedger p' :=
  payouts_safe purseEnv purseLedger takingRouters 2 purse_binds takingRouters_fair emptyPurse
    7#160 2#160 [1#160] 0#256 emptyPurse_allowed (substitutedBurn [])
    [(2#160, .verifyBlock2 burnBlock)] (substitutedBurn_fair []) orderly_regular

/-- A router that has its burn rolled up while a substitute pays for it is paid twice, and
the substitute never: no hash is rolled up twice here. -/
theorem not_payouts_safe_reentrant :
    let txs := substitutedBurn [1]
    let p := runLogged purseEnv takingRouters 2 (purseStart, []) txs
    BindsAmount purseEnv ∧
      (∀ args s, (takingRouters args s).Within (FairCall purseLedger.Fair)) ∧
      (∀ tx ∈ txs, FairCall purseLedger.Fair tx.1 tx.2) ∧ purseLedger.allowed emptyPurse = 0 ∧
      p.1 = runNestedCalls purseEnv takingRouters 2 purseStart txs ∧
      (∀ n, p.2.countP (rollsUp n) ≤ 1) ∧
      executed 50#256 p.2 = [.advanced 50#256 8#160 5#256, .rolledUp 50#256 5#256,
        .paid 50#256 3#160 5#256, .paid 50#256 3#160 5#256, .substituted 50#256 8#160 5#256] ∧
      ¬PaidSafely 50#256 p.2 := by
  refine ⟨purse_binds, takingRouters_fair, ?_, emptyPurse_allowed, ?_, ?_, ?_, ?_⟩
  · intro tx htx
    exact substitutedBurn_fair [1] tx (List.mem_append_left _ htx)
  · exact runLogged_state purseEnv takingRouters 2 purseStart [] _
  · intro n
    rw [reentrant_log]
    by_cases hn : 50#256 = n <;> simp [rollsUp, hn]
  · rw [reentrant_log]
    decide
  · rw [reentrant_log]
    intro hsafe
    have htwice := hsafe.beneficiary
      [.minted 100#256 5#256, .registered 50#256 5#256, .advanced 50#256 8#160 5#256,
        .rolledUp 50#256 5#256, .paid 50#256 3#160 5#256, .paid 50#256 3#160 5#256]
      [.substituted 50#256 8#160 5#256] rfl (by simp)
    revert htwice
    decide

end Reentry
end PayyRollup.PayoutSafety
