import PayyRollup.PaymentEffects

/-!
The life of a burn. A hash is registered, and then either rolled up, or substituted and
rolled up; the log of what was executed for it is one of a few short lists, and the storage
of the contract knows which. While its own payment is under way, and once it is rolled up,
nothing a router calls can touch it. Both hold as long as the hash is rolled up at most
once, and not while its substitution is under way.
-/
namespace PayyRollup.BurnLife

open ScalarField VerifierContracts Transactions RollupState RollupCalls RollupEffects
  CallBacks PaymentLog PaymentEffects

/-- The entry is about the execution of the hash. -/
def executes (n : Element) : Entry → Bool
  | .minted _ _ => false
  | .registered _ _ => false
  | .advanced m _ _ => decide (m = n)
  | .paid m _ _ => decide (m = n)
  | .refused m _ _ => decide (m = n)
  | .substituted m _ _ => decide (m = n)
  | .rolledUp m _ => decide (m = n)

def executed (n : Element) (log : List Entry) : List Entry := log.filter (executes n)

def rollsUp (n : Element) : Entry → Bool
  | .rolledUp m _ => decide (m = n)
  | _ => false

/-- The hash is rolled up at most once, and not between its advance and the end of its
substitution. -/
structure Proper (n : Element) (log : List Entry) : Prop where
  once : log.countP (rollsUp n) ≤ 1
  undisturbed : ∀ before v after, log = before ++ .rolledUp n v :: after →
    ∀ sender a, .advanced n sender a ∈ before → ∃ sender' a', .substituted n sender' a' ∈ before

section Logs

variable (n : Element) (log more : List Entry)

@[simp] theorem executed_append : executed n (log ++ more) = executed n log ++ executed n more :=
  List.filter_append ..

theorem mem_executed (e : Entry) : e ∈ executed n log ↔ e ∈ log ∧ executes n e = true :=
  List.mem_filter

theorem executed_other (e : Entry) (h : executes n e = false) : executed n [e] = [] := by
  simp [executed, h]

theorem executed_self (e : Entry) (h : executes n e = true) : executed n [e] = [e] := by
  simp [executed, h]

variable {n log more}

theorem Proper.of_append (h : Proper n (log ++ more)) : Proper n log := by
  refine ⟨?_, ?_⟩
  · have hcount := h.once
    rw [List.countP_append] at hcount
    omega
  · intro before v after hlog
    have hlonger : log ++ more = before ++ .rolledUp n v :: (after ++ more) := by
      rw [hlog, List.append_assoc, List.cons_append]
    exact h.undisturbed before v (after ++ more) hlonger

theorem Proper.of_prefix {log' : List Entry} (h : Proper n log') (hle : log <+: log') :
    Proper n log := by
  obtain ⟨more, rfl⟩ := hle
  exact h.of_append

/-- A hash is not rolled up again. -/
theorem Proper.not_again {v w : Element} (h : Proper n (log ++ [.rolledUp n w])) :
    .rolledUp n v ∉ executed n log := by
  intro hmem
  have hpos : 0 < log.countP (rollsUp n) :=
    List.countP_pos_iff.mpr ⟨_, ((mem_executed n log _).mp hmem).1, by simp [rollsUp]⟩
  have hcount := h.once
  rw [List.countP_append] at hcount
  have hone : [Entry.rolledUp n w].countP (rollsUp n) = 1 := by simp [rollsUp]
  omega

/-- A hash is not rolled up while its substitution is under way. -/
theorem Proper.not_underWay {w : Element} (h : Proper n (log ++ [.rolledUp n w]))
    (sender : Address) (a : Element) : executed n log ≠ [.advanced n sender a] := by
  intro hunderWay
  have hadvanced : .advanced n sender a ∈ log := by
    have hmem : Entry.advanced n sender a ∈ executed n log := by
      rw [hunderWay]
      exact List.mem_singleton_self _
    exact ((mem_executed n log _).mp hmem).1
  obtain ⟨sender', a', hmem⟩ := h.undisturbed log w [] rfl sender a hadvanced
  have hexecuted := (mem_executed n log _).mpr ⟨hmem, by simp [executes]⟩
  rw [hunderWay] at hexecuted
  cases List.mem_singleton.mp hexecuted

end Logs

/-- How far the burn of a hash is, by what was executed for it. -/
inductive Stage {τ : Type} (n a : Element) (s : Rollup τ) : List Entry → Prop
  | idle : s.substitutedBurns n = false → Stage n a s []
  | substituting (sender : Address) : s.substitutedBurns n = true → s.burnsKind n = 1#256 →
      Stage n a s [.advanced n sender a]
  | substituted (sender payee : Address) : s.substitutedBurns n = true →
      (a ≠ 0#256 → s.burnsKind n = 0#256 ∧ s.burns n = ⟨sender, a⟩) →
      Stage n a s [.advanced n sender a, .paid n payee a, .substituted n sender a]
  | rolledUp (payment : List Entry) : s.rolledUpLeafs n = true → s.hasBurn n = true →
      (payment = [] ∨ ∃ payee, payment = [.paid n payee a] ∨ payment = [.refused n payee a]) →
      Stage n a s (.rolledUp n a :: payment)
  | repaid (sender payee : Address) (payment : Entry) : s.rolledUpLeafs n = true →
      s.hasBurn n = true → (payment = .paid n sender a ∨ payment = .refused n sender a) →
      Stage n a s [.advanced n sender a, .paid n payee a, .substituted n sender a,
        .rolledUp n a, payment]

variable {τ : Type}

/-- The storage at a hash with its amount, and the log of the hash. -/
structure Life (a n : Element) (p : Logged τ) : Prop where
  recorded : (p.1.burnsKind n = 0#256 ∧ ((p.1.burns n).amount = 0#256 ∨
    (p.1.burns n).amount = a)) ∨ (p.1.burnsKind n = 1#256 ∧ (p.1.burnsToRouter n).amount = a)
  registered : p.1.hasBurn n = true → .registered n a ∈ p.2
  bound : ∀ v, .registered n v ∈ p.2 → v = a
  stage : Stage n a p.1 (executed n p.2)

/-- The burn is being paid for a substitute, or rolled up. -/
def Locked (n : Element) (p : Logged τ) : Prop :=
  (∃ sender a, executed n p.2 = [.advanced n sender a]) ∨ ∃ v, .rolledUp n v ∈ executed n p.2

/-- The storage at the hash, with what it has executed. -/
structure Same (n : Element) (p p' : Logged τ) : Prop where
  kind : p'.1.burnsKind n = p.1.burnsKind n
  burn : p'.1.burns n = p.1.burns n
  router : p'.1.burnsToRouter n = p.1.burnsToRouter n
  substituted : p'.1.substitutedBurns n = p.1.substitutedBurns n
  executed : executed n p'.2 = executed n p.2

/-- What happens to a hash whose amount is `a`. -/
structure LivesAt (a n : Element) (p p' : Logged τ) : Prop where
  grows : p.2 <+: p'.2
  rolledUp : p.1.rolledUpLeafs n = true → p'.1.rolledUpLeafs n = true
  lives : Proper n p'.2 → Life a n p → Life a n p'
  locked : Proper n p'.2 → Life a n p → Locked n p → Same n p p'

section Frames

variable {a n : Element} {p p' p'' : Logged τ}

theorem hasBurn_iff (s : Rollup τ) (n : Element) :
    s.hasBurn n = true ↔ s.burnsKind n ≠ 0#256 ∨ (s.burns n).amount ≠ 0#256 := by
  unfold Rollup.hasBurn
  by_cases h : s.burnsKind n = 0#256 <;> simp [h]

theorem Same.hasBurn (h : Same n p p') : p'.1.hasBurn n = p.1.hasBurn n := by
  unfold Rollup.hasBurn
  rw [h.kind, h.burn]

theorem Same.trans (h : Same n p p') (h' : Same n p' p'') : Same n p p'' :=
  ⟨h'.kind.trans h.kind, h'.burn.trans h.burn, h'.router.trans h.router,
    h'.substituted.trans h.substituted, h'.executed.trans h.executed⟩

theorem Same.locked (h : Same n p p') (hlocked : Locked n p) : Locked n p' := by
  unfold Locked
  rw [h.executed]
  exact hlocked

theorem Life.hasBurn_of_locked (h : Life a n p) (hlocked : Locked n p) :
    p.1.hasBurn n = true := by
  have hstage := h.stage
  unfold Locked at hlocked
  generalize executed n p.2 = log at hstage hlocked
  cases hstage with
  | idle _ => simp at hlocked
  | substituting sender hsub hkind =>
    rw [hasBurn_iff, hkind]
    exact Or.inl (by decide)
  | substituted sender payee hsub hrecord => simp at hlocked
  | rolledUp payment hrolled hburn hpayment => exact hburn
  | repaid sender payee payment hrolled hburn hpayment => exact hburn

/-- The stage reads the storage at the hash only. -/
theorem Stage.frame {log : List Entry} (h : Stage n a p.1 log) (hsame : Same n p p')
    (hrolled : p.1.rolledUpLeafs n = true → p'.1.rolledUpLeafs n = true) :
    Stage n a p'.1 log := by
  cases h with
  | idle hsub => exact Stage.idle (hsame.substituted.trans hsub)
  | substituting sender hsub hkind =>
    exact Stage.substituting sender (hsame.substituted.trans hsub) (hsame.kind.trans hkind)
  | substituted sender payee hsub hrecord =>
    refine Stage.substituted sender payee (hsame.substituted.trans hsub) ?_
    rw [hsame.kind, hsame.burn]
    exact hrecord
  | rolledUp payment hleaf hburn hpayment =>
    exact Stage.rolledUp payment (hrolled hleaf) (hsame.hasBurn.trans hburn) hpayment
  | repaid sender payee payment hleaf hburn hpayment =>
    exact Stage.repaid sender payee payment (hrolled hleaf) (hsame.hasBurn.trans hburn) hpayment

theorem Life.frame (h : Life a n p) (hsame : Same n p p') (hgrows : p.2 <+: p'.2)
    (hrolled : p.1.rolledUpLeafs n = true → p'.1.rolledUpLeafs n = true)
    (hbound : ∀ v, .registered n v ∈ p'.2 → v = a) : Life a n p' := by
  refine ⟨?_, ?_, hbound, ?_⟩
  · rw [hsame.kind, hsame.burn, hsame.router]
    exact h.recorded
  · intro hburn
    rw [hsame.hasBurn] at hburn
    exact hgrows.subset (h.registered hburn)
  · rw [hsame.executed]
    exact h.stage.frame hsame hrolled

theorem LivesAt.refl (p : Logged τ) : LivesAt a n p p :=
  ⟨List.prefix_rfl, id, fun _ h => h, fun _ _ _ => ⟨rfl, rfl, rfl, rfl, rfl⟩⟩

theorem LivesAt.trans (h : LivesAt a n p p') (h' : LivesAt a n p' p'') : LivesAt a n p p'' := by
  refine ⟨h.grows.trans h'.grows, h'.rolledUp ∘ h.rolledUp, ?_, ?_⟩
  · intro hproper hlife
    exact h'.lives hproper (h.lives (hproper.of_prefix h'.grows) hlife)
  · intro hproper hlife hlocked
    have hproper' := hproper.of_prefix h'.grows
    have hsame := h.locked hproper' hlife hlocked
    exact hsame.trans (h'.locked hproper (h.lives hproper' hlife) (hsame.locked hlocked))

/-- A step that neither touches nor executes the hash. -/
theorem LivesAt.of_same (hsame : Same n p p') (hgrows : p.2 <+: p'.2)
    (hrolled : p.1.rolledUpLeafs n = true → p'.1.rolledUpLeafs n = true)
    (hregistered : ∀ v, .registered n v ∈ p'.2 → .registered n v ∈ p.2) : LivesAt a n p p' :=
  ⟨hgrows, hrolled, fun _ h => h.frame hsame hgrows hrolled fun v hv => h.bound v (hregistered v hv),
    fun _ _ _ => hsame⟩

end Frames

section Payments

variable {env : Externals τ} {router : Address × Bytes × Element → LoggedM τ Bool}
  {a n m v : Element} {p p' : Logged τ}

/-- A step that only changes the chain, and notes entries about other hashes. -/
theorem LivesAt.of_chain (chain : τ) (entries : List Entry) (hentries : executed n entries = [])
    (hregistered : ∀ w, .registered n w ∉ entries) :
    LivesAt a n p ({ p.1 with chain }, p.2 ++ entries) := by
  refine LivesAt.of_same ⟨rfl, rfl, rfl, rfl, ?_⟩ (List.prefix_append ..) id ?_
  · rw [executed_append, hentries, List.append_nil]
  · intro w hw
    exact (List.mem_append.mp hw).resolve_right (hregistered w)

/-- Executing a burn is nothing to the other hashes. -/
theorem pays_other (hrouter : ∀ args s s', Commits (router args) s true s' → LivesAt a m s s')
    {result : Bool × Bool} (h : Pays env router n v p result p') (hne : n ≠ m) :
    LivesAt a m p p' := by
  have hpaid : ∀ payee, executed m [.paid n payee v] = [] :=
    fun payee => executed_other m _ (decide_eq_false hne)
  have hrefused : ∀ payee, executed m [.refused n payee v] = [] :=
    fun payee => executed_other m _ (decide_eq_false hne)
  cases h with
  | missing _ _ => exact LivesAt.refl p
  | transferred chain _ _ _ _ => exact LivesAt.of_chain chain _ (hpaid _) (by simp)
  | refused _ _ _ => exact LivesAt.of_chain p.1.chain _ (hrefused _) (by simp)
  | routed chain chain' t _ _ _ hcalled _ =>
    have hstart : LivesAt a m p ({ p.1 with chain }, p.2) := by
      have h := LivesAt.of_chain (a := a) (n := m) (p := p) chain [] rfl (by simp)
      rwa [List.append_nil] at h
    exact (hstart.trans (hrouter _ _ _ hcalled)).trans
      (LivesAt.of_chain chain' _ (hpaid _) (by simp))
  | returned _ _ chain _ _ _ _ _ => exact LivesAt.of_chain chain _ (hpaid _) (by simp)
  | withheld _ chain _ _ _ _ =>
    have h := LivesAt.of_chain (a := a) (n := m) (p := p) chain [] rfl (by simp)
    rwa [List.append_nil] at h
  | unknown _ _ => exact LivesAt.refl p

/-- The log and the marks of roll-ups only grow while a burn is executed. -/
theorem pays_grows (hrouter : ∀ args s s', Commits (router args) s true s' → LivesAt a n s s')
    {result : Bool × Bool} (h : Pays env router n v p result p') :
    p.2 <+: p'.2 ∧ (p.1.rolledUpLeafs n = true → p'.1.rolledUpLeafs n = true) := by
  cases h with
  | missing _ _ => exact ⟨List.prefix_rfl, id⟩
  | transferred chain _ _ _ _ => exact ⟨List.prefix_append .., id⟩
  | refused _ _ _ => exact ⟨List.prefix_append .., id⟩
  | routed chain chain' t _ _ _ hcalled _ =>
    have hstep := hrouter _ _ _ hcalled
    exact ⟨hstep.grows.trans (List.prefix_append ..), hstep.rolledUp⟩
  | returned _ _ chain _ _ _ _ _ => exact ⟨List.prefix_append .., id⟩
  | withheld _ chain _ _ _ _ => exact ⟨List.prefix_rfl, id⟩
  | unknown _ _ => exact ⟨List.prefix_rfl, id⟩

/-- What executing a burn that was found leaves of its hash. -/
structure Executes (a n : Element) (success : Bool) (p p' : Logged τ) : Prop where
  grows : p.2 <+: p'.2
  kind : p'.1.burnsKind n = p.1.burnsKind n
  burn : p'.1.burns n = p.1.burns n
  router : p'.1.burnsToRouter n = p.1.burnsToRouter n
  substituted : p'.1.substitutedBurns n = p.1.substitutedBurns n
  rolledUp : p.1.rolledUpLeafs n = true → p'.1.rolledUpLeafs n = true
  bound : ∀ w, .registered n w ∈ p'.2 → w = a
  payment : (success = true ∧ ∃ payee, executed n p'.2 = executed n p.2 ++ [.paid n payee a] ∧
      (p.1.burnsKind n = 0#256 → payee = (p.1.burns n).toAddr)) ∨
    (success = false ∧ ((executed n p'.2 = executed n p.2 ∧ p.1.burnsKind n = 1#256) ∨
      (executed n p'.2 = executed n p.2 ++ [.refused n (p.1.burns n).toAddr a] ∧
        p.1.burnsKind n = 0#256)))

/-- The hash itself: the value is the amount of the burn, and at most one payment is noted.
While the router is called the hash is locked. -/
theorem pays_self (hrouter : ∀ args s s', Commits (router args) s true s' → LivesAt a n s s')
    {success : Bool} (h : Pays env router n v p (true, success) p') (hproper : Proper n p'.2)
    (hrecorded : (p.1.burnsKind n = 0#256 ∧ ((p.1.burns n).amount = 0#256 ∨
      (p.1.burns n).amount = a)) ∨ (p.1.burnsKind n = 1#256 ∧ (p.1.burnsToRouter n).amount = a))
    (hbound : ∀ w, .registered n w ∈ p.2 → w = a)
    (hlife : p.1.burnsKind n = 1#256 → v = a → Life a n p ∧ Locked n p) :
    v = a ∧ p.1.hasBurn n = true ∧ (p.1.burnsKind n = 0#256 → a ≠ 0#256) ∧
      Executes a n success p p' := by
  have hselfPaid : ∀ payee, executed n [.paid n payee a] = [.paid n payee a] :=
    fun payee => executed_self n _ (decide_eq_true rfl)
  have hselfRefused : ∀ payee, executed n [.refused n payee a] = [.refused n payee a] :=
    fun payee => executed_self n _ (decide_eq_true rfl)
  have hzero : p.1.burnsKind n = 0#256 → (p.1.burns n).amount ≠ 0#256 →
      (p.1.burns n).amount = a := by
    intro hkind hamount
    rcases hrecorded with ⟨-, hrecord⟩ | ⟨hone, -⟩
    · exact hrecord.resolve_left hamount
    · rw [hkind] at hone
      cases hone
  have hone : p.1.burnsKind n = 1#256 → (p.1.burnsToRouter n).amount = a := by
    intro hkind
    rcases hrecorded with ⟨hzero, -⟩ | ⟨-, hrecord⟩
    · rw [hkind] at hzero
      cases hzero
    · exact hrecord
  have hnotBoth : p.1.burnsKind n = 1#256 → p.1.burnsKind n = 0#256 → False := by
    intro hkind hkind'
    rw [hkind] at hkind'
    cases hkind'
  have hregistered : ∀ entries : List Entry, (∀ w, .registered n w ∉ entries) →
      ∀ w, .registered n w ∈ p.2 ++ entries → w = a := by
    intro entries hentries w hw
    exact hbound w ((List.mem_append.mp hw).resolve_right (hentries w))
  cases h with
  | transferred chain hkind hamount hvalue htransfer =>
    have hamountEq := hzero hkind hamount
    obtain rfl : v = a := hvalue.symm.trans hamountEq
    refine ⟨rfl, (hasBurn_iff _ _).mpr (Or.inr hamount), fun _ => hamountEq ▸ hamount, ?_⟩
    refine ⟨List.prefix_append .., rfl, rfl, rfl, rfl, id, hregistered _ (by simp), Or.inl ?_⟩
    exact ⟨rfl, _, by rw [executed_append, hselfPaid], fun _ => rfl⟩
  | refused hkind hamount hvalue =>
    have hamountEq := hzero hkind hamount
    obtain rfl : v = a := hvalue.symm.trans hamountEq
    refine ⟨rfl, (hasBurn_iff _ _).mpr (Or.inr hamount), fun _ => hamountEq ▸ hamount, ?_⟩
    refine ⟨List.prefix_append .., rfl, rfl, rfl, rfl, id, hregistered _ (by simp), Or.inr ?_⟩
    exact ⟨rfl, Or.inr ⟨by rw [executed_append, hselfRefused], hkind⟩⟩
  | routed chain chain' t hkind hvalue happrove hcalled hreset =>
    obtain rfl : v = a := hvalue.symm.trans (hone hkind)
    obtain ⟨hstart, hlocked⟩ := hlife hkind rfl
    have hburn : p.1.hasBurn n = true := hstart.hasBurn_of_locked hlocked
    have hstep := hrouter _ _ _ hcalled
    have hframe : Life v n ({ p.1 with chain }, p.2) :=
      hstart.frame ⟨rfl, rfl, rfl, rfl, rfl⟩ List.prefix_rfl id hbound
    have hproper' : Proper n t.2 := hproper.of_append
    have hsame := hstep.locked hproper' hframe hlocked
    have hend := hstep.lives hproper' hframe
    refine ⟨rfl, hburn, fun hkind' => absurd hkind' (hnotBoth hkind), ?_⟩
    refine ⟨hstep.grows.trans (List.prefix_append ..), hsame.kind, hsame.burn, hsame.router,
      hsame.substituted, hstep.rolledUp, ?_, Or.inl ?_⟩
    · intro w hw
      exact hend.bound w ((List.mem_append.mp hw).resolve_right (by simp))
    · refine ⟨rfl, (p.1.burnsToRouter n).router, ?_, fun hkind' => absurd hkind' (hnotBoth hkind)⟩
      rw [executed_append, hselfPaid, hsame.executed]
  | returned chain₁ chain₂ chain₃ hkind hvalue happrove hreset htransfer =>
    obtain rfl : v = a := hvalue.symm.trans (hone hkind)
    have hburn : p.1.hasBurn n = true :=
      (hasBurn_iff _ _).mpr (Or.inl (by rw [hkind]; decide))
    refine ⟨rfl, hburn, fun hkind' => absurd hkind' (hnotBoth hkind), ?_⟩
    refine ⟨List.prefix_append .., rfl, rfl, rfl, rfl, id, hregistered _ (by simp), Or.inl ?_⟩
    exact ⟨rfl, _, by rw [executed_append, hselfPaid], fun hkind' => absurd hkind' (hnotBoth hkind)⟩
  | withheld chain₁ chain₂ hkind hvalue happrove hreset =>
    obtain rfl : v = a := hvalue.symm.trans (hone hkind)
    have hburn : p.1.hasBurn n = true :=
      (hasBurn_iff _ _).mpr (Or.inl (by rw [hkind]; decide))
    refine ⟨rfl, hburn, fun hkind' => absurd hkind' (hnotBoth hkind), ?_⟩
    exact ⟨List.prefix_rfl, rfl, rfl, rfl, rfl, id, hbound, Or.inr ⟨rfl, Or.inl ⟨rfl, hkind⟩⟩⟩
  | unknown hkind hkind' =>
    rcases hrecorded with ⟨hzeroKind, -⟩ | ⟨honeKind, -⟩
    · exact absurd hzeroKind hkind
    · exact absurd honeKind hkind'

end Payments

section Steps

variable {env : Externals τ} (amountOf : Element → Element) {p p' : Logged τ}

/-- Every hash lives on with its amount. -/
def Lives (p p' : Logged τ) : Prop := ∀ n, LivesAt (amountOf n) n p p'

instance : IsPreorder (Logged τ) (Lives amountOf) where
  refl p _ := LivesAt.refl p
  trans _ _ _ h h' n := (h n).trans (h' n)

/-- A hash without a burn is registered: it was idle, or its burn of nothing is substituted. -/
theorem registered_life {a n : Element} {s' : Rollup τ} (hlife : Life a n p)
    (hkind : p.1.burnsKind n = 0#256) (hamount : (p.1.burns n).amount = 0#256)
    (hrecord : (s'.burnsKind n = 0#256 ∧ (s'.burns n).amount = a) ∨
      (s'.burnsKind n = 1#256 ∧ (s'.burnsToRouter n).amount = a))
    (hsubstituted : s'.substitutedBurns n = p.1.substitutedBurns n) :
    Life a n (s', p.2 ++ [.registered n a]) ∧ ¬Locked n p := by
  have hfree : p.1.hasBurn n ≠ true := by
    rw [Ne, hasBurn_iff]
    rintro (h | h)
    · exact h hkind
    · exact h hamount
  refine ⟨⟨?_, ?_, ?_, ?_⟩, fun hlocked => hfree (hlife.hasBurn_of_locked hlocked)⟩
  · exact hrecord.imp_left fun h => ⟨h.1, Or.inr h.2⟩
  · intro _
    exact List.mem_append_right _ (List.mem_singleton_self _)
  · intro v hv
    rcases List.mem_append.mp hv with hv | hv
    · exact hlife.bound v hv
    · cases List.mem_singleton.mp hv
      rfl
  · have hstage := hlife.stage
    rw [executed_append, executed_other n (.registered n a) rfl, List.append_nil]
    generalize executed n p.2 = log at hstage ⊢
    cases hstage with
    | idle hsub => exact Stage.idle (hsubstituted.trans hsub)
    | substituting sender hsub hone =>
      rw [hkind] at hone
      cases hone
    | substituted sender payee hsub hsettled =>
      refine Stage.substituted sender payee (hsubstituted.trans hsub) fun ha => absurd ?_ ha
      have hburn := (hsettled ha).2
      rw [hburn] at hamount
      exact hamount
    | rolledUp payment hleaf hburn hpayment => exact absurd hburn hfree
    | repaid sender payee payment hleaf hburn hpayment => exact absurd hburn hfree

/-- A registration that writes only at its hash. -/
theorem registered_lives (n : Element) (s' : Rollup τ) (hkind : p.1.burnsKind n = 0#256)
    (hamount : (p.1.burns n).amount = 0#256)
    (hrecord : (s'.burnsKind n = 0#256 ∧ (s'.burns n).amount = amountOf n) ∨
      (s'.burnsKind n = 1#256 ∧ (s'.burnsToRouter n).amount = amountOf n))
    (hsubstituted : s'.substitutedBurns = p.1.substitutedBurns)
    (hrolledUp : s'.rolledUpLeafs = p.1.rolledUpLeafs)
    (hother : ∀ m ≠ n, s'.burnsKind m = p.1.burnsKind m ∧ s'.burns m = p.1.burns m ∧
      s'.burnsToRouter m = p.1.burnsToRouter m) :
    Lives amountOf p (s', p.2 ++ [.registered n (amountOf n)]) := by
  intro m
  have hleaf : p.1.rolledUpLeafs m = true → s'.rolledUpLeafs m = true := by
    rw [hrolledUp]
    exact id
  by_cases hne : m = n
  · subst hne
    have hboth := fun hlife : Life (amountOf m) m p =>
      registered_life hlife hkind hamount hrecord (congrFun hsubstituted m)
    exact ⟨List.prefix_append .., hleaf, fun _ hlife => (hboth hlife).1,
      fun _ hlife hlocked => absurd hlocked (hboth hlife).2⟩
  · obtain ⟨hkind', hburn', hrouter'⟩ := hother m hne
    refine LivesAt.of_same ⟨hkind', hburn', hrouter', congrFun hsubstituted m, ?_⟩
      (List.prefix_append ..) hleaf ?_
    · rw [executed_append, executed_other m _ rfl, List.append_nil]
    · intro w hw
      rcases List.mem_append.mp hw with hw | hw
      · exact hw
      · cases List.mem_singleton.mp hw
        exact absurd rfl hne

theorem registration_lives (hbinds : ∀ n v, BurnVerified env n v → v = amountOf n)
    (h : Registration env p p') : Lives amountOf p p' := by
  cases h with
  | mint chain commitment v hfree hdeposit =>
    intro m
    refine LivesAt.of_same ⟨rfl, rfl, rfl, rfl, ?_⟩ (List.prefix_append ..) id (by simp)
    rw [executed_append, executed_other m _ rfl, List.append_nil]
  | toAddress n v toAddr hkind hamount hverified =>
    obtain rfl := hbinds n v hverified
    refine registered_lives amountOf n _ hkind hamount (Or.inl ⟨?_, ?_⟩) rfl rfl ?_
    · exact Function.update_self ..
    · change (Function.update p.1.burns n _ n).amount = _
      rw [Function.update_self]
    · intro m hne
      exact ⟨Function.update_of_ne hne .., Function.update_of_ne hne .., rfl⟩
  | toRouter n v address routerCalldata returnAddress hkind hamount hverified =>
    obtain rfl := hbinds n v hverified
    refine registered_lives amountOf n _ hkind hamount (Or.inr ⟨?_, ?_⟩) rfl rfl ?_
    · exact Function.update_self ..
    · change (Function.update p.1.burnsToRouter n _ n).amount = _
      rw [Function.update_self]
    · intro m hne
      exact ⟨Function.update_of_ne hne .., rfl, Function.update_of_ne hne ..⟩

variable {router : Address × Bytes × Element → LoggedM τ Bool}

/-- The hash of a substitution was idle. -/
theorem substitution_idle {a n : Element} {sender : Address} {v : Element}
    (h : Substitution env router sender n v p p') (hlife : Life a n p) :
    executed n p.2 = [] := by
  have hstage := hlife.stage
  have hfresh := h.fresh
  have hpending := h.pending
  generalize executed n p.2 = log at hstage ⊢
  cases hstage with
  | idle _ => rfl
  | substituting sender' hsub _ =>
    rw [hfresh] at hsub
    cases hsub
  | substituted sender' payee hsub _ =>
    rw [hfresh] at hsub
    cases hsub
  | rolledUp payment hleaf _ _ =>
    rw [hpending] at hleaf
    cases hleaf
  | repaid sender' payee payment hleaf _ _ =>
    rw [hpending] at hleaf
    cases hleaf

/-- The hash of a substitution: its burn is paid and becomes one to the sender. -/
theorem substitution_self {n : Element} {sender : Address} {v : Element}
    (hrouter : ∀ args s s', Commits (router args) s true s' → LivesAt (amountOf n) n s s')
    (h : Substitution env router sender n v p p') : LivesAt (amountOf n) n p p' := by
  obtain ⟨chain, t, hadvance, hpays, hp'⟩ := h.executed
  obtain ⟨hgrows, hleaf⟩ := pays_grows hrouter hpays
  have hlog : p.2 <+: p'.2 := by
    rw [hp']
    exact ((List.prefix_append ..).trans hgrows).trans (List.prefix_append ..)
  refine ⟨hlog, ?_, ?_, ?_⟩
  · intro hrolled
    rw [hp']
    exact hleaf hrolled
  · intro hproper hlife
    have hidle := substitution_idle h hlife
    rw [hp'] at hproper ⊢
    have hbound : ∀ w, .registered n w ∈ p.2 ++ [.advanced n sender v] → w = amountOf n := by
      intro w hw
      exact hlife.bound w ((List.mem_append.mp hw).resolve_right (by simp))
    have hadvanced : executed n (p.2 ++ [.advanced n sender v]) = [.advanced n sender v] := by
      rw [executed_append, hidle]
      simp [executed, executes]
    have hstart : p.1.burnsKind n = 1#256 → v = amountOf n →
        Life (amountOf n) n ({ p.1 with
          chain
          substitutedBurns := Function.update p.1.substitutedBurns n true },
          p.2 ++ [.advanced n sender v]) := by
      intro hkind hv
      refine ⟨hlife.recorded, ?_, hbound, ?_⟩
      · intro hburn
        exact List.mem_append_left _ (hlife.registered hburn)
      · rw [hadvanced, hv]
        exact Stage.substituting sender (Function.update_self ..) hkind
    obtain ⟨hv, hburn, -, hexecutes⟩ := pays_self hrouter hpays hproper.of_append
      hlife.recorded hbound fun hkind hv => ⟨hstart hkind hv, Or.inl ⟨sender, v, hadvanced⟩⟩
    obtain ⟨-, payee, hpaid, -⟩ | ⟨hfailed, -⟩ := hexecutes.payment
    · refine ⟨Or.inl ⟨Function.update_self .., Or.inr ?_⟩, ?_, ?_, ?_⟩
      · change (Function.update t.1.burns n _ n).amount = _
        rw [Function.update_self]
        exact hv
      · intro _
        have hregistered : .registered n (amountOf n) ∈ p.2 := hlife.registered hburn
        exact List.mem_append_left _ (hgrows.subset (List.mem_append_left _ hregistered))
      · intro w hw
        exact hexecutes.bound w ((List.mem_append.mp hw).resolve_right (by simp))
      · have hnoted : executed n [.substituted n sender v] = [.substituted n sender v] :=
          executed_self n _ (decide_eq_true rfl)
        rw [executed_append, hpaid, hadvanced, hnoted, hv]
        refine Stage.substituted sender payee ?_ fun _ => ⟨Function.update_self .., ?_⟩
        · exact hexecutes.substituted.trans (Function.update_self ..)
        · exact Function.update_self ..
    · cases hfailed
  · intro hproper hlife hlocked
    have hidle := substitution_idle h hlife
    unfold Locked at hlocked
    rw [hidle] at hlocked
    simp at hlocked

/-- The other hashes of a substitution. -/
theorem substitution_other {a n m : Element} {sender : Address} {v : Element}
    (hrouter : ∀ args s s', Commits (router args) s true s' → LivesAt a m s s')
    (h : Substitution env router sender n v p p') (hne : n ≠ m) : LivesAt a m p p' := by
  obtain ⟨chain, t, hadvance, hpays, rfl⟩ := h.executed
  have hstart : LivesAt a m p ({ p.1 with
      chain
      substitutedBurns := Function.update p.1.substitutedBurns n true },
      p.2 ++ [.advanced n sender v]) := by
    refine LivesAt.of_same ⟨rfl, rfl, rfl, ?_, ?_⟩ (List.prefix_append ..) id (by simp)
    · exact Function.update_of_ne (Ne.symm hne) ..
    · rw [executed_append]
      simp [executed, executes, hne]
  refine (hstart.trans (pays_other hrouter hpays hne)).trans ?_
  refine LivesAt.of_same ⟨?_, ?_, rfl, rfl, ?_⟩ (List.prefix_append ..) id (by simp)
  · exact Function.update_of_ne (Ne.symm hne) ..
  · exact Function.update_of_ne (Ne.symm hne) ..
  · rw [executed_append]
    simp [executed, executes, hne]

/-- A router burn that starts to be rolled up. -/
theorem rolling_life {a n v : Element} (hv : v ≠ 0#256) (hlife : Life a n p)
    (hproper : Proper n (p.2 ++ [.rolledUp n v])) (hkind : p.1.burnsKind n = 1#256)
    (hvalue : v = a) :
    Life a n ({ p.1 with rolledUpLeafs := Function.update p.1.rolledUpLeafs n true },
      p.2 ++ [.rolledUp n v]) ∧
    Locked n ({ p.1 with rolledUpLeafs := Function.update p.1.rolledUpLeafs n true },
      p.2 ++ [.rolledUp n v]) := by
  have hrolled : executed n (p.2 ++ [.rolledUp n v]) = executed n p.2 ++ [.rolledUp n v] := by
    rw [executed_append]
    simp [executed, executes]
  subst hvalue
  refine ⟨⟨hlife.recorded, ?_, ?_, ?_⟩, Or.inr ⟨v, ?_⟩⟩
  · intro hburn
    exact List.mem_append_left _ (hlife.registered hburn)
  · intro w hw
    exact hlife.bound w ((List.mem_append.mp hw).resolve_right (by simp))
  · have hburn : p.1.hasBurn n = true :=
      (hasBurn_iff _ _).mpr (Or.inl (by rw [hkind]; decide))
    have hagain := @Proper.not_again n p.2 v v hproper
    have hunderWay := fun sender => hproper.not_underWay sender v
    have hstage := hlife.stage
    rw [hrolled]
    generalize executed n p.2 = log at hstage hagain hunderWay ⊢
    cases hstage with
    | idle _ => exact Stage.rolledUp [] (Function.update_self ..) hburn (Or.inl rfl)
    | substituting sender _ _ => exact absurd rfl (hunderWay sender)
    | substituted sender payee _ hrecord =>
      have hzero := (hrecord hv).1
      rw [hkind] at hzero
      cases hzero
    | rolledUp payment _ _ _ => simp at hagain
    | repaid sender payee payment _ _ _ => simp at hagain
  · rw [hrolled]
    exact List.mem_append_right _ (List.mem_singleton_self _)

/-- The hash of a roll-up of a burn: it was idle or substituted, and is paid at most once. -/
theorem rollsUp_self {n v : Element} (hv : v ≠ 0#256) {success : Bool}
    (hrouter : ∀ args s s', Commits (router args) s true s' → LivesAt (amountOf n) n s s')
    (h : Pays env router n v
      ({ p.1 with rolledUpLeafs := Function.update p.1.rolledUpLeafs n true },
        p.2 ++ [.rolledUp n v]) (true, success) p') : LivesAt (amountOf n) n p p' := by
  obtain ⟨hgrows, hleaf⟩ := pays_grows hrouter h
  have hleaf' : p'.1.rolledUpLeafs n = true := hleaf (Function.update_self ..)
  refine ⟨(List.prefix_append ..).trans hgrows, fun _ => hleaf', ?_, ?_⟩
  · intro hproper hlife
    have hstep := hproper.of_prefix hgrows
    have hrolled : executed n (p.2 ++ [.rolledUp n v]) = executed n p.2 ++ [.rolledUp n v] := by
      rw [executed_append]
      simp [executed, executes]
    have hbound : ∀ w, .registered n w ∈ p.2 ++ [.rolledUp n v] → w = amountOf n := by
      intro w hw
      exact hlife.bound w ((List.mem_append.mp hw).resolve_right (by simp))
    have hstart := fun hkind hvalue => rolling_life (v := v) hv hlife hstep hkind hvalue
    obtain ⟨rfl, hburn, -, hexecutes⟩ :=
      pays_self hrouter h hproper hlife.recorded hbound hstart
    have hburn' : p'.1.hasBurn n = true := by
      unfold Rollup.hasBurn
      rw [hexecutes.kind, hexecutes.burn]
      exact hburn
    refine ⟨?_, ?_, hexecutes.bound, ?_⟩
    · rw [hexecutes.kind, hexecutes.burn, hexecutes.router]
      exact hlife.recorded
    · intro _
      exact hgrows.subset (List.mem_append_left _ (hlife.registered hburn))
    · have hstage := hlife.stage
      have hpayment := hexecutes.payment
      have hagain := @Proper.not_again n p.2 (amountOf n) (amountOf n) hstep
      have hunderWay := fun sender => hstep.not_underWay sender (amountOf n)
      rw [hrolled] at hpayment
      generalize executed n p.2 = log at hstage hpayment hagain hunderWay
      cases hstage with
      | idle _ =>
        obtain ⟨-, payee, hlog, -⟩ | ⟨-, ⟨hlog, -⟩ | ⟨hlog, -⟩⟩ := hpayment
        · rw [hlog]
          exact Stage.rolledUp _ hleaf' hburn' (Or.inr ⟨payee, Or.inl rfl⟩)
        · rw [hlog]
          exact Stage.rolledUp [] hleaf' hburn' (Or.inl rfl)
        · rw [hlog]
          exact Stage.rolledUp _ hleaf' hburn' (Or.inr ⟨_, Or.inr rfl⟩)
      | substituting sender _ _ => exact absurd rfl (hunderWay sender)
      | substituted sender payee _ hrecord =>
        obtain ⟨hzero, hsender⟩ := hrecord hv
        have hpayee : (p.1.burns n).toAddr = sender := by rw [hsender]
        obtain ⟨-, payee', hlog, hpayee'⟩ | ⟨-, ⟨-, hone⟩ | ⟨hlog, -⟩⟩ := hpayment
        · rw [hlog, (hpayee' hzero).trans hpayee]
          exact Stage.repaid sender payee _ hleaf' hburn' (Or.inl rfl)
        · rw [hzero] at hone
          cases hone
        · rw [hlog, hpayee]
          exact Stage.repaid sender payee _ hleaf' hburn' (Or.inr rfl)
      | rolledUp payment _ _ _ => simp at hagain
      | repaid sender payee payment _ _ _ => simp at hagain
  · intro hproper hlife hlocked
    have hstep := hproper.of_prefix hgrows
    rcases hlocked with ⟨sender, a, hunderWay⟩ | ⟨w, hmem⟩
    · exact absurd hunderWay (hstep.not_underWay sender a)
    · exact absurd hmem hstep.not_again

/-- Every step of the contract lets every hash live on. -/
theorem lives_lawful (fair : (τ → τ) → Prop)
    (hbinds : ∀ n v, BurnVerified env n v → v = amountOf n) :
    Lawful env fair (Lives amountOf) := by
  refine ⟨?_, ?_, ?_, ?_, ?_⟩
  · intro p s' hsame n
    refine LivesAt.of_same ⟨congrFun hsame.burnsKind n, congrFun hsame.burns n,
      congrFun hsame.burnsToRouter n, congrFun hsame.substitutedBurns n, rfl⟩ List.prefix_rfl ?_
      fun v hv => hv
    rw [hsame.rolledUpLeafs]
    exact id
  · intro p effect hfair n
    exact LivesAt.of_same ⟨rfl, rfl, rfl, rfl, rfl⟩ List.prefix_rfl id fun v hv => hv
  · intro p p' h
    exact registration_lives amountOf hbinds h
  · intro router hrouter sender n v p p' h m
    by_cases hne : n = m
    · subst hne
      exact substitution_self amountOf (fun args s s' hs => (hrouter args).relates s true s' hs n) h
    · exact substitution_other (fun args s s' hs => (hrouter args).relates s true s' hs m) h hne
  · intro router hrouter n v p p' h m
    cases h with
    | nothing _ => exact LivesAt.refl p
    | mint _ =>
      refine LivesAt.of_same ⟨rfl, rfl, rfl, rfl, rfl⟩ List.prefix_rfl ?_ fun v hv => hv
      intro hleaf
      by_cases hne : m = n
      · subst hne
        exact Function.update_self ..
      · exact (Function.update_of_ne hne ..).trans hleaf
    | burn success p' hv hpays =>
      by_cases hne : n = m
      · subst hne
        exact rollsUp_self amountOf hv
          (fun args s s' hs => (hrouter args).relates s true s' hs n) hpays
      · have hstart : LivesAt (amountOf m) m p
            ({ p.1 with rolledUpLeafs := Function.update p.1.rolledUpLeafs n true },
              p.2 ++ [.rolledUp n v]) := by
          refine LivesAt.of_same ⟨rfl, rfl, rfl, rfl, ?_⟩ (List.prefix_append ..) ?_ (by simp)
          · rw [executed_append]
            simp [executed, executes, hne]
          · exact fun hleaf => (Function.update_of_ne (Ne.symm hne) ..).trans hleaf
        exact hstart.trans
          (pays_other (fun args s s' hs => (hrouter args).relates s true s' hs m) hpays hne)

end Steps
end PayyRollup.BurnLife
