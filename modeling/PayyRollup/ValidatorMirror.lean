import PayyRollup.ValidatorSets

/-!
The node's copy of the contract's validator sets. The sets are loaded once when the node
starts; a worker then listens for the logs of added sets, and asks the contract for the sets
it lacks when a log names one. A transport error drops the listener, with the logs that it
had not delivered; the worker then creates a new one and loads all sets again. The contract
takes transactions at any moment in between. The copy is always a beginning of the contract's
list, and it is the whole list whenever the listener has nothing left to deliver, except for
the sets added between the first load and the first listener.
-/
namespace PayyRollup.ValidatorMirror

open ScalarField VerifierContracts Transactions RollupState RollupCalls RollupEffects
  ValidatorSets

section Model

variable {τ : Type}

/-- The outcome of a call to the provider. -/
inductive Answer
  | ok
  | transport
  | other

/-- Where the worker stands: before its first listener, waiting for the next log, asking for
the sets from an index on, waiting to create a listener again, loading all sets again, or
returned. -/
inductive Phase
  | created
  | listening
  | fetching (first : ℕ)
  | relistening
  | reloading
  | stopped
  deriving DecidableEq

/-- The contract on its chain, the copy of its sets, and the worker that keeps it. -/
structure Mirror (τ : Type) where
  rollup : Rollup τ
  validatorSets : List ValidatorSet
  phase : Phase
  /-- The indices in the logs that the listener has not delivered yet. -/
  events : List ℕ
  consecutiveTransportErrorCount : ℕ

inductive Input (τ : Type)
  | transaction (tx : Address × Call τ)
  | listened (answer : Answer)
  | event (answer : Answer)
  | queried (answer : Answer)

/-- The answer to `getValidatorSets`; the call reverts on an index beyond the list. -/
def getValidatorSets (s : Rollup τ) (first : ℕ) : Option (List ValidatorSet) :=
  if first ≤ s.validatorSets.length then some (s.validatorSets.drop first) else none

/-- A node that has loaded all sets of the contract. -/
def load (s : Rollup τ) : Option (Mirror τ) :=
  (getValidatorSets s 0).map fun sets =>
    { rollup := s
      validatorSets := sets
      phase := .created
      events := []
      consecutiveTransportErrorCount := 0 }

def maxConsecutiveTransportErrors : ℕ := 5

/-- A transport error; the worker gives up on one too many. -/
def Mirror.transportError (m : Mirror τ) : Mirror τ :=
  if m.consecutiveTransportErrorCount + 1 > maxConsecutiveTransportErrors then
    { m with phase := .stopped, events := []
             consecutiveTransportErrorCount := m.consecutiveTransportErrorCount + 1 }
  else
    { m with phase := .relistening, events := []
             consecutiveTransportErrorCount := m.consecutiveTransportErrorCount + 1 }

def Mirror.stop (m : Mirror τ) : Mirror τ := { m with phase := .stopped, events := [] }

/-- A log with the index of an added set; sets up to the last index of the copy are known. -/
def Mirror.handle (m : Mirror τ) (index : ℕ) (rest : List ℕ) : Mirror τ :=
  { m with events := rest
           consecutiveTransportErrorCount := 0
           phase := if index > m.validatorSets.length - 1 then
             .fetching (m.validatorSets.length - 1 + 1) else .listening }

/-- The answer of the contract to a query of the worker. -/
def Mirror.receive (m : Mirror τ) : Mirror τ :=
  match m.phase with
  | .fetching first =>
      match getValidatorSets m.rollup first with
      | some newValidators =>
          { m with validatorSets := m.validatorSets ++ newValidators, phase := .listening }
      | none => m.stop
  | .reloading =>
      match getValidatorSets m.rollup 0 with
      | some allValidators => { m with validatorSets := allValidators, phase := .listening }
      | none => m.stop
  | _ => m

/-- Whether a listener is there to collect the logs of the chain. -/
def Phase.collects : Phase → Bool
  | .listening | .fetching _ | .reloading => true
  | .created | .relistening | .stopped => false

variable (env : Externals τ) (routers : Routers τ) (depth : ℕ)

/-- The index in the log of a transaction that adds a set. -/
def validatorSetAdded (s : Rollup τ) (tx : Address × Call τ) : List ℕ :=
  match call env (routerCallAt env routers depth) tx.1 tx.2 s, tx.2 with
  | .ok _, .setValidators _ _ => [s.validatorSets.length]
  | _, _ => []

def Mirror.transact (m : Mirror τ) (tx : Address × Call τ) : Mirror τ :=
  { m with rollup := RollupCalls.step env routers depth m.rollup tx
           events := if m.phase.collects then
             m.events ++ validatorSetAdded env routers depth m.rollup tx else m.events }

/-- One input; the worker only takes those that it waits for. -/
def step (m : Mirror τ) : Input τ → Mirror τ
  | .transaction tx => m.transact env routers depth tx
  | .listened answer =>
      match m.phase, answer with
      | .created, .ok => { m with phase := .listening, events := [] }
      | .created, _ => m.stop
      | .relistening, .ok => { m with phase := .reloading, events := [] }
      | .relistening, .transport => m.transportError
      | .relistening, .other => m.stop
      | _, _ => m
  | .event answer =>
      match m.phase, answer, m.events with
      | .listening, .ok, index :: rest => m.handle index rest
      | .listening, .transport, _ => m.transportError
      | .listening, .other, _ => m.stop
      | _, _, _ => m
  | .queried answer =>
      match m.phase, answer with
      | .fetching _, .ok => m.receive
      | .reloading, .ok => m.receive
      | .fetching _, _ => m.stop
      | .reloading, _ => m.stop
      | _, _ => m

def run (m : Mirror τ) (inputs : List (Input τ)) : Mirror τ :=
  inputs.foldl (step env routers depth) m

end Model

section Copies

variable {τ : Type} (env : Externals τ) (routers : Routers τ) (depth : ℕ)

theorem setValidators_sets (sender : Address) (validFrom : Element) (validators : List Address)
    (s s' : Rollup τ) (u : Unit)
    (h : Commits (call env (routerCallAt env routers depth) sender
      (.setValidators validFrom validators)) s u s') :
    s'.validatorSets = s.validatorSets ++ [ValidatorSet.mk validators validFrom] := by
  simp only [call, setValidators, onlyOwner, commits_bind, commits_get, commits_require,
    commits_set, and_assoc, exists_and_left, exists_eq_left, exists_const] at h
  obtain ⟨-, -, -, rfl⟩ := h
  rfl

theorem other_sets (sender : Address) (c : Call τ) (s s' : Rollup τ)
    (hother : ∀ validFrom validators, c ≠ .setValidators validFrom validators)
    (h : Calls env (routerCallAt env routers depth) sender s c s') :
    s'.validatorSets = s.validatorSets := by
  cases h with
  | request r s' h =>
    exact (((sameSets_admissible env).request _
      ((sameSets_admissible env).routerCallAt routers depth) sender r).relates _ _ _ h).sets
  | verifyBlock2 args s' h =>
    exact (verifyBlock2_sets env routers depth sender args s s' h).sets
  | setRoot newRoot => rfl
  | setValidators validFrom validators => exact absurd rfl (hother validFrom validators)
  | settings c chain owner provers routerWhitelist gasPerRouterCall => rfl

/-- A transaction adds at most one set, at the end, and logs its index. -/
theorem transaction_sets (s : Rollup τ) (tx : Address × Call τ) :
    let s' := RollupCalls.step env routers depth s tx
    (s'.validatorSets = s.validatorSets ∧ validatorSetAdded env routers depth s tx = []) ∨
      ∃ set, s'.validatorSets = s.validatorSets ++ [set] ∧
        validatorSetAdded env routers depth s tx = [s.validatorSets.length] := by
  obtain ⟨sender, c⟩ := tx
  unfold validatorSetAdded RollupCalls.step
  dsimp only
  cases hcall : call env (routerCallAt env routers depth) sender c s with
  | error failure => exact Or.inl ⟨rfl, rfl⟩
  | ok result =>
    obtain ⟨⟨⟩, s'⟩ := result
    by_cases hset : ∃ validFrom validators, c = .setValidators validFrom validators
    · obtain ⟨validFrom, validators, rfl⟩ := hset
      exact Or.inr ⟨_, setValidators_sets env routers depth sender validFrom validators s s' ()
        hcall, rfl⟩
    · have hother : ∀ validFrom validators, c ≠ .setValidators validFrom validators :=
        fun validFrom validators hc => hset ⟨validFrom, validators, hc⟩
      refine Or.inl ⟨other_sets env routers depth sender c s s' hother
        (call_cases env _ sender c s s' () hcall), ?_⟩
      cases c <;> first | rfl | exact absurd rfl (hother _ _)

/-- What holds between the inputs: the copy is a beginning of the list, the worker asks for the
sets behind it, and the logs still to be delivered are those of the last sets. -/
structure Follows (m : Mirror τ) : Prop where
  copied : m.validatorSets <+: m.rollup.validatorSets
  loaded : 0 < m.validatorSets.length
  pending : m.events = List.range' (m.rollup.validatorSets.length - m.events.length)
    m.events.length
  bounded : m.events.length ≤ m.rollup.validatorSets.length
  idle : m.phase.collects = false → m.events = []
  fetching : ∀ first, m.phase = .fetching first → first = m.validatorSets.length

/-- The worker has lost its listener, or gained one that has delivered nothing. -/
theorem Follows.renewed {m m' : Mirror τ} (h : Follows m) (hrollup : m'.rollup = m.rollup)
    (hsets : m'.validatorSets = m.validatorSets) (hevents : m'.events = [])
    (hphase : ∀ first, m'.phase ≠ .fetching first) : Follows m' where
  copied := by rw [hsets, hrollup]; exact h.copied
  loaded := by rw [hsets]; exact h.loaded
  pending := by rw [hevents]; rfl
  bounded := by rw [hevents]; exact Nat.zero_le _
  idle := fun _ => hevents
  fetching := fun first hfirst => absurd hfirst (hphase first)

theorem Follows.stop {m : Mirror τ} (h : Follows m) : Follows m.stop :=
  h.renewed rfl rfl rfl (by intro first hfirst; cases hfirst)

theorem Follows.transportError {m : Mirror τ} (h : Follows m) : Follows m.transportError := by
  unfold Mirror.transportError
  split
  · exact h.renewed rfl rfl rfl (by intro first hfirst; cases hfirst)
  · exact h.renewed rfl rfl rfl (by intro first hfirst; cases hfirst)

theorem Follows.transact {m : Mirror τ} (h : Follows m) (tx : Address × Call τ) :
    Follows (m.transact env routers depth tx) := by
  obtain ⟨hsame, hnone⟩ | ⟨set, hsets, hlogged⟩ :=
    transaction_sets env routers depth m.rollup tx
  · have hevents : (m.transact env routers depth tx).events = m.events := by
      change (if m.phase.collects then m.events ++ validatorSetAdded env routers depth m.rollup tx
        else m.events) = m.events
      rw [hnone, List.append_nil, ite_self]
    have hrollup : (m.transact env routers depth tx).rollup.validatorSets =
        m.rollup.validatorSets := hsame
    refine ⟨?_, h.loaded, ?_, ?_, ?_, h.fetching⟩
    · rw [hrollup]
      exact h.copied
    · rw [hevents, hrollup]
      exact h.pending
    · rw [hevents, hrollup]
      exact h.bounded
    · rw [hevents]
      exact h.idle
  · have hrollup : (m.transact env routers depth tx).rollup.validatorSets =
        m.rollup.validatorSets ++ [set] := hsets
    have hcopied : (m.transact env routers depth tx).validatorSets <+:
        (m.transact env routers depth tx).rollup.validatorSets := by
      rw [hrollup]
      exact h.copied.trans (List.prefix_append _ _)
    by_cases hcollects : m.phase.collects = true
    · have hevents : (m.transact env routers depth tx).events =
          m.events ++ [m.rollup.validatorSets.length] := by
        change (if m.phase.collects then
          m.events ++ validatorSetAdded env routers depth m.rollup tx else m.events) = _
        rw [if_pos hcollects, hlogged]
      have hbounded := h.bounded
      refine ⟨hcopied, h.loaded, ?_, ?_, ?_, h.fetching⟩
      · rw [hevents, hrollup, List.length_append, List.length_append, List.length_singleton,
          List.length_singleton, Nat.add_sub_add_right, List.range'_concat, ← h.pending]
        congr 2
        omega
      · rw [hevents, hrollup, List.length_append, List.length_append]
        exact Nat.add_le_add_right hbounded 1
      · exact fun hidle => absurd hcollects (ne_true_of_eq_false hidle)
    · rw [Bool.not_eq_true] at hcollects
      have hevents : (m.transact env routers depth tx).events = [] := by
        change (if m.phase.collects then
          m.events ++ validatorSetAdded env routers depth m.rollup tx else m.events) = _
        rw [hcollects]
        exact h.idle hcollects
      refine ⟨hcopied, h.loaded, ?_, ?_, fun _ => hevents, h.fetching⟩
      · rw [hevents]
        rfl
      · rw [hevents]
        exact Nat.zero_le _

/-- The index of the next log. -/
theorem Follows.index {m : Mirror τ} (h : Follows m) {index : ℕ} {rest : List ℕ}
    (hevents : m.events = index :: rest) :
    index = m.rollup.validatorSets.length - (rest.length + 1) ∧
      rest = List.range' (m.rollup.validatorSets.length - rest.length) rest.length := by
  have hpending := h.pending
  have hbounded := h.bounded
  rw [hevents, List.length_cons] at hpending hbounded
  rw [List.range'_succ, List.cons.injEq] at hpending
  refine ⟨hpending.1, ?_⟩
  have hnext : m.rollup.validatorSets.length - (rest.length + 1) + 1 =
      m.rollup.validatorSets.length - rest.length := by omega
  rw [← hnext]
  exact hpending.2

theorem Follows.handle {m : Mirror τ} (h : Follows m) {index : ℕ} {rest : List ℕ}
    (hevents : m.events = index :: rest) : Follows (m.handle index rest) := by
  have hloaded := h.loaded
  have hbounded := h.bounded
  rw [hevents, List.length_cons] at hbounded
  refine ⟨h.copied, hloaded, (h.index hevents).2, Nat.le_of_succ_le hbounded, ?_, ?_⟩
  · intro hidle
    unfold Mirror.handle at hidle
    dsimp only at hidle
    split at hidle <;> cases hidle
  · intro first hfirst
    unfold Mirror.handle at hfirst
    dsimp only at hfirst
    split at hfirst
    · cases hfirst
      exact Nat.sub_add_cancel hloaded
    · cases hfirst

/-- A query answers with the sets that the copy lacks. -/
theorem Follows.receive {m : Mirror τ} (h : Follows m) :
    Follows m.receive ∧ (m.phase = .reloading ∨ (∃ first, m.phase = .fetching first) →
      m.receive = { m with validatorSets := m.rollup.validatorSets, phase := .listening }) := by
  have hfull : m.phase = .reloading ∨ (∃ first, m.phase = .fetching first) →
      m.receive = { m with validatorSets := m.rollup.validatorSets, phase := .listening } := by
    rintro (hreloading | ⟨first, hfetching⟩)
    · unfold Mirror.receive
      rw [hreloading]
      rfl
    · have hfirst := h.fetching first hfetching
      obtain ⟨missing, hmissing⟩ := h.copied
      unfold Mirror.receive
      rw [hfetching]
      dsimp only
      unfold getValidatorSets
      rw [if_pos (hfirst ▸ h.copied.length_le), hfirst, ← hmissing, List.drop_left]
  refine ⟨?_, hfull⟩
  by_cases hasked : m.phase = .reloading ∨ ∃ first, m.phase = .fetching first
  · rw [hfull hasked]
    refine ⟨List.prefix_rfl, Nat.lt_of_lt_of_le h.loaded h.copied.length_le, h.pending, h.bounded,
      ?_, ?_⟩
    · intro hidle
      cases hidle
    · intro first hfirst
      cases hfirst
  · have hsame : m.receive = m := by
      rw [not_or, not_exists] at hasked
      unfold Mirror.receive
      split
      · exact absurd ‹_› (hasked.2 _)
      · exact absurd ‹_› hasked.1
      · rfl
    rw [hsame]
    exact h

/-- The cases of a step: a transaction, a log, the answer to a query, or a listener gained or
lost. -/
inductive Steps (m : Mirror τ) : Input τ → Mirror τ → Prop
  | transaction (tx : Address × Call τ) :
      Steps m (.transaction tx) (m.transact env routers depth tx)
  | handle (index : ℕ) (rest : List ℕ) :
      m.phase = .listening → m.events = index :: rest →
      Steps m (.event .ok) (m.handle index rest)
  | receive (input : Input τ) :
      m.phase = .reloading ∨ (∃ first, m.phase = .fetching first) → Steps m input m.receive
  | listen (input : Input τ) (phase : Phase) :
      (m.phase = .created ∧ phase = .listening) ∨ (m.phase = .relistening ∧ phase = .reloading) →
      Steps m input { m with phase, events := [] }
  | lost (input : Input τ) : Steps m input m.transportError
  | stop (input : Input τ) : Steps m input m.stop
  | unchanged (input : Input τ) : Steps m input m

theorem step_cases (m : Mirror τ) (input : Input τ) :
    Steps env routers depth m input (step env routers depth m input) := by
  cases input with
  | transaction tx => exact .transaction tx
  | listened answer =>
    unfold step
    dsimp only
    split
    · exact .listen _ _ (Or.inl ⟨‹_›, rfl⟩)
    · exact .stop _
    · exact .listen _ _ (Or.inr ⟨‹_›, rfl⟩)
    · exact .lost _
    · exact .stop _
    · exact .unchanged _
  | event answer =>
    unfold step
    dsimp only
    split
    · exact .handle _ _ ‹_› ‹_›
    · exact .lost _
    · exact .stop _
    · exact .unchanged _
  | queried answer =>
    unfold step
    dsimp only
    split
    · exact .receive _ (Or.inr ⟨_, ‹_›⟩)
    · exact .receive _ (Or.inl ‹_›)
    · exact .stop _
    · exact .stop _
    · exact .unchanged _

theorem Steps.follows {m m' : Mirror τ} {input : Input τ}
    (hstep : Steps env routers depth m input m') (h : Follows m) : Follows m' := by
  cases hstep with
  | transaction tx => exact h.transact env routers depth tx
  | handle index rest hphase hevents => exact h.handle hevents
  | receive input hasked => exact h.receive.1
  | listen input phase hphase =>
    refine h.renewed rfl rfl rfl ?_
    rintro first (hfirst : phase = .fetching first)
    obtain ⟨-, rfl⟩ | ⟨-, rfl⟩ := hphase <;> cases hfirst
  | lost input => exact h.transportError
  | stop input => exact h.stop
  | unchanged input => exact h

/-- While the worker waits for a log, the logs to come name all sets that the copy lacks, or
the worker has done nothing since its first listener `m₀`. -/
def CaughtUp (m₀ m : Mirror τ) : Prop :=
  m.phase = .listening →
    m.rollup.validatorSets.length ≤ m.validatorSets.length + m.events.length ∨
      m.validatorSets = m₀.validatorSets ∧
        m₀.rollup.validatorSets <+: m.rollup.validatorSets ∧
        m.rollup.validatorSets.length = m₀.rollup.validatorSets.length + m.events.length

theorem CaughtUp.transact {m₀ m : Mirror τ} (hm : CaughtUp m₀ m) (tx : Address × Call τ) :
    CaughtUp m₀ (m.transact env routers depth tx) := by
  intro hphase
  replace hphase : m.phase = .listening := hphase
  have hevents : (m.transact env routers depth tx).events =
      m.events ++ validatorSetAdded env routers depth m.rollup tx := by
    change (if m.phase.collects then _ else _) = _
    rw [hphase]
    rfl
  have hsets : m.rollup.validatorSets <+:
        (m.transact env routers depth tx).rollup.validatorSets ∧
      (m.transact env routers depth tx).rollup.validatorSets.length =
        m.rollup.validatorSets.length +
          (validatorSetAdded env routers depth m.rollup tx).length := by
    change m.rollup.validatorSets <+:
      (RollupCalls.step env routers depth m.rollup tx).validatorSets ∧
        (RollupCalls.step env routers depth m.rollup tx).validatorSets.length = _
    obtain ⟨hsame, hnone⟩ | ⟨set, hadded, hlogged⟩ :=
      transaction_sets env routers depth m.rollup tx
    · rw [hsame, hnone]
      exact ⟨List.prefix_rfl, rfl⟩
    · rw [hadded, hlogged]
      exact ⟨List.prefix_append _ _, List.length_append⟩
  rw [hevents, hsets.2, List.length_append]
  rcases hm hphase with hcovered | ⟨hcopy, hgrown, hcount⟩
  · left
    change _ ≤ m.validatorSets.length + _
    omega
  · right
    exact ⟨hcopy, hgrown.trans hsets.1, by omega⟩

theorem Steps.caughtUp {m₀ m m' : Mirror τ} {input : Input τ}
    (hstep : Steps env routers depth m input m') (h : Follows m)
    (hcreated : m.phase ≠ .created) (hm : CaughtUp m₀ m) :
    CaughtUp m₀ m' ∧ m'.phase ≠ .created := by
  cases hstep with
  | transaction tx => exact ⟨hm.transact env routers depth tx, hcreated⟩
  | handle index rest hphase hevents =>
    obtain ⟨hindex, -⟩ := h.index hevents
    have hbounded := h.bounded
    rw [hevents, List.length_cons] at hbounded
    have hloaded := h.loaded
    unfold Mirror.handle CaughtUp
    dsimp only
    by_cases hnew : index > m.validatorSets.length - 1
    · rw [if_pos hnew]
      exact ⟨fun hlistening => (by cases hlistening), fun hsame => (by cases hsame)⟩
    · rw [if_neg hnew]
      exact ⟨fun _ => Or.inl (by omega), fun hsame => (by cases hsame)⟩
  | receive input hasked =>
    rw [h.receive.2 hasked]
    exact ⟨fun _ => Or.inl (Nat.le_add_right _ _), fun hsame => (by cases hsame)⟩
  | listen input phase hphase =>
    obtain ⟨hphase, -⟩ | ⟨-, rfl⟩ := hphase
    · exact absurd hphase hcreated
    · exact ⟨fun hlistening => (by cases hlistening), fun hsame => (by cases hsame)⟩
  | lost input =>
    unfold Mirror.transportError CaughtUp
    split <;> exact ⟨fun hlistening => (by cases hlistening), fun hsame => (by cases hsame)⟩
  | stop input => exact ⟨fun hlistening => (by cases hlistening), fun hsame => (by cases hsame)⟩
  | unchanged input => exact ⟨hm, hcreated⟩

/-- What every input keeps, over a run. -/
theorem run_keeps (P : Mirror τ → Prop)
    (hstep : ∀ m m' input, Steps env routers depth m input m' → P m → P m')
    (inputs : List (Input τ)) (m : Mirror τ) (hm : P m) :
    P (run env routers depth m inputs) := by
  induction inputs generalizing m with
  | nil => exact hm
  | cons input rest ih => exact ih _ (hstep m _ input (step_cases env routers depth m input) hm)

theorem Steps.setsInv {m m' : Mirror τ} {input : Input τ}
    (hstep : Steps env routers depth m input m') (h : Follows m) (hm : SetsInv m.rollup) :
    SetsInv m'.rollup := by
  cases hstep with
  | transaction tx =>
    exact runCalls_keeps env routers depth SetsInv (call_setsInv env routers depth) [tx] _ hm
  | handle index rest hphase hevents => exact hm
  | receive input hasked =>
    rw [h.receive.2 hasked]
    exact hm
  | listen input phase hphase => exact hm
  | lost input =>
    unfold Mirror.transportError
    split <;> exact hm
  | stop input => exact hm
  | unchanged input => exact hm

end Copies

section Selection

variable {τ : Type}

theorem readable {sets : List ValidatorSet}
    (hread : ∀ set ∈ sets, set.validFrom.toNat < 2 ^ 64) :
    sets.all (fun set => decide (set.validFrom.toNat < 2 ^ 64)) = true := by
  rw [List.all_eq_true]
  exact fun set hset => decide_eq_true (hread set hset)

/-- With a beginning of the list, a node finds at every height what it finds with the whole list
at the last height below that of the first set it lacks. -/
theorem validatorsForHeight_prefix {s : Rollup τ} (hs : SetsInv s) {copy : List ValidatorSet}
    (hcopy : copy <+: s.validatorSets) (hloaded : 0 < copy.length)
    (hread : ∀ set ∈ s.validatorSets, set.validFrom.toNat < 2 ^ 64) (height : ℕ)
    (missing : ValidatorSet) (hmissing : s.validatorSets[copy.length]? = some missing) :
    validatorsForHeight copy height =
      validatorsForHeight s.validatorSets (min height (missing.validFrom.toNat - 1)) := by
  have hallcopy := readable fun set hset => hread set (hcopy.subset hset)
  have hall := readable hread
  have hascending := hs.ascending
  obtain ⟨behind, hbehind⟩ := hcopy
  rw [← hbehind, List.getElem?_append_right (le_refl _), Nat.sub_self] at hmissing
  obtain ⟨rest, rfl⟩ : ∃ rest, behind = missing :: rest := by
    cases behind with
    | nil => cases hmissing
    | cons a rest => exact ⟨rest, by rw [Option.some.inj hmissing]⟩
  rw [← hbehind, List.pairwise_append] at hascending
  obtain ⟨-, hrest, hbelow⟩ := hascending
  have hlt : ∀ a ∈ copy, a.validFrom.toNat < missing.validFrom.toNat :=
    fun a ha => hbelow a ha missing List.mem_cons_self
  have hpos : 0 < missing.validFrom.toNat :=
    Nat.lt_of_le_of_lt (Nat.zero_le _) (hlt _ (List.getElem_mem hloaded))
  have hge : ∀ a ∈ missing :: rest, missing.validFrom.toNat ≤ a.validFrom.toNat := by
    intro a ha
    rcases List.mem_cons.mp ha with rfl | ha
    · exact le_refl _
    · exact Nat.le_of_lt (List.rel_of_pairwise_cons hrest ha)
  have hleft : (copy.filter fun set => decide (set.validFrom.toNat ≤ height)) =
      copy.filter fun set =>
        decide (set.validFrom.toNat ≤ min height (missing.validFrom.toNat - 1)) := by
    apply List.filter_congr
    intro a ha
    have ha := hlt a ha
    exact decide_eq_decide.mpr (by omega)
  have hright : ((missing :: rest).filter fun set =>
      decide (set.validFrom.toNat ≤ min height (missing.validFrom.toNat - 1))) = [] := by
    rw [List.filter_eq_nil_iff]
    intro a ha hle
    have ha := hge a ha
    have hle := of_decide_eq_true hle
    omega
  unfold validatorsForHeight
  rw [if_pos hallcopy, if_pos hall, ← hbehind, List.filter_append, hright, List.append_nil, hleft]

end Selection

section Runs

variable {τ : Type} (env : Externals τ) (routers : Routers τ) (depth : ℕ)

theorem run_append (m : Mirror τ) (inputs inputs' : List (Input τ)) :
    run env routers depth m (inputs ++ inputs') =
      run env routers depth (run env routers depth m inputs) inputs' :=
  List.foldl_append

/-- The transactions between the load and the listener change only the contract. -/
theorem run_created (m : Mirror τ) (txs : List (Address × Call τ)) (h : m.phase = .created) :
    run env routers depth m (txs.map Input.transaction) =
      { m with rollup := runCalls env routers depth m.rollup txs } := by
  induction txs generalizing m with
  | nil => rfl
  | cons tx rest ih =>
    refine (ih (m.transact env routers depth tx) h).trans ?_
    unfold Mirror.transact
    rw [h]
    rfl

/-- A node loads its sets from the contract, in any state of a run, and starts its listener
some transactions later. From then on, whatever happens, its sets are a beginning of those of
the contract, and at every height it finds what it would find with all of them at the last
height below that of the first set it lacks. When the listener has nothing to deliver, it lacks
no set, unless no set has been added since the listener was started. -/
theorem sets_followed (chain : τ) (owner prover : Address) (initialValidators : List Address)
    (emptyMerkleTreeRootHash : Element) (earlier between : List (Address × Call τ))
    (inputs : List (Input τ)) :
    let s := runCalls env routers depth
      (initialState chain owner prover initialValidators emptyMerkleTreeRootHash) earlier
    ∃ m₀, load s = some m₀ ∧
      let m₁ := run env routers depth m₀ (between.map .transaction ++ [.listened .ok])
      let m := run env routers depth m₁ inputs
      m.validatorSets <+: m.rollup.validatorSets ∧
      (m.phase = .listening → m.events = [] →
        m.validatorSets = m.rollup.validatorSets ∨
          m.validatorSets = s.validatorSets ∧
            m.rollup.validatorSets = m₁.rollup.validatorSets) ∧
      ∀ height missing, m.rollup.validatorSets[m.validatorSets.length]? = some missing →
        (∀ set ∈ m.rollup.validatorSets, set.validFrom.toNat < 2 ^ 64) →
        validatorsForHeight m.validatorSets height =
          validatorsForHeight m.rollup.validatorSets
            (min height (missing.validFrom.toNat - 1)) := by
  intro s
  have hs : SetsInv s := runCalls_setsInv env routers depth chain owner prover initialValidators
    emptyMerkleTreeRootHash earlier
  refine ⟨_, rfl, ?_⟩
  intro m₁ m
  set loaded : Mirror τ := ⟨s, s.validatorSets, .created, [], 0⟩ with hloaded
  have hlistening : m₁ = { loaded with
      rollup := runCalls env routers depth s between, phase := .listening } := by
    change run env routers depth loaded _ = _
    rw [run_append, run_created env routers depth loaded between rfl]
    rfl
  have hcreated : Follows loaded := by
    obtain ⟨first, rest, hfirst, -⟩ := hs.genesis
    refine ⟨List.prefix_rfl, ?_, rfl, Nat.zero_le _, fun _ => rfl, ?_⟩
    · change 0 < s.validatorSets.length
      rw [hfirst]
      exact Nat.succ_pos _
    · intro first hfetching
      cases hfetching
  have hkept : Follows m₁ ∧ SetsInv m₁.rollup :=
    run_keeps env routers depth (fun m => Follows m ∧ SetsInv m.rollup)
      (fun m m' input hstep hm => ⟨hstep.follows env routers depth hm.1,
        hstep.setsInv env routers depth hm.1 hm.2⟩) _ loaded ⟨hcreated, hs⟩
  have hstart : CaughtUp m₁ m₁ := fun _ => Or.inr ⟨rfl, List.prefix_rfl, by rw [hlistening]; rfl⟩
  obtain ⟨hfollows, hinv, hcaught, -⟩ : Follows m ∧ SetsInv m.rollup ∧ CaughtUp m₁ m ∧
      m.phase ≠ .created :=
    run_keeps env routers depth
      (fun m => Follows m ∧ SetsInv m.rollup ∧ CaughtUp m₁ m ∧ m.phase ≠ .created)
      (fun m m' input hstep hm => ⟨hstep.follows env routers depth hm.1,
        hstep.setsInv env routers depth hm.1 hm.2.1,
        hstep.caughtUp env routers depth hm.1 hm.2.2.2 hm.2.2.1⟩)
      inputs m₁ ⟨hkept.1, hkept.2, hstart, by rw [hlistening]; intro hsame; cases hsame⟩
  refine ⟨hfollows.copied, ?_, ?_⟩
  · intro hphase hevents
    rcases hcaught hphase with hcovered | ⟨hcopy, hgrown, hcount⟩
    · left
      rw [hevents] at hcovered
      exact hfollows.copied.eq_of_length (le_antisymm hfollows.copied.length_le hcovered)
    · right
      rw [hevents] at hcount
      refine ⟨?_, (hgrown.eq_of_length hcount.symm).symm⟩
      rw [hcopy, hlistening]
  · intro height missing hmissing hread
    exact validatorsForHeight_prefix hinv hfollows.copied hfollows.loaded hread height missing
      hmissing

end Runs

section Outages

variable {τ : Type} (env : Externals τ) (routers : Routers τ) (depth : ℕ)

/-- Whether the worker meets a transport error that it can retry. -/
def Mirror.suffers (m : Mirror τ) : Input τ → Bool
  | .event .transport => decide (m.phase = .listening)
  | .listened .transport => decide (m.phase = .relistening)
  | _ => false

/-- The transport errors that the worker meets in a run. -/
def transportErrors (m : Mirror τ) : List (Input τ) → ℕ
  | [] => 0
  | input :: rest =>
      (m.suffers input).toNat + transportErrors (step env routers depth m input) rest

/-- The provider fails in transport at most, and has no log to deliver. -/
def Quiet : Input τ → Prop
  | .transaction _ | .event .transport | .listened .ok | .listened .transport
  | .queried .ok => True
  | _ => False

/-- The phases of a worker that waits for its next log, or has lost its listener. -/
def Phase.running : Phase → Bool
  | .listening | .relistening | .reloading => true
  | .created | .fetching _ | .stopped => false

theorem transportError_spec (m : Mirror τ) :
    m.transportError.consecutiveTransportErrorCount = m.consecutiveTransportErrorCount + 1 ∧
      m.transportError.phase =
        if m.consecutiveTransportErrorCount + 1 > maxConsecutiveTransportErrors then .stopped
        else .relistening := by
  unfold Mirror.transportError
  split <;> exact ⟨rfl, rfl⟩

/-- A step of a quiet provider counts the transport error, if there is one, and otherwise keeps
the worker going. -/
theorem step_quiet (m : Mirror τ) (input : Input τ) (hquiet : Quiet input)
    (hrunning : m.phase.running = true) :
    let m' := step env routers depth m input
    m'.consecutiveTransportErrorCount =
        m.consecutiveTransportErrorCount + (m.suffers input).toNat ∧
      (m.suffers input = false → m'.phase.running = true) ∧
      (m.suffers input = true → m'.phase =
        if m.consecutiveTransportErrorCount + 1 > maxConsecutiveTransportErrors then .stopped
        else .relistening) := by
  have hspec := transportError_spec m
  cases input with
  | transaction tx => exact ⟨rfl, fun _ => hrunning, fun h => by cases h⟩
  | event answer =>
    cases answer with
    | ok => exact hquiet.elim
    | transport =>
      cases hphase : m.phase <;> simp_all [step, Mirror.suffers, Phase.running]
    | other => exact hquiet.elim
  | listened answer =>
    cases answer with
    | ok => cases hphase : m.phase <;> simp_all [step, Mirror.suffers, Phase.running]
    | transport => cases hphase : m.phase <;> simp_all [step, Mirror.suffers, Phase.running]
    | other => exact hquiet.elim
  | queried answer =>
    cases answer with
    | ok =>
      cases hphase : m.phase <;>
        simp_all [step, Mirror.suffers, Phase.running, Mirror.receive, getValidatorSets]
    | transport => exact hquiet.elim
    | other => exact hquiet.elim

theorem transportErrors_stopped (m : Mirror τ) (inputs : List (Input τ))
    (hstopped : m.phase = .stopped) :
    transportErrors env routers depth m inputs = 0 ∧
      (run env routers depth m inputs).phase = .stopped := by
  induction inputs generalizing m with
  | nil => exact ⟨rfl, hstopped⟩
  | cons input rest ih =>
    have hkept : (step env routers depth m input).phase = .stopped := by
      unfold step
      cases input <;> simp [hstopped, Mirror.transact]
    have hnone : m.suffers input = false := by
      unfold Mirror.suffers
      rw [hstopped]
      split <;> rfl
    obtain ⟨hrest, hend⟩ := ih _ hkept
    refine ⟨?_, hend⟩
    unfold transportErrors
    rw [hnone, hrest]
    rfl

theorem run_quiet (m : Mirror τ) (inputs : List (Input τ))
    (hquiet : ∀ input ∈ inputs, Quiet input) (hrunning : m.phase.running = true)
    (hcount : m.consecutiveTransportErrorCount ≤ maxConsecutiveTransportErrors) :
    (run env routers depth m inputs).phase = .stopped ↔
      maxConsecutiveTransportErrors <
        m.consecutiveTransportErrorCount + transportErrors env routers depth m inputs := by
  induction inputs generalizing m with
  | nil =>
    refine iff_of_false ?_ (Nat.not_lt.mpr hcount)
    intro hstopped
    replace hstopped : m.phase = .stopped := hstopped
    rw [hstopped] at hrunning
    cases hrunning
  | cons input rest ih =>
    obtain ⟨hinput, hrest⟩ := List.forall_mem_cons.mp hquiet
    obtain ⟨hnext, hcalm, hsuffers⟩ := step_quiet env routers depth m input hinput hrunning
    change (run env routers depth (step env routers depth m input) rest).phase = .stopped ↔ _
    unfold transportErrors
    rw [← Nat.add_assoc, ← hnext]
    cases hcase : m.suffers input with
    | false =>
      rw [hcase] at hnext
      exact ih _ hrest (hcalm hcase) (hnext ▸ hcount)
    | true =>
      rw [hcase] at hnext
      replace hsuffers := hsuffers hcase
      by_cases hgone : m.consecutiveTransportErrorCount + 1 > maxConsecutiveTransportErrors
      · rw [if_pos hgone] at hsuffers
        obtain ⟨-, hend⟩ := transportErrors_stopped env routers depth _ rest hsuffers
        refine iff_of_true hend ?_
        rw [hnext]
        exact Nat.lt_add_right _ hgone
      · rw [if_neg hgone] at hsuffers
        refine ih _ hrest (by rw [hsuffers]; rfl) ?_
        rw [hnext]
        exact Nat.not_lt.mp hgone

/-- A worker that has just handled a log returns on its sixth transport error if no log comes in
between, although it recovers from the first five: a new listener does not reset the count. -/
theorem outages_counted (m : Mirror τ) (index : ℕ) (rest : List ℕ) (inputs : List (Input τ))
    (hknown : index < m.validatorSets.length) (hquiet : ∀ input ∈ inputs, Quiet input) :
    (run env routers depth (m.handle index rest) inputs).phase = .stopped ↔
      6 ≤ transportErrors env routers depth (m.handle index rest) inputs := by
  have hphase : (m.handle index rest).phase = .listening := by
    unfold Mirror.handle
    dsimp only
    rw [if_neg (by omega)]
  have hrun := run_quiet env routers depth (m.handle index rest) inputs hquiet
    (by rw [hphase]; rfl) (Nat.zero_le _)
  rw [hrun]
  change 5 < 0 + _ ↔ _
  omega

/-- An outage that the worker recovers from. -/
def outage : List (Input Unit) := [.event .transport, .listened .ok, .queried .ok]

theorem outages_counted_six :
    let routers : Routers Unit := fun _ _ _ _ => .stop true
    let m : Mirror Unit := ⟨twoSets, twoSets.validatorSets, .listening, [1], 0⟩
    (run SignatureQuorums.namingEnv routers 1 (m.handle 1 [])
        (List.replicate 6 outage).flatten).phase = .stopped ∧
      (run SignatureQuorums.namingEnv routers 1 (m.handle 1 [])
        (List.replicate 5 outage).flatten).phase ≠ .stopped := by
  intro routers m
  have hquiet : ∀ n, ∀ input ∈ (List.replicate n outage).flatten, Quiet input := by
    intro n input hinput
    obtain ⟨inputs, hinputs, hmem⟩ := List.mem_flatten.mp hinput
    rw [List.eq_of_mem_replicate hinputs] at hmem
    simp only [outage, List.mem_cons, List.not_mem_nil, or_false] at hmem
    obtain rfl | rfl | rfl := hmem <;> exact trivial
  constructor
  · exact (outages_counted _ routers 1 m 1 [] _ (by decide) (hquiet 6)).mpr (by decide)
  · rw [ne_eq, outages_counted _ routers 1 m 1 [] _ (by decide) (hquiet 5)]
    decide

end Outages
end PayyRollup.ValidatorMirror
