import PayyRollup.RunRefinement
import PayyRollup.SlowSync

/-!
The background worker that ticks the node, beside the tasks that hand the node blocks. Such a task
puts a block into the cache and calls the ticker afterwards; the call leaves a permit, which the
worker takes when it waits next. In a turn the worker takes the next block, validates it, confirms
it in the cache and commits it, and between any two of these steps the other tasks go on. No call is
lost: once the tasks have made theirs, the worker by itself comes to wait with nothing to commit.
-/
namespace PayyRollup.TickInterleavings

open RollupState SmirkTree NodeBlocks BlockCaches BlockValidation BlockCommit NodeRuns FastSync
  ChainHistory SlowSync RunRefinement
open SmirkNode hiding Node

variable {D : ℕ}

/-- Where the worker is: before a tick, in its loop, with a block that it has taken, found
invalid, found valid, or confirmed, after the loop, or waiting. It has failed when it waits after
a commit that did not succeed, and is stopped by a panic. -/
inductive Phase
  | starting
  | looping
  | taken (block : Block)
  | refused (block : Block)
  | accepted (block : Block)
  | confirmed (block : Block) (io : CommitIo)
  | checking
  | waiting (timed : Bool)
  | failed
  | stopped
  | ended

/-- The node, its worker, the permit of the ticker, the calls that are due, and the flag that
ends the worker. -/
structure State (D : ℕ) where
  node : Node D
  phase : Phase
  permit : Bool
  due : ℕ
  shutdown : Bool

inductive Action
  | receiveProposal (block : Block)
  | snapshotChunk (written : Bool) (chunk : SnapshotChunkFast)
  | tick
  | work (input : TickInput)
  | timeout
  | shutdown

/-- The worker holds a block between two steps of a turn. -/
def Phase.Holds : Phase → Prop
  | .taken _ | .refused _ | .accepted _ | .confirmed _ _ => True
  | _ => False

section Steps

variable (env : NodeEnv) (config : Config) (overflowChecks : Bool)

/-- After validation; an error drops the block. -/
def afterValidate (block : Block) : Outcome Error Unit → Phase
  | .ok () => .accepted block
  | .error .panic => .stopped
  | .error (.err _) => .refused block

def afterCommit : Outcome Error Unit → Phase
  | .ok () => .looping
  | .error .panic => .stopped
  | .error (.err _) => .failed

/-- A node that is out of sync, or a validator that is not in the set, is ticked again later. -/
def afterCheck : Option Bool → Phase
  | none => .stopped
  | some outOfSync => .waiting (outOfSync || decide (config.mode = Mode.validator))

/-- A step of a worker that waits. -/
def State.wake (self : State D) : State D :=
  if self.permit = true then { self with permit := false, phase := .starting } else self

/-- The next step of the worker. A tick of a validator of the height is one step. -/
def work (input : TickInput) (self : State D) : State D :=
  match self.phase with
  | .starting =>
      if self.shutdown = true then { self with phase := .ended }
      else if isValidatorForHeight config input.validatorsForHeight
          (self.node.blockCache.height + 1) = true then
        { self with node := NodeRuns.tick env config input self.node, phase := .waiting true }
      else { self with phase := .looping }
  | .looping =>
      match self.node.blockCache.getNextCommitBlock with
      | none => { self with phase := .checking }
      | some block => { self with phase := .taken block }
  | .taken block =>
      { self with
        phase := afterValidate block
          (validateBlock env config input.validatorsForHeight block self.node.ledger) }
  | .refused block =>
      { self with
        node := { self.node with blockCache := self.node.blockCache.remove (block.hash env) }
        phase := .looping }
  | .accepted block =>
      { self with
        node := { self.node with blockCache := self.node.blockCache.confirm block.height }
        phase := .confirmed block (input.io 0) }
  | .confirmed block io =>
      { self with
        node := ⟨self.node.blockCache,
          (commitProposal env config.badBlocks io block self.node.ledger).1⟩
        phase := afterCommit (commitProposal env config.badBlocks io block self.node.ledger).2 }
  | .checking =>
      { self with phase := afterCheck config (self.node.blockCache.isOutOfSync overflowChecks) }
  | .waiting _ => self.wake
  | .failed => self.wake
  | .stopped => self
  | .ended => self

/-- The sleep of a worker that waits with a time is over. -/
def timeout (self : State D) : State D :=
  match self.phase with
  | .waiting true => { self with phase := .starting }
  | _ => self

/-- A snapshot whose block goes into the cache has a call of the ticker due. -/
def dueAfter : Outcome SyncError Bool → ℕ
  | .ok true => 1
  | _ => 0

def step (self : State D) : Action → State D
  | .receiveProposal block =>
      { self with node := NodeRuns.receiveProposal env config block self.node, due := self.due + 1 }
  | .snapshotChunk written chunk =>
      let result := handleSnapshotChunkFast env config overflowChecks written chunk self.node
      { self with node := result.1, due := self.due + dueAfter result.2 }
  | .tick => { self with permit := true, due := self.due - 1 }
  | .work input => work env config overflowChecks input self
  | .timeout => timeout self
  | .shutdown => { self with permit := true, shutdown := true }

def run (self : State D) (actions : List Action) : State D :=
  actions.foldl (step env config overflowChecks) self

/-- A worker that is about to tick a node for the first time. -/
def start (node : Node D) : State D := ⟨node, .starting, false, 0, false⟩

end Steps

section Worker

variable {env : NodeEnv} {config : Config} {overflowChecks : Bool}

/-- What a step of the worker of a node that is not a validator does. -/
inductive Worked (env : NodeEnv) (config : Config) (s : State D) : State D → Prop
  | tick (phase : Phase) : s.phase = .starting → phase = .looping ∨ phase = .ended →
      Worked env config s { s with phase }
  | take (block : Block) : s.phase = .looping →
      s.node.blockCache.getNextCommitBlock = some block →
      Worked env config s { s with phase := .taken block }
  | leave : s.phase = .looping → s.node.blockCache.getNextCommitBlock = none →
      Worked env config s { s with phase := .checking }
  | validate (block : Block) (validatorsForHeight : ℕ → List Address) : s.phase = .taken block →
      Worked env config s { s with
        phase := afterValidate block
          (validateBlock env config validatorsForHeight block s.node.ledger) }
  | remove (block : Block) : s.phase = .refused block →
      Worked env config s { s with
        node := { s.node with blockCache := s.node.blockCache.remove (block.hash env) }
        phase := .looping }
  | confirm (block : Block) (io : CommitIo) : s.phase = .accepted block →
      Worked env config s { s with
        node := { s.node with blockCache := s.node.blockCache.confirm block.height }
        phase := .confirmed block io }
  | commit (block : Block) (io : CommitIo) : s.phase = .confirmed block io →
      Worked env config s { s with
        node := ⟨s.node.blockCache, (commitProposal env config.badBlocks io block s.node.ledger).1⟩
        phase := afterCommit (commitProposal env config.badBlocks io block s.node.ledger).2 }
  | check (phase : Phase) : s.phase = .checking →
      phase = .stopped ∨ (∃ timed, phase = .waiting timed) → Worked env config s { s with phase }
  | wake : ((∃ timed, s.phase = .waiting timed) ∨ s.phase = .failed) → s.permit = true →
      Worked env config s { s with permit := false, phase := .starting }
  | idle : (((∃ timed, s.phase = .waiting timed) ∨ s.phase = .failed) ∧ s.permit = false) ∨
      s.phase = .stopped ∨ s.phase = .ended → Worked env config s s

theorem wake_worked (s : State D) (h : (∃ timed, s.phase = .waiting timed) ∨ s.phase = .failed) :
    Worked env config s s.wake := by
  unfold State.wake
  split
  · rename_i hpermit
    exact .wake h hpermit
  · rename_i hpermit
    exact .idle (Or.inl ⟨h, Bool.not_eq_true _ ▸ hpermit⟩)

theorem work_worked (hmode : config.mode ≠ Mode.validator) (input : TickInput) (s : State D) :
    Worked env config s (work env config overflowChecks input s) := by
  have hvalidator : isValidatorForHeight config input.validatorsForHeight
      (s.node.blockCache.height + 1) = false := decide_eq_false fun hboth => hmode hboth.1
  unfold work
  split
  · rename_i hphase
    rw [hvalidator]
    split
    · exact .tick .ended hphase (Or.inr rfl)
    · exact .tick .looping hphase (Or.inl rfl)
  · rename_i hphase
    split
    · rename_i hnext
      exact .leave hphase hnext
    · rename_i block hnext
      exact .take block hphase hnext
  · rename_i block hphase
    exact .validate block input.validatorsForHeight hphase
  · rename_i block hphase
    exact .remove block hphase
  · rename_i block hphase
    exact .confirm block (input.io 0) hphase
  · rename_i block io hphase
    exact .commit block io hphase
  · rename_i hphase
    refine .check _ hphase ?_
    cases s.node.blockCache.isOutOfSync overflowChecks with
    | none => exact Or.inl rfl
    | some outOfSync => exact Or.inr ⟨_, rfl⟩
  · rename_i timed hphase
    exact wake_worked s (Or.inl ⟨timed, hphase⟩)
  · rename_i hphase
    exact wake_worked s (Or.inr hphase)
  · rename_i hphase
    exact .idle (Or.inr (Or.inl hphase))
  · rename_i hphase
    exact .idle (Or.inr (Or.inr hphase))

/-- The worker makes none of the calls that are due. -/
theorem Worked.due_eq {s s' : State D} (h : Worked env config s s') : s'.due = s.due := by
  cases h <;> rfl

end Worker

section Snapshots

variable {env : NodeEnv} {config : Config} {overflowChecks : Bool}

/-- What a snapshot does to the cache: nothing, or the block goes in above what is confirmed. -/
theorem handle_cache (hmode : config.mode ≠ Mode.validator) (written : Bool)
    (chunk : SnapshotChunkFast) (s : Node D) :
    let result := handleSnapshotChunkFast env config overflowChecks written chunk s
    result.1.blockCache = s.blockCache ∨
      (result.2 = .ok true ∧ ∃ block, chunk.block = some block ∧ result.1.blockCache =
        (s.blockCache.confirm (NodeRecovery.previousHeight block.height)).insert env block) := by
  intro result
  simp only [result, handleSnapshotChunkFast]
  cases chunk.block with
  | none => exact Or.inl rfl
  | some block =>
    dsimp only
    split
    · exact Or.inl rfl
    · split
      · exact Or.inl rfl
      · split
        · exact Or.inl rfl
        · split
          · exact Or.inl rfl
          · split
            · exact Or.inl rfl
            · simp only [confirmBefore, receiveProposal_of_mode hmode]
              split
              · exact Or.inl rfl
              · exact Or.inr ⟨rfl, block, rfl, rfl⟩

end Snapshots

section Waking

variable (env : NodeEnv) (config : Config) (overflowChecks : Bool) (known : Block → Prop)

/-- The blocks that come in are known ones. -/
def Action.Brings (known : Block → Prop) : Action → Prop
  | .receiveProposal block => known block
  | .snapshotChunk _ chunk => ∀ block, chunk.block = some block → known block
  | _ => True

/-- A worker that has nothing to do, or has a call of the ticker coming. -/
structure Woken (s : State D) : Prop where
  tracks : Tracks env known s.node.blockCache
  called : (s.phase = .checking ∨ ∃ timed, s.phase = .waiting timed) →
    s.node.blockCache.getNextCommitBlock = none ∨ s.permit = true ∨ 0 < s.due

/-- The worker waits with nothing to commit, or has ended. -/
def Settled (s : State D) : Prop :=
  (s.permit = false ∧ ((∃ timed, s.phase = .waiting timed ∧
    s.node.blockCache.getNextCommitBlock = none) ∨ s.phase = .failed)) ∨
    s.phase = .stopped ∨ s.phase = .ended

variable {env config overflowChecks known} {s : State D}

theorem Woken.worked (h : Woken env known s) {s' : State D} (hworked : Worked env config s s') :
    Woken env known s' := by
  cases hworked with
  | tick phase hphase hnext =>
    refine ⟨h.tracks, fun hwaits => ?_⟩
    rcases hnext with rfl | rfl <;> simp at hwaits
  | take block hphase hnext => exact ⟨h.tracks, fun hwaits => by simp at hwaits⟩
  | leave hphase hnext => exact ⟨h.tracks, fun _ => Or.inl hnext⟩
  | validate block validatorsForHeight hphase =>
    refine ⟨h.tracks, fun hwaits => ?_⟩
    cases hresult : validateBlock env config validatorsForHeight block s.node.ledger with
    | ok u => simp [afterValidate, hresult] at hwaits
    | error failure => cases failure <;> simp [afterValidate, hresult] at hwaits
  | remove block hphase => exact ⟨h.tracks.remove _, fun hwaits => by simp at hwaits⟩
  | confirm block io hphase => exact ⟨h.tracks.confirm _, fun hwaits => by simp at hwaits⟩
  | commit block io hphase =>
    refine ⟨h.tracks, fun hwaits => ?_⟩
    cases hresult : (commitProposal env config.badBlocks io block s.node.ledger).2 with
    | ok u => simp [afterCommit, hresult] at hwaits
    | error failure => cases failure <;> simp [afterCommit, hresult] at hwaits
  | check phase hphase hnext => exact ⟨h.tracks, fun _ => h.called (Or.inl hphase)⟩
  | wake hphase hpermit => exact ⟨h.tracks, fun hwaits => by simp at hwaits⟩
  | idle hphase => exact h

theorem Woken.step (h : Woken env known s) (hmode : config.mode ≠ Mode.validator)
    (action : Action) (hbrings : action.Brings known) :
    Woken env known (step env config overflowChecks s action) := by
  cases action with
  | receiveProposal block =>
    refine ⟨?_, fun _ => Or.inr (Or.inr (Nat.succ_pos _))⟩
    change Tracks env known (receiveProposal env config block s.node).blockCache
    rw [receiveProposal_of_mode hmode]
    exact h.tracks.insert block hbrings
  | snapshotChunk written chunk =>
    rcases @handle_cache D env config overflowChecks hmode written chunk s.node with
      hsame | ⟨hok, block, hblock, hcache⟩
    · refine ⟨hsame ▸ h.tracks, fun hwaits => ?_⟩
      rcases h.called hwaits with hnone | hpermit | hdue
      · exact Or.inl (hsame ▸ hnone)
      · exact Or.inr (Or.inl hpermit)
      · exact Or.inr (Or.inr (Nat.lt_of_lt_of_le hdue (Nat.le_add_right _ _)))
    · refine ⟨hcache ▸ (h.tracks.confirm _).insert block (hbrings block hblock),
        fun _ => Or.inr (Or.inr ?_)⟩
      change 0 < s.due + dueAfter _
      rw [hok]
      exact Nat.succ_pos _
  | tick => exact ⟨h.tracks, fun _ => Or.inr (Or.inl rfl)⟩
  | work input => exact h.worked (work_worked hmode input s)
  | timeout =>
    change Woken env known (timeout s)
    unfold timeout
    split
    · exact ⟨h.tracks, fun hwaits => by simp at hwaits⟩
    · exact h
  | shutdown => exact ⟨h.tracks, fun _ => Or.inr (Or.inl rfl)⟩

theorem Woken.run (h : Woken env known s) (hmode : config.mode ≠ Mode.validator)
    (actions : List Action) (hbrings : ∀ action ∈ actions, action.Brings known) :
    Woken env known (run env config overflowChecks s actions) := by
  induction actions generalizing s with
  | nil => exact h
  | cons action rest ih =>
    obtain ⟨hfirst, hrest⟩ := List.forall_mem_cons.mp hbrings
    exact ih (h.step hmode action hfirst) hrest

end Waking

section Settling

/-- The heights of the cache above another one. -/
def heightsAbove (cache : BlockCache) (k : ℕ) : Finset ℕ :=
  cache.blockHashHeights.keys.toFinset.filter fun height => k < height

theorem mem_heightsAbove (cache : BlockCache) (k height : ℕ) :
    height ∈ heightsAbove cache k ↔
      k < height ∧ ∃ x, cache.blockHashHeights.lookup height = some x := by
  unfold heightsAbove
  rw [Finset.mem_filter, List.mem_toFinset, ← AList.mem_keys, ← AList.lookup_isSome,
    Option.isSome_iff_exists]
  exact and_comm

theorem heightsAbove_confirm (cache : BlockCache) (k : ℕ) :
    heightsAbove (cache.confirm k) k = heightsAbove cache k := by
  ext height
  rw [mem_heightsAbove, mem_heightsAbove, confirm_lookup]
  refine and_congr_right fun habove => ?_
  rw [if_neg (by omega)]

theorem heightsAbove_remove (cache : BlockCache) (x : CryptoHash) (k : ℕ) :
    heightsAbove (cache.remove x) k ⊆ heightsAbove cache k := by
  intro height hmem
  obtain ⟨habove, y, hy⟩ := (mem_heightsAbove _ _ _).mp hmem
  exact (mem_heightsAbove _ _ _).mpr ⟨habove, y, (remove_sub x).2 height y hy⟩

section Next

variable {env : NodeEnv} {known : Block → Prop} {cache : BlockCache} (block : Block)
  (hheight : ∀ a b, known a → known b → a.hash env = b.hash env → a.height = b.height)
  (h : Tracks env known cache) (hnext : cache.getNextCommitBlock = some block)

include hheight h hnext

/-- Fewer heights are above the next block than above the confirmed one. -/
theorem heightsAbove_next :
    (heightsAbove cache block.height).card < (heightsAbove cache cache.height).card := by
  obtain ⟨-, hblock, hlookup, -⟩ := h.next hheight block hnext
  refine Finset.card_lt_card ((Finset.ssubset_iff_of_subset ?_).mpr ⟨cache.height + 1, ?_, ?_⟩)
  · intro height hmem
    obtain ⟨habove, hfound⟩ := (mem_heightsAbove _ _ _).mp hmem
    exact (mem_heightsAbove _ _ _).mpr ⟨by omega, hfound⟩
  · exact (mem_heightsAbove _ _ _).mpr ⟨by omega, _, hlookup⟩
  · intro hmem
    have habove := ((mem_heightsAbove _ _ _).mp hmem).1
    omega

theorem heightsAbove_remove_next :
    (heightsAbove (cache.remove (block.hash env)) cache.height).card <
      (heightsAbove cache cache.height).card := by
  obtain ⟨-, hblock, hlookup, hcached⟩ := h.next hheight block hnext
  refine Finset.card_lt_card ((Finset.ssubset_iff_of_subset (heightsAbove_remove _ _ _)).mpr
    ⟨cache.height + 1, (mem_heightsAbove _ _ _).mpr ⟨by omega, _, hlookup⟩, ?_⟩)
  intro hmem
  obtain ⟨-, x, hx⟩ := (mem_heightsAbove _ _ _).mp hmem
  have hgone := remove_lookup_self (block.hash env) block hcached
  rw [hblock] at hgone
  rw [hgone] at hx
  cases hx

end Next

open Classical in
/-- The steps that a worker alone may still take. A block that it holds is the next one of the
cache, unless another task has replaced it since. -/
noncomputable def weight (s : State D) : ℕ :=
  let cache := s.node.blockCache
  let pending := (heightsAbove cache cache.height).card
  (if s.permit = true then 8 else 0) +
    match s.phase with
    | .starting => 4 * pending + 3
    | .looping => 4 * pending + 2
    | .taken block =>
        if cache.getNextCommitBlock = some block then 4 * pending + 1
        else 4 * (pending + (heightsAbove cache block.height).card) + 5
    | .accepted block =>
        if cache.getNextCommitBlock = some block then 4 * pending
        else 4 * (heightsAbove cache block.height).card + 4
    | .refused block =>
        if cache.getNextCommitBlock = some block then 4 * pending else 4 * pending + 3
    | .confirmed _ _ => 4 * pending + 3
    | .checking => 4 * pending + 1
    | .waiting _ => 4 * pending
    | .failed => 4 * pending
    | .stopped => 0
    | .ended => 0

section Weights

variable {env : NodeEnv} {known : Block → Prop} {s : State D} (block : Block)
  (hheight : ∀ a b, known a → known b → a.hash env = b.hash env → a.height = b.height)
  (h : Tracks env known s.node.blockCache)

include hheight h

/-- A block that is refused leaves the cache, or has left it before. -/
theorem weight_remove (hphase : s.phase = .refused block) :
    weight { s with
      node := { s.node with blockCache := s.node.blockCache.remove (block.hash env) }
      phase := .looping } < weight s := by
  by_cases hnext : s.node.blockCache.getNextCommitBlock = some block
  · have hfewer := heightsAbove_remove_next block hheight h hnext
    simp only [weight, hphase, hnext, if_true, remove_height]
    omega
  · have hle := Finset.card_le_card (heightsAbove_remove s.node.blockCache (block.hash env)
      s.node.blockCache.height)
    simp only [weight, hphase, hnext, if_false, remove_height]
    omega

/-- A block that is confirmed raises the height of the cache, or has done so before. -/
theorem weight_confirm (io : CommitIo) (hphase : s.phase = .accepted block) :
    weight { s with
      node := { s.node with blockCache := s.node.blockCache.confirm block.height }
      phase := .confirmed block io } < weight s := by
  by_cases hnext : s.node.blockCache.getNextCommitBlock = some block
  · have hfewer := heightsAbove_next block hheight h hnext
    simp only [weight, hphase, hnext, if_true, confirm_height, heightsAbove_confirm]
    omega
  · simp only [weight, hphase, hnext, if_false, confirm_height, heightsAbove_confirm]
    omega

end Weights

/-- A worker that does not wait, or has a permit, is not settled. -/
theorem not_settled {s : State D} (h : s.phase ≠ .stopped ∧ s.phase ≠ .ended ∧
    ((∃ timed, s.phase = .waiting timed) ∨ s.phase = .failed → s.permit = true)) :
    ¬Settled s := by
  obtain ⟨hstopped, hended, hpermit⟩ := h
  rintro (⟨hnone, ⟨timed, htimed, -⟩ | hfailed⟩ | hphase | hphase)
  · rw [hpermit (Or.inl ⟨timed, htimed⟩)] at hnone
    cases hnone
  · rw [hpermit (Or.inr hfailed)] at hnone
    cases hnone
  · exact hstopped hphase
  · exact hended hphase

variable {env : NodeEnv} {config : Config} {known : Block → Prop} {s s' : State D}
  (hheight : ∀ a b, known a → known b → a.hash env = b.hash env → a.height = b.height)

include hheight

/-- A step of the worker lowers the weight, unless it is settled. -/
theorem Worked.lowers (hworked : Worked env config s s') (h : Woken env known s)
    (hdue : s.due = 0) : Settled s' ∨ ¬Settled s ∧ weight s' < weight s := by
  cases hworked with
  | tick phase hphase hnext =>
    rcases hnext with rfl | rfl
    · exact Or.inr ⟨not_settled (by simp [hphase]), by simp [weight, hphase]⟩
    · exact Or.inl (Or.inr (Or.inr rfl))
  | take block hphase hnext =>
    exact Or.inr ⟨not_settled (by simp [hphase]), by simp [weight, hphase, hnext]⟩
  | leave hphase hnext =>
    exact Or.inr ⟨not_settled (by simp [hphase]), by simp [weight, hphase]⟩
  | validate block validatorsForHeight hphase =>
    cases hresult : validateBlock env config validatorsForHeight block s.node.ledger with
    | ok u =>
      refine Or.inr ⟨not_settled (by simp [hphase]), ?_⟩
      by_cases hnext : s.node.blockCache.getNextCommitBlock = some block
      · simp [weight, hphase, afterValidate, hnext]
      · simp only [weight, hphase, afterValidate, hnext, if_false]
        omega
    | error failure =>
      cases failure with
      | panic => exact Or.inl (Or.inr (Or.inl rfl))
      | err e =>
        refine Or.inr ⟨not_settled (by simp [hphase]), ?_⟩
        by_cases hnext : s.node.blockCache.getNextCommitBlock = some block
        · simp [weight, hphase, afterValidate, hnext]
        · simp only [weight, hphase, afterValidate, hnext, if_false]
          omega
  | remove block hphase =>
    exact Or.inr ⟨not_settled (by simp [hphase]), weight_remove block hheight h.tracks hphase⟩
  | confirm block io hphase =>
    exact Or.inr ⟨not_settled (by simp [hphase]),
      weight_confirm block hheight h.tracks io hphase⟩
  | commit block io hphase =>
    cases hresult : (commitProposal env config.badBlocks io block s.node.ledger).2 with
    | ok u =>
      exact Or.inr ⟨not_settled (by simp [hphase]), by simp [weight, hphase, afterCommit]⟩
    | error failure =>
      cases failure with
      | panic => exact Or.inl (Or.inr (Or.inl rfl))
      | err e =>
        exact Or.inr ⟨not_settled (by simp [hphase]), by simp [weight, hphase, afterCommit]⟩
  | check phase hphase hnext =>
    rcases hnext with rfl | ⟨timed, rfl⟩
    · exact Or.inl (Or.inr (Or.inl rfl))
    · exact Or.inr ⟨not_settled (by simp [hphase]), by simp [weight, hphase]⟩
  | wake hphase hpermit =>
    rcases hphase with ⟨timed, htimed⟩ | hfailed
    · refine Or.inr ⟨not_settled (by simp [htimed, hpermit]), ?_⟩
      simp only [weight, htimed, hpermit, if_true]
      simp
      omega
    · refine Or.inr ⟨not_settled (by simp [hfailed, hpermit]), ?_⟩
      simp only [weight, hfailed, hpermit, if_true]
      simp
      omega
  | idle hphase =>
    left
    rcases hphase with ⟨⟨timed, htimed⟩ | hfailed, hpermit⟩ | hphase
    · rcases h.called (Or.inr ⟨timed, htimed⟩) with hnone | hcalled | hlate
      · exact Or.inl ⟨hpermit, Or.inl ⟨timed, htimed, hnone⟩⟩
      · rw [hpermit] at hcalled
        cases hcalled
      · omega
    · exact Or.inl ⟨hpermit, Or.inr hfailed⟩
    · exact Or.inr hphase

end Settling

/-- No call of the ticker is lost. However the worker and the tasks interleave, once the tasks
have made the calls that are due, the worker settles by itself: it waits, and then the cache has
no next block, unless the worker fails, panics or is ended. -/
theorem worker_settles (env : NodeEnv) (config : Config) (overflowChecks : Bool)
    (hmode : config.mode ≠ Mode.validator) (known : Block → Prop)
    (hheight : ∀ a b, known a → known b → a.hash env = b.hash env → a.height = b.height)
    (node : Node D) (htracks : Tracks env known node.blockCache) (actions : List Action)
    (hbrings : ∀ action ∈ actions, action.Brings known)
    (hdue : (run env config overflowChecks (start node) actions).due = 0) :
    let s := run env config overflowChecks (start node) actions
    ∃ steps, ∀ inputs : List TickInput, steps ≤ inputs.length →
      Settled (run env config overflowChecks s (inputs.map Action.work)) := by
  intro s
  have hstart : Woken env known (start node) := ⟨htracks, fun hwaits => by simp [start] at hwaits⟩
  have hwoken : Woken env known s := hstart.run hmode actions hbrings
  refine ⟨weight s + 1, fun inputs hlength => ?_⟩
  have hrun : run env config overflowChecks s (inputs.map Action.work) =
      inputs.foldl (fun s input => work env config overflowChecks input s) s :=
    List.foldl_map ..
  rw [hrun]
  refine final_of_measure _ (fun s => Woken env known s ∧ s.due = 0) Settled weight ?_ s
    ⟨hwoken, hdue⟩ inputs hlength
  rintro s input ⟨hs, hdue⟩
  have hworked : Worked env config s (work env config overflowChecks input s) :=
    work_worked hmode input s
  exact ⟨⟨hs.worked hworked, hworked.due_eq.trans hdue⟩, hworked.lowers hheight hs hdue⟩

/-- A first block comes in while the worker leaves its loop; its call of the ticker is not lost. -/
theorem worker_settles_first :
    let s := run signedEnv nodeConfig true (start genesisNode)
      [.work (tickWrites ⟨true, true⟩), .work (tickWrites ⟨true, true⟩),
        .receiveProposal (emptyChain 1), .work (tickWrites ⟨true, true⟩), .tick]
    s.phase = .waiting false ∧ ∃ steps, ∀ inputs : List TickInput, steps ≤ inputs.length →
      Settled (run signedEnv nodeConfig true s (inputs.map Action.work)) := by
  refine ⟨rfl, ?_⟩
  refine worker_settles signedEnv nodeConfig true (by decide)
    (fun block => ∃ k < 2 ^ 64, block = emptyChain k) ?_ genesisNode
    (tracks_new Block.genesis 10000 ⟨0, by norm_num, rfl⟩) _ ?_ rfl
  · exact emptyChain_distinct.heights_of_hash
  · intro action haction
    simp only [List.mem_cons, List.not_mem_nil, or_false] at haction
    rcases haction with rfl | rfl | rfl | rfl | rfl
    · exact trivial
    · exact trivial
    · exact ⟨1, by norm_num, rfl⟩
    · exact trivial
    · exact trivial

end PayyRollup.TickInterleavings
