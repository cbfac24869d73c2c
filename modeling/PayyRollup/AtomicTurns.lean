import PayyRollup.TickInterleavings

/-!
The turns of the background worker as if they happened at once. While the worker holds a block,
other tasks put blocks into the cache. What it commits is valid where it is committed all the
same, whatever comes in, and with the blocks of one chain the node gets where whole turns would
take it. A snapshot that comes in while the worker holds a block is left out in both: it changes
the tree that the block was validated on.
-/
namespace PayyRollup.AtomicTurns

open RollupState SmirkTree NodeBlocks BlockCaches BlockValidation BlockCommit FastSync SlowSync
  RunRefinement TickInterleavings
open NodeRuns hiding step run
open SmirkNode hiding Node

variable {D : ℕ}

section Committing

variable (env : NodeEnv) (config : Config) (overflowChecks : Bool) (known : Block → Prop)

/-- The node with a confirmed block committed. -/
def settledNode (self : State D) : Node D :=
  match self.phase with
  | .confirmed block io =>
      ⟨self.node.blockCache, (commitProposal env config.badBlocks io block self.node.ledger).1⟩
  | _ => self.node

/-- What changes the height and the ledger of a node. -/
inductive Change
  | commit (block : Block)
  | snapshotChunk (chunk : SnapshotChunkFast)

/-- A commit is of a block of the next height that is valid on the ledger before it. -/
inductive Lawful : ℕ × Ledger D → Change → ℕ × Ledger D → Prop
  | commit (height : ℕ) (ledger : Ledger D) (block : Block)
      (validatorsForHeight : ℕ → List Address) (io : CommitIo) : block.height = height + 1 →
      validateBlock env config validatorsForHeight block ledger = .ok () →
      Lawful (height, ledger) (.commit block)
        (height + 1, (commitProposal env config.badBlocks io block ledger).1)
  | snapshotChunk (node : Node D) (written : Bool) (chunk : SnapshotChunkFast) :
      Lawful (node.blockCache.height, node.ledger) (.snapshotChunk chunk)
        ((handleSnapshotChunkFast env config overflowChecks written chunk node).1.blockCache.height,
          (handleSnapshotChunkFast env config overflowChecks written chunk node).1.ledger)

/-- A snapshot stands for itself, and a step of the worker for at most a commit. -/
def Changes : Action → List Change → Prop
  | .snapshotChunk _ chunk, changes => changes = [.snapshotChunk chunk]
  | .work _, changes => changes = [] ∨ ∃ block, changes = [.commit block]
  | _, changes => changes = []

/-- The blocks are known ones, and no snapshot comes in while the worker holds a block. -/
def Undisturbed (known : Block → Prop) (s : State D) (action : Action) : Prop :=
  action.Brings known ∧ ((∃ written chunk, action = .snapshotChunk written chunk) → ¬s.phase.Holds)

/-- A block that the worker has taken is of the next height, and valid where it was accepted. -/
def PhaseChecked (env : NodeEnv) (config : Config) (node : Node D) : Phase → Prop
  | .taken block => block.height = node.blockCache.height + 1
  | .accepted block => block.height = node.blockCache.height + 1 ∧
      ∃ validatorsForHeight, validateBlock env config validatorsForHeight block node.ledger = .ok ()
  | _ => True

structure Checked (s : State D) : Prop where
  tracks : Tracks env known s.node.blockCache
  checked : PhaseChecked env config s.node s.phase

/-- The height of a node and its ledger once a confirmed block is committed. -/
def committed (self : State D) : ℕ × Ledger D :=
  (self.node.blockCache.height, (settledNode env config self).ledger)

variable {env config overflowChecks known} {s : State D}

theorem settledNode_of_not_confirmed (h : ∀ block io, s.phase ≠ .confirmed block io) :
    settledNode env config s = s.node := by
  unfold settledNode
  split
  · rename_i block io hphase
    exact absurd hphase (h block io)
  · rfl

theorem settledNode_of_not_holds (h : ¬s.phase.Holds) : settledNode env config s = s.node := by
  refine settledNode_of_not_confirmed fun block io hphase => ?_
  rw [hphase] at h
  exact h trivial

theorem settledNode_of_confirmed {block : Block} {io : CommitIo}
    (h : s.phase = .confirmed block io) : settledNode env config s =
      ⟨s.node.blockCache, (commitProposal env config.badBlocks io block s.node.ledger).1⟩ := by
  unfold settledNode
  rw [h]

theorem afterCommit_not_holds (result : Outcome Error Unit) : ¬(afterCommit result).Holds := by
  cases result with
  | ok u => exact id
  | error failure => cases failure <;> exact id

theorem checked_of_not_holds (node : Node D) (phase : Phase) (h : ¬phase.Holds) :
    PhaseChecked env config node phase := by
  cases phase with
  | taken block => exact absurd trivial h
  | accepted block => exact absurd trivial h
  | _ => exact trivial

theorem committed_of_not_confirmed (h : ∀ block io, s.phase ≠ .confirmed block io) :
    committed env config s = (s.node.blockCache.height, s.node.ledger) := by
  rw [committed, settledNode_of_not_confirmed h]

theorem committed_of_not_holds (h : ¬s.phase.Holds) :
    committed env config s = (s.node.blockCache.height, s.node.ledger) := by
  rw [committed, settledNode_of_not_holds h]

variable (hheight : ∀ a b, known a → known b → a.hash env = b.hash env → a.height = b.height)

include hheight in
theorem Checked.worked (h : Checked env config known s) {s' : State D}
    (hworked : Worked env config s s') : Checked env config known s' ∧
      ∃ changes, (changes = [] ∨ ∃ block, changes = [.commit block]) ∧
        Path (Lawful env config overflowChecks) (committed env config s) changes
          (committed env config s') := by
  have hchecked := h.checked
  cases hworked with
  | tick phase hphase hnext =>
    have hfree : ¬phase.Holds := by rcases hnext with rfl | rfl <;> exact id
    refine ⟨⟨h.tracks, checked_of_not_holds _ _ hfree⟩, [], Or.inl rfl, ?_⟩
    rw [committed_of_not_confirmed (by simp [hphase]), committed_of_not_holds hfree]
    exact .nil _
  | take block hphase hnext =>
    obtain ⟨-, hblock, -⟩ := h.tracks.next hheight block hnext
    refine ⟨⟨h.tracks, hblock⟩, [], Or.inl rfl, ?_⟩
    rw [committed_of_not_confirmed (by simp [hphase])]
    exact .nil _
  | leave hphase hnext =>
    refine ⟨⟨h.tracks, trivial⟩, [], Or.inl rfl, ?_⟩
    rw [committed_of_not_confirmed (by simp [hphase])]
    exact .nil _
  | validate block validatorsForHeight hphase =>
    rw [hphase] at hchecked
    rw [committed_of_not_confirmed (by simp [hphase])]
    cases hresult : validateBlock env config validatorsForHeight block s.node.ledger with
    | ok u =>
      exact ⟨⟨h.tracks, hchecked, validatorsForHeight, hresult⟩, [], Or.inl rfl, .nil _⟩
    | error failure =>
      cases failure with
      | panic => exact ⟨⟨h.tracks, trivial⟩, [], Or.inl rfl, .nil _⟩
      | err e => exact ⟨⟨h.tracks, trivial⟩, [], Or.inl rfl, .nil _⟩
  | remove block hphase =>
    refine ⟨⟨h.tracks.remove _, trivial⟩, [], Or.inl rfl, ?_⟩
    rw [committed_of_not_confirmed (by simp [hphase]), committed_of_not_confirmed (by simp),
      remove_height]
    exact .nil _
  | confirm block io hphase =>
    rw [hphase] at hchecked
    obtain ⟨hblock, validatorsForHeight, hvalid⟩ := hchecked
    refine ⟨⟨h.tracks.confirm _, trivial⟩, [.commit block], Or.inr ⟨block, rfl⟩, ?_⟩
    have hlawful : Lawful env config overflowChecks (s.node.blockCache.height, s.node.ledger)
        (.commit block) (s.node.blockCache.height + 1,
          (commitProposal env config.badBlocks io block s.node.ledger).1) :=
      .commit _ _ block validatorsForHeight io hblock hvalid
    have hafter : (s.node.blockCache.confirm block.height).height =
        s.node.blockCache.height + 1 := (confirm_height _).trans hblock
    rw [committed_of_not_confirmed (by simp [hphase])]
    refine .single ?_
    unfold committed settledNode
    dsimp only
    rw [hafter]
    exact hlawful
  | commit block io hphase =>
    have hfree := afterCommit_not_holds
      (commitProposal env config.badBlocks io block s.node.ledger).2
    refine ⟨⟨h.tracks, checked_of_not_holds _ _ hfree⟩, [], Or.inl rfl, ?_⟩
    rw [committed, settledNode_of_confirmed hphase, committed_of_not_holds hfree]
    exact .nil _
  | check phase hphase hnext =>
    have hfree : ¬phase.Holds := by rcases hnext with rfl | ⟨timed, rfl⟩ <;> exact id
    refine ⟨⟨h.tracks, checked_of_not_holds _ _ hfree⟩, [], Or.inl rfl, ?_⟩
    rw [committed_of_not_confirmed (by simp [hphase]), committed_of_not_holds hfree]
    exact .nil _
  | wake hphase hpermit =>
    refine ⟨⟨h.tracks, trivial⟩, [], Or.inl rfl, ?_⟩
    rw [committed_of_not_confirmed (by rcases hphase with ⟨timed, hwaits⟩ | hfailed <;> simp [*])]
    exact .nil _
  | idle hphase => exact ⟨h, [], Or.inl rfl, .nil _⟩

variable (hmode : config.mode ≠ Mode.validator)

include hmode

theorem Checked.receive (h : Checked env config known s) (block : Block) (hblock : known block) :
    let s' := step env config overflowChecks s (.receiveProposal block)
    Checked env config known s' ∧ committed env config s' = committed env config s := by
  intro s'
  have hs' : s' = { s with
      node := { s.node with blockCache := s.node.blockCache.insert env block }
      due := s.due + 1 } := by
    simp only [s', step, receiveProposal_of_mode hmode]
  have hsame : (s.node.blockCache.insert env block).height = s.node.blockCache.height :=
    insert_height _
  have hchecked := h.checked
  rw [hs']
  refine ⟨⟨h.tracks.insert block hblock, ?_⟩, ?_⟩
  · dsimp only
    generalize s.phase = phase at hchecked ⊢
    cases phase with
    | taken taken => exact Eq.trans hchecked (congrArg (· + 1) hsame.symm)
    | accepted accepted =>
      exact ⟨hchecked.1.trans (congrArg (· + 1) hsame.symm), hchecked.2⟩
    | _ => exact trivial
  · unfold committed settledNode
    dsimp only
    rw [hsame]
    generalize s.phase = phase
    cases phase <;> rfl

theorem Checked.snapshot (h : Checked env config known s) (written : Bool)
    (chunk : SnapshotChunkFast) (hfree : ¬s.phase.Holds)
    (hblock : ∀ block, chunk.block = some block → known block) :
    let s' := step env config overflowChecks s (.snapshotChunk written chunk)
    Checked env config known s' ∧ Lawful env config overflowChecks (committed env config s)
      (.snapshotChunk chunk) (committed env config s') := by
  intro s'
  have hfree' : ¬s'.phase.Holds := hfree
  rw [committed_of_not_holds hfree, committed_of_not_holds hfree']
  refine ⟨⟨?_, checked_of_not_holds _ _ hfree'⟩, .snapshotChunk s.node written chunk⟩
  change Tracks env known
    (handleSnapshotChunkFast env config overflowChecks written chunk s.node).1.blockCache
  rcases @handle_cache D env config overflowChecks hmode written chunk s.node with
    hsame | ⟨-, block, hfound, hinserted⟩
  · rw [hsame]
    exact h.tracks
  · rw [hinserted]
    exact (h.tracks.confirm _).insert block (hblock block hfound)

include hheight

/-- The steps of the worker and the tasks are matched by lawful commits. -/
theorem checked_simulates : Simulates (step (D := D) env config overflowChecks)
    (Lawful env config overflowChecks) (committed env config) (Checked env config known)
    (Undisturbed known) Changes := by
  refine .of_step fun s a h hquiet => ?_
  cases a with
  | receiveProposal block =>
    obtain ⟨hchecked, hsame⟩ := @Checked.receive D env config overflowChecks known s hmode h block
      hquiet.1
    refine ⟨hchecked, [], rfl, ?_⟩
    rw [hsame]
    exact .nil _
  | snapshotChunk written chunk =>
    obtain ⟨hchecked, hlawful⟩ := @Checked.snapshot D env config overflowChecks known s hmode h
      written chunk (hquiet.2 ⟨written, chunk, rfl⟩) hquiet.1
    exact ⟨hchecked, _, rfl, .single hlawful⟩
  | tick => exact ⟨⟨h.tracks, h.checked⟩, [], rfl, .nil _⟩
  | work input => exact h.worked hheight (work_worked hmode input s)
  | timeout =>
    change Checked env config known (timeout s) ∧ ∃ changes, _ ∧
      Path _ _ changes (committed env config (timeout s))
    unfold timeout
    split
    · rename_i hphase
      refine ⟨⟨h.tracks, trivial⟩, [], rfl, ?_⟩
      rw [committed_of_not_confirmed (s := s) (by simp [hphase])]
      exact .nil _
    · exact ⟨h, [], rfl, .nil _⟩
  | shutdown => exact ⟨⟨h.tracks, h.checked⟩, [], rfl, .nil _⟩

end Committing

/-- What the worker commits is valid where it is committed. However the worker and the tasks
interleave, and whatever blocks come in, as long as no snapshot comes in while the worker holds a
block, the height and the ledger come about by the snapshots and by commits of blocks of the next
height that are valid on the ledger they are applied to. -/
theorem commits_lawful (env : NodeEnv) (config : Config) (overflowChecks : Bool)
    (hmode : config.mode ≠ Mode.validator) (known : Block → Prop)
    (hheight : ∀ a b, known a → known b → a.hash env = b.hash env → a.height = b.height)
    (node : Node D) (htracks : Tracks env known node.blockCache) (actions : List Action)
    (hquiet : ∀ before action, before ++ [action] <+: actions →
      Undisturbed known (run env config overflowChecks (start node) before) action) :
    let s := run env config overflowChecks (start node) actions
    ∃ changes, List.Forall₂ Changes actions changes ∧
      Path (Lawful env config overflowChecks) (node.blockCache.height, node.ledger)
        changes.flatten (committed env config s) := by
  intro s
  obtain ⟨-, changes, hchanges, hpath⟩ := (checked_simulates hheight hmode).run
    (s := start node) ⟨htracks, trivial⟩ actions hquiet
  exact ⟨changes, hchanges, hpath⟩

/-- A block of the next height comes in twice while it is committed. -/
def doubled : List Action :=
  [.receiveProposal (emptyChain 1), .work (tickWrites ⟨true, true⟩),
    .work (tickWrites ⟨true, true⟩), .receiveProposal (emptyChain 1),
    .work (tickWrites ⟨true, true⟩), .work (tickWrites ⟨true, true⟩),
    .work (tickWrites ⟨true, true⟩)]

theorem commits_lawful_doubled :
    let s := run signedEnv nodeConfig true (start genesisNode) doubled
    s.node.blockCache.height = 1 ∧ ∃ changes, List.Forall₂ Changes doubled changes ∧
      Path (Lawful signedEnv nodeConfig true) (0, genesisNode.ledger) changes.flatten
        (committed signedEnv nodeConfig s) := by
  refine ⟨by decide, ?_⟩
  refine commits_lawful signedEnv nodeConfig true (by decide)
    (fun block => ∃ k < 2 ^ 64, block = emptyChain k) ?_ genesisNode
    (tracks_new Block.genesis 10000 ⟨0, by norm_num, rfl⟩) doubled ?_
  · exact emptyChain_distinct.heights_of_hash
  · simp only [doubled, PrefixRuns.forall_prefix_cons, PrefixRuns.forall_prefix_nil, and_true,
      Undisturbed, Action.Brings, true_and, reduceCtorEq, exists_false, false_implies]
    exact ⟨⟨1, by norm_num, rfl⟩, ⟨1, by norm_num, rfl⟩⟩

section Turns

variable (env : NodeEnv) (config : Config) (overflowChecks : Bool) (chain : ℕ → Block)

/-- What changes a node, with the turns of its worker happening at once. -/
inductive Deed
  | receiveProposal (block : Block)
  | snapshotChunk (written : Bool) (chunk : SnapshotChunkFast)
  | turn (validatorsForHeight : ℕ → List Address) (io : CommitIo)

def perform (self : Node D) : Deed → Node D
  | .receiveProposal block => NodeRuns.receiveProposal env config block self
  | .snapshotChunk written chunk =>
      (handleSnapshotChunkFast env config overflowChecks written chunk self).1
  | .turn validatorsForHeight io => (commitNext env config validatorsForHeight io self).1

/-- A proposal and a snapshot stand for themselves, and a step of the worker for at most a turn. -/
def Shows : Action → List Deed → Prop
  | .receiveProposal block, deeds => deeds = [.receiveProposal block]
  | .snapshotChunk written chunk, deeds => deeds = [.snapshotChunk written chunk]
  | .work _, deeds => deeds = [] ∨ ∃ validatorsForHeight io, deeds = [.turn validatorsForHeight io]
  | _, deeds => deeds = []

/-- All blocks are of the chain, and no snapshot comes in while the worker holds a block. -/
def Fair (chain : ℕ → Block) (s : State D) : Action → Prop
  | .receiveProposal block => ∃ k < 2 ^ 64, block = chain k
  | .snapshotChunk _ chunk => ¬s.phase.Holds ∧
      ∀ block, chunk.block = some block → ∃ k < 2 ^ 64, block = chain k
  | _ => True

/-- The block that a worker holds is still the next one, and validated as it was. -/
def PhaseCurrent (env : NodeEnv) (config : Config) (node : Node D) : Phase → Prop
  | .taken block => node.blockCache.getNextCommitBlock = some block
  | .refused block => node.blockCache.getNextCommitBlock = some block ∧
      ∃ validatorsForHeight e,
        validateBlock env config validatorsForHeight block node.ledger = .error (.err e)
  | .accepted block => node.blockCache.getNextCommitBlock = some block ∧
      ∃ validatorsForHeight, validateBlock env config validatorsForHeight block node.ledger = .ok ()
  | _ => True

/-- A node with the blocks of one chain, whose cache has room for the next one. -/
structure Steady (s : State D) : Prop where
  carries : Carries env chain s.node.blockCache
  room : 3 ≤ s.node.blockCache.maxCacheSize
  current : PhaseCurrent env config s.node s.phase

variable {env config overflowChecks chain} {s : State D}

theorem current_of_not_holds (node : Node D) (phase : Phase) (h : ¬phase.Holds) :
    PhaseCurrent env config node phase := by
  cases phase with
  | taken block => exact absurd trivial h
  | refused block => exact absurd trivial h
  | accepted block => exact absurd trivial h
  | _ => exact trivial

/-- The next block stays when another one of the chain comes in. -/
theorem next_insert (hdistinct : Distinct env chain) {cache : BlockCache}
    (h : Carries env chain cache) (hroom : 3 ≤ cache.maxCacheSize) (block : Block)
    (hnext : cache.getNextCommitBlock = some block) (k : ℕ) (hk : k < 2 ^ 64) :
    (cache.insert env (chain k)).getNextCommitBlock = some block := by
  have hcovers : Covers cache (cache.height + 1) := by
    intro j hj hle
    obtain ⟨x, hx, -⟩ := Option.bind_eq_some_iff.mp hnext
    exact ⟨x, by rw [show j = cache.height + 1 by omega]; exact hx⟩
  obtain ⟨hkept, -⟩ := h.insert_covers hdistinct k hk (cache.height + 1) hcovers (by omega)
  have hinserted := h.insert hdistinct k hk
  have hheight : (cache.insert env (chain k)).height = cache.height := insert_height _
  cases hafter : (cache.insert env (chain k)).getNextCommitBlock with
  | none =>
    have hle := hinserted.bound_le (cache.height + 1) hkept hafter
    omega
  | some other =>
    rw [hinserted.next other hafter, h.next block hnext, hheight]

theorem Steady.worked (h : Steady env config chain s) {s' : State D}
    (hworked : Worked env config s s') : Steady env config chain s' ∧
      ∃ deeds, (deeds = [] ∨ ∃ validatorsForHeight io, deeds = [.turn validatorsForHeight io]) ∧
        Path (fun node deed node' => perform env config overflowChecks node deed = node')
          (settledNode env config s) deeds (settledNode env config s') := by
  have hcurrent := h.current
  cases hworked with
  | tick phase hphase hnext =>
    have hfree : ¬phase.Holds := by rcases hnext with rfl | rfl <;> exact id
    refine ⟨⟨h.carries, h.room, current_of_not_holds _ _ hfree⟩, [], Or.inl rfl, ?_⟩
    rw [settledNode_of_not_holds (by rw [hphase]; exact id), settledNode_of_not_holds hfree]
    exact .nil _
  | take block hphase hnext =>
    refine ⟨⟨h.carries, h.room, hnext⟩, [], Or.inl rfl, ?_⟩
    rw [settledNode_of_not_holds (by rw [hphase]; exact id)]
    exact .nil _
  | leave hphase hnext =>
    refine ⟨⟨h.carries, h.room, trivial⟩, [], Or.inl rfl, ?_⟩
    rw [settledNode_of_not_holds (by rw [hphase]; exact id)]
    exact .nil _
  | validate block validatorsForHeight hphase =>
    rw [hphase] at hcurrent
    have hbefore : settledNode env config s = s.node :=
      settledNode_of_not_confirmed (by simp [hphase])
    rw [hbefore]
    cases hresult : validateBlock env config validatorsForHeight block s.node.ledger with
    | ok u =>
      exact ⟨⟨h.carries, h.room, hcurrent, validatorsForHeight, hresult⟩, [], Or.inl rfl, .nil _⟩
    | error failure =>
      cases failure with
      | panic => exact ⟨⟨h.carries, h.room, trivial⟩, [], Or.inl rfl, .nil _⟩
      | err e =>
        exact ⟨⟨h.carries, h.room, hcurrent, validatorsForHeight, e, hresult⟩, [], Or.inl rfl,
          .nil _⟩
  | remove block hphase =>
    rw [hphase] at hcurrent
    obtain ⟨hnext, validatorsForHeight, e, hinvalid⟩ := hcurrent
    have hbefore : settledNode env config s = s.node :=
      settledNode_of_not_confirmed (by simp [hphase])
    have hturn : (commitNext env config validatorsForHeight ⟨true, true⟩ s.node).1 =
        { s.node with blockCache := s.node.blockCache.remove (block.hash env) } := by
      simp only [commitNext, hnext, hinvalid]
    refine ⟨⟨h.carries.remove _, (remove_maxCacheSize _).symm ▸ h.room, trivial⟩,
      [.turn validatorsForHeight ⟨true, true⟩], Or.inr ⟨_, _, rfl⟩, ?_⟩
    rw [hbefore]
    exact .single hturn
  | confirm block io hphase =>
    rw [hphase] at hcurrent
    obtain ⟨hnext, validatorsForHeight, hvalid⟩ := hcurrent
    have hbefore : settledNode env config s = s.node :=
      settledNode_of_not_confirmed (by simp [hphase])
    have hturn : (commitNext env config validatorsForHeight io s.node).1 =
        ⟨s.node.blockCache.confirm block.height,
          (commitProposal env config.badBlocks io block s.node.ledger).1⟩ := by
      simp only [commitNext, hnext, hvalid]
    have hsize : (s.node.blockCache.confirm block.height).maxCacheSize =
        s.node.blockCache.maxCacheSize := (h.carries.agrees.confirm block.height).2.2
    refine ⟨⟨h.carries.confirm _, hsize ▸ h.room, trivial⟩, [.turn validatorsForHeight io],
      Or.inr ⟨_, _, rfl⟩, ?_⟩
    rw [hbefore]
    exact .single hturn
  | commit block io hphase =>
    have hfree := afterCommit_not_holds
      (commitProposal env config.badBlocks io block s.node.ledger).2
    refine ⟨⟨h.carries, h.room, current_of_not_holds _ _ hfree⟩, [], Or.inl rfl, ?_⟩
    rw [settledNode_of_confirmed hphase, settledNode_of_not_holds hfree]
    exact .nil _
  | check phase hphase hnext =>
    have hfree : ¬phase.Holds := by rcases hnext with rfl | ⟨timed, rfl⟩ <;> exact id
    refine ⟨⟨h.carries, h.room, current_of_not_holds _ _ hfree⟩, [], Or.inl rfl, ?_⟩
    rw [settledNode_of_not_holds (by rw [hphase]; exact id), settledNode_of_not_holds hfree]
    exact .nil _
  | wake hphase hpermit =>
    refine ⟨⟨h.carries, h.room, trivial⟩, [], Or.inl rfl, ?_⟩
    rw [settledNode_of_not_confirmed
      (by rcases hphase with ⟨timed, hwaits⟩ | hfailed <;> simp [*])]
    exact .nil _
  | idle hphase => exact ⟨h, [], Or.inl rfl, .nil _⟩

variable (hdistinct : Distinct env chain) (hmode : config.mode ≠ Mode.validator)

include hdistinct hmode

theorem Steady.receive (h : Steady env config chain s) (k : ℕ) (hk : k < 2 ^ 64) :
    let s' := step env config overflowChecks s (.receiveProposal (chain k))
    Steady env config chain s' ∧ settledNode env config s' =
      NodeRuns.receiveProposal env config (chain k) (settledNode env config s) := by
  intro s'
  have hs' : s' = { s with
      node := { s.node with blockCache := s.node.blockCache.insert env (chain k) }
      due := s.due + 1 } := by
    simp only [s', step, receiveProposal_of_mode hmode]
  have hnext : ∀ block, s.node.blockCache.getNextCommitBlock = some block →
      (s.node.blockCache.insert env (chain k)).getNextCommitBlock = some block :=
    fun block hblock => next_insert hdistinct h.carries h.room block hblock k hk
  have hcurrent := h.current
  rw [hs', receiveProposal_of_mode hmode]
  refine ⟨⟨h.carries.insert hdistinct k hk, (insert_maxCacheSize _).symm ▸ h.room, ?_⟩, ?_⟩
  · dsimp only
    generalize s.phase = phase at hcurrent ⊢
    cases phase with
    | taken block => exact hnext block hcurrent
    | refused block => exact ⟨hnext block hcurrent.1, hcurrent.2⟩
    | accepted block => exact ⟨hnext block hcurrent.1, hcurrent.2⟩
    | _ => exact trivial
  · unfold settledNode
    dsimp only
    generalize s.phase = phase
    cases phase <;> rfl

theorem Steady.snapshot (h : Steady env config chain s) (written : Bool)
    (chunk : SnapshotChunkFast) (hfree : ¬s.phase.Holds)
    (hblock : ∀ block, chunk.block = some block → ∃ k < 2 ^ 64, block = chain k) :
    let s' := step env config overflowChecks s (.snapshotChunk written chunk)
    Steady env config chain s' ∧ settledNode env config s' =
      (handleSnapshotChunkFast env config overflowChecks written chunk
        (settledNode env config s)).1 := by
  intro s'
  have hphase : s'.phase = s.phase := rfl
  have hfree' : ¬s'.phase.Holds := hfree
  rw [settledNode_of_not_holds hfree, settledNode_of_not_holds hfree']
  refine ⟨?_, rfl⟩
  have hcache : s'.node.blockCache = (handleSnapshotChunkFast env config overflowChecks written
    chunk s.node).1.blockCache := rfl
  rcases @handle_cache D env config overflowChecks hmode written chunk s.node with
    hsame | ⟨-, block, hfound, hinserted⟩
  · rw [hsame] at hcache
    exact ⟨hcache ▸ h.carries, hcache ▸ h.room, current_of_not_holds _ _ hfree'⟩
  · obtain ⟨k, hk, rfl⟩ := hblock block hfound
    rw [hinserted] at hcache
    have hsize := (h.carries.agrees.confirm (NodeRecovery.previousHeight (chain k).height)).2.2
    refine ⟨hcache ▸ (h.carries.confirm _).insert hdistinct k hk, ?_,
      current_of_not_holds _ _ hfree'⟩
    rw [hcache, insert_maxCacheSize, hsize]
    exact h.room

/-- The steps of the worker and the tasks are matched by whole turns. -/
theorem steady_simulates : Simulates (step (D := D) env config overflowChecks)
    (fun node deed node' => perform env config overflowChecks node deed = node')
    (settledNode env config) (Steady env config chain) (Fair chain) Shows := by
  refine .of_step fun s a h hfair => ?_
  cases a with
  | receiveProposal block =>
    obtain ⟨k, hk, rfl⟩ := hfair
    obtain ⟨hsteady, hnode⟩ := @Steady.receive D env config overflowChecks chain s hdistinct hmode
      h k hk
    exact ⟨hsteady, _, rfl, .single hnode.symm⟩
  | snapshotChunk written chunk =>
    obtain ⟨hsteady, hnode⟩ := @Steady.snapshot D env config overflowChecks chain s hdistinct
      hmode h written chunk hfair.1 hfair.2
    exact ⟨hsteady, _, rfl, .single hnode.symm⟩
  | tick => exact ⟨⟨h.carries, h.room, h.current⟩, [], rfl, .nil _⟩
  | work input => exact h.worked (work_worked hmode input s)
  | timeout =>
    refine ⟨?_, [], rfl, ?_⟩
    · change Steady env config chain (timeout s)
      unfold timeout
      split
      · exact ⟨h.carries, h.room, trivial⟩
      · exact h
    · change Path _ _ _ (settledNode env config (timeout s))
      unfold timeout
      split
      · rename_i hphase
        rw [settledNode_of_not_holds (s := s) (by rw [hphase]; exact id)]
        exact .nil _
      · exact .nil _
  | shutdown => exact ⟨⟨h.carries, h.room, h.current⟩, [], rfl, .nil _⟩

end Turns

/-- With the blocks of one chain the turns may be taken to happen at once. However the worker and
the tasks interleave, as long as no snapshot comes in while the worker holds a block, the node
gets where the proposals and the snapshots in their order take it, with whole turns between. -/
theorem turns_at_once (env : NodeEnv) (config : Config) (chain : ℕ → Block)
    (hdistinct : Distinct env chain) (hmode : config.mode ≠ Mode.validator)
    (overflowChecks : Bool) (node : Node D) (hcarries : Carries env chain node.blockCache)
    (hroom : 3 ≤ node.blockCache.maxCacheSize) (actions : List Action)
    (hfair : ∀ before action, before ++ [action] <+: actions →
      Fair chain (run env config overflowChecks (start node) before) action) :
    let s := run env config overflowChecks (start node) actions
    ∃ deeds, List.Forall₂ Shows actions deeds ∧
      settledNode env config s = deeds.flatten.foldl (perform env config overflowChecks) node := by
  intro s
  obtain ⟨-, deeds, hshows, hpath⟩ := (steady_simulates hdistinct hmode).run
    (s := start node) ⟨hcarries, hroom, trivial⟩ actions hfair
  exact ⟨deeds, hshows, hpath.foldl⟩

theorem turns_at_once_doubled :
    let s := run signedEnv nodeConfig true (start genesisNode) doubled
    s.node.blockCache.height = 1 ∧ ∃ deeds, List.Forall₂ Shows doubled deeds ∧
      settledNode signedEnv nodeConfig s =
        deeds.flatten.foldl (perform signedEnv nodeConfig true) genesisNode := by
  refine ⟨by decide, ?_⟩
  refine turns_at_once signedEnv nodeConfig emptyChain emptyChain_distinct (by decide) true
    genesisNode genesisNode_synced.carries (by decide) doubled ?_
  simp only [doubled, PrefixRuns.forall_prefix_cons, PrefixRuns.forall_prefix_nil, and_true]
  exact ⟨⟨1, by norm_num, rfl⟩, trivial, trivial, ⟨1, by norm_num, rfl⟩, trivial, trivial, trivial⟩

end PayyRollup.AtomicTurns
