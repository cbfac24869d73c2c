import PayyRollup.PrefixRuns
import PayyRollup.ProverStartup

/-!
The runs of a node with its prover worker. A worker that is up to date handles the next block of
the commit stream whether it is empty, rolled up or to be proved; the stream passes over the
blocks that a fast snapshot skipped, which must bring nothing new to the tree. Wherever the worker
streams, its tree has the leaves of the blocks up to the last seen one, the block that the stream
delivers next has new leaves and is applied, and every block that is not rolled up was handled or
is yet to come. This holds along the runs in which every start of the worker finds the missing
elements covered by marked ones, fast snapshots are of blocks that are rolled up, and none brings
elements to the node while the worker streams.
-/
namespace PayyRollup.ProverRecovery

open ScalarField SparseMerkle ElementHash VerifierContracts SmirkTree SmirkValues NodeBlocks
  BlockCaches BlockValidation BlockCommit ProverBatch RollupProver ProverWorker FastSync ChainHistory
open Aggregation (SnarkVerifier)
open NodeRuns (Config)
open SmirkNode hiding Node

section Handling

variable {D : ℕ} {Accumulator : Type} {env : NodeEnv} {config : Config} {chain : ℕ → Block}

/-- What handling a block of the chain comes to: the worker is at the block and remembers it, or
it stops and remembers what it did before. -/
def Handled (env : NodeEnv) (badBlocks : List ℕ) (chain : ℕ → Block) (height : ℕ)
    (db : ProverDb) (handled : Worker D × Outcome ProverWorker.Error Unit) : Prop :=
  (handled.2 = .ok () ∧ Tracked env badBlocks chain handled.1.notesTree height ∧
    handled.1.db.lastSeenBlock = some ⟨height, (chain height).rootHash⟩) ∨
    ((∃ e, handled.2 = .error e) ∧ Kept env badBlocks chain handled.1 ∧
      handled.1.db.lastSeenBlock = db.lastSeenBlock)

theorem handled_of_seeBlock (worker : Worker D) (height : ℕ)
    (hheight : (chain height).height = height) (io : WorkerIo)
    (h : Tracked env config.badBlocks chain worker.notesTree height)
    (hrecorded : Recorded D env config.badBlocks chain worker.db) (db : ProverDb)
    (hdb : worker.db.lastSeenBlock = db.lastSeenBlock) :
    Handled env config.badBlocks chain height db (seeBlock io (chain height) worker) := by
  unfold seeBlock
  split
  · exact Or.inr ⟨⟨_, rfl⟩, ⟨⟨_, height, rfl, h⟩, hrecorded⟩, hdb⟩
  · refine Or.inl ⟨rfl, h, ?_⟩
    change some _ = some _
    rw [hheight]

variable {worker : Worker D} {height : ℕ} (hchain : Finalized D config.badBlocks chain env)

include hchain

/-- A block without transactions adds no leaves. -/
theorem Tracked.skip (h : Tracked env config.badBlocks chain worker.notesTree height)
    (hempty : (chain (height + 1)).content.state.txns.isEmpty = true) :
    Tracked env config.badBlocks chain worker.notesTree (height + 1) := by
  refine h.congr hchain fun e => ?_
  have hnone : (chain (height + 1)).content.state.leavesNonNull = [] := by
    rw [List.isEmpty_iff] at hempty
    rw [BlockState.leavesNonNull, BlockState.leaves, hempty]
    rfl
  rw [leavesUpTo, List.mem_append, mem_addedLeaves, hnone]
  simp

variable (hD : D ≤ 257) (h : Tracked env config.badBlocks chain worker.notesTree height)
  (hrecorded : Recorded D env config.badBlocks chain worker.db) (io : WorkerIo)

include hD h hrecorded

/-- A proof of the next block is kept with its leaves, or the worker stops before it remembers
the block. -/
theorem keepProof_handled (hgood : height + 1 ∉ config.badBlocks) (nextCommit : Block)
    (proof : RollupProof Bytes) :
    Handled env config.badBlocks chain (height + 1) worker.db
      (keepProof env io (chain (height + 1)) nextCommit proof worker) := by
  have hkept : Kept env config.badBlocks chain worker := ⟨⟨_, height, rfl, h⟩, hrecorded⟩
  have hheight := hchain.height_eq (height + 1)
  have happly := h.applyBlockToTree hchain hD io.schedule io.treeWritten
  rw [decide_eq_false hgood] at happly
  unfold keepProof
  dsimp only
  rw [hheight]
  split
  · exact Or.inr ⟨⟨_, rfl⟩, hkept, rfl⟩
  · split
    · exact Or.inr ⟨⟨_, rfl⟩, hkept, rfl⟩
    · rcases happly with ⟨hok, htracked⟩ | ⟨⟨e, herror⟩, hdb, -⟩
      · simp only [hok]
        split
        · exact Or.inr ⟨⟨_, rfl⟩, ⟨⟨_, height + 1, rfl, htracked⟩, hrecorded⟩, rfl⟩
        · have hroot := htracked.rootHash_eq.trans (hchain.root_eq height).symm
          rw [if_neg (not_not.mpr hroot.symm)]
          exact Or.inl ⟨rfl, htracked, rfl⟩
      · simp only [herror]
        exact Or.inr ⟨⟨_, rfl⟩, ⟨⟨_, height, hdb.symm, h⟩, hrecorded⟩, rfl⟩

/-- The worker handles the next block of the chain. -/
theorem handleCommit_handled (V : SnarkVerifier Bytes Accumulator) (S : ProofSystem Bytes)
    (contractHeight : ℕ) (ours : Bool) (nextCommit : Block) :
    Handled env config.badBlocks chain (height + 1) worker.db
      (handleCommit env V S config.badBlocks contractHeight ours io (chain (height + 1))
        nextCommit worker) := by
  have hkept : Kept env config.badBlocks chain worker := ⟨⟨_, height, rfl, h⟩, hrecorded⟩
  have hheight := hchain.height_eq (height + 1)
  have happly := h.applyBlockToTree hchain hD io.schedule io.treeWritten
  unfold handleCommit
  split
  · rename_i hempty
    exact handled_of_seeBlock worker _ hheight io (h.skip hchain hempty) hrecorded worker.db rfl
  · dsimp only
    rw [hheight]
    split
    · rcases happly with ⟨hok, htracked⟩ | ⟨⟨e, herror⟩, hdb, -⟩
      · simp only [hok]
        exact handled_of_seeBlock ⟨worker.db, _⟩ _ hheight io htracked hrecorded worker.db rfl
      · simp only [herror]
        exact Or.inr ⟨⟨_, rfl⟩, ⟨⟨_, height, hdb.symm, h⟩, hrecorded⟩, rfl⟩
    · rename_i hours
      have hgood : height + 1 ∉ config.badBlocks := fun hbad => hours
        (Or.inr (Or.inl (decide_eq_true hbad)))
      unfold proveCommit
      dsimp only
      split
      · split
        · exact Or.inr ⟨⟨_, rfl⟩, hkept, rfl⟩
        · exact keepProof_handled hchain hD h hrecorded io hgood nextCommit _
      · exact Or.inr ⟨⟨_, rfl⟩, hkept, rfl⟩

end Handling

variable {D : ℕ} {Accumulator : Type} (env : NodeEnv) (config : Config)

section Handled

variable (V : SnarkVerifier Bytes Accumulator) (S : ProofSystem Bytes) (overflowChecks : Bool)

/-- The height of the block that the worker handles in a step. -/
def handledBy (s : System D) : Event → List ℕ
  | .deliver ours io nextCommit =>
      match s.phase with
      | .streaming contractHeight nextHeight =>
          match nextBlock s.node.blockStore nextHeight with
          | none => []
          | some commit =>
              match (handleCommit env V S config.badBlocks contractHeight ours io commit
                nextCommit s.worker).2 with
              | .ok () => [commit.height]
              | .error _ => []
      | _ => []
  | _ => []

/-- The heights of the blocks that the worker handles in a run. -/
def handledIn (s : System D) : List Event → List ℕ
  | [] => []
  | event :: events => handledBy env config V S s event ++
      handledIn (step env config V S overflowChecks s event) events

theorem handledIn_concat (s : System D) (events : List Event) (event : Event) :
    handledIn env config V S overflowChecks s (events ++ [event]) =
      handledIn env config V S overflowChecks s events ++
        handledBy env config V S (run env config V S overflowChecks s events) event := by
  induction events generalizing s with
  | nil => simp [handledIn, run]
  | cons first events ih =>
    rw [List.cons_append, handledIn, ih, handledIn, List.append_assoc]
    rfl

end Handled

/-- A node at genesis, and a worker without a tree or a last seen block. -/
def fresh (D contractHeight : ℕ) : System D where
  node := ⟨⟨BlockCache.new env Block.genesis 10000, freshLedger D⟩, fun _ => 0⟩
  contractHeight := contractHeight
  worker := ⟨⟨none, fun _ => none⟩, SmirkStorage.Persistent.new D SmirkMetadata⟩
  phase := .stopped

variable (chain : ℕ → Block)

/-- What is promised of a worker that streams from a height on: it is up to date with the block
below, the blocks to come have new leaves, the next one is applied, and no block that is not
rolled up is passed over. -/
structure Synchronised (s : System D) (nextHeight : ℕ) (handled : List ℕ) : Prop where
  up_to_date : ∃ last, last.height + 1 = nextHeight ∧
    UpToDate env config.badBlocks chain s.worker last
  new_leaves : ∀ height block, nextHeight ≤ height → s.node.blockStore.get height = some block →
    height ∉ config.badBlocks → ∀ leaf ∈ block.content.state.leavesNonNull,
      s.worker.notesTree.tree.keyed.containsElement leaf = false
  applied : ∀ commit, nextBlock s.node.blockStore nextHeight = some commit →
    ∀ schedule, (applyBlockToTree env.poseidon schedule s.worker.notesTree commit.content.state
      commit.height (decide (commit.height ∈ config.badBlocks)) true).2 = .ok ()
  unskipped : ∀ height, s.contractHeight < height → height ≤ s.node.height →
    (height < nextHeight ∧ height ∈ handled) ∨
      (nextHeight ≤ height ∧ s.node.blockStore.get height = some (chain height))

/-- A fast snapshot of a rolled-up block, which brings nothing new while the worker streams. -/
def QuietSync (s : System D) (chunk : SnapshotChunkFast) : Prop :=
  ∀ block, chunk.block = some block → block.height ≤ s.contractHeight ∧
    ∀ contractHeight nextHeight, s.phase = .streaming contractHeight nextHeight →
      ∀ e ∈ chunk.elements, e ∈ block.content.state.leavesNonNull ∨
        s.node.notesTree.tree.containsElement e = true

/-- The steps of a node on the chain and a worker that starts where the missing elements are
covered. -/
def Benign (s : System D) : Event → Prop
  | .node event => OnChain env config chain s.node event ∧
      ∀ chunk, event = .fastSync chunk → QuietSync s chunk
  | .synchronise _ => ∀ contractHeight, s.phase = .waiting contractHeight →
      Covered config.badBlocks chain contractHeight s.node s.worker
  | _ => True

/-- What holds between the steps of such a run. -/
structure Safe (handled : List ℕ) (s : System D) : Prop where
  follows : Follows env config.badBlocks chain s.node
  skipped : ∀ height, Skipped s.node height → height ≤ s.contractHeight
  kept : Kept env config.badBlocks chain s.worker
  seen : ∀ block, s.worker.db.lastSeenBlock = some block →
    ∀ height, s.contractHeight < height → height ≤ block.height → height ∈ handled
  waiting : ∀ contractHeight, s.phase = .waiting contractHeight →
    contractHeight ≤ s.contractHeight ∧
      ∃ reached, Tracked env config.badBlocks chain s.worker.notesTree reached
  streaming : ∀ contractHeight nextHeight, s.phase = .streaming contractHeight nextHeight →
    ∃ last, last.height + 1 = nextHeight ∧ UpToDate env config.badBlocks chain s.worker last ∧
      ∀ height, Skipped s.node height → nextHeight ≤ height →
        ∀ e ∈ leavesUpTo config.badBlocks chain height,
          e ∈ leavesUpTo config.badBlocks chain (height - 1)

section Steps

variable {env config chain}

/-- The next block of the stream is the lowest stored one. -/
theorem nextBlock_some (store : BlockStore) (nextHeight : ℕ) (commit : Block)
    (h : nextBlock store nextHeight = some commit) :
    ∃ height, nextHeight ≤ height ∧ store.get height = some commit ∧
      ∀ below, nextHeight ≤ below → below < height → store.get below = none := by
  rw [nextBlock, BlockStore.list, List.head?_filterMap, List.findSome?_eq_some_iff] at h
  obtain ⟨before, height, after, hrange, hget, hnone⟩ := h
  have hmem : ∀ k, k ∈ before ++ height :: after ↔ nextHeight ≤ k ∧
      k < nextHeight + (store.maxHeight.getD 0 + 1 - nextHeight) := by
    intro k
    rw [← hrange, List.mem_range'_1]
  have hsorted : (before ++ height :: after).Pairwise (· < ·) := by
    rw [← hrange]
    exact List.pairwise_lt_range'
  obtain ⟨hfrom, hto⟩ := (hmem height).mp (List.mem_append_right _ List.mem_cons_self)
  refine ⟨height, hfrom, hget, fun below hbelow hlt => ?_⟩
  rcases List.mem_append.mp ((hmem below).mpr ⟨hbelow, by omega⟩) with hbefore | hafter
  · exact hnone below hbefore
  · rcases List.mem_cons.mp hafter with heq | hafter
    · omega
    · have hlater := (List.pairwise_cons.mp (List.pairwise_append.mp hsorted).2.1).1 below hafter
      omega

/-- Heights that bring nothing new leave the leaves as they are. -/
theorem leaves_stay (first : ℕ) (last : ℕ) (hle : first ≤ last)
    (hquiet : ∀ height, first < height → height ≤ last →
      ∀ e ∈ leavesUpTo config.badBlocks chain height,
        e ∈ leavesUpTo config.badBlocks chain (height - 1)) (e : Element) :
    e ∈ leavesUpTo config.badBlocks chain first ↔
      e ∈ leavesUpTo config.badBlocks chain last := by
  induction last, hle using Nat.le_induction with
  | base => rfl
  | succ last hle ih =>
    rw [ih fun height hfirst hlast => hquiet height hfirst (by omega)]
    constructor
    · exact leavesUpTo_mono _ _ (Nat.le_succ last) e
    · exact hquiet (last + 1) (by omega) le_rfl e

variable (hchain : Finalized D config.badBlocks chain env) {s : System D} {handled : List ℕ}
  (h : Safe env config chain handled s)

include hchain h

/-- The tree of a worker that streams has the leaves below the next block. -/
theorem Safe.below_next (contractHeight nextHeight : ℕ)
    (hphase : s.phase = .streaming contractHeight nextHeight) (commit : Block)
    (hnext : nextBlock s.node.blockStore nextHeight = some commit) :
    ∃ below, commit = chain (below + 1) ∧ nextHeight ≤ below + 1 ∧
      s.node.blockStore.get (below + 1) = some (chain (below + 1)) ∧
      (∀ height, nextHeight ≤ height → height ≤ below → Skipped s.node height) ∧
      Tracked env config.badBlocks chain s.worker.notesTree below := by
  obtain ⟨last, hlast, hdate, hquiet⟩ := h.streaming contractHeight nextHeight hphase
  obtain ⟨height, hfrom, hget, hnone⟩ := nextBlock_some _ _ _ hnext
  obtain ⟨hcommit, hpos⟩ := h.follows.shelved.block_eq height commit hget
  obtain ⟨below, rfl⟩ : ∃ below, height = below + 1 := ⟨height - 1, by omega⟩
  have hin := h.follows.below _ _ hget
  have hskipped : ∀ k, nextHeight ≤ k → k ≤ below → Skipped s.node k := fun k hk hkb =>
    ⟨by omega, by omega, hnone k hk (by omega)⟩
  refine ⟨below, hcommit, hfrom, hcommit ▸ hget, hskipped, ?_⟩
  refine hdate.tracked.congr hchain (leaves_stay last.height below (by omega) ?_)
  intro k hfirst hk
  exact hquiet k (hskipped k (by omega) hk) (by omega)

omit hchain in
/-- The blocks up to the last seen one that are not rolled up were handled. -/
theorem Safe.handled_below {last : LastSeenBlock}
    (hdate : UpToDate env config.badBlocks chain s.worker last) {height : ℕ}
    (hbeyond : s.contractHeight < height) (hle : height ≤ last.height) : height ∈ handled := by
  have hseen := hdate.seen
  cases hdb : s.worker.db.lastSeenBlock with
  | none =>
    rw [hdb] at hseen
    have hzero : last.height = 0 := hseen ▸ rfl
    omega
  | some block =>
    rw [hdb] at hseen
    obtain rfl : block = last := hseen
    exact h.seen block hdb height hbeyond hle

/-- A worker that streams in such a run keeps its promise. -/
theorem Safe.synchronised (hD : D ≤ 257) (contractHeight nextHeight : ℕ)
    (hphase : s.phase = .streaming contractHeight nextHeight) :
    Synchronised env config chain s nextHeight handled := by
  obtain ⟨last, hlast, hdate, -⟩ := h.streaming contractHeight nextHeight hphase
  refine ⟨⟨last, hlast, hdate⟩, ?_, ?_, ?_⟩
  · intro height block hfrom hget hgood leaf hleaf
    obtain ⟨rfl, hpos⟩ := h.follows.shelved.block_eq height block hget
    obtain ⟨below, rfl⟩ : ∃ below, height = below + 1 := ⟨height - 1, by omega⟩
    rw [← Bool.not_eq_true, hdate.tracked.contains_iff hchain]
    intro hin
    exact hchain.fresh below hgood leaf hleaf (leavesUpTo_mono _ _ (by omega) leaf hin)
  · intro commit hnext schedule
    obtain ⟨below, rfl, -, -, -, htracked⟩ := h.below_next hchain _ _ hphase commit hnext
    rw [hchain.height_eq]
    rcases htracked.applyBlockToTree hchain hD schedule true with ⟨hok, -⟩ | ⟨-, -, hfalse⟩
    · exact hok
    · cases hfalse
  · intro height hbeyond hle
    by_cases hbefore : height < nextHeight
    · exact Or.inl ⟨hbefore, h.handled_below hdate hbeyond (by omega)⟩
    · refine Or.inr ⟨by omega, ?_⟩
      cases hget : s.node.blockStore.get height with
      | none =>
        have := h.skipped height ⟨by omega, hle, hget⟩
        omega
      | some block => rw [(h.follows.shelved.block_eq height block hget).1]

end Steps

section Events

variable {env config chain} (V : SnarkVerifier Bytes Accumulator) (S : ProofSystem Bytes)
  (overflowChecks : Bool) (hchain : Finalized D config.badBlocks chain env)
  {s : System D} {handled : List ℕ} (h : Safe env config chain handled s)

include hchain h

/-- The heights that a quiet snapshot skips bring nothing new. -/
theorem Safe.quiet_chunk (chunk : SnapshotChunkFast) (hquiet : QuietSync s chunk)
    (hon : OnChain env config chain s.node (.fastSync chunk)) (top : ℕ)
    (hblock : chunk.block = some (chain top)) (contractHeight nextHeight : ℕ)
    (hphase : s.phase = .streaming contractHeight nextHeight) (height : ℕ)
    (habove : s.node.height < height) (hbelow : height < top) :
    ∀ e ∈ leavesUpTo config.badBlocks chain height,
      e ∈ leavesUpTo config.badBlocks chain (height - 1) := by
  obtain ⟨top', hlater, hgood, hblock', hcomplete⟩ := hon
  have htop : top' = top := by
    have hsame := Option.some.inj (hblock'.symm.trans hblock)
    rw [← hchain.height_eq top', hsame, hchain.height_eq]
  subst htop
  obtain ⟨below, rfl⟩ : ∃ below, top' = below + 1 := ⟨top' - 1, by omega⟩
  have hnode : ∀ e, s.node.notesTree.tree.containsElement e = true →
      e ∈ leavesUpTo config.badBlocks chain (height - 1) := fun e hin =>
    leavesUpTo_mono _ _ (by omega) e ((h.follows.contains_iff hchain e).mp hin)
  intro e he
  rcases (hcomplete e).mp (leavesUpTo_mono _ _ hbelow.le e he) with hchunk | hin
  · rcases (hquiet _ hblock).2 contractHeight nextHeight hphase e hchunk with hleaf | hin
    · exact absurd (leavesUpTo_mono _ _ (by omega) e he) (hchain.fresh below hgood e hleaf)
    · exact hnode e hin
  · exact hnode e hin

theorem Safe.node (happart : RootsApart D config.badBlocks chain env) (event : NodeEvent)
    (hon : OnChain env config chain s.node event)
    (hquiet : ∀ chunk, event = .fastSync chunk → QuietSync s chunk) :
    Safe env config chain handled (step env config V S overflowChecks s (.node event)) := by
  obtain ⟨hfollows, hskips⟩ := h.follows.step hchain happart overflowChecks event hon
  have hphase : ∀ contractHeight nextHeight,
      phaseAfter s.phase event = .streaming contractHeight nextHeight →
        s.phase = .streaming contractHeight nextHeight := by
    intro contractHeight nextHeight heq
    cases event with
    | crash => cases heq
    | _ => exact heq
  refine ⟨hfollows, ?_, h.kept, h.seen, ?_, ?_⟩
  · intro height hskipped
    rcases hskips height hskipped with hold | ⟨chunk, top, rfl, -, hblock, -, hbelow⟩
    · exact h.skipped height hold
    · have hrolled := (hquiet chunk rfl _ hblock).1
      rw [hchain.height_eq] at hrolled
      change height ≤ s.contractHeight
      omega
  · intro contractHeight heq
    refine h.waiting contractHeight ?_
    cases event with
    | crash => cases heq
    | _ => exact heq
  · intro contractHeight nextHeight heq
    obtain ⟨last, hlast, hdate, hstay⟩ := h.streaming _ _ (hphase _ _ heq)
    refine ⟨last, hlast, hdate, fun height hskipped hfrom => ?_⟩
    rcases hskips height hskipped with hold | ⟨chunk, top, rfl, -, hblock, habove, hbelow⟩
    · exact hstay height hold hfrom
    · exact h.quiet_chunk hchain chunk (hquiet chunk rfl) hon top hblock _ _ (hphase _ _ heq)
        height habove hbelow

omit hchain in
/-- A worker that stops in a state to start from again. -/
theorem Safe.stop {worker : Worker D} (hkept : Kept env config.badBlocks chain worker)
    (hseen : ∀ block, worker.db.lastSeenBlock = some block →
      ∀ height, s.contractHeight < height → height ≤ block.height → height ∈ handled) :
    Safe env config chain handled { s with worker := worker, phase := .stopped } :=
  ⟨h.follows, h.skipped, hkept, hseen, nofun, nofun⟩

omit hchain in
theorem Safe.rolledUp (height : ℕ) :
    Safe env config chain handled (step env config V S overflowChecks s (.rolledUp height)) := by
  have hle : s.contractHeight ≤ max s.contractHeight height := le_max_left _ _
  refine ⟨h.follows, fun k hk => (h.skipped k hk).trans hle, h.kept, ?_, ?_, h.streaming⟩
  · intro block hblock k hbeyond hk
    exact h.seen block hblock k (lt_of_le_of_lt hle hbeyond) hk
  · intro contractHeight hphase
    obtain ⟨hread, htracked⟩ := h.waiting contractHeight hphase
    exact ⟨hread.trans hle, htracked⟩

omit hchain in
/-- The worker loads the tree that it kept on the disk. -/
theorem Safe.start :
    Safe env config chain handled (step env config V S overflowChecks s .start) := by
  obtain ⟨p, reached, hdb, htracked⟩ := h.kept.archived
  obtain ⟨q, hload, hq⟩ := htracked.load
  rw [hdb] at hload
  cases hphase : s.phase with
  | stopped =>
    have hstep : step env config V S overflowChecks s .start =
        { s with worker := ⟨s.worker.db, q⟩, phase := .waiting s.contractHeight } := by
      simp only [step, hphase, hload]
    rw [hstep]
    refine ⟨h.follows, h.skipped, ⟨⟨q, reached, rfl, hq⟩, h.kept.recorded⟩, h.seen, ?_, ?_⟩
    · intro contractHeight heq
      cases heq
      exact ⟨le_rfl, reached, hq⟩
    · intro contractHeight nextHeight heq
      cases heq
  | waiting contractHeight =>
    have hstep : step env config V S overflowChecks s .start = s := by simp only [step, hphase]
    rw [hstep]
    exact h
  | streaming contractHeight nextHeight =>
    have hstep : step env config V S overflowChecks s .start = s := by simp only [step, hphase]
    rw [hstep]
    exact h

theorem Safe.synchronise (happart : RootsApart D config.badBlocks chain env) (hD : D ≤ 257)
    (io : StartIo) (hcovered : ∀ contractHeight, s.phase = .waiting contractHeight →
      Covered config.badBlocks chain contractHeight s.node s.worker) :
    Safe env config chain handled
      (step env config V S overflowChecks s (.synchronise io)) := by
  cases hphase : s.phase with
  | waiting contractHeight =>
    obtain ⟨hread, reached, htracked⟩ := h.waiting contractHeight hphase
    have hstarted := synchronise_started hchain happart hD h.follows htracked h.kept.recorded
      (hcovered contractHeight hphase) io
    let started := ProverRecovery.synchronise env.poseidon io contractHeight s.node s.worker
    have hseen : ∀ block, started.1.db.lastSeenBlock = some block →
        ∀ height, s.contractHeight < height → height ≤ block.height → height ∈ handled := by
      intro block hblock height hbeyond hle
      rcases synchronise_seen _ _ _ _ _ block hblock with hold | hrolled
      · exact h.seen block hold height hbeyond hle
      · omega
    rcases hstarted with ⟨last, hok, hdate, hhas⟩ | ⟨⟨e, herror⟩, hkept⟩
    · have hstep : step env config V S overflowChecks s (.synchronise io) =
          { s with
            worker := started.1
            phase := .streaming contractHeight (last.height + 1) } := by
        simp only [step, hphase, hok, started]
      have hkept : Kept env config.badBlocks chain started.1 := by
        refine ⟨⟨_, _, rfl, hdate.tracked⟩, fun block hblock => ?_⟩
        have hlast := hdate.seen
        rw [show started.1.db.lastSeenBlock = _ from hblock] at hlast
        obtain rfl : block = last := hlast
        exact hdate.root_eq.trans hdate.tracked.rootHash_eq
      rw [hstep]
      refine ⟨h.follows, h.skipped, hkept, hseen, nofun, ?_⟩
      intro _ nextHeight heq
      cases heq
      refine ⟨last, rfl, hdate, fun height hskipped hfrom e he => ?_⟩
      obtain ⟨hpos, hle, hnone⟩ := hskipped
      have hin := leavesUpTo_mono _ _ hle e he
      have hcontains := (h.follows.contains_iff hchain e).mpr hin
      by_contra hnew
      rcases h.follows.marked e hin with hzero | ⟨hstored, hmark, hfirst⟩
      · have hreached := hhas e hcontains (by omega)
        exact hnew (leavesUpTo_mono _ _ (by omega) e hreached)
      · have hmarked : s.node.insertedIn e = height := by
          by_contra hne
          rcases lt_or_gt_of_ne hne with hlt | hgt
          · exact hnew (leavesUpTo_mono _ _ (by omega) e hmark)
          · exact hfirst height hgt he
        exact hstored (hmarked ▸ hnone)
    · have hstep : step env config V S overflowChecks s (.synchronise io) =
          { s with worker := started.1, phase := .stopped } := by
        simp only [step, hphase, herror, started]
      rw [hstep]
      exact h.stop hkept hseen
  | stopped =>
    have hstep : step env config V S overflowChecks s (.synchronise io) = s := by
      simp only [step, hphase]
    rw [hstep]
    exact h
  | streaming contractHeight nextHeight =>
    have hstep : step env config V S overflowChecks s (.synchronise io) = s := by
      simp only [step, hphase]
    rw [hstep]
    exact h

/-- The worker handles the next block of the stream, or stops. -/
theorem Safe.deliver (hD : D ≤ 257) (ours : Bool) (io : WorkerIo) (nextCommit : Block) :
    Safe env config chain
      (handled ++ handledBy env config V S s (.deliver ours io nextCommit))
      (step env config V S overflowChecks s (.deliver ours io nextCommit)) := by
  have hsame : handledBy env config V S s (.deliver ours io nextCommit) = [] →
      step env config V S overflowChecks s (.deliver ours io nextCommit) = s →
        Safe env config chain
          (handled ++ handledBy env config V S s (.deliver ours io nextCommit))
          (step env config V S overflowChecks s (.deliver ours io nextCommit)) := by
    intro hnone hstep
    rw [hnone, hstep, List.append_nil]
    exact h
  cases hphase : s.phase with
  | stopped => exact hsame (by simp only [handledBy, hphase]) (by simp only [step, hphase])
  | waiting _ => exact hsame (by simp only [handledBy, hphase]) (by simp only [step, hphase])
  | streaming contractHeight nextHeight =>
    cases hnext : nextBlock s.node.blockStore nextHeight with
    | none =>
      exact hsame (by simp only [handledBy, hphase, hnext]) (by simp only [step, hphase, hnext])
    | some commit =>
      obtain ⟨below, rfl, hfrom, hget, hskipped, htracked⟩ :=
        h.below_next hchain _ _ hphase commit hnext
      obtain ⟨last, hlast, hdate, hstay⟩ := h.streaming _ _ hphase
      let result := handleCommit env V S config.badBlocks contractHeight ours io
        (chain (below + 1)) nextCommit s.worker
      rcases handleCommit_handled hchain hD htracked h.kept.recorded io V S contractHeight ours
        nextCommit with ⟨hok, hreached, hseen⟩ | ⟨⟨e, herror⟩, hkept, hdb⟩
      · have hstep : step env config V S overflowChecks s (.deliver ours io nextCommit) =
            { s with
              worker := result.1
              phase := .streaming contractHeight (below + 1 + 1) } := by
          simp only [step, hphase, hnext, hok, result, hchain.height_eq]
        have hhandled : handledBy env config V S s (.deliver ours io nextCommit) =
            [below + 1] := by
          simp only [handledBy, hphase, hnext, hok, hchain.height_eq]
        rw [hstep, hhandled]
        refine ⟨h.follows, h.skipped, ⟨⟨_, _, rfl, hreached⟩, ?_⟩, ?_, nofun, ?_⟩
        · intro block hblock
          obtain rfl := Option.some.inj (hseen.symm.trans hblock)
          exact hchain.root_eq below
        · intro block hblock height hbeyond hle
          obtain rfl := Option.some.inj (hseen.symm.trans hblock)
          rw [List.mem_append, List.mem_singleton]
          by_cases hbefore : height < nextHeight
          · exact Or.inl (h.handled_below hdate hbeyond (by omega))
          · by_cases hlast : height ≤ below
            · have := h.skipped height (hskipped height (by omega) hlast)
              change s.contractHeight < height at hbeyond
              omega
            · change height ≤ below + 1 at hle
              exact Or.inr (by omega)
        · intro _ nextHeight' heq
          cases heq
          refine ⟨⟨below + 1, (chain (below + 1)).rootHash⟩, rfl, ⟨hreached, ?_, ?_⟩, ?_⟩
          · rw [hseen]
            rfl
          · exact (hchain.root_eq below).trans hreached.rootHash_eq.symm
          · intro height hskip hle
            exact hstay height hskip (by omega)
      · have hstep : step env config V S overflowChecks s (.deliver ours io nextCommit) =
            { s with worker := result.1, phase := .stopped } := by
          simp only [step, hphase, hnext, herror, result]
        have hhandled : handledBy env config V S s (.deliver ours io nextCommit) = [] := by
          simp only [handledBy, hphase, hnext, herror]
        rw [hstep, hhandled, List.append_nil]
        refine h.stop hkept fun block hblock => ?_
        exact h.seen block (hdb.symm.trans hblock)

/-- A step of such a run keeps what holds between its steps. -/
theorem Safe.step (happart : RootsApart D config.badBlocks chain env) (hD : D ≤ 257)
    (event : Event) (hok : Benign env config chain s event) :
    Safe env config chain (handled ++ handledBy env config V S s event)
      (ProverRecovery.step env config V S overflowChecks s event) := by
  have hnil : ∀ s' : System D, Safe env config chain handled s' →
      Safe env config chain (handled ++ []) s' := by
    intro s' hs'
    rwa [List.append_nil]
  cases event with
  | node event =>
    exact hnil _ (h.node V S overflowChecks hchain happart event hok.1 hok.2)
  | rolledUp height => exact hnil _ (h.rolledUp V S overflowChecks height)
  | start => exact hnil _ (h.start V S overflowChecks)
  | synchronise io =>
    exact hnil _ (h.synchronise V S overflowChecks hchain happart hD io hok)
  | deliver ours io nextCommit =>
    exact h.deliver V S overflowChecks hchain hD ours io nextCommit

end Events

section Runs

variable {env config chain} (V : SnarkVerifier Bytes Accumulator) (S : ProofSystem Bytes)
  (overflowChecks : Bool) (hchain : Finalized D config.badBlocks chain env)

include hchain

omit hchain in
theorem safe_fresh (contractHeight : ℕ) :
    Safe env config chain [] (fresh env D contractHeight) := by
  have hheight : (fresh env D contractHeight).node.height = 0 := by
    rw [MarkedNode.height, fresh, BlockCache.new, insert_height]
    rfl
  have hstored := @Persistent.new_stored D env.poseidon
  have hempty : ∀ height, BlockStore.empty.get height = none := fun _ => rfl
  refine ⟨⟨hstored, ?_, ⟨?_, ?_, fun _ _ => rfl⟩, ?_, ?_⟩, ?_, ⟨⟨_, 0, rfl, tracked_new⟩, ?_⟩,
    ?_, ?_, ?_⟩
  · rw [hheight]
    exact hstored.laid
  · intro height block hget
    cases (hempty height).symm.trans hget
  · intro height hmax
    cases hmax
  · intro height block hget
    cases (hempty height).symm.trans hget
  · rw [hheight]
    intro e he
    exact absurd he List.not_mem_nil
  · intro height hskipped
    obtain ⟨hpos, hle, -⟩ := hskipped
    omega
  · intro block hlast
    cases hlast
  · intro block hlast
    cases hlast
  · intro contractHeight' hphase
    cases hphase
  · intro contractHeight' nextHeight hphase
    cases hphase

theorem run_safe (happart : RootsApart D config.badBlocks chain env) (hD : D ≤ 257)
    (contractHeight : ℕ) (events : List Event)
    (hok : ∀ before event, before ++ [event] <+: events → Benign env config chain
      (run env config V S overflowChecks (fresh env D contractHeight) before) event) :
    Safe env config chain
      (handledIn env config V S overflowChecks (fresh env D contractHeight) events)
      (run env config V S overflowChecks (fresh env D contractHeight) events) := by
  induction events using List.reverseRecOn with
  | nil => exact safe_fresh contractHeight
  | append_singleton before event ih =>
    have hbefore := ih fun b e hb => hok b e (hb.trans (List.prefix_append before [event]))
    have hrun : run env config V S overflowChecks (fresh env D contractHeight)
        (before ++ [event]) = ProverRecovery.step env config V S overflowChecks
          (run env config V S overflowChecks (fresh env D contractHeight) before) event :=
      List.foldl_concat ..
    rw [handledIn_concat, hrun]
    exact hbefore.step V S overflowChecks hchain happart hD event
      (hok before event (List.prefix_refl _))

end Runs

section SumChain

def sumEnv : NodeEnv := { oneEnv with poseidon := SmirkStorage.sumHash }

def sumConfig : Config := ⟨.node, [], 0, 0#160, fun _ => Vector.replicate 65 0⟩

/-- A block of transactions with one leaf each. -/
def leafBlock (height : ℕ) (rootHash : Element) (leaves : List Element) : Block :=
  ⟨⟨⟨height, 0#256, 0, 0#256, []⟩,
    ⟨rootHash, leaves.map fun leaf => plainTxn (0#256, 0#256) (leaf, 0#256)⟩⟩,
    Vector.replicate 65 0⟩

/-- A chain whose first two blocks bring a leaf each, and the others none. -/
def sumChain : ℕ → Block
  | 0 => Block.genesis
  | 1 => leafBlock 1 1220 [2]
  | 2 => leafBlock 2 1230 [1]
  | height + 3 => leafBlock (height + 3) 1230 []

theorem sumChain_leaves (height : ℕ) : leavesUpTo [] sumChain (height + 2) = [2, 1] := by
  induction height with
  | zero => decide +kernel
  | succ height ih =>
    have hadded : addedLeaves [] [2, 1] (sumChain (height + 3)) = [] := by
      rw [addedLeaves, if_neg List.not_mem_nil]
      rfl
    rw [leavesUpTo, ih, hadded, List.append_nil]

theorem sumChain_first : leavesUpTo [] sumChain 1 = [2] := by decide +kernel

theorem sumChain_finalized : Finalized 3 [] sumChain sumEnv := by
  have htwo := SmirkStorage.twoInserts_apart
  refine ⟨rfl, fun height => ?_, fun height => ?_, fun height => ?_⟩
  · match height with
    | 0 | 1 | 2 | _ + 3 => rfl
  · match height with
    | 0 => exact List.Pairwise.nil
    | 1 => rw [sumChain_first]; exact List.pairwise_singleton _ _
    | height + 2 =>
      rw [sumChain_leaves]
      simpa using htwo.apart
  · match height with
    | 0 =>
      rw [chainTree, sumChain_first]
      decide +kernel
    | height + 1 =>
      have hroot : (sumChain (height + 2)).rootHash = 1230 := by
        cases height <;> rfl
      rw [hroot, chainTree, sumChain_leaves]
      decide +kernel

theorem sumChain_hashed (height : ℕ) :
    RootHashed (elementHash sumEnv.poseidon {pair | pair ∈ SmirkStorage.sumPairs}) (3 - 1)
      (chainTree 3 [] sumChain height).leaf := by
  have htwo := SmirkStorage.twoInserts_apart
  rw [chainTree]
  rcases height with _ | _ | height
  · exact htwo.empty_hashed
  · rw [sumChain_first]
    exact htwo.first_hashed
  · rw [sumChain_leaves]
    exact htwo.second_hashed

theorem sumChain_apart : RootsApart 3 [] sumChain sumEnv :=
  @rootsApart_of_injective 3 sumEnv [] sumChain {pair | pair ∈ SmirkStorage.sumPairs}
    SmirkStorage.sumHash_injective sumChain_hashed

def startWrites : StartIo := ⟨true, true, true, true, fun _ => []⟩

/-- The run of a node and its worker along this chain. -/
abbrev sumRun (start : ℕ) (events : List Event) : System 3 :=
  run sumEnv sumConfig unitVerifier blindProofs true (fresh sumEnv 3 start) events

/-- The worker starts at the first block and goes on with the second. -/
def firstDeliveries : List Event :=
  [.node (.commit (sumChain 1)), .rolledUp 1, .start, .synchronise startWrites,
    .node (.commit (sumChain 2)),
    .deliver false ⟨true, true, true, fun _ => []⟩ (sumChain 3)]

end SumChain

/-- Along a run in which every start finds the missing elements covered, snapshots are of
rolled-up blocks of the chain, and none brings elements while the worker streams, the worker is
synchronised wherever it streams. -/
theorem run_synchronised (hD : D ≤ 257) (V : SnarkVerifier Bytes Accumulator)
    (S : ProofSystem Bytes) (overflowChecks : Bool) (pairs : Set (Element × Element))
    (hinj : (elementHash env.poseidon pairs).Injective)
    (hhashed : ∀ height, RootHashed (elementHash env.poseidon pairs) (D - 1)
      (chainTree D config.badBlocks chain height).leaf)
    (hchain : Finalized D config.badBlocks chain env) (start : ℕ) (events : List Event)
    (hok : ∀ before event, before ++ [event] <+: events → Benign env config chain
      (run env config V S overflowChecks (fresh env D start) before) event)
    (contractHeight nextHeight : ℕ)
    (hphase : (run env config V S overflowChecks (fresh env D start) events).phase =
      .streaming contractHeight nextHeight) :
    Synchronised env config chain (run env config V S overflowChecks (fresh env D start) events)
      nextHeight (handledIn env config V S overflowChecks (fresh env D start) events) :=
  (run_safe V S overflowChecks hchain (rootsApart_of_injective hinj hhashed) hD start events
    hok).synchronised hchain hD contractHeight nextHeight hphase

/-- A node that holds the leaf of the first block alone, marked with it, covers any worker. -/
theorem covered_of_first (contractHeight : ℕ) (s : MarkedNode 3) (worker : Worker 3)
    (hentries : s.notesTree.tree.entries = [2]) (hmark : s.insertedIn 2 = 1) :
    Covered sumConfig.badBlocks sumChain contractHeight s worker := by
  intro e he
  refine ⟨e, he, ?_⟩
  have hin : e ∈ [2] := hentries ▸ of_decide_eq_true he.1
  obtain rfl := List.mem_singleton.mp hin
  rw [hmark, show sumConfig.badBlocks = [] from rfl, sumChain_first]
  exact List.mem_singleton_self 2

theorem run_synchronised_first :
    (sumRun 0 firstDeliveries).phase = .streaming 1 3 ∧
      Synchronised sumEnv sumConfig sumChain (sumRun 0 firstDeliveries) 3
        (handledIn sumEnv sumConfig unitVerifier blindProofs true (fresh sumEnv 3 0)
          firstDeliveries) := by
  have hphase : (sumRun 0 firstDeliveries).phase = .streaming 1 3 := by decide +kernel
  refine ⟨hphase, run_synchronised sumEnv sumConfig sumChain (by decide) unitVerifier blindProofs
    true _ SmirkStorage.sumHash_injective sumChain_hashed sumChain_finalized 0 firstDeliveries ?_
    1 3 hphase⟩
  unfold firstDeliveries
  simp only [PrefixRuns.forall_prefix_cons, PrefixRuns.forall_prefix_nil]
  have hentries : (sumRun 0 [.node (.commit (sumChain 1)), .rolledUp 1,
      .start]).node.notesTree.tree.entries = [2] := by decide +kernel
  have hmark : (sumRun 0 [.node (.commit (sumChain 1)), .rolledUp 1,
      .start]).node.insertedIn 2 = 1 := by decide +kernel
  refine ⟨⟨?_, nofun⟩, trivial, trivial, ?_, ⟨?_, nofun⟩, trivial, trivial⟩
  · have hheight : (sumRun 0 []).node.height = 0 := by decide +kernel
    change sumChain 1 = sumChain ((sumRun 0 []).node.height + 1)
    rw [hheight]
  · exact fun contractHeight _ => covered_of_first contractHeight _ _ hentries hmark
  · have hheight : (sumRun 0 [.node (.commit (sumChain 1)), .rolledUp 1, .start,
        .synchronise startWrites]).node.height = 1 := by decide +kernel
    change sumChain 2 = sumChain (_ + 1)
    rw [hheight]

/-- The node crashes after its first block, and a fast snapshot brings the leaf of the second
one, unmarked. -/
def rejoining : List Event :=
  [.node (.commit (sumChain 1)), .start, .synchronise startWrites,
    .node (.crash (sumChain 2) .beforeStore),
    .node (.fastSync ⟨7, some (sumChain 3), [2, 1]⟩)]

theorem rejoining_benign : ∀ before event, before ++ [event] <+: rejoining →
    Benign sumEnv sumConfig sumChain (sumRun 3 before) event := by
  unfold rejoining
  simp only [PrefixRuns.forall_prefix_cons, PrefixRuns.forall_prefix_nil]
  have hentries : (sumRun 3 [.node (.commit (sumChain 1)), .start]).node.notesTree.tree.entries =
      [2] := by decide +kernel
  have hmark : (sumRun 3 [.node (.commit (sumChain 1)), .start]).node.insertedIn 2 = 1 := by
    decide +kernel
  refine ⟨⟨?_, nofun⟩, trivial, ?_, ⟨⟨?_, ?_⟩, nofun⟩, ⟨⟨3, ?_, List.not_mem_nil, rfl, ?_⟩, ?_⟩,
    trivial⟩
  · have hheight : (sumRun 3 []).node.height = 0 := by decide +kernel
    change sumChain 1 = sumChain ((sumRun 3 []).node.height + 1)
    rw [hheight]
  · exact fun contractHeight _ => covered_of_first contractHeight _ _ hentries hmark
  · have hheight : (sumRun 3 [.node (.commit (sumChain 1)), .start,
        .synchronise startWrites]).node.height = 1 := by decide +kernel
    change sumChain 2 = sumChain (_ + 1)
    rw [hheight]
  · cases hcrash : crashAt sumEnv sumConfig (sumChain 2) .beforeStore
        (sumRun 3 [.node (.commit (sumChain 1)), .start, .synchronise startWrites]).node with
    | ok node => exact ⟨node, rfl⟩
    | error e =>
      have hok : (crashAt sumEnv sumConfig (sumChain 2) .beforeStore (sumRun 3
          [.node (.commit (sumChain 1)), .start,
            .synchronise startWrites]).node).toOption.isSome = true := by decide +kernel
      rw [hcrash] at hok
      cases hok
  · have hheight : (sumRun 3 [.node (.commit (sumChain 1)), .start, .synchronise startWrites,
        .node (.crash (sumChain 2) .beforeStore)]).node.height = 1 := by decide +kernel
    change (sumRun 3 _).node.height < 3
    rw [hheight]
    decide
  · have hkept : (sumRun 3 [.node (.commit (sumChain 1)), .start, .synchronise startWrites,
        .node (.crash (sumChain 2) .beforeStore)]).node.notesTree.tree.entries = [2] := by
      decide +kernel
    intro e
    have hcontains : (sumRun 3 [.node (.commit (sumChain 1)), .start, .synchronise startWrites,
        .node (.crash (sumChain 2) .beforeStore)]).node.notesTree.tree.containsElement e =
        decide (e ∈ [2]) := by
      rw [Tree.containsElement, hkept]
    change e ∈ leavesUpTo [] sumChain (1 + 2) ↔ e ∈ [2, 1] ∨
      (sumRun 3 _).node.notesTree.tree.containsElement e = true
    rw [sumChain_leaves, hcontains, decide_eq_true_eq]
    refine (or_iff_left_of_imp fun hin => ?_).symm
    exact List.mem_singleton.mp hin ▸ List.mem_cons_self
  · rintro chunk ⟨⟩ block ⟨⟩
    refine ⟨by decide +kernel, fun contractHeight nextHeight hphase => ?_⟩
    have hstopped : (sumRun 3 [.node (.commit (sumChain 1)), .start, .synchronise startWrites,
        .node (.crash (sumChain 2) .beforeStore)]).phase = .stopped := by decide +kernel
    have hboth := hstopped.symm.trans hphase
    cases hboth

/-- What the worker finds when it starts beside the rejoined node. -/
theorem rejoined_start : ∃ q : SmirkStorage.Persistent 3 SmirkMetadata,
    sumRun 3 (rejoining ++ [.start]) =
      { sumRun 3 rejoining with
        worker := ⟨(sumRun 3 rejoining).worker.db, q⟩
        phase := .waiting 3 } ∧
      Tracked sumEnv [] sumChain q 1 := by
  have hphase : (sumRun 3 [.node (.commit (sumChain 1)), .start,
      .synchronise startWrites]).phase = .streaming 3 2 := by decide +kernel
  have hearly : Safe sumEnv sumConfig sumChain _ (sumRun 3
      [.node (.commit (sumChain 1)), .start, .synchronise startWrites]) :=
    run_safe unitVerifier blindProofs true sumChain_finalized sumChain_apart (by decide) 3
      [.node (.commit (sumChain 1)), .start, .synchronise startWrites]
      fun before event hbefore => rejoining_benign before event (hbefore.trans
        ⟨[.node (.crash (sumChain 2) .beforeStore),
          .node (.fastSync ⟨7, some (sumChain 3), [2, 1]⟩)], rfl⟩)
  obtain ⟨last, hlast, hdate, -⟩ := hearly.streaming 3 2 hphase
  have hone : last.height = 1 := by omega
  have htracked : Tracked sumEnv [] sumChain (sumRun 3 rejoining).worker.notesTree 1 :=
    hone ▸ hdate.tracked
  obtain ⟨q, hload, hq⟩ := htracked.load
  have hstopped : (sumRun 3 rejoining).phase = .stopped := by decide +kernel
  have hcontract : (sumRun 3 rejoining).contractHeight = 3 := by decide +kernel
  refine ⟨q, ?_, hq⟩
  have hrun : sumRun 3 (rejoining ++ [.start]) = step sumEnv sumConfig unitVerifier blindProofs true
      (sumRun 3 rejoining) .start := List.foldl_concat ..
  rw [hrun]
  simp only [step, hstopped, hload, hcontract]

/-- The worker restarts from the first block, whose leaf is in its tree, and applying it
panics, although the chain is in order and the snapshot is honest. -/
theorem not_synchronised_rejoined :
    Finalized 3 [] sumChain sumEnv ∧
      (∀ before event, before ++ [event] <+: rejoining →
        Benign sumEnv sumConfig sumChain (sumRun 3 before) event) ∧
      ∃ handled, (sumRun 3 (rejoining ++ [.start, .synchronise startWrites])).phase =
          .streaming 3 1 ∧
        nextBlock (sumRun 3 (rejoining ++ [.start, .synchronise startWrites])).node.blockStore 1 =
          some (sumChain 1) ∧
        (∀ schedule, (applyBlockToTree sumEnv.poseidon schedule
          (sumRun 3 (rejoining ++ [.start, .synchronise startWrites])).worker.notesTree
          (sumChain 1).content.state 1 false true).2 = .error .panic) ∧
        ¬Synchronised sumEnv sumConfig sumChain
          (sumRun 3 (rejoining ++ [.start, .synchronise startWrites])) 1 handled := by
  refine ⟨sumChain_finalized, rejoining_benign, [], ?_⟩
  have hsafe : Safe sumEnv sumConfig sumChain _ (sumRun 3 rejoining) :=
    run_safe unitVerifier blindProofs true sumChain_finalized sumChain_apart (by decide) 3
      rejoining rejoining_benign
  obtain ⟨q, hstart, hq⟩ := rejoined_start
  have hentries : (sumRun 3 rejoining).node.notesTree.tree.entries = [1, 2] := by decide +kernel
  have hmark : (sumRun 3 rejoining).node.insertedIn 1 = 0 := by decide +kernel
  have htwo : q.tree.keyed.containsElement 2 = true := by
    rw [hq.contains_iff sumChain_finalized, sumChain_first]
    exact List.mem_singleton_self 2
  have hone : Missing 3 (sumRun 3 rejoining).node q.tree 1 := by
    refine ⟨?_, by omega, ?_⟩
    · rw [Tree.containsElement, hentries]
      decide
    · rw [← Bool.not_eq_true, hq.contains_iff sumChain_finalized, sumChain_first]
      decide
  have hmissing : ∀ e, Missing 3 (sumRun 3 rejoining).node q.tree e → e = 1 := by
    rintro e ⟨hin, -, hout⟩
    rw [Tree.containsElement, hentries, decide_eq_true_eq] at hin
    rcases List.mem_cons.mp hin with rfl | hin
    · rfl
    · rw [List.mem_singleton.mp hin, htwo] at hout
      cases hout
  obtain ⟨height, hhighest⟩ : ∃ height, highestBlockHeight
      (rolledUpNotInProver 3 (sumRun 3 rejoining).node q.tree) = some height := by
    refine Option.ne_none_iff_exists'.mp fun hnone => ?_
    have hin := (mem_rolledUp _ _ _ 1).mpr hone
    rw [(highest_none _ _ _).mp hnone] at hin
    cases hin
  obtain ⟨⟨top, htop, hheight⟩, -⟩ := highest_some _ _ _ height hhighest
  rw [hmissing top htop, hmark] at hheight
  subst hheight
  have hreloaded : Tracked sumEnv [] sumChain
      (Worker.mk (sumRun 3 rejoining).worker.db q).notesTree 1 := hq
  obtain ⟨⟨last, hok, hlast⟩, hinserted⟩ := synchronise_inserted sumChain_finalized (by decide)
    hsafe.follows hreloaded startWrites rfl rfl 0 hhighest
  have hrun : sumRun 3 (rejoining ++ [.start, .synchronise startWrites]) =
      { sumRun 3 rejoining with
        worker := (synchronise sumEnv.poseidon startWrites 3 (sumRun 3 rejoining).node
          ⟨(sumRun 3 rejoining).worker.db, q⟩).1
        phase := .streaming 3 1 } := by
    have hsplit : sumRun 3 (rejoining ++ [.start, .synchronise startWrites]) =
        step sumEnv sumConfig unitVerifier blindProofs true (sumRun 3 (rejoining ++ [.start]))
          (.synchronise startWrites) := by
      rw [show rejoining ++ [.start, .synchronise startWrites] =
        (rejoining ++ [.start]) ++ [.synchronise startWrites] from rfl]
      exact List.foldl_concat ..
    rw [hsplit, hstart]
    simp only [step, hok, hlast, Nat.zero_add]
  rw [hrun]
  have hstays := hinserted 2 (Or.inr htwo)
  refine ⟨rfl, ?_, fun schedule => ?_, fun hsynchronised => ?_⟩
  · change nextBlock (sumRun 3 rejoining).node.blockStore 1 = some (sumChain 1)
    decide +kernel
  · have hleaves : (sumChain 1).content.state.leavesNonNull = [2] := by decide +kernel
    rw [ProverWorker.applyBlockToTree, if_pos]
    refine ⟨rfl, ?_⟩
    rw [hleaves, List.any_cons, hstays]
    rfl
  · obtain ⟨last', hlast', hdate⟩ := hsynchronised.up_to_date
    have hzero : last'.height = 0 := by omega
    have hin := (hdate.tracked.contains_iff sumChain_finalized 2).mp hstays
    rw [hzero] at hin
    cases hin

end PayyRollup.ProverRecovery
