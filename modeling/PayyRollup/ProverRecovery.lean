import PayyRollup.ChainHistory
import PayyRollup.ProverWorker
import PayyRollup.StorageRoundTrip

/-!
The prover worker from its start to its stop. It reads the contract's height, waits for the
node, inserts what is rolled up and missing from its own tree, and compares the root of that
tree with the last seen block; where they differ it throws the tree away and panics. Then it
handles the committed blocks one after the other. A write that is refused stands for a crash
before it, too. The node beside it commits blocks of a chain, takes fast snapshots and
crashes; a fast snapshot marks its elements with height zero, so the greatest mark among the
missing elements need not be a height that the tree has reached.
-/
namespace PayyRollup.ProverRecovery

open ScalarField SparseMerkle ElementHash VerifierContracts SmirkTree SmirkValues NodeBlocks
  BlockValidation BlockCommit ProverBatch RollupProver ProverWorker ChainHistory
open Aggregation (SnarkVerifier)
open NodeRuns (Config)
open SmirkNode hiding Node

/-- Which of the writes of a start the databases allow. -/
structure StartIo where
  treeWritten : Bool
  lastSeenWritten : Bool
  resetWritten : Bool
  deleted : Bool
  schedule : Schedule

inductive Error
  | worker (source : ProverWorker.Error)
  | io

variable {D : ℕ} {Accumulator : Type}

section Worker

variable (hash : List Fr → Fr)

/-- The elements of the node that are rolled up and missing from a tree, with their marks. -/
def rolledUpNotInProver (contractHeight : ℕ) (node : MarkedNode D)
    (proverTree : ValueTree D SmirkMetadata) : List (Element × SmirkMetadata) :=
  (node.notesTree.tree.entries.dedup.filter fun e =>
    decide (node.insertedIn e ≤ contractHeight) && !proverTree.keyed.containsElement e).map
      fun e => (e, ⟨node.insertedIn e⟩)

def highestBlockHeight (elements : List (Element × SmirkMetadata)) : Option ℕ :=
  (elements.map fun e => e.2.insertedIn).max?

def defaultLastSeen (D : ℕ) : LastSeenBlock := ⟨0, emptyTreeHash hash D⟩

/-- The last seen block, if it has the root of the tree; otherwise everything is reset. -/
def checkLastSeen (io : StartIo) (self : Worker D) : Worker D × Outcome Error LastSeenBlock :=
  let lastSeenBlock := self.db.lastSeenBlock.getD (defaultLastSeen hash D)
  if lastSeenBlock.rootHash ≠ self.notesTree.tree.rootHash hash then
    if io.resetWritten = false then (self, .error (.err (.worker .proverDb)))
    else
      let db := self.db.setLastSeenBlock (defaultLastSeen hash D)
      if io.deleted = false then (⟨db, self.notesTree⟩, .error (.err .io))
      else (⟨db, SmirkStorage.Persistent.new D SmirkMetadata⟩, .error .panic)
  else (self, .ok lastSeenBlock)

/-- The synchronisation with the node at the start. -/
def synchronise (io : StartIo) (contractHeight : ℕ) (node : MarkedNode D) (self : Worker D) :
    Worker D × Outcome Error LastSeenBlock :=
  let elements := rolledUpNotInProver contractHeight node self.notesTree.tree
  match ValueBatch.fromEntries D elements with
  | .error collision => (self, .error (collision.map fun c => .worker (.collision c)))
  | .ok batch =>
      let inserted := self.notesTree.insertBatch hash io.schedule batch io.treeWritten
      match inserted.2 with
      | .error failure =>
          (⟨self.db, inserted.1⟩, .error (failure.map fun e => .worker (.smirk e)))
      | .ok () =>
          match highestBlockHeight elements with
          | none => checkLastSeen hash io ⟨self.db, inserted.1⟩
          | some height =>
              if io.lastSeenWritten = false then
                (⟨self.db, inserted.1⟩, .error (.err (.worker .proverDb)))
              else
                let db := self.db.setLastSeenBlock ⟨height, inserted.1.tree.rootHash hash⟩
                checkLastSeen hash io ⟨db, inserted.1⟩

end Worker

/-- Where the worker stands: it waits for the node, or streams from a height on. -/
inductive Phase
  | stopped
  | waiting (contractHeight : ℕ)
  | streaming (contractHeight nextHeight : ℕ)
  deriving DecidableEq

/-- A node with its prover worker, and the height of the contract. -/
structure System (D : ℕ) where
  node : MarkedNode D
  contractHeight : ℕ
  worker : Worker D
  phase : Phase

inductive Event
  | node (event : NodeEvent)
  | rolledUp (height : ℕ)
  | start
  | synchronise (io : StartIo)
  | deliver (ours : Bool) (io : WorkerIo) (nextCommit : Block)

/-- The next block of the stream: the lowest stored one from a height on. -/
def nextBlock (store : BlockStore) (height : ℕ) : Option Block :=
  (store.list height (store.maxHeight.getD 0 + 1)).head?

section Steps

variable (env : NodeEnv) (config : Config) (V : SnarkVerifier Bytes Accumulator)
  (S : ProofSystem Bytes) (overflowChecks : Bool)

/-- A crash takes the worker down with the node. -/
def phaseAfter (phase : Phase) : NodeEvent → Phase
  | .crash _ _ => .stopped
  | _ => phase

def step (s : System D) : Event → System D
  | .node event =>
      { s with
        node := nodeStep env config overflowChecks s.node event
        phase := phaseAfter s.phase event }
  | .rolledUp height => { s with contractHeight := max s.contractHeight height }
  | .start =>
      match s.phase, SmirkStorage.Persistent.load env.poseidon D s.worker.notesTree.db with
      | .stopped, .ok notesTree =>
          { s with worker := ⟨s.worker.db, notesTree⟩, phase := .waiting s.contractHeight }
      | _, _ => s
  | .synchronise io =>
      match s.phase with
      | .waiting contractHeight =>
          let started := synchronise env.poseidon io contractHeight s.node s.worker
          match started.2 with
          | .ok lastSeenBlock =>
              { s with
                worker := started.1
                phase := .streaming contractHeight (lastSeenBlock.height + 1) }
          | .error _ => { s with worker := started.1, phase := .stopped }
      | _ => s
  | .deliver ours io nextCommit =>
      match s.phase with
      | .streaming contractHeight nextHeight =>
          match nextBlock s.node.blockStore nextHeight with
          | none => s
          | some commit =>
              let handled := handleCommit env V S config.badBlocks contractHeight ours io commit
                nextCommit s.worker
              match handled.2 with
              | .ok () =>
                  { s with
                    worker := handled.1
                    phase := .streaming contractHeight (commit.height + 1) }
              | .error _ => { s with worker := handled.1, phase := .stopped }
      | _ => s

def run (s : System D) (events : List Event) : System D :=
  events.foldl (step env config V S overflowChecks) s

end Steps

section Tracking

variable {env : NodeEnv} {badBlocks : List ℕ} {chain : ℕ → Block}
  {p : SmirkStorage.Persistent D SmirkMetadata}

/-- A stored tree of the prover with the leaves up to a height. -/
def Tracked (env : NodeEnv) (badBlocks : List ℕ) (chain : ℕ → Block)
    (p : SmirkStorage.Persistent D SmirkMetadata) (height : ℕ) : Prop :=
  ∃ entries, ∃ h : SmirkStorage.Stored env.poseidon p entries,
    h.holds.valid.sparse = chainTree D badBlocks chain height

theorem tracked_new : Tracked env badBlocks chain (SmirkStorage.Persistent.new D SmirkMetadata) 0 :=
  ⟨[], SmirkStorage.new_stored, SmirkStorage.new_stored.holds.laid⟩

theorem Tracked.rootHash_eq {height : ℕ} (h : Tracked env badBlocks chain p height) :
    p.tree.rootHash env.poseidon =
      root (elementNode env.poseidon) (D - 1) (chainTree D badBlocks chain height).leaf := by
  obtain ⟨entries, hstored, htree⟩ := h
  exact (hstored.holds.valid.rootHash_eq).trans (by rw [htree])

theorem Tracked.load {height : ℕ} (h : Tracked env badBlocks chain p height) :
    ∃ q, SmirkStorage.Persistent.load env.poseidon D p.db = .ok q ∧
      Tracked env badBlocks chain q height := by
  obtain ⟨entries, hstored, htree⟩ := h
  obtain ⟨q, kv, hload, -, -, hperm, hq⟩ := hstored.load_stored
  refine ⟨q, hload, kv, hq, ?_⟩
  rw [← htree]
  refine SparseTree.ext_mem _ _ fun e => ?_
  rw [hq.holds.laid, hstored.holds.laid, SparseTree.mem_laid _ hq.holds.not_null hq.holds.free,
    SparseTree.mem_laid _ hstored.holds.not_null hstored.holds.free,
    (hperm.map Prod.fst).mem_iff]

variable (hchain : Finalized D badBlocks chain env)

include hchain

theorem Tracked.contains_iff {height : ℕ} (h : Tracked env badBlocks chain p height) (e : Element) :
    p.tree.keyed.containsElement e = true ↔ e ∈ leavesUpTo badBlocks chain height := by
  obtain ⟨entries, hstored, htree⟩ := h
  rw [← hstored.holds.valid.mem_sparse, htree, hchain.mem_chainTree]

theorem Tracked.congr {height height' : ℕ} (h : Tracked env badBlocks chain p height)
    (hsame : ∀ e, e ∈ leavesUpTo badBlocks chain height ↔
      e ∈ leavesUpTo badBlocks chain height') : Tracked env badBlocks chain p height' := by
  obtain ⟨entries, hstored, htree⟩ := h
  exact ⟨entries, hstored, htree.trans (hchain.chainTree_congr _ _ hsame)⟩

/-- The missing leaves up to a height take the tree there, unless the write is refused. -/
theorem Tracked.insertBatch {below height : ℕ} (h : Tracked env badBlocks chain p below)
    (schedule : Schedule) (batch : ValueBatch D SmirkMetadata)
    (hall : ∀ e, e ∈ leavesUpTo badBlocks chain height ↔
      e ∈ leavesUpTo badBlocks chain below ∨ e ∈ batch.elements)
    (hfresh : ∀ e ∈ batch.elements, e ∉ leavesUpTo badBlocks chain below) (written : Bool) :
    let inserted := p.insertBatch env.poseidon schedule batch written
    (inserted.2 = .ok () ∧ Tracked env badBlocks chain inserted.1 height) ∨
      ((∃ e, inserted.2 = .error e) ∧ inserted.1.db = p.db ∧ written = false) := by
  intro inserted
  by_cases hempty : batch.entries = []
  · have hsame : inserted = (p, .ok ()) := by
      simp [inserted, SmirkStorage.Persistent.insertBatch, hempty]
    rw [hsame]
    refine Or.inl ⟨rfl, h.congr hchain fun e => ?_⟩
    rw [hall, ValueBatch.elements, hempty]
    simp
  obtain ⟨entries, hstored, htree⟩ := h
  have hin : ∀ e ∈ batch.elements, e ∈ leavesUpTo badBlocks chain height := fun e he =>
    (hall e).mpr (Or.inr he)
  have hnull : ∀ e ∈ batch.elements, e ≠ Element.nullHash := fun e he =>
    leavesUpTo_ne_null height e (hin e he)
  have hvacant : ∀ e ∈ batch.elements, hstored.holds.valid.sparse.leaf (bits D e) = 0 := by
    intro e he
    rw [htree]
    exact hchain.vacant height below e (hin e he) (hfresh e he)
  obtain ⟨node, -, hok, hvalid, hlaid⟩ := ValueTree.insertBatch_free hstored.holds.valid
    hstored.holds.faithful schedule batch hnull hvacant
  cases written with
  | false =>
    refine Or.inr ⟨⟨.err .rocksdb, ?_⟩, ?_, rfl⟩
    · simp only [inserted, SmirkStorage.Persistent.insertBatch, List.isEmpty_iff, hempty, if_false,
        hok, Bool.false_eq_true]
    · simp [inserted, SmirkStorage.Persistent.insertBatch, hempty, hok]
  | true =>
    have hinserted := hstored.inserted schedule batch hempty _ hok
    have hsame : inserted = (⟨⟨node.recalculateHashes env.poseidon,
          KeyValueStore.putAll batch.entries p.tree.entries, p.tree.cache⟩,
        KeyValueStore.write (SmirkStorage.Persistent.writeBatch batch.entries
          (SmirkValues.Node.recalculateHashes env.poseidon (elementNode env.poseidon) node
            schedule).2) p.db⟩, .ok ()) := by
      simp only [inserted, SmirkStorage.Persistent.insertBatch, List.isEmpty_iff, hempty, if_false,
        hok, if_true]
    rw [hsame]
    have hsparse : hinserted.holds.valid.sparse =
        hstored.holds.valid.sparse.laid batch.elements := hlaid
    refine Or.inl ⟨rfl, _, hinserted, hsparse.trans ?_⟩
    refine hchain.laid_eq _ height _ hnull ⟨batch.keys.distinct, hvacant⟩ fun e => ?_
    rw [htree, hchain.mem_chainTree, hall, or_comm]

/-- The next block of the chain takes the tree to its height, unless the write is refused. -/
theorem Tracked.applyBlockToTree (hD : D ≤ 257) {height : ℕ}
    (h : Tracked env badBlocks chain p height) (schedule : Schedule) (written : Bool) :
    let applied := ProverWorker.applyBlockToTree env.poseidon schedule p
      (chain (height + 1)).content.state (height + 1) (decide (height + 1 ∈ badBlocks)) written
    (applied.2 = .ok () ∧ Tracked env badBlocks chain applied.1 (height + 1)) ∨
      ((∃ e, applied.2 = .error e) ∧ applied.1.db = p.db ∧ written = false) := by
  intro applied
  have hcontains := h.contains_iff hchain
  have hnew := newLeaves_eq hchain p.tree.keyed height hcontains
  obtain ⟨hfree, -⟩ := hchain.chainTree_succ height
  have hguard : ¬(decide (height + 1 ∈ badBlocks) = false ∧
      (chain (height + 1)).content.state.leavesNonNull.any p.tree.keyed.containsElement =
        true) := by
    rintro ⟨hgood, hany⟩
    obtain ⟨e, he, hin⟩ := List.any_eq_true.mp hany
    exact hchain.fresh height (of_decide_eq_false hgood) e he ((hcontains e).mp hin)
  let entries := (addedLeaves badBlocks (leavesUpTo badBlocks chain height)
    (chain (height + 1))).map fun leaf => (leaf, SmirkMetadata.mk (height + 1))
  have hentries : entries.map Prod.fst = addedLeaves badBlocks
      (leavesUpTo badBlocks chain height) (chain (height + 1)) := by
    rw [List.map_map]
    exact List.map_id _
  obtain ⟨batch, hbatch, hsame⟩ := ValueTree.valueBatch_fromEntries entries (Or.inr hD)
    (List.pairwise_map.mpr hfree.distinct)
  have helements : batch.elements = addedLeaves badBlocks (leavesUpTo badBlocks chain height)
      (chain (height + 1)) := by
    rw [ValueBatch.elements, hsame, hentries]
  have hall : ∀ e, e ∈ leavesUpTo badBlocks chain (height + 1) ↔
      e ∈ leavesUpTo badBlocks chain height ∨ e ∈ batch.elements := by
    intro e
    rw [helements, leavesUpTo, List.mem_append]
  have hfresh : ∀ e ∈ batch.elements, e ∉ leavesUpTo badBlocks chain height := by
    intro e he hin
    rw [helements] at he
    have hnone := hfree.vacant e he
    obtain ⟨hne, heq⟩ := (hchain.mem_chainTree height e).mpr hin
    exact hne (heq.symm.trans hnone)
  have happlied : applied = ((p.insertBatch env.poseidon schedule batch written).1,
      (p.insertBatch env.poseidon schedule batch written).2.mapError
        (Failure.map ProverWorker.Error.smirk)) := by
    simp only [applied, ProverWorker.applyBlockToTree, if_neg hguard, hnew]
    rw [show ValueBatch.fromEntries D _ = _ from hbatch]
  rw [happlied]
  rcases h.insertBatch hchain schedule batch hall hfresh written with
    ⟨hok, htracked⟩ | ⟨⟨e, herror⟩, hdb, hwritten⟩
  · exact Or.inl ⟨by rw [hok]; rfl, htracked⟩
  · exact Or.inr ⟨⟨_, by rw [herror]; rfl⟩, hdb, hwritten⟩

end Tracking

section Starting

variable {env : NodeEnv} {badBlocks : List ℕ} {chain : ℕ → Block}

/-- The last seen block has the root of its height. -/
def Recorded (D : ℕ) (env : NodeEnv) (badBlocks : List ℕ) (chain : ℕ → Block) (db : ProverDb) :
    Prop :=
  ∀ block, db.lastSeenBlock = some block → block.rootHash =
    root (elementNode env.poseidon) (D - 1) (chainTree D badBlocks chain block.height).leaf

/-- What survives of a worker that stops: a tree of the chain on the disk, and a last seen
block with the root of its height. -/
structure Kept (env : NodeEnv) (badBlocks : List ℕ) (chain : ℕ → Block) (worker : Worker D) :
    Prop where
  archived : ∃ (p : SmirkStorage.Persistent D SmirkMetadata) (height : ℕ),
    p.db = worker.notesTree.db ∧ Tracked env badBlocks chain p height
  recorded : Recorded D env badBlocks chain worker.db

/-- A worker that is up to date with a block: its tree has the leaves of the blocks up to it,
and its root. -/
structure UpToDate (env : NodeEnv) (badBlocks : List ℕ) (chain : ℕ → Block) (worker : Worker D)
    (lastSeenBlock : LastSeenBlock) : Prop where
  tracked : Tracked env badBlocks chain worker.notesTree lastSeenBlock.height
  seen : worker.db.lastSeenBlock.getD (defaultLastSeen env.poseidon D) = lastSeenBlock
  root_eq : lastSeenBlock.rootHash = worker.notesTree.tree.rootHash env.poseidon

theorem root_genesis : (defaultLastSeen env.poseidon D).rootHash =
    root (elementNode env.poseidon) (D - 1) (chainTree D badBlocks chain 0).leaf := by
  have hempty : (chainTree D badBlocks chain 0).leaf = fun _ => Element.nullHash := by
    rw [chainTree, leavesUpTo, SparseTree.laid_nil]
    rfl
  rw [hempty, root_empty]
  rfl

theorem Recorded.getD {db : ProverDb} (h : Recorded D env badBlocks chain db) :
    (db.lastSeenBlock.getD (defaultLastSeen env.poseidon D)).rootHash =
      root (elementNode env.poseidon) (D - 1) (chainTree D badBlocks chain
        (db.lastSeenBlock.getD (defaultLastSeen env.poseidon D)).height).leaf := by
  cases hseen : db.lastSeenBlock with
  | none => exact root_genesis
  | some block => exact h block hseen

theorem recorded_set (db : ProverDb) (block : LastSeenBlock) (h : block.rootHash =
    root (elementNode env.poseidon) (D - 1) (chainTree D badBlocks chain block.height).leaf) :
    Recorded D env badBlocks chain (db.setLastSeenBlock block) := by
  intro other hother
  obtain rfl := Option.some.inj hother
  exact h

variable (hchain : Finalized D badBlocks chain env) (happart : RootsApart D badBlocks chain env)

include hchain happart

/-- The last check passes a worker that is up to date, and resets another one. -/
theorem checkLastSeen_cases (io : StartIo) (worker : Worker D) (height : ℕ)
    (h : Tracked env badBlocks chain worker.notesTree height)
    (hrecorded : Recorded D env badBlocks chain worker.db) :
    let checked := checkLastSeen env.poseidon io worker
    (∃ last, checked.2 = .ok last ∧ UpToDate env badBlocks chain checked.1 last) ∨
      ((∃ e, checked.2 = .error e) ∧ Kept env badBlocks chain checked.1) := by
  intro checked
  have hreset : Recorded D env badBlocks chain (worker.db.setLastSeenBlock
      (defaultLastSeen env.poseidon D)) := recorded_set worker.db _ root_genesis
  have hchecked : checked = checkLastSeen env.poseidon io worker := rfl
  unfold checkLastSeen at hchecked
  dsimp only at hchecked
  split at hchecked
  · right
    split at hchecked
    · rw [hchecked]
      exact ⟨⟨_, rfl⟩, ⟨_, height, rfl, h⟩, hrecorded⟩
    · split at hchecked
      · rw [hchecked]
        exact ⟨⟨_, rfl⟩, ⟨_, height, rfl, h⟩, hreset⟩
      · rw [hchecked]
        exact ⟨⟨_, rfl⟩, ⟨_, 0, rfl, tracked_new⟩, hreset⟩
  · rename_i hsame
    rw [ne_eq, not_not] at hsame
    left
    rw [hchecked]
    have htrees := happart _ _ (hrecorded.getD.symm.trans (hsame.trans h.rootHash_eq))
    refine ⟨_, rfl, h.congr hchain fun e => ?_, rfl, hsame⟩
    rw [← hchain.mem_chainTree, ← hchain.mem_chainTree, htrees]

end Starting

end PayyRollup.ProverRecovery
