import PayyRollup.NodeRecovery
import PayyRollup.NodeRuns

/-!
Receiving a fast snapshot chunk: a block and the elements up to it. The elements that are not
in the tree yet are inserted, but for those of the block; then the height before the block is
confirmed and the block goes into the cache, where the next tick finds it. Only that tick
looks at the signature. The order of a hash set is taken to be that of first occurrence, and
nothing depends on it. Heights are 64-bit numbers; their subtraction panics in a build with
overflow checks and wraps around in one without.
-/
namespace PayyRollup.FastSync

open ScalarField VerifierContracts RollupState SparseMerkle ElementHash SmirkTree
  NodeBlocks BlockCaches BlockValidation BlockCommit NodeRuns
open NodeRecovery (previousHeight)
open SmirkNode hiding Node

abbrev SnapshotId := ℕ

abbrev PeerId := Bytes

structure SnapshotChunkFast where
  snapshotId : SnapshotId
  block : Option Block
  elements : List Element

/-- What the sync worker waits for. -/
inductive SyncState
  | outOfSync
  | snapshotOffer (snapshotId : SnapshotId)
  | snapshotChunk (peer : PeerId) (snapshotId : SnapshotId)
  deriving DecidableEq

inductive SyncError
  | smirkCollisionError (source : CollisionError)
  | smirkStorageError (source : StorageError)

variable {D : ℕ}

section Handler

variable (env : NodeEnv) (config : Config)

/-- The elements of a chunk that are not in the tree. -/
def newElements (tree : Tree D) (elements : List Element) : List Element :=
  elements.dedup.filter fun e => !tree.containsElement e

/-- The elements that the block does not bring itself. -/
def elementsBefore (block : Block) (elements : List Element) : List Element :=
  elements.filter fun e => decide (e ∉ block.content.state.leavesNonNull)

/-- Confirm the height before a block and take the block for a proposal; a validator must
not receive proposals. -/
def confirmBefore (overflowChecks : Bool) (block : Block) (self : Node D) :
    Node D × Outcome SyncError Bool :=
  if overflowChecks = true ∧ block.height = 0 then (self, .error .panic)
  else
    let confirmed := { self with blockCache := self.blockCache.confirm (previousHeight block.height) }
    if config.mode = Mode.validator then (confirmed, .error .panic)
    else (receiveProposal env config block confirmed, .ok true)

/-- Handle a chunk; the result says whether the ticker is woken. -/
def handleSnapshotChunkFast (overflowChecks written : Bool) (chunk : SnapshotChunkFast)
    (self : Node D) : Node D × Outcome SyncError Bool :=
  match chunk.block with
  | none => (self, .ok false)
  | some block =>
      let notesTree := self.ledger.notesTree
      let elements := newElements notesTree.tree chunk.elements
      match notesTree.tree.rootHashWith env.poseidon elements with
      | none => (self, .error .panic)
      | some root =>
          if root ≠ block.rootHash then (self, .ok false)
          else
            match Batch.fromEntries D (elementsBefore block elements) with
            | .error collision => (self, .error (.err (.smirkCollisionError collision)))
            | .ok batch =>
                if block.content.state.leavesNonNull.any fun e => decide (e ∉ elements) then
                  (self, .ok false)
                else
                  let inserted := notesTree.insertBatch env.poseidon batch written
                  let synced := { self with ledger := ⟨self.ledger.blockStore, inserted.1⟩ }
                  match inserted.2 with
                  | .error failure => (synced, .error (failure.map SyncError.smirkStorageError))
                  | .ok () => confirmBefore env config overflowChecks block synced

/-- A chunk is handled when the worker waits for it; other chunks are dropped. -/
def receiveSnapshotChunk (overflowChecks written : Bool) (sync : SyncState) (peer : PeerId)
    (chunk : SnapshotChunkFast) (self : Node D) : Node D × Outcome SyncError Bool :=
  if sync = .snapshotChunk peer chunk.snapshotId then
    handleSnapshotChunkFast env config overflowChecks written chunk self
  else (self, .ok false)

end Handler

/-- Two caches that hold the same, in whatever order. -/
structure SameCache (a b : BlockCache) : Prop where
  height : b.height = a.height
  maxHeight : b.maxHeight = a.maxHeight
  blocks : ∀ hash, b.blocks.lookup hash = a.blocks.lookup hash
  heights : ∀ height, b.blockHashHeights.lookup height = a.blockHashHeights.lookup height

/-- The same tree, store and cache. -/
def Unchanged (s s' : Node D) : Prop :=
  s'.ledger = s.ledger ∧ SameCache s.blockCache s'.blockCache

def SignedByLeader (env : NodeEnv) (validatorsForHeight : ℕ → List Address) (block : Block) :
    Prop :=
  ∃ leader, leaderForBlockHeight (validatorsForHeight block.height) block.height = some leader ∧
    block.signature.verify env (block.hash env) = .ok leader

/-- The blocks that are stored now were stored before, or are signed by their leaders. -/
def StoresChecked (env : NodeEnv) (config : Config) (validatorsForHeight : ℕ → List Address)
    (s s' : Node D) : Prop :=
  ∀ height block, s'.ledger.blockStore.get height = some block →
    s.ledger.blockStore.get height = some block ∨
      height = block.height ∧ (height ∈ config.badBlocks ∨
        SignedByLeader env validatorsForHeight block)

/-- The root of the elements of the tree and of a chunk. -/
def assembledRoot {env : NodeEnv} {tree : Tree D} (h : tree.Valid env.poseidon)
    (elements : List Element) : Element :=
  root (elementNode env.poseidon) (D - 1) (h.sparse.laid (newElements tree elements)).leaf

/-- What a received chunk is promised: no panic, no change without a block signed by its
leader with the root of the assembled elements, and no other block stored on the next tick. -/
structure Integrity (env : NodeEnv) (config : Config) (validatorsForHeight : ℕ → List Address)
    (chunk : SnapshotChunkFast) (s : Node D) (h : s.ledger.notesTree.tree.Valid env.poseidon)
    (result : Node D × Outcome SyncError Bool) : Prop where
  no_panic : result.2 ≠ .error .panic
  checked : Unchanged s result.1 ∨ ∃ block, chunk.block = some block ∧
    SignedByLeader env validatorsForHeight block ∧ block.rootHash = assembledRoot h chunk.elements
  stores_checked : ∀ input,
    StoresChecked env config input.validatorsForHeight s (tick env config input result.1)

/-- The checks that a chunk passes before it changes anything. -/
structure Accepted {env : NodeEnv} {tree : Tree D} (h : tree.Valid env.poseidon) (block : Block)
    (elements : List Element) : Prop where
  root : assembledRoot h elements = block.rootHash
  found : ∀ e ∈ block.content.state.leavesNonNull, e ∈ newElements tree elements
  distinct : (elementsBefore block (newElements tree elements)).Pairwise
    fun a b => bits D a ≠ bits D b
  vacant : ∀ e ∈ elementsBefore block (newElements tree elements), h.sparse.leaf (bits D e) = 0

/-- What an accepted chunk inserts has free slots. -/
theorem Accepted.free {env : NodeEnv} {tree : Tree D} {h : tree.Valid env.poseidon} {block : Block}
    {elements : List Element} (haccepted : Accepted h block elements) :
    h.sparse.Free (elementsBefore block (newElements tree elements)) :=
  ⟨haccepted.distinct, haccepted.vacant⟩

section Tick

variable {env : NodeEnv} {config : Config}

theorem signedByLeader_of_ok (validatorsForHeight : ℕ → List Address) (block : Block)
    (l : Ledger D) (h : validateBlock env config validatorsForHeight block l = .ok ()) :
    block.height ∈ config.badBlocks ∨ SignedByLeader env validatorsForHeight block :=
  (validateBlock_ok validatorsForHeight block l h).imp_right And.left

theorem commitProposal_store (io : CommitIo) (block : Block) (l : Ledger D) :
    (commitProposal env config.badBlocks io block l).1.blockStore = l.blockStore ∨
      (commitProposal env config.badBlocks io block l).1.blockStore = l.blockStore.set block := by
  unfold commitProposal
  dsimp only
  split
  · exact Or.inl rfl
  · split
    · exact Or.inl rfl
    · exact Or.inr rfl

theorem StoresChecked.trans {validatorsForHeight : ℕ → List Address} {s t u : Node D}
    (h : StoresChecked env config validatorsForHeight s t)
    (h' : StoresChecked env config validatorsForHeight t u) :
    StoresChecked env config validatorsForHeight s u := by
  intro height block hget
  rcases h' height block hget with hmiddle | hnew
  · exact h height block hmiddle
  · exact Or.inr hnew

theorem StoresChecked.of_store {validatorsForHeight : ℕ → List Address} {s s' : Node D}
    (h : s'.ledger.blockStore = s.ledger.blockStore) :
    StoresChecked env config validatorsForHeight s s' := by
  intro height block hget
  rw [h] at hget
  exact Or.inl hget

/-- A commit of a validated block stores nothing else. -/
theorem StoresChecked.commit {validatorsForHeight : ℕ → List Address} {s s' : Node D}
    (io : CommitIo) (block : Block)
    (hok : validateBlock env config validatorsForHeight block s.ledger = .ok ())
    (h : s'.ledger = (commitProposal env config.badBlocks io block s.ledger).1) :
    StoresChecked env config validatorsForHeight s s' := by
  intro height other hget
  rw [h] at hget
  rcases @commitProposal_store D env config io block s.ledger with hsame | hset
  · rw [hsame] at hget
    exact Or.inl hget
  · rw [hset] at hget
    by_cases hheight : height = block.height
    · subst hheight
      rw [BlockStore.set_get_self, Option.some_inj] at hget
      subst hget
      exact Or.inr ⟨rfl, signedByLeader_of_ok _ _ _ hok⟩
    · rw [BlockStore.set_get_of_ne _ _ _ hheight] at hget
      exact Or.inl hget

theorem commitNext_stores (validatorsForHeight : ℕ → List Address) (io : CommitIo) (s : Node D) :
    StoresChecked env config validatorsForHeight s
      (commitNext env config validatorsForHeight io s).1 := by
  rcases @commitNext_cases D env config validatorsForHeight io s with
    ⟨hsame, -⟩ | ⟨block, -, ⟨-, hturn⟩ | ⟨hok, hturn⟩⟩
  · rw [hsame]
    exact StoresChecked.of_store rfl
  · rw [hturn]
    exact StoresChecked.of_store rfl
  · rw [hturn]
    exact StoresChecked.commit io block hok rfl

theorem commitLoop_stores (validatorsForHeight : ℕ → List Address) (turns : ℕ)
    (io : ℕ → CommitIo) (s : Node D) :
    StoresChecked env config validatorsForHeight s
      (commitLoop env config validatorsForHeight turns io s) := by
  induction turns generalizing io s with
  | zero => exact StoresChecked.of_store rfl
  | succ turns ih =>
    have hturn : StoresChecked env config validatorsForHeight s
        (commitNext env config validatorsForHeight (io 0) s).1 :=
      commitNext_stores validatorsForHeight (io 0) s
    rw [commitLoop]
    split
    · exact hturn.trans (ih _ _)
    · exact hturn

/-- A tick stores only blocks that are signed by the leaders of their heights. -/
theorem tick_stores (input : TickInput) (s : Node D) :
    StoresChecked env config input.validatorsForHeight s (tick env config input s) := by
  unfold tick
  dsimp only
  split
  · exact commitLoop_stores _ _ _ _
  · split
    · exact StoresChecked.of_store rfl
    · rename_i lastConfirmed _
      rcases @createProposal_cases D env config s input lastConfirmed (s.blockCache.height + 1)
        (ownApprovals env config lastConfirmed (s.blockCache.height + 1)) with
        hsame | ⟨block, -, hok, ⟨-, hresult⟩ | ⟨-, hresult⟩⟩
      · rw [hsame]
        exact StoresChecked.of_store rfl
      · rw [hresult]
        exact StoresChecked.commit (input.io 0) block hok rfl
      · rw [hresult]
        exact StoresChecked.commit (input.io 0) block hok rfl

end Tick

section Handling

variable {env : NodeEnv} {config : Config} {s : Node D}

theorem insertBatch_null {p : Persistent D} (h : p.tree.Valid env.poseidon) (batch : Batch D)
    (hnull : Element.nullHash ∈ batch.entries)
    (hvacant : ∀ e ∈ batch.entries, h.sparse.leaf (bits D e) = 0) (written : Bool) :
    p.insertBatch env.poseidon batch written = (p, .error .panic) := by
  have hcheck := (h.checkCollisions_ok batch).mpr hvacant
  have hempty : batch.entries ≠ [] := List.ne_nil_of_mem hnull
  simp [Persistent.insertBatch, Batch.isEmpty, Tree.insertBatch, Tree.insertWithoutHashing, hempty,
    hcheck, hnull, Failure.map]

variable (h : s.ledger.notesTree.tree.Valid env.poseidon) (block : Block)
  (overflowChecks written : Bool) (chunk : SnapshotChunkFast) (hblock : chunk.block = some block)

include h hblock

/-- Elements that crowd a slot panic before anything is checked. -/
theorem handle_crowded
    (hcrowded : Crowded (bits D) h.sparse.leaf (newElements s.ledger.notesTree.tree chunk.elements)) :
    handleSnapshotChunkFast env config overflowChecks written chunk s = (s, .error .panic) := by
  have hroot : s.ledger.notesTree.tree.rootHashWith env.poseidon
      (newElements s.ledger.notesTree.tree chunk.elements) = none := by
    rw [Option.eq_none_iff_forall_ne_some]
    intro r hr
    exact ((h.rootHashWith_eq_some _ r).mp hr).1 hcrowded
  simp only [handleSnapshotChunkFast, hblock, hroot]

variable (happart : ¬Crowded (bits D) h.sparse.leaf
  (newElements s.ledger.notesTree.tree chunk.elements))

include happart

/-- A chunk that fails a check changes nothing. -/
theorem handle_rejected (hrejected : ¬Accepted h block chunk.elements) :
    ∃ outcome, handleSnapshotChunkFast env config overflowChecks written chunk s = (s, outcome) ∧
      outcome ≠ .error .panic ∧ outcome ≠ .ok true := by
  have hroot := (h.rootHashWith_eq_some _ _).mpr ⟨happart, rfl⟩
  simp only [handleSnapshotChunkFast, hblock, hroot]
  split
  · exact ⟨_, rfl, by simp, by simp⟩
  · rename_i hsame
    rw [ne_eq, not_not] at hsame
    cases hbatch : Batch.fromEntries D (elementsBefore block
        (newElements s.ledger.notesTree.tree chunk.elements)) with
    | error collision => exact ⟨_, rfl, by simp, by simp⟩
    | ok batch =>
      obtain ⟨hdistinct, hentries⟩ := (Batch.fromEntries_ok _ _).mp hbatch
      dsimp only
      split
      · exact ⟨_, rfl, by simp, by simp⟩
      · rename_i hfound
        have hoccupied : ¬∀ e ∈ batch.entries, h.sparse.leaf (bits D e) = 0 := by
          intro hvacant
          rw [hentries] at hvacant
          refine hrejected ⟨hsame, fun e he => ?_, hdistinct, hvacant⟩
          by_contra hmissing
          exact hfound (List.any_eq_true.mpr ⟨e, he, decide_eq_true hmissing⟩)
        obtain ⟨failure, hinsert⟩ := insertBatch_collision h batch hoccupied written
        rw [hinsert]
        exact ⟨_, rfl, by simp [Failure.map], by simp⟩

/-- A chunk that passes the checks is inserted into the tree. -/
theorem handle_accepted (haccepted : Accepted h block chunk.elements) :
    ∃ batch : Batch D,
      batch.entries = elementsBefore block
        (newElements s.ledger.notesTree.tree chunk.elements) ∧
      handleSnapshotChunkFast env config overflowChecks written chunk s =
        let inserted := s.ledger.notesTree.insertBatch env.poseidon batch written
        let synced := { s with ledger := ⟨s.ledger.blockStore, inserted.1⟩ }
        match inserted.2 with
        | .error failure => (synced, .error (failure.map SyncError.smirkStorageError))
        | .ok () => confirmBefore env config overflowChecks block synced := by
  have hroot := (h.rootHashWith_eq_some _ _).mpr ⟨happart, rfl⟩
  have hbatch := (Batch.fromEntries_ok ⟨_, haccepted.distinct⟩ _).mpr ⟨haccepted.distinct, rfl⟩
  have hfound : block.content.state.leavesNonNull.any (fun e => decide
      (e ∉ newElements s.ledger.notesTree.tree chunk.elements)) = false := by
    rw [List.any_eq_false]
    intro e he
    simpa using haccepted.found e he
  have hsame : root (elementNode env.poseidon) (D - 1) (h.sparse.laid
      (newElements s.ledger.notesTree.tree chunk.elements)).leaf = block.rootHash := haccepted.root
  refine ⟨⟨_, haccepted.distinct⟩, rfl, ?_⟩
  simp only [handleSnapshotChunkFast, hblock, hroot, hsame, hbatch, hfound]
  simp

end Handling

/-- When a chunk with a block keeps the promise: its elements do not crowd a slot, and if it
passes the checks, they do not have the null hash, nothing that comes after the insertion
panics, and the block is signed by its leader or brings nothing new. -/
structure Harmless (env : NodeEnv) (config : Config) (overflowChecks written : Bool)
    (validatorsForHeight : ℕ → List Address) (s : Node D)
    (h : s.ledger.notesTree.tree.Valid env.poseidon) (block : Block) (elements : List Element) :
    Prop where
  apart : ¬Crowded (bits D) h.sparse.leaf (newElements s.ledger.notesTree.tree elements)
  not_null : Accepted h block elements →
    Element.nullHash ∉ elementsBefore block (newElements s.ledger.notesTree.tree elements)
  confirms : Accepted h block elements →
    elementsBefore block (newElements s.ledger.notesTree.tree elements) = [] ∨ written = true →
      config.mode ≠ Mode.validator ∧ (overflowChecks = true → block.height ≠ 0)
  signed : Accepted h block elements → SignedByLeader env validatorsForHeight block ∨
    elementsBefore block (newElements s.ledger.notesTree.tree elements) = [] ∧
      SameCache s.blockCache
        ((s.blockCache.confirm (previousHeight block.height)).insert env block)

section Integrity

variable {env : NodeEnv} {config : Config} {validatorsForHeight : ℕ → List Address} {s : Node D}

theorem SameCache.refl (cache : BlockCache) : SameCache cache cache :=
  ⟨rfl, rfl, fun _ => rfl, fun _ => rfl⟩

theorem integrity_of_same {chunk : SnapshotChunkFast}
    {h : s.ledger.notesTree.tree.Valid env.poseidon} {outcome : Outcome SyncError Bool}
    (houtcome : outcome ≠ .error .panic) :
    Integrity env config validatorsForHeight chunk s h (s, outcome) :=
  ⟨houtcome, Or.inl ⟨rfl, SameCache.refl _⟩, fun input => tick_stores input s⟩

/-- New elements in the tree change the ledger. -/
theorem ledger_changed (h : s.ledger.notesTree.tree.Valid env.poseidon) (batch : Batch D)
    (hne : batch.entries ≠ []) (hnull : ∀ e ∈ batch.entries, e ≠ Element.nullHash)
    (hvacant : ∀ e ∈ batch.entries, h.sparse.leaf (bits D e) = 0) (written : Bool) :
    (⟨s.ledger.blockStore, (s.ledger.notesTree.insertBatch env.poseidon batch written).1⟩ :
      Ledger D) ≠ s.ledger := by
  intro hsame
  obtain ⟨⟨h', hlaid⟩, -⟩ := insertBatch_free h batch hnull hvacant written
  obtain ⟨e, he⟩ := List.exists_mem_of_ne_nil _ hne
  have hin := (contains_laid h h' batch.entries hnull ⟨batch.distinct, hvacant⟩ hlaid e).mpr
    (Or.inl he)
  have hfresh := not_contains_of_vacant h batch.entries hvacant
  rw [List.any_eq_false] at hfresh
  have htree : (s.ledger.notesTree.insertBatch env.poseidon batch written).1.tree =
      s.ledger.notesTree.tree := congrArg (fun l => l.notesTree.tree) hsame
  rw [htree] at hin
  exact hfresh e he hin

/-- Confirming and taking the block, once the elements are inserted. -/
theorem confirmBefore_integrity_iff (overflowChecks : Bool) (chunk : SnapshotChunkFast)
    (block : Block) (hblock : chunk.block = some block)
    (h : s.ledger.notesTree.tree.Valid env.poseidon) (ledger : Ledger D)
    (hstore : ledger.blockStore = s.ledger.blockStore)
    (hroot : block.rootHash = assembledRoot h chunk.elements) :
    Integrity env config validatorsForHeight chunk s h
        (confirmBefore env config overflowChecks block { s with ledger }) ↔
      (config.mode ≠ Mode.validator ∧ (overflowChecks = true → block.height ≠ 0)) ∧
        (SignedByLeader env validatorsForHeight block ∨ ledger = s.ledger ∧
          SameCache s.blockCache
            ((s.blockCache.confirm (previousHeight block.height)).insert env block)) := by
  unfold confirmBefore
  split
  · rename_i hoverflow
    refine iff_of_false (fun hintegrity => hintegrity.no_panic rfl) ?_
    rintro ⟨⟨-, hheight⟩, -⟩
    exact hheight hoverflow.1 hoverflow.2
  · rename_i hoverflow
    dsimp only
    split
    · rename_i hmode
      exact iff_of_false (fun hintegrity => hintegrity.no_panic rfl) fun hright => hright.1.1 hmode
    · rename_i hmode
      have hreceived : receiveProposal env config block
          { s with ledger, blockCache := s.blockCache.confirm (previousHeight block.height) } =
          ⟨(s.blockCache.confirm (previousHeight block.height)).insert env block, ledger⟩ := by
        unfold receiveProposal
        rw [if_neg hmode]
      rw [hreceived]
      constructor
      · intro hintegrity
        refine ⟨⟨hmode, fun hchecks hzero => hoverflow ⟨hchecks, hzero⟩⟩, ?_⟩
        rcases hintegrity.checked with hsame | ⟨other, hother, hsigned, -⟩
        · exact Or.inr hsame
        · obtain rfl := Option.some.inj (hother.symm.trans hblock)
          exact Or.inl hsigned
      · rintro ⟨-, hchanged⟩
        refine ⟨by simp, ?_, fun input => ?_⟩
        · rcases hchanged with hsigned | hsame
          · exact Or.inr ⟨block, hblock, hsigned, hroot⟩
          · exact Or.inl hsame
        · refine StoresChecked.trans (StoresChecked.of_store ?_) (tick_stores input _)
          exact hstore

/-- A chunk with a block keeps its promise exactly when it is harmless. -/
theorem handle_integrity_iff (h : s.ledger.notesTree.tree.Valid env.poseidon) (block : Block)
    (overflowChecks written : Bool) (chunk : SnapshotChunkFast)
    (hblock : chunk.block = some block) :
    Integrity env config validatorsForHeight chunk s h
        (handleSnapshotChunkFast env config overflowChecks written chunk s) ↔
      Harmless env config overflowChecks written validatorsForHeight s h block
        chunk.elements := by
  by_cases hcrowded : Crowded (bits D) h.sparse.leaf
      (newElements s.ledger.notesTree.tree chunk.elements)
  · rw [handle_crowded h block overflowChecks written chunk hblock hcrowded]
    exact iff_of_false (fun hintegrity => hintegrity.no_panic rfl) fun hright =>
      hright.apart hcrowded
  by_cases haccepted : Accepted h block chunk.elements
  swap
  · obtain ⟨outcome, hresult, houtcome, -⟩ := @handle_rejected D env config s h block
      overflowChecks written chunk hblock hcrowded haccepted
    rw [hresult]
    exact iff_of_true (integrity_of_same houtcome) ⟨hcrowded, fun hin => absurd hin haccepted,
      fun hin => absurd hin haccepted, fun hin => absurd hin haccepted⟩
  obtain ⟨batch, hentries, hresult⟩ := @handle_accepted D env config s h block
    overflowChecks written chunk hblock hcrowded haccepted
  have hvacant : ∀ e ∈ batch.entries, h.sparse.leaf (bits D e) = 0 :=
    hentries ▸ haccepted.vacant
  have hroot : block.rootHash = assembledRoot h chunk.elements := haccepted.root.symm
  rw [hresult]
  by_cases hnull : Element.nullHash ∈ batch.entries
  · rw [insertBatch_null h batch hnull hvacant]
    refine iff_of_false (fun hintegrity => hintegrity.no_panic rfl) fun hright => ?_
    rw [hentries] at hnull
    exact hright.not_null haccepted hnull
  have hnotNull : ∀ e ∈ batch.entries, e ≠ Element.nullHash := fun e he hzero => hnull (hzero ▸ he)
  obtain ⟨-, hok, hpanic, -⟩ := insertBatch_free h batch hnotNull hvacant written
  by_cases hdone : written = true ∨ batch.entries = []
  · have hledger : (⟨s.ledger.blockStore,
        (s.ledger.notesTree.insertBatch env.poseidon batch written).1⟩ : Ledger D) = s.ledger ↔
        batch.entries = [] := by
      constructor
      · intro hsame
        by_contra hne
        exact ledger_changed h batch hne hnotNull hvacant written hsame
      · intro hempty
        simp [Persistent.insertBatch, Batch.isEmpty, hempty]
    simp only [hok.mpr hdone]
    rw [confirmBefore_integrity_iff overflowChecks chunk block hblock h
      ⟨s.ledger.blockStore, (s.ledger.notesTree.insertBatch env.poseidon batch written).1⟩ rfl
      hroot, hledger, hentries]
    rw [hentries] at hdone hnull
    constructor
    · rintro ⟨hconfirms, hsigned⟩
      exact ⟨hcrowded, fun _ => hnull, fun _ _ => hconfirms, fun _ => hsigned⟩
    · intro hright
      exact ⟨hright.confirms haccepted hdone.symm, hright.signed haccepted⟩
  · obtain ⟨failure, hfailure⟩ : ∃ failure,
        (s.ledger.notesTree.insertBatch env.poseidon batch written).2 = .error failure := by
      cases houtcome : (s.ledger.notesTree.insertBatch env.poseidon batch written).2 with
      | error failure => exact ⟨failure, rfl⟩
      | ok u => exact absurd (hok.mp houtcome) hdone
    have hnoPanic : failure ≠ .panic := by
      rintro rfl
      exact hpanic hfailure
    push Not at hdone
    simp only [hfailure]
    constructor
    · intro hintegrity
      refine ⟨hcrowded, fun _ => ?_, fun _ hwritten => ?_, fun _ => Or.inl ?_⟩
      · rwa [← hentries]
      · rw [← hentries] at hwritten
        exact absurd hwritten (not_or.mpr ⟨hdone.2, hdone.1⟩)
      · rcases hintegrity.checked with hsame | ⟨other, hother, hsigned, -⟩
        · exact absurd hsame.1 (ledger_changed h batch hdone.2 hnotNull hvacant written)
        · obtain rfl := Option.some.inj (hother.symm.trans hblock)
          exact hsigned
    · intro hright
      refine ⟨?_, Or.inr ⟨block, hblock, ?_, hroot⟩, fun input => ?_⟩
      · cases failure with
        | err e => simp [Failure.map]
        | panic => exact absurd rfl hnoPanic
      · rcases hright.signed haccepted with hsigned | ⟨hempty, -⟩
        · exact hsigned
        · rw [← hentries] at hempty
          exact absurd hempty hdone.2
      · exact StoresChecked.trans (StoresChecked.of_store rfl) (tick_stores input _)

end Integrity

/-- A received chunk keeps its promise exactly when it is dropped, has no block, or is
harmless. -/
theorem receiveSnapshotChunk_integrity_iff (env : NodeEnv) (config : Config)
    (overflowChecks written : Bool) (validatorsForHeight : ℕ → List Address) (sync : SyncState)
    (peer : PeerId) (chunk : SnapshotChunkFast) (s : Node D)
    (h : s.ledger.notesTree.tree.Valid env.poseidon) :
    Integrity env config validatorsForHeight chunk s h
        (receiveSnapshotChunk env config overflowChecks written sync peer chunk s) ↔
      (sync = .snapshotChunk peer chunk.snapshotId → ∀ block, chunk.block = some block →
        Harmless env config overflowChecks written validatorsForHeight s h block
          chunk.elements) := by
  unfold receiveSnapshotChunk
  split
  · rename_i hsync
    cases hblock : chunk.block with
    | none =>
      have hresult : handleSnapshotChunkFast env config overflowChecks written chunk s =
          (s, .ok false) := by simp only [handleSnapshotChunkFast, hblock]
      rw [hresult]
      exact iff_of_true (integrity_of_same (by simp)) fun _ block hnone => by cases hnone
    | some block =>
      rw [handle_integrity_iff h block overflowChecks written chunk hblock]
      constructor
      · rintro hharmless - other hother
        rwa [← Option.some.inj hother]
      · intro hall
        exact hall hsync block rfl
  · rename_i hsync
    exact iff_of_true (integrity_of_same (by simp)) fun hwaits => absurd hwaits hsync

/-- The leaf of a first block, and a second block with a leaf of its own. -/
def leafChunk : SnapshotChunkFast := ⟨7, some secondLeaf, [5#256, 6#256]⟩

theorem leafNode_valid : leafNode.ledger.notesTree.tree.Valid leafEnv.poseidon := Tree.new_valid

/-- A chunk that passes the checks, with a block that is signed by its leader. -/
theorem receiveSnapshotChunk_integrity_signed :
    Accepted leafNode_valid secondLeaf leafChunk.elements ∧
      Integrity leafEnv nodeConfig (fun _ => [1#160]) leafChunk leafNode leafNode_valid
        (receiveSnapshotChunk leafEnv nodeConfig true true (.snapshotChunk [] 7) [] leafChunk
          leafNode) := by
  have hnew : newElements leafNode.ledger.notesTree.tree leafChunk.elements =
      [5#256, 6#256] := by decide
  have hbefore : elementsBefore secondLeaf [5#256, 6#256] = [5#256] := by decide
  have hapart : [5#256, 6#256].Pairwise fun a b : Element => bits 161 a ≠ bits 161 b := by
    decide +kernel
  have hempty : leafNode_valid.sparse = SparseTree.empty (bits 161) := Tree.new_sparse _
  have hleaves : secondLeaf.content.state.leavesNonNull = [6#256] :=
    leafBlock_leaves _ _ _ _ (by decide)
  refine ⟨⟨?_, ?_, ?_, fun _ _ => leafAt_empty _⟩, ?_⟩
  · rw [assembledRoot, hnew, hempty]
    exact (root_summing (by norm_num) _ (by simp) ⟨hapart, fun _ _ => rfl⟩).trans
      (by decide +kernel)
  · rw [hnew, hleaves]
    simp
  · rw [hnew, hbefore]
    exact List.pairwise_singleton _ _
  apply (receiveSnapshotChunk_integrity_iff leafEnv nodeConfig true true (fun _ => [1#160])
    (.snapshotChunk [] 7) [] leafChunk leafNode leafNode_valid).mpr
  rintro - block hblock
  obtain rfl := Option.some.inj hblock
  refine ⟨?_, fun _ => ?_, fun _ _ => ⟨by decide, by decide⟩,
    fun _ => Or.inl ⟨1#160, rfl, by decide⟩⟩
  · rw [hnew]
    exact (not_crowded_iff (bits 161) _ _).mpr (hapart.imp fun hne heq => absurd heq hne)
  · rw [hnew, hbefore]
    decide

/-- A chunk that only has a first block without transactions. -/
def emptyChunk : SnapshotChunkFast := ⟨7, some emptyBlock, []⟩

theorem genesisNode_valid : genesisNode.ledger.notesTree.tree.Valid signedEnv.poseidon :=
  Tree.new_valid

/-- A block that its leader has not signed reaches the cache. -/
theorem not_receiveSnapshotChunk_integrity :
    ¬Integrity signedEnv nodeConfig (fun _ => [2#160]) emptyChunk genesisNode genesisNode_valid
      (receiveSnapshotChunk signedEnv nodeConfig true true (.snapshotChunk [] 7) [] emptyChunk
        genesisNode) := by
  intro hintegrity
  have haccepted : Accepted genesisNode_valid emptyBlock [] := by
    refine ⟨?_, fun e he => absurd he List.not_mem_nil, List.Pairwise.nil,
      fun e he => absurd he List.not_mem_nil⟩
    have hroot := genesisNode_valid.rootHash_eq
    have hlaid : (genesisNode_valid.sparse.laid (newElements genesisNode.ledger.notesTree.tree
        [])) = genesisNode_valid.sparse := SparseTree.laid_nil _
    rw [assembledRoot, hlaid, ← hroot]
    decide
  have hharmless := (handle_integrity_iff genesisNode_valid emptyBlock true true emptyChunk
    rfl).mp hintegrity
  rcases hharmless.signed haccepted with ⟨leader, hleader, hverify⟩ | ⟨-, hsame⟩
  · obtain rfl := Option.some.inj hleader
    revert hverify
    decide
  · have hblocks := hsame.blocks (emptyBlock.hash signedEnv)
    revert hblocks
    decide

end PayyRollup.FastSync
