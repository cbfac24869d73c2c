import PayyRollup.ProverRecovery

/-!
What the start of the prover worker comes to. The elements it inserts are those of the node
that are rolled up and missing from its tree, and the greatest mark among them becomes the last
seen height. A block marks every element it brings, but the elements of a fast snapshot have no
mark, so the greatest mark is the height that the tree has reached only when each missing
element belongs to a block up to a marked missing one. Then the worker is up to date with its
last seen block, or it has stopped in a state from which it can start again.
-/
namespace PayyRollup.ProverRecovery

open ScalarField SparseMerkle ElementHash SmirkTree SmirkValues NodeBlocks BlockValidation
  BlockCommit ProverBatch ProverWorker ChainHistory
open SmirkNode hiding Node

variable {D : ℕ}

/-- An element of the node that is rolled up and missing from the prover's tree. -/
def Missing (contractHeight : ℕ) (node : MarkedNode D) (proverTree : ValueTree D SmirkMetadata)
    (e : Element) : Prop :=
  node.notesTree.tree.containsElement e = true ∧ node.insertedIn e ≤ contractHeight ∧
    proverTree.keyed.containsElement e = false

/-- Every missing element belongs to the blocks up to the mark of a missing one. -/
def Covered (badBlocks : List ℕ) (chain : ℕ → Block) (contractHeight : ℕ) (node : MarkedNode D)
    (worker : Worker D) : Prop :=
  ∀ e, Missing contractHeight node worker.notesTree.tree e →
    ∃ e', Missing contractHeight node worker.notesTree.tree e' ∧
      e ∈ leavesUpTo badBlocks chain (node.insertedIn e')

section Elements

variable (contractHeight : ℕ) (node : MarkedNode D) (proverTree : ValueTree D SmirkMetadata)

theorem mem_rolledUp (e : Element) :
    e ∈ (rolledUpNotInProver contractHeight node proverTree).map Prod.fst ↔
      Missing contractHeight node proverTree e := by
  rw [rolledUpNotInProver, List.map_map]
  simp [Missing, Tree.containsElement, and_assoc]

theorem mark_eq (entry : Element × SmirkMetadata)
    (h : entry ∈ rolledUpNotInProver contractHeight node proverTree) :
    entry.2.insertedIn = node.insertedIn entry.1 := by
  obtain ⟨e, -, rfl⟩ := List.mem_map.mp h
  rfl

theorem rolledUp_nodup :
    ((rolledUpNotInProver contractHeight node proverTree).map Prod.fst).Nodup := by
  rw [rolledUpNotInProver, List.map_map]
  change (List.map id _).Nodup
  rw [List.map_id]
  exact (List.nodup_dedup _).filter _

theorem highest_none :
    highestBlockHeight (rolledUpNotInProver contractHeight node proverTree) = none ↔
      rolledUpNotInProver contractHeight node proverTree = [] := by
  rw [highestBlockHeight, List.max?_eq_none_iff, List.map_eq_nil_iff]

/-- The last seen height is the mark of a missing element, and none is greater. -/
theorem highest_some (height : ℕ)
    (h : highestBlockHeight (rolledUpNotInProver contractHeight node proverTree) =
      some height) :
    (∃ e, Missing contractHeight node proverTree e ∧ node.insertedIn e = height) ∧
      ∀ e, Missing contractHeight node proverTree e → node.insertedIn e ≤ height := by
  rw [highestBlockHeight, List.max?_eq_some_iff] at h
  obtain ⟨hmem, hmax⟩ := h
  constructor
  · obtain ⟨entry, hentry, heq⟩ := List.mem_map.mp hmem
    have hmissing := (mem_rolledUp contractHeight node proverTree entry.1).mp
      (List.mem_map_of_mem hentry)
    exact ⟨entry.1, hmissing, by rw [← mark_eq contractHeight node proverTree entry hentry, heq]⟩
  · intro e he
    obtain ⟨entry, hentry, rfl⟩ := List.mem_map.mp
      ((mem_rolledUp contractHeight node proverTree e).mpr he)
    rw [← mark_eq contractHeight node proverTree entry hentry]
    exact hmax _ (List.mem_map_of_mem hentry)

end Elements

section Reaching

variable {env : NodeEnv} {config : NodeRuns.Config} {chain : ℕ → Block}
  (hchain : Finalized D config.badBlocks chain env) {node : MarkedNode D} {contractHeight : ℕ}
  (hnode : Follows env config.badBlocks chain node)

include hchain hnode

/-- The leaves up to a rolled-up block that the node has stored are all in the node, with
marks that are rolled up. -/
theorem marked_le (height : ℕ) (hrolled : height ≤ contractHeight)
    (hstored : node.blockStore.get height ≠ none) (e : Element)
    (he : e ∈ leavesUpTo config.badBlocks chain height) :
    node.notesTree.tree.containsElement e = true ∧ node.insertedIn e ≤ contractHeight := by
  obtain ⟨block, hblock⟩ := Option.ne_none_iff_exists'.mp hstored
  have hin := leavesUpTo_mono _ _ (hnode.below height block hblock) e he
  refine ⟨(hnode.contains_iff hchain e).mpr hin, ?_⟩
  rcases hnode.marked e hin with hzero | ⟨-, -, hfirst⟩
  · omega
  · by_contra hlate
    exact hfirst height (by omega) he

variable {worker : Worker D} {reached : ℕ}
  (hworker : Tracked env config.badBlocks chain worker.notesTree reached)

include hworker

/-- Where the missing elements are covered, the greatest mark is the height they take the tree
of the prover to. -/
theorem Covered.reaches (hcovered : Covered config.badBlocks chain contractHeight node worker)
    (height : ℕ)
    (hhighest : highestBlockHeight
      (rolledUpNotInProver contractHeight node worker.notesTree.tree) = some height)
    (e : Element) :
    e ∈ leavesUpTo config.badBlocks chain height ↔
      e ∈ leavesUpTo config.badBlocks chain reached ∨
        Missing contractHeight node worker.notesTree.tree e := by
  obtain ⟨⟨top, htop, hmark⟩, hgreatest⟩ := highest_some _ _ _ height hhighest
  have hpos : 0 < height := by
    obtain ⟨other, hother, hin⟩ := hcovered top htop
    have hle := hgreatest other hother
    by_contra hzero
    have hnone : node.insertedIn other = 0 := by omega
    rw [hnone] at hin
    cases hin
  have htopIn := (hnode.contains_iff hchain top).mp htop.1
  have hbrought : BroughtBy config.badBlocks chain node.blockStore top height := by
    rcases hnode.marked top htopIn with hzero | hbrought
    · omega
    · rwa [hmark] at hbrought
  have hrolled : height ≤ contractHeight := hmark ▸ htop.2.1
  have hnotIn : ∀ x, Missing contractHeight node worker.notesTree.tree x →
      x ∉ leavesUpTo config.badBlocks chain reached := by
    intro x hx hin
    have hcontains := (hworker.contains_iff hchain x).mpr hin
    rw [hx.2.2] at hcontains
    cases hcontains
  have hbelow : reached < height := by
    by_contra hle
    exact hnotIn top htop (leavesUpTo_mono _ _ (by omega) top hbrought.2.1)
  constructor
  · intro he
    by_cases hold : e ∈ leavesUpTo config.badBlocks chain reached
    · exact Or.inl hold
    · obtain ⟨hcontains, hmarked⟩ := marked_le hchain hnode height hrolled hbrought.1 e he
      refine Or.inr ⟨hcontains, hmarked, ?_⟩
      rw [← Bool.not_eq_true, hworker.contains_iff hchain]
      exact hold
  · rintro (hold | hmissing)
    · exact leavesUpTo_mono _ _ hbelow.le e hold
    · obtain ⟨other, hother, hin⟩ := hcovered e hmissing
      exact leavesUpTo_mono _ _ (hgreatest other hother) e hin

end Reaching

section Synchronising

variable {env : NodeEnv} {config : NodeRuns.Config} {chain : ℕ → Block}

/-- What a start leaves behind: a worker that is up to date and has every rolled-up element of
the node, or an error and a state to start from again. -/
def Started (env : NodeEnv) (badBlocks : List ℕ) (chain : ℕ → Block) (contractHeight : ℕ)
    (node : MarkedNode D) (started : Worker D × Outcome Error LastSeenBlock) : Prop :=
  (∃ last, started.2 = .ok last ∧ UpToDate env badBlocks chain started.1 last ∧
    ∀ e, node.notesTree.tree.containsElement e = true → node.insertedIn e ≤ contractHeight →
      e ∈ leavesUpTo badBlocks chain last.height) ∨
    ((∃ e, started.2 = .error e) ∧ Kept env badBlocks chain started.1)

variable (hchain : Finalized D config.badBlocks chain env)
  (happart : RootsApart D config.badBlocks chain env) {node : MarkedNode D} {contractHeight : ℕ}
  {worker : Worker D} {reached : ℕ}

include hchain

omit happart in
/-- The missing elements make a batch. -/
theorem missing_batch (hD : D ≤ 257) (hnode : Follows env config.badBlocks chain node)
    (contractHeight : ℕ) (proverTree : ValueTree D SmirkMetadata) :
    ∃ batch, ValueBatch.fromEntries D (rolledUpNotInProver contractHeight node proverTree) =
        .ok batch ∧
      batch.entries = rolledUpNotInProver contractHeight node proverTree ∧
      ∀ e, e ∈ batch.elements ↔ Missing contractHeight node proverTree e := by
  have hmem := mem_rolledUp contractHeight node proverTree
  have hpairs : (rolledUpNotInProver contractHeight node proverTree).Pairwise
      fun a b => bits D a.1 ≠ bits D b.1 := by
    refine (List.pairwise_map.mp (rolledUp_nodup contractHeight node proverTree)).imp_of_mem ?_
    intro a b ha hb hne heq
    have hin : ∀ x ∈ rolledUpNotInProver contractHeight node proverTree,
        x.1 ∈ leavesUpTo config.badBlocks chain node.height := fun x hx =>
      (hnode.contains_iff hchain x.1).mp ((hmem x.1).mp (List.mem_map_of_mem hx)).1
    exact hne (hchain.slot_inj node.height a.1 b.1 (hin a ha) (hin b hb) heq)
  obtain ⟨batch, hbatch, hentries⟩ := ValueTree.valueBatch_fromEntries _ (Or.inr hD) hpairs
  refine ⟨batch, hbatch, hentries, fun e => ?_⟩
  rw [ValueBatch.elements, hentries, hmem]

omit happart in
/-- A start whose writes succeed inserts the missing elements, and takes their greatest mark
for the last seen height. -/
theorem synchronise_inserted (hD : D ≤ 257) (hnode : Follows env config.badBlocks chain node)
    (hworker : Tracked env config.badBlocks chain worker.notesTree reached) (io : StartIo)
    (htree : io.treeWritten = true) (hseen : io.lastSeenWritten = true) (height : ℕ)
    (hhighest : highestBlockHeight
      (rolledUpNotInProver contractHeight node worker.notesTree.tree) = some height) :
    let started := synchronise env.poseidon io contractHeight node worker
    (∃ last, started.2 = .ok last ∧ last.height = height) ∧
      ∀ e, Missing contractHeight node worker.notesTree.tree e ∨
          worker.notesTree.tree.keyed.containsElement e = true →
        started.1.notesTree.tree.keyed.containsElement e = true := by
  intro started
  obtain ⟨batch, hbatch, -, hmem⟩ := missing_batch hchain hD hnode contractHeight
    worker.notesTree.tree
  have hcontains := hworker.contains_iff hchain
  obtain ⟨entries, hstored, hlaid⟩ := hworker
  have hin : ∀ e ∈ batch.elements, e ∈ leavesUpTo config.badBlocks chain node.height :=
    fun e he => (hnode.contains_iff hchain e).mp ((hmem e).mp he).1
  have hnull : ∀ e ∈ batch.elements, e ≠ Element.nullHash := fun e he =>
    leavesUpTo_ne_null _ e (hin e he)
  have hvacant : ∀ e ∈ batch.elements, hstored.holds.valid.sparse.leaf (bits D e) = 0 := by
    intro e he
    rw [hlaid]
    refine hchain.vacant node.height reached e (hin e he) fun hold => ?_
    have hmissing := ((hmem e).mp he).2.2
    rw [(hcontains e).mpr hold] at hmissing
    cases hmissing
  obtain ⟨hok, hvalid, hsparse⟩ := insertBatch_laid hstored.holds.valid hstored.holds.faithful
    io.schedule batch hnull hvacant
  have hstarted : started = (⟨worker.db.setLastSeenBlock ⟨height,
      (worker.notesTree.insertBatch env.poseidon io.schedule batch true).1.tree.rootHash
        env.poseidon⟩, (worker.notesTree.insertBatch env.poseidon io.schedule batch true).1⟩,
      .ok ⟨height, (worker.notesTree.insertBatch env.poseidon io.schedule batch
        true).1.tree.rootHash env.poseidon⟩) := by
    simp only [started, synchronise, hbatch, htree, hok, hhighest, hseen, Bool.true_eq_false,
      if_false, checkLastSeen, ProverDb.setLastSeenBlock, Option.getD_some, ne_eq,
      not_true_eq_false]
  rw [hstarted]
  refine ⟨⟨_, rfl, rfl⟩, fun e he => ?_⟩
  rw [← hvalid.mem_sparse, hsparse, SparseTree.mem_laid _ hnull ⟨batch.keys.distinct, hvacant⟩,
    hmem, hstored.holds.valid.mem_sparse]
  exact he

include happart

/-- A tree that has the rolled-up elements passes the last check or is reset. -/
theorem checkLastSeen_started (io : StartIo)
    (hworker : Tracked env config.badBlocks chain worker.notesTree reached)
    (hrecorded : Recorded D env config.badBlocks chain worker.db)
    (hall : ∀ e, node.notesTree.tree.containsElement e = true →
      node.insertedIn e ≤ contractHeight → e ∈ leavesUpTo config.badBlocks chain reached) :
    Started env config.badBlocks chain contractHeight node
      (checkLastSeen env.poseidon io worker) := by
  rcases checkLastSeen_cases hchain happart io worker reached hworker hrecorded with
    ⟨last, hok, hdate⟩ | hfailed
  · refine Or.inl ⟨last, hok, hdate, fun e hin hrolled => ?_⟩
    have hsame : (checkLastSeen env.poseidon io worker).1 = worker := by
      unfold checkLastSeen at hok ⊢
      dsimp only at hok ⊢
      split
      · rename_i hne
        rw [if_pos hne] at hok
        split at hok <;> [cases hok; split at hok <;> cases hok]
      · rfl
    have htracked := hdate.tracked
    rw [hsame] at htracked
    rw [← htracked.contains_iff hchain, hworker.contains_iff hchain]
    exact hall e hin hrolled
  · exact Or.inr hfailed

/-- Where the missing elements are covered, the start brings the worker up to date or stops in
a state to start from again. -/
theorem synchronise_started (hD : D ≤ 257) (hnode : Follows env config.badBlocks chain node)
    (hworker : Tracked env config.badBlocks chain worker.notesTree reached)
    (hrecorded : Recorded D env config.badBlocks chain worker.db)
    (hcovered : Covered config.badBlocks chain contractHeight node worker) (io : StartIo) :
    Started env config.badBlocks chain contractHeight node
      (synchronise env.poseidon io contractHeight node worker) := by
  obtain ⟨batch, hbatch, hentries, hmem⟩ := missing_batch hchain hD hnode contractHeight
    worker.notesTree.tree
  have hhas : ∀ e, node.notesTree.tree.containsElement e = true →
      node.insertedIn e ≤ contractHeight → e ∈ leavesUpTo config.badBlocks chain reached ∨
        Missing contractHeight node worker.notesTree.tree e := by
    intro e hin hrolled
    by_cases hold : e ∈ leavesUpTo config.badBlocks chain reached
    · exact Or.inl hold
    · refine Or.inr ⟨hin, hrolled, ?_⟩
      rwa [← Bool.not_eq_true, hworker.contains_iff hchain]
  unfold synchronise
  simp only [hbatch]
  cases hhighest : highestBlockHeight
      (rolledUpNotInProver contractHeight node worker.notesTree.tree) with
  | none =>
    have hempty := hentries.trans ((highest_none _ _ _).mp hhighest)
    have hinserted : worker.notesTree.insertBatch env.poseidon io.schedule batch io.treeWritten =
        (worker.notesTree, .ok ()) := by
      simp [SmirkStorage.Persistent.insertBatch, hempty]
    simp only [hinserted]
    refine checkLastSeen_started hchain happart io hworker hrecorded fun e hin hrolled => ?_
    refine (hhas e hin hrolled).resolve_right fun hmissing => ?_
    have hin := (hmem e).mpr hmissing
    rw [ValueBatch.elements, hempty] at hin
    cases hin
  | some height =>
    have hreaches := hcovered.reaches hchain hnode hworker height hhighest
    have hfresh : ∀ e ∈ batch.elements, e ∉ leavesUpTo config.badBlocks chain reached := by
      intro e he hin
      have hcontains := (hworker.contains_iff hchain e).mpr hin
      rw [((hmem e).mp he).2.2] at hcontains
      cases hcontains
    have hall : ∀ e, e ∈ leavesUpTo config.badBlocks chain height ↔
        e ∈ leavesUpTo config.badBlocks chain reached ∨ e ∈ batch.elements := by
      intro e
      rw [hreaches, hmem]
    rcases hworker.insertBatch hchain io.schedule batch hall hfresh io.treeWritten with
      ⟨hok, htracked⟩ | ⟨⟨failure, herror⟩, hdb, -⟩
    · simp only [hok]
      split
      · exact Or.inr ⟨⟨_, rfl⟩, ⟨_, height, rfl, htracked⟩, hrecorded⟩
      · exact checkLastSeen_started hchain happart io htracked
          (recorded_set worker.db _ htracked.rootHash_eq)
          fun e hin hrolled => (hreaches e).mpr (hhas e hin hrolled)
    · simp only [herror]
      exact Or.inr ⟨⟨_, rfl⟩, ⟨worker.notesTree, reached, hdb.symm, hworker⟩, hrecorded⟩

/-- A start whose writes succeed leaves a worker that goes on up to date exactly when the
missing elements were covered. -/
theorem synchronise_upToDate_iff (hD : D ≤ 257)
    (hnode : Follows env config.badBlocks chain node)
    (hworker : Tracked env config.badBlocks chain worker.notesTree reached)
    (hrecorded : Recorded D env config.badBlocks chain worker.db) (io : StartIo)
    (htree : io.treeWritten = true) (hseen : io.lastSeenWritten = true) :
    (∀ last, (synchronise env.poseidon io contractHeight node worker).2 = .ok last →
        UpToDate env config.badBlocks chain
          (synchronise env.poseidon io contractHeight node worker).1 last) ↔
      Covered config.badBlocks chain contractHeight node worker := by
  constructor
  · intro hdate
    cases hhighest : highestBlockHeight
        (rolledUpNotInProver contractHeight node worker.notesTree.tree) with
    | none =>
      intro e he
      have hin := (mem_rolledUp _ _ _ e).mpr he
      rw [(highest_none _ _ _).mp hhighest] at hin
      cases hin
    | some height =>
      obtain ⟨⟨last, hok, hlast⟩, hinserted⟩ := synchronise_inserted hchain hD hnode hworker io
        htree hseen height hhighest
      obtain ⟨⟨top, htop, hmark⟩, -⟩ := highest_some _ _ _ height hhighest
      intro e he
      refine ⟨top, htop, ?_⟩
      rw [hmark, ← hlast, ← (hdate last hok).tracked.contains_iff hchain]
      exact hinserted e (Or.inl he)
  · intro hcovered last hok
    rcases synchronise_started hchain happart hD hnode hworker hrecorded hcovered io with
      ⟨last', hok', hdate, -⟩ | ⟨⟨e, herror⟩, -⟩
    · obtain rfl := Except.ok.inj (hok.symm.trans hok')
      exact hdate
    · rw [herror] at hok
      cases hok

end Synchronising

section LastSeen

/-- The last seen block after a check was there before, or is the one of a reset. -/
theorem checkLastSeen_seen (hash : List Fr → Fr) (io : StartIo) (worker : Worker D)
    (block : LastSeenBlock)
    (h : (checkLastSeen hash io worker).1.db.lastSeenBlock = some block) :
    worker.db.lastSeenBlock = some block ∨ block.height = 0 := by
  unfold checkLastSeen at h
  dsimp only at h
  split at h
  · split at h
    · exact Or.inl h
    · split at h <;>
      · obtain rfl := Option.some.inj h
        exact Or.inr rfl
  · exact Or.inl h

/-- A start remembers no height beyond the contract's that was not remembered before. -/
theorem synchronise_seen (hash : List Fr → Fr) (io : StartIo) (contractHeight : ℕ)
    (node : MarkedNode D) (worker : Worker D) (block : LastSeenBlock)
    (h : (synchronise hash io contractHeight node worker).1.db.lastSeenBlock = some block) :
    worker.db.lastSeenBlock = some block ∨ block.height ≤ contractHeight := by
  have hchecked : ∀ tree : SmirkStorage.Persistent D SmirkMetadata,
      (checkLastSeen hash io ⟨worker.db, tree⟩).1.db.lastSeenBlock =
      some block → worker.db.lastSeenBlock = some block ∨ block.height ≤ contractHeight := by
    intro tree hseen
    rcases checkLastSeen_seen hash io ⟨worker.db, tree⟩ block hseen with hold | hzero
    · exact Or.inl hold
    · omega
  unfold synchronise at h
  dsimp only at h
  split at h
  · exact Or.inl h
  · split at h
    · exact Or.inl h
    · split at h
      · exact hchecked _ h
      · rename_i height hhighest
        split at h
        · exact Or.inl h
        · rcases checkLastSeen_seen hash io _ block h with hold | hzero
          · obtain rfl := Option.some.inj hold
            obtain ⟨⟨e, hmissing, hmark⟩, -⟩ := highest_some _ _ _ height hhighest
            exact Or.inr (hmark ▸ hmissing.2.1)
          · omega

end LastSeen

end PayyRollup.ProverRecovery
