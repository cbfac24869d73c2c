import PayyRollup.BlockCommit

/-!
Runs of committed blocks. From an empty ledger a node commits blocks at rising heights; each
passes validation or is configured as bad, and its commit succeeds. The runs may be limited
to commits that meet a further condition. A block that passed validation declares the root
of the tree it leads to, and the store holds exactly the blocks of the run.
-/
namespace PayyRollup.CommittedRuns

open ScalarField SparseMerkle ElementHash SmirkNode SmirkTree NodeBlocks BlockValidation
  BlockCommit

variable {D : ℕ}

section Runs

variable (env : NodeEnv) (mode : Mode) (badBlocks : List ℕ)

/-- A block above every stored one that passes, or is passed over, and is committed. -/
structure CommitsBlock (block : Block) (l l' : Ledger D) : Prop where
  height_lt : block.height < 2 ^ 64
  rising : ∀ height stored, l.blockStore.get height = some stored → height < block.height
  validated : block.height ∉ badBlocks →
    validate env block.content mode l.blockStore l.notesTree.tree = .ok ()
  committed : ∃ io, commitProposal env badBlocks io block l = (l', .ok ())

/-- The runs whose commits are all admitted, with the ledger they end in. -/
inductive CommittedRun (admits : Block → Ledger D → Prop) : List Block → Ledger D → Prop
  | start : CommittedRun admits [] (freshLedger D)
  | commit (blocks : List Block) (l : Ledger D) (block : Block) (l' : Ledger D) :
      CommittedRun admits blocks l → CommitsBlock env mode badBlocks block l l' →
      admits block l' → CommittedRun admits (blocks ++ [block]) l'

/-- A block that skips validation declares the root it leads to. -/
def DeclaresRoot (block : Block) (l' : Ledger D) : Prop :=
  block.height ∈ badBlocks → l'.notesTree.tree.rootHash env.poseidon = block.rootHash

end Runs

section Commits

variable {env : NodeEnv} {mode : Mode} {badBlocks : List ℕ} {block : Block} {l l' : Ledger D}

/-- A successful commit stores the block and inserts its leaves into free slots. -/
theorem CommitsBlock.cases (h : CommitsBlock env mode badBlocks block l l')
    (hvalid : l.notesTree.tree.Valid env.poseidon) :
    ∃ io, Committed env badBlocks io block l l' hvalid ∧ LeavesFree badBlocks block l hvalid := by
  obtain ⟨io, hio⟩ := h.committed
  have hcases := @commitProposal_cases D env badBlocks io block l hvalid
  rw [hio] at hcases
  rcases hcases with ⟨-, hfails⟩ | ⟨-, hfails, -⟩ | ⟨hcommitted, -, hfree⟩
  · exact absurd rfl hfails
  · exact absurd rfl hfails
  · exact ⟨io, hcommitted, hfree⟩

/-- A block above the stored ones that passes is committed if its leaves have free slots. -/
theorem exists_commitsBlock (hvalid : l.notesTree.tree.Valid env.poseidon)
    (hlt : block.height < 2 ^ 64)
    (hrising : ∀ height stored, l.blockStore.get height = some stored → height < block.height)
    (hok : block.height ∉ badBlocks →
      validate env block.content mode l.blockStore l.notesTree.tree = .ok ())
    (hfree : LeavesFree badBlocks block l hvalid) :
    ∃ l', CommitsBlock env mode badBlocks block l l' ∧
      ∃ h' : l'.notesTree.tree.Valid env.poseidon, h'.sparse = hvalid.sparse.laid
        (newLeaves l.notesTree.tree block.content.state (decide (block.height ∈ badBlocks))) := by
  obtain ⟨hcommitted, -, hresult⟩ := @commitProposal_free D env badBlocks ⟨true, true⟩ block l
    hvalid rfl hfree
  exact ⟨_, ⟨hlt, hrising, hok, ⟨true, true⟩, Prod.ext rfl (hresult (Or.inl rfl))⟩,
    hcommitted.inserted⟩

theorem CommitsBlock.valid (h : CommitsBlock env mode badBlocks block l l')
    (hvalid : l.notesTree.tree.Valid env.poseidon) :
    l'.notesTree.tree.Valid env.poseidon := by
  obtain ⟨io, hcommitted, -⟩ := h.cases hvalid
  exact hcommitted.inserted.choose

/-- A committed block declares the root of the tree it leads to. -/
theorem CommitsBlock.root (h : CommitsBlock env mode badBlocks block l l')
    (hvalid : l.notesTree.tree.Valid env.poseidon)
    (hdeclares : DeclaresRoot env badBlocks block l') :
    l'.notesTree.tree.rootHash env.poseidon = block.rootHash := by
  by_cases hbad : block.height ∈ badBlocks
  · exact hdeclares hbad
  · obtain ⟨io, hcommitted, hfree⟩ := h.cases hvalid
    obtain ⟨h', hsparse⟩ := hcommitted.inserted
    obtain ⟨-, hroot⟩ := (validate_ok mode block.content l.blockStore l.notesTree.tree).mp
      (h.validated hbad)
    obtain ⟨-, hdeclared⟩ := (newRootHash_eq_some hvalid _ _).mp hroot
    rw [h'.rootHash_eq, hsparse, newLeaves_of_not_bad _ _ _ _ hbad]
    exact hdeclared.symm

/-- A block without transactions leads to the tree it found. -/
theorem CommitsBlock.root_of_empty (h : CommitsBlock env mode badBlocks block l l')
    (hvalid : l.notesTree.tree.Valid env.poseidon) (hempty : block.content.state.txns = []) :
    l'.notesTree.tree.rootHash env.poseidon = l.notesTree.tree.rootHash env.poseidon := by
  obtain ⟨io, hcommitted, -⟩ := h.cases hvalid
  obtain ⟨h', hsparse⟩ := hcommitted.inserted
  have hleaves : newLeaves l.notesTree.tree block.content.state
      (decide (block.height ∈ badBlocks)) = [] := by
    simp [newLeaves, BlockState.leavesNonNull, BlockState.leaves, nonNull, hempty]
  rw [h'.rootHash_eq, hvalid.rootHash_eq, hsparse, hleaves, SparseTree.laid_nil]

theorem CommitsBlock.stored (h : CommitsBlock env mode badBlocks block l l')
    (hvalid : l.notesTree.tree.Valid env.poseidon) :
    l'.blockStore = l.blockStore.set block := by
  obtain ⟨io, hcommitted, -⟩ := h.cases hvalid
  exact hcommitted.stored

variable {admits : Block → Ledger D → Prop} {blocks : List Block}

theorem CommittedRun.valid (h : CommittedRun env mode badBlocks admits blocks l) :
    l.notesTree.tree.Valid env.poseidon := by
  induction h with
  | start => exact Tree.new_valid
  | commit blocks l block l' _ hcommits _ ih => exact hcommits.valid ih

/-- The store holds the blocks of the run, each under its height. -/
theorem CommittedRun.stored (h : CommittedRun env mode badBlocks admits blocks l)
    (height : ℕ) (b : Block) :
    l.blockStore.get height = some b ↔ b ∈ blocks ∧ b.height = height := by
  induction h with
  | start => simp [freshLedger, BlockStore.get, BlockStore.empty]
  | commit blocks l block l' hrun hcommits _ ih =>
    rw [hcommits.stored hrun.valid, List.mem_append, List.mem_singleton]
    by_cases hheight : height = block.height
    · subst hheight
      rw [BlockStore.set_get_self, Option.some.injEq]
      constructor
      · rintro rfl
        exact ⟨Or.inr rfl, rfl⟩
      · rintro ⟨hmem | rfl, heq⟩
        · exact absurd (hcommits.rising _ b (ih.mpr ⟨hmem, heq⟩)) (lt_irrefl _)
        · rfl
    · rw [BlockStore.set_get_of_ne _ _ _ hheight, ih]
      constructor
      · rintro ⟨hmem, heq⟩
        exact ⟨Or.inl hmem, heq⟩
      · rintro ⟨hmem | rfl, heq⟩
        · exact ⟨hmem, heq⟩
        · exact absurd heq.symm hheight

/-- The next block is above every block of the run. -/
theorem CommittedRun.rising (h : CommittedRun env mode badBlocks admits blocks l)
    (hcommits : CommitsBlock env mode badBlocks block l l') :
    ∀ b ∈ blocks, b.height < block.height := by
  intro b hb
  exact hcommits.rising _ b ((h.stored _ b).mpr ⟨hb, rfl⟩)

theorem CommittedRun.heights (h : CommittedRun env mode badBlocks admits blocks l) :
    blocks.Pairwise fun a b => a.height < b.height := by
  induction h with
  | start => exact List.Pairwise.nil
  | commit blocks l block l' hrun hcommits _ ih =>
    refine List.pairwise_append.mpr ⟨ih, List.pairwise_singleton _ _, ?_⟩
    intro a ha b hb
    obtain rfl := List.mem_singleton.mp hb
    exact hrun.rising hcommits a ha

/-- A run stops after any of its blocks. -/
theorem CommittedRun.of_append (before after : List Block)
    (h : CommittedRun env mode badBlocks admits (before ++ after) l) :
    ∃ l₀, CommittedRun env mode badBlocks admits before l₀ := by
  generalize hblocks : before ++ after = blocks at h
  induction h generalizing after with
  | start =>
    obtain ⟨rfl, -⟩ := List.append_eq_nil_iff.mp hblocks
    exact ⟨_, .start⟩
  | commit blocks l block l' hrun hcommits hadmits ih =>
    rcases List.eq_nil_or_concat after with rfl | ⟨rest, last, rfl⟩
    · rw [List.append_nil] at hblocks
      rw [hblocks]
      exact ⟨l', .commit blocks l block l' hrun hcommits hadmits⟩
    · rw [List.concat_eq_append, ← List.append_assoc] at hblocks
      obtain ⟨hinit, -⟩ := List.append_inj' hblocks rfl
      exact ih rest hinit

/-- The last step of a run. -/
theorem CommittedRun.last (h : CommittedRun env mode badBlocks admits (blocks ++ [block]) l') :
    ∃ l, CommittedRun env mode badBlocks admits blocks l ∧
      CommitsBlock env mode badBlocks block l l' ∧ admits block l' := by
  generalize hblocks : blocks ++ [block] = all at h
  cases h with
  | start => simp at hblocks
  | commit blocks' l block' _ hrun hcommits hadmits =>
    obtain ⟨rfl, hlast⟩ := List.append_inj' hblocks rfl
    obtain rfl := List.singleton_inj.mp hlast
    exact ⟨l, hrun, hcommits, hadmits⟩

end Commits
end PayyRollup.CommittedRuns
