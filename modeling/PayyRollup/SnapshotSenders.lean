import PayyRollup.ProverSynchrony

/-!
The sender of a fast snapshot. It sends the block of a height it stores, and of its current
tree the elements that are not marked with a later height. The mark of an element is the block
that brought it, but zero where the element came with a snapshot: such elements are sent with
every height, also with a height below the blocks that they come from. A receiver that follows
the same chain then finds a root that is not that of the block. Wherever no such element is
younger than the block, the receiver accepts the chunk and ends with the leaves up to the block.
-/
namespace PayyRollup.SnapshotSenders

open ScalarField SparseMerkle ElementHash SmirkTree NodeBlocks BlockCaches BlockValidation
  BlockCommit NodeRuns FastSync ChainHistory
open SmirkNode hiding Node
open SmirkValues (elementHash)

variable {D : ℕ}

/-- What a node sends for a fast snapshot up to a height. -/
def sendSnapshotChunkFast (snapshotId : SnapshotId) (toHeight : ℕ) (self : MarkedNode D) :
    SnapshotChunkFast where
  snapshotId := snapshotId
  block := self.blockStore.get toHeight
  elements := self.notesTree.tree.entries.filter fun e => decide (self.insertedIn e ≤ toHeight)

/-- A node that starts from genesis. -/
def genesisStart (env : NodeEnv) (D : ℕ) : MarkedNode D :=
  ⟨⟨BlockCache.new env Block.genesis 10000, freshLedger D⟩, fun _ => 0⟩

/-- The states of a node from genesis on, along a chain. -/
inductive Reachable (env : NodeEnv) (config : Config) (overflowChecks : Bool)
    (chain : ℕ → Block) : MarkedNode D → Prop
  | genesis : Reachable env config overflowChecks chain (genesisStart env D)
  | step (s : MarkedNode D) (event : NodeEvent) :
      Reachable env config overflowChecks chain s → OnChain env config chain s event →
      Reachable env config overflowChecks chain (nodeStep env config overflowChecks s event)
  | dropped (s : MarkedNode D) (chunk : SnapshotChunkFast) :
      Reachable env config overflowChecks chain s →
      (receiveChunk env config overflowChecks chunk s).node = s.node →
      Reachable env config overflowChecks chain (receiveChunk env config overflowChecks chunk s)

/-- No element without a mark is younger than the block of a height. -/
def NoneYounger (badBlocks : List ℕ) (chain : ℕ → Block) (toHeight : ℕ) (s : MarkedNode D) :
    Prop :=
  ∀ e, s.notesTree.tree.containsElement e = true → s.insertedIn e = 0 →
    e ∈ leavesUpTo badBlocks chain toHeight

/-- What a chunk is for: it has the block, its elements form a tree with the root of the block,
and a receiver accepts it and ends with the leaves up to the block. -/
structure Complete (env : NodeEnv) (config : Config) (overflowChecks : Bool) (chain : ℕ → Block)
    (toHeight : ℕ) (chunk : SnapshotChunkFast) (receiver : MarkedNode D) : Prop where
  block : chunk.block = some (chain toHeight)
  root : (Tree.new D).rootHashWith env.poseidon chunk.elements.dedup =
    some (chain toHeight).rootHash
  accepted : (handleSnapshotChunkFast env config overflowChecks true chunk receiver.node).2 =
    .ok true
  ends : ∀ e, (commitBlock env config (chain toHeight) (receiveChunk env config overflowChecks
      chunk receiver)).notesTree.tree.containsElement e = true ↔
    e ∈ leavesUpTo config.badBlocks chain toHeight

section Sending

variable {env : NodeEnv} {config : Config} {chain : ℕ → Block}
  (hchain : Finalized D config.badBlocks chain env)

include hchain in
theorem Reachable.follows (happart : RootsApart D config.badBlocks chain env)
    {overflowChecks : Bool} {s : MarkedNode D} (h : Reachable env config overflowChecks chain s) :
    Follows env config.badBlocks chain s := by
  induction h with
  | genesis => exact (ProverRecovery.safe_fresh 0).follows
  | step s event _ hon ih => exact (ih.step hchain happart overflowChecks event hon).1
  | dropped s chunk _ hsame ih =>
    have hreceived : receiveChunk env config overflowChecks chunk s = ⟨s.node, s.marks 0⟩ :=
      congrArg (fun node => (⟨node, s.marks 0⟩ : MarkedNode D)) hsame
    rw [hreceived]
    exact ih.remark hchain 0

variable {s : MarkedNode D} (hs : Follows env config.badBlocks chain s) (toHeight : ℕ)
  (hstored : s.blockStore.get toHeight ≠ none)

include hs hstored

theorem sent_block : s.blockStore.get toHeight = some (chain toHeight) ∧ 0 < toHeight ∧
    toHeight ≤ s.height := by
  obtain ⟨b, hb⟩ := Option.ne_none_iff_exists'.mp hstored
  obtain ⟨rfl, hpos⟩ := hs.shelved.block_eq toHeight b hb
  exact ⟨hb, hpos, hs.below toHeight _ hb⟩

include hchain

/-- The leaves up to the block are sent, and the elements without a mark. -/
theorem mem_sent (snapshotId : SnapshotId) (e : Element) :
    e ∈ (sendSnapshotChunkFast snapshotId toHeight s).elements ↔
      e ∈ leavesUpTo config.badBlocks chain toHeight ∨
        s.notesTree.tree.containsElement e = true ∧ s.insertedIn e = 0 := by
  obtain ⟨-, -, hle⟩ := sent_block hs toHeight hstored
  have hentry : e ∈ s.notesTree.tree.entries ↔
      e ∈ leavesUpTo config.badBlocks chain s.height := by
    rw [← hs.contains_iff hchain, Tree.containsElement, decide_eq_true_eq]
  have hcontains := hs.contains_iff hchain e
  change e ∈ s.notesTree.tree.entries.filter _ ↔ _
  rw [List.mem_filter, decide_eq_true_eq, hentry, hcontains]
  constructor
  · rintro ⟨hin, hmark⟩
    rcases hs.marked e hin with hzero | ⟨-, hbrought, -⟩
    · exact Or.inr ⟨hin, hzero⟩
    · exact Or.inl (leavesUpTo_mono _ _ hmark e hbrought)
  · rintro (hin | ⟨hin, hzero⟩)
    · have hlater := leavesUpTo_mono toHeight s.height hle e hin
      refine ⟨hlater, ?_⟩
      rcases hs.marked e hlater with hzero | ⟨-, -, hfirst⟩
      · omega
      · by_contra hlate
        exact hfirst toHeight (by omega) hin
    · exact ⟨hin, by omega⟩

theorem noneYounger_iff (snapshotId : SnapshotId) :
    NoneYounger config.badBlocks chain toHeight s ↔
      ∀ e, e ∈ (sendSnapshotChunkFast snapshotId toHeight s).elements ↔
        e ∈ leavesUpTo config.badBlocks chain toHeight := by
  have hsent := mem_sent hchain hs toHeight hstored snapshotId
  constructor
  · intro hnone e
    rw [hsent]
    exact or_iff_left_of_imp fun ⟨hin, hzero⟩ => hnone e hin hzero
  · intro hexact e hin hzero
    exact (hexact e).mp ((hsent e).mpr (Or.inr ⟨hin, hzero⟩))

end Sending

section Receiving

variable {env : NodeEnv} {config : Config} {chain : ℕ → Block}
  (hchain : Finalized D config.badBlocks chain env) (toHeight : ℕ)

include hchain

/-- Distinct leaves of the chain that are not in a tree of such leaves have free slots. -/
theorem free_of_leaves (T : SparseTree Element (bits D))
    (hT : ∀ e ∈ T, e ∈ leavesUpTo config.badBlocks chain toHeight) (xs : List Element)
    (hnodup : xs.Nodup) (hxs : ∀ e ∈ xs, e ∈ leavesUpTo config.badBlocks chain toHeight)
    (hout : ∀ e ∈ xs, e ∉ T) : T.Free xs := by
  refine ⟨hnodup.imp_of_mem fun ha hb hne heq => ?_, fun e he => ?_⟩
  · exact hne (hchain.slot_inj toHeight _ _ (hxs _ ha) (hxs _ hb) heq)
  · by_contra hne
    have hmem := SparseTree.leaf_mem T (bits D e) hne
    have hsame := hchain.slot_inj toHeight _ e (hT _ hmem) (hxs e he) (T.placed _ hne)
    rw [hsame] at hmem
    exact hout e he hmem

theorem root_of_exact (hpos : 0 < toHeight) (elements : List Element)
    (hexact : ∀ e, e ∈ elements ↔ e ∈ leavesUpTo config.badBlocks chain toHeight) :
    (Tree.new D).rootHashWith env.poseidon elements.dedup = some (chain toHeight).rootHash := by
  have hnew : (Tree.new D).Valid env.poseidon := Tree.new_valid
  have hin : ∀ e ∈ elements.dedup, e ∈ leavesUpTo config.badBlocks chain toHeight :=
    fun e he => (hexact e).mp (List.mem_dedup.mp he)
  have hfree := free_of_leaves hchain toHeight (SparseTree.empty (bits D))
    (fun e he => absurd he (SparseTree.not_mem_empty e)) elements.dedup (List.nodup_dedup _) hin
    fun e _ => SparseTree.not_mem_empty e
  have hlaid : (SparseTree.empty (bits D)).laid elements.dedup =
      chainTree D config.badBlocks chain toHeight := by
    refine hchain.laid_eq _ toHeight _ (fun x hx => leavesUpTo_ne_null toHeight x (hin x hx))
      hfree fun e => ?_
    rw [List.mem_dedup, hexact]
    exact or_iff_left (SparseTree.not_mem_empty e)
  rw [hnew.rootHashWith_eq_some, Tree.new_sparse hnew]
  exact ⟨hfree.not_crowded, by rw [hlaid]; exact root_of_height hchain toHeight hpos⟩

omit hchain in
theorem mem_leaves_of_block (hpos : 0 < toHeight) (e : Element)
    (he : e ∈ (chain toHeight).content.state.leavesNonNull) :
    e ∈ leavesUpTo config.badBlocks chain toHeight := by
  obtain ⟨below, rfl⟩ : ∃ below, toHeight = below + 1 := ⟨toHeight - 1, by omega⟩
  rw [leavesUpTo, List.mem_append, mem_addedLeaves]
  exact Or.inr he

/-- The leaves of a block that is not bad are distinct and new. -/
theorem good_leaves (hpos : 0 < toHeight) (hgood : toHeight ∉ config.badBlocks) :
    (chain toHeight).content.state.leavesNonNull.Nodup ∧
      ∀ e ∈ (chain toHeight).content.state.leavesNonNull, ∀ height < toHeight,
        e ∉ leavesUpTo config.badBlocks chain height := by
  obtain ⟨below, rfl⟩ : ∃ below, toHeight = below + 1 := ⟨toHeight - 1, by omega⟩
  have hadded : addedLeaves config.badBlocks (leavesUpTo config.badBlocks chain below)
      (chain (below + 1)) = (chain (below + 1)).content.state.leavesNonNull := by
    rw [addedLeaves, if_neg (by rwa [hchain.height_eq])]
  constructor
  · have hapart := hchain.apart (below + 1)
    rw [leavesUpTo, hadded] at hapart
    refine (List.pairwise_append.mp hapart).2.1.imp fun hne heq => hne ?_
    rw [heq]
  · intro e he height hheight hin
    exact hchain.fresh below hgood e he (leavesUpTo_mono height below (by omega) e hin)

variable {r : MarkedNode D} (hr : Follows env config.badBlocks chain r)
  (hbehind : r.height < toHeight)

include hr hbehind

theorem receiver_below (e : Element) (he : r.notesTree.tree.containsElement e = true) :
    e ∈ leavesUpTo config.badBlocks chain toHeight :=
  leavesUpTo_mono _ _ hbehind.le e ((hr.contains_iff hchain e).mp he)

omit hchain hr hbehind in
theorem mem_newElements (tree : Tree D) (elements : List Element) (e : Element) :
    e ∈ newElements tree elements ↔ e ∈ elements ∧ ¬tree.containsElement e = true := by
  rw [newElements, List.mem_filter, List.mem_dedup]
  simp

/-- The exact leaves are accepted if the block brings leaves that the receiver does not have. -/
theorem accepted_of_exact (elements : List Element)
    (hexact : ∀ e, e ∈ elements ↔ e ∈ leavesUpTo config.badBlocks chain toHeight)
    (hfresh : ∀ e ∈ (chain toHeight).content.state.leavesNonNull,
      ¬r.notesTree.tree.containsElement e = true) :
    ¬Crowded (bits D) hr.stored.valid.sparse.leaf (newElements r.notesTree.tree elements) ∧
      Accepted hr.stored.valid (chain toHeight) elements := by
  have hpos : 0 < toHeight := by omega
  have hmem := mem_newElements r.notesTree.tree elements
  have htree : ∀ e, e ∈ hr.stored.valid.sparse ↔ r.notesTree.tree.containsElement e = true :=
    hr.stored.valid.mem_sparse
  have hin : ∀ e ∈ newElements r.notesTree.tree elements,
      e ∈ leavesUpTo config.badBlocks chain toHeight := fun e he =>
    (hexact e).mp ((hmem e).mp he).1
  have hfree := free_of_leaves hchain toHeight hr.stored.valid.sparse
    (fun e he => receiver_below hchain toHeight hr hbehind e ((htree e).mp he))
    (newElements r.notesTree.tree elements) ((List.nodup_dedup _).filter _) hin
    fun e he hold => ((hmem e).mp he).2 ((htree e).mp hold)
  have hlaid : hr.stored.valid.sparse.laid (newElements r.notesTree.tree elements) =
      chainTree D config.badBlocks chain toHeight := by
    refine hchain.laid_eq _ toHeight _ (fun x hx => leavesUpTo_ne_null toHeight x (hin x hx))
      hfree fun e => ?_
    rw [hmem, htree, hexact]
    constructor
    · rintro (⟨hnew, -⟩ | hold)
      · exact hnew
      · exact receiver_below hchain toHeight hr hbehind e hold
    · intro hup
      by_cases hold : r.notesTree.tree.containsElement e = true
      · exact Or.inr hold
      · exact Or.inl ⟨hup, hold⟩
  refine ⟨hfree.not_crowded, ⟨?_, fun e he => ?_, hfree.distinct.filter _, fun e he => ?_⟩⟩
  · rw [assembledRoot, hlaid]
    exact (root_of_height hchain toHeight hpos).symm
  · exact (hmem e).mpr
      ⟨(hexact e).mpr (mem_leaves_of_block toHeight hpos e he), hfresh e he⟩
  · exact hfree.vacant e (List.mem_of_mem_filter he)

omit hchain hbehind in
/-- An accepted chunk adds the elements that the block does not bring. -/
theorem received_of_accepted (overflowChecks : Bool) (hmode : config.mode ≠ .validator)
    (chunk : SnapshotChunkFast) (block : Block) (hblock : chunk.block = some block)
    (hpos : 0 < block.height) (hnull : ∀ e ∈ chunk.elements, e ≠ Element.nullHash)
    (hcrowded : ¬Crowded (bits D) hr.stored.valid.sparse.leaf
      (newElements r.notesTree.tree chunk.elements))
    (haccepted : Accepted hr.stored.valid block chunk.elements) :
    (handleSnapshotChunkFast env config overflowChecks true chunk r.node).2 = .ok true ∧
      ∃ h' : (receiveChunk env config overflowChecks chunk r).notesTree.tree.Valid env.poseidon,
        ∀ e, e ∈ h'.sparse ↔ e ∈ elementsBefore block (newElements r.notesTree.tree
          chunk.elements) ∨ r.notesTree.tree.containsElement e = true := by
  obtain ⟨batch, hentries, hhandle⟩ := @handle_accepted D env config r.node hr.stored.valid block
    overflowChecks true chunk hblock hcrowded haccepted
  have hbatchNull : ∀ e ∈ batch.entries, e ≠ Element.nullHash := by
    intro e he
    rw [hentries] at he
    exact hnull e ((mem_newElements _ _ e).mp (List.mem_of_mem_filter he)).1
  have hfree : hr.stored.valid.sparse.Free batch.entries := hentries ▸ haccepted.free
  obtain ⟨⟨h', hlaid⟩, hok, -, -⟩ := insertBatch_free hr.stored.valid batch hbatchNull
    hfree.vacant true
  have hinserted := hok.mpr (Or.inl rfl)
  let synced : Node D := ⟨r.node.blockCache,
    ⟨r.blockStore, (r.notesTree.insertBatch env.poseidon batch true).1⟩⟩
  have hresult : handleSnapshotChunkFast env config overflowChecks true chunk r.node =
      confirmBefore env config overflowChecks block synced := by
    simp only [hhandle, hinserted]
    rfl
  have hwoken : (confirmBefore env config overflowChecks block synced).2 = .ok true := by
    unfold confirmBefore
    rw [if_neg fun hzero => by omega]
    dsimp only
    rw [if_neg hmode]
  obtain ⟨hledger, -⟩ := confirmBefore_fst env config overflowChecks block synced hpos
  refine ⟨by rw [hresult, hwoken], ?_⟩
  have htree : (receiveChunk env config overflowChecks chunk r).notesTree =
      (r.notesTree.insertBatch env.poseidon batch true).1 := by
    have hnode : (receiveChunk env config overflowChecks chunk r).node =
        (confirmBefore env config overflowChecks block synced).1 := congrArg Prod.fst hresult
    rw [MarkedNode.notesTree, hnode, hledger]
  rw [htree]
  refine ⟨h', fun e => ?_⟩
  rw [hlaid, SparseTree.mem_laid _ hbatchNull hfree, hentries, hr.stored.valid.mem_sparse]

end Receiving

section Committing

variable {env : NodeEnv} {config : Config} (block : Block) (t : MarkedNode D)
  (h : t.notesTree.tree.Valid env.poseidon)

/-- With free slots, a commit adds the leaves of the block. -/
theorem committed_of_free (hfree : LeavesFree config.badBlocks block t.node.ledger h) (e : Element) :
    (commitBlock env config block t).notesTree.tree.containsElement e = true ↔
      e ∈ block.content.state.leavesNonNull ∨ t.notesTree.tree.containsElement e = true := by
  obtain ⟨hcommitted, -, -⟩ := @commitProposal_free D env config.badBlocks ⟨true, true⟩ block
    t.node.ledger h rfl hfree
  obtain ⟨h', hlaid⟩ := hcommitted.inserted
  rw [mem_leavesNonNull_iff _ _ (decide (block.height ∈ config.badBlocks))]
  exact contains_laid h h' _ (newLeaves_ne_null _ _ _) hfree hlaid e

/-- A commit never loses an element, and without free slots it adds none. -/
theorem committed_cases :
    (∀ e, t.notesTree.tree.containsElement e = true →
      (commitBlock env config block t).notesTree.tree.containsElement e = true) ∧
      (LeavesFree config.badBlocks block t.node.ledger h ∨
        (commitBlock env config block t).notesTree = t.notesTree) := by
  by_cases hfree : LeavesFree config.badBlocks block t.node.ledger h
  · exact ⟨fun e he => (committed_of_free block t h hfree e).mpr (Or.inr he), Or.inl hfree⟩
  · have hsame : (commitBlock env config block t).notesTree = t.notesTree := by
      rcases @commitProposal_cases D env config.badBlocks ⟨true, true⟩ block t.node.ledger h with
        ⟨hkept, -⟩ | ⟨hkept, -⟩ | ⟨-, -, hcontra⟩
      · have htree := congrArg Ledger.notesTree hkept
        exact htree
      · have htree := congrArg Ledger.notesTree hkept
        exact htree
      · exact absurd hcontra hfree
    exact ⟨fun e he => by rwa [hsame], Or.inr hsame⟩

end Committing

section Completeness

theorem newLeaves_sublist (tree : Tree D) (state : BlockState) (ignoreCollisions : Bool) :
    (newLeaves tree state ignoreCollisions).Sublist state.leavesNonNull := by
  unfold newLeaves
  split
  · exact List.filter_sublist
  · exact List.Sublist.refl _

variable {env : NodeEnv} {config : Config} {chain : ℕ → Block}
  (hchain : Finalized D config.badBlocks chain env) (toHeight : ℕ) {r : MarkedNode D}
  (hr : Follows env config.badBlocks chain r) (hbehind : r.height < toHeight)
  (hmode : config.mode ≠ .validator) (overflowChecks : Bool) (chunk : SnapshotChunkFast)
  (hblock : chunk.block = some (chain toHeight))

include hchain hr hbehind hmode hblock

/-- The exact leaves, for a block whose leaves are new, make a complete chunk. -/
theorem complete_of_exact
    (hexact : ∀ e, e ∈ chunk.elements ↔ e ∈ leavesUpTo config.badBlocks chain toHeight)
    (hnodup : (chain toHeight).content.state.leavesNonNull.Nodup)
    (hfresh : ∀ e ∈ (chain toHeight).content.state.leavesNonNull,
      ¬r.notesTree.tree.containsElement e = true) :
    Complete env config overflowChecks chain toHeight chunk r := by
  have hpos : 0 < toHeight := by omega
  have hheight := hchain.height_eq toHeight
  obtain ⟨hcrowded, haccepted⟩ := accepted_of_exact hchain toHeight hr hbehind _ hexact hfresh
  have hnull : ∀ e ∈ chunk.elements, e ≠ Element.nullHash :=
    fun e he => leavesUpTo_ne_null toHeight e ((hexact e).mp he)
  obtain ⟨hok, h', hmem⟩ := received_of_accepted hr overflowChecks hmode chunk (chain toHeight)
    hblock (by omega) hnull hcrowded haccepted
  have hbefore : ∀ e, e ∈ elementsBefore (chain toHeight)
      (newElements r.notesTree.tree chunk.elements) ↔
        (e ∈ leavesUpTo config.badBlocks chain toHeight ∧
          ¬r.notesTree.tree.containsElement e = true) ∧
        e ∉ (chain toHeight).content.state.leavesNonNull := by
    intro e
    rw [elementsBefore, List.mem_filter, decide_eq_true_eq, mem_newElements, hexact]
  have hup : ∀ e ∈ h'.sparse, e ∈ leavesUpTo config.badBlocks chain toHeight := by
    intro e he
    rcases (hmem e).mp he with hnew | hold
    · exact ((hbefore e).mp hnew).1.1
    · exact receiver_below hchain toHeight hr hbehind e hold
  have hfree : h'.sparse.Free (newLeaves
      (receiveChunk env config overflowChecks chunk r).notesTree.tree
      (chain toHeight).content.state (decide ((chain toHeight).height ∈ config.badBlocks))) := by
    have hsublist := newLeaves_sublist
      (receiveChunk env config overflowChecks chunk r).notesTree.tree
      (chain toHeight).content.state (decide ((chain toHeight).height ∈ config.badBlocks))
    refine free_of_leaves hchain toHeight h'.sparse hup _ (hsublist.nodup hnodup)
      (fun e he => mem_leaves_of_block toHeight hpos e (hsublist.mem he)) fun e he hin => ?_
    rcases (hmem e).mp hin with hnew | hold
    · exact ((hbefore e).mp hnew).2 (hsublist.mem he)
    · exact hfresh e (hsublist.mem he) hold
  refine ⟨hblock, root_of_exact hchain toHeight hpos _ hexact, hok, fun e => ?_⟩
  rw [committed_of_free (chain toHeight) _ h' hfree, ← h'.mem_sparse, hmem, hbefore]
  constructor
  · rintro (hleaf | ⟨⟨hin, -⟩, -⟩ | hold)
    · exact mem_leaves_of_block toHeight hpos e hleaf
    · exact hin
    · exact receiver_below hchain toHeight hr hbehind e hold
  · intro hin
    by_cases hleaf : e ∈ (chain toHeight).content.state.leavesNonNull
    · exact Or.inl hleaf
    · by_cases hold : r.notesTree.tree.containsElement e = true
      · exact Or.inr (Or.inr hold)
      · exact Or.inr (Or.inl ⟨⟨hin, hold⟩, hleaf⟩)

/-- A complete chunk has no element beyond the block, and the leaves of the block are distinct
and new to the receiver. -/
theorem exact_of_complete (hnull : ∀ e ∈ chunk.elements, e ≠ Element.nullHash)
    (hcomplete : Complete env config overflowChecks chain toHeight chunk r) :
    (∀ e ∈ chunk.elements, e ∈ leavesUpTo config.badBlocks chain toHeight) ∧
      (chain toHeight).content.state.leavesNonNull.Nodup ∧
      ∀ e ∈ (chain toHeight).content.state.leavesNonNull,
        ¬r.notesTree.tree.containsElement e = true := by
  have hpos : 0 < toHeight := by omega
  have hheight := hchain.height_eq toHeight
  have hok := hcomplete.accepted
  have hcrowded : ¬Crowded (bits D) hr.stored.valid.sparse.leaf
      (newElements r.notesTree.tree chunk.elements) := by
    intro hcrowded
    rw [handle_crowded hr.stored.valid _ overflowChecks true _ hblock hcrowded] at hok
    cases hok
  have haccepted : Accepted hr.stored.valid (chain toHeight) chunk.elements := by
    by_contra hrejected
    obtain ⟨outcome, hresult, -, hnot⟩ := @handle_rejected D env config r.node hr.stored.valid _
      overflowChecks true _ hblock hcrowded hrejected
    rw [hresult] at hok
    exact hnot hok
  obtain ⟨-, h', hmem⟩ := received_of_accepted hr overflowChecks hmode chunk (chain toHeight)
    hblock (by omega) hnull hcrowded haccepted
  obtain ⟨hkeeps, hcommitted⟩ := committed_cases (chain toHeight) _ h'
  have hfresh : ∀ e ∈ (chain toHeight).content.state.leavesNonNull,
      ¬r.notesTree.tree.containsElement e = true := fun e he =>
    ((mem_newElements _ _ e).mp (haccepted.found e he)).2
  have hlater : ∀ e ∈ (chain toHeight).content.state.leavesNonNull, e ∉ h'.sparse := by
    intro e he hin
    rcases (hmem e).mp hin with hnew | hold
    · exact of_decide_eq_true (List.mem_filter.mp hnew).2 he
    · exact hfresh e he hold
  refine ⟨fun e hin => ?_, ?_, hfresh⟩
  · by_contra hyounger
    have hnew : e ∈ newElements r.notesTree.tree chunk.elements :=
      (mem_newElements _ _ e).mpr ⟨hin, fun hold =>
        hyounger (receiver_below hchain toHeight hr hbehind e hold)⟩
    have hbefore : e ∈ h'.sparse := (hmem e).mpr (Or.inl (List.mem_filter.mpr
      ⟨hnew, decide_eq_true fun hleaf => hyounger (mem_leaves_of_block toHeight hpos e hleaf)⟩))
    exact hyounger ((hcomplete.ends e).mp (hkeeps e ((h'.mem_sparse e).mp hbefore)))
  · rcases hcommitted with hfree | hsame
    · have hall : newLeaves (receiveChunk env config overflowChecks chunk r).notesTree.tree
          (chain toHeight).content.state (decide ((chain toHeight).height ∈ config.badBlocks)) =
            (chain toHeight).content.state.leavesNonNull := by
        unfold newLeaves
        split
        · refine List.filter_eq_self.mpr fun e he => ?_
          have hout := hlater e he
          rw [h'.mem_sparse, Bool.not_eq_true] at hout
          rw [hout]
          rfl
        · rfl
      have hdistinct := hfree.distinct
      have hstate : (chain toHeight).content.state.leavesNonNull.Pairwise
          fun a b => bits D a ≠ bits D b := hall ▸ hdistinct
      refine hstate.imp fun hne heq => hne ?_
      rw [heq]
    · cases hleaves : (chain toHeight).content.state.leavesNonNull with
      | nil => exact List.nodup_nil
      | cons e rest =>
        have hleaf : e ∈ (chain toHeight).content.state.leavesNonNull := by
          rw [hleaves]
          exact List.mem_cons_self
        have hin := (hcomplete.ends e).mpr (mem_leaves_of_block toHeight hpos e hleaf)
        rw [hsame] at hin
        exact absurd ((h'.mem_sparse e).mpr hin) (hlater e hleaf)

end Completeness

section Serving

/-- The chunk of a node that follows a chain is complete for a node behind the block exactly if
no element that came with a snapshot is younger than the block; a bad block must bring distinct
leaves that the receiver does not have. -/
theorem chunk_complete_iff (env : NodeEnv) (pairs : Set (Element × Element))
    (hinj : (elementHash env.poseidon pairs).Injective) (chain : ℕ → Block)
    (senderConfig config : Config) (hbad : senderConfig.badBlocks = config.badBlocks)
    (hhashed : ∀ height, RootHashed (elementHash env.poseidon pairs) (D - 1)
      (chainTree D config.badBlocks chain height).leaf)
    (hchain : Finalized D config.badBlocks chain env) (hmode : config.mode ≠ .validator)
    (senderChecks overflowChecks : Bool) (s r : MarkedNode D)
    (hs : Reachable env senderConfig senderChecks chain s)
    (hr : Reachable env config overflowChecks chain r) (snapshotId : SnapshotId) (toHeight : ℕ)
    (hstored : s.blockStore.get toHeight ≠ none) (hbehind : r.height < toHeight) :
    Complete env config overflowChecks chain toHeight (sendSnapshotChunkFast snapshotId toHeight s)
        r ↔
      NoneYounger config.badBlocks chain toHeight s ∧ (toHeight ∈ config.badBlocks →
        (chain toHeight).content.state.leavesNonNull.Nodup ∧
          ∀ e ∈ (chain toHeight).content.state.leavesNonNull,
            ¬r.notesTree.tree.containsElement e = true) := by
  have happart : RootsApart D config.badBlocks chain env := rootsApart_of_injective hinj hhashed
  have hsender : Follows env config.badBlocks chain s := by
    rw [← hbad] at hchain happart ⊢
    exact hs.follows hchain happart
  have hreceiver : Follows env config.badBlocks chain r := hr.follows hchain happart
  obtain ⟨hblock, hpos, -⟩ := sent_block hsender toHeight hstored
  have hsent := mem_sent hchain hsender toHeight hstored snapshotId
  have hyounger := noneYounger_iff hchain hsender toHeight hstored snapshotId
  constructor
  · intro hcomplete
    have hnull : ∀ e ∈ (sendSnapshotChunkFast snapshotId toHeight s).elements,
        e ≠ Element.nullHash := by
      intro e he
      rcases (hsent e).mp he with hin | ⟨hin, -⟩
      · exact leavesUpTo_ne_null toHeight e hin
      · exact leavesUpTo_ne_null s.height e ((hsender.contains_iff hchain e).mp hin)
    obtain ⟨hup, hnodup, hfresh⟩ := exact_of_complete hchain toHeight hreceiver hbehind hmode
      overflowChecks _ hblock hnull hcomplete
    exact ⟨fun e hin hzero => hup e ((hsent e).mpr (Or.inr ⟨hin, hzero⟩)),
      fun _ => ⟨hnodup, hfresh⟩⟩
  · rintro ⟨hnone, hleaves⟩
    have hexact := hyounger.mp hnone
    by_cases hlisted : toHeight ∈ config.badBlocks
    · obtain ⟨hnodup, hfresh⟩ := hleaves hlisted
      exact complete_of_exact hchain toHeight hreceiver hbehind hmode overflowChecks _ hblock hexact
        hnodup hfresh
    · obtain ⟨hnodup, hnew⟩ := good_leaves hchain toHeight hpos hlisted
      refine complete_of_exact hchain toHeight hreceiver hbehind hmode overflowChecks _ hblock
        hexact hnodup fun e he hold => ?_
      exact hnew e he r.height hbehind ((hreceiver.contains_iff hchain e).mp hold)

end Serving

section SumChain

open ProverRecovery

abbrev sumReachable (s : MarkedNode 3) : Prop := Reachable sumEnv sumConfig true sumChain s

/-- A node that has committed the first block. -/
def firstCommitted : MarkedNode 3 := commitBlock sumEnv sumConfig (sumChain 1) (genesisStart sumEnv 3)

theorem firstCommitted_reachable : sumReachable firstCommitted := by
  have hheight : (genesisStart sumEnv 3).height = 0 := by decide
  refine Reachable.step (genesisStart sumEnv 3) (.commit (sumChain 1)) Reachable.genesis ?_
  change sumChain 1 = sumChain ((genesisStart sumEnv 3).height + 1)
  rw [hheight]

/-- The node that has committed the first block serves it to a node at genesis. -/
theorem chunk_complete_first :
    firstCommitted.blockStore.get 1 ≠ none ∧ (genesisStart sumEnv 3).height = 0 ∧
      Complete sumEnv sumConfig true sumChain 1 (sendSnapshotChunkFast 9 1 firstCommitted)
        (genesisStart sumEnv 3) := by
  have hheight : (genesisStart sumEnv 3).height = 0 := by decide
  have hblock : firstCommitted.blockStore.get 1 = some (sumChain 1) := by decide
  have hstored : firstCommitted.blockStore.get 1 ≠ none := by
    rw [hblock]
    simp
  have hentries : firstCommitted.notesTree.tree.entries = [2] := by decide +kernel
  have hmark : firstCommitted.insertedIn 2 = 1 := by decide
  refine ⟨hstored, hheight, (chunk_complete_iff sumEnv {pair | pair ∈ SmirkStorage.sumPairs}
    SmirkStorage.sumHash_injective sumChain sumConfig sumConfig rfl sumChain_hashed
    sumChain_finalized (by decide) true true firstCommitted (genesisStart sumEnv 3)
    firstCommitted_reachable Reachable.genesis 9 1 hstored (by omega)).mpr
    ⟨fun e hin hzero => ?_, nofun⟩⟩
  rw [Tree.containsElement, hentries, decide_eq_true_eq, List.mem_singleton] at hin
  rw [hin, hmark] at hzero
  omega

/-- The same node after a snapshot of the third block, whose element comes from the second. -/
def jumpedAhead : MarkedNode 3 :=
  receiveChunk sumEnv sumConfig true ⟨7, some (sumChain 3), [2, 1]⟩ firstCommitted

theorem jumpedAhead_reachable : sumReachable jumpedAhead := by
  have hheight : firstCommitted.height = 1 := by decide
  have hentries : firstCommitted.notesTree.tree.entries = [2] := by decide +kernel
  refine Reachable.step firstCommitted (.fastSync ⟨7, some (sumChain 3), [2, 1]⟩)
    firstCommitted_reachable ⟨3, by omega, List.not_mem_nil, rfl, fun e => ?_⟩
  change e ∈ leavesUpTo [] sumChain (1 + 2) ↔ e ∈ [2, 1] ∨ _
  rw [sumChain_leaves, Tree.containsElement, hentries, decide_eq_true_eq]
  refine (or_iff_left_of_imp fun hin => ?_).symm
  exact List.mem_singleton.mp hin ▸ List.mem_cons_self

theorem both_leaves_root :
    (Tree.new 3).rootHashWith sumEnv.poseidon [1, 2] = some 1230 := by
  have hboth : ∀ e : Element, e ∈ [1, 2] ↔ e ∈ leavesUpTo [] sumChain 2 := by
    intro e
    rw [sumChain_leaves 0]
    simp [or_comm]
  exact @root_of_exact 3 sumEnv sumConfig sumChain sumChain_finalized 2 (by omega) [1, 2] hboth

/-- The first block is served with the element of the second, whose mark is zero: the root is
another one, and a node at genesis drops the chunk. -/
theorem not_chunk_complete_jumped :
    Finalized 3 [] sumChain sumEnv ∧ sumReachable jumpedAhead ∧
      sumReachable (genesisStart sumEnv 3) ∧
      sendSnapshotChunkFast 9 1 jumpedAhead = ⟨9, some (sumChain 1), [1, 2]⟩ ∧
      (Tree.new 3).rootHashWith sumEnv.poseidon [1, 2] = some 1230 ∧
      (sumChain 1).rootHash = 1220 ∧
      (handleSnapshotChunkFast sumEnv sumConfig true true (sendSnapshotChunkFast 9 1 jumpedAhead)
        (genesisStart sumEnv 3).node).2 = .ok false ∧
      ¬Complete sumEnv sumConfig true sumChain 1 (sendSnapshotChunkFast 9 1 jumpedAhead)
        (genesisStart sumEnv 3) := by
  have hsent : sendSnapshotChunkFast 9 1 jumpedAhead = ⟨9, some (sumChain 1), [1, 2]⟩ := by
    have hblock : (sendSnapshotChunkFast 9 1 jumpedAhead).block = some (sumChain 1) := by
      decide +kernel
    have helements : (sendSnapshotChunkFast 9 1 jumpedAhead).elements = [1, 2] := by
      decide +kernel
    rw [← hblock, ← helements]
    rfl
  have hdropped : (handleSnapshotChunkFast sumEnv sumConfig true true
      (sendSnapshotChunkFast 9 1 jumpedAhead) (genesisStart sumEnv 3).node).2 = .ok false := by
    have hnew : newElements (genesisStart sumEnv 3).node.ledger.notesTree.tree [1, 2] = [1, 2] := by
      decide
    have htree : (genesisStart sumEnv 3).node.ledger.notesTree.tree = Tree.new 3 := rfl
    have hother : (1230 : Element) ≠ (sumChain 1).rootHash := by decide
    rw [hsent]
    simp only [handleSnapshotChunkFast, hnew]
    rw [htree, both_leaves_root]
    dsimp only
    rw [if_pos hother]
  refine ⟨sumChain_finalized, jumpedAhead_reachable, Reachable.genesis, hsent, both_leaves_root,
    rfl, hdropped, fun hcomplete => ?_⟩
  have haccepted := hcomplete.accepted
  rw [hdropped] at haccepted
  cases haccepted

end SumChain

end PayyRollup.SnapshotSenders
