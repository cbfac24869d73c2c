import PayyRollup.FastSync
import PayyRollup.SmirkChanges

/-!
The history of a node that follows a chain of finalized blocks. It commits the next block,
jumps ahead with a fast snapshot of a later one, or crashes and restarts. Every element is
kept with the height it was inserted in, which is zero for the elements of a snapshot: the
node does not know the blocks they come from. Wherever it stands, its tree has the leaves of
the blocks up to its height, and an element that a block brought is marked with that block.
-/
namespace PayyRollup.ChainHistory

open ScalarField SparseMerkle ElementHash SmirkTree NodeBlocks BlockCaches BlockValidation
  BlockCommit NodeRuns FastSync
open NodeRecovery (CrashPoint LoadedData Running)
open SmirkNode hiding Node
open SmirkValues (elementHash)

section Chain

variable (D : ℕ) (badBlocks : List ℕ) (chain : ℕ → Block)

/-- The leaves that a block adds to those of the blocks before it. -/
def addedLeaves (before : List Element) (block : Block) : List Element :=
  if block.height ∈ badBlocks then
    block.content.state.leavesNonNull.filter fun leaf => decide (leaf ∉ before)
  else block.content.state.leavesNonNull

/-- The leaves of the blocks up to a height. -/
def leavesUpTo : ℕ → List Element
  | 0 => []
  | height + 1 => leavesUpTo height ++ addedLeaves badBlocks (leavesUpTo height) (chain (height + 1))

def chainTree (height : ℕ) : SparseTree Element (bits D) :=
  (SparseTree.empty (bits D)).laid (leavesUpTo badBlocks chain height)

/-- A chain of finalized blocks: each is at its height, its leaves go into slots of their own,
and it declares the root that they lead to. -/
structure Finalized (env : NodeEnv) : Prop where
  genesis : chain 0 = Block.genesis
  height_eq : ∀ height, (chain height).height = height
  apart : ∀ height, (leavesUpTo badBlocks chain height).Pairwise fun a b => bits D a ≠ bits D b
  root_eq : ∀ height, (chain (height + 1)).rootHash =
    root (elementNode env.poseidon) (D - 1) (chainTree D badBlocks chain (height + 1)).leaf

/-- Heights with one root have one tree. -/
def RootsApart (env : NodeEnv) : Prop :=
  ∀ a b, root (elementNode env.poseidon) (D - 1) (chainTree D badBlocks chain a).leaf =
    root (elementNode env.poseidon) (D - 1) (chainTree D badBlocks chain b).leaf →
      chainTree D badBlocks chain a = chainTree D badBlocks chain b

end Chain

section Node

variable {D : ℕ} (env : NodeEnv) (config : Config)

/-- A node with the height that each element was inserted in. -/
structure MarkedNode (D : ℕ) where
  node : Node D
  insertedIn : Element → ℕ

namespace MarkedNode

abbrev height (self : MarkedNode D) : ℕ := self.node.blockCache.height

abbrev notesTree (self : MarkedNode D) : Persistent D := self.node.ledger.notesTree

abbrev blockStore (self : MarkedNode D) : BlockStore := self.node.ledger.blockStore

/-- The marks once the elements that are not in the tree yet have been inserted. -/
def marks (self : MarkedNode D) (height : ℕ) (e : Element) : ℕ :=
  if self.notesTree.tree.containsElement e = true then self.insertedIn e else height

end MarkedNode

inductive NodeEvent
  | commit (block : Block)
  | fastSync (chunk : SnapshotChunkFast)
  | crash (block : Block) (point : CrashPoint)

/-- A turn of the commit loop with a valid block. -/
def commitBlock (block : Block) (self : MarkedNode D) : MarkedNode D :=
  ⟨⟨self.node.blockCache.confirm block.height,
    (commitProposal env config.badBlocks ⟨true, true⟩ block self.node.ledger).1⟩,
    self.marks block.height⟩

/-- A chunk that arrives; what it inserts is marked with zero. -/
def receiveChunk (overflowChecks : Bool) (chunk : SnapshotChunkFast) (self : MarkedNode D) :
    MarkedNode D :=
  ⟨(handleSnapshotChunkFast env config overflowChecks true chunk self.node).1, self.marks 0⟩

/-- The node starts with the cache of the block it loaded. -/
def start (maxCacheSize : ℕ) (data : LoadedData D) (insertedIn : Element → ℕ) : MarkedNode D :=
  ⟨⟨BlockCache.new env data.block maxCacheSize, ⟨data.blockStore, data.persistentTree⟩⟩, insertedIn⟩

/-- A crash in the commit of a block, and the restart; one that fails leaves no node. -/
def crashAt (block : Block) (point : CrashPoint) (self : MarkedNode D) :
    Outcome Error (MarkedNode D) :=
  (NodeRecovery.restart env config.badBlocks ⟨self.node.ledger, self.height⟩ block point).map
    fun data => start env 10000 data (self.marks block.height)

def nodeStep (overflowChecks : Bool) (self : MarkedNode D) : NodeEvent → MarkedNode D
  | .commit block => commitBlock env config block self
  | .fastSync chunk => receiveChunk env config overflowChecks chunk self
  | .crash block point =>
      match crashAt env config block point self with
      | .ok node => node
      | .error _ => self

/-- The steps along a chain: the next block is committed, a snapshot is of a later block and
completes the tree to its leaves, and the node comes up again after a crash. -/
def OnChain (chain : ℕ → Block) (self : MarkedNode D) : NodeEvent → Prop
  | .commit block => block = chain (self.height + 1)
  | .fastSync chunk => ∃ height, self.height < height ∧ height ∉ config.badBlocks ∧
      chunk.block = some (chain height) ∧ ∀ e, e ∈ leavesUpTo config.badBlocks chain height ↔
        e ∈ chunk.elements ∨ self.notesTree.tree.containsElement e = true
  | .crash block point => block = chain (self.height + 1) ∧
      ∃ node, crashAt env config block point self = .ok node

end Node

section Leaves

variable {D : ℕ} {env : NodeEnv} {badBlocks : List ℕ} {chain : ℕ → Block}

theorem mem_addedLeaves (before : List Element) (block : Block) (e : Element) :
    e ∈ before ∨ e ∈ addedLeaves badBlocks before block ↔
      e ∈ before ∨ e ∈ block.content.state.leavesNonNull := by
  unfold addedLeaves
  split
  · rw [List.mem_filter, decide_eq_true_eq]
    by_cases hbefore : e ∈ before
    · simp [hbefore]
    · simp [hbefore]
  · rfl

theorem leavesUpTo_mono (height height' : ℕ) (h : height ≤ height') (e : Element)
    (he : e ∈ leavesUpTo badBlocks chain height) : e ∈ leavesUpTo badBlocks chain height' := by
  induction height', h using Nat.le_induction with
  | base => exact he
  | succ height' _ ih => exact List.mem_append_left _ ih

theorem leavesUpTo_ne_null (height : ℕ) (e : Element)
    (he : e ∈ leavesUpTo badBlocks chain height) : e ≠ Element.nullHash := by
  induction height with
  | zero => cases he
  | succ height ih =>
    rcases List.mem_append.mp he with he | he
    · exact ih he
    · unfold addedLeaves at he
      split at he
      · exact ((mem_nonNull _ e).mp (List.mem_of_mem_filter he)).2
      · exact ((mem_nonNull _ e).mp he).2

variable (h : Finalized D badBlocks chain env)

include h

theorem Finalized.free (height : ℕ) :
    (SparseTree.empty (bits D)).Free (leavesUpTo badBlocks chain height) :=
  ⟨h.apart height, fun _ _ => rfl⟩

theorem Finalized.mem_chainTree (height : ℕ) (e : Element) :
    e ∈ chainTree D badBlocks chain height ↔ e ∈ leavesUpTo badBlocks chain height := by
  rw [chainTree, SparseTree.mem_laid _ (leavesUpTo_ne_null height) (h.free height)]
  exact or_iff_left (SparseTree.not_mem_empty e)

/-- The next block lays its leaves over the tree of the chain. -/
theorem Finalized.chainTree_succ (height : ℕ) :
    let added := addedLeaves badBlocks (leavesUpTo badBlocks chain height) (chain (height + 1))
    (chainTree D badBlocks chain height).Free added ∧
      chainTree D badBlocks chain (height + 1) =
        (chainTree D badBlocks chain height).laid added := by
  intro added
  have hall : ∀ e ∈ leavesUpTo badBlocks chain (height + 1), e ≠ Element.nullHash :=
    leavesUpTo_ne_null (height + 1)
  have hfree := h.free (height + 1)
  have hnext := SparseTree.free_of_append _ added
    (fun e he => hall e (List.mem_append_left _ he))
    (fun e he => hall e (List.mem_append_right _ he)) hfree
  exact ⟨hnext, (SparseTree.laid_append _ added (fun e he => hall e (List.mem_append_left _ he))
    (fun e he => hall e (List.mem_append_right _ he)) (h.free height) hnext).2⟩

/-- A block that is not bad brings only new leaves. -/
theorem Finalized.fresh (height : ℕ) (hgood : height + 1 ∉ badBlocks) (e : Element)
    (he : e ∈ (chain (height + 1)).content.state.leavesNonNull) :
    e ∉ leavesUpTo badBlocks chain height := by
  intro hbefore
  have hadded : e ∈ addedLeaves badBlocks (leavesUpTo badBlocks chain height)
      (chain (height + 1)) := by
    rw [addedLeaves, if_neg (by rwa [h.height_eq])]
    exact he
  have hapart := (List.pairwise_append.mp (h.apart (height + 1))).2.2 e hbefore e hadded
  exact hapart rfl

/-- A tree of the chain gets what the next block adds to the chain. -/
theorem newLeaves_eq (tree : Tree D) (height : ℕ)
    (hcontains : ∀ e, tree.containsElement e = true ↔
      e ∈ leavesUpTo badBlocks chain height) :
    newLeaves tree (chain (height + 1)).content.state (decide (height + 1 ∈ badBlocks)) =
      addedLeaves badBlocks (leavesUpTo badBlocks chain height)
        (chain (height + 1)) := by
  unfold newLeaves addedLeaves
  rw [h.height_eq]
  simp only [decide_eq_true_eq]
  split
  · refine List.filter_congr fun leaf _ => ?_
    rw [Bool.eq_iff_iff, decide_eq_true_eq, ← hcontains]
    simp
  · rfl

theorem Finalized.slot_inj (height : ℕ) (a b : Element) (ha : a ∈ leavesUpTo badBlocks chain height)
    (hb : b ∈ leavesUpTo badBlocks chain height) (heq : bits D a = bits D b) : a = b :=
  List.inj_on_of_nodup_map (List.pairwise_map.mpr (h.apart height)) ha hb heq

/-- The slot of a leaf that is not there yet is empty. -/
theorem Finalized.vacant (height below : ℕ) (e : Element)
    (he : e ∈ leavesUpTo badBlocks chain height) (hout : e ∉ leavesUpTo badBlocks chain below) :
    (chainTree D badBlocks chain below).leaf (bits D e) = 0 := by
  by_contra hne
  have hslot := (chainTree D badBlocks chain below).placed _ hne
  have hin := (h.mem_chainTree below _).mp (SparseTree.leaf_mem _ _ hne)
  have hsame := h.slot_inj (max height below) _ e
    (leavesUpTo_mono below _ (le_max_right _ _) _ hin)
    (leavesUpTo_mono height _ (le_max_left _ _) e he) hslot
  rw [hsame] at hin
  exact hout hin

/-- Heights with the same leaves have one tree. -/
theorem Finalized.chainTree_congr (a b : ℕ)
    (hsame : ∀ e, e ∈ leavesUpTo badBlocks chain a ↔ e ∈ leavesUpTo badBlocks chain b) :
    chainTree D badBlocks chain a = chainTree D badBlocks chain b :=
  SparseTree.ext_mem _ _ fun e => by rw [h.mem_chainTree, h.mem_chainTree, hsame]

/-- The missing leaves of a height laid over a tree make the tree of that height. -/
theorem Finalized.laid_eq (T : SparseTree Element (bits D)) (height : ℕ) (xs : List Element)
    (hxs : ∀ e ∈ xs, e ≠ 0) (hfree : T.Free xs)
    (hmem : ∀ e, e ∈ xs ∨ e ∈ T ↔ e ∈ leavesUpTo badBlocks chain height) :
    T.laid xs = chainTree D badBlocks chain height :=
  SparseTree.ext_mem _ _ fun e => by
    rw [SparseTree.mem_laid xs hxs hfree, h.mem_chainTree, hmem]

omit h in
/-- Where the pairs hashed in the trees of the chain have no collision, heights with one root
have one tree. -/
theorem rootsApart_of_injective {pairs : Set (Element × Element)}
    (hinj : (elementHash env.poseidon pairs).Injective)
    (hhashed : ∀ height, RootHashed (elementHash env.poseidon pairs) (D - 1)
      (chainTree D badBlocks chain height).leaf) : RootsApart D badBlocks chain env := by
  have hlen : ∀ (T : SparseTree Element (bits D)) p, T.leaf p ≠ 0 → p.length = D - 1 := by
    intro T p hp
    rw [← T.placed p hp, bits_length]
  intro a b heq
  apply SparseTree.ext_leaf
  funext p
  by_cases hp : p.length = D - 1
  · exact root_inj hinj (D - 1) _ _ (hhashed a) (hhashed b) heq p hp
  · have hzero : ∀ T : SparseTree Element (bits D), T.leaf p = 0 := fun T =>
      by_contra fun hne => hp (hlen T p hne)
    rw [hzero, hzero]

end Leaves

section Following

variable {D : ℕ} {env : NodeEnv} {config : Config} {chain : ℕ → Block}

/-- A block that brought an element, and is stored. -/
def BroughtBy (badBlocks : List ℕ) (chain : ℕ → Block) (store : BlockStore) (e : Element)
    (height : ℕ) : Prop :=
  store.get height ≠ none ∧ e ∈ leavesUpTo badBlocks chain height ∧
    ∀ below < height, e ∉ leavesUpTo badBlocks chain below

/-- The blocks that are stored belong to the chain, and the greatest height is known. -/
structure Shelved (chain : ℕ → Block) (store : BlockStore) : Prop where
  block_eq : ∀ k b, store.get k = some b → b = chain k ∧ 0 < k
  greatest : ∀ m, store.maxHeight = some m →
    (∃ b, store.get m = some b) ∧ ∀ k b, store.get k = some b → k ≤ m
  empty : store.maxHeight = none → ∀ k, store.get k = none

/-- A node on the chain: its tree has the leaves up to its height, it stores blocks of the
chain, and every element is marked with zero or the block that brought it. -/
structure Follows (env : NodeEnv) (badBlocks : List ℕ) (chain : ℕ → Block) (s : MarkedNode D) :
    Prop where
  stored : s.notesTree.Stored env.poseidon
  tree_eq : stored.valid.sparse = chainTree D badBlocks chain s.height
  shelved : Shelved chain s.blockStore
  below : ∀ k b, s.blockStore.get k = some b → k ≤ s.height
  marked : ∀ e ∈ leavesUpTo badBlocks chain s.height,
    s.insertedIn e = 0 ∨ BroughtBy badBlocks chain s.blockStore e (s.insertedIn e)

theorem Shelved.set {store : BlockStore} (h : Shelved chain store) (height : ℕ)
    (hheight : (chain height).height = height) (hpos : 0 < height)
    (habove : ∀ k b, store.get k = some b → k < height) : Shelved chain (store.set (chain height)) := by
  have hmax := store.set_maxHeight (chain height) fun m hm => by
    obtain ⟨⟨b, hb⟩, -⟩ := h.greatest m hm
    rw [hheight]
    exact habove m b hb
  have hself := store.set_get_self (chain height)
  rw [hheight] at hmax hself
  have hget : ∀ k b, (store.set (chain height)).get k = some b →
      (k = height ∧ b = chain height) ∨ store.get k = some b := by
    intro k b hb
    by_cases hk : k = height
    · rw [hk, hself, Option.some_inj] at hb
      exact Or.inl ⟨hk, hb.symm⟩
    · rw [store.set_get_of_ne _ k (by rwa [hheight])] at hb
      exact Or.inr hb
  refine ⟨fun k b hb => ?_, fun m hm => ?_, fun hnone => ?_⟩
  · rcases hget k b hb with ⟨rfl, rfl⟩ | hold
    · exact ⟨rfl, hpos⟩
    · exact h.block_eq k b hold
  · rw [hmax, Option.some_inj] at hm
    subst hm
    refine ⟨⟨_, hself⟩, fun k b hb => ?_⟩
    rcases hget k b hb with ⟨rfl, -⟩ | hold
    · exact le_rfl
    · exact (habove k b hold).le
  · rw [hmax] at hnone
    cases hnone

/-- What a stored block brought stays brought by it. -/
theorem BroughtBy.mono {badBlocks : List ℕ} {store store' : BlockStore} {e : Element} {height : ℕ}
    (h : BroughtBy badBlocks chain store e height)
    (hstore : ∀ k, store.get k ≠ none → store'.get k ≠ none) :
    BroughtBy badBlocks chain store' e height := ⟨hstore height h.1, h.2⟩

variable {s : MarkedNode D} (hchain : Finalized D config.badBlocks chain env)
  (h : Follows env config.badBlocks chain s)

include hchain h

theorem Follows.contains_iff (e : Element) :
    s.notesTree.tree.containsElement e = true ↔
      e ∈ leavesUpTo config.badBlocks chain s.height := by
  rw [← h.stored.valid.mem_sparse, h.tree_eq, hchain.mem_chainTree]

/-- A node that commits the next block follows the chain to it. -/
theorem Follows.commit : Follows env config.badBlocks chain
      (commitBlock env config (chain (s.height + 1)) s) ∧
    (commitBlock env config (chain (s.height + 1)) s).height = s.height + 1 ∧
    (commitBlock env config (chain (s.height + 1)) s).blockStore =
      s.blockStore.set (chain (s.height + 1)) := by
  have hheight := hchain.height_eq (s.height + 1)
  have hnew := newLeaves_eq hchain s.notesTree.tree s.height (h.contains_iff hchain)
  obtain ⟨hfree, hlaid⟩ := hchain.chainTree_succ s.height
  have hleaves : LeavesFree config.badBlocks (chain (s.height + 1)) s.node.ledger
      h.stored.valid := by
    unfold LeavesFree
    rw [h.tree_eq, hheight, hnew]
    exact hfree
  obtain ⟨hcommitted, -, -⟩ := @commitProposal_free D env config.badBlocks ⟨true, true⟩
    (chain (s.height + 1)) s.node.ledger h.stored.valid rfl hleaves
  have hstored := hcommitted.stored_db rfl h.stored hleaves
  obtain ⟨h', hsparse⟩ := hcommitted.inserted
  have hnext : (commitBlock env config (chain (s.height + 1)) s).height = s.height + 1 := by
    rw [MarkedNode.height, commitBlock, confirm_height, hheight]
  have hstore : (commitBlock env config (chain (s.height + 1)) s).blockStore =
      s.blockStore.set (chain (s.height + 1)) := hcommitted.stored
  have hself := s.blockStore.set_get_self (chain (s.height + 1))
  rw [hheight] at hself
  refine ⟨⟨hstored, ?_, ?_, fun k b hb => ?_, fun e he => ?_⟩, hnext, hstore⟩
  · rw [hheight, hnew] at hsparse
    rw [hnext, hlaid, ← h.tree_eq]
    exact hsparse
  · rw [hstore]
    exact h.shelved.set _ hheight (by omega) fun k b hb => by
      have := h.below k b hb
      omega
  · rw [hnext]
    rw [hstore] at hb
    by_cases hk : k = s.height + 1
    · omega
    · rw [BlockStore.set_get_of_ne _ _ k (by rwa [hheight])] at hb
      have := h.below k b hb
      omega
  · rw [hnext] at he
    rw [hstore]
    have hkeeps : ∀ k, s.blockStore.get k ≠ none →
        (s.blockStore.set (chain (s.height + 1))).get k ≠ none := by
      intro k hk
      by_cases heq : k = s.height + 1
      · rw [heq, hself]
        simp
      · rwa [BlockStore.set_get_of_ne _ _ k (by rwa [hheight])]
    change s.marks (chain (s.height + 1)).height e = 0 ∨ BroughtBy config.badBlocks chain _ e
      (s.marks (chain (s.height + 1)).height e)
    by_cases hin : e ∈ leavesUpTo config.badBlocks chain s.height
    · rw [MarkedNode.marks, if_pos ((h.contains_iff hchain e).mpr hin)]
      exact (h.marked e hin).imp_right fun hbrought => hbrought.mono hkeeps
    · rw [MarkedNode.marks, if_neg fun hc => hin ((h.contains_iff hchain e).mp hc), hheight]
      refine Or.inr ⟨by rw [hself]; simp, he, fun below hbelow hout => hin ?_⟩
      exact leavesUpTo_mono below s.height (by omega) e hout

/-- The marks of a node may be kept for other elements too. -/
theorem Follows.remark (height : ℕ) :
    Follows env config.badBlocks chain ⟨s.node, s.marks height⟩ := by
  refine ⟨h.stored, h.tree_eq, h.shelved, h.below, fun e he => ?_⟩
  change s.marks height e = 0 ∨ BroughtBy config.badBlocks chain s.blockStore e (s.marks height e)
  rw [MarkedNode.marks, if_pos ((h.contains_iff hchain e).mpr he)]
  exact h.marked e he

/-- What a snapshot inserts are the missing leaves of the blocks below its block. -/
theorem Follows.mem_elementsBefore (below : ℕ) (hgood : below + 1 ∉ config.badBlocks)
    (elements : List Element)
    (hcomplete : ∀ e, e ∈ leavesUpTo config.badBlocks chain (below + 1) ↔
      e ∈ elements ∨ s.notesTree.tree.containsElement e = true) (e : Element) :
    e ∈ elementsBefore (chain (below + 1)) (newElements s.notesTree.tree elements) ↔
      e ∈ leavesUpTo config.badBlocks chain below ∧
        e ∉ leavesUpTo config.badBlocks chain s.height := by
  have hadded : addedLeaves config.badBlocks (leavesUpTo config.badBlocks chain below)
      (chain (below + 1)) = (chain (below + 1)).content.state.leavesNonNull := by
    rw [addedLeaves, if_neg (by rwa [hchain.height_eq])]
  have hsplit : e ∈ leavesUpTo config.badBlocks chain (below + 1) ↔
      e ∈ leavesUpTo config.badBlocks chain below ∨
        e ∈ (chain (below + 1)).content.state.leavesNonNull := by
    rw [leavesUpTo, List.mem_append, hadded]
  have hnew : e ∈ newElements s.notesTree.tree elements ↔
      e ∈ elements ∧ e ∉ leavesUpTo config.badBlocks chain s.height := by
    rw [newElements, List.mem_filter, List.mem_dedup, ← h.contains_iff hchain]
    simp
  rw [elementsBefore, List.mem_filter, decide_eq_true_eq, hnew]
  constructor
  · rintro ⟨⟨hin, hout⟩, hnot⟩
    exact ⟨(hsplit.mp ((hcomplete e).mpr (Or.inl hin))).resolve_right hnot, hout⟩
  · rintro ⟨hbelow, hout⟩
    have hin := (hcomplete e).mp (hsplit.mpr (Or.inl hbelow))
    exact ⟨⟨hin.resolve_right fun hc => hout ((h.contains_iff hchain e).mp hc), hout⟩,
      fun hblock => hchain.fresh below hgood e hblock hbelow⟩

omit hchain h in
theorem confirmBefore_fst (env : NodeEnv) (config : Config) (overflowChecks : Bool) (block : Block)
    (self : Node D) (hpos : 0 < block.height) :
    (confirmBefore env config overflowChecks block self).1.ledger = self.ledger ∧
      (confirmBefore env config overflowChecks block self).1.blockCache.height =
        block.height - 1 := by
  have hprevious : NodeRecovery.previousHeight block.height = block.height - 1 :=
    if_neg (by omega)
  unfold confirmBefore
  rw [if_neg fun hzero => by omega]
  dsimp only
  split
  · exact ⟨rfl, by rw [confirm_height, hprevious]⟩
  · unfold NodeRuns.receiveProposal
    split
    · exact ⟨rfl, by rw [confirm_height, hprevious]⟩
    · exact ⟨rfl, by rw [insert_height, confirm_height, hprevious]⟩

/-- A snapshot of a later block is dropped, or puts the node right before that block. -/
theorem Follows.receiveChunk (overflowChecks : Bool) (chunk : SnapshotChunkFast) (height : ℕ)
    (habove : s.height < height) (hgood : height ∉ config.badBlocks)
    (hblock : chunk.block = some (chain height))
    (hcomplete : ∀ e, e ∈ leavesUpTo config.badBlocks chain height ↔
      e ∈ chunk.elements ∨ s.notesTree.tree.containsElement e = true) :
    let received := receiveChunk env config overflowChecks chunk s
    Follows env config.badBlocks chain received ∧ received.blockStore = s.blockStore ∧
      (received.node = s.node ∨ received.height + 1 = height) := by
  intro received
  have hdrop : ∀ outcome, handleSnapshotChunkFast env config overflowChecks true chunk s.node =
      (s.node, outcome) → Follows env config.badBlocks chain received ∧
        received.blockStore = s.blockStore ∧
          (received.node = s.node ∨ received.height + 1 = height) := by
    intro outcome hsame
    have hreceived : received = ⟨s.node, s.marks 0⟩ := by
      simp only [received, ChainHistory.receiveChunk, hsame]
    rw [hreceived]
    exact ⟨h.remark hchain 0, rfl, Or.inl rfl⟩
  by_cases hcrowded : Crowded (bits D) h.stored.valid.sparse.leaf
      (newElements s.node.ledger.notesTree.tree chunk.elements)
  · exact hdrop _ (handle_crowded h.stored.valid _ overflowChecks true chunk hblock hcrowded)
  by_cases haccepted : Accepted h.stored.valid (chain height) chunk.elements
  · obtain ⟨below, rfl⟩ : ∃ below, height = below + 1 := ⟨height - 1, by omega⟩
    obtain ⟨batch, hentries, hhandle⟩ := @handle_accepted D env config s.node h.stored.valid _
      overflowChecks true chunk hblock hcrowded haccepted
    have hmem := h.mem_elementsBefore hchain below hgood chunk.elements hcomplete
    have hnull : ∀ e ∈ batch.entries, e ≠ Element.nullHash := by
      intro e he
      rw [hentries] at he
      exact leavesUpTo_ne_null below e ((hmem e).mp he).1
    have hfree : h.stored.valid.sparse.Free batch.entries := hentries ▸ haccepted.free
    obtain ⟨⟨h', hlaid⟩, hok, -, hdb⟩ := insertBatch_free h.stored.valid batch hnull hfree.vacant
      true
    have hstored := h.stored.append batch.entries hnull hfree h' hlaid (by rw [hdb, if_pos rfl])
    have htree : hstored.valid.sparse = chainTree D config.badBlocks chain below := by
      refine hlaid.trans (hchain.laid_eq _ below _ hnull hfree fun e => ?_)
      rw [h.tree_eq, hchain.mem_chainTree, hentries, hmem]
      constructor
      · rintro (hin | hin)
        · exact hin.1
        · exact leavesUpTo_mono _ _ (by omega) e hin
      · intro hin
        by_cases hold : e ∈ leavesUpTo config.badBlocks chain s.height
        · exact Or.inr hold
        · exact Or.inl ⟨hin, hold⟩
    have hinserted := hok.mpr (Or.inl rfl)
    obtain ⟨cache, hcache, hreceived⟩ : ∃ cache : BlockCache, cache.height = below ∧
        received = ⟨⟨cache, ⟨s.blockStore, (s.notesTree.insertBatch env.poseidon batch true).1⟩⟩,
          s.marks 0⟩ := by
      let synced : Node D := ⟨s.node.blockCache,
        ⟨s.blockStore, (s.notesTree.insertBatch env.poseidon batch true).1⟩⟩
      obtain ⟨hledger, hheight⟩ := confirmBefore_fst env config overflowChecks (chain (below + 1))
        synced (by rw [hchain.height_eq]; omega)
      rw [hchain.height_eq, Nat.add_sub_cancel] at hheight
      refine ⟨_, hheight, ?_⟩
      have hnode : received.node = (confirmBefore env config overflowChecks (chain (below + 1))
          synced).1 := by
        simp only [received, ChainHistory.receiveChunk, hhandle, hinserted]
        rfl
      have hboth : received = ⟨received.node, s.marks 0⟩ := rfl
      rw [hboth, hnode]
      exact congrArg (fun ledger => (⟨⟨_, ledger⟩, s.marks 0⟩ : MarkedNode D)) hledger
    subst hcache
    rw [hreceived]
    refine ⟨⟨hstored, htree, h.shelved, fun k b hb => ?_, fun e he => ?_⟩, rfl, Or.inr rfl⟩
    · have := h.below k b hb
      change k ≤ cache.height
      omega
    · change s.marks 0 e = 0 ∨ BroughtBy config.badBlocks chain s.blockStore e (s.marks 0 e)
      unfold MarkedNode.marks
      split
      · rename_i hin
        exact h.marked e ((h.contains_iff hchain e).mp hin)
      · exact Or.inl rfl
  · obtain ⟨outcome, hsame, -⟩ := @handle_rejected D env config s.node h.stored.valid _
      overflowChecks true chunk hblock hcrowded haccepted
    exact hdrop outcome hsame

omit h in
theorem root_of_height (height : ℕ) (hpos : 0 < height) :
    (chain height).rootHash = root (elementNode env.poseidon) (D - 1)
      (chainTree D config.badBlocks chain height).leaf := by
  obtain ⟨below, rfl⟩ : ∃ below, height = below + 1 := ⟨height - 1, by omega⟩
  exact hchain.root_eq below

omit hchain h in
/-- A node that starts from genesis. -/
theorem follows_genesis (store : BlockStore) (hempty : ∀ k, store.get k = none)
    (hmax : ∀ m, store.maxHeight ≠ some m) (insertedIn : Element → ℕ) (data : LoadedData D)
    (hload : NodeRecovery.startFromGenesis env D store = .ok data) :
    Follows env config.badBlocks chain (start env 10000 data insertedIn) ∧
      (start env 10000 data insertedIn).height = 0 := by
  obtain ⟨q, hgenesis, hstored, hdb⟩ := @NodeRecovery.startFromGenesis_ok D env store
  obtain rfl := Except.ok.inj (hgenesis.symm.trans hload)
  have hheight : (start env 10000 ⟨store, q, Block.genesis⟩ insertedIn).height = 0 := by
    rw [MarkedNode.height, start, BlockCache.new, insert_height]
    rfl
  refine ⟨⟨hstored, ?_, ⟨?_, ?_, fun _ => hempty⟩, ?_, ?_⟩, hheight⟩
  · rw [hheight]
    refine hstored.laid.trans ?_
    rw [hdb]
    rfl
  · intro k b hb
    exact absurd ((hempty k).symm.trans hb) (by simp)
  · intro m hm
    exact absurd hm (hmax m)
  · intro k b hb
    exact absurd ((hempty k).symm.trans hb) (by simp)
  · rw [hheight]
    intro e he
    cases he

end Following

section Restart

variable {D : ℕ} {env : NodeEnv} {config : Config} {chain : ℕ → Block}
  (hchain : Finalized D config.badBlocks chain env)
  (happart : RootsApart D config.badBlocks chain env)

/-- What is on disk when a node at a height crashes: a tree of the chain, and stored blocks up
to the next height. -/
structure OnDisk (env : NodeEnv) (badBlocks : List ℕ) (chain : ℕ → Block) (height : ℕ)
    (p : Persistent D) (store : BlockStore) (marks : Element → ℕ) : Prop where
  stored : p.Stored env.poseidon
  tree_eq : stored.valid.sparse = chainTree D badBlocks chain height
  shelved : Shelved chain store
  below : ∀ k b, store.get k = some b → k ≤ height + 1
  marked : ∀ e ∈ leavesUpTo badBlocks chain height,
    marks e = 0 ∨ BroughtBy badBlocks chain store e (marks e)
  next : store.get (height + 1) ≠ none →
    ∀ e ∉ leavesUpTo badBlocks chain height, marks e = height + 1

include hchain in
/-- Recovering at the tree below a block of the chain applies the block. -/
theorem recover_next {q : Persistent D} (hq : q.Stored env.poseidon) (below : ℕ)
    (htree : hq.valid.sparse = chainTree D config.badBlocks chain below) (store : BlockStore)
    (data : LoadedData D) (hrecover : NodeRecovery.recover env config.badBlocks store q (below + 1)
      (chain (below + 1)) = .ok data) :
    ∃ q' : Persistent D, ∃ hq' : q'.Stored env.poseidon,
      hq'.valid.sparse = chainTree D config.badBlocks chain (below + 1) ∧
        data = ⟨store, q', chain (below + 1)⟩ := by
  have hnew := newLeaves_eq hchain q.tree below fun e => by
    rw [← hq.valid.mem_sparse, htree, hchain.mem_chainTree]
  obtain ⟨hfree, hlaid⟩ := hchain.chainTree_succ below
  rw [← htree, ← hnew] at hfree
  obtain ⟨⟨happlied, hsparse⟩, -, -, hdb⟩ := applyBlockToTree_free hq.valid _ _ true hfree
  rw [if_pos rfl] at hdb
  have hstored := hq.append _ (newLeaves_ne_null _ _ _) hfree happlied hsparse hdb
  refine ⟨_, hstored, ?_, ?_⟩
  · rw [hlaid, ← htree, ← hnew]
    exact hsparse
  · unfold NodeRecovery.recover at hrecover
    dsimp only at hrecover
    split at hrecover
    · cases hrecover
    · split at hrecover
      · exact (Except.ok.inj hrecover).symm
      · cases hrecover

variable {height : ℕ} {p : Persistent D} {store : BlockStore} {marks : Element → ℕ}
  (h : OnDisk env config.badBlocks chain height p store marks)

include hchain h

/-- A loaded tree of the chain starts a node at the greatest stored height. -/
theorem OnDisk.start_of_tree {q : Persistent D} (hq : q.Stored env.poseidon) (top : ℕ)
    (htree : hq.valid.sparse = chainTree D config.badBlocks chain top)
    (hmax : store.maxHeight = some top)
    (hnear : ∀ e ∈ leavesUpTo config.badBlocks chain top,
      e ∈ leavesUpTo config.badBlocks chain height ∨
        top = height + 1) (data : LoadedData D) (hdata : data = ⟨store, q, chain top⟩) :
    Follows env config.badBlocks chain (start env 10000 data marks) ∧
      (start env 10000 data marks).height = top := by
  subst hdata
  have hheight : (start env 10000 ⟨store, q, chain top⟩ marks).height = top := by
    rw [MarkedNode.height, start, BlockCache.new, insert_height, hchain.height_eq]
  obtain ⟨⟨b, hb⟩, hgreatest⟩ := h.shelved.greatest top hmax
  refine ⟨⟨hq, ?_, h.shelved, ?_, ?_⟩, hheight⟩
  · rw [hheight]
    exact htree
  · rw [hheight]
    exact hgreatest
  · rw [hheight]
    intro e he
    change marks e = 0 ∨ BroughtBy config.badBlocks chain store e (marks e)
    by_cases hold : e ∈ leavesUpTo config.badBlocks chain height
    · exact h.marked e hold
    · have htop := (hnear e he).resolve_left hold
      rw [h.next (by rw [← htop, hb]; simp) e hold]
      refine Or.inr ⟨by rw [← htop, hb]; simp, htop ▸ he, fun below hbelow hin => hold ?_⟩
      exact leavesUpTo_mono below height (by omega) e hin

include happart

/-- A restart finds the node on the chain again, with the same store or at genesis. -/
theorem OnDisk.restart (data : LoadedData D)
    (hload : NodeRecovery.loadDbAndSmirk env D config.badBlocks ⟨store, p.db⟩ = .ok data) :
    Follows env config.badBlocks chain (start env 10000 data marks) ∧
      ((start env 10000 data marks).height = 0 ∨ data.blockStore = store ∧
        store.maxHeight = some (start env 10000 data marks).height) := by
  obtain ⟨q, hq, hstored, hsame⟩ := NodeRecovery.loadSmirk_stored h.stored
  have hqtree : hstored.valid.sparse = chainTree D config.badBlocks chain height :=
    hsame.sparse_eq.trans h.tree_eq
  have hqroot : q.tree.rootHash env.poseidon = root (elementNode env.poseidon) (D - 1)
      (chainTree D config.badBlocks chain height).leaf := by
    rw [hstored.valid.rootHash_eq, hqtree]
  unfold NodeRecovery.loadDbAndSmirk at hload
  simp only [hq, bind, Except.bind] at hload
  cases hmax : store.maxHeight with
  | none =>
    simp only [hmax] at hload
    obtain ⟨hfollows, hzero⟩ := @follows_genesis D env config chain store
      (h.shelved.empty hmax) (by simp [hmax]) marks data hload
    exact ⟨hfollows, Or.inl hzero⟩
  | some top =>
    obtain ⟨⟨b, hb⟩, hgreatest⟩ := h.shelved.greatest top hmax
    obtain ⟨rfl, hpos⟩ := h.shelved.block_eq top b hb
    have htopRoot := root_of_height hchain top hpos
    simp only [hmax, hb, NodeRecovery.unwrap] at hload
    split at hload
    · rename_i hsameRoot
      have htrees := happart height top (hqroot.symm.trans (hsameRoot.trans htopRoot))
      have hnear : ∀ e ∈ leavesUpTo config.badBlocks chain top,
          e ∈ leavesUpTo config.badBlocks chain height ∨ top = height + 1 := by
        intro e he
        rw [← hchain.mem_chainTree, htrees]
        exact Or.inl ((hchain.mem_chainTree top e).mpr he)
      obtain ⟨hfollows, hheight⟩ := h.start_of_tree hchain hstored top (hqtree.trans htrees) hmax
        hnear data (Except.ok.inj hload).symm
      exact ⟨hfollows, Or.inr ⟨by rw [← Except.ok.inj hload], by rw [hheight]⟩⟩
    · rename_i hotherRoot
      cases hprevious : store.get (NodeRecovery.previousHeight top) with
      | none =>
        simp only [hprevious] at hload
        cases hload
      | some previous =>
        simp only [hprevious] at hload
        split at hload
        · rename_i hpreviousRoot
          obtain ⟨rfl, hbelow⟩ := h.shelved.block_eq _ previous hprevious
          obtain ⟨below, rfl⟩ : ∃ below, top = below + 1 := ⟨top - 1, by omega⟩
          have hstep : NodeRecovery.previousHeight (below + 1) = below := if_neg (by omega)
          rw [hstep] at hpreviousRoot hbelow
          have htrees := happart height below (hqroot.symm.trans (hpreviousRoot.trans
            (root_of_height hchain below hbelow)))
          have hnear : ∀ e ∈ leavesUpTo config.badBlocks chain (below + 1),
              e ∈ leavesUpTo config.badBlocks chain height ∨ below + 1 = height + 1 := by
            intro e he
            have htop := hgreatest _ _ hb
            have hle := h.below _ _ hb
            by_cases hreached : below + 1 ≤ height
            · exact Or.inl (leavesUpTo_mono _ _ hreached e he)
            · exact Or.inr (by omega)
          obtain ⟨q', hq', hnext, hdata⟩ := recover_next hchain hstored below (hqtree.trans htrees)
            store data hload
          obtain ⟨hfollows, hheight⟩ := h.start_of_tree hchain hq' (below + 1) hnext hmax hnear data
            hdata
          exact ⟨hfollows, Or.inr ⟨by rw [hdata], by rw [hheight]⟩⟩
        · obtain ⟨hfollows, hzero⟩ := @follows_genesis D env config chain BlockStore.empty
            (fun _ => rfl) (by simp [BlockStore.empty]) marks data hload
          exact ⟨hfollows, Or.inl hzero⟩

omit happart h in
/-- What a crash leaves on the disk. -/
theorem Follows.onDisk {s : MarkedNode D} (h : Follows env config.badBlocks chain s)
    (point : CrashPoint) :
    ∃ height, ∃ p : Persistent D, ∃ store,
      NodeRecovery.diskAfter env config.badBlocks ⟨s.node.ledger, s.height⟩
        (chain (s.height + 1)) point = ⟨store, p.db⟩ ∧
      OnDisk env config.badBlocks chain height p store (s.marks (s.height + 1)) ∧
      (∀ k, s.blockStore.get k ≠ none → store.get k ≠ none) ∧
      ∀ k b, store.get k = some b → k ≤ s.height + 1 := by
  have hheight := hchain.height_eq (s.height + 1)
  have hremark := h.remark hchain (s.height + 1)
  have hself := s.blockStore.set_get_self (chain (s.height + 1))
  rw [hheight] at hself
  have hkeeps : ∀ k, s.blockStore.get k ≠ none →
      (s.blockStore.set (chain (s.height + 1))).get k ≠ none := by
    intro k hk
    by_cases heq : k = s.height + 1
    · rw [heq, hself]
      simp
    · rwa [BlockStore.set_get_of_ne _ _ k (by rwa [hheight])]
  have hbelow : ∀ k b, (s.blockStore.set (chain (s.height + 1))).get k = some b →
      k ≤ s.height + 1 := by
    intro k b hb
    by_cases heq : k = s.height + 1
    · omega
    · rw [BlockStore.set_get_of_ne _ _ k (by rwa [hheight])] at hb
      have := h.below k b hb
      omega
  have hnext : ∀ e ∉ leavesUpTo config.badBlocks chain s.height,
      s.marks (s.height + 1) e = s.height + 1 := fun e he =>
    if_neg fun hc => he ((h.contains_iff hchain e).mp hc)
  cases point with
  | beforeStore =>
    exact ⟨s.height, s.notesTree, s.blockStore, rfl, ⟨h.stored, h.tree_eq, h.shelved,
      fun k b hb => (h.below k b hb).trans (Nat.le_succ _), hremark.marked, fun _ => hnext⟩,
      fun _ hk => hk, fun k b hb => (h.below k b hb).trans (Nat.le_succ _)⟩
  | betweenWrites =>
    refine ⟨s.height, s.notesTree, s.blockStore.set (chain (s.height + 1)), rfl, ⟨h.stored,
      h.tree_eq, h.shelved.set _ hheight (by omega) fun k b hb => ?_, hbelow,
      fun e he => (hremark.marked e he).imp_right fun hbrought => hbrought.mono hkeeps,
      fun _ => hnext⟩, hkeeps, hbelow⟩
    have := h.below k b hb
    omega
  | afterTree =>
    obtain ⟨hcommit, hnew, hstore⟩ := h.commit hchain
    refine ⟨s.height + 1, (commitBlock env config (chain (s.height + 1)) s).notesTree,
      (commitBlock env config (chain (s.height + 1)) s).blockStore, rfl, ⟨hcommit.stored, ?_,
      hcommit.shelved, fun k b hb => ?_, ?_, fun hstored => ?_⟩, fun k hk => ?_, ?_⟩
    · rw [hcommit.tree_eq, hnew]
    · have := hcommit.below k b hb
      omega
    · have hmarked := hcommit.marked
      rw [hnew] at hmarked
      intro e he
      have := hmarked e he
      rwa [commitBlock, hheight] at this
    · obtain ⟨b, hb⟩ := Option.ne_none_iff_exists'.mp hstored
      have := hcommit.below _ b hb
      omega
    · rw [hstore]
      exact hkeeps k hk
    · rw [hstore]
      exact hbelow

end Restart

section Skipping

variable {D : ℕ} {env : NodeEnv} {config : Config} {chain : ℕ → Block}

/-- A height that the node has passed without storing its block. -/
def Skipped (s : MarkedNode D) (height : ℕ) : Prop :=
  0 < height ∧ height ≤ s.height ∧ s.blockStore.get height = none

variable {s : MarkedNode D} (hchain : Finalized D config.badBlocks chain env)
  (h : Follows env config.badBlocks chain s)

include hchain h

theorem Follows.skipped_of_commit (height : ℕ)
    (hskipped : Skipped (commitBlock env config (chain (s.height + 1)) s) height) :
    Skipped s height := by
  obtain ⟨-, hnew, hstore⟩ := h.commit hchain
  obtain ⟨hpos, hle, hnone⟩ := hskipped
  have hheight := hchain.height_eq (s.height + 1)
  have hself := s.blockStore.set_get_self (chain (s.height + 1))
  rw [hheight] at hself
  rw [hstore] at hnone
  have hne : height ≠ s.height + 1 := by
    rintro rfl
    rw [hself] at hnone
    cases hnone
  rw [BlockStore.set_get_of_ne _ _ height (by rwa [hheight])] at hnone
  exact ⟨hpos, by omega, hnone⟩

/-- A node that comes up after a crash follows the chain, and has skipped nothing more. -/
theorem Follows.crash (happart : RootsApart D config.badBlocks chain env) (point : CrashPoint)
    (node : MarkedNode D) (hok : crashAt env config (chain (s.height + 1)) point s = .ok node) :
    Follows env config.badBlocks chain node ∧ ∀ height, Skipped node height → Skipped s height := by
  obtain ⟨n, p, store, hdisk, hon, hkeeps, hbelow⟩ := h.onDisk hchain point
  unfold crashAt NodeRecovery.restart at hok
  rw [hdisk, hchain.height_eq] at hok
  cases hload : NodeRecovery.loadDbAndSmirk env D config.badBlocks ⟨store, p.db⟩ with
  | error e =>
    rw [hload] at hok
    cases hok
  | ok data =>
    rw [hload] at hok
    obtain rfl := Except.ok.inj hok
    obtain ⟨hfollows, hstart⟩ := hon.restart hchain happart data hload
    refine ⟨hfollows, fun height hskipped => ?_⟩
    obtain ⟨hpos, hle, hnone⟩ := hskipped
    change height ≤ (start env 10000 data (s.marks (s.height + 1))).height at hle
    rcases hstart with hzero | ⟨hstore, hmax⟩
    · omega
    · change data.blockStore.get height = none at hnone
      rw [hstore] at hnone
      obtain ⟨⟨b, hb⟩, -⟩ := hon.shelved.greatest _ hmax
      have htop := hbelow _ b hb
      have hne : height ≠ (start env 10000 data (s.marks (s.height + 1))).height := by
        rintro heq
        rw [heq, hb] at hnone
        cases hnone
      refine ⟨hpos, by omega, ?_⟩
      by_contra hsome
      exact hkeeps height hsome hnone

/-- A node that steps along the chain follows it, and skips only what lies below the block of
a snapshot. -/
theorem Follows.step (happart : RootsApart D config.badBlocks chain env) (overflowChecks : Bool)
    (event : NodeEvent) (hon : OnChain env config chain s event) :
    Follows env config.badBlocks chain (nodeStep env config overflowChecks s event) ∧
      ∀ k, Skipped (nodeStep env config overflowChecks s event) k → Skipped s k ∨
        ∃ chunk height, event = .fastSync chunk ∧ s.height < height ∧
          chunk.block = some (chain height) ∧ s.height < k ∧ k < height := by
  cases event with
  | commit block =>
    obtain rfl : block = chain (s.height + 1) := hon
    exact ⟨(h.commit hchain).1, fun k hk => Or.inl (h.skipped_of_commit hchain k hk)⟩
  | fastSync chunk =>
    obtain ⟨height, habove, hgood, hblock, hcomplete⟩ := hon
    obtain ⟨hfollows, hstore, hheight⟩ := h.receiveChunk hchain overflowChecks chunk height habove
      hgood hblock hcomplete
    refine ⟨hfollows, fun k hk => ?_⟩
    obtain ⟨hpos, hle, hnone⟩ := hk
    change k ≤ (ChainHistory.receiveChunk env config overflowChecks chunk s).height at hle
    change (ChainHistory.receiveChunk env config overflowChecks chunk s).blockStore.get k = none
      at hnone
    rw [hstore] at hnone
    by_cases hk : k ≤ s.height
    · exact Or.inl ⟨hpos, hk, hnone⟩
    · rcases hheight with hsame | hheight
      · rw [MarkedNode.height, hsame] at hle
        exact absurd hle hk
      · exact Or.inr ⟨chunk, height, rfl, habove, hblock, by omega, by omega⟩
  | crash block point =>
    obtain ⟨rfl, node, hok⟩ := hon
    have hstep : nodeStep env config overflowChecks s (.crash (chain (s.height + 1)) point) =
        node := by
      rw [nodeStep, hok]
    rw [hstep]
    obtain ⟨hfollows, hskipped⟩ := h.crash hchain happart point node hok
    exact ⟨hfollows, fun k hk => Or.inl (hskipped k hk)⟩

end Skipping

end PayyRollup.ChainHistory
