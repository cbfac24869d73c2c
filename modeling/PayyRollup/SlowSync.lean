import PayyRollup.ChainCaches
import PayyRollup.NetworkHandler

/-!
Catching up block by block. The sender of a slow snapshot answers with the blocks of a range that
it stores, and those it still keeps in its cache. The receiver sorts them, puts them into its
cache one by one, and commits what follows its confirmed block, while other blocks of the chain
and other notifications come in. When all are applied it has everything up to the end of the
range, the height of the sender, or the size of its cache, whichever comes first.
-/
namespace PayyRollup.SlowSync

open ScalarField RollupState SparseMerkle ElementHash SmirkTree NodeBlocks BlockCaches
  BlockValidation BlockCommit NodeRuns FastSync ChainHistory SyncWorker
open SmirkNode hiding Node

variable {D : ℕ} (env : NodeEnv) (config : Config) (chain : ℕ → Block)

/-- The blocks of the chain are signed by the leaders of their heights. -/
def Signed (validatorsForHeight : ℕ → List Address) : Prop :=
  ∀ height, height + 1 ∉ config.badBlocks → ∃ leader,
    leaderForBlockHeight (validatorsForHeight (height + 1)) (height + 1) = some leader ∧
      (chain (height + 1)).signature.verify env ((chain (height + 1)).hash env) = .ok leader

/-- The transactions of the blocks have valid proofs, on roots of the blocks before them. -/
structure Endorsed : Prop where
  verified : ∀ height, height + 1 ∉ config.badBlocks →
    ∀ txn ∈ (chain (height + 1)).content.state.txns, txn.verify env = some true
  recent : ∀ height, height + 1 ∉ config.badBlocks →
    ∀ txn ∈ (chain (height + 1)).content.state.txns, txn.recentRoot = 0#256 ∨
      config.mode.isProver = true ∨ ∃ k, 0 < k ∧ k ≤ height ∧
        nextHeight (height + 1) - recentRootCount ≤ k ∧ k < nextHeight (height + 1) ∧
          txn.recentRoot = (chain k).rootHash
  sized : ∀ height, height + 1 ∉ config.badBlocks →
    ∀ txn ∈ (chain (height + 1)).content.state.txns, ∀ leaf ∈ txn.leaves, leaf.toNat < modulus

/-- A tick with validators that signed the chain, in which all writes succeed. -/
def Clean (input : TickInput) : Prop :=
  Signed env config chain input.validatorsForHeight ∧ input.io = fun _ => ⟨true, true⟩

/-- A node that follows the chain from its first block on, and has heard only its blocks. -/
structure Synced (s : Node D) : Prop where
  follows : ∃ insertedIn, Follows env config.badBlocks chain ⟨s, insertedIn⟩
  whole : ∀ k, 0 < k → k ≤ s.blockCache.height → s.ledger.blockStore.get k ≠ none
  carries : Carries env chain s.blockCache

variable {env config chain} (hchain : Finalized D config.badBlocks chain env)

section Validation

variable {s : Node D} (h : Synced env config chain s)

include hchain h

/-- The next block of the chain is valid. -/
theorem Synced.validates (hendorsed : Endorsed env config chain)
    (validatorsForHeight : ℕ → List Address)
    (hsigned : Signed env config chain validatorsForHeight) :
    validateBlock env config validatorsForHeight (chain (s.blockCache.height + 1)) s.ledger =
      .ok () := by
  obtain ⟨insertedIn, hfollows⟩ := h.follows
  have hheight := hchain.height_eq (s.blockCache.height + 1)
  unfold validateBlock
  by_cases hbad : s.blockCache.height + 1 ∈ config.badBlocks
  · rw [hheight, if_pos hbad]
  obtain ⟨leader, hleader, hverified⟩ := hsigned s.blockCache.height hbad
  rw [hheight, if_neg hbad, hleader, hverified]
  dsimp only
  rw [if_neg (not_not.mpr rfl), validate_ok]
  have hadded : addedLeaves config.badBlocks (leavesUpTo config.badBlocks chain s.blockCache.height)
      (chain (s.blockCache.height + 1)) =
        (chain (s.blockCache.height + 1)).content.state.leavesNonNull := by
    rw [addedLeaves, if_neg (by rwa [hheight])]
  have hapart := hchain.apart (s.blockCache.height + 1)
  obtain ⟨hfree, hlaid⟩ := hchain.chainTree_succ s.blockCache.height
  rw [leavesUpTo, hadded] at hapart
  rw [hadded] at hfree hlaid
  refine ⟨⟨?_, fun txn htxn => ?_⟩, ?_⟩
  · exact (List.pairwise_append.mp hapart).2.1.imp fun hslots heq => hslots (congrArg _ heq)
  · refine ⟨hendorsed.verified _ hbad txn htxn, ?_, hendorsed.sized _ hbad txn htxn, ?_⟩
    · rcases hendorsed.recent _ hbad txn htxn with hnull | hprover | ⟨k, hpos, hle, hrecent⟩
      · exact Or.inl hnull
      · exact Or.inr (Or.inr hprover)
      · obtain ⟨hstart, hstop, hroot⟩ := hrecent
        right
        left
        obtain ⟨block, hblock⟩ := Option.ne_none_iff_exists'.mp (h.whole k hpos hle)
        obtain ⟨rfl, -⟩ := hfollows.shelved.block_eq k block hblock
        have hrecentHeight : (chain (s.blockCache.height + 1)).content.header.height =
            s.blockCache.height + 1 := hheight
        rw [hroot, recentRoots, hrecentHeight]
        exact List.mem_map_of_mem ((BlockStore.mem_list _ _ _ _).mpr ⟨k, hstart, hstop, hblock⟩)
    · intro leaf hleaf hne
      rw [Bool.eq_false_iff]
      intro hin
      refine hchain.fresh s.blockCache.height hbad leaf ?_
        ((hfollows.contains_iff hchain leaf).mp hin)
      exact List.mem_filter.mpr ⟨List.mem_flatMap.mpr ⟨txn, htxn, hleaf⟩, decide_eq_true hne⟩
  · rw [newRootHash_eq_some hfollows.stored.valid, hfollows.tree_eq]
    refine ⟨hfree.not_crowded, ?_⟩
    rw [← hlaid]
    exact hchain.root_eq s.blockCache.height

/-- The next block of the chain is committed with both writes. -/
theorem Synced.commits : (commitProposal env config.badBlocks ⟨true, true⟩
    (chain (s.blockCache.height + 1)) s.ledger).2 = .ok () := by
  obtain ⟨insertedIn, hfollows⟩ := h.follows
  have hnew := newLeaves_eq hchain s.ledger.notesTree.tree s.blockCache.height
    (hfollows.contains_iff hchain)
  have hleaves : LeavesFree config.badBlocks (chain (s.blockCache.height + 1)) s.ledger
      hfollows.stored.valid := by
    unfold LeavesFree
    rw [hfollows.tree_eq, hchain.height_eq, hnew]
    exact (hchain.chainTree_succ s.blockCache.height).1
  exact (commitProposal_free hfollows.stored.valid rfl hleaves).2.2 (Or.inl rfl)

end Validation

section Advancing

/-- A node that goes on keeps all heights that its cache has room for. -/
structure Advances (s s' : Node D) : Prop where
  height : s.blockCache.height ≤ s'.blockCache.height
  size : s'.blockCache.maxCacheSize = s.blockCache.maxCacheSize
  covers : ∀ bound, bound + 1 - s.blockCache.height < s.blockCache.maxCacheSize →
    Covers s.blockCache bound → Covers s'.blockCache bound

theorem Advances.refl (s : Node D) : Advances s s := ⟨le_refl _, rfl, fun _ _ h => h⟩

theorem Advances.trans {s t u : Node D} (h : Advances s t) (h' : Advances t u) : Advances s u := by
  refine ⟨h.height.trans h'.height, h'.size.trans h.size, fun bound hroom hcovers => ?_⟩
  refine h'.covers bound ?_ (h.covers bound hroom hcovers)
  rw [h.size]
  have hheight := h.height
  omega

/-- A node that is not a validator only puts the block into its cache. -/
theorem receiveProposal_of_mode (hmode : config.mode ≠ Mode.validator) (block : Block)
    (s : Node D) : receiveProposal env config block s =
      { s with blockCache := s.blockCache.insert env block } := if_neg hmode

variable {s : Node D} (h : Synced env config chain s)

include h

/-- A block of the chain arrives. -/
theorem Synced.receive (hdistinct : Distinct env chain) (hmode : config.mode ≠ Mode.validator)
    (k : ℕ) (hk : k < 2 ^ 64) :
    let s' := receiveProposal env config (chain k) s
    Synced env config chain s' ∧ Advances s s' ∧
      ∀ bound, bound + 1 - s.blockCache.height < s.blockCache.maxCacheSize →
        Covers s.blockCache bound → k = bound + 1 → Covers s'.blockCache k := by
  intro s'
  have hreceived : s' = { s with blockCache := s.blockCache.insert env (chain k) } :=
    receiveProposal_of_mode hmode (chain k) s
  have hheight : (s.blockCache.insert env (chain k)).height = s.blockCache.height :=
    insert_height _
  rw [hreceived]
  refine ⟨⟨?_, ?_, h.carries.insert hdistinct k hk⟩, ⟨hheight.ge, insert_maxCacheSize _, ?_⟩, ?_⟩
  · obtain ⟨insertedIn, hfollows⟩ := h.follows
    refine ⟨insertedIn, ⟨hfollows.stored, ?_, hfollows.shelved, ?_, ?_⟩⟩
    · exact hfollows.tree_eq.trans (congrArg (chainTree D config.badBlocks chain) hheight.symm)
    · intro j b hb
      exact (hfollows.below j b hb).trans hheight.ge
    · intro e (he : e ∈ leavesUpTo _ _ (s.blockCache.insert env (chain k)).height)
      rw [hheight] at he
      exact hfollows.marked e he
  · intro j hpos hle
    exact h.whole j hpos (hle.trans hheight.le)
  · intro bound hroom hcovers
    exact (h.carries.insert_covers hdistinct k hk bound hcovers hroom).1
  · intro bound hroom hcovers hnext
    exact (h.carries.insert_covers hdistinct k hk bound hcovers hroom).2 hnext

include hchain

/-- A turn of the commit loop commits the next block if there is one. -/
theorem Synced.turn (hendorsed : Endorsed env config chain)
    (validatorsForHeight : ℕ → List Address)
    (hsigned : Signed env config chain validatorsForHeight) :
    let turn := commitNext env config validatorsForHeight ⟨true, true⟩ s
    Synced env config chain turn.1 ∧ Advances s turn.1 ∧ turn.2 ≠ .failed ∧
      (turn.2 = .idle → turn.1 = s ∧ s.blockCache.getNextCommitBlock = none) := by
  intro turn
  cases hnext : s.blockCache.getNextCommitBlock with
  | none =>
    have hturn : turn = (s, .idle) := by simp only [turn, commitNext, hnext]
    rw [hturn]
    exact ⟨h, Advances.refl s, fun hfailed => (by cases hfailed), fun _ => ⟨rfl, rfl⟩⟩
  | some block =>
    obtain rfl := h.carries.next block hnext
    have hvalid := h.validates hchain hendorsed validatorsForHeight hsigned
    have hcommits := h.commits hchain
    obtain ⟨insertedIn, hfollows⟩ := h.follows
    have hturn : turn = ((commitBlock env config (chain (s.blockCache.height + 1))
        ⟨s, insertedIn⟩).node, .again) := by
      simp only [turn, commitNext, hnext, hvalid, hcommits, if_true]
      rfl
    rw [hturn]
    obtain ⟨hfollows', hheight, hstore⟩ := hfollows.commit hchain
    have hconfirmed := hchain.height_eq (s.blockCache.height + 1)
    set next := (commitBlock env config (chain (s.blockCache.height + 1)) ⟨s, insertedIn⟩).node
      with hset
    replace hheight : next.blockCache.height = s.blockCache.height + 1 := hheight
    replace hstore : next.ledger.blockStore =
      s.ledger.blockStore.set (chain (s.blockCache.height + 1)) := hstore
    have hcache : next.blockCache = s.blockCache.confirm (s.blockCache.height + 1) :=
      congrArg s.blockCache.confirm hconfirmed
    refine ⟨⟨⟨_, hfollows'⟩, ?_, hcache ▸ h.carries.confirm _⟩, ⟨?_, ?_, ?_⟩, ?_, ?_⟩
    · intro k hpos hle
      rw [hstore]
      by_cases hk : k = s.blockCache.height + 1
      · have hself := s.ledger.blockStore.set_get_self (chain (s.blockCache.height + 1))
        rw [hconfirmed] at hself
        rw [hk, hself]
        simp
      · rw [BlockStore.set_get_of_ne _ _ k (by rwa [hconfirmed])]
        rw [hheight] at hle
        exact h.whole k hpos (by omega)
    · rw [hheight]
      exact Nat.le_succ _
    · rw [hcache]
      exact (h.carries.agrees.confirm _).2.2
    · intro bound _ hcovers
      rw [hcache]
      exact hcovers.confirm bound _ (Nat.le_succ _)
    · intro hfailed
      cases hfailed
    · intro hidle
      cases hidle

omit hchain in
theorem Synced.tracks : Tracks env (fun block => block = chain block.height ∧ block.height < 2 ^ 64)
    s.blockCache := by
  refine ⟨fun x block hx => ⟨h.carries.agrees.hashed x block hx, h.carries.chained x block hx⟩, ?_⟩
  intro k x hx
  obtain ⟨block, hblock, hheight, hhash⟩ := h.carries.agrees.block_of_height k x hx
  exact ⟨block, h.carries.chained x block hblock, hhash, hheight⟩

/-- Enough turns commit all that follows the confirmed block. -/
theorem Synced.loop (hdistinct : Distinct env chain) (hendorsed : Endorsed env config chain)
    (validatorsForHeight : ℕ → List Address)
    (hsigned : Signed env config chain validatorsForHeight) (turns : ℕ) :
    let s' := commitLoop env config validatorsForHeight turns (fun _ => ⟨true, true⟩) s
    Synced env config chain s' ∧ Advances s s' ∧
      ((pending s).card < turns → s'.blockCache.getNextCommitBlock = none) := by
  induction turns generalizing s with
  | zero => exact ⟨h, Advances.refl s, fun hturns => absurd hturns (Nat.not_lt_zero _)⟩
  | succ turns ih =>
    obtain ⟨hnext, hadvances, hsound, hidle⟩ :=
      h.turn hchain hendorsed validatorsForHeight hsigned
    intro s'
    rw [show s' = if (commitNext env config validatorsForHeight ⟨true, true⟩ s).2 = .again then
      commitLoop env config validatorsForHeight turns (fun _ => ⟨true, true⟩)
        (commitNext env config validatorsForHeight ⟨true, true⟩ s).1
      else (commitNext env config validatorsForHeight ⟨true, true⟩ s).1 from rfl]
    split
    · rename_i hagain
      obtain ⟨hsynced, hadvances', hdone⟩ := ih hnext
      refine ⟨hsynced, hadvances.trans hadvances', fun hturns => hdone ?_⟩
      have hapart : ∀ a b : Block, (a = chain a.height ∧ a.height < 2 ^ 64) →
          (b = chain b.height ∧ b.height < 2 ^ 64) → a.hash env = b.hash env →
            a.height = b.height := by
        rintro a b ⟨ha, hasmall⟩ ⟨hb, hbsmall⟩ hsame
        rw [ha, hb] at hsame
        exact hdistinct.hash_inj _ _ hasmall hbsmall hsame
      obtain ⟨hfewer, -⟩ := pending_commitNext hapart validatorsForHeight ⟨true, true⟩ s h.tracks
        hagain
      omega
    · rename_i hstops
      have hend : (commitNext env config validatorsForHeight ⟨true, true⟩ s).2 = .idle := by
        cases hend : (commitNext env config validatorsForHeight ⟨true, true⟩ s).2 with
        | idle => rfl
        | again => exact absurd hend hstops
        | failed => exact absurd hend hsound
      obtain ⟨hsame, hnone⟩ := hidle hend
      rw [hsame]
      exact ⟨h, Advances.refl s, fun _ => hnone⟩

theorem Synced.tick (hdistinct : Distinct env chain) (hendorsed : Endorsed env config chain)
    (hmode : config.mode ≠ Mode.validator) (input : TickInput)
    (hinput : Clean env config chain input) :
    let s' := NodeRuns.tick env config input s
    Synced env config chain s' ∧ Advances s s' ∧ s'.blockCache.getNextCommitBlock = none := by
  intro s'
  have htick : s' = commitLoop env config input.validatorsForHeight ((pending s).card + 1)
      (fun _ => ⟨true, true⟩) s := by
    change NodeRuns.tick env config input s = _
    unfold NodeRuns.tick
    rw [← hinput.2]
    exact if_pos (decide_eq_false fun hvalidator => hmode hvalidator.1)
  rw [htick]
  obtain ⟨hsynced, hadvances, hdone⟩ := h.loop hchain hdistinct hendorsed
    input.validatorsForHeight hinput.1 ((pending s).card + 1)
  exact ⟨hsynced, hadvances, hdone (Nat.lt_succ_self _)⟩

end Advancing

section Worker

/-- The blocks are those of the chain. -/
def OfChain (chain : ℕ → Block) (blocks : List Block) : Prop :=
  ∀ block ∈ blocks, ∃ k < 2 ^ 64, block = chain k

def HonestChunk (chain : ℕ → Block) : SnapshotChunk → Prop
  | .slow chunk => OfChain chain chunk.chunk
  | .fast _ => False

/-- The world as a node on the chain sees it: the blocks that come in are those of the chain, the
ticks are clean, and snapshots are slow ones. -/
def Honest (env : NodeEnv) (config : Config) (chain : ℕ → Block) : Action → Prop
  | .node (.receiveProposal block) => ∃ k < 2 ^ 64, block = chain k
  | .node (.tick input) => Clean env config chain input
  | .turn validatorsForHeight io =>
      Signed env config chain validatorsForHeight ∧ io = ⟨true, true⟩
  | .chunk _ chunk => HonestChunk chain chunk
  | .notice | .notify | .offer _ _ | .work _ | .timeout => True

/-- The order in which the blocks of a chunk are applied. -/
def sorted (blocks : List Block) : List Block :=
  blocks.mergeSort fun a b => decide (a.height ≤ b.height)

theorem OfChain.sorted {blocks : List Block} (h : OfChain chain blocks) :
    OfChain chain (sorted blocks) ∧
      (SlowSync.sorted blocks).Pairwise fun a b => a.height ≤ b.height := by
  refine ⟨fun block hblock => h block (List.mem_mergeSort.mp hblock), ?_⟩
  have hpairwise := @List.pairwise_mergeSort Block (fun a b => decide (a.height ≤ b.height))
    (fun a b c hab hbc => by simp only [decide_eq_true_eq] at *; omega)
    (fun a b => by simp only [Bool.or_eq_true, decide_eq_true_eq]; omega) blocks
  exact hpairwise.imp of_decide_eq_true

/-- The worker has only honest chunks to handle. -/
structure Served (chain : ℕ → Block) (s : State D) : Prop where
  channel : ∀ peer chunk, .snapshotChunk peer chunk ∈ s.channel → HonestChunk chain chunk
  applying : ∀ blocks, s.phase = .applying blocks →
    OfChain chain blocks ∧ blocks.Pairwise fun a b => a.height ≤ b.height

/-- A step that is not about blocks: the node stays, and a chunk is taken from the channel. -/
structure Waits (s t : State D) : Prop where
  node : t.node = s.node
  channel : ∀ message ∈ t.channel, message ∈ s.channel ∨ ∃ height, message = .outOfSync height
  applying : ∀ blocks, t.phase = .applying blocks → ∃ peer chunk,
    .snapshotChunk peer (.slow chunk) ∈ s.channel ∧ blocks = sorted chunk.chunk

theorem Waits.of_phase {s t : State D} (hnode : t.node = s.node)
    (hchannel : ∀ message ∈ t.channel, message ∈ s.channel)
    (hphase : ∀ blocks, t.phase ≠ .applying blocks) : Waits s t :=
  ⟨hnode, fun message hmessage => Or.inl (hchannel message hmessage),
    fun blocks happlying => absurd happlying (hphase blocks)⟩

variable (overflowChecks : Bool)

theorem checkOutOfSync_waits (s : State D) (next : Phase)
    (hnext : ∀ blocks, next ≠ .applying blocks) :
    Waits s (checkOutOfSync overflowChecks next s) := by
  unfold checkOutOfSync
  split
  · exact .of_phase rfl (fun _ h => h) fun blocks h => by cases h
  · exact .of_phase rfl (fun _ h => h) fun blocks h => by cases h
  · exact .of_phase rfl (fun _ h => h) hnext

theorem waitForSnapshotOffer_waits (s : State D) (snapshotId : SnapshotId) (kind : SnapshotKind)
    (toHeight : ℕ) (hphase : ∀ blocks, s.phase ≠ .applying blocks) :
    Waits s (waitForSnapshotOffer overflowChecks snapshotId kind toHeight s) := by
  unfold waitForSnapshotOffer
  split
  · exact .of_phase rfl (fun _ h => h) hphase
  · rename_i peer offered rest hchannel
    have hrest : ∀ message ∈ rest, message ∈ s.channel := by
      rw [hchannel]
      exact fun _ => List.mem_cons_of_mem _
    split
    · unfold handleSnapshotOffer
      split
      · exact .of_phase rfl hrest fun blocks h => by cases h
      · exact .of_phase rfl hrest fun blocks h => by cases h
    · exact .of_phase rfl hrest hphase
  · rename_i message rest hchannel
    refine .of_phase rfl ?_ hphase
    rw [hchannel]
    exact fun _ => List.mem_cons_of_mem _

theorem waitForSnapshotChunk_waits (s : State D) (hserved : Served chain s) (peer : PeerId)
    (snapshotId : SnapshotId) (written : Bool) (hphase : ∀ blocks, s.phase ≠ .applying blocks) :
    Waits s (waitForSnapshotChunk env config overflowChecks peer snapshotId written s) := by
  unfold waitForSnapshotChunk
  split
  · exact .of_phase rfl (fun _ h => h) hphase
  · rename_i sender chunk rest hchannel
    have hrest : ∀ message ∈ rest, message ∈ s.channel := by
      rw [hchannel]
      exact fun _ => List.mem_cons_of_mem _
    have hmem : Message.snapshotChunk sender chunk ∈ s.channel := by
      rw [hchannel]
      exact List.mem_cons_self
    split
    · cases chunk with
      | fast chunk => exact (hserved.channel sender _ hmem).elim
      | slow chunk =>
        refine ⟨rfl, fun message h => Or.inl (hrest message h), fun blocks happlying => ?_⟩
        cases happlying
        exact ⟨sender, chunk, hmem, rfl⟩
    · exact .of_phase rfl hrest hphase
  · rename_i message rest hchannel
    refine .of_phase rfl ?_ hphase
    rw [hchannel]
    exact fun _ => List.mem_cons_of_mem _

/-- A worker that applies no blocks leaves the node alone. -/
theorem work_waits (worker : WorkerConfig) (s : State D) (hserved : Served chain s)
    (input : WorkInput) (hphase : ∀ blocks, s.phase ≠ .applying blocks) :
    Waits s (work env config worker overflowChecks input s) := by
  unfold work
  cases hcase : s.phase with
  | waiting =>
    dsimp only
    unfold waitForOutOfSync
    split
    · exact .of_phase rfl (fun _ h => h) hphase
    · rename_i height rest hchannel
      refine .of_phase rfl ?_ fun blocks h => by cases h
      rw [hchannel]
      exact fun _ => List.mem_cons_of_mem _
    · rename_i message rest hchannel
      refine .of_phase rfl ?_ hphase
      rw [hchannel]
      exact fun _ => List.mem_cons_of_mem _
  | notified maxSeenHeight =>
    exact checkOutOfSync_waits overflowChecks s _ fun blocks h => by cases h
  | behind maxSeenHeight =>
    dsimp only
    unfold startRange
    split
    · exact .of_phase rfl (fun _ h => h) fun blocks h => by cases h
    · split
      · exact .of_phase rfl (fun _ h => h) fun blocks h => by cases h
      · exact .of_phase rfl (fun _ h => h) fun blocks h => by cases h
  | ranged maxSeenHeight fromHeight toHeight =>
    dsimp only
    unfold SyncWorker.measure
    split
    · exact .of_phase rfl (fun _ h => h) fun blocks h => by cases h
    · exact .of_phase rfl (fun _ h => h) fun blocks h => by cases h
  | measured farEnough fromHeight toHeight =>
    exact .of_phase rfl (fun _ h => h) fun blocks h => by cases h
  | requested snapshotId kind toHeight =>
    exact waitForSnapshotOffer_waits overflowChecks s snapshotId kind toHeight hphase
  | accepted peer snapshotId =>
    exact waitForSnapshotChunk_waits overflowChecks s hserved peer snapshotId input.written hphase
  | applying blocks => exact absurd hcase (hphase blocks)
  | applied => exact checkOutOfSync_waits overflowChecks s _ fun blocks h => by cases h
  | stillBehind =>
    refine ⟨rfl, fun message hmessage => ?_, fun blocks h => by cases h⟩
    rcases List.mem_append.mp hmessage with hold | hnew
    · exact Or.inl hold
    · exact Or.inr ⟨_, List.mem_singleton.mp hnew⟩
  | stopped => exact .of_phase rfl (fun _ h => h) hphase

/-- What a step of the worker leaves is served as well. -/
theorem Waits.served {s t : State D} (h : Waits s t) (hserved : Served chain s) :
    Served chain t := by
  refine ⟨fun peer chunk hchunk => ?_, fun blocks happlying => ?_⟩
  · rcases h.channel _ hchunk with hold | ⟨height, hnotice⟩
    · exact hserved.channel peer chunk hold
    · cases hnotice
  · obtain ⟨peer, chunk, hchunk, rfl⟩ := h.applying blocks happlying
    exact OfChain.sorted (hserved.channel peer _ hchunk)

end Worker

section Filling

/-- While a worker applies the blocks of a chunk, the heights up to a bound are in the cache, or
committed, and the rest of the chunk has all blocks from there up to the top. -/
structure Filling (env : NodeEnv) (config : Config) (chain : ℕ → Block) (top : ℕ) (s : State D) :
    Prop where
  synced : Synced env config chain s.node
  served : Served chain s
  room : top + 1 - s.node.blockCache.height < s.node.blockCache.maxCacheSize
  filled : Covers s.node.blockCache top ∨ ∃ bound < top, Covers s.node.blockCache bound ∧
    ∃ blocks, s.phase = .applying blocks ∧ ∀ k, bound < k → k ≤ top → chain k ∈ blocks

variable {top : ℕ} {s t : State D} (h : Filling env config chain top s)

include h

/-- The node goes on, and the worker stays where it is. -/
theorem Filling.advance (hsynced : Synced env config chain t.node)
    (hadvances : Advances s.node t.node) (hserved : Served chain t) (hphase : t.phase = s.phase) :
    Filling env config chain top t := by
  have hroom := h.room
  have hheight := hadvances.height
  refine ⟨hsynced, hserved, ?_, ?_⟩
  · rw [hadvances.size]
    omega
  · rcases h.filled with hcovers | ⟨bound, hbound, hcovers, blocks, happlying, hblocks⟩
    · exact Or.inl (hadvances.covers top hroom hcovers)
    · exact Or.inr ⟨bound, hbound, hadvances.covers bound (by omega) hcovers, blocks,
        hphase.trans happlying, hblocks⟩

/-- The worker takes a step that is not about blocks. -/
theorem Filling.wait (hwaits : Waits s t) (hphase : ∀ blocks, s.phase ≠ .applying blocks) :
    Filling env config chain top t := by
  refine ⟨hwaits.node ▸ h.synced, hwaits.served h.served, hwaits.node ▸ h.room, Or.inl ?_⟩
  rw [hwaits.node]
  rcases h.filled with hcovers | ⟨bound, -, -, blocks, happlying, -⟩
  · exact hcovers
  · exact absurd happlying (hphase blocks)

/-- The worker puts the next block of the chunk into the cache. -/
theorem Filling.apply (hdistinct : Distinct env chain) (hmode : config.mode ≠ Mode.validator)
    (blocks : List Block) (hphase : s.phase = .applying blocks) :
    Filling env config chain top (applyBlock env config s blocks) := by
  obtain ⟨hhonest, hsorted⟩ := h.served.applying blocks hphase
  cases blocks with
  | nil =>
    refine ⟨h.synced, ⟨h.served.channel, fun blocks happlying => by cases happlying⟩, h.room, ?_⟩
    rcases h.filled with hcovers | ⟨bound, hbound, -, blocks, happlying, hblocks⟩
    · exact Or.inl hcovers
    · rw [hphase, Phase.applying.injEq] at happlying
      have hnext := hblocks (bound + 1) (Nat.lt_succ_self _) hbound
      rw [← happlying] at hnext
      cases hnext
  | cons block rest =>
    obtain ⟨k, hk, rfl⟩ := hhonest block List.mem_cons_self
    obtain ⟨hsynced, hadvances, hput⟩ := h.synced.receive hdistinct hmode k hk
    have happly : applyBlock env config s (chain k :: rest) =
        { s with node := receiveProposal env config (chain k) s.node, phase := .applying rest } :=
      if_neg hmode
    have hroom := h.room
    have hheight := hadvances.height
    rw [happly]
    refine ⟨hsynced, ⟨h.served.channel, ?_⟩, ?_, ?_⟩
    · intro blocks happlying
      cases happlying
      exact ⟨fun block hblock => hhonest block (List.mem_cons_of_mem _ hblock),
        (List.pairwise_cons.mp hsorted).2⟩
    · dsimp only
      rw [hadvances.size]
      omega
    · dsimp only
      rcases h.filled with hcovers | ⟨bound, hbound, hcovers, blocks, happlying, hblocks⟩
      · exact Or.inl (hadvances.covers top hroom hcovers)
      · rw [hphase, Phase.applying.injEq] at happlying
        subst happlying
        have hkept := hadvances.covers bound (by omega) hcovers
        have hlater : ∀ j, bound < j → j ≤ top → j ≠ k → chain j ∈ rest := by
          intro j hj hle hne
          rcases List.mem_cons.mp (hblocks j hj hle) with hsame | hrest
          · have hheights := congrArg Block.height hsame
            rw [hdistinct.height_eq, hdistinct.height_eq] at hheights
            exact absurd hheights hne
          · exact hrest
        by_cases hnext : k = bound + 1
        · have hcovered := hput bound (by omega) hcovers hnext
          by_cases hend : k = top
          · exact Or.inl (hend ▸ hcovered)
          · exact Or.inr ⟨k, by omega, hcovered, rest, rfl, fun j hj hle =>
              hlater j (by omega) hle (by omega)⟩
        · have hlow : k ≤ bound := by
            rcases List.mem_cons.mp (hblocks (bound + 1) (Nat.lt_succ_self _) hbound) with
              hsame | hrest
            · have hheights := congrArg Block.height hsame
              rw [hdistinct.height_eq, hdistinct.height_eq] at hheights
              omega
            · have hle := (List.pairwise_cons.mp hsorted).1 _ hrest
              rw [hdistinct.height_eq, hdistinct.height_eq] at hle
              omega
          exact Or.inr ⟨bound, hbound, hkept, rest, rfl, fun j hj hle =>
            hlater j hj hle (by omega)⟩

end Filling

section Runs

variable (hdistinct : Distinct env chain) (hendorsed : Endorsed env config chain)
  (hmode : config.mode ≠ Mode.validator) (worker : WorkerConfig) (overflowChecks : Bool)

include hchain hdistinct hendorsed hmode

theorem Filling.step {top : ℕ} {s : State D} (h : Filling env config chain top s)
    (action : Action) (haction : Honest env config chain action) :
    Filling env config chain top (SyncWorker.step env config worker overflowChecks s action) := by
  cases action with
  | node event =>
    cases event with
    | receiveProposal block =>
      obtain ⟨k, hk, rfl⟩ := haction
      obtain ⟨hsynced, hadvances, -⟩ := h.synced.receive hdistinct hmode k hk
      exact h.advance hsynced hadvances ⟨h.served.channel, h.served.applying⟩ rfl
    | tick input =>
      obtain ⟨hsynced, hadvances, -⟩ := h.synced.tick hchain hdistinct hendorsed hmode input haction
      exact h.advance hsynced hadvances ⟨h.served.channel, h.served.applying⟩ rfl
  | turn validatorsForHeight io =>
    obtain ⟨hsigned, rfl⟩ := haction
    obtain ⟨hsynced, hadvances, -⟩ := h.synced.turn hchain hendorsed validatorsForHeight hsigned
    exact h.advance hsynced hadvances ⟨h.served.channel, h.served.applying⟩ rfl
  | notice =>
    exact h.advance h.synced (Advances.refl _) ⟨h.served.channel, h.served.applying⟩ rfl
  | notify =>
    unfold SyncWorker.step
    dsimp only
    split
    · refine h.advance h.synced (Advances.refl _) ⟨?_, h.served.applying⟩ rfl
      intro peer chunk hchunk
      rcases List.mem_append.mp hchunk with hold | hnew
      · exact h.served.channel peer chunk hold
      · cases List.mem_singleton.mp hnew
    · exact h
  | offer peer snapshotId =>
    refine h.advance h.synced (Advances.refl _) ⟨?_, h.served.applying⟩ rfl
    intro sender chunk hchunk
    rcases List.mem_append.mp hchunk with hold | hnew
    · exact h.served.channel sender chunk hold
    · cases List.mem_singleton.mp hnew
  | chunk peer received =>
    refine h.advance h.synced (Advances.refl _) ⟨?_, h.served.applying⟩ rfl
    intro sender chunk hchunk
    rcases List.mem_append.mp hchunk with hold | hnew
    · exact h.served.channel sender chunk hold
    · cases List.mem_singleton.mp hnew
      exact haction
  | work input =>
    by_cases hphase : ∃ blocks, s.phase = .applying blocks
    · obtain ⟨blocks, happlying⟩ := hphase
      have hwork : SyncWorker.step env config worker overflowChecks s (.work input) =
          applyBlock env config s blocks := by
        change SyncWorker.work env config worker overflowChecks input s = _
        unfold SyncWorker.work
        rw [happlying]
      rw [hwork]
      exact h.apply hdistinct hmode blocks happlying
    · have hidle : ∀ blocks, s.phase ≠ .applying blocks :=
        fun blocks happlying => hphase ⟨blocks, happlying⟩
      exact h.wait (work_waits overflowChecks worker s h.served input hidle) hidle
  | timeout =>
    by_cases hphase : ∃ blocks, s.phase = .applying blocks
    · obtain ⟨blocks, happlying⟩ := hphase
      have hsame : SyncWorker.step env config worker overflowChecks s .timeout = s := by
        change SyncWorker.timeOut s = s
        unfold SyncWorker.timeOut
        rw [happlying]
      rw [hsame]
      exact h
    · have hidle : ∀ blocks, s.phase ≠ .applying blocks :=
        fun blocks happlying => hphase ⟨blocks, happlying⟩
      refine h.wait ?_ hidle
      change Waits s (SyncWorker.timeOut s)
      unfold SyncWorker.timeOut
      split
      · exact .of_phase rfl (fun _ h => h) fun blocks h => by cases h
      · exact .of_phase rfl (fun _ h => h) fun blocks h => by cases h
      · exact .of_phase rfl (fun _ h => h) hidle

theorem Filling.run {top : ℕ} {s : State D} (h : Filling env config chain top s)
    (actions : List Action) (hactions : ∀ action ∈ actions, Honest env config chain action) :
    Filling env config chain top (SyncWorker.run env config worker overflowChecks s actions) := by
  induction actions generalizing s with
  | nil => exact h
  | cons action rest ih =>
    obtain ⟨hfirst, hrest⟩ := List.forall_mem_cons.mp hactions
    exact ih (h.step hchain hdistinct hendorsed hmode worker overflowChecks action hfirst) hrest

end Runs

section Sending

variable {S : Type} {self : NetworkHandler.NodeShared D S}
  (h : Synced env config chain self.node.node)

include h

theorem getRange_ofChain (start stop : ℕ) (blocks : List Block)
    (hrange : NetworkHandler.getRange self.blockCache start stop = some blocks) :
    OfChain chain blocks := by
  unfold NetworkHandler.getRange at hrange
  split at hrange
  · cases hrange
  · cases hrange
    intro block hblock
    obtain ⟨height, -, hget⟩ := List.mem_filterMap.mp hblock
    obtain ⟨x, -, hlookup⟩ := Option.bind_eq_some_iff.mp hget
    obtain ⟨hchained, hsmall⟩ := h.carries.chained x block hlookup
    exact ⟨block.height, hsmall, hchained⟩

/-- A sender on the chain answers with all blocks of the range up to its height. -/
theorem sent_blocks (overflowChecks : Bool) (peer : PeerId) (accept : SnapshotAccept)
    (input : NetworkHandler.Input) (hread : input.storeRead = true)
    (hsmall : self.height + 1 < 2 ^ 64)
    (hrange : accept.fromHeight ≤ min accept.toHeight (self.height + 1)) :
    ∃ chunk : SnapshotChunkSlow,
      NetworkHandler.sendSnapshotChunkSlow overflowChecks peer accept input self =
        ([(peer, .snapshotChunk (.slow chunk))], .ok ()) ∧
      chunk.snapshotId = accept.snapshotId ∧ OfChain chain chunk.chunk ∧
      ∀ k, 0 < k → accept.fromHeight ≤ k → k < accept.toHeight → k ≤ self.height →
        chain k ∈ chunk.chunk := by
  obtain ⟨insertedIn, hfollows⟩ := h.follows
  have hnext : addHeights overflowChecks self.height 1 = some (self.height + 1) := by
    unfold addHeights
    rw [if_neg (by omega), Nat.mod_eq_of_lt hsmall]
  obtain ⟨pendingProposals, hpending⟩ : ∃ blocks, NetworkHandler.getRange self.blockCache
      accept.fromHeight (min accept.toHeight (self.height + 1)) = some blocks :=
    ⟨_, if_neg (Nat.not_lt.mpr hrange)⟩
  refine ⟨⟨accept.snapshotId, self.node.blockStore.list accept.fromHeight
    (min accept.toHeight (self.height + 1)) ++ pendingProposals⟩, ?_, rfl, ?_, ?_⟩
  · unfold NetworkHandler.sendSnapshotChunkSlow
    rw [hnext]
    dsimp only
    rw [if_neg (by rw [hread]; exact Bool.noConfusion), hpending]
  · intro block hblock
    rcases List.mem_append.mp hblock with hstored | hcached
    · obtain ⟨k, -, hk, hget⟩ := (BlockStore.mem_list _ _ _ _).mp hstored
      exact ⟨k, by omega, (hfollows.shelved.block_eq k block hget).1⟩
    · exact getRange_ofChain h _ _ pendingProposals hpending block hcached
  · intro k hpos hfrom hto hle
    obtain ⟨block, hblock⟩ := Option.ne_none_iff_exists'.mp (h.whole k hpos hle)
    obtain ⟨rfl, -⟩ := hfollows.shelved.block_eq k block hblock
    exact List.mem_append_left _ ((BlockStore.mem_list _ _ _ _).mpr
      ⟨k, hfrom, by omega, hblock⟩)

end Sending

/-- A round of slow sync between two nodes on the chain. The sender answers with a chunk; whatever
else of the chain comes in while the receiver handles it, the next tick after all its blocks are
applied takes the receiver to the end of the range, the height of the sender, or as far as its
cache reaches. -/
theorem slow_sync_round {S : Type} (env : NodeEnv) (config senderConfig : Config)
    (chain : ℕ → Block) (hchain : Finalized D config.badBlocks chain env)
    (hdistinct : Distinct env chain) (hendorsed : Endorsed env config chain)
    (hmode : config.mode ≠ Mode.validator) (worker : WorkerConfig) (overflowChecks : Bool)
    (sender : NetworkHandler.NodeShared D S)
    (hsender : Synced env senderConfig chain sender.node.node)
    (hsmall : sender.height + 1 < 2 ^ 64) (peer : PeerId) (accept : SnapshotAccept)
    (input : NetworkHandler.Input) (hread : input.storeRead = true)
    (hrange : accept.fromHeight ≤ min accept.toHeight (sender.height + 1))
    (s : State D) (hs : Synced env config chain s.node)
    (hchannel : ∀ peer chunk, .snapshotChunk peer chunk ∈ s.channel → HonestChunk chain chunk)
    (hsize : 2 ≤ s.node.blockCache.maxCacheSize) (hfrom : accept.fromHeight ≤ s.height + 1) :
    ∃ chunk : SnapshotChunkSlow,
      NetworkHandler.sendSnapshotChunkSlow overflowChecks peer accept input sender =
        ([(peer, .snapshotChunk (.slow chunk))], .ok ()) ∧
      ∀ actions : List Action, (∀ action ∈ actions, Honest env config chain action) →
        let s' := SyncWorker.run env config worker overflowChecks
          (handleSnapshotChunk env config overflowChecks true s (.slow chunk)) actions
        (∀ blocks, s'.phase ≠ .applying blocks) →
          ∀ tickInput, Clean env config chain tickInput →
            Synced env config chain (tick env config tickInput s'.node) ∧
              min (min (accept.toHeight - 1) sender.height)
                (s.height + s.node.blockCache.maxCacheSize - 2) ≤
                  (tick env config tickInput s'.node).blockCache.height := by
  obtain ⟨chunk, hsent, -, hhonest, hblocks⟩ := sent_blocks hsender overflowChecks peer accept input
    hread hsmall hrange
  refine ⟨chunk, hsent, ?_⟩
  intro actions hactions s' hdone tickInput hclean
  set top := min (min (accept.toHeight - 1) sender.height)
    (s.height + s.node.blockCache.maxCacheSize - 2) with htop
  have hstart : Filling env config chain top
      (handleSnapshotChunk env config overflowChecks true s (.slow chunk)) := by
    have hserved : Served chain
        (handleSnapshotChunk env config overflowChecks true s (.slow chunk)) := by
      refine ⟨hchannel, fun blocks happlying => ?_⟩
      cases happlying
      exact hhonest.sorted
    refine ⟨hs, hserved, ?_, ?_⟩
    · change top + 1 - s.height < s.node.blockCache.maxCacheSize
      omega
    · by_cases hbehind : s.height < top
      · refine Or.inr ⟨s.height, hbehind, fun k hk hle => absurd hk (Nat.not_lt.mpr hle), _, rfl,
          fun k hk hle => List.mem_mergeSort.mpr (hblocks k ?_ ?_ ?_ ?_)⟩
        · omega
        · omega
        · omega
        · omega
      · refine Or.inl fun k (hk : s.height < k) hle => ?_
        omega
  have hrun := hstart.run hchain hdistinct hendorsed hmode worker overflowChecks actions hactions
  obtain ⟨hsynced, hadvances, hnone⟩ :=
    hrun.synced.tick hchain hdistinct hendorsed hmode tickInput hclean
  refine ⟨hsynced, ?_⟩
  rcases hrun.filled with hcovers | ⟨bound, -, -, blocks, happlying, -⟩
  · exact hsynced.carries.bound_le top (hadvances.covers top hrun.room hcovers) hnone
  · exact absurd happlying (hdone blocks)

section EmptyBlocks

/-- The chain of empty blocks. -/
def emptyChain : ℕ → Block
  | 0 => Block.genesis
  | height + 1 => emptyAt (height + 1)

theorem emptyChain_height (height : ℕ) : (emptyChain height).height = height := by
  cases height <;> rfl

theorem emptyChain_leaves (height : ℕ) : leavesUpTo [] emptyChain height = [] := by
  induction height with
  | zero => rfl
  | succ height ih =>
    rw [leavesUpTo, ih, addedLeaves, if_neg List.not_mem_nil]
    rfl

theorem emptyChain_finalized : Finalized 161 [] emptyChain signedEnv := by
  refine ⟨rfl, emptyChain_height, fun height => ?_, fun height => ?_⟩
  · rw [emptyChain_leaves]
    exact List.Pairwise.nil
  · exact (NodeRecovery.trusting_root 159 _).symm

/-- The hash of a block is its height. -/
theorem signedEnv_hash (block : Block) (hsmall : block.height < 2 ^ 64) :
    block.hash signedEnv = BitVec.ofNat 256 block.height := by
  have hmessage : ((block.content.message signedEnv).drop 32).take 32 =
      beBytes 32 block.height := by
    unfold BlockContent.message
    rw [List.append_assoc, List.drop_left' (beBytes_length 32 _),
      List.take_left' (beBytes_length 32 _)]
    rfl
  change BitVec.ofNat 256 (fromBeBytes (((block.content.message signedEnv).drop 32).take 32)) = _
  rw [hmessage, fromBeBytes_beBytes 32 block.height (hsmall.trans (by norm_num))]

theorem signedEnv_distinct (chain : ℕ → Block)
    (hheight : ∀ height, (chain height).height = height) : Distinct signedEnv chain := by
  refine ⟨hheight, fun a b ha hb hsame => ?_⟩
  rw [signedEnv_hash _ (by rwa [hheight]), signedEnv_hash _ (by rwa [hheight]), hheight, hheight]
    at hsame
  have hvalues := congrArg BitVec.toNat hsame
  rw [BitVec.toNat_ofNat, BitVec.toNat_ofNat, Nat.mod_eq_of_lt (by omega),
    Nat.mod_eq_of_lt (by omega)] at hvalues
  exact hvalues

theorem emptyChain_distinct : Distinct signedEnv emptyChain :=
  signedEnv_distinct emptyChain emptyChain_height

theorem emptyChain_endorsed : Endorsed signedEnv nodeConfig emptyChain := by
  refine ⟨fun height _ txn htxn => ?_, fun height _ txn htxn => ?_, fun height _ txn htxn => ?_⟩
  · cases htxn
  · cases htxn
  · cases htxn

theorem emptyChain_clean : Clean signedEnv nodeConfig emptyChain (tickWrites ⟨true, true⟩) := by
  refine ⟨fun height _ => ⟨1#160, ?_, rfl⟩, rfl⟩
  change [1#160][(height + 1) % 1]? = _
  rw [Nat.mod_one]
  rfl

theorem genesisNode_synced : Synced signedEnv nodeConfig emptyChain genesisNode := by
  have hcarries : Carries signedEnv emptyChain (BlockCache.new signedEnv Block.genesis 10000) :=
    carries_new emptyChain_distinct 0 (by norm_num) 10000
  refine ⟨⟨fun _ => 0, ?_⟩, fun k hpos hle => ?_, hcarries⟩
  · exact (@ProverRecovery.safe_fresh 161 signedEnv nodeConfig emptyChain 0).follows
  · exact absurd hle (Nat.not_le.mpr hpos)

/-- A node that has committed the first empty block. -/
def firstCommitted : Node 161 :=
  tick signedEnv nodeConfig (tickWrites ⟨true, true⟩)
    (receiveProposal signedEnv nodeConfig (emptyChain 1) genesisNode)

theorem firstCommitted_synced : Synced signedEnv nodeConfig emptyChain firstCommitted :=
  ((genesisNode_synced.receive emptyChain_distinct (by decide) 1 (by norm_num)).1.tick
    emptyChain_finalized emptyChain_distinct emptyChain_endorsed (by decide) _
    emptyChain_clean).1

/-- A node that asks for the first block gets it, and commits it. -/
theorem slow_sync_round_first :
    let sender := { NetworkHandler.lonely.shared with node := ⟨firstCommitted, fun _ => 0⟩ }
    let chunk : SnapshotChunkSlow := ⟨7, [emptyAt 1, emptyAt 1]⟩
    let s' := SyncWorker.run signedEnv nodeConfig pairWorker true
      (handleSnapshotChunk signedEnv nodeConfig true true (start genesisNode) (.slow chunk))
      [workOn, workOn, workOn]
    NetworkHandler.sendSnapshotChunkSlow true [] ⟨7, 1, 2, .slow⟩ NetworkHandler.quietInput sender =
        ([([], .snapshotChunk (.slow chunk))], .ok ()) ∧
      1 ≤ (tick signedEnv nodeConfig (tickWrites ⟨true, true⟩) s'.node).blockCache.height := by
  intro sender chunk s'
  have hsent : NetworkHandler.sendSnapshotChunkSlow true [] ⟨7, 1, 2, .slow⟩
      NetworkHandler.quietInput sender = ([([], .snapshotChunk (.slow chunk))], .ok ()) := by
    rfl
  have hactions : ∀ action ∈ [workOn, workOn, workOn], Honest signedEnv nodeConfig emptyChain
      action := by
    intro action haction
    rw [List.eq_of_mem_replicate (show action ∈ List.replicate 3 workOn from haction)]
    exact trivial
  obtain ⟨found, hfound, hround⟩ := slow_sync_round signedEnv nodeConfig nodeConfig emptyChain
    emptyChain_finalized emptyChain_distinct emptyChain_endorsed (by decide) pairWorker true sender
    firstCommitted_synced (by decide) [] ⟨7, 1, 2, .slow⟩ NetworkHandler.quietInput rfl
    (by decide) (start genesisNode) genesisNode_synced (fun _ _ hmem => by cases hmem)
    (by decide) (by decide)
  obtain rfl : chunk = found := by
    rw [hsent] at hfound
    simpa using hfound
  have hdone : ∀ blocks, s'.phase ≠ .applying blocks := by
    intro blocks happlying
    have hsorted : sorted [emptyAt 1, emptyAt 1] = [emptyAt 1, emptyAt 1] :=
      List.mergeSort_of_pairwise (by simp)
    have hphase : (SyncWorker.run signedEnv nodeConfig pairWorker true
        { start genesisNode with phase := .applying (sorted [emptyAt 1, emptyAt 1]) }
        [workOn, workOn, workOn]).phase = .applied := by
      rw [hsorted]
      rfl
    cases hphase.symm.trans happlying
  obtain ⟨-, hle⟩ := hround _ hactions hdone _ emptyChain_clean
  exact ⟨hsent, le_trans (by decide) hle⟩

end EmptyBlocks

end PayyRollup.SlowSync
