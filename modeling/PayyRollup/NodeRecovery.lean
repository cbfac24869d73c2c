import PayyRollup.BlockCommit

/-!
Restarting a node after a crash. Only the block store and the database of the notes tree
survive; from the greatest stored block and the root of the loaded tree the node decides
whether the last commit was cut off between its two writes. Runs start from genesis or from
a fast sync, which puts elements into the tree without storing the blocks they come from, and
keeps the blocks that were stored before.
-/
namespace PayyRollup.NodeRecovery

open ScalarField SparseMerkle ElementHash SmirkNode SmirkTree NodeBlocks BlockValidation
  BlockCommit

variable {D : ℕ}

section Load

variable (env : NodeEnv)

structure LoadedData (D : ℕ) where
  blockStore : BlockStore
  persistentTree : Persistent D
  block : Block

/-- What survives a crash. -/
structure Disk where
  blockStore : BlockStore
  smirk : List Element

def Ledger.disk (self : Ledger D) : Disk := ⟨self.blockStore, self.notesTree.db⟩

/-- An unwrapped value; a missing one panics. -/
def unwrap {α : Type} : Option α → Outcome Error α
  | some a => .ok a
  | none => .error .panic

def loadSmirk (D : ℕ) (smirk : List Element) : Outcome Error (Persistent D) :=
  (Persistent.load env.poseidon D smirk).mapError (Failure.map Error.smirk)

/-- Start again from genesis with what was reset. -/
def startFromGenesis (D : ℕ) (blockStore : BlockStore) : Outcome Error (LoadedData D) := do
  let persistentTree ← loadSmirk env D []
  return ⟨blockStore, persistentTree, Block.genesis⟩

/-- The height below, as a machine integer. -/
def previousHeight (height : ℕ) : ℕ := if height = 0 then 2 ^ 64 - 1 else height - 1

/-- Finish a commit that was cut off after it wrote the block store. -/
def recover (badBlocks : List ℕ) (blockStore : BlockStore) (persistentTree : Persistent D)
    (maxHeight : ℕ) (block : Block) : Outcome Error (LoadedData D) :=
  let applied := applyBlockToTree env persistentTree block.content.state
    (decide (maxHeight ∈ badBlocks)) true
  match applied.2 with
  | .error failure => .error failure
  | .ok () =>
      if applied.1.tree.rootHash env.poseidon = block.rootHash then
        .ok ⟨blockStore, applied.1, block⟩
      else .error .panic

def loadDbAndSmirk (D : ℕ) (badBlocks : List ℕ) (disk : Disk) : Outcome Error (LoadedData D) := do
  let persistentTree ← loadSmirk env D disk.smirk
  match disk.blockStore.maxHeight with
  | none => startFromGenesis env D disk.blockStore
  | some maxHeight =>
      let block ← unwrap (disk.blockStore.get maxHeight)
      if persistentTree.tree.rootHash env.poseidon = block.rootHash then
        return ⟨disk.blockStore, persistentTree, block⟩
      else
        let previousBlock ← unwrap (disk.blockStore.get (previousHeight maxHeight))
        if persistentTree.tree.rootHash env.poseidon = previousBlock.rootHash then
          recover env badBlocks disk.blockStore persistentTree maxHeight block
        else startFromGenesis env D BlockStore.empty

end Load

section Runs

variable (env : NodeEnv) (badBlocks : List ℕ)

/-- A node between commits: its ledger and the height it has confirmed. -/
structure Running (D : ℕ) where
  ledger : Ledger D
  height : ℕ

/-- Where a crash cuts off a commit. -/
inductive CrashPoint
  | beforeStore
  | betweenWrites
  | afterTree
  deriving DecidableEq

def commit (s : Running D) (block : Block) : Running D :=
  ⟨(commitProposal env badBlocks ⟨true, true⟩ block s.ledger).1, block.height⟩

/-- What is on disk when a commit is cut off. -/
def diskAfter (s : Running D) (block : Block) : CrashPoint → Disk
  | .beforeStore => Ledger.disk s.ledger
  | .betweenWrites => ⟨s.ledger.blockStore.set block, s.ledger.notesTree.db⟩
  | .afterTree => Ledger.disk (commit env badBlocks s block).ledger

def restart (s : Running D) (block : Block) (point : CrashPoint) :
    Outcome Error (LoadedData D) :=
  loadDbAndSmirk env D badBlocks (diskAfter env badBlocks s block point)

def LoadedData.running (data : LoadedData D) : Running D :=
  ⟨⟨data.blockStore, data.persistentTree⟩, data.block.height⟩

/-- The blocks that count as committed after a crash: those in the store. -/
def survivors (block : Block) : CrashPoint → List Block
  | .beforeStore => []
  | .betweenWrites | .afterTree => [block]

/-- The elements of the tree are these ones and the leaves of these blocks. -/
def Holds (tree : Tree D) (base : List Element) (blocks : List Block) : Prop :=
  ∀ e, tree.containsElement e = true ↔
    e ∈ base ∨ ∃ block ∈ blocks, e ∈ block.content.state.leavesNonNull

/-- A block whose commit succeeds when it is not cut off: the next height, free slots, and
the root it declares. -/
structure Clean (s : Running D) (block : Block) : Prop where
  next : block.height = s.height + 1
  commits : (commitProposal env badBlocks ⟨true, true⟩ block s.ledger).2 = .ok ()
  root : (commit env badBlocks s block).ledger.notesTree.tree.rootHash env.poseidon =
    block.rootHash

/-- The restart keeps the store and returns a tree for its greatest block, with every committed
leaf. -/
def Recovers (base : List Element) (blocks : List Block) (s : Running D) (block : Block)
    (point : CrashPoint) : Prop :=
  ∃ data, restart env badBlocks s block point = .ok data ∧
    data.blockStore = (diskAfter env badBlocks s block point).blockStore ∧
    Holds data.persistentTree.tree base (blocks ++ survivors block point) ∧
    ∀ height, data.blockStore.maxHeight = some height →
      ∃ last, data.blockStore.get height = some last ∧
        data.persistentTree.tree.rootHash env.poseidon = last.rootHash

/-- The tree is that of the greatest stored block; without a stored block it is empty. -/
def Settled (s : Running D) : Prop :=
  (s.ledger.blockStore.maxHeight = none ∧ s.ledger.notesTree.db = []) ∨
    ∃ top last, s.ledger.blockStore.maxHeight = some top ∧
      s.ledger.blockStore.get top = some last ∧
      s.ledger.notesTree.tree.rootHash env.poseidon = last.rootHash

/-- A crash the node recovers from: when no block was committed since the start, the tree is
that of the greatest stored block; and between the two writes the block has no new leaves, or
the block below it is stored, with the root of the tree and not that of the block. -/
def Recoverable (blocks : List Block) (s : Running D) (block : Block) : CrashPoint → Prop
  | .beforeStore => blocks = [] → Settled env s
  | .betweenWrites =>
      newLeaves s.ledger.notesTree.tree block.content.state (decide (block.height ∈ badBlocks)) =
          [] ∨
        ∃ previous, s.ledger.blockStore.get s.height = some previous ∧
          s.ledger.notesTree.tree.rootHash env.poseidon = previous.rootHash ∧
          previous.rootHash ≠ block.rootHash
  | .afterTree => True

/-- The greatest stored height, if any, is that of a stored block, and not above the confirmed
one. -/
def Older (s : Running D) : Prop :=
  ∀ top, s.ledger.blockStore.maxHeight = some top →
    top ≤ s.height ∧ ∃ last, s.ledger.blockStore.get top = some last ∧ last.height = top

/-- The state at genesis, or after a fast sync that put the elements below a height into the
tree; the store then has the blocks from before the sync, if there were any. -/
structure Start (base : List Element) (s : Running D) : Prop where
  older : Older s
  stored : s.ledger.notesTree.Stored env.poseidon
  base_eq : s.ledger.notesTree.db = base

/-- Runs of clean commits and of crashes a node recovers from, with the blocks committed. -/
inductive Run (start : Running D) : List Block → Running D → Prop
  | start : Run start [] start
  | commit {blocks : List Block} {s : Running D} (block : Block) (run : Run start blocks s)
      (clean : Clean env badBlocks s block) :
      Run start (blocks ++ [block]) (commit env badBlocks s block)
  | crash {blocks : List Block} {s : Running D} (block : Block) (point : CrashPoint)
      {data : LoadedData D} (run : Run start blocks s) (clean : Clean env badBlocks s block)
      (recoverable : Recoverable env badBlocks blocks s block point)
      (restarted : restart env badBlocks s block point = .ok data) :
      Run start (blocks ++ survivors block point) data.running

end Runs

section Loading

variable {env : NodeEnv} {badBlocks : List ℕ}

/-- Two trees with the same elements in the same slots. -/
structure SameTree (env : NodeEnv) (p q : Persistent D) : Prop where
  left : p.tree.Valid env.poseidon
  right : q.tree.Valid env.poseidon
  sparse_eq : left.sparse = right.sparse

theorem SameTree.rootHash_eq {p q : Persistent D} (h : SameTree env p q) :
    p.tree.rootHash env.poseidon = q.tree.rootHash env.poseidon := by
  rw [h.left.rootHash_eq, h.right.rootHash_eq, h.sparse_eq]

theorem SameTree.contains_eq {p q : Persistent D} (h : SameTree env p q) :
    p.tree.containsElement = q.tree.containsElement := by
  funext e
  rw [Bool.eq_iff_iff, ← h.left.mem_sparse, ← h.right.mem_sparse, h.sparse_eq]

theorem SameTree.newLeaves_eq {p q : Persistent D} (h : SameTree env p q) (state : BlockState)
    (ignoreCollisions : Bool) :
    newLeaves p.tree state ignoreCollisions = newLeaves q.tree state ignoreCollisions := by
  unfold newLeaves
  rw [h.contains_eq]

/-- Loading the database of a stored tree gives the same tree. -/
theorem loadSmirk_stored {p : Persistent D} (h : p.Stored env.poseidon) :
    ∃ q : Persistent D, loadSmirk env D p.db = .ok q ∧ q.Stored env.poseidon ∧
      SameTree env q p := by
  obtain ⟨q, hload, hdb, hq⟩ := @Persistent.load_db D env.poseidon p.db h.free h.not_null
  refine ⟨q, ?_, hq, hq.valid, h.valid, ?_⟩
  · rw [loadSmirk, hload]
    rfl
  · rw [hq.laid, hdb, h.laid]

/-- Trees with the same elements have one root. -/
theorem rootHash_eq_of_contains {t t' : Tree D} (h : t.Valid env.poseidon)
    (h' : t'.Valid env.poseidon)
    (hsame : ∀ e, t.containsElement e = true ↔ t'.containsElement e = true) :
    t.rootHash env.poseidon = t'.rootHash env.poseidon := by
  have hsparse : h.sparse = h'.sparse := by
    apply SparseTree.ext_mem
    intro e
    rw [h.mem_sparse, h'.mem_sparse]
    exact hsame e
  rw [h.rootHash_eq, h'.rootHash_eq, hsparse]

theorem mem_db {p : Persistent D} (h : p.Stored env.poseidon) (e : Element) :
    p.tree.containsElement e = true ↔ e ∈ p.db := by
  rw [← h.valid.mem_sparse, h.laid, SparseTree.mem_laid p.db h.not_null h.free]
  exact or_iff_left (SparseTree.not_mem_empty e)

/-- A reset starts from genesis with an empty tree. -/
theorem startFromGenesis_ok (blockStore : BlockStore) :
    ∃ r : Persistent D, startFromGenesis env D blockStore = .ok ⟨blockStore, r, Block.genesis⟩ ∧
      r.Stored env.poseidon ∧ r.db = [] := by
  obtain ⟨r, hload, hdb, hr⟩ := @Persistent.load_db D env.poseidon []
    (@Persistent.new_stored D env.poseidon).free (by simp)
  refine ⟨r, ?_, hr, hdb⟩
  simp [startFromGenesis, loadSmirk, hload, Except.mapError, bind, Except.bind, pure, Except.pure]

section Branches

variable {store : BlockStore} {smirk : List Element} {q : Persistent D} {top : ℕ} {last : Block}
  (hload : loadSmirk env D smirk = .ok q)

include hload

theorem load_without_blocks (hmax : store.maxHeight = none) :
    loadDbAndSmirk env D badBlocks ⟨store, smirk⟩ = startFromGenesis env D store := by
  simp [loadDbAndSmirk, hload, hmax, bind, Except.bind]

variable (hmax : store.maxHeight = some top) (hlast : store.get top = some last)

include hmax hlast

theorem load_same_root (hroot : q.tree.rootHash env.poseidon = last.rootHash) :
    loadDbAndSmirk env D badBlocks ⟨store, smirk⟩ = .ok ⟨store, q, last⟩ := by
  simp [loadDbAndSmirk, hload, hmax, hlast, unwrap, hroot, bind, Except.bind, pure, Except.pure]

variable (hroot : q.tree.rootHash env.poseidon ≠ last.rootHash)

include hroot

theorem load_panics (hmissing : store.get (previousHeight top) = none) :
    loadDbAndSmirk env D badBlocks ⟨store, smirk⟩ = .error .panic := by
  simp [loadDbAndSmirk, hload, hmax, hlast, unwrap, hroot, hmissing, bind, Except.bind]

variable {previous : Block} (hprevious : store.get (previousHeight top) = some previous)

include hprevious

theorem load_recovers (hbelow : q.tree.rootHash env.poseidon = previous.rootHash) :
    loadDbAndSmirk env D badBlocks ⟨store, smirk⟩ = recover env badBlocks store q top last := by
  simp only [loadDbAndSmirk, hload, hmax, hlast, unwrap, hprevious, bind, Except.bind]
  rw [if_neg hroot, if_pos hbelow]

theorem load_resets (hbelow : q.tree.rootHash env.poseidon ≠ previous.rootHash) :
    loadDbAndSmirk env D badBlocks ⟨store, smirk⟩ = startFromGenesis env D BlockStore.empty := by
  simp only [loadDbAndSmirk, hload, hmax, hlast, unwrap, hprevious, bind, Except.bind]
  rw [if_neg hroot, if_neg hbelow]

end Branches

theorem recover_valid {store : BlockStore} {q : Persistent D} {top : ℕ} {last : Block}
    {data : LoadedData D} (hq : q.tree.Valid env.poseidon)
    (h : recover env badBlocks store q top last = .ok data) :
    data.persistentTree.tree.Valid env.poseidon := by
  unfold recover at h
  by_cases hfree : hq.sparse.Free (newLeaves q.tree last.content.state
      (decide (top ∈ badBlocks)))
  · obtain ⟨⟨happlied, -⟩, hok, -⟩ := applyBlockToTree_free hq last.content.state
      (decide (top ∈ badBlocks)) true hfree
    simp only [hok.mpr (Or.inl rfl)] at h
    split at h
    · obtain rfl := Except.ok.inj h
      exact happlied
    · cases h
  · obtain ⟨failure, happlied⟩ := applyBlockToTree_not_free hq last.content.state
      (decide (top ∈ badBlocks)) true hfree
    simp only [happlied] at h
    cases h

/-- Whatever the branch, a restart returns a well-formed tree. -/
theorem load_valid {store : BlockStore} {p : Persistent D} {data : LoadedData D}
    (h : p.Stored env.poseidon)
    (hlast : ∀ top, store.maxHeight = some top → ∃ last, store.get top = some last)
    (hdata : loadDbAndSmirk env D badBlocks ⟨store, p.db⟩ = .ok data) :
    data.persistentTree.tree.Valid env.poseidon := by
  obtain ⟨q, hload, hq, -⟩ := loadSmirk_stored h
  have hreset : ∀ blockStore, startFromGenesis env D blockStore = .ok data →
      data.persistentTree.tree.Valid env.poseidon := by
    intro blockStore hstart
    obtain ⟨r, hgenesis, hr, -⟩ := @startFromGenesis_ok D env blockStore
    rw [hgenesis] at hstart
    obtain rfl := Except.ok.inj hstart
    exact hr.valid
  cases hmax : store.maxHeight with
  | none => exact hreset _ ((load_without_blocks hload hmax).symm.trans hdata)
  | some top =>
    obtain ⟨last, hget⟩ := hlast top hmax
    by_cases hroot : q.tree.rootHash env.poseidon = last.rootHash
    · rw [load_same_root hload hmax hget hroot] at hdata
      obtain rfl := Except.ok.inj hdata
      exact hq.valid
    cases hprevious : store.get (previousHeight top) with
    | none =>
      rw [load_panics hload hmax hget hroot hprevious] at hdata
      cases hdata
    | some previous =>
      by_cases hbelow : q.tree.rootHash env.poseidon = previous.rootHash
      · rw [load_recovers hload hmax hget hroot hprevious hbelow] at hdata
        exact recover_valid hq.valid hdata
      · rw [load_resets hload hmax hget hroot hprevious hbelow] at hdata
        exact hreset _ hdata

end Loading

section Invariant

variable (env : NodeEnv)

/-- What holds between commits: the database has the tree, the tree has the committed leaves,
and after a commit the greatest stored block has its root. -/
structure Inv (base : List Element) (blocks : List Block) (s : Running D) : Prop where
  stored : s.ledger.notesTree.Stored env.poseidon
  holds : Holds s.ledger.notesTree.tree base blocks
  older : Older s
  settled : blocks ≠ [] → Settled env s

/-- What a restart that loses nothing gives back. -/
structure Restored (base : List Element) (blocks : List Block) (disk : Disk)
    (data : LoadedData D) : Prop where
  store_eq : data.blockStore = disk.blockStore
  inv : Inv env base blocks data.running
  settled : Settled env data.running

end Invariant

section Steps

variable {env : NodeEnv} {badBlocks : List ℕ} {base : List Element} {blocks : List Block}
  {s : Running D} {block : Block}

theorem Clean.leavesFree (clean : Clean env badBlocks s block)
    (h : s.ledger.notesTree.tree.Valid env.poseidon) :
    LeavesFree badBlocks block s.ledger h ∧
      Committed env badBlocks ⟨true, true⟩ block s.ledger
        (commit env badBlocks s block).ledger h := by
  rcases @commitProposal_cases D env badBlocks ⟨true, true⟩ block s.ledger h with
    ⟨-, hfails⟩ | ⟨-, hfails, -⟩ | ⟨hcommitted, -, hfree⟩
  · exact absurd clean.commits hfails
  · exact absurd clean.commits hfails
  · exact ⟨hfree, hcommitted⟩

/-- The tree after the leaves of one more block. -/
theorem Holds.concat {tree tree' : Tree D} (hholds : Holds tree base blocks)
    (ignoreCollisions : Bool)
    (h : ∀ e, tree'.containsElement e = true ↔
      e ∈ newLeaves tree block.content.state ignoreCollisions ∨ tree.containsElement e = true) :
    Holds tree' base (blocks ++ [block]) := by
  intro e
  rw [h e, ← mem_leavesNonNull_iff, hholds e]
  simp only [List.mem_append, List.mem_singleton, or_and_right, exists_or, exists_eq_left]
  rw [or_comm, or_assoc]

/-- The block above the confirmed height becomes the greatest in the store. -/
theorem Older.set_maxHeight (holder : Older s) (hnext : block.height = s.height + 1) :
    (s.ledger.blockStore.set block).maxHeight = some block.height := by
  apply BlockStore.set_maxHeight
  intro height hmax
  have hle := (holder height hmax).1
  omega

/-- A state whose greatest stored block has its height and its root. -/
theorem settled_of_last {s : Running D} (last : Block) (hheight : last.height = s.height)
    (hmax : s.ledger.blockStore.maxHeight = some s.height)
    (hlast : s.ledger.blockStore.get s.height = some last)
    (hroot : s.ledger.notesTree.tree.rootHash env.poseidon = last.rootHash) :
    Older s ∧ Settled env s := by
  refine ⟨?_, Or.inr ⟨s.height, last, hmax, hlast, hroot⟩⟩
  intro top htop
  obtain rfl := Option.some.inj (hmax.symm.trans htop)
  exact ⟨le_rfl, last, hlast, hheight⟩

/-- A clean commit keeps the invariant, and its block is then the greatest stored one. -/
theorem commit_inv (hinv : Inv env base blocks s) (clean : Clean env badBlocks s block) :
    Inv env base (blocks ++ [block]) (commit env badBlocks s block) ∧
      Settled env (commit env badBlocks s block) := by
  obtain ⟨hfree, hcommitted⟩ := clean.leavesFree hinv.stored.valid
  obtain ⟨h', hlaid⟩ := hcommitted.inserted
  have hstore := hcommitted.stored
  obtain ⟨holder, hsettled⟩ : Older (commit env badBlocks s block) ∧
      Settled env (commit env badBlocks s block) := by
    refine settled_of_last block rfl ?_ ?_ clean.root
    · rw [hstore]
      exact hinv.older.set_maxHeight clean.next
    · rw [hstore]
      exact BlockStore.set_get_self _ _
  refine ⟨⟨hcommitted.stored_db rfl hinv.stored hfree, ?_, holder, fun _ => hsettled⟩, hsettled⟩
  exact hinv.holds.concat _
    (contains_laid hinv.stored.valid h' _ (newLeaves_ne_null _ _ _) hfree hlaid)

/-- A settled state is loaded again as it is. -/
theorem load_settled (hinv : Inv env base blocks s) (hsettled : Settled env s) :
    ∃ data, loadDbAndSmirk env D badBlocks (Ledger.disk s.ledger) = .ok data ∧
      Restored env base blocks (Ledger.disk s.ledger) data := by
  obtain ⟨q, hload, hq, hsame⟩ := loadSmirk_stored hinv.stored
  rcases hsettled with ⟨hnone, hempty⟩ | ⟨top, last, hmax, hlast, hroot⟩
  · obtain ⟨r, hgenesis, hr, hdb⟩ := @startFromGenesis_ok D env s.ledger.blockStore
    refine ⟨_, (load_without_blocks hload hnone).trans hgenesis, rfl, ⟨hr, ?_, ?_, ?_⟩, ?_⟩
    · intro e
      refine Iff.trans ?_ (hinv.holds e)
      change r.tree.containsElement e = true ↔ _
      rw [mem_db hr, mem_db hinv.stored, hdb, hempty]
    · intro top hmax
      exact absurd (hnone.symm.trans hmax) (by simp)
    · exact fun _ => Or.inl ⟨hnone, hdb⟩
    · exact Or.inl ⟨hnone, hdb⟩
  · obtain ⟨-, stored, hstored, hheight⟩ := hinv.older top hmax
    obtain rfl := Option.some.inj (hlast.symm.trans hstored)
    have hqroot : q.tree.rootHash env.poseidon = last.rootHash := hsame.rootHash_eq.trans hroot
    obtain ⟨holder, hsettled⟩ : Older (LoadedData.running ⟨s.ledger.blockStore, q, last⟩) ∧
        Settled env (LoadedData.running ⟨s.ledger.blockStore, q, last⟩) := by
      refine settled_of_last last rfl ?_ ?_ hqroot
      · exact hmax.trans (congrArg some hheight.symm)
      · exact (congrArg s.ledger.blockStore.get hheight).trans hlast
    refine ⟨_, load_same_root hload hmax hlast hqroot, rfl, ⟨hq, ?_, holder, fun _ => hsettled⟩,
      hsettled⟩
    intro e
    refine Iff.trans ?_ (hinv.holds e)
    change q.tree.containsElement e = true ↔ _
    rw [hsame.contains_eq]

theorem previousHeight_next (clean : Clean env badBlocks s block) :
    previousHeight block.height = s.height := by
  have hnext := clean.next
  unfold previousHeight
  rw [if_neg (by omega)]
  omega

/-- The block below one that was just stored. -/
theorem get_below (clean : Clean env badBlocks s block) :
    (s.ledger.blockStore.set block).get (previousHeight block.height) =
      s.ledger.blockStore.get s.height := by
  have hnext := clean.next
  rw [previousHeight_next clean, BlockStore.set_get_of_ne _ _ _ (by omega)]

/-- A restart that returns the block just stored with its tree restores it. -/
theorem restored_of_applied {p : Persistent D} (holder : Older s)
    (clean : Clean env badBlocks s block) (hp : p.Stored env.poseidon)
    (hholds : Holds p.tree base (blocks ++ [block]))
    (hroot : p.tree.rootHash env.poseidon = block.rootHash) :
    Restored env base (blocks ++ [block]) (diskAfter env badBlocks s block .betweenWrites)
      ⟨s.ledger.blockStore.set block, p, block⟩ := by
  obtain ⟨holder', hsettled⟩ := @settled_of_last D env
    (LoadedData.running ⟨s.ledger.blockStore.set block, p, block⟩) block rfl
    (holder.set_maxHeight clean.next) (BlockStore.set_get_self _ _) hroot
  exact ⟨rfl, ⟨hp, hholds, holder', fun _ => hsettled⟩, hsettled⟩

/-- Between the writes a block without new leaves already has its tree. -/
theorem restart_without_leaves (hinv : Inv env base blocks s)
    (clean : Clean env badBlocks s block)
    (hnone : newLeaves s.ledger.notesTree.tree block.content.state
      (decide (block.height ∈ badBlocks)) = []) :
    ∃ data, restart env badBlocks s block .betweenWrites = .ok data ∧
      Restored env base (blocks ++ [block]) (diskAfter env badBlocks s block .betweenWrites)
        data := by
  obtain ⟨q, hload, hq, hsame⟩ := loadSmirk_stored hinv.stored
  obtain ⟨-, hcommitted⟩ := clean.leavesFree hinv.stored.valid
  obtain ⟨h', hlaid⟩ := hcommitted.inserted
  have hroot : q.tree.rootHash env.poseidon = block.rootHash := by
    rw [← clean.root, hsame.rootHash_eq, h'.rootHash_eq, hlaid, hnone, SparseTree.laid_nil,
      hinv.stored.valid.rootHash_eq]
  refine ⟨_, load_same_root hload (hinv.older.set_maxHeight clean.next)
    (BlockStore.set_get_self _ _) hroot, restored_of_applied hinv.older clean hq ?_ hroot⟩
  apply hinv.holds.concat (decide (block.height ∈ badBlocks))
  intro e
  rw [hnone, hsame.contains_eq]
  simp

/-- Between the writes the node applies the block when the one below it has the root of the
tree, and the block has another. -/
theorem restart_applies (hinv : Inv env base blocks s) (clean : Clean env badBlocks s block)
    (previous : Block) (hprevious : s.ledger.blockStore.get s.height = some previous)
    (hbelow : s.ledger.notesTree.tree.rootHash env.poseidon = previous.rootHash)
    (hother : previous.rootHash ≠ block.rootHash) :
    ∃ data, restart env badBlocks s block .betweenWrites = .ok data ∧
      Restored env base (blocks ++ [block]) (diskAfter env badBlocks s block .betweenWrites)
        data := by
  obtain ⟨q, hload, hq, hsame⟩ := loadSmirk_stored hinv.stored
  obtain ⟨hfree, hcommitted⟩ := clean.leavesFree hinv.stored.valid
  obtain ⟨h', hlaid⟩ := hcommitted.inserted
  have hqroot : q.tree.rootHash env.poseidon = previous.rootHash := hsame.rootHash_eq.trans hbelow
  have hnew := hsame.newLeaves_eq block.content.state (decide (block.height ∈ badBlocks))
  have hfree' : hq.valid.sparse.Free
      (newLeaves q.tree block.content.state (decide (block.height ∈ badBlocks))) := by
    rw [hnew, hsame.sparse_eq]
    exact hfree
  obtain ⟨⟨happlied, hlaid'⟩, hok, -, hdb⟩ := applyBlockToTree_free hq.valid block.content.state
    (decide (block.height ∈ badBlocks)) true hfree'
  have hroot : (applyBlockToTree env q block.content.state (decide (block.height ∈ badBlocks))
      true).1.tree.rootHash env.poseidon = block.rootHash := by
    rw [happlied.rootHash_eq, hlaid', hsame.sparse_eq, hnew, ← clean.root, h'.rootHash_eq, hlaid]
  have hdiffers : q.tree.rootHash env.poseidon ≠ block.rootHash := by
    rw [hqroot]
    exact hother
  have hrecover : recover env badBlocks (s.ledger.blockStore.set block) q block.height block =
      .ok ⟨s.ledger.blockStore.set block, (applyBlockToTree env q block.content.state
        (decide (block.height ∈ badBlocks)) true).1, block⟩ := by
    simp only [recover, hok.mpr (Or.inl rfl), hroot, if_true]
  rw [if_pos rfl] at hdb
  refine ⟨_, (load_recovers hload (hinv.older.set_maxHeight clean.next)
    (BlockStore.set_get_self _ _) hdiffers ((get_below clean).trans hprevious) hqroot).trans
    hrecover, restored_of_applied hinv.older clean ?_ ?_ hroot⟩
  · exact hq.append _ (newLeaves_ne_null _ _ _) hfree' happlied hlaid' hdb
  · apply hinv.holds.concat (decide (block.height ∈ badBlocks))
    intro e
    have hcontains := contains_laid hq.valid happlied _ (newLeaves_ne_null _ _ _) hfree' hlaid' e
    rw [hnew, hsame.contains_eq] at hcontains
    exact hcontains

/-- A node recovers from such a crash, and then holds every committed leaf. -/
theorem restart_restored (hinv : Inv env base blocks s) (clean : Clean env badBlocks s block)
    (point : CrashPoint) (hrecoverable : Recoverable env badBlocks blocks s block point) :
    ∃ data, restart env badBlocks s block point = .ok data ∧
      Restored env base (blocks ++ survivors block point)
        (diskAfter env badBlocks s block point) data := by
  cases point with
  | beforeStore =>
    rw [survivors, List.append_nil]
    by_cases hblocks : blocks = []
    · exact load_settled hinv (hrecoverable hblocks)
    · exact load_settled hinv (hinv.settled hblocks)
  | betweenWrites =>
    rcases hrecoverable with hnone | ⟨previous, hprevious, hbelow, hother⟩
    · exact restart_without_leaves hinv clean hnone
    · exact restart_applies hinv clean previous hprevious hbelow hother
  | afterTree =>
    obtain ⟨hnext, hsettled⟩ := commit_inv hinv clean
    exact load_settled hnext hsettled

theorem start_inv (start : Running D) (hstart : Start env base start) :
    Inv env base [] start := by
  refine ⟨hstart.stored, ?_, hstart.older, fun hne => absurd rfl hne⟩
  intro e
  rw [mem_db hstart.stored, hstart.base_eq]
  simp

theorem run_inv (start : Running D) (hstart : Start env base start)
    (run : Run env badBlocks start blocks s) : Inv env base blocks s := by
  induction run with
  | start => exact start_inv start hstart
  | commit block run clean ih => exact (commit_inv ih clean).1
  | crash block point run clean recoverable restarted ih =>
    obtain ⟨data, hdata, hrestored⟩ := restart_restored ih clean point recoverable
    rw [restarted] at hdata
    obtain rfl := Except.ok.inj hdata
    exact hrestored.inv

/-- A restart that restores everything recovers. -/
theorem recovers_of_restored {data : LoadedData D} {point : CrashPoint}
    (hdata : restart env badBlocks s block point = .ok data)
    (h : Restored env base (blocks ++ survivors block point)
      (diskAfter env badBlocks s block point) data) :
    Recovers env badBlocks base blocks s block point := by
  refine ⟨data, hdata, h.store_eq, h.inv.holds, ?_⟩
  intro height hheight
  rcases h.settled with ⟨hnone, -⟩ | ⟨top, last, hmax, hlast, hroot⟩
  · cases hnone.symm.trans hheight
  · obtain rfl := Option.some.inj (hmax.symm.trans hheight)
    exact ⟨last, hlast, hroot⟩

/-- Before the first commit, only a settled state is given back: a store of older blocks makes
the restart panic or start from genesis, and an empty one makes it drop the synced elements. -/
theorem settled_of_recovers (hinv : Inv env base blocks s)
    (h : Recovers env badBlocks base blocks s block .beforeStore) : Settled env s := by
  obtain ⟨data, hdata, hstore, hholds, hroot⟩ := h
  rw [survivors, List.append_nil] at hholds
  have hsame : ∀ e, data.persistentTree.tree.containsElement e = true ↔
      s.ledger.notesTree.tree.containsElement e = true := fun e =>
    (hholds e).trans (hinv.holds e).symm
  cases hmax : s.ledger.blockStore.maxHeight with
  | none =>
    obtain ⟨q, hload, -⟩ := loadSmirk_stored hinv.stored
    obtain ⟨r, hgenesis, hr, hdb⟩ := @startFromGenesis_ok D env s.ledger.blockStore
    have hloaded : restart env badBlocks s block .beforeStore =
        .ok ⟨s.ledger.blockStore, r, Block.genesis⟩ :=
      (load_without_blocks hload hmax).trans hgenesis
    obtain rfl := Except.ok.inj (hloaded.symm.trans hdata)
    refine Or.inl ⟨hmax, List.eq_nil_iff_forall_not_mem.mpr fun e he => ?_⟩
    have hin := (hsame e).mpr ((mem_db hinv.stored e).mpr he)
    rw [mem_db hr, hdb] at hin
    cases hin
  | some top =>
    obtain ⟨last, hlast, hlastRoot⟩ := hroot top (by rw [hstore]; exact hmax)
    rw [hstore] at hlast
    have hvalid : data.persistentTree.tree.Valid env.poseidon := by
      refine load_valid hinv.stored (fun top' hmax' => ?_) hdata
      obtain ⟨-, last', hlast', -⟩ := hinv.older top' hmax'
      exact ⟨last', hlast'⟩
    refine Or.inr ⟨top, last, hmax, hlast, ?_⟩
    rw [← rootHash_eq_of_contains hvalid hinv.stored.valid hsame, hlastRoot]

/-- A tree without a new leaf of the block does not hold the block. -/
theorem not_holds_of_missing {tree : Tree D} (hinv : Inv env base blocks s)
    (hfree : LeavesFree badBlocks block s.ledger hinv.stored.valid)
    (hleaves : newLeaves s.ledger.notesTree.tree block.content.state
      (decide (block.height ∈ badBlocks)) ≠ [])
    (hsub : ∀ e, tree.containsElement e = true →
      s.ledger.notesTree.tree.containsElement e = true) :
    ¬Holds tree base (blocks ++ [block]) := by
  intro hholds
  obtain ⟨e, he⟩ := List.exists_mem_of_ne_nil _ hleaves
  have hblock : e ∈ block.content.state.leavesNonNull := by
    unfold newLeaves at he
    split at he
    · exact List.mem_of_mem_filter he
    · exact he
  have hin := hsub e ((hholds e).mpr (Or.inr ⟨block, by simp, hblock⟩))
  rw [← hinv.stored.valid.mem_sparse, SparseTree.mem_iff] at hin
  exact hin.1 (hin.2.symm.trans (hfree.vacant e he))

/-- Between the writes, a block with new leaves is lost unless the block below it is stored
with the root of the tree: the restart panics where it is not stored and starts from genesis
where it has another root. -/
theorem cut_commit_lost (hinv : Inv env base blocks s) (clean : Clean env badBlocks s block)
    (hrecoverable : ¬Recoverable env badBlocks blocks s block .betweenWrites) :
    ¬Recovers env badBlocks base blocks s block .betweenWrites := by
  rintro ⟨data, hdata, -, hholds, -⟩
  obtain ⟨hleaves, hbelow⟩ := not_or.mp hrecoverable
  obtain ⟨q, hload, hq, hsame⟩ := loadSmirk_stored hinv.stored
  obtain ⟨hfree, -⟩ := clean.leavesFree hinv.stored.valid
  have hmax := hinv.older.set_maxHeight clean.next
  have hget := BlockStore.set_get_self s.ledger.blockStore block
  by_cases hroot : q.tree.rootHash env.poseidon = block.rootHash
  · have hkept : restart env badBlocks s block .betweenWrites =
        .ok ⟨s.ledger.blockStore.set block, q, block⟩ := load_same_root hload hmax hget hroot
    obtain rfl := Except.ok.inj (hkept.symm.trans hdata)
    refine not_holds_of_missing hinv hfree hleaves (fun e he => ?_) hholds
    rw [← hsame.contains_eq]
    exact he
  · cases hprevious : s.ledger.blockStore.get s.height with
    | none =>
      have hpanic : restart env badBlocks s block .betweenWrites = .error .panic :=
        load_panics hload hmax hget hroot ((get_below clean).trans hprevious)
      cases hpanic.symm.trans hdata
    | some previous =>
      have hother : q.tree.rootHash env.poseidon ≠ previous.rootHash := by
        intro hq
        rw [hsame.rootHash_eq] at hq hroot
        exact hbelow ⟨previous, hprevious, hq, fun heq => hroot (hq.trans heq)⟩
      obtain ⟨r, hgenesis, hr, hdb⟩ := @startFromGenesis_ok D env BlockStore.empty
      have hreset : restart env badBlocks s block .betweenWrites =
          .ok ⟨BlockStore.empty, r, Block.genesis⟩ :=
        (load_resets hload hmax hget hroot ((get_below clean).trans hprevious) hother).trans
          hgenesis
      obtain rfl := Except.ok.inj (hreset.symm.trans hdata)
      refine not_holds_of_missing hinv hfree hleaves (fun e he => ?_) hholds
      rw [mem_db hr, hdb] at he
      cases he

end Steps

/-- After every run of commits and recoverable crashes, a node recovers from the next crash
exactly when it is a recoverable one. -/
theorem recovers_iff (env : NodeEnv) (badBlocks : List ℕ) (base : List Element)
    (start : Running D) (hstart : Start env base start) (blocks : List Block) (s : Running D)
    (run : Run env badBlocks start blocks s) (block : Block) (clean : Clean env badBlocks s block)
    (point : CrashPoint) :
    Recovers env badBlocks base blocks s block point ↔
      Recoverable env badBlocks blocks s block point := by
  have hinv := run_inv start hstart run
  constructor
  · intro hrecovers
    cases point with
    | beforeStore => exact fun _ => settled_of_recovers hinv hrecovers
    | betweenWrites =>
      by_contra hrecoverable
      exact cut_commit_lost hinv clean hrecoverable hrecovers
    | afterTree => trivial
  · intro hrecoverable
    obtain ⟨data, hdata, hrestored⟩ := restart_restored hinv clean point hrecoverable
    exact recovers_of_restored hdata hrestored

/-- A node that starts from genesis. -/
def genesisNode : Running 161 := ⟨freshLedger 161, 0⟩

theorem genesisNode_start : Start summingEnv [] genesisNode :=
  { older := by
      intro top hmax
      cases hmax
    stored := Persistent.new_stored
    base_eq := rfl }

theorem trusting_root (height : ℕ) (σ : List Bool → Element) :
    root (elementNode trustingEnv.poseidon) (height + 1) σ = 0#256 := by
  rw [root, elementNode, hashMerge]
  simp [trustingEnv, Element.fromBase]

/-- The root of a stored tree is then the sum of its database. -/
theorem stored_summing {p : Persistent D} (h : p.Stored List.sum) (hD : 2 ≤ D) :
    p.tree.rootHash List.sum = Element.fromBase ((p.db.map Element.toBase).sum) := by
  rw [h.valid.rootHash_eq, h.laid]
  exact root_summing hD _ h.not_null h.free

/-- A block with one new leaf is clean with the sum of the elements for its root. -/
theorem leafBlock_clean (s : Running 161) (hstored : s.ledger.notesTree.Stored List.sum)
    (rootHash leaf : Element) (hleaf : leaf ≠ 0#256)
    (hdistinct : (s.ledger.notesTree.db ++ [leaf]).Pairwise fun a b => bits 161 a ≠ bits 161 b)
    (hroot : Element.fromBase (((s.ledger.notesTree.db ++ [leaf]).map Element.toBase).sum) =
      rootHash) :
    Clean summingEnv [] s (leafBlock (s.height + 1) 0#256 rootHash leaf) ∧
      (commit summingEnv [] s (leafBlock (s.height + 1) 0#256 rootHash leaf)).ledger.notesTree.db =
        s.ledger.notesTree.db ++ [leaf] := by
  let block := leafBlock (s.height + 1) 0#256 rootHash leaf
  have hvalid : s.ledger.notesTree.tree.Valid summingEnv.poseidon := hstored.valid
  have hnew : newLeaves s.ledger.notesTree.tree block.content.state
      (decide (block.height ∈ ([] : List ℕ))) = [leaf] :=
    (newLeaves_of_not_bad _ _ _ _ List.not_mem_nil).trans (leafBlock_leaves _ _ _ _ hleaf)
  have hnull : ∀ e ∈ [leaf], e ≠ 0 := by
    intro e he
    obtain rfl := List.mem_singleton.mp he
    exact hleaf
  have hboth : (SparseTree.empty (bits 161)).Free (s.ledger.notesTree.db ++ [leaf]) :=
    ⟨hdistinct, fun _ _ => rfl⟩
  have hfree : LeavesFree [] block s.ledger hvalid := by
    unfold LeavesFree
    rw [hnew]
    have hsparse : hvalid.sparse = (SparseTree.empty (bits 161)).laid s.ledger.notesTree.db :=
      hstored.laid
    rw [hsparse]
    exact (SparseTree.free_of_append _ _ hstored.not_null hnull hboth)
  obtain ⟨hcommitted, -, hok⟩ := @commitProposal_free 161 summingEnv [] ⟨true, true⟩ block
    s.ledger hvalid rfl hfree
  have hdb : (commit summingEnv [] s block).ledger.notesTree.db =
      s.ledger.notesTree.db ++ [leaf] := by
    have hwritten := hcommitted.written
    rw [hnew] at hwritten
    exact hwritten
  refine ⟨⟨rfl, hok (Or.inl rfl), ?_⟩, hdb⟩
  have hafter : (commit summingEnv [] s block).ledger.notesTree.Stored List.sum :=
    hcommitted.stored_db rfl hstored hfree
  have hsum := stored_summing hafter (by norm_num)
  rw [hdb, hroot] at hsum
  exact hsum

/-- The first block of the node that starts from genesis. -/
def firstBlock : Block := leafBlock 1 0#256 5#256 5#256

theorem firstBlock_clean : Clean summingEnv [] genesisNode firstBlock ∧
    (commit summingEnv [] genesisNode firstBlock).ledger.notesTree.db = [5#256] :=
  leafBlock_clean genesisNode Persistent.new_stored 5#256 5#256 (by decide)
    (List.pairwise_singleton _ _) (by decide +kernel)

/-- The second one; the first is stored then. -/
def secondBlock : Block := leafBlock 2 0#256 11#256 6#256

theorem secondBlock_clean :
    Clean summingEnv [] (commit summingEnv [] genesisNode firstBlock) secondBlock := by
  obtain ⟨hclean, hdb⟩ := firstBlock_clean
  have hstored := (commit_inv (start_inv genesisNode genesisNode_start) hclean).1.stored
  refine (leafBlock_clean (commit summingEnv [] genesisNode firstBlock) hstored 11#256 6#256
    (by decide) ?_ ?_).1
  · rw [hdb]
    decide +kernel
  · rw [hdb]
    decide +kernel

/-- A crash between the two writes of the first block: the restart looks for the block below
it and panics. -/
theorem not_recovers_first_leaf :
    Start summingEnv [] genesisNode ∧ Clean summingEnv [] genesisNode firstBlock ∧
      restart summingEnv [] genesisNode firstBlock .betweenWrites = .error .panic ∧
      ¬Recovers summingEnv [] [] [] genesisNode firstBlock .betweenWrites := by
  have hempty : genesisNode.ledger.notesTree.Stored summingEnv.poseidon := Persistent.new_stored
  obtain ⟨q, hload, -, hsame⟩ := loadSmirk_stored hempty
  have hroot : q.tree.rootHash summingEnv.poseidon = 0#256 := by
    rw [hsame.rootHash_eq]
    exact (stored_summing hempty (by norm_num)).trans (by decide)
  have hpanic : restart summingEnv [] genesisNode firstBlock .betweenWrites = .error .panic :=
    load_panics hload rfl (BlockStore.set_get_self _ _) (by rw [hroot]; decide) rfl
  refine ⟨genesisNode_start, firstBlock_clean.1, hpanic, ?_⟩
  rintro ⟨data, hdata, -⟩
  cases hpanic.symm.trans hdata

/-- A crash between the two writes of the second block: the block below it is stored, and the
restart inserts the leaf that was missing. -/
theorem recovers_second_leaf :
    Recovers summingEnv [] [] [firstBlock] (commit summingEnv [] genesisNode firstBlock)
      secondBlock .betweenWrites := by
  obtain ⟨hclean, hdb⟩ := firstBlock_clean
  have hstored := (commit_inv (start_inv genesisNode genesisNode_start) hclean).1.stored
  refine (recovers_iff summingEnv [] [] genesisNode genesisNode_start [firstBlock] _
    (Run.commit firstBlock Run.start hclean) secondBlock secondBlock_clean
    .betweenWrites).mpr (Or.inr ⟨firstBlock, rfl, ?_, by decide⟩)
  have hsum := stored_summing hstored (by norm_num)
  rw [hdb] at hsum
  exact hsum.trans (by decide +kernel)

end PayyRollup.NodeRecovery
