import PayyRollup.BlockCaches
import PayyRollup.NodeAdmission

/-!
The node as a state machine: a cache of blocks, a block store and a notes tree. A proposal
that arrives goes into the cache. On a tick, a node that is not the validator commits the
next cached blocks as long as there are any, and a validator proposes a block of its own.
The mempool is left out: the transactions of a proposal are an input, as are the validator
sets, the answers of the contract and which writes succeed.
-/
namespace PayyRollup.NodeRuns

open ScalarField VerifierContracts RollupState SparseMerkle ElementHash SmirkNode SmirkTree
  NodeBlocks BlockCaches BlockValidation BlockCommit NodeAdmission

structure Config where
  mode : Mode
  badBlocks : List ℕ
  safeEthHeightOffset : ℕ
  address : Address
  sign : CryptoHash → NodeBlocks.Signature

structure Node (D : ℕ) where
  blockCache : BlockCache
  ledger : Ledger D

/-- What the world outside decides in a tick; no validators stand for a panic. -/
structure TickInput where
  validatorsForHeight : ℕ → List Address
  io : ℕ → CommitIo
  txns : List UtxoProof
  contract : ContractView

inductive Event
  | receiveProposal (block : Block)
  | tick (input : TickInput)

variable {D : ℕ}

section Node

variable (env : NodeEnv) (config : Config)

def leaderForBlockHeight (validators : List Address) (height : ℕ) : Option Address :=
  validators[height % validators.length]?

def validateBlock (validatorsForHeight : ℕ → List Address) (block : Block) (l : Ledger D) :
    Outcome Error Unit :=
  if block.height ∈ config.badBlocks then .ok ()
  else
    match leaderForBlockHeight (validatorsForHeight block.height) block.height with
    | none => .error .panic
    | some validator =>
        match block.signature.verify env (block.hash env) with
        | .error .panic => .error .panic
        | .error (.err _) => .error (.err .invalidSignature)
        | .ok signedBy =>
            if signedBy ≠ validator then .error (.err .invalidSignature)
            else validate env block.content config.mode l.blockStore l.notesTree.tree

/-- A validator must not receive proposals. -/
def receiveProposal (block : Block) (self : Node D) : Node D :=
  if config.mode = Mode.validator then self
  else { self with blockCache := self.blockCache.insert env block }

/-- How one turn of the loop of a tick ends. -/
inductive TurnEnd
  | idle
  | again
  | failed
  deriving DecidableEq

/-- One turn: the next cached block is dropped, or confirmed and committed. -/
def commitNext (validatorsForHeight : ℕ → List Address) (io : CommitIo) (self : Node D) :
    Node D × TurnEnd :=
  match self.blockCache.getNextCommitBlock with
  | none => (self, .idle)
  | some block =>
      match validateBlock env config validatorsForHeight block self.ledger with
      | .error .panic => (self, .failed)
      | .error (.err _) =>
          ({ self with blockCache := self.blockCache.remove (block.hash env) }, .again)
      | .ok () =>
          let committed := commitProposal env config.badBlocks io block self.ledger
          (⟨self.blockCache.confirm block.height, committed.1⟩,
            if committed.2 = .ok () then .again else .failed)

def commitLoop (validatorsForHeight : ℕ → List Address) :
    ℕ → (ℕ → CommitIo) → Node D → Node D
  | 0, _, self => self
  | turns + 1, io, self =>
      let turn := commitNext env config validatorsForHeight (io 0) self
      if turn.2 = .again then
        commitLoop validatorsForHeight turns (fun i => io (i + 1)) turn.1
      else turn.1

/-- The cached heights above the confirmed one bound the turns of the loop. -/
def pending (self : Node D) : Finset ℕ :=
  self.blockCache.blockHashHeights.keys.toFinset.filter fun h => self.blockCache.height < h

def isValidatorForHeight (validatorsForHeight : ℕ → List Address) (height : ℕ) : Bool :=
  decide (config.mode = Mode.validator ∧ config.address ∈ validatorsForHeight height)

def admitLeased (contract : ContractView) (height : ℕ) (l : Ledger D) :
    List UtxoProof → Outcome Error Unit
  | [] => .ok ()
  | txn :: rest =>
      match validateTransaction env config.mode config.safeEthHeightOffset contract txn height
        l.blockStore l.notesTree.tree with
      | .error .panic => .error .panic
      | .error (.err _) => .error (.err (.invalidTransaction (txn.hash env)))
      | .ok () => admitLeased contract height l rest

/-- The block of a proposal; computing its root may panic. -/
def proposedBlock (lastBlockHash : CryptoHash) (height : ℕ)
    (approvals : List NodeBlocks.Signature) (txns : List UtxoProof) (tree : Tree D) :
    Option Block :=
  (newRootHash env tree (nonNull (txns.flatMap UtxoProof.leaves))).map fun root =>
    let content : BlockContent :=
      ⟨⟨height, lastBlockHash, 0, lastBlockHash, approvals⟩, ⟨root, txns⟩⟩
    ⟨content, config.sign (content.hash env)⟩

/-- The block is committed before it is put into the cache and confirmed. -/
def createProposal (input : TickInput) (lastBlockHash : CryptoHash) (height : ℕ)
    (approvals : List NodeBlocks.Signature) (self : Node D) : Node D × Outcome Error Unit :=
  match admitLeased env config input.contract self.blockCache.height self.ledger input.txns with
  | .error failure => (self, .error failure)
  | .ok () =>
      match proposedBlock env config lastBlockHash height approvals input.txns
        self.ledger.notesTree.tree with
      | none => (self, .error .panic)
      | some block =>
          match validateBlock env config input.validatorsForHeight block self.ledger with
          | .error failure => (self, .error failure)
          | .ok () =>
              let committed := commitProposal env config.badBlocks (input.io 0) block self.ledger
              match committed.2 with
              | .error failure => (⟨self.blockCache, committed.1⟩, .error failure)
              | .ok () =>
                  (⟨(self.blockCache.insert env block).confirm height, committed.1⟩, .ok ())

/-- The approvals a validator puts into its own proposal: its own endorsement. -/
def ownApprovals (lastConfirmed : CryptoHash) (targetHeight : ℕ) : List NodeBlocks.Signature :=
  ((ApprovalContent.mk (.endorsement lastConfirmed) targetHeight).hash env).toList.map config.sign

def tick (input : TickInput) (self : Node D) : Node D :=
  let targetHeight := self.blockCache.height + 1
  if isValidatorForHeight config input.validatorsForHeight targetHeight = false then
    commitLoop env config input.validatorsForHeight ((pending self).card + 1) input.io self
  else
    match self.blockCache.hash with
    | none => self
    | some lastConfirmed =>
        (createProposal env config input lastConfirmed targetHeight
          (ownApprovals env config lastConfirmed targetHeight) self).1

def step (self : Node D) : Event → Node D
  | .receiveProposal block => receiveProposal env config block self
  | .tick input => tick env config input self

def run (self : Node D) (events : List Event) : Node D := events.foldl (step env config) self

end Node

section Loop

variable {env : NodeEnv} {config : Config} {known : Block → Prop}

/-- What one turn does: nothing, dropping the next block, or confirming and committing it. -/
theorem commitNext_cases (validatorsForHeight : ℕ → List Address) (io : CommitIo) (s : Node D) :
    let turn := commitNext env config validatorsForHeight io s
    (turn.1 = s ∧ turn.2 ≠ .again) ∨
      ∃ block, s.blockCache.getNextCommitBlock = some block ∧
        (((∃ e, validateBlock env config validatorsForHeight block s.ledger =
              .error (.err e)) ∧
            turn = ({ s with blockCache := s.blockCache.remove (block.hash env) }, .again)) ∨
          (validateBlock env config validatorsForHeight block s.ledger = .ok () ∧
            turn.1 = ⟨s.blockCache.confirm block.height,
              (commitProposal env config.badBlocks io block s.ledger).1⟩)) := by
  intro turn
  cases hnext : s.blockCache.getNextCommitBlock with
  | none =>
    have hturn : turn = (s, .idle) := by simp only [turn, commitNext, hnext]
    rw [hturn]
    exact Or.inl ⟨rfl, by simp⟩
  | some block =>
    cases hvalid : validateBlock env config validatorsForHeight block s.ledger with
    | error failure =>
      cases failure with
      | panic =>
        have hturn : turn = (s, .failed) := by simp only [turn, commitNext, hnext, hvalid]
        rw [hturn]
        exact Or.inl ⟨rfl, by simp⟩
      | err e =>
        have hturn : turn = ({ s with blockCache := s.blockCache.remove (block.hash env) },
            .again) := by simp only [turn, commitNext, hnext, hvalid]
        exact Or.inr ⟨block, rfl, Or.inl ⟨⟨e, hvalid⟩, hturn⟩⟩
    | ok u =>
      have hturn : turn.1 = ⟨s.blockCache.confirm block.height,
          (commitProposal env config.badBlocks io block s.ledger).1⟩ := by
        simp only [turn, commitNext, hnext, hvalid]
      exact Or.inr ⟨block, rfl, Or.inr ⟨hvalid, hturn⟩⟩

variable (hheight : ∀ a b, known a → known b → a.hash env = b.hash env → a.height = b.height)

theorem mem_pending (s : Node D) (h : ℕ) :
    h ∈ pending s ↔ s.blockCache.height < h ∧ ∃ hash,
      s.blockCache.blockHashHeights.lookup h = some hash := by
  unfold pending
  rw [Finset.mem_filter, List.mem_toFinset, ← AList.mem_keys, ← AList.lookup_isSome,
    Option.isSome_iff_exists]
  exact and_comm

include hheight in
/-- A turn after which the loop goes on leaves fewer cached heights. -/
theorem pending_commitNext (validatorsForHeight : ℕ → List Address) (io : CommitIo) (s : Node D)
    (htracks : Tracks env known s.blockCache)
    (hagain : (commitNext env config validatorsForHeight io s).2 = .again) :
    (pending (commitNext env config validatorsForHeight io s).1).card < (pending s).card ∧
      Tracks env known (commitNext env config validatorsForHeight io s).1.blockCache := by
  rcases @commitNext_cases D env config validatorsForHeight io s with
    ⟨-, hstops⟩ | ⟨block, hnext, ⟨-, hturn⟩ | ⟨-, hturn⟩⟩
  · exact absurd hagain hstops
  · obtain ⟨-, hblock, hlookup, hcached⟩ := htracks.next hheight block hnext
    rw [hturn]
    refine ⟨Finset.card_lt_card ((Finset.ssubset_iff_of_subset ?_).mpr
      ⟨s.blockCache.height + 1, ?_, ?_⟩), htracks.remove _⟩
    · intro h hmem
      obtain ⟨habove, hash, hhash⟩ := (mem_pending _ h).mp hmem
      rw [remove_height] at habove
      exact (mem_pending s h).mpr ⟨habove, hash, (remove_sub _).2 h hash hhash⟩
    · exact (mem_pending s _).mpr ⟨by omega, _, hlookup⟩
    · intro hmem
      obtain ⟨-, hash, hhash⟩ := (mem_pending _ _).mp hmem
      have hgone := remove_lookup_self (block.hash env) block hcached
      rw [hblock] at hgone
      rw [hgone] at hhash
      cases hhash
  · obtain ⟨-, hblock, hlookup, -⟩ := htracks.next hheight block hnext
    rw [hturn]
    refine ⟨Finset.card_lt_card ((Finset.ssubset_iff_of_subset ?_).mpr
      ⟨s.blockCache.height + 1, ?_, ?_⟩), htracks.confirm _⟩
    · intro h hmem
      obtain ⟨habove, hash, hhash⟩ := (mem_pending _ h).mp hmem
      dsimp only at habove hhash
      rw [confirm_height] at habove
      rw [confirm_lookup, if_neg (by omega)] at hhash
      exact (mem_pending s h).mpr ⟨by omega, hash, hhash⟩
    · exact (mem_pending s _).mpr ⟨by omega, _, hlookup⟩
    · intro hmem
      have habove := ((mem_pending _ _).mp hmem).1
      dsimp only at habove
      rw [confirm_height] at habove
      omega

include hheight in
/-- The turns of a tick are enough: the loop ends because a turn ends it. -/
theorem commitLoop_ends (validatorsForHeight : ℕ → List Address) (turns : ℕ)
    (io : ℕ → CommitIo) (s : Node D) (htracks : Tracks env known s.blockCache)
    (hturns : (pending s).card < turns) :
    commitLoop env config validatorsForHeight (turns + 1) io s =
      commitLoop env config validatorsForHeight turns io s := by
  induction turns generalizing io s with
  | zero => omega
  | succ turns ih =>
    conv_lhs => rw [commitLoop]
    conv_rhs => rw [commitLoop]
    split
    · rename_i hagain
      obtain ⟨hfewer, htracks'⟩ := pending_commitNext hheight validatorsForHeight (io 0) s htracks
        hagain
      exact ih _ _ htracks' (by omega)
    · rfl

end Loop

/-- The leaves of a block have free slots, and a block that skips validation declares the
root it leads to. -/
structure FitsTree (env : NodeEnv) (badBlocks : List ℕ) (block : Block) (tree : Tree D) :
    Prop where
  distinct : (newLeaves tree block.content.state (decide (block.height ∈ badBlocks))).Pairwise
    fun a b => bits D a ≠ bits D b
  vacant : ∀ leaf ∈ newLeaves tree block.content.state (decide (block.height ∈ badBlocks)),
    tree.tree.leafAt (bits D leaf) = 0
  root : block.height ∈ badBlocks → block.rootHash = rootPassingOver env tree
    (newLeaves tree block.content.state (decide (block.height ∈ badBlocks)))

section Agreement

variable (env : NodeEnv) (config : Config)

/-- The cache, the store and the tree describe one block. -/
structure Describes (s : Node D) (block : Block) : Prop where
  hash : s.blockCache.hash = some (block.hash env)
  height : s.blockCache.height = block.height
  maxHeight : s.ledger.blockStore.maxHeight = some block.height
  stored : s.ledger.blockStore.get block.height = some block
  root : s.ledger.notesTree.tree.rootHash env.poseidon = block.rootHash
  leaves : ∀ leaf ∈ block.content.state.leavesNonNull,
    s.ledger.notesTree.tree.containsElement leaf = true

/-- The genesis block is confirmed; it is not stored, and the tree is empty. -/
structure AtGenesis (s : Node D) : Prop where
  hash : s.blockCache.hash = some (Block.genesis.hash env)
  height : s.blockCache.height = 0
  store : s.ledger.blockStore = BlockStore.empty
  root : s.ledger.notesTree.tree.rootHash env.poseidon = emptyTreeHash env.poseidon D

def Agrees (s : Node D) : Prop := AtGenesis env s ∨ ∃ block, Describes env s block

/-- A turn that confirms a block can write the store and fits the block into the tree. -/
def TurnCommits (validatorsForHeight : ℕ → List Address) (io : CommitIo) (s : Node D) : Prop :=
  ∀ block, s.blockCache.getNextCommitBlock = some block →
    validateBlock env config validatorsForHeight block s.ledger = .ok () →
      io.storeWritten = true ∧
        FitsTree env config.badBlocks block s.ledger.notesTree.tree

/-- A condition on the state before every turn of the loop. -/
def EveryTurn (condition : CommitIo → Node D → Prop) (validatorsForHeight : ℕ → List Address) :
    ℕ → (ℕ → CommitIo) → Node D → Prop
  | 0, _, _ => True
  | turns + 1, io, s =>
      condition (io 0) s ∧
        ((commitNext env config validatorsForHeight (io 0) s).2 = .again →
          EveryTurn condition validatorsForHeight turns (fun i => io (i + 1))
            (commitNext env config validatorsForHeight (io 0) s).1)

/-- An own proposal that writes the store can also write the tree, fits into it, and finds
room in the cache. -/
def ProposalCommits (input : TickInput) (s : Node D) : Prop :=
  ∀ lastConfirmed block, s.blockCache.hash = some lastConfirmed →
    proposedBlock env config lastConfirmed (s.blockCache.height + 1)
      (ownApprovals env config lastConfirmed (s.blockCache.height + 1)) input.txns
      s.ledger.notesTree.tree = some block →
    validateBlock env config input.validatorsForHeight block s.ledger = .ok () →
    (input.io 0).storeWritten = true →
      ((input.io 0).treeWritten = true ∨
        newLeaves s.ledger.notesTree.tree block.content.state
          (decide (block.height ∈ config.badBlocks)) = []) ∧
      FitsTree env config.badBlocks block s.ledger.notesTree.tree ∧
      (s.blockCache.atCapacity = false ∨ block.height ≤ s.blockCache.lastHeight)

/-- The steps that keep the three in agreement. -/
def Orderly (s : Node D) : Event → Prop
  | .receiveProposal block =>
      config.mode = Mode.validator ∨ block.height ≠ s.blockCache.height ∨
        s.blockCache.hash = some (block.hash env)
  | .tick input =>
      if isValidatorForHeight config input.validatorsForHeight (s.blockCache.height + 1) = false
      then EveryTurn env config (TurnCommits env config input.validatorsForHeight)
        input.validatorsForHeight ((pending s).card + 1) input.io s
      else ProposalCommits env config input s

/-- The blocks that reach a node in an event: one that arrives, or its own. -/
def Reaches (s : Node D) (block : Block) : Event → Prop
  | .receiveProposal received => block = received
  | .tick input =>
      isValidatorForHeight config input.validatorsForHeight (s.blockCache.height + 1) = true ∧
      ∃ lastConfirmed, s.blockCache.hash = some lastConfirmed ∧
      proposedBlock env config lastConfirmed (s.blockCache.height + 1)
        (ownApprovals env config lastConfirmed (s.blockCache.height + 1)) input.txns
        s.ledger.notesTree.tree = some block

end Agreement

/-- What a node keeps besides the agreement. -/
structure NodeInv (env : NodeEnv) (known : Block → Prop) (s : Node D) : Prop where
  valid : s.ledger.notesTree.tree.Valid env.poseidon
  tracks : Tracks env known s.blockCache
  agrees : Agrees env s

section Steps

variable {env : NodeEnv} {config : Config} {known : Block → Prop} {s : Node D}

theorem FitsTree.leavesFree {block : Block} {l : Ledger D}
    (h : l.notesTree.tree.Valid env.poseidon)
    (hfits : FitsTree env config.badBlocks block l.notesTree.tree) :
    LeavesFree config.badBlocks block l h :=
  ⟨hfits.distinct, hfits.vacant⟩

/-- A block above the confirmed one becomes the greatest in the store. -/
theorem Agrees.set_maxHeight (hagrees : Agrees env s) (block : Block)
    (hnext : block.height = s.blockCache.height + 1) :
    (s.ledger.blockStore.set block).maxHeight = some block.height := by
  apply BlockStore.set_maxHeight
  intro height hmax
  rcases hagrees with hgenesis | ⟨last, hlast⟩
  · rw [hgenesis.store] at hmax
    cases hmax
  · rw [hlast.maxHeight] at hmax
    obtain rfl := Option.some.inj hmax
    have := hlast.height
    omega

theorem validateBlock_ok (validatorsForHeight : ℕ → List Address) (block : Block) (l : Ledger D)
    (hok : validateBlock env config validatorsForHeight block l = .ok ()) :
    block.height ∈ config.badBlocks ∨
      (∃ leader, leaderForBlockHeight (validatorsForHeight block.height) block.height =
          some leader ∧ block.signature.verify env (block.hash env) = .ok leader) ∧
        validate env block.content config.mode l.blockStore l.notesTree.tree = .ok () := by
  unfold validateBlock at hok
  split at hok
  · rename_i hbad
    exact Or.inl hbad
  · right
    split at hok
    · cases hok
    · rename_i leader hleader
      split at hok
      · cases hok
      · cases hok
      · rename_i signedBy hsigned
        split at hok
        · cases hok
        · rename_i heq
          rw [ne_eq, not_not] at heq
          exact ⟨⟨leader, hleader, heq ▸ hsigned⟩, hok⟩

/-- No leaf of a validated block is in the tree, unless its height is configured as bad. -/
theorem validateBlock_fresh (validatorsForHeight : ℕ → List Address) (block : Block)
    (l : Ledger D) (hok : validateBlock env config validatorsForHeight block l = .ok ()) :
    ¬(decide (block.height ∈ config.badBlocks) = false ∧
      block.content.state.leavesNonNull.any l.notesTree.tree.containsElement = true) := by
  rintro ⟨hgood, hany⟩
  rcases validateBlock_ok _ _ _ hok with hbad | ⟨-, hvalid⟩
  · simp [hbad] at hgood
  · obtain ⟨hpasses, -⟩ := (validate_ok _ _ _ _).mp hvalid
    obtain ⟨leaf, hleaf, hin⟩ := List.any_eq_true.mp hany
    obtain ⟨hmem, hne⟩ := (mem_nonNull _ leaf).mp hleaf
    obtain ⟨txn, htxn, htxnLeaf⟩ := List.mem_flatMap.mp hmem
    rw [(hpasses.txns txn htxn).fresh leaf htxnLeaf hne] at hin
    cases hin

/-- The commit of a validated block, which is written to the store before the tree. -/
theorem commitProposal_validated (validatorsForHeight : ℕ → List Address) (block : Block)
    (io : CommitIo) (l : Ledger D)
    (hok : validateBlock env config validatorsForHeight block l = .ok ()) :
    commitProposal env config.badBlocks io block l =
      if io.storeWritten = false then (l, .error (.err .blockStore))
      else (⟨l.blockStore.set block, (applyBlockToTree env l.notesTree block.content.state
          (decide (block.height ∈ config.badBlocks)) io.treeWritten).1⟩,
        (applyBlockToTree env l.notesTree block.content.state
          (decide (block.height ∈ config.badBlocks)) io.treeWritten).2) :=
  if_neg (validateBlock_fresh _ _ _ hok)

/-- A committed block has its root and its leaves in the tree. -/
theorem committed_tree (hvalid : s.ledger.notesTree.tree.Valid env.poseidon)
    (validatorsForHeight : ℕ → List Address) (block : Block) (io : CommitIo)
    (hok : validateBlock env config validatorsForHeight block s.ledger = .ok ())
    (hstore : io.storeWritten = true)
    (hfits : FitsTree env config.badBlocks block s.ledger.notesTree.tree) :
    let l' := (commitProposal env config.badBlocks io block s.ledger).1
    l'.blockStore = s.ledger.blockStore.set block ∧
      l'.notesTree.tree.Valid env.poseidon ∧
      l'.notesTree.tree.rootHash env.poseidon = block.rootHash ∧
      ∀ leaf ∈ block.content.state.leavesNonNull,
        l'.notesTree.tree.containsElement leaf = true := by
  intro l'
  have hfree := hfits.leavesFree hvalid
  obtain ⟨hcommitted, -, -⟩ := commitProposal_free hvalid hstore hfree
  obtain ⟨h', hlaid⟩ := hcommitted.inserted
  have hcontains := contains_laid hvalid h' _ (newLeaves_ne_null _ _ _) hfree hlaid
  refine ⟨hcommitted.stored, h', ?_, ?_⟩
  · have hroot : l'.notesTree.tree.rootHash env.poseidon = rootPassingOver env
        s.ledger.notesTree.tree (newLeaves s.ledger.notesTree.tree block.content.state
          (decide (block.height ∈ config.badBlocks))) := by
      rw [h'.rootHash_eq, hlaid]
      rfl
    by_cases hbad : block.height ∈ config.badBlocks
    · rw [hroot, hfits.root hbad]
    · obtain ⟨-, hvalidated⟩ := (validateBlock_ok _ _ _ hok).resolve_left hbad
      obtain ⟨-, hsome⟩ := (validate_ok _ _ _ _).mp hvalidated
      rw [hroot, newLeaves_of_not_bad _ _ _ _ hbad]
      exact (((newRootHash_eq_some hvalid _ _).mp hsome).2).symm
  · intro leaf hleaf
    rw [hcontains leaf, ← mem_leavesNonNull_iff]
    exact Or.inl hleaf

/-- A cache with the same confirmed hash and height keeps the agreement. -/
theorem Agrees.of_cache (hagrees : Agrees env s) (cache : BlockCache)
    (hhash : ∀ confirmed, s.blockCache.hash = some confirmed → cache.hash = some confirmed)
    (hheight : cache.height = s.blockCache.height) :
    Agrees env { s with blockCache := cache } := by
  rcases hagrees with h | ⟨block, h⟩
  · exact Or.inl ⟨hhash _ h.hash, hheight.trans h.height, h.store, h.root⟩
  · exact Or.inr ⟨block, hhash _ h.hash, hheight.trans h.height, h.maxHeight, h.stored, h.root,
      h.leaves⟩

variable (hheight : ∀ a b, known a → known b → a.hash env = b.hash env → a.height = b.height)

include hheight in
theorem commitNext_inv (validatorsForHeight : ℕ → List Address) (io : CommitIo)
    (hinv : NodeInv env known s) (hcommits : TurnCommits env config validatorsForHeight io s) :
    NodeInv env known (commitNext env config validatorsForHeight io s).1 := by
  rcases @commitNext_cases D env config validatorsForHeight io s with
    ⟨hsame, -⟩ | ⟨block, hnext, ⟨-, hturn⟩ | ⟨hok, hturn⟩⟩
  · rw [hsame]
    exact hinv
  · obtain ⟨-, hblock, hlookup, -⟩ := hinv.tracks.next hheight block hnext
    rw [hturn]
    refine ⟨hinv.valid, hinv.tracks.remove _, hinv.agrees.of_cache _ ?_ (remove_height _)⟩
    intro confirmed hconfirmed
    unfold BlockCache.hash
    rw [remove_height, hinv.tracks.remove_lookup hheight _ _ _ hlookup (by omega)]
    exact hconfirmed
  · obtain ⟨-, hblock, hlookup, -⟩ := hinv.tracks.next hheight block hnext
    obtain ⟨hstore, hfits⟩ := hcommits block hnext hok
    obtain ⟨hset, hvalid, hroot, hleaves⟩ := committed_tree hinv.valid validatorsForHeight block io
      hok hstore hfits
    rw [hturn]
    refine ⟨hvalid, hinv.tracks.confirm _, Or.inr ⟨block, ?_, confirm_height _, ?_, ?_, hroot,
      hleaves⟩⟩
    · unfold BlockCache.hash
      rw [confirm_height, confirm_lookup, if_neg (lt_irrefl _), hblock]
      exact hlookup
    · rw [hset]
      exact hinv.agrees.set_maxHeight block hblock
    · rw [hset]
      exact BlockStore.set_get_self _ _

/-- What every turn keeps, the loop keeps. -/
theorem commitLoop_keeps (P : Node D → Prop) (condition : CommitIo → Node D → Prop)
    (validatorsForHeight : ℕ → List Address)
    (hturn : ∀ io s, P s → condition io s →
      P (commitNext env config validatorsForHeight io s).1)
    (turns : ℕ) (io : ℕ → CommitIo) (s : Node D) (hs : P s)
    (hevery : EveryTurn env config condition validatorsForHeight turns io s) :
    P (commitLoop env config validatorsForHeight turns io s) := by
  induction turns generalizing io s with
  | zero => exact hs
  | succ turns ih =>
    obtain ⟨hcondition, hrest⟩ := hevery
    have hnext := hturn (io 0) s hs hcondition
    rw [commitLoop]
    split
    · rename_i hagain
      exact ih _ _ hnext (hrest hagain)
    · exact hnext

theorem proposedBlock_height (lastBlockHash : CryptoHash) (height : ℕ)
    (approvals : List NodeBlocks.Signature) (txns : List UtxoProof) (tree : Tree D)
    (block : Block)
    (h : proposedBlock env config lastBlockHash height approvals txns tree = some block) :
    block.height = height ∧ block.content.header.lastBlockHash = lastBlockHash := by
  unfold proposedBlock at h
  obtain ⟨root, -, rfl⟩ := Option.map_eq_some_iff.mp h
  exact ⟨rfl, rfl⟩

/-- What a proposal does: nothing, a commit that fails, or a commit and a confirmation. -/
theorem createProposal_cases (input : TickInput) (lastBlockHash : CryptoHash) (height : ℕ)
    (approvals : List NodeBlocks.Signature) :
    let result := createProposal env config input lastBlockHash height approvals s
    result.1 = s ∨
      ∃ block, proposedBlock env config lastBlockHash height approvals input.txns
          s.ledger.notesTree.tree = some block ∧
        validateBlock env config input.validatorsForHeight block s.ledger = .ok () ∧
        let committed := commitProposal env config.badBlocks (input.io 0) block s.ledger
        (committed.2 ≠ .ok () ∧ result.1 = ⟨s.blockCache, committed.1⟩) ∨
          (committed.2 = .ok () ∧
            result.1 = ⟨(s.blockCache.insert env block).confirm height, committed.1⟩) := by
  intro result
  have hresult : result = createProposal env config input lastBlockHash height approvals s := rfl
  unfold createProposal at hresult
  split at hresult
  · exact Or.inl (congrArg Prod.fst hresult)
  · split at hresult
    · exact Or.inl (congrArg Prod.fst hresult)
    · rename_i block hblock
      split at hresult
      · exact Or.inl (congrArg Prod.fst hresult)
      · rename_i hok
        refine Or.inr ⟨block, hblock, hok, ?_⟩
        dsimp only at hresult
        split at hresult
        · rename_i failure hfails
          exact Or.inl ⟨by rw [hfails]; simp, congrArg Prod.fst hresult⟩
        · rename_i hcommitted
          exact Or.inr ⟨hcommitted, congrArg Prod.fst hresult⟩

theorem createProposal_inv (input : TickInput) (lastConfirmed : CryptoHash)
    (hinv : NodeInv env known s) (hlast : s.blockCache.hash = some lastConfirmed)
    (hknown : ∀ block, proposedBlock env config lastConfirmed (s.blockCache.height + 1)
      (ownApprovals env config lastConfirmed (s.blockCache.height + 1)) input.txns
      s.ledger.notesTree.tree = some block → known block)
    (hcommits : ProposalCommits env config input s) :
    NodeInv env known (createProposal env config input lastConfirmed (s.blockCache.height + 1)
      (ownApprovals env config lastConfirmed (s.blockCache.height + 1)) s).1 := by
  rcases @createProposal_cases D env config s input lastConfirmed (s.blockCache.height + 1)
    (ownApprovals env config lastConfirmed (s.blockCache.height + 1)) with
    hsame | ⟨block, hblock, hok, hresult⟩
  · rw [hsame]
    exact hinv
  have hreaches := hknown block hblock
  obtain ⟨hnext, -⟩ := proposedBlock_height _ _ _ _ _ _ hblock
  have hcommit := hcommits lastConfirmed block hlast hblock hok
  rcases @commitProposal_cases D env config.badBlocks (input.io 0) block s.ledger hinv.valid with
    ⟨hledger, hfails⟩ | ⟨-, -, hstore, hfree⟩ | ⟨-, hstore, hfree⟩
  · rcases hresult with ⟨-, hresult⟩ | ⟨hcommitted, -⟩
    · rw [hresult, hledger]
      exact hinv
    · exact absurd hcommitted hfails
  · exact absurd ((hcommit hstore).2.1.leavesFree hinv.valid) hfree
  · obtain ⟨hwritten, hfits, hroom⟩ := hcommit hstore
    obtain ⟨-, -, hdone⟩ := commitProposal_free hinv.valid hstore hfree
    obtain ⟨hset, hvalid, hroot, hleaves⟩ := committed_tree hinv.valid input.validatorsForHeight
      block (input.io 0) hok hstore hfits
    rcases hresult with ⟨hfails, -⟩ | ⟨-, hresult⟩
    · exact absurd (hdone hwritten) hfails
    · rw [hresult]
      refine ⟨hvalid, (hinv.tracks.insert block hreaches).confirm _, Or.inr ⟨block, ?_, ?_, ?_, ?_,
        hroot, hleaves⟩⟩
      · unfold BlockCache.hash
        rw [confirm_height, confirm_lookup, if_neg (lt_irrefl _), ← hnext]
        exact insert_lookup_self env _ block (by omega) hroom
      · dsimp only
        rw [confirm_height, hnext]
      · dsimp only
        rw [hset]
        exact hinv.agrees.set_maxHeight block hnext
      · dsimp only
        rw [hset]
        exact BlockStore.set_get_self _ _

include hheight in
/-- An orderly step keeps the agreement. -/
theorem step_inv (event : Event) (hinv : NodeInv env known s)
    (hknown : ∀ block, Reaches env config s block event → known block)
    (horderly : Orderly env config s event) :
    NodeInv env known (step env config s event) := by
  cases event with
  | receiveProposal block =>
    change NodeInv env known (receiveProposal env config block s)
    unfold receiveProposal
    split
    · exact hinv
    · rename_i hmode
      have hother := horderly.resolve_left hmode
      refine ⟨hinv.valid, hinv.tracks.insert block (hknown block rfl), ?_⟩
      refine hinv.agrees.of_cache _ ?_ (insert_height _)
      intro confirmed hconfirmed
      refine hinv.tracks.insert_hash hheight block confirmed hconfirmed (hother.imp_right ?_)
      intro hsame
      rw [hconfirmed] at hsame
      exact (Option.some.inj hsame).symm
  | tick input =>
    change NodeInv env known (tick env config input s)
    unfold tick
    simp only [Orderly] at horderly
    dsimp only
    split
    · rename_i hvalidator
      rw [if_pos hvalidator] at horderly
      exact commitLoop_keeps (NodeInv env known) _ _
        (fun io s hs hcommits => commitNext_inv hheight _ io hs hcommits) _ _ _ hinv horderly
    · rename_i hvalidator
      rw [if_neg hvalidator] at horderly
      split
      · exact hinv
      · rename_i lastConfirmed hlast
        rw [Bool.not_eq_false] at hvalidator
        exact createProposal_inv input lastConfirmed hinv hlast
          (fun block hblock => hknown block ⟨hvalidator, lastConfirmed, hlast, hblock⟩) horderly

end Steps

/-- A run of orderly steps; the blocks that reach the node are known ones. -/
def OrderlyRun (env : NodeEnv) (config : Config) (known : Block → Prop) :
    Node D → List Event → Prop
  | _, [] => True
  | s, event :: rest =>
      (∀ block, Reaches env config s block event → known block) ∧
        Orderly env config s event ∧ OrderlyRun env config known (step env config s event) rest

theorem run_inv {env : NodeEnv} {config : Config} {known : Block → Prop}
    (hheight : ∀ a b, known a → known b → a.hash env = b.hash env → a.height = b.height)
    (start : Node D) (events : List Event) (hstart : NodeInv env known start)
    (horderly : OrderlyRun env config known start events) :
    NodeInv env known (run env config start events) := by
  induction events generalizing start with
  | nil => exact hstart
  | cons event rest ih =>
    obtain ⟨hknown, hstep, hrest⟩ := horderly
    exact ih _ (step_inv hheight event hstart hknown hstep) hrest

theorem orderlyRun_append {env : NodeEnv} {config : Config} {known : Block → Prop}
    (start : Node D) (before after : List Event)
    (h : OrderlyRun env config known start (before ++ after)) :
    OrderlyRun env config known start before := by
  induction before generalizing start with
  | nil => trivial
  | cons event rest ih => exact ⟨h.1, h.2.1, ih _ h.2.2⟩

/-- In every state of an orderly run, the cache, the store and the tree describe one block. -/
theorem orderly_run_agrees (env : NodeEnv) (config : Config) (messages : Set Bytes)
    (hkeccak : Set.InjOn env.keccak256 messages) (start : Node D)
    (hstart : NodeInv env (Hashed env messages) start) (events : List Event)
    (horderly : OrderlyRun env config (Hashed env messages) start events)
    (before after : List Event) (hsplit : events = before ++ after) :
    Agrees env (run env config start before) := by
  rw [hsplit] at horderly
  exact (run_inv (height_of_hash hkeccak) start before hstart
    (orderlyRun_append start before after horderly)).agrees

/-- Every signature is that of the address 1, and the hash of a block is its height. -/
def signedEnv : NodeEnv :=
  { trustingEnv with
    keccak256 := fun bytes => BitVec.ofNat 256 (fromBeBytes ((bytes.drop 32).take 32))
    recoverEcdsa := fun _ _ _ _ => some 1#160 }

def nodeConfig : Config :=
  ⟨Mode.node, [], 0, 0#160, fun _ => Vector.replicate 65 0⟩

/-- A node that starts from genesis. -/
def genesisNode : Node 161 := ⟨BlockCache.new signedEnv Block.genesis 10000, freshLedger 161⟩

/-- A first block without transactions. -/
def emptyBlock : Block :=
  ⟨⟨⟨1, 0#256, 0, 0#256, []⟩, ⟨0#256, []⟩⟩, Vector.replicate 65 0⟩

/-- A tick with the validator 1, in which these writes succeed. -/
def tickWrites (io : CommitIo) : TickInput :=
  ⟨fun _ => [1#160], fun _ => io, [], ⟨none, fun _ _ => none, fun _ _ => none⟩⟩

theorem genesisNode_atGenesis : AtGenesis signedEnv genesisNode := ⟨by decide, rfl, rfl, rfl⟩

/-- When the store cannot be written, a tick leaves the cache ahead of the store. -/
theorem not_agrees_after_failed_write :
    AtGenesis signedEnv genesisNode ∧
      ¬Agrees signedEnv (run signedEnv nodeConfig genesisNode
        [.receiveProposal emptyBlock, .tick (tickWrites ⟨false, true⟩)]) := by
  have hheight : (run signedEnv nodeConfig genesisNode [.receiveProposal emptyBlock,
      .tick (tickWrites ⟨false, true⟩)]).blockCache.height = 1 := by decide
  have hstore : (run signedEnv nodeConfig genesisNode [.receiveProposal emptyBlock,
      .tick (tickWrites ⟨false, true⟩)]).ledger.blockStore.maxHeight = none := by decide
  refine ⟨genesisNode_atGenesis, ?_⟩
  rintro (h | ⟨block, h⟩)
  · have hzero := h.height
    rw [hheight] at hzero
    cases hzero
  · have hmax := h.maxHeight
    rw [hstore] at hmax
    cases hmax

/-- The same node with the sum for Poseidon. -/
def leafEnv : NodeEnv := { signedEnv with poseidon := List.sum }

def leafNode : Node 161 := ⟨BlockCache.new leafEnv Block.genesis 10000, freshLedger 161⟩

def firstLeaf : Block := leafBlock 1 0#256 5#256 5#256

def secondLeaf : Block := leafBlock 2 1#256 11#256 6#256

/-- Two blocks with a leaf each arrive, and are committed on one tick. -/
def leafEvents : List Event :=
  [.receiveProposal firstLeaf, .receiveProposal secondLeaf, .tick (tickWrites ⟨true, true⟩)]

/-- The messages of the blocks such a run knows. -/
def leafMessages : Set Bytes :=
  {Block.genesis.content.message leafEnv, firstLeaf.content.message leafEnv,
    secondLeaf.content.message leafEnv}

theorem injOn_leafMessages : Set.InjOn leafEnv.keccak256 leafMessages := by
  have hgenesis : leafEnv.keccak256 (Block.genesis.content.message leafEnv) = 0#256 := by decide
  have hfirst : leafEnv.keccak256 (firstLeaf.content.message leafEnv) = 1#256 := by decide
  have hsecond : leafEnv.keccak256 (secondLeaf.content.message leafEnv) = 2#256 := by decide
  rintro a (rfl | rfl | rfl) b (rfl | rfl | rfl) hab
  all_goals first
    | rfl
    | simp [hgenesis, hfirst, hsecond] at hab

theorem leafMessages_hashed : Hashed leafEnv leafMessages Block.genesis ∧
    Hashed leafEnv leafMessages firstLeaf ∧ Hashed leafEnv leafMessages secondLeaf :=
  ⟨⟨Or.inl rfl, by decide⟩, ⟨Or.inr (Or.inl rfl), by decide⟩, ⟨Or.inr (Or.inr rfl), by decide⟩⟩

theorem leafBlock_fitsTree (env : NodeEnv) (tree : Tree 161) (height : ℕ)
    (lastBlockHash : CryptoHash) (rootHash leaf : Element) (hleaf : leaf ≠ 0#256)
    (hvacant : tree.tree.leafAt (bits 161 leaf) = 0) :
    FitsTree env [] (leafBlock height lastBlockHash rootHash leaf) tree := by
  have hnew : newLeaves tree (leafBlock height lastBlockHash rootHash leaf).content.state
      (decide ((leafBlock height lastBlockHash rootHash leaf).height ∈ ([] : List ℕ))) = [leaf] :=
    (newLeaves_of_not_bad _ _ _ _ List.not_mem_nil).trans (leafBlock_leaves _ _ _ _ hleaf)
  refine ⟨?_, ?_, fun hbad => absurd hbad List.not_mem_nil⟩
  · rw [hnew]
    exact List.pairwise_singleton _ _
  · rw [hnew]
    intro e he
    obtain rfl := List.mem_singleton.mp he
    exact hvacant

/-- The cache, the store and the tree agree after two blocks with leaves. -/
theorem agrees_after_two_blocks :
    let s := run leafEnv nodeConfig leafNode leafEvents
    s.ledger.notesTree.db = [5#256, 6#256] ∧ Agrees leafEnv s := by
  obtain ⟨hgenesis, hfirst, hsecond⟩ := leafMessages_hashed
  have hstart : NodeInv leafEnv (Hashed leafEnv leafMessages) leafNode :=
    ⟨Tree.new_valid, tracks_new Block.genesis 10000 hgenesis,
      Or.inl ⟨by decide, rfl, rfl, by decide +kernel⟩⟩
  refine ⟨by decide +kernel, ?_⟩
  apply orderly_run_agrees leafEnv nodeConfig leafMessages injOn_leafMessages leafNode hstart
    leafEvents ?_ _ [] (List.append_nil _).symm
  refine ⟨?_, Or.inr (Or.inl (by decide)), ?_, Or.inr (Or.inl (by decide)), ?_, ?_, trivial⟩
  · rintro block rfl
    exact hfirst
  · rintro block rfl
    exact hsecond
  · rintro block ⟨hvalidator, -⟩
    cases hvalidator
  · let s₂ := run leafEnv nodeConfig leafNode
      [.receiveProposal firstLeaf, .receiveProposal secondLeaf]
    let s₃ := (commitNext leafEnv nodeConfig (fun _ => [1#160]) ⟨true, true⟩ s₂).1
    let s₄ := (commitNext leafEnv nodeConfig (fun _ => [1#160]) ⟨true, true⟩ s₃).1
    have hturns : (pending s₂).card = 2 := by decide
    have hthird : s₃.blockCache.getNextCommitBlock = some secondLeaf := by decide +kernel
    have hvacant : s₃.ledger.notesTree.tree.tree.leafAt (bits 161 6#256) = 0 := by
      decide +kernel
    have hnone : s₄.blockCache.getNextCommitBlock = none := by decide +kernel
    change Orderly leafEnv nodeConfig s₂ _
    simp only [Orderly]
    rw [if_pos (by decide), hturns]
    refine ⟨?_, fun _ => ⟨?_, fun _ => ⟨?_, fun _ => trivial⟩⟩⟩
    · intro block hnext _
      have hcached : s₂.blockCache.getNextCommitBlock = some firstLeaf := rfl
      rw [hcached] at hnext
      obtain rfl := Option.some.inj hnext
      exact ⟨rfl, leafBlock_fitsTree _ _ _ _ _ _ (by decide) (SmirkNode.leafAt_empty _)⟩
    · intro block hnext _
      obtain rfl := Option.some.inj (hthird.symm.trans hnext)
      exact ⟨rfl, leafBlock_fitsTree _ _ _ _ _ _ (by decide) hvacant⟩
    · intro block hnext _
      cases hnone.symm.trans hnext

end PayyRollup.NodeRuns
