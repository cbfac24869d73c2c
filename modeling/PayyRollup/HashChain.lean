import PayyRollup.NodeRuns

/-!
The chain of the committed blocks. A proposal of the node itself names the hash of the block
it has confirmed; nothing compares the hash an arriving block names with any other. The
blocks of the store are linked in every run in which the blocks that arrive from their
leaders form one chain.
-/
namespace PayyRollup.HashChain

open ScalarField VerifierContracts RollupState SmirkTree NodeBlocks BlockCaches BlockValidation
  BlockCommit NodeRuns

variable {D : ℕ}

section Statements

variable (env : NodeEnv) (config : Config)

/-- Every block stored above a height names the hash of the block stored below it. -/
def LinkedAbove (base : ℕ) (baseHash : CryptoHash) (store : BlockStore) : Prop :=
  ∀ height block, base < height → store.get height = some block →
    block.height = height ∧
      ((height = base + 1 ∧ block.content.header.lastBlockHash = baseHash) ∨
        ∃ below, base < height - 1 ∧ store.get (height - 1) = some below ∧
          block.content.header.lastBlockHash = below.hash env)

/-- A block that passes the check of its signature. -/
def Endorsed (validatorsForHeight : ℕ → List Address) (block : Block) : Prop :=
  block.height ∈ config.badBlocks ∨
    ∃ leader, leaderForBlockHeight (validatorsForHeight block.height) block.height =
        some leader ∧ block.signature.verify env (block.hash env) = .ok leader

/-- The block is that of a chain of hashes at its height, and names the one below. -/
structure OnChain (chain : ℕ → CryptoHash) (block : Block) : Prop where
  hash : block.hash env = chain block.height
  last : block.content.header.lastBlockHash = chain (block.height - 1)

/-- A block that is on the chain if some leader may have signed it. -/
def Follows (chain : ℕ → CryptoHash) (sets : Set (ℕ → List Address)) (block : Block) : Prop :=
  ∀ validatorsForHeight ∈ sets, Endorsed env config validatorsForHeight block →
    OnChain env chain block

/-- A turn that commits a block can write the store. -/
def TurnWrites (validatorsForHeight : ℕ → List Address) (io : CommitIo) (s : Node D) : Prop :=
  ∀ block, s.blockCache.getNextCommitBlock = some block →
    validateBlock env config validatorsForHeight block s.ledger = .ok () →
      io.storeWritten = true

/-- What arrives follows the chain, and committing a cached block writes the store. -/
def Chaining (chain : ℕ → CryptoHash) (sets : Set (ℕ → List Address)) (messages : Set Bytes)
    (s : Node D) : Event → Prop
  | .receiveProposal block => config.mode = Mode.validator ∨
      (Hashed env messages block ∧
        (block.height ≤ s.blockCache.height ∨ Follows env config chain sets block))
  | .tick input => config.mode = Mode.validator ∨
      (input.validatorsForHeight ∈ sets ∧
        EveryTurn env config (TurnWrites env config input.validatorsForHeight)
          input.validatorsForHeight ((pending s).card + 1) input.io s)

def ChainingRun (chain : ℕ → CryptoHash) (sets : Set (ℕ → List Address))
    (messages : Set Bytes) : Node D → List Event → Prop
  | _, [] => True
  | s, event :: rest => Chaining env config chain sets messages s event ∧
      ChainingRun chain sets messages (step env config s event) rest

/-- The state of a node that has confirmed a height, with nothing stored above it. A
validator has just that block in its cache; other nodes may have cached more. -/
structure ChainStart (chain : ℕ → CryptoHash) (sets : Set (ℕ → List Address))
    (messages : Set Bytes) (base : ℕ) (s : Node D) : Prop where
  height : s.blockCache.height = base
  store : ∀ height, base < height → s.ledger.blockStore.get height = none
  cached : if config.mode = Mode.validator then
      s.blockCache.hash = some (chain base) ∧
        ∀ height, base < height → s.blockCache.blockHashHeights.lookup height = none
    else
      Tracks env (Hashed env messages) s.blockCache ∧
        ∀ hash block, s.blockCache.blocks.lookup hash = some block → base < block.height →
          Follows env config chain sets block

end Statements

section Storing

variable {env : NodeEnv} {config : Config}

/-- Committing a validated block stores it if the store can be written, and else nothing. -/
theorem commitProposal_stores (validatorsForHeight : ℕ → List Address) (block : Block)
    (io : CommitIo) (l : Ledger D)
    (hok : validateBlock env config validatorsForHeight block l = .ok ()) :
    (commitProposal env config.badBlocks io block l).1.blockStore =
      if io.storeWritten then l.blockStore.set block else l.blockStore := by
  rw [commitProposal_validated _ _ _ _ hok]
  cases io.storeWritten with
  | true => simp
  | false => simp

/-- A block on top of a linked store, above everything in it. -/
theorem LinkedAbove.set {base : ℕ} {baseHash : CryptoHash} {store : BlockStore} {block : Block}
    (h : LinkedAbove env base baseHash store) (habove : base < block.height)
    (hnone : ∀ height, block.height < height → store.get height = none)
    (hlink : (block.height = base + 1 ∧ block.content.header.lastBlockHash = baseHash) ∨
      ∃ below, base < block.height - 1 ∧ store.get (block.height - 1) = some below ∧
        block.content.header.lastBlockHash = below.hash env) :
    LinkedAbove env base baseHash (store.set block) := by
  intro height b hbase hget
  by_cases hheight : height = block.height
  · subst hheight
    rw [BlockStore.set_get_self] at hget
    obtain rfl := Option.some.inj hget
    refine ⟨rfl, hlink.imp_right ?_⟩
    rintro ⟨below, hbelow, hstored, hlast⟩
    refine ⟨below, hbelow, ?_, hlast⟩
    rw [BlockStore.set_get_of_ne _ _ _ (by omega)]
    exact hstored
  · rw [BlockStore.set_get_of_ne _ _ _ hheight] at hget
    have hlower : height < block.height := by
      rcases Nat.lt_or_gt_of_ne hheight with hlt | hgt
      · exact hlt
      · rw [hnone height hgt] at hget
        cases hget
    obtain ⟨hb, hlinked⟩ := h height b hbase hget
    refine ⟨hb, hlinked.imp_right ?_⟩
    rintro ⟨below, hbelow, hstored, hlast⟩
    refine ⟨below, hbelow, ?_, hlast⟩
    rw [BlockStore.set_get_of_ne _ _ _ (by omega)]
    exact hstored

end Storing

section Followers

variable {env : NodeEnv} {config : Config} {chain : ℕ → CryptoHash}
  {sets : Set (ℕ → List Address)} {messages : Set Bytes} {base : ℕ}

/-- What a node that is not a validator keeps: its store is linked, ends at the confirmed
height, and the blocks it has cached above follow the chain. -/
structure FollowerInv (env : NodeEnv) (config : Config) (chain : ℕ → CryptoHash)
    (sets : Set (ℕ → List Address)) (messages : Set Bytes) (base : ℕ) (s : Node D) : Prop where
  linked : LinkedAbove env base (chain base) s.ledger.blockStore
  above : ∀ height, s.blockCache.height < height → s.ledger.blockStore.get height = none
  tip : s.blockCache.height = base ∨ (base < s.blockCache.height ∧
    ∃ block, s.ledger.blockStore.get s.blockCache.height = some block ∧
      block.hash env = chain s.blockCache.height)
  tracks : Tracks env (Hashed env messages) s.blockCache
  follows : ∀ hash block, s.blockCache.blocks.lookup hash = some block →
    s.blockCache.height < block.height → Follows env config chain sets block

variable (hkeccak : Set.InjOn env.keccak256 messages)

include hkeccak in
theorem follower_turn (validatorsForHeight : ℕ → List Address)
    (hsets : validatorsForHeight ∈ sets) (io : CommitIo) (s : Node D)
    (hinv : FollowerInv env config chain sets messages base s)
    (hwrites : TurnWrites env config validatorsForHeight io s) :
    FollowerInv env config chain sets messages base
      (commitNext env config validatorsForHeight io s).1 := by
  have hheight := height_of_hash hkeccak
  rcases @commitNext_cases D env config validatorsForHeight io s with
    ⟨hsame, -⟩ | ⟨block, hnext, ⟨-, hturn⟩ | ⟨hok, hturn⟩⟩
  · rw [hsame]
    exact hinv
  · rw [hturn]
    refine ⟨hinv.linked, ?_, ?_, hinv.tracks.remove _, ?_⟩
    · dsimp only
      rw [remove_height]
      exact hinv.above
    · dsimp only
      rw [remove_height]
      exact hinv.tip
    · dsimp only
      rw [remove_height]
      intro hash b hlookup
      exact hinv.follows hash b ((remove_sub _).1 hash b hlookup)
  · obtain ⟨-, hblock, -, hcached⟩ := hinv.tracks.next hheight block hnext
    have hstored := commitProposal_stores validatorsForHeight block io s.ledger hok
    rw [if_pos (hwrites block hnext hok)] at hstored
    have hendorsed : Endorsed env config validatorsForHeight block :=
      (validateBlock_ok _ _ _ hok).imp_right fun h => h.1
    have hon := hinv.follows _ block hcached (by omega) _ hsets hendorsed
    have hlast := hon.last
    have hbelow : block.height - 1 = s.blockCache.height := by omega
    rw [hbelow] at hlast
    have hbase : base < block.height := by
      rcases hinv.tip with htip | ⟨htip, -⟩
      · omega
      · omega
    rw [hturn]
    refine ⟨?_, ?_, ?_, hinv.tracks.confirm _, ?_⟩
    · dsimp only
      rw [hstored]
      refine hinv.linked.set hbase (fun height hlt => hinv.above height (by omega)) ?_
      rcases hinv.tip with htip | ⟨htip, below, hget, hhash⟩
      · exact Or.inl ⟨by omega, by rw [hlast, htip]⟩
      · exact Or.inr ⟨below, by omega, by rw [hbelow]; exact hget, by rw [hlast, hhash]⟩
    · dsimp only
      rw [hstored, confirm_height]
      intro height hlt
      rw [BlockStore.set_get_of_ne _ _ _ (by omega)]
      exact hinv.above height (by omega)
    · dsimp only
      rw [hstored, confirm_height]
      exact Or.inr ⟨hbase, block, BlockStore.set_get_self _ _, hon.hash⟩
    · dsimp only
      rw [confirm_height]
      intro hash b hlookup hlt
      exact hinv.follows hash b (confirm_blocks _ _ _ hlookup) (by omega)

include hkeccak in
theorem follower_step (hmode : config.mode ≠ Mode.validator) (s : Node D) (event : Event)
    (hinv : FollowerInv env config chain sets messages base s)
    (hchaining : Chaining env config chain sets messages s event) :
    FollowerInv env config chain sets messages base (step env config s event) := by
  cases event with
  | receiveProposal block =>
    obtain ⟨hhashed, harrives⟩ := hchaining.resolve_left hmode
    change FollowerInv env config chain sets messages base (receiveProposal env config block s)
    unfold receiveProposal
    rw [if_neg hmode]
    refine ⟨hinv.linked, ?_, ?_, hinv.tracks.insert block hhashed, ?_⟩
    · dsimp only
      rw [insert_height]
      exact hinv.above
    · dsimp only
      rw [insert_height]
      exact hinv.tip
    · dsimp only
      rw [insert_height]
      intro hash b hlookup hlt
      rcases (insert_sub block).1 hash b hlookup with rfl | hold
      · exact harrives.resolve_left (by omega)
      · exact hinv.follows hash b hold hlt
  | tick input =>
    obtain ⟨hsets, hevery⟩ := hchaining.resolve_left hmode
    have hvalidator : isValidatorForHeight config input.validatorsForHeight
        (s.blockCache.height + 1) = false := by
      simp [isValidatorForHeight, hmode]
    change FollowerInv env config chain sets messages base (tick env config input s)
    unfold tick
    dsimp only
    rw [if_pos hvalidator]
    exact commitLoop_keeps (FollowerInv env config chain sets messages base) _ _
      (fun io s hs hwrites => follower_turn hkeccak _ hsets io s hs hwrites) _ _ s hinv hevery

end Followers

section Validators

variable {env : NodeEnv} {config : Config} {baseHash : CryptoHash} {base : ℕ}

/-- What a validator keeps: its store is linked and ends at the confirmed height, or one
above it after a commit that failed, and the confirmed hash is that of the last block. -/
structure ValidatorInv (env : NodeEnv) (baseHash : CryptoHash) (base : ℕ) (s : Node D) :
    Prop where
  linked : LinkedAbove env base baseHash s.ledger.blockStore
  above : ∀ height, s.blockCache.height + 1 < height → s.ledger.blockStore.get height = none
  base_le : base ≤ s.blockCache.height
  tip : ∀ hash, s.blockCache.hash = some hash →
    (s.blockCache.height = base ∧ hash = baseHash) ∨ (base < s.blockCache.height ∧
      ∃ block, s.ledger.blockStore.get s.blockCache.height = some block ∧
        hash = block.hash env)
  cached : ∀ height, s.blockCache.height < height →
    s.blockCache.blockHashHeights.lookup height = none

theorem validator_proposal (input : TickInput) (lastConfirmed : CryptoHash)
    (approvals : List NodeBlocks.Signature) (s : Node D)
    (hinv : ValidatorInv env baseHash base s)
    (hlast : s.blockCache.hash = some lastConfirmed) :
    ValidatorInv env baseHash base (createProposal env config input lastConfirmed
      (s.blockCache.height + 1) approvals s).1 := by
  rcases @createProposal_cases D env config s input lastConfirmed (s.blockCache.height + 1)
    approvals with hsame | ⟨block, hblock, hok, hresult⟩
  · rw [hsame]
    exact hinv
  have hbase := hinv.base_le
  obtain ⟨hnext, hnamed⟩ := proposedBlock_height _ _ _ _ _ _ hblock
  have hstored := commitProposal_stores input.validatorsForHeight block (input.io 0) s.ledger hok
  have hlinked : LinkedAbove env base baseHash (commitProposal env config.badBlocks (input.io 0)
      block s.ledger).1.blockStore := by
    rw [hstored]
    split
    · refine hinv.linked.set (by omega) (fun height hlt => hinv.above height (by omega)) ?_
      have hbelow : block.height - 1 = s.blockCache.height := by omega
      rcases hinv.tip lastConfirmed hlast with ⟨htip, hhash⟩ | ⟨htip, below, hget, hhash⟩
      · exact Or.inl ⟨by omega, hnamed.trans hhash⟩
      · exact Or.inr ⟨below, by omega, by rw [hbelow]; exact hget, hnamed.trans hhash⟩
    · exact hinv.linked
  have hother : ∀ height, height ≠ block.height →
      (commitProposal env config.badBlocks (input.io 0) block s.ledger).1.blockStore.get height =
        s.ledger.blockStore.get height := by
    intro height hne
    rw [hstored]
    split
    · exact BlockStore.set_get_of_ne _ _ _ hne
    · rfl
  rcases hresult with ⟨-, hresult⟩ | ⟨hcommitted, hresult⟩
  · rw [hresult]
    refine ⟨hlinked, ?_, hbase, ?_, hinv.cached⟩
    · dsimp only
      intro height hlt
      rw [hother height (by omega)]
      exact hinv.above height hlt
    · dsimp only
      intro hash hhash
      rw [hother _ (by omega)]
      exact hinv.tip hash hhash
  · have hwritten : (input.io 0).storeWritten = true := by
      by_contra hnot
      rw [Bool.not_eq_true] at hnot
      unfold commitProposal at hcommitted
      dsimp only at hcommitted
      split at hcommitted
      · cases hcommitted
      · cases hcommitted
    rw [if_pos hwritten] at hstored
    rw [hresult]
    refine ⟨hlinked, ?_, ?_, ?_, ?_⟩
    · dsimp only
      rw [confirm_height]
      intro height hlt
      rw [hother height (by omega)]
      exact hinv.above height (by omega)
    · dsimp only
      rw [confirm_height]
      omega
    · dsimp only
      intro hash hhash
      unfold BlockCache.hash at hhash
      rw [confirm_height, confirm_lookup, if_neg (lt_irrefl _)] at hhash
      rw [confirm_height, hstored]
      rcases (insert_sub block).2 _ hash hhash with ⟨-, rfl⟩ | hold
      · refine Or.inr ⟨by omega, block, ?_, rfl⟩
        rw [← hnext]
        exact BlockStore.set_get_self _ _
      · rw [hinv.cached _ (by omega)] at hold
        cases hold
    · dsimp only
      rw [confirm_height]
      intro height hlt
      rw [confirm_lookup, if_neg (by omega)]
      cases hlookup : (s.blockCache.insert env block).blockHashHeights.lookup height with
      | none => rfl
      | some hash =>
        rcases (insert_sub block).2 height hash hlookup with ⟨heq, -⟩ | hold
        · omega
        · rw [hinv.cached height (by omega)] at hold
          cases hold

theorem validator_step (hmode : config.mode = Mode.validator) (s : Node D) (event : Event)
    (hinv : ValidatorInv env baseHash base s) :
    ValidatorInv env baseHash base (step env config s event) := by
  cases event with
  | receiveProposal block =>
    change ValidatorInv env baseHash base (receiveProposal env config block s)
    unfold receiveProposal
    rw [if_pos hmode]
    exact hinv
  | tick input =>
    change ValidatorInv env baseHash base (tick env config input s)
    unfold tick
    dsimp only
    split
    · have hnone : s.blockCache.getNextCommitBlock = none := by
        unfold BlockCache.getNextCommitBlock BlockCache.getByHeight
        rw [hinv.cached _ (by omega)]
        rfl
      rw [commitLoop, commitNext, hnone]
      exact hinv
    · split
      · exact hinv
      · rename_i lastConfirmed hlast
        exact validator_proposal input lastConfirmed _ s hinv hlast

end Validators

section Runs

variable {env : NodeEnv} {config : Config} {chain : ℕ → CryptoHash}
  {sets : Set (ℕ → List Address)} {messages : Set Bytes} {base : ℕ}

theorem ChainStart.linked {start : Node D}
    (hstart : ChainStart env config chain sets messages base start) :
    LinkedAbove env base (chain base) start.ledger.blockStore := by
  intro height block hlt hget
  rw [hstart.store height hlt] at hget
  cases hget

theorem ChainStart.validatorInv {start : Node D} (hmode : config.mode = Mode.validator)
    (hstart : ChainStart env config chain sets messages base start) :
    ValidatorInv env (chain base) base start := by
  have hheight := hstart.height
  have hcached := hstart.cached
  rw [if_pos hmode] at hcached
  obtain ⟨hhash, hempty⟩ := hcached
  refine ⟨hstart.linked, ?_, le_of_eq hheight.symm, ?_, ?_⟩
  · intro height hlt
    exact hstart.store height (by omega)
  · intro hash hconfirmed
    rw [hhash] at hconfirmed
    exact Or.inl ⟨hheight, (Option.some.inj hconfirmed).symm⟩
  · intro height hlt
    exact hempty height (by omega)

theorem ChainStart.followerInv {start : Node D} (hmode : config.mode ≠ Mode.validator)
    (hstart : ChainStart env config chain sets messages base start) :
    FollowerInv env config chain sets messages base start := by
  have hheight := hstart.height
  have hcached := hstart.cached
  rw [if_neg hmode] at hcached
  obtain ⟨htracks, hfollows⟩ := hcached
  refine ⟨hstart.linked, ?_, Or.inl hheight, htracks, ?_⟩
  · intro height hlt
    exact hstart.store height (by omega)
  · intro hash block hlookup hlt
    exact hfollows hash block hlookup (by omega)

theorem validator_run (hmode : config.mode = Mode.validator) (events : List Event)
    (s : Node D) (hinv : ValidatorInv env (chain base) base s) :
    ValidatorInv env (chain base) base (run env config s events) := by
  induction events generalizing s with
  | nil => exact hinv
  | cons event rest ih => exact ih _ (validator_step hmode s event hinv)

theorem follower_run (hkeccak : Set.InjOn env.keccak256 messages)
    (hmode : config.mode ≠ Mode.validator) (events : List Event) (s : Node D)
    (hinv : FollowerInv env config chain sets messages base s)
    (hchaining : ChainingRun env config chain sets messages s events) :
    FollowerInv env config chain sets messages base (run env config s events) := by
  induction events generalizing s with
  | nil => exact hinv
  | cons event rest ih =>
    obtain ⟨hfirst, hrest⟩ := hchaining
    exact ih _ (follower_step hkeccak hmode s event hinv hfirst) hrest

theorem chainingRun_append (before after : List Event) (s : Node D)
    (h : ChainingRun env config chain sets messages s (before ++ after)) :
    ChainingRun env config chain sets messages s before := by
  induction before generalizing s with
  | nil => trivial
  | cons event rest ih => exact ⟨h.1, ih _ h.2⟩

end Runs

/-- In every state of a run in which the blocks that arrive from their leaders form one
chain, every stored block names the hash of the block stored below it. -/
theorem chaining_run_linked (env : NodeEnv) (config : Config) (messages : Set Bytes)
    (hkeccak : Set.InjOn env.keccak256 messages) (chain : ℕ → CryptoHash)
    (sets : Set (ℕ → List Address)) (base : ℕ) (start : Node D)
    (hstart : ChainStart env config chain sets messages base start) (events : List Event)
    (hchaining : ChainingRun env config chain sets messages start events)
    (before after : List Event) (hsplit : events = before ++ after) :
    LinkedAbove env base (chain base) (run env config start before).ledger.blockStore := by
  have hbefore : ChainingRun env config chain sets messages start before := by
    rw [hsplit] at hchaining
    exact chainingRun_append before after start hchaining
  by_cases hmode : config.mode = Mode.validator
  · exact (validator_run hmode before start (hstart.validatorInv hmode)).linked
  · exact (follower_run hkeccak hmode before start (hstart.followerInv hmode) hbefore).linked

/-- A block at height two that names a hash no block has. -/
def strayBlock : Block :=
  ⟨⟨⟨2, 5#256, 0, 0#256, []⟩, ⟨0#256, []⟩⟩, Vector.replicate 65 0⟩

/-- A node commits a block that does not name the hash of the block it committed below. -/
theorem not_linked_after_stray_block :
    AtGenesis signedEnv genesisNode ∧
      ¬LinkedAbove signedEnv 0 (Block.genesis.hash signedEnv)
        (run signedEnv nodeConfig genesisNode [.receiveProposal emptyBlock,
          .receiveProposal strayBlock, .tick (tickWrites ⟨true, true⟩)]).ledger.blockStore := by
  have hstored : (run signedEnv nodeConfig genesisNode [.receiveProposal emptyBlock,
      .receiveProposal strayBlock, .tick (tickWrites ⟨true, true⟩)]).ledger.blockStore.get 2 =
        some strayBlock := rfl
  have hbelow : (run signedEnv nodeConfig genesisNode [.receiveProposal emptyBlock,
      .receiveProposal strayBlock, .tick (tickWrites ⟨true, true⟩)]).ledger.blockStore.get 1 =
        some emptyBlock := rfl
  refine ⟨genesisNode_atGenesis, fun hlinked => ?_⟩
  obtain ⟨-, hfirst | ⟨below, -, hget, hlast⟩⟩ := hlinked 2 strayBlock (by omega) hstored
  · omega
  · rw [show 2 - 1 = 1 from rfl, hbelow] at hget
    obtain rfl := Option.some.inj hget
    revert hlast
    decide

/-- Two blocks with leaves are stored: the first is linked to genesis, the second to it. -/
theorem linked_after_two_blocks :
    let s := run leafEnv nodeConfig leafNode leafEvents
    s.ledger.blockStore.get 2 = some secondLeaf ∧
      LinkedAbove leafEnv 0 0#256 s.ledger.blockStore := by
  obtain ⟨hgenesis, hfirst, hsecond⟩ := leafMessages_hashed
  let chain : ℕ → CryptoHash := fun height => BitVec.ofNat 256 height
  have hstart : ChainStart leafEnv nodeConfig chain {fun _ => [1#160]} leafMessages 0
      leafNode := by
    refine ⟨by decide, fun _ _ => rfl, ?_⟩
    rw [if_neg (by decide)]
    refine ⟨tracks_new Block.genesis 10000 hgenesis, ?_⟩
    intro hash block hlookup habove
    rcases (insert_sub Block.genesis).1 hash block hlookup with rfl | hold
    · exact absurd habove (by decide)
    · rw [AList.lookup_empty] at hold
      cases hold
  have hfollows : ∀ block, block = firstLeaf ∨ block = secondLeaf →
      Follows leafEnv nodeConfig chain {fun _ => [1#160]} block := by
    rintro block (rfl | rfl) validatorsForHeight rfl -
    · exact ⟨by decide, by decide⟩
    · exact ⟨by decide, by decide⟩
  refine ⟨by decide +kernel, ?_⟩
  apply chaining_run_linked leafEnv nodeConfig leafMessages injOn_leafMessages chain
    {fun _ => [1#160]} 0 leafNode hstart leafEvents ?_ _ [] (List.append_nil _).symm
  refine ⟨Or.inr ⟨hfirst, Or.inr (hfollows _ (Or.inl rfl))⟩,
    Or.inr ⟨hsecond, Or.inr (hfollows _ (Or.inr rfl))⟩, Or.inr ⟨rfl, ?_⟩, trivial⟩
  let s₂ := run leafEnv nodeConfig leafNode
    [.receiveProposal firstLeaf, .receiveProposal secondLeaf]
  have hturns : (pending s₂).card = 2 := by decide
  change EveryTurn leafEnv nodeConfig _ _ ((pending s₂).card + 1) _ s₂
  rw [hturns]
  exact ⟨fun _ _ _ => rfl, fun _ => ⟨fun _ _ _ => rfl, fun _ => ⟨fun _ _ _ => rfl,
    fun _ => trivial⟩⟩⟩

end PayyRollup.HashChain
