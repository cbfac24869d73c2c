import PayyRollup.MempoolBatches
import PayyRollup.NodeRuns

/-!
The proposal of a validator together with its mempool. A batch is leased to the height of the
block, its transactions are checked one after the other, and the block is built, checked,
committed and confirmed. A check that names a transaction drops that transaction and frees
the others. Two failures are not of that kind. A signature that is not the leader's drops the
whole batch, and a write that fails leaves the batch leased and perhaps the block stored. A
proposal that ends with an error leaves everything but the transactions at fault as it was
exactly when neither of them meets a valid transaction or changes the ledger.
-/
namespace PayyRollup.ProposalErrors

open KeyValueStore RollupState ScalarField SmirkTree NodeBlocks BlockCaches BlockValidation
  BlockCommit NodeAdmission Mempool MempoolState
open NodeRuns hiding createProposal createProposal_cases

/-- What a sender that waits for its transaction receives. -/
abbrev Answer := Except Error Block

structure Proposer (D : ℕ) (S : Type) where
  node : Node D
  mempool : MempoolState CryptoHash UtxoProof ℕ Element S

/-- What a proposal reads from outside. -/
structure ProposalInput where
  validatorsForHeight : ℕ → List Address
  io : CommitIo
  contract : ContractView
  blockTxnsCount : ℕ
  lastBlockHash : CryptoHash
  height : ℕ
  accepts : List NodeBlocks.Signature

variable {D : ℕ} {S : Type}

section Proposal

variable (env : NodeEnv) (config : Config)

/-- The leased transactions are validated in turn; a failure names the transaction. -/
def admitUtxos (contract : ContractView) (node : Node D) :
    List (CryptoHash × UtxoProof) → Outcome (CryptoHash × Error) Unit
  | [] => .ok ()
  | (_, txn) :: rest =>
      match validateTransaction env config.mode config.safeEthHeightOffset contract txn
        node.blockCache.height node.ledger.blockStore node.ledger.notesTree.tree with
      | .error .panic => .error .panic
      | .error (.err e) => .error (.err (txn.hash env, e))
      | .ok () => admitUtxos contract node rest

/-- The transaction an error of a block names. -/
def failingTxn : Error → Option CryptoHash
  | .leafAlreadyInsertedInTheSameBlock _ _ failingTxnHash => some failingTxnHash
  | .noteAlreadySpent _ failingTxnHash => some failingTxnHash
  | .utxoRootIsNotRecentEnough _ _ txnHash => some txnHash
  | _ => none

/-- Who gets the error of a block: the transaction it names, or every one of the block. -/
def errorResults (e : Error) (txns : List UtxoProof) : List (CryptoHash × Answer) :=
  match failingTxn e with
  | some txnHash => [(txnHash, .error e)]
  | none => txns.map fun txn => (txn.hash env, .error e)

def createProposal (input : ProposalInput) (order : Iteration CryptoHash) (self : Proposer D S) :
    Proposer D S × List (S × Answer) × Outcome Error Block :=
  match self.mempool.leaseBatch input.height input.blockTxnsCount with
  | (mempool, none) => (⟨self.node, mempool⟩, [], .error .panic)
  | (mempool, some utxos) =>
      match admitUtxos env config input.contract self.node utxos with
      | .error .panic => (⟨self.node, mempool⟩, [], .error .panic)
      | .error (.err (txnHash, e)) =>
          let freed := mempool.commit input.height [(txnHash, .error e)] order
          (⟨self.node, freed.1⟩, freed.2, .error (.err (.invalidTransaction txnHash)))
      | .ok () =>
          let txns := utxos.map Prod.snd
          match proposedBlock env config input.lastBlockHash input.height input.accepts txns
            self.node.ledger.notesTree.tree with
          | none => (⟨self.node, mempool⟩, [], .error .panic)
          | some block =>
              match validateBlock env config input.validatorsForHeight block self.node.ledger with
              | .error .panic => (⟨self.node, mempool⟩, [], .error .panic)
              | .error (.err e) =>
                  let freed := mempool.commit input.height (errorResults env e txns) order
                  (⟨self.node, freed.1⟩, freed.2, .error (.err e))
              | .ok () =>
                  let committed :=
                    commitProposal env config.badBlocks input.io block self.node.ledger
                  match committed.2 with
                  | .error failure =>
                      (⟨⟨self.node.blockCache, committed.1⟩, mempool⟩, [], .error failure)
                  | .ok () =>
                      let freed := mempool.commit input.height
                        (txns.map fun txn => (txn.hash env, .ok block)) order
                      (⟨⟨(self.node.blockCache.insert env block).confirm input.height,
                        committed.1⟩, freed.1⟩, freed.2, .ok block)

/-- How the mempool gets its transactions. -/
def FromUtxo (key : CryptoHash) (txn : MempoolTxn UtxoProof Element S) : Prop :=
  key = txn.txn.hash env ∧ txn.changes = txn.txn.leaves

/-- A transaction that passes its own checks: before the block, in the block, and by itself. -/
structure SelfValid (input : ProposalInput) (node : Node D) (txn : UtxoProof) : Prop where
  admitted : validateTransaction env config.mode config.safeEthHeightOffset input.contract txn
    node.blockCache.height node.ledger.blockStore node.ledger.notesTree.tree = .ok ()
  in_block : ValidTxn env config.mode txn input.height node.ledger.blockStore
    node.ledger.notesTree.tree
  distinct : (nonNull txn.leaves).Nodup

/-- A transaction that is leased to the height of the proposal once the batch is taken. -/
def IsLeased (input : ProposalInput) (self : Proposer D S) (k : CryptoHash)
    (txn : MempoolTxn UtxoProof Element S) : Prop :=
  self.mempool.txns.lookup k = some txn ∧
    k ∈ (self.mempool.leaseBatch input.height input.blockTxnsCount).1.held input.height

/-- What a failed proposal must leave: the ledger and the cache as they were, the valid leased
transactions in the pool again, and nothing dropped but what failed its own checks. -/
structure Restored (input : ProposalInput) (s s' : Proposer D S) : Prop where
  node : s'.node = s.node
  returned : ∀ k txn, IsLeased input s k txn → SelfValid env config input s.node txn.txn →
    s'.mempool.txns.lookup k = some txn ∧ k ∈ s'.mempool.pool ∧
      k ∉ s'.mempool.held input.height
  dropped : ∀ k txn, s.mempool.txns.lookup k = some txn → k ∉ s'.mempool.txns →
    ¬SelfValid env config input s.node txn.txn

/-- The new leaves of a block, as one batch for the tree. -/
def leafBatch (block : Block) (l : Ledger D) : Except CollisionError (Batch D) :=
  Batch.fromEntries D (newLeaves l.notesTree.tree block.content.state
    (decide (block.height ∈ config.badBlocks)))

/-- Two new leaves of the block share a slot, or one has the slot of an element of the tree. -/
def Collides (block : Block) (l : Ledger D) : Prop :=
  (∃ collisions, leafBatch config block l = .error collisions) ∨
    ∃ batch, leafBatch config block l = .ok batch ∧
      ∃ collisions, l.notesTree.tree.checkCollisions batch = .error collisions

/-- No valid transaction is leased to the height of the proposal. -/
def NoneLeased (input : ProposalInput) (s : Proposer D S) : Prop :=
  ∀ k txn, IsLeased input s k txn → ¬SelfValid env config input s.node txn.txn

/-- No failure of the block as a whole meets a valid transaction or changes the ledger. A refused
signature comes with a batch of invalid transactions; if the store cannot be written, no valid one
is leased; if it can, the tree is written with it, unless no leaf is new; and if the leaves
collide, the store had the block already and no valid transaction is leased. -/
structure NoBlockFailure (input : ProposalInput) (s : Proposer D S) (utxos : List UtxoProof)
    (block : Block) : Prop where
  signature : validateBlock env config input.validatorsForHeight block s.node.ledger =
      .error (.err .invalidSignature) →
    ∀ txn ∈ utxos, ¬SelfValid env config input s.node txn
  store : validateBlock env config input.validatorsForHeight block s.node.ledger = .ok () →
    input.io.storeWritten = false → NoneLeased env config input s
  tree : validateBlock env config input.validatorsForHeight block s.node.ledger = .ok () →
    input.io.storeWritten = true → ∀ batch inserted,
      leafBatch config block s.node.ledger = .ok batch →
      s.node.ledger.notesTree.tree.insertBatch env.poseidon batch = .ok inserted →
        batch.isEmpty = true ∨ input.io.treeWritten = true
  collisions : validateBlock env config input.validatorsForHeight block s.node.ledger = .ok () →
    input.io.storeWritten = true → Collides config block s.node.ledger →
      s.node.ledger.blockStore.set block = s.node.ledger.blockStore ∧
        NoneLeased env config input s

end Proposal

section Blame

variable {env : NodeEnv} (mode : Mode) (height : ℕ) (store : BlockStore) (tree : Tree D)

theorem validateTransaction_validTxn (offset : ℕ) (contract : ContractView) (utxo : UtxoProof)
    (h : validateTransaction env mode offset contract utxo height store tree = .ok ()) :
    ValidTxn env mode utxo height store tree := by
  rw [← validateTxn_ok]
  unfold validateTransaction at h
  split at h
  · cases hblock : query Error.failedToGetEthBlockNumber contract.blockNumber with
    | error failure => simp [hblock, bind, Except.bind] at h
    | ok ethBlock =>
      cases hcontract : checkContract contract (ethBlock - offset) utxo with
      | error failure => simp [hblock, hcontract, bind, Except.bind] at h
      | ok u => simpa [hblock, hcontract, bind, Except.bind] using h
  · exact h

/-- Of a transaction that passes the other checks, only the root can be refused. -/
theorem validateTxn_refused (utxo : UtxoProof) (hothers : PassesOtherChecks env utxo tree)
    (failure : Failure Error)
    (h : validateTxn env mode utxo height store tree = .error failure) :
    ∃ roots, failure =
      .err (.utxoRootIsNotRecentEnough utxo.recentRoot roots (utxo.hash env)) := by
  by_cases hrecent : utxo.recentRoot = 0#256 ∨ utxo.recentRoot ∈ recentRoots store height ∨
      mode.isProver = true
  · have hok := (validateTxn_ok mode utxo height store tree).mpr
      ((validTxn_iff mode utxo height store tree).mpr ⟨hrecent, hothers⟩)
    rw [hok] at h
    cases h
  · simp only [not_or, Bool.not_eq_true] at hrecent
    unfold validateTxn at h
    simp only [hothers.verified] at h
    rw [if_pos hrecent] at h
    cases h
    exact ⟨_, rfl⟩

/-- A leaf that is seen twice is named with the transaction it is seen in. -/
theorem insertLeaves_refused (txnHash : CryptoHash) (leaves : List Element) (known : TxnLeaves)
    (e : Error) (h : insertLeaves txnHash leaves known = .error e) :
    failingTxn e = some txnHash := by
  induction leaves generalizing known with
  | nil => cases h
  | cons leaf rest ih =>
    unfold insertLeaves at h
    split at h
    · exact ih known h
    · split at h
      · cases h
        rfl
      · exact ih _ h

/-- An error of the loop over transactions without a common leaf names one that does not pass
its own checks. -/
theorem validateTxns_blames (txns : List UtxoProof) (known : TxnLeaves)
    (hothers : ∀ txn ∈ txns, PassesOtherChecks env txn tree)
    (hapart : txns.Pairwise fun a b => ∀ c ∈ b.leaves, c ∉ a.leaves)
    (hknown : (known.map Prod.fst).Nodup)
    (hnew : ∀ txn ∈ txns, ∀ leaf ∈ txn.leaves, leaf ∉ known.map Prod.fst) (failure : Failure Error)
    (h : validateTxns env mode height store tree txns known = .error failure) :
    ∃ e, failure = .err e ∧ ∃ txn ∈ txns, failingTxn e = some (txn.hash env) ∧
      ¬(ValidTxn env mode txn height store tree ∧ (nonNull txn.leaves).Nodup) := by
  induction txns generalizing known with
  | nil => cases h
  | cons txn rest ih =>
    obtain ⟨hothersFirst, hothersRest⟩ := List.forall_mem_cons.mp hothers
    obtain ⟨hapartFirst, hapartRest⟩ := List.pairwise_cons.mp hapart
    obtain ⟨hnewFirst, hnewRest⟩ := List.forall_mem_cons.mp hnew
    rw [validateTxns] at h
    cases hinsert : insertLeaves (txn.hash env) txn.leaves known with
    | error e =>
      rw [hinsert] at h
      obtain rfl : Failure.err e = failure := by simpa [Except.mapError, bind, Except.bind] using h
      refine ⟨e, rfl, txn, List.mem_cons_self .., insertLeaves_refused _ _ _ _ hinsert, ?_⟩
      rintro ⟨-, hdistinct⟩
      have hok := (insertLeaves_ok (txn.hash env) txn.leaves known _ hknown).mpr ⟨?_, rfl⟩
      · rw [hok] at hinsert
        cases hinsert
      · refine List.nodup_append.mpr ⟨hknown, hdistinct, ?_⟩
        rintro a ha b hb rfl
        exact hnewFirst a ((mem_nonNull _ _).mp hb).1 ha
    | ok leaves =>
      obtain ⟨hnodup, rfl⟩ := (insertLeaves_ok _ _ known _ hknown).mp hinsert
      have hfst := map_fst_insertLeaves (txn.hash env) txn.leaves known
      rw [hinsert] at h
      cases htxn : validateTxn env mode txn height store tree with
      | error other =>
        obtain rfl : other = failure := by
          simpa [Except.mapError, bind, Except.bind, htxn] using h
        obtain ⟨roots, rfl⟩ := validateTxn_refused mode height store tree txn hothersFirst _ htxn
        refine ⟨_, rfl, txn, List.mem_cons_self .., rfl, ?_⟩
        rintro ⟨hvalid, -⟩
        rw [(validateTxn_ok mode txn height store tree).mpr hvalid] at htxn
        cases htxn
      | ok u =>
        simp only [Except.mapError, bind, Except.bind, htxn] at h
        have hnext : ∀ t ∈ rest, ∀ leaf ∈ t.leaves, leaf ∉ (known ++
            (nonNull txn.leaves).map fun leaf => (leaf, txn.hash env)).map Prod.fst := by
          intro t ht leaf hleaf
          rw [hfst, List.mem_append, not_or]
          refine ⟨hnewRest t ht leaf hleaf, fun hin => ?_⟩
          exact hapartFirst t ht leaf hleaf ((mem_nonNull _ _).mp hin).1
        obtain ⟨e, rfl, t, ht, hblames⟩ := ih _ hothersRest hapartRest (by rwa [hfst]) hnext h
        exact ⟨e, rfl, t, List.mem_cons_of_mem _ ht, hblames⟩

end Blame

section Steps

variable {env : NodeEnv} {config : Config} {input : ProposalInput}

theorem admitUtxos_ok (node : Node D) (utxos : List (CryptoHash × UtxoProof)) :
    admitUtxos env config input.contract node utxos = .ok () ↔
      ∀ entry ∈ utxos, validateTransaction env config.mode config.safeEthHeightOffset
        input.contract entry.2 node.blockCache.height node.ledger.blockStore
        node.ledger.notesTree.tree = .ok () := by
  induction utxos with
  | nil => simp [admitUtxos]
  | cons entry rest ih =>
    obtain ⟨key, txn⟩ := entry
    rw [List.forall_mem_cons, ← ih, admitUtxos]
    split
    · rename_i hpanic
      simp [hpanic]
    · rename_i herr
      simp [herr]
    · rename_i hok
      simp [hok]

/-- A rejected batch names a transaction that failed. -/
theorem admitUtxos_err (node : Node D) (utxos : List (CryptoHash × UtxoProof))
    (txnHash : CryptoHash) (e : Error)
    (h : admitUtxos env config input.contract node utxos = .error (.err (txnHash, e))) :
    ∃ entry ∈ utxos, txnHash = entry.2.hash env ∧
      ¬SelfValid env config input node entry.2 := by
  induction utxos with
  | nil => cases h
  | cons entry rest ih =>
    obtain ⟨key, txn⟩ := entry
    rw [admitUtxos] at h
    split at h
    · cases h
    · rename_i herr
      cases h
      refine ⟨(key, txn), List.mem_cons_self .., rfl, fun hvalid => ?_⟩
      rw [hvalid.admitted] at herr
      cases herr
    · obtain ⟨other, hother, hblames⟩ := ih h
      exact ⟨other, List.mem_cons_of_mem _ hother, hblames⟩

/-- The root of an own block is the one its validation computes. -/
theorem proposedBlock_root (txns : List UtxoProof) (tree : Tree D) (block : Block)
    (h : proposedBlock env config input.lastBlockHash input.height input.accepts txns tree =
      some block) :
    block.content.header.height = input.height ∧ block.content.state.txns = txns ∧
      newRootHash env tree block.content.state.leavesNonNull =
        some block.content.state.rootHash := by
  unfold proposedBlock at h
  obtain ⟨root, hroot, rfl⟩ := Option.map_eq_some_iff.mp h
  exact ⟨rfl, rfl, hroot⟩

/-- An own block is refused for its signature, or it names a transaction that fails its own
checks. -/
theorem validateBlock_blames (node : Node D) (utxos : List (CryptoHash × UtxoProof))
    (hadmitted : admitUtxos env config input.contract node utxos = .ok ())
    (hapart : utxos.Pairwise fun a b => ∀ c ∈ b.2.leaves, c ∉ a.2.leaves) (block : Block)
    (hblock : proposedBlock env config input.lastBlockHash input.height input.accepts
      (utxos.map Prod.snd) node.ledger.notesTree.tree = some block) (e : Error)
    (h : validateBlock env config input.validatorsForHeight block node.ledger =
      .error (.err e)) :
    e = .invalidSignature ∨ ∃ entry ∈ utxos, failingTxn e = some (entry.2.hash env) ∧
      ¬SelfValid env config input node entry.2 := by
  have hothers : ∀ txn ∈ utxos.map Prod.snd,
      PassesOtherChecks env txn node.ledger.notesTree.tree := by
    intro txn htxn
    obtain ⟨entry, hentry, rfl⟩ := List.mem_map.mp htxn
    have hvalid := validateTransaction_validTxn _ _ _ _ _ _ _
      ((admitUtxos_ok node utxos).mp hadmitted entry hentry)
    exact ((validTxn_iff _ _ _ _ _).mp hvalid).2
  obtain ⟨hheight, htxns, hroot⟩ := proposedBlock_root _ _ block hblock
  unfold validateBlock at h
  split at h
  · cases h
  · split at h
    · cases h
    · split at h
      · cases h
      · cases h
        exact Or.inl rfl
      · split at h
        · cases h
          exact Or.inl rfl
        · unfold validate at h
          rcases @validateTxns_cases D env config.mode block.content node.ledger.blockStore
            node.ledger.notesTree.tree with ⟨leaves, hrun, hkeys, -⟩ | ⟨failure, hrun, -⟩
          · simp [hrun, bind, Except.bind, hkeys, hroot] at h
          · rw [hrun] at h
            obtain rfl : failure = .err e := by simpa [bind, Except.bind] using h
            rw [hheight, htxns] at hrun
            obtain ⟨e', he, txn, htxn, hfails, hinvalid⟩ :=
              validateTxns_blames config.mode input.height node.ledger.blockStore
                node.ledger.notesTree.tree (utxos.map Prod.snd) [] hothers
                (hapart.map _ fun _ _ h => h) List.nodup_nil (by simp) _ hrun
            cases he
            obtain ⟨entry, hentry, rfl⟩ := List.mem_map.mp htxn
            exact Or.inr ⟨entry, hentry, hfails, fun h => hinvalid ⟨h.in_block, h.distinct⟩⟩

end Steps

section Frees

variable (s : MempoolState CryptoHash UtxoProof ℕ Element S) (lease : ℕ)

/-- A commit drops its own keys and gives the rest of the lease back. -/
theorem commit_frees (results : List (CryptoHash × Answer)) (order : Iteration CryptoHash) :
    let freed := (s.commit lease results order).1
    (∀ k, freed.txns.lookup k =
        if k ∈ results.map Prod.fst then none else s.txns.lookup k) ∧
      (∀ k ∈ s.held lease, k ∉ results.map Prod.fst → k ∈ freed.pool) ∧
      ∀ k, k ∉ freed.held lease := by
  intro freed
  obtain ⟨htxns, -, hheld⟩ := commitKeys_spec s lease results
  refine ⟨htxns, fun k hk hkept => ?_, fun k => ?_⟩
  · change k ∈ ((commitKeys lease s results).1.free lease order).pool
    rw [free_pool, List.mem_append, List.mem_reverse, order.mem]
    exact Or.inl ((hheld lease k).mpr ⟨hk, fun hin => hkept hin.2⟩)
  · change k ∉ ((commitKeys lease s results).1.free lease order).held lease
    rw [held_free, if_pos rfl]
    exact Finset.notMem_empty k

end Frees

section Refinement

variable {env : NodeEnv} {config : Config}

theorem admitLeased_eq (contract : ContractView) (node : Node D)
    (utxos : List (CryptoHash × UtxoProof)) :
    admitLeased env config contract node.blockCache.height node.ledger (utxos.map Prod.snd) =
      (admitUtxos env config contract node utxos).mapError
        (Failure.map fun failed => .invalidTransaction failed.1) := by
  induction utxos with
  | nil => rfl
  | cons entry rest ih =>
    obtain ⟨key, txn⟩ := entry
    rw [List.map_cons, admitLeased, admitUtxos]
    rcases validateTransaction env config.mode config.safeEthHeightOffset contract txn
      node.blockCache.height node.ledger.blockStore node.ledger.notesTree.tree with
      (e | ⟨⟩) | ⟨⟩
    · rfl
    · rfl
    · exact ih

/-- Apart from the mempool, a proposal is the one of a node that is given the batch. -/
theorem createProposal_node (input : ProposalInput) (order : Iteration CryptoHash)
    (s : Proposer D S) (utxos : List (CryptoHash × UtxoProof))
    (hbatch : (s.mempool.leaseBatch input.height input.blockTxnsCount).2 = some utxos) :
    let own := createProposal env config input order s
    let given := NodeRuns.createProposal env config ⟨input.validatorsForHeight,
      fun _ => input.io, utxos.map Prod.snd, input.contract⟩ input.lastBlockHash input.height
      input.accepts s.node
    own.1.node = given.1 ∧ own.2.2.map (fun _ => ()) = given.2 := by
  intro own given
  rcases hlease : s.mempool.leaseBatch input.height input.blockTxnsCount with
    ⟨mempool, _ | others⟩
  · rw [hlease] at hbatch
    cases hbatch
  rw [hlease] at hbatch
  obtain rfl := Option.some.inj hbatch
  have hadmitted := @admitLeased_eq D env config input.contract s.node others
  rcases hpassed : admitUtxos env config input.contract s.node others with (⟨txnHash, e⟩ | ⟨⟩) | ⟨⟩
  · rw [hpassed] at hadmitted
    simp only [own, given, createProposal, NodeRuns.createProposal, hlease, hpassed, hadmitted,
      Except.mapError, Failure.map]
    exact ⟨trivial, rfl⟩
  · rw [hpassed] at hadmitted
    simp only [own, given, createProposal, NodeRuns.createProposal, hlease, hpassed, hadmitted,
      Except.mapError, Failure.map]
    exact ⟨trivial, rfl⟩
  rw [hpassed] at hadmitted
  rcases hblock : proposedBlock env config input.lastBlockHash input.height input.accepts
    (others.map Prod.snd) s.node.ledger.notesTree.tree with _ | block
  · simp only [own, given, createProposal, NodeRuns.createProposal, hlease, hpassed, hadmitted,
      Except.mapError, hblock]
    exact ⟨trivial, rfl⟩
  rcases hvalid : validateBlock env config input.validatorsForHeight block s.node.ledger with
    (e | ⟨⟩) | ⟨⟩
  · simp only [own, given, createProposal, NodeRuns.createProposal, hlease, hpassed, hadmitted,
      Except.mapError, hblock, hvalid]
    exact ⟨trivial, rfl⟩
  · simp only [own, given, createProposal, NodeRuns.createProposal, hlease, hpassed, hadmitted,
      Except.mapError, hblock, hvalid]
    exact ⟨trivial, rfl⟩
  · simp only [own, given, createProposal, NodeRuns.createProposal, hlease, hpassed, hadmitted,
      Except.mapError, hblock, hvalid]
    rcases (commitProposal env config.badBlocks input.io block s.node.ledger).2 with
      failure | ⟨⟩
    · exact ⟨rfl, rfl⟩
    · exact ⟨rfl, rfl⟩

end Refinement

section Leaves

variable {env : NodeEnv} {config : Config}

/-- Leaves that collide are not inserted. -/
theorem Collides.insertBatch {block : Block} {l : Ledger D} (h : Collides config block l)
    (batch : Batch D) (inserted : Tree D) (hbatch : leafBatch config block l = .ok batch) :
    l.notesTree.tree.insertBatch env.poseidon batch ≠ .ok inserted := by
  rcases h with ⟨collisions, herror⟩ | ⟨other, hother, collisions, hcollisions⟩
  · cases hbatch.symm.trans herror
  · obtain rfl := Except.ok.inj (hbatch.symm.trans hother)
    intro hinserted
    rw [Tree.insertBatch, hcollisions] at hinserted
    cases hinserted

/-- How the leaves of a block get into the tree: they collide and the tree stays, the tree is not
written and has them only in memory, or there is no error. -/
theorem applyBlockToTree_ends (block : Block) (l : Ledger D) (written : Bool)
    (hfresh : ¬(decide (block.height ∈ config.badBlocks) = false ∧
      block.content.state.leavesNonNull.any l.notesTree.tree.containsElement = true)) :
    let applied := applyBlockToTree env l.notesTree block.content.state
      (decide (block.height ∈ config.badBlocks)) written
    (Collides config block l ∧ ∃ e, applied = (l.notesTree, .error (.err e))) ∨
    ¬Collides config block l ∧
      ((∃ batch inserted e, leafBatch config block l = .ok batch ∧
        l.notesTree.tree.insertBatch env.poseidon batch = .ok inserted ∧
        batch.isEmpty = false ∧ written = false ∧
        applied = (⟨inserted, l.notesTree.db⟩, .error (.err e))) ∨
      (∀ batch inserted, leafBatch config block l = .ok batch →
        l.notesTree.tree.insertBatch env.poseidon batch = .ok inserted →
          batch.isEmpty = true ∨ written = true) ∧
        ∀ e, applied.2 ≠ .error (.err e)) := by
  intro applied
  cases hbatch : leafBatch config block l with
  | error collisions =>
    refine Or.inl ⟨Or.inl ⟨collisions, hbatch⟩, .collision collisions, ?_⟩
    rw [leafBatch] at hbatch
    simp only [applied, applyBlockToTree, if_neg hfresh, hbatch]
  | ok batch =>
    have happlied : applied = ((l.notesTree.insertBatch env.poseidon batch written).1,
        (l.notesTree.insertBatch env.poseidon batch written).2.mapError
          (Failure.map Error.smirk)) := by
      rw [leafBatch] at hbatch
      simp only [applied, applyBlockToTree, if_neg hfresh, hbatch]
    have hcollides : Collides config block l ↔
        ∃ collisions, l.notesTree.tree.checkCollisions batch = .error collisions := by
      simp [Collides, hbatch]
    rcases @Persistent.insertBatch_ends D env.poseidon l.notesTree batch written with
      ⟨collisions, hcheck, hinserted⟩ | ⟨hcheck, hends⟩
    · refine Or.inl ⟨hcollides.mpr ⟨collisions, hcheck⟩, .smirk (.collision collisions), ?_⟩
      rw [happlied, hinserted]
      rfl
    · refine Or.inr ⟨fun h => ?_, ?_⟩
      · obtain ⟨collisions, hcollisions⟩ := hcollides.mp h
        cases hcheck.symm.trans hcollisions
      rcases hends with ⟨inserted, htree, hempty, hwritten, hinserted⟩ | ⟨hall, hnone⟩
      · refine Or.inl ⟨batch, inserted, .smirk .rocksdb, rfl, htree, hempty, hwritten, ?_⟩
        rw [happlied, hinserted]
        rfl
      · refine Or.inr ⟨?_, fun e he => ?_⟩
        · rintro other inserted ⟨rfl⟩ htree
          exact hall inserted htree
        · rw [happlied] at he
          cases houtcome : (l.notesTree.insertBatch env.poseidon batch written).2 with
          | ok u =>
            rw [houtcome] at he
            cases he
          | error failure =>
            cases failure with
            | err storage => exact hnone storage houtcome
            | panic =>
              rw [houtcome] at he
              cases he

end Leaves

section Restoring

variable {env : NodeEnv} {config : Config} {input : ProposalInput} (s : Proposer D S)

/-- A commit of transactions that fail their own checks restores the rest. -/
theorem commit_restores (mempool : MempoolState CryptoHash UtxoProof ℕ Element S)
    (hlease : (s.mempool.leaseBatch input.height input.blockTxnsCount).1 = mempool)
    (results : List (CryptoHash × Answer)) (order : Iteration CryptoHash)
    (hfails : ∀ k ∈ results.map Prod.fst, ∀ txn, s.mempool.txns.lookup k = some txn →
      ¬SelfValid env config input s.node txn.txn) :
    Restored env config input s
      ⟨s.node, (mempool.commit input.height results order).1⟩ := by
  have hsame : mempool.txns = s.mempool.txns := by
    rw [← hlease]
    exact leaseBatch_txns _ _ _
  obtain ⟨htxns, hpool, hheld⟩ := commit_frees mempool input.height results order
  rw [hsame] at htxns
  refine ⟨rfl, ?_, ?_⟩
  · rintro k txn ⟨hlookup, hleased⟩ hvalid
    have hkept : k ∉ results.map Prod.fst := fun hin => hfails k hin txn hlookup hvalid
    rw [hlease] at hleased
    refine ⟨?_, hpool k hleased hkept, hheld k⟩
    rw [htxns, if_neg hkept]
    exact hlookup
  · intro k txn hlookup hgone
    by_cases hin : k ∈ results.map Prod.fst
    · exact hfails k hin txn hlookup
    · refine absurd ?_ hgone
      rw [Finmap.mem_iff]
      refine ⟨txn, ?_⟩
      rw [htxns, if_neg hin]
      exact hlookup

/-- The transaction of a batch is found under its hash. -/
theorem lookup_batch (hadded : Added (FromUtxo env) s.mempool.txns) (maxCount : ℕ)
    (utxos : List (CryptoHash × UtxoProof))
    (hbatch : (s.mempool.leaseBatch input.height maxCount).2 = some utxos)
    (entry : CryptoHash × UtxoProof) (hentry : entry ∈ utxos) :
    ∃ txn, s.mempool.txns.lookup (entry.2.hash env) = some txn ∧ txn.txn = entry.2 := by
  obtain ⟨-, htheirs⟩ := leaseBatch_taking s.mempool
    (fun k txn h => (hadded k txn h).2) input.height maxCount utxos hbatch
  obtain ⟨txn, hlookup, htxn⟩ := htheirs entry hentry
  refine ⟨txn, ?_, htxn⟩
  rw [← htxn, ← (hadded _ _ hlookup).1]
  exact hlookup

/-- A refused signature drops the whole batch. -/
theorem signature_restores_iff (hadded : Added (FromUtxo env) s.mempool.txns)
    (mempool : MempoolState CryptoHash UtxoProof ℕ Element S)
    (utxos : List (CryptoHash × UtxoProof))
    (hlease : s.mempool.leaseBatch input.height input.blockTxnsCount = (mempool, some utxos))
    (order : Iteration CryptoHash) :
    Restored env config input s ⟨s.node, (mempool.commit input.height
        (errorResults env .invalidSignature (utxos.map Prod.snd)) order).1⟩ ↔
      ∀ txn ∈ utxos.map Prod.snd, ¬SelfValid env config input s.node txn := by
  have hlookup := lookup_batch s hadded input.blockTxnsCount utxos (by rw [hlease])
  have hkeys : ∀ k, k ∈ (errorResults env .invalidSignature (utxos.map Prod.snd)).map Prod.fst ↔
      ∃ entry ∈ utxos, entry.2.hash env = k := by
    intro k
    simp [errorResults, failingTxn]
  constructor
  · intro h txn htxn
    obtain ⟨entry, hentry, rfl⟩ := List.mem_map.mp htxn
    obtain ⟨own, hown, heq⟩ := hlookup entry hentry
    rw [← heq]
    refine h.dropped _ own hown ?_
    have hgone := (commit_frees mempool input.height
      (errorResults env .invalidSignature (utxos.map Prod.snd)) order).1 (entry.2.hash env)
    rw [if_pos ((hkeys _).mpr ⟨entry, hentry, rfl⟩)] at hgone
    exact Finmap.lookup_eq_none.mp hgone
  · intro h
    refine commit_restores s mempool (by rw [hlease]) _ order fun k hk txn htxn => ?_
    obtain ⟨entry, hentry, rfl⟩ := (hkeys k).mp hk
    obtain ⟨own, hown, heq⟩ := hlookup entry hentry
    obtain rfl := Option.some.inj (htxn.symm.trans hown)
    rw [heq]
    exact h _ (List.mem_map_of_mem hentry)

/-- An error that names an invalid transaction of the batch restores the rest. -/
theorem named_restores (hadded : Added (FromUtxo env) s.mempool.txns)
    (mempool : MempoolState CryptoHash UtxoProof ℕ Element S)
    (utxos : List (CryptoHash × UtxoProof))
    (hlease : s.mempool.leaseBatch input.height input.blockTxnsCount = (mempool, some utxos))
    (order : Iteration CryptoHash) (entry : CryptoHash × UtxoProof) (hentry : entry ∈ utxos)
    (hinvalid : ¬SelfValid env config input s.node entry.2) (e : Error) :
    Restored env config input s
      ⟨s.node, (mempool.commit input.height [(entry.2.hash env, (.error e : Answer))]
        order).1⟩ := by
  refine commit_restores s mempool (by rw [hlease]) _ order fun k hk txn htxn => ?_
  obtain rfl : k = entry.2.hash env := by simpa using hk
  obtain ⟨own, hown, heq⟩ :=
    lookup_batch s hadded input.blockTxnsCount utxos (by rw [hlease]) entry hentry
  obtain rfl := Option.some.inj (htxn.symm.trans hown)
  rwa [heq]

/-- A failed write restores what it did not touch, and no leased transaction. -/
theorem write_restores_iff (mempool : MempoolState CryptoHash UtxoProof ℕ Element S)
    (hlease : (s.mempool.leaseBatch input.height input.blockTxnsCount).1 = mempool)
    (ledger : Ledger D) :
    Restored env config input s ⟨⟨s.node.blockCache, ledger⟩, mempool⟩ ↔
      ledger = s.node.ledger ∧
        ∀ k txn, IsLeased input s k txn → ¬SelfValid env config input s.node txn.txn := by
  constructor
  · intro h
    refine ⟨congrArg Node.ledger h.node, fun k txn hleased hvalid => ?_⟩
    obtain ⟨-, -, hfree⟩ := h.returned k txn hleased hvalid
    rw [IsLeased, hlease] at hleased
    exact hfree hleased.2
  · rintro ⟨rfl, hnone⟩
    refine ⟨rfl, fun k txn hleased hvalid => absurd hvalid (hnone k txn hleased), ?_⟩
    intro k txn hlookup hgone
    refine absurd ?_ hgone
    rw [← hlease, leaseBatch_txns, Finmap.mem_iff]
    exact ⟨txn, hlookup⟩

/-- A check that fails for another reason than the signature is no failure of the block. -/
theorem noBlockFailure_error_iff (utxos : List UtxoProof) (block : Block)
    (failure : Failure Error)
    (hvalid : validateBlock env config input.validatorsForHeight block s.node.ledger =
      .error failure) :
    NoBlockFailure env config input s utxos block ↔
      (failure = .err .invalidSignature →
        ∀ txn ∈ utxos, ¬SelfValid env config input s.node txn) := by
  have hnever : ¬validateBlock env config input.validatorsForHeight block s.node.ledger =
      .ok () := by
    rw [hvalid]
    nofun
  constructor
  · rintro h rfl
    exact h.signature hvalid
  · intro h
    refine ⟨fun hsignature => h ?_, fun hok => absurd hok hnever, fun hok => absurd hok hnever,
      fun hok => absurd hok hnever⟩
    exact Except.error.inj (hvalid.symm.trans hsignature)

section Accepted

variable (mempool : MempoolState CryptoHash UtxoProof ℕ Element S)
  (utxos : List (CryptoHash × UtxoProof))
  (hlease : s.mempool.leaseBatch input.height input.blockTxnsCount = (mempool, some utxos))
  (hpassed : admitUtxos env config input.contract s.node utxos = .ok ()) (block : Block)
  (hblock : proposedBlock env config input.lastBlockHash input.height input.accepts
    (utxos.map Prod.snd) s.node.ledger.notesTree.tree = some block)
  (hvalid : validateBlock env config input.validatorsForHeight block s.node.ledger = .ok ())
  (order : Iteration CryptoHash)

include hlease hpassed hblock hvalid

/-- After the block is accepted, an error is that of its commit. -/
theorem accepted_err (e : Error)
    (herr : (createProposal env config input order s).2.2 = .error (.err e)) :
    (commitProposal env config.badBlocks input.io block s.node.ledger).2 = .error (.err e) := by
  cases hcommit : (commitProposal env config.badBlocks input.io block s.node.ledger).2 with
  | ok u => simp [createProposal, hlease, hpassed, hblock, hvalid, hcommit] at herr
  | error failure =>
    simp only [createProposal, hlease, hpassed, hblock, hvalid, hcommit] at herr
    rw [Except.error.inj herr]

/-- A commit that fails restores what it did not touch, and no leased transaction. -/
theorem failed_restores_iff (e : Error) (ledger : Ledger D)
    (hcommit : commitProposal env config.badBlocks input.io block s.node.ledger =
      (ledger, .error (.err e))) :
    (∀ e, (createProposal env config input order s).2.2 = .error (.err e) →
        Restored env config input s (createProposal env config input order s).1) ↔
      ledger = s.node.ledger ∧ NoneLeased env config input s := by
  have hrun : createProposal env config input order s =
      (⟨⟨s.node.blockCache, ledger⟩, mempool⟩, [], .error (.err e)) := by
    simp only [createProposal, hlease, hpassed, hblock, hvalid, hcommit]
  rw [hrun, NoneLeased, ← write_restores_iff s mempool (by rw [hlease]) ledger]
  exact ⟨fun h => h e rfl, fun h _ _ => h⟩

/-- After the block is accepted, an error is a write that failed or a collision. -/
theorem accepted_restores_iff :
    (∀ e, (createProposal env config input order s).2.2 = .error (.err e) →
        Restored env config input s (createProposal env config input order s).1) ↔
      NoBlockFailure env config input s (utxos.map Prod.snd) block := by
  have hfails := failed_restores_iff s mempool utxos hlease hpassed block hblock hvalid order
  have hcommit := commitProposal_validated _ block input.io s.node.ledger hvalid
  have hsigned : ¬validateBlock env config input.validatorsForHeight block s.node.ledger =
      .error (.err .invalidSignature) := by
    rw [hvalid]
    nofun
  cases hstore : input.io.storeWritten with
  | false =>
    rw [if_pos hstore] at hcommit
    have hunstored : ¬input.io.storeWritten = true := by simp [hstore]
    rw [hfails _ _ hcommit]
    refine ⟨fun h => ⟨fun h' => absurd h' hsigned, fun _ _ => h.2,
      fun _ h' => absurd h' hunstored, fun _ h' => absurd h' hunstored⟩, fun h => ⟨rfl, ?_⟩⟩
    exact h.store hvalid hstore
  | true =>
    have hstored : ¬input.io.storeWritten = false := by simp [hstore]
    rw [if_neg hstored] at hcommit
    rcases @applyBlockToTree_ends D env config block s.node.ledger input.io.treeWritten
      (validateBlock_fresh _ _ _ hvalid) with ⟨hcollides, e, happlied⟩ |
      ⟨hfree, ⟨batch, inserted, e, hbatch, hinserted, hempty, hunwritten, happlied⟩ |
        ⟨hall, hnone⟩⟩
    · rw [happlied] at hcommit
      rw [hfails e _ hcommit]
      constructor
      · rintro ⟨hledger, hnone⟩
        refine ⟨fun h => absurd h hsigned, fun _ h => absurd h hstored,
          fun _ _ batch inserted hbatch hinserted => ?_, fun _ _ _ => ?_⟩
        · exact absurd hinserted (hcollides.insertBatch batch inserted hbatch)
        · exact ⟨congrArg Ledger.blockStore hledger, hnone⟩
      · intro h
        obtain ⟨hset, hnone⟩ := h.collisions hvalid hstore hcollides
        exact ⟨by rw [hset], hnone⟩
    · rw [happlied] at hcommit
      rw [hfails e _ hcommit]
      refine iff_of_false (fun h => ?_) fun h => ?_
      · have htree := congrArg (fun l => l.notesTree.tree) h.1
        exact Tree.insertBatch_ne batch inserted hempty hinserted htree
      · rcases h.tree hvalid hstore batch inserted hbatch hinserted with h' | h'
        · rw [hempty] at h'
          cases h'
        · rw [hunwritten] at h'
          cases h'
    · refine iff_of_true (fun e herr => ?_) ⟨fun h => absurd h hsigned,
        fun _ h => absurd h hstored, fun _ _ => hall, fun _ _ h => absurd h hfree⟩
      have herror := accepted_err s mempool utxos hlease hpassed block hblock hvalid order e herr
      rw [hcommit] at herror
      exact absurd herror (hnone e)

end Accepted

/-- After a block is built, an error is its own fault or a failed write. -/
theorem block_restores_iff (hadded : Added (FromUtxo env) s.mempool.txns)
    (mempool : MempoolState CryptoHash UtxoProof ℕ Element S)
    (utxos : List (CryptoHash × UtxoProof))
    (hlease : s.mempool.leaseBatch input.height input.blockTxnsCount = (mempool, some utxos))
    (hpassed : admitUtxos env config input.contract s.node utxos = .ok ()) (block : Block)
    (hblock : proposedBlock env config input.lastBlockHash input.height input.accepts
      (utxos.map Prod.snd) s.node.ledger.notesTree.tree = some block)
    (order : Iteration CryptoHash) :
    (∀ e, (createProposal env config input order s).2.2 = .error (.err e) →
        Restored env config input s (createProposal env config input order s).1) ↔
      NoBlockFailure env config input s (utxos.map Prod.snd) block := by
  rcases hvalid : validateBlock env config input.validatorsForHeight block s.node.ledger with
    (e | ⟨⟩) | ⟨⟩
  · have hrun : createProposal env config input order s = (⟨s.node, (mempool.commit input.height
        (errorResults env e (utxos.map Prod.snd)) order).1⟩, (mempool.commit input.height
        (errorResults env e (utxos.map Prod.snd)) order).2, .error (.err e)) := by
      simp only [createProposal, hlease, hpassed, hblock, hvalid]
    rw [hrun, noBlockFailure_error_iff s _ block (.err e) hvalid]
    obtain ⟨hapart, -⟩ := leaseBatch_taking s.mempool (fun k txn h => (hadded k txn h).2) _ _
      utxos (by rw [hlease])
    rcases validateBlock_blames s.node utxos hpassed hapart block hblock e hvalid with
      rfl | ⟨entry, hentry, hfails, hinvalid⟩
    · have hsignature := @signature_restores_iff D S env config input s hadded mempool
        utxos hlease order
      exact ⟨fun h _ => hsignature.mp (h _ rfl), fun h _ _ => hsignature.mpr (h rfl)⟩
    · have hresults : errorResults env e (utxos.map Prod.snd) =
          [(entry.2.hash env, .error e)] := by
        rw [errorResults, hfails]
      rw [hresults]
      refine iff_of_true (fun _ _ => ?_) ?_
      · exact named_restores s hadded mempool utxos hlease order entry hentry hinvalid e
      · rintro ⟨⟩
        cases hfails
  · rw [noBlockFailure_error_iff s _ block .panic hvalid]
    refine iff_of_true (fun e herr => ?_) nofun
    simp [createProposal, hlease, hpassed, hblock, hvalid] at herr
  · exact accepted_restores_iff s mempool utxos hlease hpassed block hblock hvalid order

end Restoring

/-- A proposal that ends with an error restores everything but the transactions at fault
exactly when no failure of the block as a whole meets a valid one or changes the ledger. -/
theorem createProposal_restores_iff (env : NodeEnv) (config : Config) (input : ProposalInput)
    (order : Iteration CryptoHash) (s : Proposer D S)
    (hadded : Added (FromUtxo env) s.mempool.txns) :
    (∀ e, (createProposal env config input order s).2.2 = .error (.err e) →
        Restored env config input s (createProposal env config input order s).1) ↔
      ∀ utxos block,
        (s.mempool.leaseBatch input.height input.blockTxnsCount).2 = some utxos →
        admitUtxos env config input.contract s.node utxos = .ok () →
        proposedBlock env config input.lastBlockHash input.height input.accepts
          (utxos.map Prod.snd) s.node.ledger.notesTree.tree = some block →
        NoBlockFailure env config input s (utxos.map Prod.snd) block := by
  rcases hlease : s.mempool.leaseBatch input.height input.blockTxnsCount with
    ⟨mempool, _ | utxos⟩
  · simp [createProposal, hlease]
  rcases hpassed : admitUtxos env config input.contract s.node utxos with (⟨txnHash, e⟩ | ⟨⟩) | ⟨⟩
  · refine iff_of_true (fun _ _ => ?_) ?_
    · obtain ⟨entry, hentry, rfl, hinvalid⟩ := admitUtxos_err s.node utxos txnHash e hpassed
      simp only [createProposal, hlease, hpassed]
      exact named_restores s hadded mempool utxos hlease order entry hentry hinvalid e
    · rintro _ block ⟨rfl⟩ hok
      rw [hpassed] at hok
      cases hok
  · refine iff_of_true (fun _ herr => ?_) ?_
    · simp [createProposal, hlease, hpassed] at herr
    · rintro _ block ⟨rfl⟩ hok
      rw [hpassed] at hok
      cases hok
  · rcases hblock : proposedBlock env config input.lastBlockHash input.height input.accepts
      (utxos.map Prod.snd) s.node.ledger.notesTree.tree with _ | block
    · refine iff_of_true (fun _ herr => ?_) ?_
      · simp [createProposal, hlease, hpassed, hblock] at herr
      · rintro _ block ⟨rfl⟩ - hsome
        rw [hblock] at hsome
        cases hsome
    · rw [block_restores_iff s hadded mempool utxos hlease hpassed block hblock order]
      constructor
      · rintro h _ other ⟨rfl⟩ - hother
        obtain rfl := Option.some.inj (hblock.symm.trans hother)
        exact h
      · exact fun h => h utxos block rfl hpassed hblock

/-- Every signature is that of the node 1, and every proof is as given. -/
def ownEnv (verdict : Bool) : NodeEnv where
  keccak256 := fun _ => 0#256
  poseidon := fun _ => 0
  verifyProof := fun _ _ => some verdict
  recoverEcdsa := fun _ _ _ _ => some 1#160

def ownConfig : Config :=
  ⟨Mode.validator, [], 0, 1#160, fun _ => Vector.replicate 65 0⟩

/-- A proposal for the first block, with these validators. -/
def firstInput (validators : List Address) : ProposalInput :=
  ⟨fun _ => validators, ⟨true, true⟩, ⟨none, fun _ _ => none, fun _ _ => none⟩, 6, 0#256, 1, []⟩

def oneOutput : UtxoProof := ⟨0#256, 0#256, 0#256, (0#256, 0#256), (5#256, 0#256), []⟩

/-- A node at genesis with one transaction in its pool. -/
def firstProposer : Proposer 161 Unit where
  node := ⟨BlockCache.new (ownEnv true) Block.genesis 10000, freshLedger 161⟩
  mempool := run default [.add (R := Unit) 0#256 ⟨oneOutput, none, oneOutput.leaves⟩]

theorem firstProposer_added (verdict : Bool) :
    Added (FromUtxo (ownEnv verdict)) firstProposer.mempool.txns := by
  refine run_added (R := Unit) _ _ fun action hin => ?_
  obtain rfl := List.mem_singleton.mp hin
  exact ⟨rfl, rfl⟩

def anyOrder : Iteration CryptoHash where
  list := fun s => s.sort (· ≤ ·)
  nodup := fun s => s.sort_nodup (· ≤ ·)
  mem := fun s _ => s.mem_sort (· ≤ ·)

theorem firstProposer_batch : (firstProposer.mempool.leaseBatch 1 6).2 =
    some [(0#256, oneOutput)] := by decide

/-- A transaction whose proof fails is dropped. -/
theorem createProposal_rejected : Added (FromUtxo (ownEnv false)) firstProposer.mempool.txns ∧
    ∀ e, (createProposal (ownEnv false) ownConfig (firstInput [1#160]) anyOrder
        firstProposer).2.2 = .error (.err e) →
      Restored (ownEnv false) ownConfig (firstInput [1#160]) firstProposer
        (createProposal (ownEnv false) ownConfig (firstInput [1#160]) anyOrder
          firstProposer).1 := by
  refine ⟨firstProposer_added false, (createProposal_restores_iff (ownEnv false) ownConfig
    (firstInput [1#160]) anyOrder firstProposer (firstProposer_added false)).mpr ?_⟩
  intro utxos block hbatch hpassed
  obtain rfl := Option.some.inj (firstProposer_batch.symm.trans hbatch)
  cases hpassed

theorem oneOutput_valid (validators : List Address) :
    SelfValid (ownEnv true) ownConfig (firstInput validators) firstProposer.node oneOutput := by
  refine ⟨rfl, ⟨rfl, Or.inl rfl, ?_, fun _ _ _ => rfl⟩, by decide⟩
  intro leaf hleaf
  simp only [UtxoProof.leaves, oneOutput, List.mem_cons, List.not_mem_nil, or_false] at hleaf
  rcases hleaf with rfl | rfl | rfl | rfl
  all_goals norm_num [modulus]

/-- The leader is the node 2, so the own block of the node 1 is refused, and the valid
transaction is dropped with it. -/
theorem not_restores_refused : Added (FromUtxo (ownEnv true)) firstProposer.mempool.txns ∧
    SelfValid (ownEnv true) ownConfig (firstInput [1#160, 2#160]) firstProposer.node oneOutput ∧
    (createProposal (ownEnv true) ownConfig (firstInput [1#160, 2#160]) anyOrder
      firstProposer).2.2 = .error (.err .invalidSignature) ∧
    ¬∀ e, (createProposal (ownEnv true) ownConfig (firstInput [1#160, 2#160]) anyOrder
        firstProposer).2.2 = .error (.err e) →
      Restored (ownEnv true) ownConfig (firstInput [1#160, 2#160]) firstProposer
        (createProposal (ownEnv true) ownConfig (firstInput [1#160, 2#160]) anyOrder
          firstProposer).1 := by
  have hbatch : (firstProposer.mempool.leaseBatch (firstInput [1#160, 2#160]).height
      (firstInput [1#160, 2#160]).blockTxnsCount).2 = some [(0#256, oneOutput)] :=
    firstProposer_batch
  have hpassed : admitUtxos (ownEnv true) ownConfig (firstInput [1#160, 2#160]).contract
      firstProposer.node [(0#256, oneOutput)] = .ok () := rfl
  have hroot : ∃ root, newRootHash (ownEnv true) firstProposer.node.ledger.notesTree.tree
      [5#256] = some root := by
    have hnew : (Tree.new 161).Valid (ownEnv true).poseidon := Tree.new_valid
    refine ⟨_, (newRootHash_eq_some hnew _ _).mpr ⟨?_, rfl⟩⟩
    rw [SparseMerkle.not_crowded_iff]
    exact List.pairwise_singleton _ _
  obtain ⟨root, hroot⟩ := hroot
  obtain ⟨block, hblock, hrefused⟩ : ∃ block, proposedBlock (ownEnv true) ownConfig
      (firstInput [1#160, 2#160]).lastBlockHash (firstInput [1#160, 2#160]).height
      (firstInput [1#160, 2#160]).accepts [oneOutput]
      firstProposer.node.ledger.notesTree.tree = some block ∧
      validateBlock (ownEnv true) ownConfig (firstInput [1#160, 2#160]).validatorsForHeight block
        firstProposer.node.ledger = .error (.err .invalidSignature) := by
    refine ⟨⟨⟨⟨1, 0#256, 0, 0#256, []⟩, ⟨root, [oneOutput]⟩⟩, Vector.replicate 65 0⟩, ?_, rfl⟩
    have hleaves : nonNull ([oneOutput].flatMap UtxoProof.leaves) = [5#256] := by decide
    rw [proposedBlock, hleaves, hroot]
    rfl
  have hlease : firstProposer.mempool.leaseBatch (firstInput [1#160, 2#160]).height
      (firstInput [1#160, 2#160]).blockTxnsCount = (_, some [(0#256, oneOutput)]) :=
    Prod.ext rfl hbatch
  refine ⟨firstProposer_added true, oneOutput_valid _, ?_, ?_⟩
  · have hblock : proposedBlock (ownEnv true) ownConfig
        (firstInput [1#160, 2#160]).lastBlockHash (firstInput [1#160, 2#160]).height
        (firstInput [1#160, 2#160]).accepts ([(0#256, oneOutput)].map Prod.snd)
        firstProposer.node.ledger.notesTree.tree = some block := hblock
    simp only [createProposal, hlease, hpassed, hblock, hrefused]
  · rw [block_restores_iff firstProposer (firstProposer_added true) _ _ hlease hpassed block hblock]
    intro h
    exact h.signature hrefused oneOutput (List.mem_singleton_self _) (oneOutput_valid _)

end PayyRollup.ProposalErrors
