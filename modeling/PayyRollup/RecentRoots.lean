import PayyRollup.CommittedRuns
import PayyRollup.RollupReverts
import PayyRollup.RootHistory
import PayyRollup.ApprovalDigests

/-!
The recent roots of the node and those of the contract. The node looks back over heights,
the contract over the roots it recorded, one for each rolled up block with transactions.
Between a block and one less than 64 heights above it there are fewer than 64 such blocks,
and a block without transactions repeats the root before it. So a root the node finds in its
window is still in the ring of the contract when the block that uses it is rolled up.
-/
namespace PayyRollup.RecentRoots

open ScalarField SparseMerkle ElementHash SmirkTree NodeBlocks BlockValidation BlockCommit
  CommittedRuns VerifierContracts Transactions RollupState RollupCalls RollupEffects
  RollupReverts RecordedRoots RootHistory ApprovalDigests

section Prover

def maximumTxns : ℕ := 6

/-- The root, the hash and the value a proof exposes, read from the field. -/
def exposedValues (txn : UtxoProof) : List Element :=
  [txn.recentRoot, txn.mbHash, txn.mbValue].map fun e => Element.fromBase e.toBase

/-- The values of a block; a padding transaction exposes zeros. -/
def utxoValuesOf (txns : List UtxoProof) : List Element :=
  txns.flatMap exposedValues ++ List.replicate (3 * (maximumTxns - txns.length)) 0#256

def hasTxns (block : Block) : Bool := !block.content.state.txns.isEmpty

variable (env : NodeEnv)

/-- The arguments with which the prover rolls up a block. -/
structure Aggregates (args : BlockArgs) (block : Block) : Prop where
  new_root : args.newRoot = block.rootHash
  utxo_hashes : args.utxoHashes.toList = utxoValuesOf block.content.state.txns
  other_hash : args.otherHashFromBlockHash = block.content.headerHash env
  height : args.height = BitVec.ofNat 256 block.height

/-- The roots of the rolled up blocks, the latest first, above the first root. -/
def rolledRoots (root₀ : Element) (blocks : List Block) : List Element :=
  ((blocks.filter hasTxns).map Block.rootHash).reverse ++ [root₀]

/-- Every third value is a root of a transaction, or padding. -/
theorem utxoValuesOf_root (txns : List UtxoProof) (i : ℕ) :
    (utxoValuesOf txns).getD (3 * i) 0#256 = 0#256 ∨
      ∃ txn ∈ txns, (utxoValuesOf txns).getD (3 * i) 0#256 =
        Element.fromBase txn.recentRoot.toBase := by
  unfold utxoValuesOf
  generalize 3 * (maximumTxns - txns.length) = padding
  induction txns generalizing i with
  | nil =>
    refine Or.inl ?_
    rw [List.flatMap_nil, List.nil_append, List.getD_eq_getElem?_getD, List.getElem?_replicate]
    split
    · rfl
    · rfl
  | cons txn rest ih =>
    cases i with
    | zero => exact Or.inr ⟨txn, List.mem_cons_self .., rfl⟩
    | succ i =>
      have htail : (((txn :: rest).flatMap exposedValues) ++ List.replicate padding 0#256).getD
          (3 * (i + 1)) 0#256 =
            (rest.flatMap exposedValues ++ List.replicate padding 0#256).getD (3 * i) 0#256 := rfl
      rw [htail]
      rcases ih i with hzero | ⟨t, ht, hroot⟩
      · exact Or.inl hzero
      · exact Or.inr ⟨t, List.mem_cons_of_mem _ ht, hroot⟩

end Prover

section Ring

variable {τ : Type}

/-- The ring holds the last 64 of these roots, the latest first. -/
def RingHolds (s : Rollup τ) (roots : List Element) : Prop :=
  ∀ k < 64, ∀ r, roots[k]? = some r →
    s.rootHashes (s.nextRootHashIndex - 1 - Fin.ofNat 64 k) = r

theorem RingHolds.same {s s' : Rollup τ} {roots : List Element} (h : RingHolds s roots)
    (hsame : SameRoots s s') : RingHolds s' roots := by
  unfold RingHolds
  rw [hsame.roots, hsame.next]
  exact h

/-- A new root takes the place of the one 64 roots ago. -/
theorem RingHolds.add {s s' : Rollup τ} {roots : List Element} (h : RingHolds s roots)
    (root : Element) (hsame : SameRoots (s.addRootHash root) s') :
    RingHolds s' (root :: roots) := by
  intro k hk r hr
  rw [hsame.roots, hsame.next]
  change Function.update s.rootHashes s.nextRootHashIndex root
    (s.nextRootHashIndex + 1 - 1 - Fin.ofNat 64 k) = r
  cases k with
  | zero =>
    have hindex : s.nextRootHashIndex + 1 - 1 - Fin.ofNat 64 0 = s.nextRootHashIndex := by
      simp
    rw [hindex, Function.update_self]
    exact Option.some.inj hr
  | succ k =>
    have hindex : s.nextRootHashIndex + 1 - 1 - Fin.ofNat 64 (k + 1) =
        s.nextRootHashIndex - 1 - Fin.ofNat 64 k := by
      apply Fin.ext
      simp only [Fin.sub_def, Fin.add_def, Fin.ofNat]
      omega
    have hne : s.nextRootHashIndex - 1 - Fin.ofNat 64 k ≠ s.nextRootHashIndex := by
      intro heq
      have hval := congrArg Fin.val heq
      simp only [Fin.sub_def, Fin.ofNat] at hval
      omega
    rw [hindex, Function.update_of_ne hne]
    exact h k (by omega) r hr

variable (env : Externals τ) (routers : Routers τ) (depth : ℕ)

/-- After every run without `setRoot` the ring holds the roots of the accepted blocks. -/
theorem ringHolds_run (chain : τ) (owner prover : Address) (initialValidators : List Address)
    (root₀ : Element) (txs : List (Address × Call τ))
    (hnoset : ∀ tx ∈ txs, ∀ r, tx.2 ≠ .setRoot r) :
    let s₀ := initialState chain owner prover initialValidators root₀
    RingHolds (runCalls env routers depth s₀ txs)
      (((acceptedBlocks env routers depth s₀ txs).map BlockArgs.newRoot).reverse ++ [root₀]) := by
  intro s₀
  induction txs using List.reverseRecOn with
  | nil =>
    have hnone : RingHolds { s₀ with
        rootHashes := fun _ => 0#256
        nextRootHashIndex := 0 } [] := by
      intro k hk r hr
      cases hr
    exact hnone.add root₀ ⟨rfl, rfl⟩
  | append_singleton txs tx ih =>
    have hring := ih fun t ht => hnoset t (List.mem_append_left _ ht)
    have hset := hnoset tx (List.mem_append_right _ (List.mem_singleton.mpr rfl))
    rw [acceptedBlocks_concat, runCalls_concat]
    rcases step_cases env routers depth (runCalls env routers depth s₀ txs) tx hset with
      ⟨hnone, hsame⟩ | ⟨args, hsome, -, hsame⟩
    · rw [hnone, Option.toList_none, List.append_nil]
      exact hring.same hsame
    · rw [hsome, Option.toList_some, List.map_append, List.reverse_append]
      exact hring.add args.newRoot hsame

end Ring

section Window

variable {D : ℕ} {env : NodeEnv} {mode : Mode} {badBlocks : List ℕ} {blocks : List Block}
  {l : Ledger D}

/-- The root of the tree is the latest rolled up root. -/
theorem rolledRoots_head
    (h : CommittedRun env mode badBlocks (DeclaresRoot env badBlocks) blocks l) :
    (rolledRoots (emptyTreeHash env.poseidon D) blocks)[0]? =
      some (l.notesTree.tree.rootHash env.poseidon) := by
  induction h with
  | start =>
    have hvalid : (Tree.new D).Valid env.poseidon := Tree.new_valid
    change some (emptyTreeHash env.poseidon D) = some ((Tree.new D).rootHash env.poseidon)
    rw [hvalid.rootHash_eq, Tree.new_sparse, emptyTreeHash, ← root_empty]
    rfl
  | commit blocks l block l' hrun hcommits hadmits ih =>
    unfold rolledRoots at ih ⊢
    rw [List.filter_append]
    by_cases hempty : block.content.state.txns = []
    · have hfilter : [block].filter hasTxns = [] := by simp [hasTxns, hempty]
      rw [hfilter, List.append_nil, ih, hcommits.root_of_empty hrun.valid hempty]
    · have hfilter : [block].filter hasTxns = [block] := by simp [hasTxns, hempty]
      rw [hfilter, List.map_append, List.reverse_append, hcommits.root hrun.valid hadmits]
      rfl

/-- A block of the window is followed by fewer than 64 rolled up blocks. -/
theorem rolledRoots_window
    (h : CommittedRun env mode badBlocks (DeclaresRoot env badBlocks) blocks l) (height : ℕ)
    (habove : ∀ b ∈ blocks, b.height < height) (b : Block) (hb : b ∈ blocks)
    (hrecent : height < b.height + 64) :
    ∃ k < 64, (rolledRoots (emptyTreeHash env.poseidon D) blocks)[k]? = some b.rootHash := by
  obtain ⟨before, after, rfl⟩ := List.append_of_mem hb
  have hsplit : before ++ b :: after = (before ++ [b]) ++ after := by simp
  rw [hsplit] at h
  obtain ⟨l₀, hto⟩ := h.of_append
  obtain ⟨l₁, hbefore, hcommits, hadmits⟩ := hto.last
  have hhead := rolledRoots_head hto
  rw [hcommits.root hbefore.valid hadmits] at hhead
  have hheights := h.heights
  have hlength : ∀ (rest : List Block) (low : ℕ), (rest.Pairwise fun x y => x.height < y.height) →
      (∀ x ∈ rest, low < x.height ∧ x.height < height) → rest.length ≤ height - 1 - low := by
    intro rest
    induction rest with
    | nil => simp
    | cons x rest ih =>
      intro low hpairs hbounds
      obtain ⟨hx, hrest⟩ := List.pairwise_cons.mp hpairs
      have hfirst := hbounds x (List.mem_cons_self ..)
      have htail := ih x.height hrest fun y hy =>
        ⟨hx y hy, (hbounds y (List.mem_cons_of_mem _ hy)).2⟩
      rw [List.length_cons]
      omega
  have hafter : after.length ≤ height - 1 - b.height := by
    apply hlength after b.height (List.pairwise_append.mp hheights).2.1
    intro x hx
    exact ⟨(List.pairwise_append.mp hheights).2.2 b (by simp) x hx, habove x (by simp [hx])⟩
  have hcount : (after.filter hasTxns).length ≤ after.length := List.length_filter_le _ _
  have hbelow := habove b (by simp)
  refine ⟨(after.filter hasTxns).length, by omega, ?_⟩
  rw [← hhead, hsplit]
  unfold rolledRoots
  rw [List.filter_append, List.map_append, List.reverse_append, List.append_assoc,
    List.getElem?_append_right (by simp)]
  simp

/-- A recent root the node accepts is one of the last 64 rolled up roots. -/
theorem recentRoots_window
    (h : CommittedRun env mode badBlocks (DeclaresRoot env badBlocks) blocks l) (height : ℕ)
    (hheight : height < 2 ^ 64) (habove : ∀ b ∈ blocks, b.height < height) (root : Element)
    (hroot : root ∈ recentRoots l.blockStore height) :
    ∃ k < 64, (rolledRoots (emptyTreeHash env.poseidon D) blocks)[k]? = some root := by
  obtain ⟨b, hb, rfl⟩ := List.mem_map.mp hroot
  obtain ⟨at_, hstart, hstop, hget⟩ := (BlockStore.mem_list _ b _ _).mp hb
  obtain ⟨hmem, rfl⟩ := (h.stored _ b).mp hget
  apply rolledRoots_window h height habove b hmem
  have hnext : nextHeight height = height + 1 ∨ nextHeight height = 0 := by
    unfold nextHeight
    omega
  unfold recentRootCount at hstart
  omega

/-- The roots of the tree are field elements. -/
theorem rootHash_toNat_lt (hD : 2 ≤ D) {tree : Tree D} (h : tree.Valid env.poseidon) :
    (tree.rootHash env.poseidon).toNat < modulus := by
  obtain ⟨height, hheight⟩ : ∃ height, D - 1 = height + 1 := ⟨D - 2, by omega⟩
  rw [h.rootHash_eq, hheight]
  exact hashMerge_toNat_lt _ _

/-- A recent root the node accepts is a field element. -/
theorem recentRoots_toNat_lt (hD : 2 ≤ D)
    (h : CommittedRun env mode badBlocks (DeclaresRoot env badBlocks) blocks l) (height : ℕ)
    (root : Element) (hroot : root ∈ recentRoots l.blockStore height) : root.toNat < modulus := by
  obtain ⟨b, hb, rfl⟩ := List.mem_map.mp hroot
  obtain ⟨_, -, -, hget⟩ := (BlockStore.mem_list _ b _ _).mp hb
  obtain ⟨hmem, -⟩ := (h.stored _ b).mp hget
  obtain ⟨before, after, rfl⟩ := List.append_of_mem hmem
  have hsplit : before ++ b :: after = (before ++ [b]) ++ after := by simp
  rw [hsplit] at h
  obtain ⟨l₀, hto⟩ := h.of_append
  obtain ⟨l₁, hbefore, hcommits, hadmits⟩ := hto.last
  rw [← hcommits.root hbefore.valid hadmits]
  exact rootHash_toNat_lt hD hto.valid

end Window

section Agreement

variable {τ : Type} {D : ℕ} (env : NodeEnv) (mode : Mode) (contractEnv : Externals τ)
  (routers : Routers τ) (depth : ℕ)

/-- The contract still has the recent roots of the transactions that the node accepts, and
does not reject the block for them. -/
structure RootsAgree (block : Block) (l : Ledger D) (s : Rollup τ) : Prop where
  kept : ∀ txn ∈ block.content.state.txns,
    validateTxn env mode txn block.height l.blockStore l.notesTree.tree = .ok () →
      txn.recentRoot ≠ 0#256 → ∃ j, s.rootHashes j = txn.recentRoot
  passes : (∀ txn ∈ block.content.state.txns,
      validateTxn env mode txn block.height l.blockStore l.notesTree.tree = .ok ()) →
    ∀ sender args, Aggregates env args block →
      ¬Reverts (verifyBlock2 contractEnv (routerCallAt contractEnv routers depth) sender args) s
        (.reason "Invalid recent roots")

/-- The blocks of a run, a next block, and a contract that has rolled up exactly the blocks
with transactions before it, in their order. -/
structure RolledUpTo (badBlocks : List ℕ) (admits : Block → Ledger D → Prop) (blocks : List Block)
    (l : Ledger D) (block : Block) (s₀ : Rollup τ) (txs : List (Address × Call τ)) : Prop where
  run : CommittedRun env mode badBlocks admits blocks l
  next : ∃ l', CommitsBlock env mode badBlocks block l l' ∧ admits block l'
  noset : ∀ tx ∈ txs, ∀ r, tx.2 ≠ .setRoot r
  rolled : List.Forall₂ (Aggregates env) (acceptedBlocks contractEnv routers depth s₀ txs)
    (blocks.filter hasTxns)

/-- Whenever the contract has rolled up the blocks before a block, the roots agree. -/
def RootsAlwaysAgree (badBlocks : List ℕ) (admits : Block → Ledger D → Prop) (s₀ : Rollup τ) :
    Prop :=
  ∀ (blocks : List Block) (l : Ledger D) (block : Block) (txs : List (Address × Call τ)),
    RolledUpTo env mode contractEnv routers depth badBlocks admits blocks l block s₀ txs →
      RootsAgree env mode contractEnv routers depth block l
        (runCalls contractEnv routers depth s₀ txs)

variable {env}

theorem rolledRoots_of_aggregates (root₀ : Element) (accepted : List BlockArgs)
    (blocks : List Block) (h : List.Forall₂ (Aggregates env) accepted (blocks.filter hasTxns)) :
    (accepted.map BlockArgs.newRoot).reverse ++ [root₀] = rolledRoots root₀ blocks := by
  unfold rolledRoots
  congr 2
  generalize blocks.filter hasTxns = rolled at h
  induction h with
  | nil => rfl
  | cons hfirst _ ih => rw [List.map_cons, List.map_cons, hfirst.new_root, ih]

end Agreement

/-- For a node that is not a prover, whose bad blocks declare the roots they lead to, the
contract has every recent root of a transaction of the next block when it is rolled up. -/
theorem recent_roots_agree {τ : Type} {D : ℕ} (env : NodeEnv) (mode : Mode)
    (hmode : mode.isProver = false) (badBlocks : List ℕ) (hD : 2 ≤ D) (contractEnv : Externals τ)
    (routers : Routers τ) (depth : ℕ) (chain : τ) (owner prover : Address)
    (initialValidators : List Address) :
    RootsAlwaysAgree (D := D) env mode contractEnv routers depth badBlocks
      (DeclaresRoot env badBlocks)
      (initialState chain owner prover initialValidators (emptyTreeHash env.poseidon D)) := by
  intro blocks l block txs h
  let s₀ := initialState chain owner prover initialValidators (emptyTreeHash env.poseidon D)
  change RootsAgree env mode contractEnv routers depth block l
    (runCalls contractEnv routers depth s₀ txs)
  obtain ⟨l', hcommits, -⟩ := h.next
  have habove := h.run.rising hcommits
  have hring : RingHolds (runCalls contractEnv routers depth s₀ txs) _ :=
    ringHolds_run contractEnv routers depth chain owner prover initialValidators
      (emptyTreeHash env.poseidon D) txs h.noset
  rw [rolledRoots_of_aggregates _ _ blocks h.rolled] at hring
  have hrecent : ∀ txn,
      validateTxn env mode txn block.height l.blockStore l.notesTree.tree = .ok () →
      txn.recentRoot ≠ 0#256 → txn.recentRoot ∈ recentRoots l.blockStore block.height := by
    intro txn hok hne
    rcases ((validateTxn_ok mode txn _ _ _).mp hok).recent with hzero | hmem | hprover
    · exact absurd hzero hne
    · exact hmem
    · rw [hmode] at hprover
      cases hprover
  have hkept : ∀ txn,
      validateTxn env mode txn block.height l.blockStore l.notesTree.tree = .ok () →
      txn.recentRoot ≠ 0#256 →
        ∃ j, (runCalls contractEnv routers depth s₀ txs).rootHashes j = txn.recentRoot := by
    intro txn hok hne
    obtain ⟨k, hk, hroot⟩ := recentRoots_window h.run block.height hcommits.height_lt habove _
      (hrecent txn hok hne)
    exact ⟨_, hring k hk _ hroot⟩
  refine ⟨fun txn _ => hkept txn, ?_⟩
  intro hok sender args haggregates hreverts
  obtain ⟨t, hexecuted, hcontains⟩ := verifyBlock2_reverts_roots _
    (routerCallAt_total routers depth) sender args hreverts
  have hsame := (verifyTxns_sameRoots contractEnv routers depth args).relates _ _ _ hexecuted
  have hroots : t.rootHashes = (runCalls contractEnv routers depth s₀ txs).rootHashes :=
    hsame.roots
  rw [← Bool.not_eq_true] at hcontains
  apply hcontains
  rw [Rollup.containsRootHashes, List.all_eq_true]
  intro hash hhash
  rw [decide_eq_true_eq, hroots]
  have hthird : ∃ i, hash = (utxoValuesOf block.content.state.txns).getD (3 * i) 0#256 := by
    rw [← haggregates.utxo_hashes]
    simp only [List.map_cons, List.map_nil, List.mem_cons, List.not_mem_nil, or_false] at hhash
    rcases hhash with rfl | rfl | rfl | rfl | rfl | rfl
    · exact ⟨0, rfl⟩
    · exact ⟨1, rfl⟩
    · exact ⟨2, rfl⟩
    · exact ⟨3, rfl⟩
    · exact ⟨4, rfl⟩
    · exact ⟨5, rfl⟩
  obtain ⟨i, rfl⟩ := hthird
  rcases utxoValuesOf_root block.content.state.txns i with hzero | ⟨txn, htxn, hroot⟩
  · exact ⟨0, Or.inr hzero⟩
  · rw [hroot]
    by_cases hne : txn.recentRoot = 0#256
    · exact ⟨0, Or.inr (by rw [hne]; decide)⟩
    · obtain ⟨j, hj⟩ := hkept txn (hok txn htxn) hne
      refine ⟨j, Or.inl ?_⟩
      rw [hj]
      exact Element.fromBase_toBase _ (recentRoots_toNat_lt hD h.run _ _
        (hrecent txn (hok txn htxn) hne))

section Examples

/-- A block without leaves is committed to the root of the tree it found. -/
theorem commitsBlock_without_leaves {D : ℕ} {env : NodeEnv} {mode : Mode} {badBlocks : List ℕ}
    (block : Block) (l : Ledger D) (hvalid : l.notesTree.tree.Valid env.poseidon)
    (hleaves : block.content.state.leavesNonNull = []) (hlt : block.height < 2 ^ 64)
    (hrising : ∀ height stored, l.blockStore.get height = some stored → height < block.height)
    (hok : block.height ∉ badBlocks →
      validate env block.content mode l.blockStore l.notesTree.tree = .ok ()) :
    ∃ l', CommitsBlock env mode badBlocks block l l' ∧
      l'.notesTree.tree.rootHash env.poseidon = l.notesTree.tree.rootHash env.poseidon := by
  have hnew : newLeaves l.notesTree.tree block.content.state
      (decide (block.height ∈ badBlocks)) = [] := by
    simp [newLeaves, hleaves]
  have hfree : LeavesFree badBlocks block l hvalid := by
    unfold LeavesFree
    rw [hnew]
    exact ⟨List.Pairwise.nil, by simp⟩
  obtain ⟨l', hcommits, h', hsparse⟩ := exists_commitsBlock hvalid hlt hrising hok hfree
  refine ⟨l', hcommits, ?_⟩
  rw [h'.rootHash_eq, hvalid.rootHash_eq, hsparse, hnew, SparseTree.laid_nil]

/-- A first transaction without leaves. -/
def rootTxn (recentRoot : Element) : UtxoProof :=
  ⟨recentRoot, 0#256, 0#256, (0#256, 0#256), (0#256, 0#256), []⟩

def rootBlock (height : ℕ) (root : Element) (txns : List UtxoProof) : Block :=
  ⟨⟨⟨height, 0#256, 0, 0#256, []⟩, ⟨root, txns⟩⟩, Vector.replicate 65 0⟩

theorem validTxn_rootTxn {D : ℕ} {env : NodeEnv} {mode : Mode} (recentRoot : Element) (height : ℕ)
    (store : BlockStore) (tree : Tree D)
    (hproof : ∀ instances, env.verifyProof instances [] = some true)
    (hrecent : recentRoot ∈ recentRoots store height ∨ mode.isProver = true) :
    ValidTxn env mode (rootTxn recentRoot) height store tree := by
  have hzero : ∀ leaf ∈ (rootTxn recentRoot).leaves, leaf = 0#256 := by
    intro leaf hleaf
    simpa [UtxoProof.leaves, rootTxn] using hleaf
  refine ⟨hproof _, Or.inr hrecent, ?_, ?_⟩
  · intro leaf hleaf
    rw [hzero leaf hleaf]
    norm_num [modulus]
  · intro leaf hleaf hne
    exact absurd (hzero leaf hleaf) hne

/-- A block of such a transaction passes with the root of the tree. -/
theorem validate_rootBlock {D : ℕ} {env : NodeEnv} {mode : Mode} (height : ℕ) (recentRoot : Element)
    (l : Ledger D) (hproof : ∀ instances, env.verifyProof instances [] = some true)
    (hrecent : recentRoot ∈ recentRoots l.blockStore height ∨ mode.isProver = true) :
    validate env (rootBlock height (l.notesTree.tree.rootHash env.poseidon)
      [rootTxn recentRoot]).content mode l.blockStore l.notesTree.tree = .ok () := by
  refine (validate_ok _ _ _ _).mpr ⟨⟨?_, ?_⟩, rfl⟩
  · exact List.nodup_nil
  intro txn htxn
  obtain rfl := List.mem_singleton.mp htxn
  exact validTxn_rootTxn recentRoot height _ _ hproof hrecent

/-- A fresh ledger commits a first block without transactions, or one that is configured as
bad, with any root. -/
theorem commitsBlock_first {env : NodeEnv} {badBlocks : List ℕ} (root : Element)
    (hroot : 1 ∈ badBlocks ∨ root = emptyTreeHash env.poseidon 161) :
    ∃ l', CommitsBlock env .node badBlocks (rootBlock 1 root []) (freshLedger 161) l' ∧
      l'.notesTree.tree.rootHash env.poseidon = emptyTreeHash env.poseidon 161 := by
  have hvalid : (freshLedger 161).notesTree.tree.Valid env.poseidon := Tree.new_valid
  have hempty : (freshLedger 161).notesTree.tree.rootHash env.poseidon =
      emptyTreeHash env.poseidon 161 := by
    have hhead := @rolledRoots_head 161 env .node badBlocks [] (freshLedger 161) .start
    exact (Option.some.inj hhead).symm
  have hrising : ∀ height stored, (freshLedger 161).blockStore.get height = some stored →
      height < 1 := by
    intro height stored hget
    cases hget
  rw [← hempty] at hroot ⊢
  refine commitsBlock_without_leaves _ _ hvalid rfl (by norm_num [rootBlock, Block.height])
    hrising ?_
  intro hbad
  obtain rfl := hroot.resolve_left hbad
  exact (validate_ok _ _ _ _).mpr ⟨⟨List.nodup_nil, fun txn htxn => by cases htxn⟩, rfl⟩

/-- After a first block without transactions a node accepts its root, and so does the
contract. -/
theorem recent_roots_agree_second_block :
    let env := { trustingEnv with poseidon := fun _ => 5 }
    let s₀ := initialState () 7#160 2#160 [1#160] (emptyTreeHash env.poseidon 161)
    ∃ l : Ledger 161, RootsAgree env .node strictEnv (fun _ _ _ _ => .stop true) 1
      (rootBlock 2 (emptyTreeHash env.poseidon 161)
        [rootTxn (emptyTreeHash env.poseidon 161)]) l s₀ := by
  intro env s₀
  obtain ⟨l, hfirst, hroot⟩ := @commitsBlock_first env [] _ (Or.inr rfl)
  have hdeclares : ∀ block (l' : Ledger 161), DeclaresRoot env [] block l' := by
    intro block l' hbad
    cases hbad
  have hrun : CommittedRun env .node [] (DeclaresRoot env [])
      [rootBlock 1 (emptyTreeHash env.poseidon 161) []] l :=
    .commit [] _ _ l .start hfirst (hdeclares _ l)
  have hrising : ∀ height stored, l.blockStore.get height = some stored → height < 2 := by
    intro height stored hget
    obtain ⟨hmem, rfl⟩ := (hrun.stored height stored).mp hget
    obtain rfl := List.mem_singleton.mp hmem
    exact Nat.lt_succ_self 1
  have hrecent : emptyTreeHash env.poseidon 161 ∈ recentRoots l.blockStore 2 := by
    refine List.mem_map.mpr ⟨rootBlock 1 (emptyTreeHash env.poseidon 161) [], ?_, rfl⟩
    refine (BlockStore.mem_list _ _ _ _).mpr ⟨1, by decide, by decide, ?_⟩
    exact (hrun.stored 1 _).mpr ⟨List.mem_singleton.mpr rfl, rfl⟩
  have hok := @validate_rootBlock 161 env .node 2 (emptyTreeHash env.poseidon 161) l
    (fun _ => rfl) (Or.inl hrecent)
  rw [hroot] at hok
  obtain ⟨l', hsecond, -⟩ := @commitsBlock_without_leaves 161 env .node []
    (rootBlock 2 (emptyTreeHash env.poseidon 161) [rootTxn (emptyTreeHash env.poseidon 161)]) l
    hrun.valid rfl (by norm_num [rootBlock, Block.height]) hrising (fun _ => hok)
  exact ⟨l, recent_roots_agree env .node rfl [] (by norm_num) strictEnv _ 1 () 7#160 2#160 [1#160]
    _ l _ [] ⟨hrun, ⟨l', hsecond, hdeclares _ l'⟩, (fun _ h => by cases h), List.Forall₂.nil⟩⟩

/-- A prover accepts a root the contract never had, and so does a node after a bad block that
declares it. -/
theorem not_recent_roots_agree :
    let s₀ := initialState () 7#160 2#160 [1#160] (emptyTreeHash trustingEnv.poseidon 161)
    let routers : Routers Unit := fun _ _ _ _ => .stop true
    ¬RootsAlwaysAgree (D := 161) trustingEnv .prover strictEnv routers 1 [] (fun _ _ => True) s₀ ∧
      ¬RootsAlwaysAgree (D := 161) trustingEnv .node strictEnv routers 1 [1] (fun _ _ => True)
        s₀ := by
  intro s₀ routers
  have hnever : ∀ j, s₀.rootHashes j ≠ 7#256 := by
    intro j
    have hzero : emptyTreeHash trustingEnv.poseidon 161 = 0#256 := by
      change Element.fromBase 0 = 0#256
      decide
    rcases initialState_rootHashes () 7#160 2#160 [1#160]
      (emptyTreeHash trustingEnv.poseidon 161) j with h | h
    · rw [h]
      decide
    · rw [h, hzero]
      decide
  have hfails : ∀ (mode : Mode) (l : Ledger 161) (height : ℕ) (root : Element),
      (7#256 ∈ recentRoots l.blockStore height ∨ mode.isProver = true) →
      ¬RootsAgree trustingEnv mode strictEnv routers 1 (rootBlock height root [rootTxn 7#256]) l
        s₀ := by
    intro mode l height root hrecent hagree
    obtain ⟨j, hj⟩ := hagree.kept _ (List.mem_singleton.mpr rfl)
      ((validateTxn_ok _ _ _ _ _).mpr (validTxn_rootTxn 7#256 height l.blockStore
        l.notesTree.tree (fun _ => rfl) hrecent)) (by decide)
    exact hnever j hj
  constructor
  · intro hagree
    have hok := @validate_rootBlock 161 trustingEnv .prover 1 7#256 (freshLedger 161)
      (fun _ => rfl) (Or.inr rfl)
    obtain ⟨l', hcommits, -⟩ := @commitsBlock_without_leaves 161 trustingEnv .prover []
      (rootBlock 1 _ [rootTxn 7#256]) (freshLedger 161) Tree.new_valid rfl
      (by norm_num [rootBlock, Block.height]) (fun _ _ hget => by cases hget) (fun _ => hok)
    exact hfails .prover _ 1 _ (Or.inr rfl) (hagree [] _ _ []
      ⟨.start, ⟨l', hcommits, trivial⟩, (fun _ h => by cases h), List.Forall₂.nil⟩)
  · intro hagree
    obtain ⟨l, hfirst, hroot⟩ := @commitsBlock_first trustingEnv [1] 7#256
      (Or.inl (List.mem_singleton.mpr rfl))
    have hrun : CommittedRun trustingEnv .node [1] (fun _ _ => True) [rootBlock 1 7#256 []] l :=
      .commit [] _ _ l .start hfirst trivial
    have hrising : ∀ height stored, l.blockStore.get height = some stored → height < 2 := by
      intro height stored hget
      obtain ⟨hmem, rfl⟩ := (hrun.stored height stored).mp hget
      obtain rfl := List.mem_singleton.mp hmem
      exact Nat.lt_succ_self 1
    have hrecent : 7#256 ∈ recentRoots l.blockStore 2 := by
      refine List.mem_map.mpr ⟨rootBlock 1 7#256 [], ?_, rfl⟩
      refine (BlockStore.mem_list _ _ _ _).mpr ⟨1, by decide, by decide, ?_⟩
      exact (hrun.stored 1 _).mpr ⟨List.mem_singleton.mpr rfl, rfl⟩
    have hok := @validate_rootBlock 161 trustingEnv .node 2 7#256 l (fun _ => rfl)
      (Or.inl hrecent)
    obtain ⟨l', hsecond, -⟩ := @commitsBlock_without_leaves 161 trustingEnv .node [1]
      (rootBlock 2 _ [rootTxn 7#256]) l hrun.valid rfl
      (by norm_num [rootBlock, Block.height]) hrising (fun _ => hok)
    exact hfails .node l 2 _ (Or.inl hrecent) (hagree _ l _ []
      ⟨hrun, ⟨l', hsecond, trivial⟩, (fun _ h => by cases h), List.Forall₂.nil⟩)

end Examples

end PayyRollup.RecentRoots
