import PayyRollup.BlockValidation

/-!
Committing a block: the store is written first, then the leaves are inserted into the notes
tree and its database. Every write may fail. A commit is described by what it leaves behind:
nothing, a stored block without its leaves, or a stored block with its leaves in the tree.
-/
namespace PayyRollup.BlockCommit

open ScalarField SparseMerkle ElementHash SmirkNode SmirkTree NodeBlocks BlockValidation

/-- The block store and the notes tree of a node. -/
structure Ledger (D : ℕ) where
  blockStore : BlockStore
  notesTree : Persistent D

/-- Which of the writes of a commit the databases allow. -/
structure CommitIo where
  storeWritten : Bool
  treeWritten : Bool
  deriving DecidableEq

variable {D : ℕ}

section Commit

variable (env : NodeEnv)

/-- The leaves a block inserts; the ones already in the tree are passed over for a bad
block. -/
def newLeaves (tree : Tree D) (state : BlockState) (ignoreCollisions : Bool) : List Element :=
  if ignoreCollisions then state.leavesNonNull.filter fun leaf => !tree.containsElement leaf
  else state.leavesNonNull

def applyBlockToTree (notesTree : Persistent D) (state : BlockState)
    (ignoreCollisions written : Bool) : Persistent D × Outcome Error Unit :=
  if ignoreCollisions = false ∧ state.leavesNonNull.any notesTree.tree.containsElement = true then
    (notesTree, .error .panic)
  else
    match Batch.fromEntries D (newLeaves notesTree.tree state ignoreCollisions) with
    | .error collision => (notesTree, .error (.err (.collision collision)))
    | .ok batch =>
        let inserted := notesTree.insertBatch env.poseidon batch written
        (inserted.1, inserted.2.mapError (Failure.map Error.smirk))

def commitProposal (badBlocks : List ℕ) (io : CommitIo) (block : Block) (self : Ledger D) :
    Ledger D × Outcome Error Unit :=
  let skipValidation := decide (block.height ∈ badBlocks)
  if skipValidation = false ∧
      block.content.state.leavesNonNull.any self.notesTree.tree.containsElement = true then
    (self, .error .panic)
  else if io.storeWritten = false then (self, .error (.err .blockStore))
  else
    let applied := applyBlockToTree env self.notesTree block.content.state skipValidation
      io.treeWritten
    (⟨self.blockStore.set block, applied.1⟩, applied.2)

end Commit

section Laws

variable {env : NodeEnv} {p : Persistent D}

/-- New elements for empty slots are laid over the tree, and the database has them if it was
written. -/
theorem insertBatch_free (h : p.tree.Valid env.poseidon) (batch : Batch D)
    (hnull : ∀ e ∈ batch.entries, e ≠ Element.nullHash)
    (hvacant : ∀ e ∈ batch.entries, h.sparse.leaf (bits D e) = 0) (written : Bool) :
    let inserted := p.insertBatch env.poseidon batch written
    (∃ h' : inserted.1.tree.Valid env.poseidon, h'.sparse = h.sparse.laid batch.entries) ∧
      (inserted.2 = .ok () ↔ written = true ∨ batch.entries = []) ∧
      inserted.2 ≠ .error .panic ∧
      inserted.1.db = if written then p.db ++ batch.entries else p.db := by
  intro inserted
  by_cases hempty : batch.entries = []
  · have hsame : inserted = (p, .ok ()) := by
      simp [inserted, Persistent.insertBatch, Batch.isEmpty, hempty]
    rw [hsame]
    refine ⟨⟨h, ?_⟩, by simp [hempty], by simp, by simp [hempty]⟩
    rw [hempty, SparseTree.laid_nil]
  · obtain ⟨tree, htree, h', hlaid⟩ := h.insertBatch_free batch hnull hvacant
    have hinserted : inserted = if written then (⟨tree, p.db ++ batch.entries⟩, .ok ())
        else (⟨tree, p.db⟩, .error (.err .rocksdb)) := by
      simp [inserted, Persistent.insertBatch, Batch.isEmpty, hempty, htree]
    rw [hinserted]
    cases written with
    | true => exact ⟨⟨h', hlaid⟩, by simp, by simp, by simp⟩
    | false => exact ⟨⟨h', hlaid⟩, by simp [hempty], by simp, by simp⟩

/-- An occupied slot fails the insertion and changes nothing. -/
theorem insertBatch_collision (h : p.tree.Valid env.poseidon) (batch : Batch D)
    (hoccupied : ¬∀ e ∈ batch.entries, h.sparse.leaf (bits D e) = 0) (written : Bool) :
    ∃ failure, p.insertBatch env.poseidon batch written = (p, .error (.err failure)) := by
  have hempty : batch.entries ≠ [] := by
    intro hnil
    exact hoccupied (by simp [hnil])
  obtain ⟨collisions, htree⟩ := h.insertBatch_collision batch hoccupied
  exact ⟨.collision collisions, by
    simp [Persistent.insertBatch, Batch.isEmpty, hempty, htree, Failure.map]⟩

theorem mapError_map_panic {ε ε' α : Type} (f : ε → ε') (x : Outcome ε α) :
    x.mapError (Failure.map f) = .error .panic ↔ x = .error .panic := by
  rcases x with (e | -) | a
  · simp [Except.mapError, Failure.map]
  · simp [Except.mapError, Failure.map]
  · simp [Except.mapError]

theorem newLeaves_ne_null (tree : Tree D) (state : BlockState) (ignoreCollisions : Bool) :
    ∀ e ∈ newLeaves tree state ignoreCollisions, e ≠ Element.nullHash := by
  intro e he
  unfold newLeaves at he
  split at he
  · exact ((mem_nonNull _ e).mp (List.mem_of_mem_filter he)).2
  · exact ((mem_nonNull _ e).mp he).2

/-- Leaves for empty slots are not in the tree. -/
theorem not_contains_of_vacant (h : p.tree.Valid env.poseidon) (leaves : List Element)
    (hvacant : ∀ e ∈ leaves, h.sparse.leaf (bits D e) = 0) :
    leaves.any p.tree.containsElement = false := by
  rw [List.any_eq_false]
  intro e he hin
  obtain ⟨hne, hleaf⟩ := (SparseTree.mem_iff h.sparse e).mp ((h.mem_sparse e).mpr hin)
  exact hne (hleaf.symm.trans (hvacant e he))

/-- Applying a block lays its new leaves over the tree when their slots are free. -/
theorem applyBlockToTree_free (h : p.tree.Valid env.poseidon) (state : BlockState)
    (ignoreCollisions written : Bool)
    (hfree : h.sparse.Free (newLeaves p.tree state ignoreCollisions)) :
    let applied := applyBlockToTree env p state ignoreCollisions written
    let leaves := newLeaves p.tree state ignoreCollisions
    (∃ h' : applied.1.tree.Valid env.poseidon, h'.sparse = h.sparse.laid leaves) ∧
      (applied.2 = .ok () ↔ written = true ∨ leaves = []) ∧ applied.2 ≠ .error .panic ∧
      applied.1.db = if written then p.db ++ leaves else p.db := by
  intro applied leaves
  have hnull := newLeaves_ne_null p.tree state ignoreCollisions
  have hguard : ¬(ignoreCollisions = false ∧
      state.leavesNonNull.any p.tree.containsElement = true) := by
    rintro ⟨rfl, hany⟩
    have hnone := not_contains_of_vacant h _ hfree.vacant
    simp only [newLeaves, Bool.false_eq_true, if_false] at hnone
    simp [hnone] at hany
  have hbatch : Batch.fromEntries D leaves = .ok ⟨leaves, hfree.distinct⟩ :=
    (Batch.fromEntries_ok _ _).mpr ⟨hfree.distinct, rfl⟩
  obtain ⟨hlaid, hok, hpanic, hdb⟩ := insertBatch_free h ⟨leaves, hfree.distinct⟩ hnull
    hfree.vacant written
  have happlied : applied = ((p.insertBatch env.poseidon ⟨leaves, hfree.distinct⟩ written).1,
      (p.insertBatch env.poseidon ⟨leaves, hfree.distinct⟩ written).2.mapError
        (Failure.map Error.smirk)) := by
    simp only [applied, applyBlockToTree, if_neg hguard]
    rw [hbatch]
  rw [happlied]
  refine ⟨hlaid, ?_, ?_, hdb⟩
  · rw [mapError_ok]
    exact hok
  · rw [ne_eq, mapError_map_panic]
    exact hpanic

/-- A leaf whose slot is taken, or two leaves for one slot, leave the tree as it is. -/
theorem applyBlockToTree_not_free (h : p.tree.Valid env.poseidon) (state : BlockState)
    (ignoreCollisions written : Bool)
    (hfree : ¬h.sparse.Free (newLeaves p.tree state ignoreCollisions)) :
    ∃ failure, applyBlockToTree env p state ignoreCollisions written = (p, .error failure) := by
  unfold applyBlockToTree
  split
  · exact ⟨_, rfl⟩
  · cases hbatch : Batch.fromEntries D (newLeaves p.tree state ignoreCollisions) with
    | error collision => exact ⟨_, rfl⟩
    | ok batch =>
      obtain ⟨hdistinct, hentries⟩ := (Batch.fromEntries_ok _ _).mp hbatch
      have hoccupied : ¬∀ e ∈ batch.entries, h.sparse.leaf (bits D e) = 0 := fun hvacant =>
        hfree ⟨hdistinct, by rwa [hentries] at hvacant⟩
      obtain ⟨failure, hinsert⟩ := insertBatch_collision h batch hoccupied written
      exact ⟨.err (.smirk failure), by simp [hinsert, Except.mapError, Failure.map]⟩

end Laws

/-- Whether the leaves of a block have free slots of their own. -/
def LeavesFree {env : NodeEnv} (badBlocks : List ℕ) (block : Block) (l : Ledger D)
    (h : l.notesTree.tree.Valid env.poseidon) : Prop :=
  h.sparse.Free
    (newLeaves l.notesTree.tree block.content.state (decide (block.height ∈ badBlocks)))

/-- A commit that stored the block and inserted its leaves into the tree. -/
structure Committed (env : NodeEnv) (badBlocks : List ℕ) (io : CommitIo) (block : Block)
    (l l' : Ledger D) (h : l.notesTree.tree.Valid env.poseidon) : Prop where
  stored : l'.blockStore = l.blockStore.set block
  inserted : ∃ h' : l'.notesTree.tree.Valid env.poseidon, h'.sparse = h.sparse.laid
    (newLeaves l.notesTree.tree block.content.state (decide (block.height ∈ badBlocks)))
  written : l'.notesTree.db = if io.treeWritten then l.notesTree.db ++
    newLeaves l.notesTree.tree block.content.state (decide (block.height ∈ badBlocks))
    else l.notesTree.db

section Cases

variable {env : NodeEnv} {badBlocks : List ℕ} {io : CommitIo} {block : Block} {l : Ledger D}

/-- With the store written and free slots, a commit stores the block and inserts its leaves. -/
theorem commitProposal_free (h : l.notesTree.tree.Valid env.poseidon)
    (hstore : io.storeWritten = true) (hfree : LeavesFree badBlocks block l h) :
    let result := commitProposal env badBlocks io block l
    Committed env badBlocks io block l result.1 h ∧ result.2 ≠ .error .panic ∧
      (io.treeWritten = true ∨ newLeaves l.notesTree.tree block.content.state
        (decide (block.height ∈ badBlocks)) = [] → result.2 = .ok ()) := by
  intro result
  obtain ⟨hlaid, hok, hpanic, hdb⟩ := applyBlockToTree_free h block.content.state
    (decide (block.height ∈ badBlocks)) io.treeWritten hfree
  have hguard : ¬(decide (block.height ∈ badBlocks) = false ∧
      block.content.state.leavesNonNull.any l.notesTree.tree.containsElement = true) := by
    rintro ⟨hbad, hany⟩
    have hnone := not_contains_of_vacant h _ hfree.vacant
    simp only [newLeaves, hbad, Bool.false_eq_true, if_false] at hnone
    simp [hnone] at hany
  have hresult : result = (⟨l.blockStore.set block, (applyBlockToTree env l.notesTree
      block.content.state (decide (block.height ∈ badBlocks)) io.treeWritten).1⟩,
      (applyBlockToTree env l.notesTree block.content.state
        (decide (block.height ∈ badBlocks)) io.treeWritten).2) := by
    simp only [result, commitProposal, if_neg hguard, hstore, Bool.true_eq_false, if_false]
  rw [hresult]
  exact ⟨⟨rfl, hlaid, hdb⟩, hpanic, hok.mpr⟩

/-- A commit leaves nothing behind, a stored block, or a stored block with its leaves. -/
theorem commitProposal_cases (h : l.notesTree.tree.Valid env.poseidon) :
    let result := commitProposal env badBlocks io block l
    (result.1 = l ∧ result.2 ≠ .ok ()) ∨
      (result.1 = ⟨l.blockStore.set block, l.notesTree⟩ ∧ result.2 ≠ .ok () ∧
        io.storeWritten = true ∧ ¬LeavesFree badBlocks block l h) ∨
      (Committed env badBlocks io block l result.1 h ∧ io.storeWritten = true ∧
        LeavesFree badBlocks block l h) := by
  intro result
  by_cases hguard : decide (block.height ∈ badBlocks) = false ∧
      block.content.state.leavesNonNull.any l.notesTree.tree.containsElement = true
  · have hresult : result = (l, .error .panic) := by
      simp only [result, commitProposal, if_pos hguard]
    rw [hresult]
    exact Or.inl ⟨rfl, by simp⟩
  by_cases hstore : io.storeWritten = false
  · have hresult : result = (l, .error (.err .blockStore)) := by
      simp only [result, commitProposal, if_neg hguard, if_pos hstore]
    rw [hresult]
    exact Or.inl ⟨rfl, by simp⟩
  rw [Bool.not_eq_false] at hstore
  by_cases hfree : LeavesFree badBlocks block l h
  · exact Or.inr (Or.inr ⟨(commitProposal_free h hstore hfree).1, hstore, hfree⟩)
  · obtain ⟨failure, happlied⟩ := applyBlockToTree_not_free h block.content.state
      (decide (block.height ∈ badBlocks)) io.treeWritten hfree
    have hresult : result = (⟨l.blockStore.set block, l.notesTree⟩, .error failure) := by
      simp only [result, commitProposal, if_neg hguard, hstore, Bool.true_eq_false, if_false,
        happlied]
    rw [hresult]
    exact Or.inr (Or.inl ⟨rfl, by simp, hstore, hfree⟩)

end Cases

/-- A commit with both writes leaves the new leaves in the database. -/
theorem Committed.stored_db {env : NodeEnv} {badBlocks : List ℕ} {io : CommitIo} {block : Block}
    {l l' : Ledger D} {h : l.notesTree.tree.Valid env.poseidon}
    (hcommitted : Committed env badBlocks io block l l' h) (hio : io.treeWritten = true)
    (hstored : l.notesTree.Stored env.poseidon) (hfree : LeavesFree badBlocks block l h) :
    l'.notesTree.Stored env.poseidon := by
  obtain ⟨h', hlaid⟩ := hcommitted.inserted
  have hdb := hcommitted.written
  rw [if_pos hio] at hdb
  exact hstored.append _ (newLeaves_ne_null _ _ _) hfree h' hlaid hdb

/-- A leaf of a block is new or already in the tree. -/
theorem mem_leavesNonNull_iff (tree : Tree D) (state : BlockState) (ignoreCollisions : Bool)
    (e : Element) :
    (e ∈ state.leavesNonNull ∨ tree.containsElement e = true) ↔
      (e ∈ newLeaves tree state ignoreCollisions ∨ tree.containsElement e = true) := by
  unfold newLeaves
  split
  · rw [List.mem_filter]
    by_cases hin : tree.containsElement e = true
    · simp [hin]
    · simp [hin]
  · rfl

theorem contains_laid {env : NodeEnv} {tree tree' : Tree D} (h : tree.Valid env.poseidon)
    (h' : tree'.Valid env.poseidon) (leaves : List Element)
    (hnull : ∀ e ∈ leaves, e ≠ Element.nullHash) (hfree : h.sparse.Free leaves)
    (hlaid : h'.sparse = h.sparse.laid leaves) (e : Element) :
    tree'.containsElement e = true ↔ e ∈ leaves ∨ tree.containsElement e = true := by
  rw [← h'.mem_sparse, hlaid, SparseTree.mem_laid leaves hnull hfree, h.mem_sparse]

/-- What a validated block is promised: validation does not panic, and a block that passes
is committed, to its declared root, with its leaves apart and in empty slots. -/
structure GuardsCommit (env : NodeEnv) (mode : Mode) (badBlocks : List ℕ) (block : Block)
    (l : Ledger D) : Prop where
  no_panic : validate env block.content mode l.blockStore l.notesTree.tree ≠ .error .panic
  commits : validate env block.content mode l.blockStore l.notesTree.tree = .ok () →
    let result := commitProposal env badBlocks ⟨true, true⟩ block l
    result.2 = .ok () ∧ result.1.notesTree.tree.rootHash env.poseidon = block.rootHash
  rejects : validate env block.content mode l.blockStore l.notesTree.tree = .ok () →
    block.content.state.leavesNonNull.Pairwise (fun a b => bits D a ≠ bits D b) ∧
      ∀ leaf ∈ block.content.state.leavesNonNull, l.notesTree.tree.tree.leafAt (bits D leaf) = 0

/-- No two leaves share an empty slot. -/
def Spread (tree : Tree D) (leaves : List Element) : Prop :=
  leaves.Pairwise fun a b => bits D a = bits D b → tree.tree.leafAt (bits D a) ≠ 0

/-- The root when the leaves for taken slots are passed over. -/
def rootPassingOver (env : NodeEnv) (tree : Tree D) (leaves : List Element) : Element :=
  root (elementNode env.poseidon) (D - 1) (overlay (bits D) tree.tree.leafAt leaves)

theorem newLeaves_of_not_bad (tree : Tree D) (state : BlockState) (height : ℕ)
    (badBlocks : List ℕ) (hbad : height ∉ badBlocks) :
    newLeaves tree state (decide (height ∈ badBlocks)) = state.leavesNonNull := by
  simp [newLeaves, hbad]

/-- A block that passes with free slots is committed to its declared root. -/
theorem commits_of_validate {env : NodeEnv} {mode : Mode} {badBlocks : List ℕ} {block : Block}
    {l : Ledger D} (hvalid : l.notesTree.tree.Valid env.poseidon)
    (hbad : block.height ∉ badBlocks)
    (hok : validate env block.content mode l.blockStore l.notesTree.tree = .ok ())
    (hfree : hvalid.sparse.Free block.content.state.leavesNonNull) :
    let result := commitProposal env badBlocks ⟨true, true⟩ block l
    result.2 = .ok () ∧ result.1.notesTree.tree.rootHash env.poseidon = block.rootHash := by
  have hnew := newLeaves_of_not_bad l.notesTree.tree block.content.state block.height badBlocks
    hbad
  obtain ⟨-, hroot⟩ := (validate_ok mode block.content l.blockStore l.notesTree.tree).mp hok
  obtain ⟨-, hdeclared⟩ := (newRootHash_eq_some hvalid _ _).mp hroot
  have hleaves : LeavesFree badBlocks block l hvalid := by
    unfold LeavesFree
    rw [hnew]
    exact hfree
  obtain ⟨hcommitted, -, hresult⟩ := @commitProposal_free D env badBlocks ⟨true, true⟩ block l
    hvalid rfl hleaves
  refine ⟨hresult (Or.inl rfl), ?_⟩
  obtain ⟨h', hsparse⟩ := hcommitted.inserted
  rw [h'.rootHash_eq, hsparse, hnew]
  exact hdeclared.symm

/-- Validation guards the commit exactly when its proofs can be read, no two leaves of the
block share an empty slot, and a leaf for a taken slot shows in the declared root. -/
theorem validate_guards_commit_iff (env : NodeEnv) (mode : Mode) (badBlocks : List ℕ)
    (block : Block) (l : Ledger D) (hvalid : l.notesTree.tree.Valid env.poseidon)
    (hbad : block.height ∉ badBlocks) :
    GuardsCommit env mode badBlocks block l ↔
      ¬Panics env mode block.content l.blockStore l.notesTree.tree ∧
        (PassesTxns env mode block.content l.blockStore l.notesTree.tree →
          Spread l.notesTree.tree block.content.state.leavesNonNull ∧
            ((∀ leaf ∈ block.content.state.leavesNonNull,
                l.notesTree.tree.tree.leafAt (bits D leaf) = 0) ∨
              block.rootHash ≠ rootPassingOver env l.notesTree.tree
                block.content.state.leavesNonNull)) := by
  have hspread : Spread l.notesTree.tree block.content.state.leavesNonNull ↔
      ¬Crowded (bits D) hvalid.sparse.leaf block.content.state.leavesNonNull :=
    (not_crowded_iff (bits D) _ _).symm
  have hroot := newRootHash_eq_some hvalid block.content.state.leavesNonNull
  have hnone := newRootHash_eq_none hvalid block.content.state.leavesNonNull
  have hok := @validate_ok D env mode block.content l.blockStore l.notesTree.tree
  have hpanic := @validate_panic D env mode block.content l.blockStore l.notesTree.tree
  constructor
  · intro h
    have hno := h.no_panic
    rw [ne_eq, hpanic, hnone, not_or, not_and] at hno
    refine ⟨hno.1, fun hpasses => ⟨hspread.mpr (hno.2 hpasses), ?_⟩⟩
    by_contra htaken
    rw [not_or, ne_eq, not_not] at htaken
    have hsome := (hroot block.rootHash).mpr ⟨hno.2 hpasses, htaken.2⟩
    exact htaken.1 (h.rejects (hok.mpr ⟨hpasses, hsome⟩)).2
  · rintro ⟨hread, hpass⟩
    have hguard : validate env block.content mode l.blockStore l.notesTree.tree = .ok () →
        hvalid.sparse.Free block.content.state.leavesNonNull := by
      intro hvalidated
      obtain ⟨hpasses, hsome⟩ := hok.mp hvalidated
      obtain ⟨hapart, hvacant | hdiffers⟩ := hpass hpasses
      · refine ⟨hapart.imp_of_mem ?_, hvacant⟩
        intro a b ha _ hab heq
        exact hab heq (hvacant a ha)
      · exact absurd ((hroot _).mp hsome).2 hdiffers
    refine ⟨?_, fun h => commits_of_validate hvalid hbad h (hguard h), fun h =>
      ⟨(hguard h).distinct, (hguard h).vacant⟩⟩
    rw [ne_eq, hpanic, hnone]
    rintro (hunread | ⟨hpasses, hcrowded⟩)
    · exact hread hunread
    · exact hspread.mp (hpass hpasses).1 hcrowded

/-- Constant hashes, and a verifier that accepts every proof. -/
def trustingEnv : NodeEnv where
  keccak256 := fun _ => 0#256
  poseidon := fun _ => 0
  verifyProof := fun _ _ => some true
  recoverEcdsa := fun _ _ _ _ => none

def freshLedger (D : ℕ) : Ledger D := ⟨BlockStore.empty, ⟨Tree.new D, []⟩⟩

/-- One transaction whose two inputs differ only above the bits of their slot. -/
def sharingBlock : Block :=
  ⟨⟨⟨1, 0#256, 0, 0#256, []⟩, ⟨0#256, [⟨0#256, 0#256, 0#256,
    (1#256, BitVec.ofNat 256 (2 ^ 160 + 1)), (0#256, 0#256), []⟩]⟩⟩, Vector.replicate 65 0⟩

theorem sharing_leaves_one_slot :
    bits 161 (BitVec.ofNat 256 (2 ^ 160 + 1)) = bits 161 1#256 := by
  unfold bits Element.lsb
  rw [← BitLists.toBits_mod, BitVec.toNat_ofNat]
  norm_num

/-- Two leaves of one transaction can share an empty slot: validation panics. -/
theorem not_validate_guards_commit :
    ¬GuardsCommit trustingEnv .node [] sharingBlock (freshLedger 161) := by
  intro h
  apply h.no_panic
  have hvalid : (freshLedger 161).notesTree.tree.Valid trustingEnv.poseidon := Tree.new_valid
  apply (validate_panic _ _ _ _).mpr
  refine Or.inr ⟨⟨?_, ?_⟩, ?_⟩
  · decide
  · intro txn htxn
    obtain rfl := List.mem_singleton.mp htxn
    refine ⟨rfl, Or.inl rfl, ?_, fun _ _ _ => rfl⟩
    intro leaf hleaf
    simp only [UtxoProof.leaves, List.mem_cons, List.not_mem_nil, or_false] at hleaf
    rcases hleaf with rfl | rfl | rfl | rfl
    all_goals
      rw [BitVec.toNat_ofNat]
      norm_num [modulus]
  · rw [newRootHash_eq_none hvalid]
    by_contra hapart
    have hpairs := (not_crowded_iff (bits 161) _ _).mp hapart
    have hempty : hvalid.sparse.leaf (bits 161 1#256) = 0 := SmirkNode.leafAt_empty _
    refine (List.rel_of_pairwise_cons hpairs ?_) sharing_leaves_one_slot.symm hempty
    decide

/-- The same node with the sum for Poseidon. -/
def summingEnv : NodeEnv := { trustingEnv with poseidon := List.sum }

/-- A sum adds one side of a path after the other to its leaf. -/
theorem climb_summing (path : List (Bool × Fr)) (leaf : Fr) :
    climb (fieldNode List.sum) path leaf = climb (fieldNode List.sum) path 0 + leaf := by
  induction path with
  | nil => exact (zero_add leaf).symm
  | cons step rest ih =>
    obtain ⟨right, sibling⟩ := step
    cases right with
    | false =>
      simp only [climb, fieldNode, ih, Bool.false_eq_true, if_false, List.sum_cons, List.sum_nil]
      ring
    | true =>
      simp only [climb, fieldNode, ih, if_true, List.sum_cons, List.sum_nil]
      ring

/-- An element for an empty slot is added to the root. -/
theorem root_summing_update (σ : List Bool → Element) (p : List Bool) (e : Element)
    (hvacant : σ p = 0) :
    (root (elementNode List.sum) p.length (Function.update σ p e)).toBase =
      (root (elementNode List.sum) p.length σ).toBase + e.toBase := by
  have hupdate : (fun q => (Function.update σ p e q).toBase) =
      Function.update (fun q => (σ q).toBase) p e.toBase :=
    funext fun q => Function.apply_update (fun _ => Element.toBase) σ p e q
  have hzero : (σ p).toBase = 0 := by
    rw [hvacant]
    exact Element.toBase_zero
  rw [root_elementNode_toBase, root_elementNode_toBase, hupdate, root_update, root_eq_climb, hzero,
    climb_summing]

/-- The root is then the sum of the elements. -/
theorem laid_summing (T : SparseTree Element (bits D)) (elements : List Element)
    (hnull : ∀ e ∈ elements, e ≠ 0) (hfree : T.Free elements) :
    (root (elementNode List.sum) (D - 1) (T.laid elements).leaf).toBase =
      (root (elementNode List.sum) (D - 1) T.leaf).toBase +
        (elements.map Element.toBase).sum := by
  induction elements generalizing T with
  | nil => rw [SparseTree.laid_nil, List.map_nil, List.sum_nil, add_zero]
  | cons e rest ih =>
    have hvacant := hfree.vacant e (List.mem_cons_self ..)
    obtain ⟨S, hinsert⟩ : ∃ S, T.insert e = some S := ⟨_, if_pos hvacant⟩
    have hne := hnull e (List.mem_cons_self ..)
    have hleaf := ((SparseTree.insert_eq_some T S e).mp hinsert).2
    have hstep := root_summing_update T.leaf (bits D e) e hvacant
    rw [bits_length] at hstep
    rw [← SparseTree.laid_of_insert S e rest hne hinsert,
      ih S (fun x hx => hnull x (List.mem_cons_of_mem _ hx))
        ((SparseTree.free_of_insert S e rest hne hinsert).mpr hfree),
      hleaf, hstep, List.map_cons, List.sum_cons, add_assoc]

theorem empty_summing (height : ℕ) : (emptyTreeCache List.sum height).toBase = 0 := by
  induction height with
  | zero => exact Element.toBase_zero
  | succ height ih => simp [emptyTreeCache, ih]

/-- The root of a tree is then the sum of its elements. -/
theorem root_summing (hD : 2 ≤ D) (elements : List Element) (hnull : ∀ e ∈ elements, e ≠ 0)
    (hfree : (SparseTree.empty (bits D)).Free elements) :
    root (elementNode List.sum) (D - 1) ((SparseTree.empty (bits D)).laid elements).leaf =
      Element.fromBase ((elements.map Element.toBase).sum) := by
  obtain ⟨height, rfl⟩ := Nat.exists_eq_add_of_le' hD
  have hsum := laid_summing (SparseTree.empty (bits (height + 2))) elements hnull hfree
  have hempty : (root (elementNode List.sum) (height + 2 - 1)
      (SparseTree.empty (bits (height + 2))).leaf).toBase = 0 :=
    (congrArg Element.toBase (root_empty List.sum (height + 1))).trans (empty_summing _)
  rw [hempty, zero_add] at hsum
  rw [← hsum]
  exact (Element.fromBase_toBase _ (hashMerge_toNat_lt _ _)).symm

/-- A transaction with one leaf. -/
def leafTxn (leaf : Element) : UtxoProof :=
  ⟨0#256, 0#256, 0#256, (0#256, 0#256), (leaf, 0#256), []⟩

theorem leafTxn_sized (leaf : Element) (hleaf : leaf.toNat < modulus) :
    ∀ e ∈ (leafTxn leaf).leaves, e.toNat < modulus := by
  intro e he
  simp only [leafTxn, UtxoProof.leaves, List.mem_cons, List.not_mem_nil, or_false] at he
  rcases he with rfl | rfl | rfl | rfl
  · exact modulus_prime.pos
  · exact modulus_prime.pos
  · exact hleaf
  · exact modulus_prime.pos

def leafBlock (height : ℕ) (lastBlockHash : CryptoHash) (rootHash leaf : Element) : Block :=
  ⟨⟨⟨height, lastBlockHash, 0, 0#256, []⟩, ⟨rootHash, [leafTxn leaf]⟩⟩, Vector.replicate 65 0⟩

theorem leafBlock_leaves (height : ℕ) (lastBlockHash : CryptoHash) (rootHash leaf : Element)
    (hleaf : leaf ≠ 0#256) :
    (leafBlock height lastBlockHash rootHash leaf).content.state.leavesNonNull = [leaf] := by
  simp [leafBlock, leafTxn, BlockState.leavesNonNull, BlockState.leaves, UtxoProof.leaves, nonNull,
    Element.nullHash, Element.zero, hleaf]

/-- The first block with a leaf passes with the sum for its root, and is guarded. -/
theorem validate_guards_first_block :
    let block := leafBlock 1 0#256 5#256 5#256
    validate summingEnv block.content .node BlockStore.empty (freshLedger 161).notesTree.tree =
        .ok () ∧
      GuardsCommit summingEnv .node [] block (freshLedger 161) := by
  intro block
  have hvalid : (freshLedger 161).notesTree.tree.Valid summingEnv.poseidon := Tree.new_valid
  have hleaves : block.content.state.leavesNonNull = [5#256] :=
    leafBlock_leaves 1 0#256 5#256 5#256 (by decide)
  have hvacant : ∀ e : Element, (freshLedger 161).notesTree.tree.tree.leafAt (bits 161 e) = 0 :=
    fun e => leafAt_empty _
  have hspread : Spread (freshLedger 161).notesTree.tree block.content.state.leavesNonNull := by
    rw [hleaves]
    exact List.pairwise_singleton _ _
  have hverified : ∀ txn : UtxoProof, txn.verify summingEnv = some true := fun _ => rfl
  refine ⟨(validate_ok _ _ _ _).mpr ⟨⟨?_, ?_⟩, (newRootHash_eq_some hvalid _ _).mpr
    ⟨(not_crowded_iff (bits 161) _ _).mpr hspread, ?_⟩⟩, ?_⟩
  · rw [hleaves]
    exact List.nodup_singleton _
  · intro txn htxn
    obtain rfl := List.mem_singleton.mp htxn
    exact ⟨hverified _, Or.inl rfl, leafTxn_sized 5#256 (by norm_num [modulus]),
      fun _ _ _ => rfl⟩
  · have hempty : hvalid.sparse = SparseTree.empty (bits 161) := Tree.new_sparse hvalid
    have hroot := @root_summing 161 (by norm_num) [5#256] (by simp)
      ⟨List.pairwise_singleton _ _, fun _ _ => rfl⟩
    rw [List.map_singleton, List.sum_singleton, Element.fromBase_toBase _ (by norm_num [modulus])]
      at hroot
    rw [hleaves, hempty]
    exact hroot.symm
  · refine (validate_guards_commit_iff summingEnv .node [] block (freshLedger 161) hvalid
      List.not_mem_nil).mpr ⟨?_, fun _ => ⟨hspread, Or.inl fun leaf _ => hvacant leaf⟩⟩
    rintro ⟨before, txn, after, -, hunread, -⟩
    rw [hverified] at hunread
    cases hunread

end PayyRollup.BlockCommit
