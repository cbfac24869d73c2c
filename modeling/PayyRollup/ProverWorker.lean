import PayyRollup.BlockCommit
import PayyRollup.RollupProver
import PayyRollup.SmirkStorage

/-!
The prover worker at a block it has to prove. It pads the transactions to the slots of a
proof, which panics when the block has more, proves the block on a copy of its tree, keeps
the proof for the contract, and then inserts the leaves of the block. A validated block has
the root of the tree with its leaves laid over it, and the proof exposes the same root when
every leaf finds its slot empty.
-/
namespace PayyRollup.ProverWorker

open ScalarField ConstraintProgram SparseMerkle ElementHash VerifierContracts Aggregation SmirkNode
  SmirkTree SmirkValues NodeBlocks BlockValidation BlockCommit ProverBatch RollupProver

structure LastSeenBlock where
  height : ℕ
  rootHash : Element
  deriving DecidableEq

structure RollupInput where
  proof : RollupProof Bytes
  height : ℕ
  otherHash : CryptoHash
  signatures : List Signature

structure ProverDb where
  lastSeenBlock : Option LastSeenBlock
  rollups : ℕ → Option RollupInput

namespace ProverDb

def setRollup (self : ProverDb) (height : ℕ) (rollup : RollupInput) : ProverDb :=
  { self with rollups := Function.update self.rollups height (some rollup) }

def setLastSeenBlock (self : ProverDb) (block : LastSeenBlock) : ProverDb :=
  { self with lastSeenBlock := some block }

end ProverDb

/-- The database and the notes tree of a prover. -/
structure Worker (D : ℕ) where
  db : ProverDb
  notesTree : SmirkStorage.Persistent D SmirkMetadata

/-- Which of the writes for a block the databases allow, and the order of the reports. -/
structure WorkerIo where
  rollupWritten : Bool
  treeWritten : Bool
  lastSeenWritten : Bool
  schedule : Schedule

inductive Error
  | proverDb
  | prover (source : RollupProver.Error)
  | collision (source : CollisionError)
  | smirk (source : SmirkStorage.Error)
  | rootMismatch (got expected : Element)
  | proverTreeRootDoesNotMatchBlockStateRoot (proverTree blockTree : Element)

/-- The witness of a transaction of a block. -/
def ofUtxo (utxo : UtxoProof) : Transaction Bytes := ⟨[utxo.instances], utxo.proof⟩

def padToMaximum (txns : List (Option (Transaction Bytes))) : List (Option (Transaction Bytes)) :=
  txns ++ List.replicate (maximumTxns - txns.length) none

variable {D : ℕ} {Accumulator : Type}

/-- Insert the leaves of a block with its height; a leaf already in the tree panics unless
collisions are ignored. -/
def applyBlockToTree (hash : List Fr → Fr) (schedule : Schedule)
    (notesTree : SmirkStorage.Persistent D SmirkMetadata) (state : BlockState)
    (currentHeight : ℕ) (ignoreCollisions written : Bool) :
    SmirkStorage.Persistent D SmirkMetadata × Outcome Error Unit :=
  if ignoreCollisions = false ∧
      state.leavesNonNull.any notesTree.tree.keyed.containsElement = true then
    (notesTree, .error .panic)
  else
    match ValueBatch.fromEntries D
        ((newLeaves notesTree.tree.keyed state ignoreCollisions).map fun leaf =>
          (leaf, SmirkMetadata.mk currentHeight)) with
    | .error collision => (notesTree, .error (collision.map Error.collision))
    | .ok batch =>
        let inserted := notesTree.insertBatch hash schedule batch written
        (inserted.1, inserted.2.mapError (Failure.map Error.smirk))

section Proving

variable (env : NodeEnv) (V : SnarkVerifier Bytes Accumulator) (S : ProofSystem Bytes)

/-- What follows the proof: the root check and the three writes. -/
def keepProof (io : WorkerIo) (commit nextCommit : Block) (proof : RollupProof Bytes)
    (self : Worker D) : Worker D × Outcome Error Unit :=
  if proof.newRoot ≠ commit.rootHash then
    (self, .error (.err (.rootMismatch proof.newRoot commit.rootHash)))
  else if io.rollupWritten = false then (self, .error (.err .proverDb))
  else
    let rollupInput : RollupInput := ⟨proof, commit.height, commit.content.headerHash env,
      nextCommit.content.header.approvals⟩
    let db := self.db.setRollup commit.height rollupInput
    let applied := applyBlockToTree env.poseidon io.schedule self.notesTree commit.content.state
      commit.height false io.treeWritten
    match applied.2 with
    | .error e => (⟨db, applied.1⟩, .error e)
    | .ok () =>
        if io.lastSeenWritten = false then (⟨db, applied.1⟩, .error (.err .proverDb))
        else
          let worker := ⟨db.setLastSeenBlock ⟨commit.height, commit.rootHash⟩, applied.1⟩
          let root := applied.1.tree.rootHash env.poseidon
          if commit.rootHash ≠ root then
            (worker,
              .error (.err (.proverTreeRootDoesNotMatchBlockStateRoot root commit.rootHash)))
          else (worker, .ok ())

/-- Prove a block that is neither rolled up nor bad; its approvals come with the next one. -/
def proveCommit (io : WorkerIo) (commit nextCommit : Block) (self : Worker D) :
    Worker D × Outcome Error Unit :=
  let txns := padToMaximum (commit.content.state.txns.map fun utxo => some (ofUtxo utxo))
  if h : txns.length = maximumTxns then
    match prove S V env.poseidon self.notesTree.tree commit.height
        ⟨txns.toArray, by simpa using h⟩ with
    | .error e => (self, .error (e.map Error.prover))
    | .ok proof => keepProof env io commit nextCommit proof self
  else (self, .error .panic)

/-- Remember a block, and go on with the stream. -/
def seeBlock (io : WorkerIo) (commit : Block) (self : Worker D) : Worker D × Outcome Error Unit :=
  if io.lastSeenWritten = false then (self, .error (.err .proverDb))
  else (⟨self.db.setLastSeenBlock ⟨commit.height, commit.rootHash⟩, self.notesTree⟩, .ok ())

/-- Handle a block of the stream; `ours` says whether this prover is to prove it. A block
without transactions is passed over. -/
def handleCommit (badBlocks : List ℕ) (contractHeight : ℕ) (ours : Bool) (io : WorkerIo)
    (commit nextCommit : Block) (self : Worker D) : Worker D × Outcome Error Unit :=
  if commit.content.state.txns.isEmpty then seeBlock io commit self
  else
    let isABadBlock := decide (commit.height ∈ badBlocks)
    if commit.height ≤ contractHeight ∨ isABadBlock = true ∨ ours = false then
      let applied := applyBlockToTree env.poseidon io.schedule self.notesTree commit.content.state
        commit.height isABadBlock io.treeWritten
      match applied.2 with
      | .error failure => (⟨self.db, applied.1⟩, .error failure)
      | .ok () => seeBlock io commit ⟨self.db, applied.1⟩
    else proveCommit env V S io commit nextCommit self

end Proving

section Applying

variable {hash : List Fr → Fr} {p : SmirkStorage.Persistent D SmirkMetadata}

/-- Inserting a batch that fits lays it over the tree. -/
theorem insertBatch_laid (h : p.tree.keyed.Valid hash)
    (hcache : SmirkValues.Faithful hash p.tree.cache) (schedule : Schedule)
    (batch : ValueBatch D SmirkMetadata) (hnull : ∀ e ∈ batch.elements, e ≠ Element.nullHash)
    (hvacant : ∀ e ∈ batch.elements, h.sparse.leaf (bits D e) = 0) :
    (p.insertBatch hash schedule batch true).2 = .ok () ∧
      ∃ h' : (p.insertBatch hash schedule batch true).1.tree.keyed.Valid hash,
        h'.sparse = h.sparse.laid batch.elements := by
  obtain ⟨node, -, hok, hvalid, hlaid⟩ := ValueTree.insertBatch_free h hcache schedule batch hnull
    hvacant
  by_cases hempty : batch.entries = []
  · have hsame : p.insertBatch hash schedule batch true = (p, .ok ()) := by
      simp [SmirkStorage.Persistent.insertBatch, hempty]
    rw [hsame]
    refine ⟨rfl, h, ?_⟩
    rw [ValueBatch.elements, hempty, List.map_nil, SparseTree.laid_nil]
  · have hinsert : p.insertBatch hash schedule batch true =
        (⟨⟨node.recalculateHashes hash, KeyValueStore.putAll batch.entries p.tree.entries,
            p.tree.cache⟩,
          KeyValueStore.write (SmirkStorage.Persistent.writeBatch batch.entries
            (SmirkValues.Node.recalculateHashes hash (elementNode hash) node schedule).2) p.db⟩,
          .ok ()) := by
      rw [SmirkStorage.Persistent.insertBatch, if_neg (by simpa using hempty), hok]
      rfl
    rw [hinsert]
    exact ⟨rfl, hvalid, hlaid⟩

theorem applyBlockToTree_free (h : p.tree.keyed.Valid hash)
    (hcache : SmirkValues.Faithful hash p.tree.cache) (hD : D ≤ 257) (schedule : Schedule)
    (state : BlockState) (height : ℕ) (hfree : h.sparse.Free state.leavesNonNull) :
    (applyBlockToTree hash schedule p state height false true).2 = .ok () ∧
      ∃ h' : (applyBlockToTree hash schedule p state height false true).1.tree.keyed.Valid hash,
        h'.sparse = h.sparse.laid state.leavesNonNull := by
  have hguard : ¬(False ∨ state.leavesNonNull.any p.tree.keyed.containsElement = true) := by
    rintro (hfalse | hany)
    · exact hfalse
    · obtain ⟨leaf, hleaf, hin⟩ := List.any_eq_true.mp hany
      obtain ⟨hne, heq⟩ := (SparseTree.mem_iff h.sparse leaf).mp ((h.mem_sparse leaf).mpr hin)
      exact hne (heq.symm.trans (hfree.vacant leaf hleaf))
  have hmap : (state.leavesNonNull.map fun leaf => (leaf, SmirkMetadata.mk height)).map Prod.fst =
      state.leavesNonNull := by
    rw [List.map_map]
    exact List.map_id _
  obtain ⟨batch, hbatch, hentries⟩ := ValueTree.valueBatch_fromEntries (V := SmirkMetadata)
    (state.leavesNonNull.map fun leaf => (leaf, SmirkMetadata.mk height)) (Or.inr hD)
    (List.pairwise_map.mpr hfree.distinct)
  have helements : batch.elements = state.leavesNonNull := by
    rw [ValueBatch.elements, hentries, hmap]
  obtain ⟨hok, hlaid⟩ := insertBatch_laid h hcache schedule batch
    (by rw [helements]; exact fun e he => ((mem_nonNull _ e).mp he).2)
    (by rw [helements]; exact hfree.vacant)
  have happlied : applyBlockToTree hash schedule p state height false true =
      ((p.insertBatch hash schedule batch true).1,
        (p.insertBatch hash schedule batch true).2.mapError (Failure.map Error.smirk)) := by
    rw [applyBlockToTree, if_neg fun hboth => hguard (Or.inr hboth.2), newLeaves]
    simp only [Bool.false_eq_true, if_false, hbatch]
  rw [happlied, hok, ← helements]
  exact ⟨rfl, hlaid⟩

/-- A block is applied only when its leaves go into empty slots. -/
theorem vacant_of_applyBlockToTree (h : p.tree.keyed.Valid hash) (schedule : Schedule)
    (state : BlockState) (height : ℕ) (written : Bool)
    (hok : (applyBlockToTree hash schedule p state height false written).2 = .ok ()) :
    ∀ leaf ∈ state.leavesNonNull, h.sparse.leaf (bits D leaf) = 0 := by
  unfold applyBlockToTree at hok
  split at hok
  · cases hok
  · split at hok
    · cases hok
    · rename_i batch hbatch
      have helements : batch.elements = state.leavesNonNull := by
        rw [ValueBatch.elements, ValueTree.valueBatch_fromEntries_ok _ batch hbatch, List.map_map]
        exact List.map_id _
      rw [← helements]
      have hinserted := (mapError_ok _ _ _).mp hok
      unfold SmirkStorage.Persistent.insertBatch at hinserted
      split at hinserted
      · rename_i hempty
        rw [List.isEmpty_iff] at hempty
        simp [ValueBatch.elements, hempty]
      · split at hinserted
        · cases hinserted
        · rename_i hinsert
          exact (ValueTree.free_of_insertBatch h schedule batch _ hinsert).2

end Applying
section Slots

theorem padToMaximum_drop (utxos : List UtxoProof) (k : ℕ) :
    (padToMaximum (utxos.map fun utxo => some (ofUtxo utxo))).drop k =
      ((utxos.drop k).map fun utxo => some (ofUtxo utxo)) ++
        List.replicate (maximumTxns - utxos.length - (k - utxos.length)) none := by
  rw [padToMaximum, List.drop_append, List.length_map, List.map_drop, List.drop_replicate]

theorem slotLeaves_ofUtxo (utxo : UtxoProof) (h : ∀ leaf ∈ utxo.leaves, leaf.toNat < modulus) :
    slotLeaves (some (ofUtxo utxo)) = utxo.leaves := by
  have hdrop : slotLeaves (some (ofUtxo utxo)) =
      utxo.leaves.map fun leaf => Element.fromBase leaf.toBase := rfl
  rw [hdrop]
  calc utxo.leaves.map (fun leaf => Element.fromBase leaf.toBase)
      = utxo.leaves.map id := List.map_congr_left fun leaf hleaf =>
        Element.fromBase_toBase leaf (h leaf hleaf)
    _ = utxo.leaves := List.map_id _

/-- Transactions with empty slots behind them have the leaves of the transactions and zeros. -/
theorem slotLeaves_padded (utxos : List UtxoProof) (count : ℕ)
    (h : ∀ utxo ∈ utxos, ∀ leaf ∈ utxo.leaves, leaf.toNat < modulus) :
    ((utxos.map fun utxo => some (ofUtxo utxo)) ++ List.replicate count none).flatMap slotLeaves =
      utxos.flatMap UtxoProof.leaves ++ List.replicate (4 * count) Element.zero := by
  have hempty : (List.replicate count (none : Option (Transaction Bytes))).flatMap slotLeaves =
      List.replicate (4 * count) Element.zero := by
    induction count with
    | zero => rfl
    | succ count ih =>
      rw [List.replicate_succ, List.flatMap_cons, ih, slotLeaves, List.replicate_append_replicate]
      congr 1
      omega
  rw [List.flatMap_append, hempty, List.flatMap_map]
  congr 1
  exact List.flatMap_congr fun utxo hutxo => slotLeaves_ofUtxo utxo (h utxo hutxo)

theorem nonNull_append_zeros (leaves : List Element) (count : ℕ) :
    nonNull (leaves ++ List.replicate count Element.zero) = nonNull leaves := by
  have hzeros : nonNull (List.replicate count Element.zero) = [] := by
    refine List.eq_nil_iff_forall_not_mem.mpr fun e he => ?_
    obtain ⟨hmem, hne⟩ := (mem_nonNull _ e).mp he
    exact hne (List.eq_of_mem_replicate hmem)
  rw [nonNull_append, hzeros, List.append_nil]

/-- The recent root, the hash and the value of a transaction. -/
def values (utxo : UtxoProof) : List Element := [utxo.recentRoot, utxo.mbHash, utxo.mbValue]

theorem slotValues_padded (utxos : List UtxoProof) (count : ℕ) :
    ((utxos.map fun utxo => some (ofUtxo utxo)) ++ List.replicate count none).flatMap slotValues =
      (utxos.flatMap values).map Element.toBase ++ List.replicate (3 * count) 0 := by
  have hempty : (List.replicate count (none : Option (Transaction Bytes))).flatMap slotValues =
      List.replicate (3 * count) 0 := by
    induction count with
    | zero => rfl
    | succ count ih =>
      have hone : slotValues (none : Option (Transaction Bytes)) = List.replicate 3 0 := by
        simp [slotValues, slotInstances, cellAt, List.replicate_succ]
      rw [List.replicate_succ, List.flatMap_cons, ih, hone, List.replicate_append_replicate]
      congr 1
      omega
  rw [List.flatMap_append, hempty, List.flatMap_map, List.map_flatMap]
  rfl

end Slots

section Rollups

variable (env : NodeEnv) (V : SnarkVerifier Bytes Accumulator) (S : ProofSystem Bytes)
  (badBlocks : List ℕ) (contractHeight : ℕ) (schedule : Schedule) (commit nextCommit : Block)

/-- What a prover whose databases take every write makes of a block that is its to prove. -/
def handled (worker : Worker D) : Worker D × Outcome Error Unit :=
  handleCommit env V S badBlocks contractHeight true ⟨true, true, true, schedule⟩ commit nextCommit
    worker

/-- What a committed block is promised of a prover: it does not stop the prover, the tree moves
to its root, and unless it has no transactions, of which there is nothing to prove, it is proved
from the root of the tree to its own root, with the values of its transactions and padding behind
them. -/
structure RollsUp (T : Tree D) (worker : Worker D) : Prop where
  passed : (handled env V S badBlocks contractHeight schedule commit nextCommit worker).2 = .ok ()
  stored : commit.content.state.txns ≠ [] → ∃ rollup : RollupInput,
    (handled env V S badBlocks contractHeight schedule commit nextCommit worker).1.db.rollups
        commit.height = some rollup ∧
      rollup.proof.oldRoot = T.rootHash env.poseidon ∧
      rollup.proof.newRoot = commit.rootHash ∧
      rollup.proof.utxoHashes = commit.content.state.txns.flatMap values ++
        List.replicate (3 * (maximumTxns - commit.content.state.txns.length)) Element.zero
  applied : (handled env V S badBlocks contractHeight schedule commit nextCommit
    worker).1.notesTree.tree.rootHash env.poseidon = commit.rootHash

/-- The blocks that a prover gets past: proof generation does not look at the witness of the
default aggregate, the transactions fit the slots of a proof, their leaves find empty slots
and their values are field elements, and the slot of zero is empty wherever the batch takes
the path of zero for its root. -/
structure Provable (S : ProofSystem Bytes) (state : BlockState) (T : Tree D) : Prop where
  unchecked : S.checksWitness = false
  fits : state.txns.length ≤ maximumTxns
  vacant : ∀ leaf ∈ state.leavesNonNull, T.tree.leafAt (bits D leaf) = 0
  sized : ∀ value ∈ state.txns.flatMap values, value.toNat < modulus
  old_root : state.leaves.headD Element.zero = Element.zero →
    rootWithoutZero env.poseidon D T.tree.leafAt = T.rootHash env.poseidon
  new_root : nonNull ((state.txns.drop utxoAggNumber).flatMap UtxoProof.leaves) = [] →
    rootWithoutZero env.poseidon D (overlay (bits D) T.tree.leafAt state.leavesNonNull) =
      state.rootHash

/-- A proof is kept when its root is that of the block and the leaves of the block lead the
tree there. -/
theorem keepProof_ok (proof : RollupProof Bytes) (worker : Worker D) :
    let applied := applyBlockToTree env.poseidon schedule worker.notesTree commit.content.state
      commit.height false true
    let kept := keepProof env ⟨true, true, true, schedule⟩ commit nextCommit proof worker
    (kept.2 = .ok () ↔ proof.newRoot = commit.rootHash ∧ applied.2 = .ok () ∧
        applied.1.tree.rootHash env.poseidon = commit.rootHash) ∧
      (kept.2 = .ok () → kept.1.notesTree = applied.1 ∧
        kept.1.db.rollups commit.height =
          some ⟨proof, commit.height, commit.content.headerHash env,
            nextCommit.content.header.approvals⟩) := by
  intro applied kept
  have hkept : kept = keepProof env ⟨true, true, true, schedule⟩ commit nextCommit proof worker :=
    rfl
  unfold keepProof at hkept
  by_cases hroot : proof.newRoot = commit.rootHash
  · rw [if_neg (not_not.mpr hroot)] at hkept
    cases happlied : applied.2 with
    | error e =>
      simp only [Bool.true_eq_false, if_false, applied, happlied] at hkept
      simp [hkept, hroot]
    | ok u =>
      simp only [Bool.true_eq_false, if_false, applied, happlied] at hkept
      by_cases htree : applied.1.tree.rootHash env.poseidon = commit.rootHash
      · rw [if_neg (not_not.mpr htree.symm)] at hkept
        rw [hkept]
        refine ⟨⟨fun _ => ⟨hroot, rfl, htree⟩, fun _ => rfl⟩, fun _ => ⟨rfl, ?_⟩⟩
        simp [ProverDb.setLastSeenBlock, ProverDb.setRollup]
      · rw [if_pos fun h => htree h.symm] at hkept
        simp [hkept, htree]
  · rw [if_pos hroot] at hkept
    simp [hkept, hroot]

variable {env V S badBlocks contractHeight schedule commit nextCommit}

/-- A block with transactions that is neither rolled up nor bad is proved. -/
theorem handled_eq_proveCommit (worker : Worker D) (hne : commit.content.state.txns ≠ [])
    (hnew : contractHeight < commit.height) (hgood : commit.height ∉ badBlocks) :
    handled env V S badBlocks contractHeight schedule commit nextCommit worker =
      proveCommit env V S ⟨true, true, true, schedule⟩ commit nextCommit worker := by
  have hproves : ¬(commit.height ≤ contractHeight ∨ decide (commit.height ∈ badBlocks) = true ∨
      true = false) := by
    rw [decide_eq_true_iff]
    rintro (hold | hbad | hfalse)
    · omega
    · exact hgood hbad
    · cases hfalse
  rw [handled, handleCommit, if_neg (by rwa [List.isEmpty_iff]), if_neg hproves]

/-- A block without transactions is only remembered. -/
theorem handled_empty (worker : Worker D) (hnil : commit.content.state.txns = []) :
    handled env V S badBlocks contractHeight schedule commit nextCommit worker =
      (⟨worker.db.setLastSeenBlock ⟨commit.height, commit.rootHash⟩, worker.notesTree⟩,
        .ok ()) := by
  rw [handled, handleCommit, hnil]
  rfl

theorem padToMaximum_length (txns : List (Option (Transaction Bytes))) :
    (padToMaximum txns).length = maximumTxns ↔ txns.length ≤ maximumTxns := by
  rw [padToMaximum, List.length_append, List.length_replicate]
  omega

/-- Transactions that fit are proved in their slots. -/
theorem proveCommit_fits (io : WorkerIo) (worker : Worker D)
    (h : commit.content.state.txns.length ≤ maximumTxns) :
    ∃ slots : Vector (Option (Transaction Bytes)) maximumTxns, slots.toList = padToMaximum
        (commit.content.state.txns.map fun utxo => some (ofUtxo utxo)) ∧
      proveCommit env V S io commit nextCommit worker =
        match prove S V env.poseidon worker.notesTree.tree commit.height slots with
        | .error e => (worker, .error (e.map Error.prover))
        | .ok proof => keepProof env io commit nextCommit proof worker := by
  have hlen := (padToMaximum_length (commit.content.state.txns.map fun utxo =>
    some (ofUtxo utxo))).mpr (by rwa [List.length_map])
  refine ⟨⟨_, by rw [List.size_toArray]; exact hlen⟩, rfl, ?_⟩
  rw [proveCommit]
  exact dif_pos hlen

/-- More transactions than slots panic. -/
theorem proveCommit_too_many (io : WorkerIo) (worker : Worker D)
    (h : maximumTxns < commit.content.state.txns.length) :
    proveCommit env V S io commit nextCommit worker = (worker, .error .panic) := by
  have hlen := (padToMaximum_length (commit.content.state.txns.map fun utxo =>
    some (ofUtxo utxo))).not.mpr (by rw [List.length_map]; omega)
  rw [proveCommit]
  exact dif_neg hlen

end Rollups

section Validated

variable {env : NodeEnv} {V : SnarkVerifier Bytes Accumulator} {S : ProofSystem Bytes}
  (hlimbs : ∀ acc, (V.limbs acc).length = 12) (hD : 1 < D) (hD' : D ≤ 257)

theorem head?_append_zeros (leaves : List Element) (count : ℕ) (h : leaves = [] → 0 < count) :
    (leaves ++ List.replicate count Element.zero).head? = some Element.zero ↔
      leaves.headD Element.zero = Element.zero := by
  cases leaves with
  | nil =>
    obtain ⟨n, rfl⟩ := Nat.exists_eq_add_one_of_ne_zero (h rfl).ne'
    simp [List.replicate_succ]
  | cons leaf rest => simp

include hlimbs hD hD' in
/-- What an unchecked proof of a block exposes when its leaves find empty slots. -/
theorem prove_fits (hS : S.checksWitness = false) (t : ValueTree D SmirkMetadata)
    (h : t.keyed.Valid env.poseidon) (hcache : SmirkValues.Faithful env.poseidon t.cache)
    (state : BlockState) (height : ℕ)
    (hsized : ∀ utxo ∈ state.txns, ∀ leaf ∈ utxo.leaves, leaf.toNat < modulus)
    (hfree : h.sparse.Free state.leavesNonNull)
    (slots : Vector (Option (Transaction Bytes)) maximumTxns)
    (hslots : slots.toList = padToMaximum (state.txns.map fun utxo => some (ofUtxo utxo))) :
    ∃ out, prove S V env.poseidon t height slots = .ok out ∧
      out.utxoHashes = (state.txns.flatMap values).map (fun e => Element.fromBase e.toBase) ++
        List.replicate (3 * (maximumTxns - state.txns.length)) Element.zero ∧
      out.oldRoot = (if state.leaves.headD Element.zero = Element.zero then
        rootWithoutZero env.poseidon D t.tree.leafAt else t.rootHash env.poseidon) ∧
      out.newRoot = (if nonNull ((state.txns.drop utxoAggNumber).flatMap UtxoProof.leaves) = [] then
          rootWithoutZero env.poseidon D (overlay (bits D) t.tree.leafAt state.leavesNonNull)
        else root (elementNode env.poseidon) (D - 1)
          (overlay (bits D) t.tree.leafAt state.leavesNonNull)) := by
  have hlist : slots.toList = (state.txns.map fun utxo => some (ofUtxo utxo)) ++
      List.replicate (maximumTxns - state.txns.length) none := by
    rw [hslots, padToMaximum, List.length_map]
  have hleaves : slots.toList.flatMap slotLeaves = state.leaves ++
      List.replicate (4 * (maximumTxns - state.txns.length)) Element.zero := by
    rw [hlist, slotLeaves_padded _ _ hsized]
    rfl
  have hnonNull : nonNull (slots.toList.flatMap slotLeaves) = state.leavesNonNull := by
    rw [hleaves, nonNull_append_zeros]
    rfl
  have hfit : SlotsFit env.poseidon h slots.toList := by
    have hslot : ∀ slot ∈ slots.toList, slotInstances slot ≠ [] ∧ (slotLeaves slot).length = 4 := by
      intro slot hslot
      rw [hlist, List.mem_append] at hslot
      rcases hslot with hslot | hslot
      · obtain ⟨utxo, hutxo, rfl⟩ := List.mem_map.mp hslot
        refine ⟨List.cons_ne_nil _ _, ?_⟩
        rw [slotLeaves_ofUtxo utxo (hsized utxo hutxo)]
        rfl
      · rw [List.eq_of_mem_replicate hslot]
        exact ⟨List.cons_ne_nil _ _, List.length_replicate⟩
    exact ⟨fun slot hmem => (hslot slot hmem).1, fun slot hmem => (hslot slot hmem).2,
      by rw [hnonNull]; exact hfree⟩
  obtain ⟨out, hprove, hvalues, hold, hnew⟩ := prove_unchecked env.poseidon S V hlimbs hS hD hD' t h
    hcache height slots hfit
  refine ⟨out, hprove, ?_, ?_, ?_⟩
  · have hzero : Element.fromBase (0 : Fr) = Element.zero := rfl
    rw [hvalues, hlist, slotValues_padded, List.map_append, List.map_map, List.map_replicate, hzero]
    rfl
  · have hhead := head?_append_zeros state.leaves (4 * (maximumTxns - state.txns.length))
      (by
        intro hnil
        have hcount : state.txns = [] := by
          cases htxns : state.txns with
          | nil => rfl
          | cons utxo rest =>
            rw [BlockState.leaves, htxns, List.flatMap_cons] at hnil
            cases hnil
        rw [hcount]
        decide)
    rw [hold, hleaves]
    exact if_congr hhead rfl rfl
  · have hdrop : nonNull ((slots.toList.drop utxoAggNumber).flatMap slotLeaves) =
        nonNull ((state.txns.drop utxoAggNumber).flatMap UtxoProof.leaves) := by
      rw [hslots, padToMaximum_drop, slotLeaves_padded _ _ fun utxo hutxo =>
        hsized utxo (List.mem_of_mem_drop hutxo), nonNull_append_zeros]
    rw [hnew, hdrop, hnonNull]
    rfl

/-- Values read back from the field are the same exactly when they are canonical. -/
theorem readBack_eq_iff (leaves : List Element) :
    (leaves.map fun e => Element.fromBase e.toBase) = leaves ↔
      ∀ value ∈ leaves, value.toNat < modulus := by
  refine Iff.trans (by rw [← List.map_inj_left, List.map_id']) (forall₂_congr fun value _ =>
    ⟨fun heq => ?_, Element.fromBase_toBase value⟩)
  rw [← heq, Element.fromBase_toNat]
  exact ZMod.val_lt _

include hlimbs hD hD' in
/-- A validated block that is not rolled up yet passes the prover exactly when it has no
transactions or is provable. -/
theorem rollsUp_iff (hkey : env.poseidon [0, 0] ≠ 0) (badBlocks : List ℕ) (contractHeight : ℕ)
    (schedule : Schedule) (mode : Mode) (store : BlockStore) (commit nextCommit : Block)
    (hnew : contractHeight < commit.height) (hgood : commit.height ∉ badBlocks) (T : Tree D)
    (hT : T.Valid env.poseidon) (worker : Worker D)
    (hworker : worker.notesTree.tree.keyed.Valid env.poseidon)
    (hcache : SmirkValues.Faithful env.poseidon worker.notesTree.tree.cache)
    (hsame : ∀ e, worker.notesTree.tree.keyed.containsElement e = T.containsElement e)
    (hvalidated : validate env commit.content mode store T = .ok ()) :
    RollsUp env V S badBlocks contractHeight schedule commit nextCommit T worker ↔
      commit.content.state.txns = [] ∨ Provable env S commit.content.state T := by
  have hsparse : hworker.sparse = hT.sparse := by
    refine SparseTree.ext_mem _ _ fun e => ?_
    rw [hworker.mem_sparse, hT.mem_sparse, hsame]
  have hleafAt : worker.notesTree.tree.tree.leafAt = T.tree.leafAt :=
    congrArg SparseTree.leaf hsparse
  have hrootHash : worker.notesTree.tree.rootHash env.poseidon = T.rootHash env.poseidon := by
    refine (hworker.rootHash_eq).trans ?_
    rw [hsparse, ← hT.rootHash_eq]
  obtain ⟨hpasses, hnewRoot⟩ := (validate_ok mode commit.content store T).mp hvalidated
  obtain ⟨hcrowded, hdeclared⟩ := (newRootHash_eq_some hT _ _).mp hnewRoot
  have hsized : ∀ utxo ∈ commit.content.state.txns, ∀ leaf ∈ utxo.leaves,
      leaf.toNat < modulus := fun utxo hutxo => (hpasses.txns utxo hutxo).sized
  have hfree : (∀ leaf ∈ commit.content.state.leavesNonNull,
      T.tree.leafAt (bits D leaf) = 0) → hworker.sparse.Free commit.content.state.leavesNonNull := by
    intro hvacant
    rw [hsparse]
    exact SparseTree.Free.of_not_crowded hcrowded hvacant
  have hvalues := readBack_eq_iff (commit.content.state.txns.flatMap values)
  have hproof := fun (hS : S.checksWitness = false)
      (hvacant : ∀ leaf ∈ commit.content.state.leavesNonNull, T.tree.leafAt (bits D leaf) = 0) =>
    prove_fits hlimbs hD hD' hS worker.notesTree.tree hworker hcache commit.content.state
      commit.height hsized (hfree hvacant)
  rw [hleafAt, hrootHash] at hproof
  by_cases hnil : commit.content.state.txns = []
  · refine iff_of_true ⟨?_, fun hne => absurd hnil hne, ?_⟩ (Or.inl hnil)
    · rw [handled_empty worker hnil]
    · have hnone : commit.content.state.leavesNonNull = [] := by
        rw [BlockState.leavesNonNull, BlockState.leaves, hnil]
        rfl
      have hroot : T.rootHash env.poseidon = commit.rootHash := by
        rw [hT.rootHash_eq, ← SparseTree.laid_nil hT.sparse, ← hnone]
        exact hdeclared.symm
      rw [handled_empty worker hnil]
      exact hrootHash.trans hroot
  rw [or_iff_right hnil]
  have hhandled : handled env V S badBlocks contractHeight schedule commit nextCommit worker =
      proveCommit env V S ⟨true, true, true, schedule⟩ commit nextCommit worker :=
    handled_eq_proveCommit worker hnil hnew hgood
  constructor
  · intro h
    have hfits : commit.content.state.txns.length ≤ maximumTxns := by
      by_contra hmany
      have hproved := h.passed
      rw [hhandled, proveCommit_too_many _ worker (by omega)] at hproved
      cases hproved
    obtain ⟨slots, hslots, hrun⟩ := @proveCommit_fits D Accumulator env V S commit nextCommit
      ⟨true, true, true, schedule⟩ worker hfits
    have hproved := h.passed
    obtain ⟨rollup, hrollup, hold, hnewRoot, hhashes⟩ := h.stored hnil
    rw [hhandled, hrun] at hproved hrollup
    cases hprove : prove S V env.poseidon worker.notesTree.tree commit.height slots with
    | error e =>
      rw [hprove] at hproved
      cases hproved
    | ok proof =>
      rw [hprove] at hproved hrollup
      obtain ⟨hkept, hdb⟩ := keepProof_ok env schedule commit nextCommit proof worker
      obtain ⟨-, happlied, -⟩ := hkept.mp hproved
      have hstored := (hdb hproved).2
      rw [hrollup, Option.some_inj] at hstored
      have hunchecked := unchecked_of_prove env.poseidon S V hkey _ _ _ _ hprove
      have hvacant := vacant_of_applyBlockToTree hworker schedule commit.content.state
        commit.height true happlied
      change ∀ leaf ∈ _, worker.notesTree.tree.tree.leafAt (bits D leaf) = 0 at hvacant
      rw [hleafAt] at hvacant
      obtain ⟨out, hout, hlist, houtOld, houtNew⟩ := hproof hunchecked hvacant slots hslots
      rw [hprove, Except.ok.injEq] at hout
      subst hout
      rw [hstored] at hold hnewRoot hhashes
      rw [hlist, List.append_left_inj] at hhashes
      refine ⟨hunchecked, hfits, hvacant, hvalues.mp hhashes, fun hhead => ?_, fun hpads => ?_⟩
      · rw [← hold, houtOld, if_pos hhead]
      · exact ((if_pos hpads).symm.trans houtNew.symm).trans hnewRoot
  · intro h
    obtain ⟨slots, hslots, hrun⟩ := @proveCommit_fits D Accumulator env V S commit nextCommit
      ⟨true, true, true, schedule⟩ worker h.fits
    obtain ⟨out, hout, hlist, houtOld, houtNew⟩ := hproof h.unchecked h.vacant slots hslots
    rw [hout] at hrun
    dsimp only at hrun
    obtain ⟨hok, h', hlaid⟩ := applyBlockToTree_free hworker hcache hD' schedule
      commit.content.state commit.height (hfree h.vacant)
    have hroot : (applyBlockToTree env.poseidon schedule worker.notesTree commit.content.state
        commit.height false true).1.tree.rootHash env.poseidon = commit.rootHash := by
      refine (h'.rootHash_eq).trans ?_
      rw [hlaid, hsparse]
      exact hdeclared.symm
    have hnewRoot : out.newRoot = commit.rootHash := by
      rw [houtNew]
      split
      · rename_i hpads
        exact h.new_root hpads
      · exact hdeclared.symm
    obtain ⟨hkept, hdb⟩ := keepProof_ok env schedule commit nextCommit out worker
    have hproved := hkept.mpr ⟨hnewRoot, hok, hroot⟩
    obtain ⟨htree, hrollup⟩ := hdb hproved
    rw [← hhandled] at hrun
    refine ⟨by rw [hrun]; exact hproved,
      fun _ => ⟨_, by rw [hrun]; exact hrollup, ?_, hnewRoot, ?_⟩,
      by rw [hrun, htree]; exact hroot⟩
    · dsimp only
      rw [houtOld, ite_eq_right_iff]
      exact h.old_root
    · dsimp only
      rw [hlist, hvalues.mpr h.sized]

end Validated

section SevenTransactions

/-- Every hash is one, and every proof is accepted. -/
def oneEnv : NodeEnv where
  keccak256 := fun _ => 0#256
  poseidon := fun _ => 1
  verifyProof := fun _ _ => some true
  recoverEcdsa := fun _ _ _ _ => none

def unitVerifier : SnarkVerifier Bytes Unit where
  succinctVerify := fun _ _ _ => ()
  read := fun _ => ()
  limbs := fun _ => List.replicate 12 0
  create := fun _ => ((), [])
  fold := fun _ _ => some ()

/-- Proof generation that yields a proof whatever the witness. -/
def blindProofs : ProofSystem Bytes := ⟨fun _ _ _ => [], false⟩

def freshWorker : Worker 161 := ⟨⟨none, fun _ => none⟩, ⟨ValueTree.newWithCache 161 _ [], ∅⟩⟩

/-- A transaction of the given leaves, without a recent root. -/
def plainTxn (inputs outputs : Element × Element) : UtxoProof :=
  ⟨0#256, 0#256, 0#256, inputs, outputs, []⟩

/-- Seven transactions that only pad. -/
def sevenTxns : Block :=
  ⟨⟨⟨1, 0#256, 0, 0#256, []⟩, ⟨(Tree.new 161).rootHash oneEnv.poseidon,
    List.replicate 7 (plainTxn (0#256, 0#256) (0#256, 0#256))⟩⟩, Vector.replicate 65 0⟩

theorem validTxn_plain (txn : UtxoProof) (height : ℕ) (store : BlockStore)
    (hrecent : txn.recentRoot = 0#256) (hsmall : ∀ leaf ∈ txn.leaves, leaf.toNat < 8) :
    ValidTxn oneEnv .node txn height store (Tree.new 161) :=
  ⟨rfl, Or.inl hrecent, fun leaf hleaf => (hsmall leaf hleaf).trans (by norm_num [modulus]),
    fun _ _ _ => rfl⟩

/-- A block of seven transactions passes validation, and the prover has slots for six. -/
theorem not_rollsUp_seven_txns :
    ¬(validate oneEnv sevenTxns.content .node BlockStore.empty (Tree.new 161) = .ok () →
      RollsUp oneEnv unitVerifier blindProofs [] 0 (fun _ => []) sevenTxns Block.genesis
        (Tree.new 161) freshWorker) := by
  intro h
  have hvalidated :
      validate oneEnv sevenTxns.content .node BlockStore.empty (Tree.new 161) = .ok () := by
    refine (validate_ok _ _ _ _).mpr ⟨⟨by decide, fun txn htxn => ?_⟩, rfl⟩
    rw [List.eq_of_mem_replicate htxn]
    exact validTxn_plain _ _ _ rfl (by simp [plainTxn, UtxoProof.leaves])
  have hproved := (h hvalidated).passed
  rw [handled_eq_proveCommit freshWorker (by simp [sevenTxns]) (by decide) (by simp),
    proveCommit_too_many _ freshWorker (by decide)] at hproved
  cases hproved

end SevenTransactions

section FirstSpend

def spendState : BlockState :=
  ⟨root (elementNode oneEnv.poseidon) (161 - 1) (overlay (bits 161) (Tree.new 161).tree.leafAt
    [5#256, 6#256]), [plainTxn (5#256, 0#256) (6#256, 0#256)]⟩

def spendBlock : Block := ⟨⟨⟨1, 0#256, 0, 0#256, []⟩, spendState⟩, Vector.replicate 65 0⟩

theorem spend_leaves : spendState.leavesNonNull = [5#256, 6#256] := by decide

theorem bits_spend_ne (a b : Element) (ha : a.toNat < 2 ^ 160) (hb : b.toNat < 2 ^ 160)
    (h : a ≠ b) : bits 161 a ≠ bits 161 b := fun heq =>
  h (bits_inj_of_lt 161 a b ha hb heq)

theorem spendBlock_validated :
    validate oneEnv spendBlock.content .node BlockStore.empty (Tree.new 161) = .ok () := by
  have hnew : (Tree.new 161).Valid oneEnv.poseidon := Tree.new_valid
  have hleaves : spendBlock.content.state.leavesNonNull = [5#256, 6#256] := spend_leaves
  have hapart : bits 161 5#256 ≠ bits 161 6#256 :=
    bits_spend_ne _ _ (by decide) (by decide) (by decide)
  refine (validate_ok _ _ _ _).mpr ⟨⟨by decide, fun txn htxn => ?_⟩, ?_⟩
  · obtain rfl := List.mem_singleton.mp htxn
    exact validTxn_plain _ _ _ rfl (by simp [plainTxn, UtxoProof.leaves])
  · rw [hleaves]
    refine (newRootHash_eq_some hnew _ _).mpr ⟨?_, rfl⟩
    rw [not_crowded_iff]
    exact List.pairwise_pair.mpr fun heq => absurd heq hapart

/-- A block that spends one note over the empty tree is rolled up. -/
theorem rollsUp_first_spend :
    RollsUp oneEnv unitVerifier blindProofs [] 0 (fun _ => []) spendBlock Block.genesis
      (Tree.new 161) freshWorker := by
  have hnew : (Tree.new 161).Valid oneEnv.poseidon := Tree.new_valid
  have hcache : SmirkValues.Faithful oneEnv.poseidon [] := fun known hknown => nomatch hknown
  have hfresh := @ValueTree.newWithCache_holds 161 SmirkMetadata oneEnv.poseidon [] hcache
  have hkeyed := @ValueTree.newWithCache_keyed 161 SmirkMetadata []
  have hempty : ∀ p, (Tree.new 161).tree.leafAt p = 0 := fun p => leafAt_empty p
  refine (rollsUp_iff (fun _ => List.length_replicate) (by decide) (by decide) one_ne_zero [] 0
    (fun _ => []) .node BlockStore.empty spendBlock Block.genesis (by decide) (by simp)
    (Tree.new 161) hnew freshWorker hfresh.valid hfresh.faithful
    (fun e => congrArg (Tree.containsElement · e) hkeyed) spendBlock_validated).mpr
    (Or.inr ⟨rfl, by decide, fun leaf _ => hempty _, ?_, fun hhead => absurd hhead (by decide),
      fun _ => ?_⟩)
  · have hsmall : ∀ value ∈ spendBlock.content.state.txns.flatMap values, value.toNat < 8 := by
      simp [spendBlock, spendState, plainTxn, values]
    exact fun value hvalue => (hsmall value hvalue).trans (by norm_num [modulus])
  · have hclear : overlay (bits 161) (Tree.new 161).tree.leafAt [5#256, 6#256]
        (bits 161 Element.zero) = Element.zero := by
      have hfive : bits 161 5#256 ≠ bits 161 Element.zero :=
        bits_spend_ne _ _ (by decide) (by decide) (by decide)
      have hsix : bits 161 6#256 ≠ bits 161 Element.zero :=
        bits_spend_ne _ _ (by decide) (by decide) (by decide)
      rw [overlay, if_pos (hempty _), resident]
      simp [hfive, hsix]
      rfl
    have hleaves : spendBlock.content.state.leavesNonNull = [5#256, 6#256] := spend_leaves
    have hsame := Function.update_eq_self (bits 161 Element.zero)
      (overlay (bits 161) (Tree.new 161).tree.leafAt [5#256, 6#256])
    rw [hclear] at hsame
    rw [hleaves, rootWithoutZero, hsame]
    rfl

end FirstSpend

end PayyRollup.ProverWorker
