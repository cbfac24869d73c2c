import PayyRollup.BlockCommit

/-!
Replaying a block at a height that is known to be bad. The leaves that are in the tree already
are passed over, and only these: two leaves of the block that share a slot, or a new leaf whose
slot is taken by another element, still stop the batch or its insertion, and the block with it.
-/
namespace PayyRollup.BlockReplay

open ScalarField SparseMerkle SmirkNode SmirkTree NodeBlocks BlockValidation BlockCommit

variable {D : ℕ} {env : NodeEnv} {p : Persistent D}

/-- What a replay leaves in the tree: the former elements, and for each leaf of the block that
leaf or another element of its slot. -/
structure Replayed (state : BlockState) (before after : Tree D) : Prop where
  kept : ∀ e, before.containsElement e = true → after.containsElement e = true
  only : ∀ e, after.containsElement e = true →
    before.containsElement e = true ∨ e ∈ state.leavesNonNull
  filled : ∀ leaf ∈ state.leavesNonNull,
    ∃ e, after.containsElement e = true ∧ bits D e = bits D leaf

theorem mem_newLeaves (tree : Tree D) (state : BlockState) (e : Element) :
    e ∈ newLeaves tree state true ↔
      e ∈ state.leavesNonNull ∧ tree.containsElement e = false := by
  rw [newLeaves, if_pos rfl, List.mem_filter, Bool.not_eq_true']

theorem replayed_of_laid (h : p.tree.Valid env.poseidon) (state : BlockState) {after : Tree D}
    (hfree : h.sparse.Free (newLeaves p.tree state true)) (h' : after.Valid env.poseidon)
    (hlaid : h'.sparse = h.sparse.laid (newLeaves p.tree state true)) :
    Replayed state p.tree after := by
  have hmem : ∀ e, after.containsElement e = true ↔
      e ∈ newLeaves p.tree state true ∨ p.tree.containsElement e = true := by
    intro e
    rw [← h'.mem_sparse, ← h.mem_sparse, hlaid]
    exact SparseTree.mem_laid _ (newLeaves_ne_null _ _ _) hfree e
  refine ⟨fun e he => (hmem e).mpr (Or.inr he), ?_, ?_⟩
  · intro e he
    rcases (hmem e).mp he with hnew | hold
    · exact Or.inr ((mem_newLeaves _ _ e).mp hnew).1
    · exact Or.inl hold
  · intro leaf hleaf
    refine ⟨leaf, (hmem leaf).mpr ?_, rfl⟩
    cases hold : p.tree.containsElement leaf with
    | true => exact Or.inr rfl
    | false => exact Or.inl ((mem_newLeaves _ _ leaf).mpr ⟨hleaf, hold⟩)

/-- With collisions ignored a block is replayed exactly when its leaves that are not in the tree
have empty slots of their own. -/
theorem replay_iff (h : p.tree.Valid env.poseidon) (state : BlockState) :
    ((applyBlockToTree env p state true true).2 = .ok () ∧
        Replayed state p.tree (applyBlockToTree env p state true true).1.tree) ↔
      h.sparse.Free (newLeaves p.tree state true) := by
  constructor
  · rintro ⟨hok, -⟩
    by_contra hfree
    obtain ⟨failure, hfailed⟩ := applyBlockToTree_not_free h state true true hfree
    rw [hfailed] at hok
    cases hok
  · intro hfree
    obtain ⟨⟨h', hlaid⟩, hok, -, -⟩ := applyBlockToTree_free h state true true hfree
    exact ⟨hok.mpr (Or.inl rfl), replayed_of_laid h state hfree h' hlaid⟩

/-- A block of one transaction. -/
def oneTxnState (inputs outputs : Element × Element) : BlockState :=
  ⟨0#256, [⟨0#256, 0#256, 0#256, inputs, outputs, []⟩]⟩

theorem replay_iff_fresh :
    (freshLedger 161).notesTree.tree.Valid trustingEnv.poseidon ∧
      Replayed (oneTxnState (5#256, 6#256) (0#256, 0#256)) (freshLedger 161).notesTree.tree
        (applyBlockToTree trustingEnv (freshLedger 161).notesTree
          (oneTxnState (5#256, 6#256) (0#256, 0#256)) true true).1.tree := by
  have hvalid : (freshLedger 161).notesTree.tree.Valid trustingEnv.poseidon := Tree.new_valid
  refine ⟨hvalid, ((replay_iff hvalid _).mpr ⟨?_, ?_⟩).2⟩
  · have hleaves : newLeaves (freshLedger 161).notesTree.tree
        (oneTxnState (5#256, 6#256) (0#256, 0#256)) true = [5#256, 6#256] := by decide
    rw [hleaves, List.pairwise_pair]
    decide +kernel
  · intro e _
    exact SmirkNode.leafAt_empty _

/-- A leaf that a bad block has twice stops its replay. -/
theorem not_replayed_twice :
    (applyBlockToTree trustingEnv (freshLedger 161).notesTree
      (oneTxnState (5#256, 5#256) (0#256, 0#256)) true true).2 ≠ .ok () := by
  have hvalid : (freshLedger 161).notesTree.tree.Valid trustingEnv.poseidon := Tree.new_valid
  have hleaves : newLeaves (freshLedger 161).notesTree.tree
      (oneTxnState (5#256, 5#256) (0#256, 0#256)) true = [5#256, 5#256] := by decide
  intro hok
  obtain ⟨failure, hfailed⟩ := applyBlockToTree_not_free hvalid
    (oneTxnState (5#256, 5#256) (0#256, 0#256)) true true (by
      intro hfree
      have hdistinct := hfree.distinct
      rw [hleaves, List.pairwise_pair] at hdistinct
      exact hdistinct rfl)
  rw [hfailed] at hok
  cases hok

end PayyRollup.BlockReplay
