import PayyRollup.PlainProofs
import PayyRollup.RecordedRoots

/-!
The root history of the contract. The owner's `setRoot` apart, the recorded roots are those of
one sparse tree that grows by the leaves of the accepted blocks, and no element is ever
inserted twice, in every run in which each block still finds its old root when it records its
own. A router that is a prover too can break that: called for a burn of a block, it has the
same block verified in between.
-/
namespace PayyRollup.RootHistory

open ScalarField ConstraintProgram SparseMerkle ElementHash BatchSoundness BridgeCircuits
  Aggregation RollupProof VerifierContracts Transactions RollupState RollupCalls RollupEffects
  CallBacks PaymentLog RecordedRoots

section History

variable {τ : Type} (O : HashOracle Fr) (D : ℕ)

/-- The six UTXO proofs of an accepted block. -/
structure RollsUp (args : BlockArgs) (utxos : List (List Fr)) : Prop where
  count : utxos.length = 6
  accepts : ∀ utxo ∈ utxos, utxo.length = 7 ∧ UtxoAccepts O D utxo
  values : args.utxoHashes.toList.map Element.toBase = utxoValues utxos

/-- The elements the blocks insert: the non-zero leaves of their UTXO proofs, in order. -/
def elements (blocks : List (List (List Fr))) : List Fr := nonZero (blocks.flatMap utxoLeafs)

/-- The roots recorded by the accepted blocks after the first one. -/
def recordedRoots (root₀ : Element) (accepted : List BlockArgs) : List Element :=
  root₀ :: accepted.map BlockArgs.newRoot

/-- The tree of exactly these elements, inserted in order. -/
structure TreeOf (xs : List Fr) (T : NotesTree D) : Prop where
  inserted : (SparseTree.empty (slot (D - 1))).insertAll xs = some T
  members : ∀ x, x ∈ T ↔ x ∈ xs

/-- The recorded roots are those of one tree that grows by the accepted blocks. -/
structure History (root₀ : Element) (accepted : List BlockArgs)
    (blocks : List (List (List Fr))) (s : Rollup τ) : Prop where
  rolls : List.Forall₂ (RollsUp O D) accepted blocks
  recorded : ∀ k ≤ accepted.length, ∃ T, TreeOf D (elements (blocks.take k)) T ∧
    (recordedRoots root₀ accepted)[k]?.map Element.toBase = some (notesRoot O D T)
  ring : ∀ j, s.rootHashes j = 0#256 ∨ s.rootHashes j ∈ recordedRoots root₀ accepted
  current : (recordedRoots root₀ accepted).getLast? = some s.currentRootHash
  nodup : (elements blocks).Nodup

variable {O D}

theorem elements_concat (blocks : List (List (List Fr))) (utxos : List (List Fr)) :
    elements (blocks ++ [utxos]) = elements blocks ++ nonZero (utxoLeafs utxos) := by
  rw [elements, List.flatMap_append, nonZero_append, List.flatMap_singleton, elements]

theorem elements_ne_zero (blocks : List (List (List Fr))) (x : Fr) (hx : x ∈ elements blocks) :
    x ≠ 0 := ((mem_nonZero _ x).mp hx).2

theorem treeOf_insertAll (blocks : List (List (List Fr))) (T : NotesTree D)
    (h : (SparseTree.empty (slot (D - 1))).insertAll (elements blocks) = some T) :
    TreeOf D (elements blocks) T := by
  refine ⟨h, fun x => ?_⟩
  have hmem := SparseTree.insertAll_mem _ T (elements blocks) x (elements_ne_zero blocks) h
  rw [hmem]
  exact or_iff_left (SparseTree.not_mem_empty x)

theorem elements_nodup (blocks : List (List (List Fr))) (T : NotesTree D)
    (h : (SparseTree.empty (slot (D - 1))).insertAll (elements blocks) = some T) :
    (elements blocks).Nodup :=
  (SparseTree.insertAll_nodup _ T (elements blocks) (elements_ne_zero blocks) h).1

/-- The ring after one more root. -/
theorem ring_addRootHash (s s' : Rollup τ) (root₀ : Element) (accepted : List BlockArgs)
    (args : BlockArgs) (hsame : SameRoots (s.addRootHash args.newRoot) s')
    (h : ∀ j, s.rootHashes j = 0#256 ∨ s.rootHashes j ∈ recordedRoots root₀ accepted)
    (j : Fin 64) :
    s'.rootHashes j = 0#256 ∨ s'.rootHashes j ∈ recordedRoots root₀ (accepted ++ [args]) := by
  have hrecorded : recordedRoots root₀ (accepted ++ [args]) =
      recordedRoots root₀ accepted ++ [args.newRoot] := by
    rw [recordedRoots, recordedRoots, List.map_append]
    rfl
  rw [hsame.roots, hrecorded]
  change Function.update s.rootHashes s.nextRootHashIndex args.newRoot j = _ ∨
    Function.update s.rootHashes s.nextRootHashIndex args.newRoot j ∈ _
  by_cases hj : j = s.nextRootHashIndex
  · rw [hj, Function.update_self]
    exact Or.inr (List.mem_append_right _ (List.mem_singleton.mpr rfl))
  · rw [Function.update_of_ne hj]
    rcases h j with hzero | hmem
    · exact Or.inl hzero
    · exact Or.inr (List.mem_append_left _ hmem)

section Run

variable {Proof Accumulator : Type} (V : SnarkVerifier Proof Accumulator)
  (hlimbs : ∀ acc, (V.limbs acc).length = 12) (hO : O.CollisionFree) (hD : D ≤ 257)
  (env : Externals τ) (hgrant : ∀ instances proof, env.aggregatePlonk instances proof = true →
    RollupAccepts V O D instances)

/-- The rows of an accepted call: the roots, then the eighteen hashes. -/
theorem call_rows (args : BlockArgs) :
    let column := (AggregateVerifierV1.instances args.aggrInstances args.oldRoot args.newRoot
      args.utxoHashes).map Element.toBase
    column.length = 32 ∧ cellAt column 12 = args.oldRoot.toBase ∧
      cellAt column 13 = args.newRoot.toBase ∧
      column.drop 14 = args.utxoHashes.toList.map Element.toBase := by
  intro column
  have hlen : (args.aggrInstances.toList.map Element.toBase).length = 12 := by simp
  have hcolumn : column = args.aggrInstances.toList.map Element.toBase ++
      (args.oldRoot.toBase :: args.newRoot.toBase ::
        args.utxoHashes.toList.map Element.toBase) := by
    simp [column, AggregateVerifierV1.instances]
  rw [hcolumn]
  refine ⟨by simp, ?_, ?_, ?_⟩
  · apply cellAt_of_row
    rw [List.getElem?_append_right (by omega), hlen]
    rfl
  · apply cellAt_of_row
    rw [List.getElem?_append_right (by omega), hlen]
    rfl
  · rw [List.drop_append, hlen, List.drop_eq_nil_of_le (by omega)]
    rfl

include hlimbs hO hD hgrant in
/-- A verified block takes the tree of the current root to the tree of its new root. -/
theorem block_moves (args : BlockArgs) (s : Rollup τ) (T : NotesTree D)
    (hT : TreeHashed O D T) (hroot : s.currentRootHash.toBase = notesRoot O D T)
    (hold : args.oldRoot = s.currentRootHash)
    (hverified : Verified env.aggregatePlonk args.aggrProof (AggregateVerifierV1.instances
      args.aggrInstances args.oldRoot args.newRoot args.utxoHashes)) :
    ∃ utxos S, RollsUp O D args utxos ∧
      T.insertAll (nonZero (utxoLeafs utxos)) = some S ∧ TreeHashed O D S ∧
      args.newRoot.toBase = notesRoot O D S := by
  obtain ⟨hlen, hcell, hnew, hhashes⟩ := call_rows args
  obtain ⟨utxos, hcount, hmoves⟩ :=
    rollup_moves hlimbs hO hD _ hlen (hgrant _ _ hverified.2)
  rw [← hold, ← hcell] at hroot
  obtain ⟨S, hS, hhashed, hnewRoot⟩ := hmoves.moves T hT hroot
  refine ⟨utxos, S, ⟨hcount, hmoves.accepts, ?_⟩, hS, hhashed, hnew.symm.trans hnewRoot⟩
  rw [← hhashes]
  exact hmoves.values

include hlimbs hO hD hgrant in
/-- The history of blocks that are recorded one after the other, with the tree of the current
root. -/
theorem history_sequential (s₀ : Rollup τ) (root₀ : Element) (hstart : s₀.currentRootHash = root₀)
    (hring : ∀ j, s₀.rootHashes j = 0#256 ∨ s₀.rootHashes j = root₀)
    (hempty : TreeHashed O D (SparseTree.empty (slot (D - 1))))
    (hroot₀ : root₀.toBase = notesRoot O D (SparseTree.empty (slot (D - 1))))
    (accepted : List BlockArgs) (s : Rollup τ) (h : Sequential env s₀ accepted s) :
    ∃ blocks T, History O D root₀ accepted blocks s ∧
      (SparseTree.empty (slot (D - 1))).insertAll (elements blocks) = some T ∧
      TreeHashed O D T ∧ s.currentRootHash.toBase = notesRoot O D T := by
  induction h with
  | same s hsame =>
    refine ⟨[], SparseTree.empty _, ⟨List.Forall₂.nil, ?_, ?_, ?_, List.nodup_nil⟩, rfl, hempty,
      ?_⟩
    · intro k hk
      obtain rfl : k = 0 := Nat.le_zero.mp hk
      exact ⟨_, treeOf_insertAll [] _ rfl, congrArg some hroot₀⟩
    · intro j
      rw [hsame.roots]
      rcases hring j with hzero | hroot
      · exact Or.inl hzero
      · exact Or.inr (List.mem_singleton.mpr hroot)
    · rw [hsame.current]
      exact congrArg some hstart.symm
    · rw [hsame.current, hstart, hroot₀]
  | block before args t s _ hrecords ih =>
    obtain ⟨blocks, T, hhistory, hT, hhashed, hcurrent⟩ := ih
    have hlen := hhistory.rolls.length_eq
    obtain ⟨utxos, S, hrolls, hS, hShashed, hnew⟩ := block_moves V hlimbs hO hD env hgrant args t
      T hhashed hcurrent hrecords.old_root hrecords.verified
    have hinserted : (SparseTree.empty (slot (D - 1))).insertAll
        (elements (blocks ++ [utxos])) = some S := by
      rw [elements_concat, SparseTree.insertAll_append, hT]
      exact hS
    have hcurrent' : s.currentRootHash = args.newRoot := by
      rw [hrecords.recorded.current, addRootHash_current]
    refine ⟨blocks ++ [utxos], S, ⟨?_, ?_, ?_, ?_, ?_⟩, hinserted, hShashed, ?_⟩
    · exact List.rel_append hhistory.rolls (List.Forall₂.cons hrolls List.Forall₂.nil)
    · intro k hk
      rw [List.length_append, List.length_singleton] at hk
      by_cases hlast : k = blocks.length + 1
      · subst hlast
        refine ⟨S, ?_, ?_⟩
        · rw [List.take_of_length_le (by simp)]
          exact treeOf_insertAll _ S hinserted
        · rw [← hlen, recordedRoots, List.map_append, List.getElem?_cons_succ,
            List.getElem?_append_right (by simp), List.length_map, Nat.sub_self]
          exact congrArg some hnew
      · obtain ⟨R, hR, hrecorded⟩ := hhistory.recorded k (by omega)
        refine ⟨R, ?_, ?_⟩
        · rw [List.take_append_of_le_length (by omega)]
          exact hR
        · rw [← hrecorded, recordedRoots, List.map_append, ← List.cons_append,
            List.getElem?_append_left (by simp; omega)]
          rfl
    · exact ring_addRootHash _ _ root₀ _ args hrecords.recorded hhistory.ring
    · rw [hcurrent', recordedRoots, List.map_append, ← List.cons_append]
      exact List.getLast?_concat
    · exact elements_nodup _ S hinserted
    · rw [hcurrent']
      exact hnew

end Run

theorem emptyTreeHash_toBase (O : HashOracle Fr) (D : ℕ) :
    (emptyTreeHash O.hash D).toBase = notesRoot O D (SparseTree.empty (slot (D - 1))) := by
  have hroot := root_elementNode_toBase O.hash (D - 1) fun _ => Element.nullHash
  rw [root_empty] at hroot
  rw [emptyTreeHash, hroot]
  have hnull : Element.nullHash.toBase = 0 := Element.toBase_zero
  simp only [hnull]
  rfl

theorem initialState_rootHashes (chain : τ) (owner prover : Address)
    (initialValidators : List Address) (root : Element) (j : Fin 64) :
    (initialState chain owner prover initialValidators root).rootHashes j = 0#256 ∨
      (initialState chain owner prover initialValidators root).rootHashes j = root := by
  change Function.update (fun _ => 0#256) 0 root j = 0#256 ∨
    Function.update (fun _ => 0#256) 0 root j = root
  by_cases hj : j = 0
  · rw [hj, Function.update_self]
    exact Or.inr rfl
  · rw [Function.update_of_ne hj]
    exact Or.inl rfl

/-- The recorded roots after every run from the empty tree, whatever calls routers make: without
`setRoot`, and where every block finds its old root when it records its own, they are those of
one append-only tree of the leaves of the accepted blocks. -/
theorem root_history_append_only {Proof Accumulator : Type}
    (V : SnarkVerifier Proof Accumulator) (hlimbs : ∀ acc, (V.limbs acc).length = 12)
    (O : HashOracle Fr) (hO : O.CollisionFree) (D : ℕ) (hD : D ≤ 257)
    (hempty : TreeHashed O D (SparseTree.empty (slot (D - 1))))
    (env : Externals τ) (routers : RouterCalls τ) (depth : ℕ)
    (hgrant : ∀ instances proof, env.aggregatePlonk instances proof = true →
      RollupAccepts V O D instances)
    (chain : τ) (owner prover : Address) (initialValidators : List Address)
    (txs : List (Address × Call τ)) :
    let s₀ := initialState chain owner prover initialValidators (emptyTreeHash O.hash D)
    let p := runRooted env routers depth (s₀, []) txs
    p.1 = runNestedCalls env routers depth s₀ txs ∧
      ((∀ newRoot, .set newRoot ∉ p.2) →
        (∀ args found, .block args found ∈ p.2 → found = args.oldRoot) →
          ∃ blocks, History O D (emptyTreeHash O.hash D) (blocksOf p.2) blocks p.1) := by
  intro s₀ p
  refine ⟨runRooted_state env routers depth s₀ [] txs, fun hnoset hfound => ?_⟩
  have hstart : s₀.currentRootHash = emptyTreeHash O.hash D := addRootHash_current _ _
  have hone : OneByOne p.2 := by
    intro e he
    cases e with
    | block args found => exact ⟨args, congrArg _ (hfound args found he)⟩
    | set newRoot => exact absurd he (hnoset newRoot)
  obtain ⟨more, hmore, hsequential⟩ :=
    (runRooted_advances routers depth (s₀, []) txs).logged
  obtain rfl : more = p.2 := hmore.symm
  obtain ⟨blocks, T, hhistory, -⟩ := history_sequential V hlimbs hO hD env hgrant s₀ _ hstart
    (initialState_rootHashes chain owner prover initialValidators _) hempty
    (emptyTreeHash_toBase O D) _ _ (hsequential hone)
  exact ⟨blocks, hhistory⟩

end History

section ReenteredBlock

open Layouter Chips Gadgets Notes UtxoCircuit InsertCircuit PlainProofs

/-- The key 0 and two empty leaves, the padding note and its nullifier, a note of 5 and its
nullifier, and the pairs of the trees of the note alone and of both. -/
private def hashedMessages : List (List Fr) :=
  [[0, 0], [0, 1, 0, 0, 0, 0], [0, 0, 0, 0], [5, 1, 0, 0, 0, 0], [4, 0, 0, 0], [4, 0], [4, 5]]

private def tableHash (m : List Fr) : Fr := ((hashedMessages.idxOf m + 1 : ℕ) : Fr)

private def tableOracle : HashOracle Fr :=
  HashOracle.ofDecoder tableHash fun x => hashedMessages.getD (x.val - 1) []

private theorem mem_table (m : List Fr)
    (h : hashedMessages.getD ((tableHash m).val - 1) [] = m) : m ∈ tableOracle.messages := h

private def paddingNote : NoteConstraintCells :=
  { value := 0, address := 1, cm := 0, isPadding := 1, source := 0, psi := 0 }

private def noteOfFive : NoteConstraintCells :=
  { value := 5, address := 1, cm := 4, isPadding := 0, source := 0, psi := 0 }

private def paddingSpent : InputNoteConstraintCells where
  commitment := paddingNote
  nullifier := 3
  root := 1
  secretKey := 0
  zero := 0

private def fiveSpent : InputNoteConstraintCells where
  commitment := noteOfFive
  nullifier := 5
  root := 6
  secretKey := 0
  zero := 0

private def paddingInput (root : Fr) : UtxoInputCells := ⟨paddingSpent, root, 0⟩

private def fiveInput : UtxoInputCells := ⟨fiveSpent, 6, 5⟩

private def paddingUtxo : UtxoCells where
  unverifiedRoot := 0
  utxoKind := 1
  inputs := [paddingInput 0, paddingInput 0]
  outputs := [paddingNote, paddingNote]

private def mintUtxo : UtxoCells where
  unverifiedRoot := 0
  utxoKind := 2
  inputs := [paddingInput 0, paddingInput 0]
  outputs := [noteOfFive, paddingNote]

private def burnUtxo : UtxoCells where
  unverifiedRoot := 6
  utxoKind := 3
  inputs := [fiveInput, paddingInput 6]
  outputs := [paddingNote, paddingNote]

private theorem paddingNote_constrained : ConstrainedOutput tableOracle paddingNote :=
  ⟨⟨0, mem_table _ (by decide), by decide, by decide⟩,
    by decide⟩

private theorem noteOfFive_constrained : ConstrainedOutput tableOracle noteOfFive :=
  ⟨⟨0, mem_table _ (by decide), by decide, by decide⟩,
    by decide⟩

private theorem paddingSpent_spends : Spends tableOracle 2 paddingSpent 0 [(false, 0)] :=
  ⟨⟨mem_table _ (by decide), by decide, by decide⟩, rfl,
    ⟨mem_table _ (by decide), trivial⟩, by decide, mem_table _ (by decide),
    by decide, mem_table _ (by decide), by decide, rfl⟩

private theorem fiveSpent_spends : Spends tableOracle 2 fiveSpent 0 [(false, 0)] :=
  ⟨⟨mem_table _ (by decide), by decide, by decide⟩, rfl,
    ⟨mem_table _ (by decide), trivial⟩, by decide, mem_table _ (by decide),
    by decide, mem_table _ (by decide), by decide, rfl⟩

private theorem paddingInput_constrained (root : Fr) :
    ConstrainedInput tableOracle 2 root (paddingInput root) :=
  ⟨⟨0, _, paddingSpent_spends⟩, (if_pos rfl).symm, (if_pos rfl).symm⟩

private theorem fiveInput_constrained : ConstrainedInput tableOracle 2 6 fiveInput :=
  ⟨⟨0, _, fiveSpent_spends⟩, by decide, by decide⟩

private def paddingColumn : List Fr := List.replicate 7 0

private def mintColumn : List Fr := [0, 4, 5, 0, 0, 4, 0]

private def burnColumn : List Fr := [6, 5, 5, 5, 0, 0, 0]

private theorem paddingColumn_accepted : UtxoAccepts tableOracle 2 paddingColumn := by
  refine (utxoAccepts_iff _ _ _).mpr ⟨paddingUtxo, rfl, rfl, ?_, ?_, by decide, ?_,
    by decide, by decide, by decide⟩
  · simp only [paddingUtxo, List.forall_mem_cons]
    exact ⟨paddingInput_constrained 0, paddingInput_constrained 0, by simp⟩
  · simp only [paddingUtxo, List.forall_mem_cons]
    exact ⟨paddingNote_constrained, paddingNote_constrained, by simp⟩
  · simp [paddingUtxo, paddingInput, paddingColumn]

private theorem mintColumn_accepted : UtxoAccepts tableOracle 2 mintColumn := by
  refine (utxoAccepts_iff _ _ _).mpr ⟨mintUtxo, rfl, rfl, ?_, ?_, by decide, ?_,
    by decide, by decide, by decide⟩
  · simp only [mintUtxo, List.forall_mem_cons]
    exact ⟨paddingInput_constrained 0, paddingInput_constrained 0, by simp⟩
  · simp only [mintUtxo, List.forall_mem_cons]
    exact ⟨noteOfFive_constrained, paddingNote_constrained, by simp⟩
  · simp [mintUtxo, paddingInput, mintColumn]

private theorem burnColumn_accepted : UtxoAccepts tableOracle 2 burnColumn := by
  refine (utxoAccepts_iff _ _ _).mpr ⟨burnUtxo, rfl, rfl, ?_, ?_, by decide, ?_,
    by decide, by decide, by decide⟩
  · simp only [burnUtxo, List.forall_mem_cons]
    exact ⟨fiveInput_constrained, paddingInput_constrained 6, by simp⟩
  · simp only [burnUtxo, List.forall_mem_cons]
    exact ⟨paddingNote_constrained, paddingNote_constrained, by simp⟩
  · simp [burnUtxo, fiveInput, paddingInput, burnColumn]

private theorem zeroLeaf_inserts : Inserts tableOracle 2 ⟨0, 1, 1, 1⟩ [0] :=
  ⟨rfl, ⟨mem_table _ (by decide), trivial⟩, by decide,
    ⟨mem_table _ (by decide), trivial⟩, by decide, by decide⟩

private theorem note_inserts : Inserts tableOracle 2 ⟨4, 1, 6, 0⟩ [0] :=
  ⟨rfl, ⟨mem_table _ (by decide), trivial⟩, by decide,
    ⟨mem_table _ (by decide), trivial⟩, by decide, by decide⟩

private theorem nullifier_inserts : Inserts tableOracle 2 ⟨5, 6, 7, 0⟩ [4] :=
  ⟨rfl, ⟨mem_table _ (by decide), trivial⟩, by decide,
    ⟨mem_table _ (by decide), trivial⟩, by decide, by decide⟩

private theorem small_depth : (2 : ℕ) ≤ 257 := by norm_num

private theorem paddingRows_accepted (root : Fr) :
    AggregateUtxoAccepts plainVerifier tableOracle 2 (rowsOf root root (List.replicate 9 0)) := by
  refine aggregateRows_accepts paddingColumn paddingColumn paddingColumn root root ?_
    (List.replicate 12 0) rfl fun inst insert => ?_
  · simp only [List.forall_mem_cons]
    exact ⟨⟨rfl, paddingColumn_accepted⟩, ⟨rfl, paddingColumn_accepted⟩,
      ⟨rfl, paddingColumn_accepted⟩, by simp⟩
  · exact insertPadding_sat small_depth _ _ rfl [0] zeroLeaf_inserts (List.replicate 12 insert)
      root

private theorem mintRows_accepted : RollupAccepts plainVerifier tableOracle 2
    (rowsOf 1 6 ([0, 4, 5, 0, 0, 0, 0, 0, 0] ++ List.replicate 9 0)) := by
  refine rollupRows_accepts 1 6 6 _ _ ⟨rfl, rfl⟩ ?_ (paddingRows_accepted 6)
  refine aggregateRows_accepts mintColumn paddingColumn paddingColumn 1 6 ?_
    (0 :: 0 :: 4 :: List.replicate 9 0) rfl fun inst insert => ?_
  · simp only [List.forall_mem_cons]
    exact ⟨⟨rfl, mintColumn_accepted⟩, ⟨rfl, paddingColumn_accepted⟩,
      ⟨rfl, paddingColumn_accepted⟩, by simp⟩
  · have hfour : (4 : Fr) ≠ 0 := by decide
    have hinserts : List.replicate 12 insert =
        insert :: insert :: insert :: List.replicate 9 insert := rfl
    rw [hinserts]
    refine insertLeaf_sat small_depth _ insert _ _ [0] zeroLeaf_inserts 1 6 _ (fun _ => rfl) ?_
    rw [if_pos rfl]
    refine insertLeaf_sat small_depth _ insert _ _ [0] zeroLeaf_inserts 1 6 _ (fun _ => rfl) ?_
    rw [if_pos rfl]
    refine insertLeaf_sat small_depth _ insert _ _ [0] note_inserts 1 6 _ (fun _ => rfl) ?_
    rw [if_neg hfour]
    exact insertPadding_sat small_depth _ _ rfl [0] zeroLeaf_inserts (List.replicate 9 insert) 6

private theorem burnRows_accepted : RollupAccepts plainVerifier tableOracle 2
    (rowsOf 6 7 ([6, 5, 5, 0, 0, 0, 0, 0, 0] ++ List.replicate 9 0)) := by
  refine rollupRows_accepts 6 7 7 _ _ ⟨rfl, rfl⟩ ?_ (paddingRows_accepted 7)
  refine aggregateRows_accepts burnColumn paddingColumn paddingColumn 6 7 ?_
    (5 :: List.replicate 11 0) rfl fun inst insert => ?_
  · simp only [List.forall_mem_cons]
    exact ⟨⟨rfl, burnColumn_accepted⟩, ⟨rfl, paddingColumn_accepted⟩,
      ⟨rfl, paddingColumn_accepted⟩, by simp⟩
  · have hfive : (5 : Fr) ≠ 0 := by decide
    have hinserts : List.replicate 12 insert = insert :: List.replicate 11 insert := rfl
    rw [hinserts]
    refine insertLeaf_sat small_depth _ insert _ _ [4] nullifier_inserts 6 7 _ (fun _ => rfl) ?_
    rw [if_neg hfive]
    exact insertPadding_sat small_depth _ _ rfl [0] zeroLeaf_inserts (List.replicate 11 insert) 7

/-- A chain that knows whether the router was called, and accepts the proofs of the mint, of
the burn and of their blocks. -/
private def bridgeEnv : Externals Bool where
  address := 9#160
  mintPlonk := fun instances _ => decide (instances = [4, 5, 0])
  burnPlonk := fun _ _ => false
  burnPlonkV2 := fun instances _ => decide (instances = [1, 0, 5, 5, 0, 0])
  aggregatePlonk := fun instances _ =>
    decide (instances = rowsOf 1 6 ([0, 4, 5, 0, 0, 0, 0, 0, 0] ++ List.replicate 9 0)) ||
      decide (instances = rowsOf 6 7 ([6, 5, 5, 0, 0, 0, 0, 0, 0] ++ List.replicate 9 0))
  keccak256 := fun _ => 0#256
  recover := fun _ _ _ _ => .ok 1#160
  domainSeparator := 0#256
  hasCode := fun _ _ => true
  isBlacklisted := fun _ _ => false
  transfer := fun chain _ _ => .ok chain
  transferFrom := fun chain _ _ _ => .ok chain
  approve := fun chain _ _ => .ok chain
  receiveWithAuthorization := fun chain _ _ _ _ _ _ _ _ _ => .ok chain

private theorem bridgeEnv_grants (instances : List Fr) (proof : Bytes)
    (h : bridgeEnv.aggregatePlonk instances proof = true) :
    RollupAccepts plainVerifier tableOracle 2 instances := by
  rcases (Bool.or_eq_true _ _).mp h with hmint | hburn
  · rw [of_decide_eq_true hmint]
    exact mintRows_accepted
  · rw [of_decide_eq_true hburn]
    exact burnRows_accepted

/-- A block whose first transaction is the only one. -/
private def oneTxnBlock (oldRoot newRoot recentRoot mbHash mbValue height : Element) :
    BlockArgs where
  aggrProof := []
  aggrInstances := Vector.replicate 12 0#256
  oldRoot := oldRoot
  newRoot := newRoot
  utxoHashes := #v[recentRoot, mbHash, mbValue, 0#256, 0#256, 0#256, 0#256, 0#256, 0#256, 0#256,
    0#256, 0#256, 0#256, 0#256, 0#256, 0#256, 0#256, 0#256]
  otherHashFromBlockHash := 0#256
  height := height
  signatures := [⟨0#256, 0#256, 0#256⟩]

private def mintBlock : BlockArgs := oneTxnBlock 1#256 6#256 0#256 4#256 5#256 1#256

private def burnBlock : BlockArgs := oneTxnBlock 6#256 7#256 6#256 5#256 5#256 2#256

/-- The router has the block of its burn verified when it is called for the first time. -/
private def verifyingRouters : RouterCalls Bool := fun _ s =>
  if s.chain = true then .stop true
  else .call 3#160 (.world fun _ => true) fun _ =>
    .call 3#160 (.verifyBlock2 burnBlock) fun _ => .stop true

private def waitingRouters : RouterCalls Bool := fun _ _ => .stop true

/-- The router 3 is whitelisted and a prover; 5 are minted and then burned to the router. -/
private def bridgeTxs : List (Address × Call Bool) :=
  [(7#160, .addRouter 3#160), (7#160, .addProver 3#160),
    (1#160, .request (.mint [] 4#256 5#256 0#256)), (2#160, .verifyBlock2 mintBlock),
    (1#160, .request (.burnToRouter 1#256 0#256 [] 5#256 5#256 0#256 0#256 3#160 [] 4#160)),
    (2#160, .verifyBlock2 burnBlock)]

private def bridgeStart : Rollup Bool :=
  initialState false 7#160 2#160 [1#160] (emptyTreeHash tableOracle.hash 2)

private theorem waiting_log : (runRooted bridgeEnv waitingRouters 2 (bridgeStart, []) bridgeTxs).2 =
    [.block mintBlock 1#256, .block burnBlock 6#256] := by
  decide +kernel

private theorem verifying_log :
    (runRooted bridgeEnv verifyingRouters 2 (bridgeStart, []) bridgeTxs).2 =
      [.block mintBlock 1#256, .block burnBlock 6#256, .block burnBlock 7#256] := by
  decide +kernel

private theorem tableOracle_collisionFree : tableOracle.CollisionFree :=
  HashOracle.ofDecoder_collisionFree _ _

private theorem emptyPair_hashed :
    TreeHashed tableOracle 2 (SparseTree.empty (slot (2 - 1))) :=
  ⟨mem_table _ (by decide), trivial, trivial⟩

/-- A mint and its burn, with a router that only takes what it is paid. -/
theorem root_history_mint_and_burn :
    (runRooted bridgeEnv waitingRouters 2 (bridgeStart, []) bridgeTxs).1 =
        runNestedCalls bridgeEnv waitingRouters 2 bridgeStart bridgeTxs ∧
      ∃ blocks, History tableOracle 2 (emptyTreeHash tableOracle.hash 2) [mintBlock, burnBlock]
        blocks (runRooted bridgeEnv waitingRouters 2 (bridgeStart, []) bridgeTxs).1 := by
  obtain ⟨hstate, hhistory⟩ := root_history_append_only plainVerifier (fun _ => rfl) tableOracle
    tableOracle_collisionFree 2 small_depth emptyPair_hashed bridgeEnv waitingRouters 2
    bridgeEnv_grants false 7#160 2#160 [1#160] bridgeTxs
  refine ⟨hstate, ?_⟩
  have hlog : blocksOf (runRooted bridgeEnv waitingRouters 2 (bridgeStart, []) bridgeTxs).2 =
      [mintBlock, burnBlock] := by
    rw [waiting_log]
    rfl
  have hone : OneByOne (runRooted bridgeEnv waitingRouters 2 (bridgeStart, []) bridgeTxs).2 := by
    apply runRooted_oneByOne waitingRouters (fun _ _ => .stop true)
    · exact fun e he => absurd he (by simp)
    · simp [bridgeTxs]
  rw [← hlog]
  apply hhistory
  · intro newRoot hmem
    obtain ⟨args, hset⟩ := hone _ hmem
    cases hset
  · intro args found hmem
    obtain ⟨_, hblock⟩ := hone _ hmem
    obtain ⟨rfl, hfound⟩ := RootEntry.block.inj hblock
    exact hfound

/-- The hash that a UTXO proof exposes is among its leaves. -/
private theorem mbHash_mem_leafs {O : HashOracle Fr} {D : ℕ} {column : List Fr}
    {cells : UtxoCells} (h : Constrained O D column cells) (hne : cells.mbHash ≠ 0) :
    cells.mbHash ∈ column.drop 3 := by
  have hhead : ∀ xs : List Fr, xs.headD 0 ≠ 0 → xs.headD 0 ∈ xs := by
    intro xs hxs
    cases xs with
    | nil => exact absurd rfl hxs
    | cons x xs => exact List.mem_cons_self ..
  have hmem : cells.mbHash ∈ cells.nullifiers ++ cells.commitments := by
    unfold UtxoCells.mbHash at hne ⊢
    split at hne
    · next hburn =>
      rw [if_pos hburn]
      exact List.mem_append_left _ (hhead _ hne)
    · next hburn =>
      rw [if_neg hburn]
      split at hne
      · next hmint =>
        rw [if_pos hmint]
        exact List.mem_append_right _ (hhead _ hne)
      · exact absurd rfl hne
  obtain ⟨i, hi⟩ := List.mem_iff_getElem?.mp hmem
  have hrow := h.leaf (cells.mbHash, i) (List.mk_mem_zipIdx_iff_getElem?.mpr hi)
  apply List.mem_of_getElem? (i := i)
  rw [List.getElem?_drop, Nat.add_comm]
  exact hrow

/-- A block with the hash of the burn inserts its nullifier. -/
private theorem burnBlock_inserts (utxos : List (List Fr))
    (h : RollsUp tableOracle 2 burnBlock utxos) : (5 : Fr) ∈ nonZero (utxoLeafs utxos) := by
  have hfive : (5 : Fr) ≠ 0 := by decide
  obtain ⟨hcount, haccepts, hvalues⟩ := h
  cases utxos with
  | nil => cases hcount
  | cons column rest =>
    obtain ⟨hlength, haccepted⟩ := haccepts column (List.mem_cons_self ..)
    obtain ⟨cells, hcells⟩ := (utxoAccepts_iff _ _ _).mp haccepted
    have hhash : column[1]? = some 5 := by
      have hrow := congrArg (fun values => values[1]?) hvalues
      rw [utxoValues, List.flatMap_cons,
        List.getElem?_append_left (by rw [List.length_take, hlength]; decide),
        List.getElem?_take_of_lt (by decide)] at hrow
      rw [← hrow]
      decide
    have hmb : cells.mbHash = 5 := Option.some.inj (hcells.mb_hash.symm.trans hhash)
    have hmem := mbHash_mem_leafs hcells (by rw [hmb]; exact hfive)
    rw [hmb] at hmem
    exact (mem_nonZero _ _).mpr ⟨List.mem_flatMap.mpr ⟨column, List.mem_cons_self .., hmem⟩, hfive⟩

/-- A router that is a prover has the block of its burn verified while the contract waits for
it, and the nullifier is inserted twice. -/
theorem not_root_history_reentered :
    let p := runRooted bridgeEnv verifyingRouters 2 (bridgeStart, []) bridgeTxs
    tableOracle.CollisionFree ∧ TreeHashed tableOracle 2 (SparseTree.empty (slot (2 - 1))) ∧
      (∀ instances proof, bridgeEnv.aggregatePlonk instances proof = true →
        RollupAccepts plainVerifier tableOracle 2 instances) ∧
      p.1 = runNestedCalls bridgeEnv verifyingRouters 2 bridgeStart bridgeTxs ∧
      p.2 = [.block mintBlock 1#256, .block burnBlock 6#256, .block burnBlock 7#256] ∧
      ¬∃ blocks, History tableOracle 2 (emptyTreeHash tableOracle.hash 2) (blocksOf p.2) blocks
        p.1 := by
  intro p
  refine ⟨tableOracle_collisionFree, emptyPair_hashed, bridgeEnv_grants,
    runRooted_state bridgeEnv verifyingRouters 2 bridgeStart [] bridgeTxs, verifying_log, ?_⟩
  rintro ⟨blocks, hhistory⟩
  have hlog : blocksOf p.2 = [mintBlock, burnBlock, burnBlock] := by
    change blocksOf (runRooted bridgeEnv verifyingRouters 2 (bridgeStart, []) bridgeTxs).2 = _
    rw [verifying_log]
    rfl
  have hrolls := hhistory.rolls
  have hnodup := hhistory.nodup
  rw [hlog] at hrolls
  obtain ⟨minted, first, second, rfl⟩ := List.length_eq_three.mp hrolls.length_eq.symm
  simp only [List.forall₂_cons, List.forall₂_nil_left_iff] at hrolls
  obtain ⟨-, hfirst, hsecond, -⟩ := hrolls
  have hearlier : (5 : Fr) ∈ elements [minted, first] := by
    rw [← List.singleton_append, elements_concat]
    exact List.mem_append_right _ (burnBlock_inserts first hfirst)
  have hsplit : elements [minted, first, second] =
      elements [minted, first] ++ nonZero (utxoLeafs second) :=
    elements_concat [minted, first] second
  rw [hsplit] at hnodup
  exact List.disjoint_of_nodup_append hnodup hearlier (burnBlock_inserts second hsecond)

end ReenteredBlock
end PayyRollup.RootHistory
