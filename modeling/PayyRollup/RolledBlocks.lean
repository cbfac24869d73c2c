import PayyRollup.RootHistory
import PayyRollup.SpentNotes

/-!
The notes of the blocks that the contract accepts. It sees of a transaction a recent root, a
hash and a value; the proof behind it has inputs and outputs. Block by block, the leaves of
these go into one tree, and a recent root is one of that tree at some earlier block. So what an
accepted transaction spends was created by an accepted transaction, no note is spent twice, and
the notes that are left have the value that was minted and not burned.
-/
namespace PayyRollup.RolledBlocks

open ScalarField ConstraintProgram Layouter Gadgets SparseMerkle ElementHash BatchSoundness Notes
  UtxoCircuit BridgeCircuits ValueConservation AmountBinding Aggregation RollupProof
  VerifierContracts Transactions RollupState RollupCalls RollupEffects RecordedRoots RootHistory
open SpentNotes hiding TreeHashed Witnessed Witnessed.constrained Witnessed.witness

/-- The recent roots of the six transactions of a block. -/
def recentRoots (args : BlockArgs) : List Element := [0, 3, 6, 9, 12, 15].map args.utxoHash

/-- The recent roots are recorded ones, where they are not zero. -/
def RecentRecorded (root₀ : Element) (accepted : List BlockArgs) (args : BlockArgs) : Prop :=
  ∀ r ∈ recentRoots args, r = 0#256 ∨ r ∈ recordedRoots root₀ accepted

/-- The accepted blocks, the columns of their UTXO proofs, and the tree of their leaves. -/
inductive RolledRun (O : HashOracle Fr) (D : ℕ) (root₀ : Element) :
    List BlockArgs → List (List (List Fr)) → NotesTree D → Prop
  | start : RolledRun O D root₀ [] [] (SparseTree.empty _)
  | block (accepted : List BlockArgs) (blocks : List (List (List Fr))) (T S : NotesTree D)
      (args : BlockArgs) (utxos : List (List Fr)) : RolledRun O D root₀ accepted blocks T →
      RollsUp O D args utxos → (∀ e ∈ args.utxoHashes.toList, e.toNat < modulus) →
      RecentRecorded root₀ accepted args →
      T.insertAll (nonZero (utxoLeafs utxos)) = some S → TreeHashed O D S →
      args.newRoot.toBase = notesRoot O D S →
      RolledRun O D root₀ (accepted ++ [args]) (blocks ++ [utxos]) S

section Run

variable {τ Proof Accumulator : Type} (V : SnarkVerifier Proof Accumulator)
  (hlimbs : ∀ acc, (V.limbs acc).length = 12) {O : HashOracle Fr} (hO : O.CollisionFree)
  {D : ℕ} (hD : D ≤ 257) (env : Externals τ) (routers : Routers τ) (depth : ℕ)
  (hgrant : ∀ instances proof, env.aggregatePlonk instances proof = true →
    RollupAccepts V O D instances)

/-- The words that a block verification hands to the verifier are field elements. -/
theorem verified_canonical {routerCall : Address → Bytes → Element → RollupM τ Bool}
    {sender : Address} {args : BlockArgs} {s s' : Rollup τ}
    (h : VerifiesBlock env routerCall sender args s s') :
    ∀ e ∈ args.utxoHashes.toList, e.toNat < modulus := by
  intro e he
  refine h.verified.1 e ?_
  unfold AggregateVerifierV1.instances
  simp only [List.mem_append]
  exact Or.inr he

/-- The recent roots of an accepted block are in the ring. -/
theorem recent_in_ring {sender : Address} {args : BlockArgs} {s s' : Rollup τ}
    (h : VerifiesBlock env (routerCallAt env routers depth) sender args s s') :
    ∀ r ∈ recentRoots args, r = 0#256 ∨ ∃ j, r = s.rootHashes j := by
  obtain ⟨t, hexecuted, hcontains, -⟩ := h.executed
  have hsame := (verifyTxns_sameRoots env routers depth args).relates _ _ _ hexecuted
  have hroots : t.rootHashes = s.rootHashes := hsame.roots
  intro r hr
  unfold Rollup.containsRootHashes at hcontains
  rw [List.all_eq_true] at hcontains
  obtain ⟨j, hj⟩ := of_decide_eq_true (hcontains r hr)
  rw [hroots] at hj
  rcases hj with hj | hj
  · exact Or.inr ⟨j, hj⟩
  · exact Or.inl hj

include hlimbs hO hD hgrant in
/-- The accepted blocks of every run without `setRoot`. -/
theorem rolledRun_run (s₀ : Rollup τ) (root₀ : Element) (hstart : s₀.currentRootHash = root₀)
    (hring : ∀ j, s₀.rootHashes j = 0#256 ∨ s₀.rootHashes j = root₀)
    (hempty : TreeHashed O D (SparseTree.empty (slot (D - 1))))
    (hroot₀ : root₀.toBase = notesRoot O D (SparseTree.empty (slot (D - 1))))
    (txs : List (Address × Call τ)) (hnoset : ∀ tx ∈ txs, ∀ r, tx.2 ≠ .setRoot r) :
    ∃ blocks T, RolledRun O D root₀ (acceptedBlocks env routers depth s₀ txs) blocks T ∧
      TreeHashed O D T ∧
      (runCalls env routers depth s₀ txs).currentRootHash.toBase = notesRoot O D T ∧
      ∀ j, (runCalls env routers depth s₀ txs).rootHashes j = 0#256 ∨
        (runCalls env routers depth s₀ txs).rootHashes j ∈
          recordedRoots root₀ (acceptedBlocks env routers depth s₀ txs) := by
  induction txs using List.reverseRecOn with
  | nil =>
    refine ⟨[], SparseTree.empty _, .start, hempty, ?_, fun j => ?_⟩
    · change s₀.currentRootHash.toBase = _
      rw [hstart, hroot₀]
    · rcases hring j with hzero | hroot
      · exact Or.inl hzero
      · exact Or.inr (List.mem_singleton.mpr hroot)
  | append_singleton txs tx ih =>
    obtain ⟨blocks, T, hrun, hhashed, hcurrent, hrecorded⟩ :=
      ih fun t ht => hnoset t (List.mem_append_left _ ht)
    have hset := hnoset tx (List.mem_append_right _ (List.mem_singleton.mpr rfl))
    rw [acceptedBlocks_concat, runCalls_concat]
    rcases step_cases env routers depth (runCalls env routers depth s₀ txs) tx hset with
      ⟨hnone, hsame⟩ | ⟨args, hsome, hverifies, hsame⟩
    · rw [hnone, Option.toList_none, List.append_nil]
      refine ⟨blocks, T, hrun, hhashed, ?_, ?_⟩
      · rw [hsame.current]
        exact hcurrent
      · rw [hsame.roots]
        exact hrecorded
    · obtain ⟨utxos, S, hrolls, hS, hShashed, hnew⟩ := block_moves V hlimbs hO hD env hgrant
        args _ T hhashed hcurrent hverifies.old_root hverifies.verified
      have hrecent : RecentRecorded root₀ (acceptedBlocks env routers depth s₀ txs) args := by
        intro r hr
        rcases recent_in_ring env routers depth hverifies r hr with hzero | ⟨j, rfl⟩
        · exact Or.inl hzero
        · exact hrecorded j
      rw [hsome, Option.toList_some]
      refine ⟨blocks ++ [utxos], S, .block _ blocks T S args utxos hrun hrolls
        (verified_canonical env hverifies) hrecent hS hShashed hnew, hShashed, ?_, ?_⟩
      · rw [hsame.current, addRootHash_current]
        exact hnew
      · exact ring_addRootHash _ _ root₀ _ args hsame hrecorded

end Run

section Trees

variable {O : HashOracle Fr} {D : ℕ} {root₀ : Element} {accepted : List BlockArgs}
  {blocks : List (List (List Fr))} {T : NotesTree D}

/-- The tree is that of the non-zero leaves. -/
theorem RolledRun.inserted (h : RolledRun O D root₀ accepted blocks T) :
    (SparseTree.empty (slot (D - 1))).insertAll (elements blocks) = some T := by
  induction h with
  | start => rfl
  | block accepted blocks T S args utxos _ _ _ _ hS _ _ ih =>
    rw [elements_concat, SparseTree.insertAll_append, ih]
    exact hS

/-- A recorded root is that of a hashed tree, whose elements are those of earlier blocks. -/
theorem RolledRun.recorded (h : RolledRun O D root₀ accepted blocks T)
    (hempty : TreeHashed O D (SparseTree.empty (slot (D - 1))))
    (hroot₀ : root₀.toBase = notesRoot O D (SparseTree.empty (slot (D - 1))))
    (r : Element) (hr : r ∈ recordedRoots root₀ accepted) :
    ∃ S : NotesTree D, TreeHashed O D S ∧ r.toBase = notesRoot O D S ∧
      ∀ x ∈ S, x ∈ elements blocks := by
  induction h with
  | start =>
    obtain rfl := List.mem_singleton.mp hr
    exact ⟨_, hempty, hroot₀, fun x hx => absurd hx (SparseTree.not_mem_empty x)⟩
  | block accepted blocks T S args utxos hrun hrolls hcanonical hrecent hS hhashed hnew ih =>
    have hsplit : recordedRoots root₀ (accepted ++ [args]) =
        recordedRoots root₀ accepted ++ [args.newRoot] := by
      rw [recordedRoots, recordedRoots, List.map_append]
      rfl
    rw [hsplit, List.mem_append] at hr
    rcases hr with hr | hr
    · obtain ⟨R, hR, hroot, hmem⟩ := ih hr
      refine ⟨R, hR, hroot, fun x hx => ?_⟩
      rw [elements_concat]
      exact List.mem_append_left _ (hmem x hx)
    · obtain rfl := List.mem_singleton.mp hr
      have hinserted := (RolledRun.block accepted blocks T S args utxos hrun hrolls hcanonical
        hrecent hS hhashed hnew).inserted
      exact ⟨S, hhashed, hnew, fun x hx => ((treeOf_insertAll _ S hinserted).members x).mp hx⟩

/-- A path to the root of a hashed tree, with any directions, starts at one of its elements. -/
theorem mem_of_path (hO : O.CollisionFree) (hhashed : TreeHashed O D T) {cm : Fr}
    {path : List (Bool × Fr)} (hlen : path.length = D - 1)
    (hpath : PathHashedUp (pairHash O) cm path)
    (hroot : climbUp (pairHash O).node cm path = notesRoot O D T) (hcm : cm ≠ 0) : cm ∈ T := by
  rw [pathHashedUp_iff] at hpath
  rw [climbUp_eq_climb, notesRoot] at hroot
  have hat := climb_eq_root (pairHash O) (pairHash_injective O hO) T.leaf path.reverse cm
  rw [List.length_reverse, hlen] at hat
  obtain ⟨hleaf, -⟩ := hat hhashed hpath hroot
  have hne : T.leaf (path.reverse.map Prod.fst) ≠ 0 := by
    rw [← hleaf]
    exact hcm
  have hmem := T.leaf_mem _ hne
  rwa [← hleaf] at hmem

end Trees

section Notes

variable {O : HashOracle Fr} {D : ℕ} {root₀ : Element} {accepted : List BlockArgs}
  {blocks : List (List (List Fr))} {T : NotesTree D}

/-- A witness for every UTXO proof of the columns. -/
def Witnessed (O : HashOracle Fr) (D : ℕ) : List (List Fr) → List UtxoCells → Prop :=
  List.Forall₂ (Constrained O D)

theorem RolledRun.accepts (h : RolledRun O D root₀ accepted blocks T) :
    ∀ column ∈ blocks.flatten, column.length = 7 ∧ UtxoAccepts O D column := by
  induction h with
  | start => simp
  | block accepted blocks T S args utxos _ hrolls _ _ _ _ _ ih =>
    intro column hcolumn
    rw [List.flatten_append, List.mem_append] at hcolumn
    rcases hcolumn with hcolumn | hcolumn
    · exact ih column hcolumn
    · refine hrolls.accepts column ?_
      simpa using hcolumn

theorem exists_forall₂ {α β : Type} {R : α → β → Prop} (xs : List α)
    (h : ∀ x ∈ xs, ∃ y, R x y) : ∃ ys, List.Forall₂ R xs ys := by
  induction xs with
  | nil => exact ⟨[], .nil⟩
  | cons x rest ih =>
    rw [List.forall_mem_cons] at h
    obtain ⟨y, hy⟩ := h.1
    obtain ⟨ys, hys⟩ := ih h.2
    exact ⟨y :: ys, .cons hy hys⟩

theorem RolledRun.witnessed (h : RolledRun O D root₀ accepted blocks T) :
    ∃ cells, Witnessed O D blocks.flatten cells :=
  exists_forall₂ _ fun column hcolumn =>
    (utxoAccepts_iff O D column).mp (h.accepts column hcolumn).2

theorem Witnessed.constrained {columns : List (List Fr)} {cells : List UtxoCells}
    (h : Witnessed O D columns cells) :
    ∀ own ∈ cells, ∃ column ∈ columns, Constrained O D column own := by
  induction h with
  | nil => simp
  | cons hfirst _ ih =>
    rintro own (_ | ⟨_, hown⟩)
    · exact ⟨_, List.mem_cons_self, hfirst⟩
    · obtain ⟨column, hcolumn, hconstrained⟩ := ih own hown
      exact ⟨column, List.mem_cons_of_mem _ hcolumn, hconstrained⟩

/-- The leaves of a column are the nullifiers and the commitments of its notes. -/
theorem column_leaves (hnull : O.NoNullPreimage) {column : List Fr} {own : UtxoCells}
    (hlen : column.length = 7) (h : Constrained O D column own) :
    nonZero (column.drop 3) = leafHashes own := by
  obtain ⟨first, second, one, two, hin, hout, h3, h4, h5, h6⟩ := constrained_pairs h
  have hdrop : column.drop 3 =
      own.inputs.map UtxoInputCells.nullifier ++ own.outputs.map NoteConstraintCells.cm := by
    rw [hin, hout]
    refine List.ext_getElem? fun i => ?_
    rw [List.getElem?_drop]
    rcases i with _ | _ | _ | _ | i
    · exact h3
    · exact h4
    · exact h5
    · exact h6
    · rw [List.getElem?_eq_none (by omega)]
      rfl
  rw [nonZero, hdrop, List.filter_append, List.filter_map, List.filter_map, leafHashes, spends,
    creates]
  congr 2
  · refine List.filter_congr fun c hc => ?_
    exact decide_eq_decide.mpr (nullifier_ne_zero hnull h c hc)
  · refine List.filter_congr fun c hc => ?_
    exact decide_eq_decide.mpr (commitment_ne_zero hnull h c hc)

theorem columns_leaves (hnull : O.NoNullPreimage) {columns : List (List Fr)}
    {cells : List UtxoCells} (hcells : Witnessed O D columns cells)
    (hlen : ∀ column ∈ columns, column.length = 7) :
    nonZero (columns.flatMap fun column => column.drop 3) = cells.flatMap leafHashes := by
  induction hcells with
  | nil => rfl
  | cons hfirst _ ih =>
    rw [List.forall_mem_cons] at hlen
    rw [List.flatMap_cons, List.flatMap_cons, nonZero_append, column_leaves hnull hlen.1 hfirst,
      ih hlen.2]

theorem elements_eq (hnull : O.NoNullPreimage) (h : RolledRun O D root₀ accepted blocks T)
    {cells : List UtxoCells} (hcells : Witnessed O D blocks.flatten cells) :
    elements blocks = cells.flatMap leafHashes := by
  have hflat : blocks.flatMap utxoLeafs = blocks.flatten.flatMap fun column => column.drop 3 := by
    rw [List.flatten_eq_flatMap, List.flatMap_assoc]
    rfl
  rw [elements, hflat]
  exact columns_leaves hnull hcells fun column hcolumn => (h.accepts column hcolumn).1

end Notes

section Blocks

/-- The columns of a block, by the index of their transaction. -/
theorem utxoValues_getElem (utxos : List (List Fr)) (hlen : ∀ c ∈ utxos, c.length = 7) (i j : ℕ)
    (hj : j < 3) : (utxoValues utxos)[3 * i + j]? = utxos[i]?.bind fun column => column[j]? := by
  induction utxos generalizing i with
  | nil => rfl
  | cons c rest ih =>
    rw [List.forall_mem_cons] at hlen
    have htake : (c.take 3).length = 3 := by
      rw [List.length_take, hlen.1]
      rfl
    have hcons : utxoValues (c :: rest) = c.take 3 ++ utxoValues rest := rfl
    rw [hcons]
    cases i with
    | zero =>
      rw [List.getElem?_append_left (by omega), Nat.mul_zero, Nat.zero_add,
        List.getElem?_take_of_lt hj]
      rfl
    | succ i =>
      have hshift : 3 * (i + 1) + j - (c.take 3).length = 3 * i + j := by omega
      rw [List.getElem?_append_right (by omega), hshift, ih hlen.2]
      rfl

variable {O : HashOracle Fr} {D : ℕ} {args : BlockArgs} {utxos : List (List Fr)}

theorem rollsUp_getElem (h : RollsUp O D args utxos) (i j : ℕ) (hi : i < 6) (hj : j < 3) :
    ∃ column, utxos[i]? = some column ∧ column[j]? = some (args.utxoHash (3 * i + j)).toBase := by
  have hlen := fun c hc => (h.accepts c hc).1
  have hvalue := utxoValues_getElem utxos hlen i j hj
  have hcount := h.count
  obtain ⟨column, hcolumn⟩ : ∃ column, utxos[i]? = some column :=
    ⟨_, List.getElem?_eq_getElem (by omega)⟩
  refine ⟨column, hcolumn, ?_⟩
  rw [hcolumn, Option.bind_some, ← h.values, List.getElem?_map] at hvalue
  have hsize : args.utxoHashes.toList.length = 18 := by simp
  rw [← hvalue, BlockArgs.utxoHash, List.getD_eq_getElem?_getD,
    List.getElem?_eq_getElem (by omega)]
  rfl

/-- What a transaction of a block exposes is what its column has. -/
theorem rollsUp_forall₂ (h : RollsUp O D args utxos) {α : Type} (f : ℕ → α)
    (R : α → List Fr → Prop)
    (hR : ∀ i column, (∀ j < 3, column[j]? = some (args.utxoHash (i + j)).toBase) →
      R (f i) column) :
    List.Forall₂ R ([0, 3, 6, 9, 12, 15].map f) utxos := by
  have hrange : [0, 3, 6, 9, 12, 15].map f = (List.range 6).map fun i => f (3 * i) := rfl
  have hcount := h.count
  have hutxos : utxos = (List.range 6).map fun i => utxos.getD i [] := by
    refine List.ext_getElem (by simp [hcount]) fun i hi hi' => ?_
    simp [List.getD_eq_getElem?_getD, hi]
  rw [hrange, hutxos, List.forall₂_map_left_iff, List.forall₂_map_right_iff, List.forall₂_same]
  intro i hi
  apply hR
  intro j hj
  obtain ⟨column, hcolumn, hvalue⟩ := rollsUp_getElem h i j (List.mem_range.mp hi) hj
  rw [List.getD_eq_getElem?_getD, hcolumn]
  exact hvalue

end Blocks

section Spends

variable {O : HashOracle Fr} (hO : O.CollisionFree) (hnull : O.NoNullPreimage) {D : ℕ}
  {root₀ : Element} {accepted : List BlockArgs} {blocks : List (List (List Fr))}
  {T : NotesTree D}

theorem exists_recentRoot {args : BlockArgs} {utxos : List (List Fr)} (h : RollsUp O D args utxos)
    (column : List Fr) (hcolumn : column ∈ utxos) :
    ∃ r ∈ recentRoots args, column[0]? = some r.toBase := by
  have hboth : List.Forall₂ (fun r column => column[0]? = some (Element.toBase r))
      (recentRoots args) utxos :=
    rollsUp_forall₂ h args.utxoHash _ fun i column hexposed => hexposed 0 (by omega)
  obtain ⟨i, hi, rfl⟩ := List.getElem_of_mem hcolumn
  have hlen := hboth.length_eq
  exact ⟨_, List.getElem_mem (by omega), hboth.get (by omega) hi⟩

include hO hnull in
/-- What a block spends was created in an earlier one. -/
theorem RolledRun.spent_before (h : RolledRun O D root₀ accepted blocks T)
    (hempty : TreeHashed O D (SparseTree.empty (slot (D - 1))))
    (hroot₀ : root₀.toBase = notesRoot O D (SparseTree.empty (slot (D - 1))))
    (earlier : List (List (List Fr))) (utxos : List (List Fr)) (later : List (List (List Fr)))
    (hblocks : blocks = earlier ++ utxos :: later) (column : List Fr) (hcolumn : column ∈ utxos)
    (own : UtxoCells) (hown : Constrained O D column own) (c : UtxoInputCells)
    (hc : c ∈ spends own) : spentCm c ∈ elements earlier := by
  induction h generalizing later with
  | start => simp at hblocks
  | block accepted blocks T S args utxos' hrun hrolls _ hrecent _ _ _ ih =>
    rcases List.eq_nil_or_concat later with rfl | ⟨later', last, rfl⟩
    · obtain ⟨rfl, hlast⟩ := List.append_inj' hblocks rfl
      obtain rfl := (List.cons.inj hlast).1
      obtain ⟨r, hr, hroot⟩ := exists_recentRoot hrolls column hcolumn
      obtain ⟨hinput, hvalue⟩ := mem_spends hown c hc
      obtain ⟨version, path, hspends⟩ := hinput.spends
      have hcm : spentCm c ≠ 0 := fun hzero =>
        hvalue ((opens_cm_eq_zero hnull hspends.opens).mp hzero)
      have hclimb : r.toBase = climbUp (pairHash O).node (spentCm c) path := by
        have hsame := hown.root c (List.mem_of_mem_filter hc)
        rw [hroot, Option.some_inj] at hsame
        rw [hsame, hinput.root_eq, if_neg hvalue, hspends.root_eq]
        rfl
      have hne := climbUp_ne_zero hnull path _ hcm hspends.path_hashed
      have hrecorded : r ∈ recordedRoots root₀ accepted := by
        rcases hrecent r hr with hzero | hmem
        · rw [← hclimb, hzero] at hne
          exact absurd Element.toBase_zero hne
        · exact hmem
      obtain ⟨R, hR, hRroot, hmem⟩ := hrun.recorded hempty hroot₀ r hrecorded
      exact hmem _ (mem_of_path hO hR hspends.path_length hspends.path_hashed
        (hclimb.symm.trans hRroot) hcm)
    · have hsplit : earlier ++ utxos :: (later' ++ [last]) =
          (earlier ++ utxos :: later') ++ [last] := by simp
      rw [List.concat_eq_append, hsplit] at hblocks
      exact ih later' (List.append_inj' hblocks rfl).1

include hO hnull in
theorem RolledRun.spent_mem (h : RolledRun O D root₀ accepted blocks T)
    (hempty : TreeHashed O D (SparseTree.empty (slot (D - 1))))
    (hroot₀ : root₀.toBase = notesRoot O D (SparseTree.empty (slot (D - 1))))
    {cells : List UtxoCells} (hcells : Witnessed O D blocks.flatten cells) :
    ∀ c ∈ cells.flatMap spends, spentCm c ∈ cells.flatMap leafHashes := by
  intro c hc
  obtain ⟨own, hown, hspent⟩ := List.mem_flatMap.mp hc
  obtain ⟨column, hcolumn, hconstrained⟩ := hcells.constrained own hown
  obtain ⟨utxos, hutxos, hin⟩ := List.mem_flatten.mp hcolumn
  obtain ⟨earlier, later, hblocks⟩ := List.append_of_mem hutxos
  have hbefore := h.spent_before hO hnull hempty hroot₀ earlier utxos later hblocks column hin own
    hconstrained c hspent
  rw [← elements_eq hnull h hcells, hblocks]
  have hsplit : elements (earlier ++ utxos :: later) = elements earlier ++
      elements (utxos :: later) := by
    rw [elements, List.flatMap_append, nonZero_append]
    rfl
  rw [hsplit]
  exact List.mem_append_left _ hbefore

end Spends

section Accounts

variable {O : HashOracle Fr} (hO : O.CollisionFree) (hnull : O.NoNullPreimage) {D : ℕ}
  {cells : List UtxoCells}

/-- The cells of proofs whose leaves are distinct, and whose spent notes are among them. -/
structure Books (O : HashOracle Fr) (D : ℕ) (cells : List UtxoCells) : Prop where
  constrained : ∀ own ∈ cells, ∃ column, Constrained O D column own
  nodup : (cells.flatMap leafHashes).Nodup
  created : ∀ c ∈ cells.flatMap spends, spentCm c ∈ cells.flatMap leafHashes

/-- The notes that are created and not spent. -/
def unspent (cells : List UtxoCells) : List NoteConstraintCells :=
  (cells.flatMap creates).filter fun o => decide (o.cm ∉ (cells.flatMap spends).map spentCm)

def unspentValue (cells : List UtxoCells) : ℕ := ((unspent cells).map fun o => o.value.val).sum

include hO hnull in
/-- A spent note was created with the same value. -/
theorem Books.created_value (h : Books O D cells) (c : UtxoInputCells)
    (hc : c ∈ cells.flatMap spends) :
    ∃ o ∈ cells.flatMap creates, o.cm = spentCm c ∧ o.value = c.value ∧ o.value.val < 2 ^ 240 := by
  obtain ⟨own, hown, hspent⟩ := List.mem_flatMap.mp hc
  obtain ⟨column, hconstrained⟩ := h.constrained own hown
  obtain ⟨hinput, hvalue⟩ := mem_spends hconstrained c hspent
  obtain ⟨other, hother, hhash⟩ := List.mem_flatMap.mp (h.created c hc)
  obtain ⟨column', hconstrained'⟩ := h.constrained other hother
  rcases List.mem_append.mp hhash with hnullifier | hcommitment
  · obtain ⟨c', hc', heq⟩ := List.mem_map.mp hnullifier
    obtain ⟨hinput', hvalue'⟩ := mem_spends hconstrained' c' hc'
    have hboth := spends_nullifierOf hinput' hvalue'
    rw [heq] at hboth
    exact absurd hboth ((spends_commitmentOf hinput).not_nullifier hO hnull)
  · obtain ⟨o, ho, heq⟩ := List.mem_map.mp hcommitment
    obtain ⟨houtput, -⟩ := mem_creates hconstrained' o ho
    have hsame := creates_commitmentOf houtput
    rw [heq] at hsame
    exact ⟨o, List.mem_flatMap.mpr ⟨other, hother, ho⟩, heq,
      hsame.value_eq hO hnull (spends_commitmentOf hinput), houtput.value_lt⟩

theorem Books.nullifiers_nodup (h : Books O D cells) :
    ((cells.flatMap spends).map UtxoInputCells.nullifier).Nodup := by
  rw [List.map_flatMap]
  exact h.nodup.sublist (List.Sublist.flatMap_right cells fun _ _ => List.sublist_append_left _ _)

theorem Books.commitments_nodup (h : Books O D cells) :
    ((cells.flatMap creates).map NoteConstraintCells.cm).Nodup := by
  rw [List.map_flatMap]
  exact h.nodup.sublist (List.Sublist.flatMap_right cells fun _ _ => List.sublist_append_right _ _)

include hO in
/-- No note is spent twice. -/
theorem Books.spentCm_nodup (h : Books O D cells) :
    ((cells.flatMap spends).map spentCm).Nodup := by
  refine KeyedSums.nodup_keys h.nullifiers_nodup fun a ha b hb heq => ?_
  obtain ⟨own, hown, ha⟩ := List.mem_flatMap.mp ha
  obtain ⟨other, hother, hb⟩ := List.mem_flatMap.mp hb
  obtain ⟨column, hconstrained⟩ := h.constrained own hown
  obtain ⟨column', hconstrained'⟩ := h.constrained other hother
  obtain ⟨hinput, hvalue⟩ := mem_spends hconstrained a ha
  obtain ⟨hinput', hvalue'⟩ := mem_spends hconstrained' b hb
  exact nullifier_unique hO hinput hinput' hvalue hvalue' heq

include hO hnull in
/-- What is created and not spent is what was minted, less what was burned. -/
theorem Books.unspent_value (h : Books O D cells) :
    unspentValue cells + (cells.map burned).sum = (cells.map minted).sum := by
  have hall := conserved_all cells fun own hown => by
    obtain ⟨column, hconstrained⟩ := h.constrained own hown
    refine conserved hconstrained fun c hc hpadding => ?_
    have hvalue := (not_padding_iff hconstrained c hc).mp hpadding
    obtain ⟨o, -, -, hsame, hlt⟩ := h.created_value hO hnull c (List.mem_flatMap.mpr
      ⟨own, hown, List.mem_filter.mpr ⟨hc, decide_eq_true hvalue⟩⟩)
    rwa [hsame] at hlt
  have hmatch : ∀ c ∈ cells.flatMap spends, ∃ o ∈ cells.flatMap creates,
      o.cm = spentCm c ∧ o.value.val = c.value.val := by
    intro c hc
    obtain ⟨o, ho, hcm, hsame, -⟩ := h.created_value hO hnull c hc
    exact ⟨o, ho, hcm, congrArg ZMod.val hsame⟩
  have hleft := KeyedSums.leftover_add_matched h.commitments_nodup (h.spentCm_nodup hO) hmatch
  unfold unspentValue unspent
  omega

include hO hnull in
theorem RolledRun.books {root₀ : Element} {accepted : List BlockArgs}
    {blocks : List (List (List Fr))} {T : NotesTree D}
    (h : RolledRun O D root₀ accepted blocks T)
    (hempty : TreeHashed O D (SparseTree.empty (slot (D - 1))))
    (hroot₀ : root₀.toBase = notesRoot O D (SparseTree.empty (slot (D - 1))))
    (hcells : Witnessed O D blocks.flatten cells) : Books O D cells := by
  refine ⟨fun own hown => ?_, ?_, h.spent_mem hO hnull hempty hroot₀ hcells⟩
  · obtain ⟨column, -, hconstrained⟩ := hcells.constrained own hown
    exact ⟨column, hconstrained⟩
  · rw [← elements_eq hnull h hcells]
    exact elements_nodup blocks T h.inserted

end Accounts

end PayyRollup.RolledBlocks
