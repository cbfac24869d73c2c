import PayyRollup.BatchSoundness
import PayyRollup.NodeBlocks
import PayyRollup.SmirkCanonicity
import PayyRollup.SnarkStatement

/-!
The batch of inserts that the prover builds for three transactions. Every leaf that is not
zero is inserted into the tree and takes its path there, and a zero leaf borrows the path of
the padding note from the tree before the batch. The null root of each path is the root of
the tree before its insert and the leaf root the one after it, so the inserts make a chain of
roots: the honest synthesis of the circuit follows the chain, and its ends are the roots that
the batch exposes.
-/
namespace PayyRollup.ProverBatch

open BitLists ScalarField ConstraintProgram Layouter Chips SparseMerkle ElementHash Notes InsertCircuit
  SnarkStatement SmirkNode SmirkTree SmirkValues NodeBlocks

def utxoAggNumber : ℕ := 3

def utxoAggLeaves : ℕ := 12

structure SmirkMetadata where
  insertedIn : ℕ
  deriving DecidableEq

/-- A transaction with its proof witness. -/
structure Transaction (Proof : Type) where
  instances : List (List Element)
  proof : Proof

variable {Proof : Type} {D : ℕ}

/-- What follows the root, the hash and the value in the first instance column. -/
def Transaction.leaves (txn : Transaction Proof) : List Element :=
  ((txn.instances.headD []).drop 3).map fun f => Element.fromBase f.toBase

/-- The leaves of the transactions; a proof without an instance column panics. -/
def extractLeaves (txns : List (Transaction Proof)) : Outcome CollisionError (List Element) :=
  if txns.any fun txn => txn.instances.isEmpty then .error .panic
  else .ok (txns.flatMap Transaction.leaves)

/-- The siblings of a path as a path of the circuits, which asserts their number. -/
def merklePath (path : Path D) : Outcome CollisionError (MerklePath D) :=
  let fpath := path.siblingsDeepestFirst.take (D - 1)
  if h : fpath.length = D - 1 then .ok ⟨fpath, h⟩ else .error .panic

/-- What a batch is generated with: its roots before and after. -/
structure GeneratedBatch (D : ℕ) where
  insertsLen : ℕ
  oldTree : Element
  newTree : Element
  batch : Batch utxoAggLeaves D

section Generation

variable (hash : List Fr → Fr)

/-- The loop over the leaves; only those that are not zero go into the tree. -/
def generateInserts (paddingPath : Path D) (currentBlock : ℕ) (tree : ValueTree D SmirkMetadata) :
    List Element → Outcome CollisionError (ValueTree D SmirkMetadata × List (Insert D))
  | [] => .ok (tree, [])
  | leaf :: rest =>
      if leaf = Element.zero then do
        let mp ← merklePath paddingPath
        let (final, inserts) ← generateInserts paddingPath currentBlock tree rest
        return (final, ⟨leaf, mp⟩ :: inserts)
      else do
        let inserted ← tree.insert hash leaf ⟨currentBlock⟩
        let mp ← merklePath (inserted.pathFor hash leaf)
        let (final, inserts) ← generateInserts paddingPath currentBlock inserted rest
        return (final, ⟨leaf, mp⟩ :: inserts)

/-- Generate the batch of three transactions; the tree ends with their leaves in it. -/
def genBatch (tree : ValueTree D SmirkMetadata)
    (txns : Vector (Transaction Proof) utxoAggNumber) (currentBlock : ℕ) :
    Outcome CollisionError (GeneratedBatch D × ValueTree D SmirkMetadata) := do
  let oldTree := tree.rootHash hash
  let paddingPath := tree.pathFor hash ((Note.paddingNote hash).commitment hash)
  let leaves ← extractLeaves txns.toList
  let (final, inserts) ← generateInserts hash paddingPath currentBlock tree leaves
  let newTree := final.rootHash hash
  if h : inserts.length = utxoAggLeaves then
    return (⟨inserts.length, oldTree, newTree, ⟨⟨inserts.toArray, by simpa using h⟩⟩⟩, final)
  else .error .panic

end Generation

section Chains

variable (hash : List Fr → Fr)

/-- Each insert that is not padding moves the last root to its leaf root. -/
def Chained : Fr → List (Insert D) → Fr → Prop
  | root, [], last => last = root
  | root, insert :: rest, last =>
      if insert.leaf = Element.zero then Chained root rest last
      else insert.computeNullRoot hash = root ∧ Chained (insert.computeLeafRoot hash) rest last

variable {hash}

theorem isPadding_eq (self : Insert D) :
    self.isPadding hash = decide (self.leaf = Element.zero) := by
  rw [Insert.isPadding, Note.paddingNote_commitment]
  rfl

/-- The honest prover climbs along the bits of the canonical leaf. -/
theorem insertSteps_eq (self : Insert D) (h : self.leaf.toNat < modulus) :
    insertSteps self = self.path.steps self.leaf := by
  rw [insertSteps, leafSteps, Element.toBase_val self.leaf h, MerklePath.steps,
    MerklePath.leastSignificantBits_eq]

theorem run_insert_roots (inst : List Fr) (hD : D ≤ 257) (self : Insert D)
    (h : self.leaf.toNat < modulus) :
    run hash inst (self.enforceConstraints hash) =
      some
        { newLeaf := self.leaf.toBase
          oldRoot := self.computeNullRoot hash
          newRoot := self.computeLeafRoot hash
          isPadding := bitCell (decide (self.leaf = Element.zero)) } := by
  have hpadding : decide (self.leaf.toBase = 0) = decide (self.leaf = Element.zero) :=
    decide_eq_decide.mpr (Element.toBase_eq_zero self.leaf h)
  have hnull : self.computeNullRoot hash = climbUp (fieldNode hash) 0 (insertSteps self) := by
    rw [Insert.computeNullRoot, MerklePath.computeNullRoot,
      MerklePath.computeRootFromLeaf_toBase, insertSteps_eq self h, Element.toBase_zero]
  have hleaf : self.computeLeafRoot hash =
      climbUp (fieldNode hash) self.leaf.toBase (insertSteps self) := by
    rw [Insert.computeLeafRoot, MerklePath.computeRoot, MerklePath.computeRootFromLeaf_toBase,
      insertSteps_eq self h]
  rw [run_insert hash inst hD self, hpadding, hnull, hleaf]

/-- The circuit accepts a chain of inserts and ends in its last root. -/
theorem run_chained (inst : List Fr) (hD : D ≤ 257) (inserts : List (Insert D)) (root last : Fr)
    (hsized : ∀ insert ∈ inserts, insert.leaf.toNat < modulus)
    (h : Chained hash root inserts last) :
    run hash inst (Batch.enforceInserts hash root inserts) =
      some (last, inserts.map fun insert => insert.leaf.toBase) := by
  induction inserts generalizing root with
  | nil =>
    obtain rfl : last = root := h
    rfl
  | cons insert rest ih =>
    obtain ⟨hsize, hrest⟩ := List.forall_mem_cons.mp hsized
    rw [Chained] at h
    by_cases hzero : insert.leaf = Element.zero
    · rw [if_pos hzero] at h
      have hlast := ih root hrest h
      simp only [Batch.enforceInserts, run_bind, run_insert_roots inst hD insert hsize,
        Option.bind_some, hzero, decide_true, run_swapAssigned, swapped, if_true,
        run_constrainEqual, hlast, run_pure, List.map_cons]
    · rw [if_neg hzero] at h
      obtain ⟨rfl, hchain⟩ := h
      have hlast := ih _ hrest hchain
      simp only [Batch.enforceInserts, run_bind, run_insert_roots inst hD insert hsize,
        Option.bind_some, hzero, decide_false, run_swapAssigned, swapped, Bool.false_eq_true,
        if_false, run_constrainEqual, if_true, hlast, run_pure, List.map_cons]

/-- The leaf root of the last insert that is not padding ends the chain. -/
theorem chained_last (inserts : List (Insert D)) (root last : Fr)
    (h : Chained hash root inserts last) :
    ((inserts.reverse.find? fun insert => !insert.isPadding hash).map
      (Insert.computeLeafRoot hash)).getD root = last := by
  induction inserts generalizing root with
  | nil => exact (Eq.symm h)
  | cons insert rest ih =>
    rw [Chained] at h
    rw [List.reverse_cons, List.find?_append]
    by_cases hzero : insert.leaf = Element.zero
    · rw [if_pos hzero] at h
      have hnone : List.find? (fun insert => !insert.isPadding hash) [insert] = none := by
        simp [isPadding_eq, hzero]
      rw [hnone, Option.or_none]
      exact ih root h
    · rw [if_neg hzero] at h
      have hsome : List.find? (fun insert => !insert.isPadding hash) [insert] = some insert := by
        simp [isPadding_eq, hzero]
      have hlast := ih _ h.2
      rw [hsome]
      cases hfind : rest.reverse.find? fun insert => !insert.isPadding hash with
      | none =>
        rw [hfind] at hlast
        exact hlast
      | some found =>
        rw [hfind] at hlast
        exact hlast

/-- A batch whose inserts are chained from its old root satisfies its circuit. -/
theorem satisfied_chained {N : ℕ} (hD : D ≤ 257) (self : Batch N D) (last : Fr)
    (hsized : ∀ insert ∈ self.inserts.toList, insert.leaf.toNat < modulus)
    (h : Chained hash (self.oldRoot hash) self.inserts.toList last) :
    Satisfied hash (self.publicInputs hash) (self.synthesize hash) ∧
      self.newRoot hash = last := by
  have hnew : self.newRoot hash = last := chained_last _ _ _ h
  refine ⟨?_, hnew⟩
  have hinserts : run hash (self.publicInputs hash) (self.enforceConstraints hash) =
      some ⟨self.oldRoot hash, last, self.leafs⟩ := by
    simp only [Batch.enforceConstraints, run_bind, run_assignAdvice, Option.bind_some,
      run_chained _ hD _ _ _ hsized h, run_pure]
    rfl
  have hrows := (run_exposeRows hash (self.publicInputs hash) self.leafs 2).mpr fun i _ => rfl
  unfold Satisfied
  rw [Batch.synthesize, run_bind, hinserts, Option.bind_some, run_check_isSome,
    Batch.enforceInstances, run_check_isSome, run_check_isSome, run_constrainInstance_isSome,
    run_constrainInstance_isSome]
  refine ⟨⟨rfl, ?_, hrows⟩, rfl⟩
  exact congrArg some hnew

end Chains

section Paths

variable {hash : List Fr → Fr} {t : ValueTree D SmirkMetadata}

/-- The path of an element takes any leaf to the root with that leaf in its slot. -/
theorem merklePath_pathFor (h : t.keyed.Valid hash) (e : Element) :
    ∃ mp, merklePath (t.pathFor hash e) = .ok mp ∧ ∀ x : Element,
      (mp.computeRootFromLeaf hash e x).toBase =
        (root (elementNode hash) (D - 1) (Function.update t.tree.leafAt (bits D e) x)).toBase := by
  let sibs := siblings (elementNode hash) t.tree.leafAt (bits D e)
  have hlen : sibs.length = D - 1 := by
    rw [siblings_length, bits_length]
  have hdeepest : (t.pathFor hash e).siblingsDeepestFirst.take (D - 1) = sibs.reverse := by
    rw [(ValueTree.pathFor_siblings h e).2]
    apply List.take_of_length_le
    rw [List.length_reverse, hlen]
  have hfits : ((t.pathFor hash e).siblingsDeepestFirst.take (D - 1)).length = D - 1 := by
    rw [hdeepest, List.length_reverse, hlen]
  refine ⟨⟨_, hfits⟩, dif_pos hfits, ?_⟩
  intro x
  have hroot := root_update (elementNode hash) t.tree.leafAt (bits D e) x
  rw [bits_length] at hroot
  have hzip : ((bits D e).reverse.zip (sibs.reverse.map Element.toBase)).reverse =
      (bits D e).zip (sibs.map Element.toBase) := by
    rw [List.map_reverse, List.zip, ← List.reverse_zipWith (by simp [hlen]), List.reverse_reverse]
  rw [hroot, climb_map (elementNode hash) (fieldNode hash) Element.toBase (toBase_elementNode hash),
    ← hzip, ← climbUp_eq_climb, MerklePath.computeRootFromLeaf_toBase, MerklePath.steps]
  simp only [hdeepest]
  rfl

/-- An element that is not null goes into its empty slot, and nothing else changes. -/
theorem insert_vacant (h : t.keyed.Valid hash) (hcache : Faithful hash t.cache) (hD : D ≤ 257)
    (element : Element) (value : SmirkMetadata) (hnull : element ≠ Element.zero)
    (hvacant : h.sparse.leaf (bits D element) = 0) :
    ∃ inserted, t.insert hash element value = .ok inserted ∧ inserted.cache = t.cache ∧
      ∃ hinserted : inserted.keyed.Valid hash,
        h.sparse.insert element = some hinserted.sparse := by
  obtain ⟨batch, hbatch⟩ := ValueTree.valueBatch_insert_of_fresh (ValueBatch.new D SmirkMetadata)
    element value hD (by simp [ValueBatch.new, ValueBatch.elements])
  have hentries : batch.elements = [element] := by
    rw [ValueBatch.elements, ValueTree.valueBatch_insert_ok _ _ _ _ hbatch]
    rfl
  obtain ⟨node, -, hok, hvalid, hlaid⟩ := ValueTree.insertBatch_free h hcache (fun _ => []) batch
    (by simp [hentries, Element.nullHash, hnull]) (by simpa [hentries] using hvacant)
  refine ⟨⟨node.recalculateHashes hash, KeyValueStore.putAll batch.entries t.entries, t.cache⟩,
    ?_, rfl, hvalid, ?_⟩
  · rw [ValueTree.insert, hbatch]
    dsimp only
    rw [hok]
    rfl
  · have hone : h.sparse.insertAll [element] = some hvalid.sparse := by
      refine (SparseTree.insertAll_eq_some _ _ _ ?_).mpr ⟨?_, ?_⟩
      · intro x hx
        rw [List.mem_singleton.mp hx]
        exact hnull
      · exact ⟨List.pairwise_singleton _ _, by simpa using hvacant⟩
      · rw [hlaid, hentries]
    obtain ⟨S, hS, hrest⟩ := Option.bind_eq_some_iff.mp hone
    cases hrest
    exact hS

/-- What the loop over the leaves leaves behind. -/
structure Generated (hash : List Fr → Fr) (mp : MerklePath D) (currentBlock : ℕ)
    (h : t.keyed.Valid hash) (leaves : List Element) (final : ValueTree D SmirkMetadata)
    (inserts : List (Insert D)) : Prop where
  leaf_eq : inserts.map Insert.leaf = leaves
  padding_path : ∀ insert ∈ inserts, insert.leaf = Element.zero → insert.path = mp
  chained : Chained hash (t.rootHash hash).toBase inserts (final.rootHash hash).toBase
  inserted : TreeOp.run hash t
    ((nonNull leaves).map fun leaf => TreeOp.insert leaf ⟨currentBlock⟩) = .ok final
  cache_eq : final.cache = t.cache
  valid : final.keyed.Valid hash
  laid : valid.sparse = h.sparse.laid (nonNull leaves)

/-- The path that a leaf takes after its insert has the roots before and after it. -/
theorem insert_roots (h : t.keyed.Valid hash) {inserted : ValueTree D SmirkMetadata}
    (hinserted : inserted.keyed.Valid hash) (leaf : Element)
    (hleaf : h.sparse.insert leaf = some hinserted.sparse) :
    ∃ mp, merklePath (inserted.pathFor hash leaf) = .ok mp ∧
      Insert.computeNullRoot hash ⟨leaf, mp⟩ = (t.rootHash hash).toBase ∧
      Insert.computeLeafRoot hash ⟨leaf, mp⟩ = (inserted.rootHash hash).toBase := by
  obtain ⟨hvacant, hupdate⟩ := (SparseTree.insert_eq_some _ _ _).mp hleaf
  obtain ⟨mp, hmp, hroots⟩ := merklePath_pathFor hinserted leaf
  have hold : t.rootHash hash = root (elementNode hash) (D - 1) t.tree.leafAt := h.rootHash_eq
  have hnew : inserted.rootHash hash = root (elementNode hash) (D - 1) inserted.tree.leafAt :=
    hinserted.rootHash_eq
  have hleafAt : inserted.tree.leafAt = Function.update t.tree.leafAt (bits D leaf) leaf := hupdate
  have hzero : t.tree.leafAt (bits D leaf) = Element.zero := hvacant
  refine ⟨mp, hmp, ?_, ?_⟩
  · rw [Insert.computeNullRoot, MerklePath.computeNullRoot, hroots, hleafAt,
      Function.update_idem, ← hzero, Function.update_eq_self, hold]
  · rw [Insert.computeLeafRoot, MerklePath.computeRoot, hroots, hnew, hleafAt,
      Function.update_idem]

theorem generateInserts_generated (paddingPath : Path D) (mp : MerklePath D)
    (hmp : merklePath paddingPath = .ok mp) (currentBlock : ℕ) (hD : D ≤ 257)
    (leaves : List Element) (h : t.keyed.Valid hash) (hcache : Faithful hash t.cache)
    (hfree : h.sparse.Free (nonNull leaves)) :
    ∃ final inserts, generateInserts hash paddingPath currentBlock t leaves =
        .ok (final, inserts) ∧ Generated hash mp currentBlock h leaves final inserts := by
  induction leaves generalizing t with
  | nil =>
    refine ⟨t, [], rfl, rfl, by simp, rfl, rfl, rfl, h, ?_⟩
    rw [nonNull, List.filter_nil, SparseTree.laid_nil]
  | cons leaf rest ih =>
    by_cases hzero : leaf = Element.zero
    · have hskip : nonNull (leaf :: rest) = nonNull rest :=
        (nonNull_cons leaf rest).trans (if_pos hzero)
      rw [hskip] at hfree
      obtain ⟨final, inserts, hok, hgen⟩ := ih h hcache hfree
      refine ⟨final, ⟨leaf, mp⟩ :: inserts, ?_, ?_⟩
      · rw [generateInserts, if_pos hzero, hmp]
        simp only [Bind.bind, Except.bind, pure, Except.pure, hok]
      · refine ⟨?_, ?_, ?_, ?_, hgen.cache_eq, hgen.valid, ?_⟩
        · rw [List.map_cons, hgen.leaf_eq]
        · exact List.forall_mem_cons.mpr ⟨fun _ => rfl, hgen.padding_path⟩
        · rw [Chained, if_pos hzero]
          exact hgen.chained
        · rw [hskip]
          exact hgen.inserted
        · rw [hskip]
          exact hgen.laid
    · have hkeep : nonNull (leaf :: rest) = leaf :: nonNull rest :=
        (nonNull_cons leaf rest).trans (if_neg hzero)
      rw [hkeep] at hfree
      obtain ⟨inserted, hinsert, hsame, hvalid, hsparse⟩ := insert_vacant h hcache hD leaf
        ⟨currentBlock⟩ hzero (hfree.vacant leaf (List.mem_cons_self ..))
      obtain ⟨path, hpath, hnull, hleafRoot⟩ := insert_roots h hvalid leaf hsparse
      rw [← SparseTree.free_of_insert _ leaf _ hzero hsparse] at hfree
      obtain ⟨final, inserts, hok, hgen⟩ := ih hvalid (hsame ▸ hcache) hfree
      refine ⟨final, ⟨leaf, path⟩ :: inserts, ?_, ?_⟩
      · rw [generateInserts, if_neg hzero, hinsert]
        simp only [Bind.bind, Except.bind, pure, Except.pure, hpath, hok]
      · refine ⟨?_, ?_, ?_, ?_, hgen.cache_eq.trans hsame, hgen.valid, ?_⟩
        · rw [List.map_cons, hgen.leaf_eq]
        · exact List.forall_mem_cons.mpr ⟨fun h => absurd h hzero, hgen.padding_path⟩
        · rw [Chained, if_neg hzero]
          exact ⟨hnull, hleafRoot ▸ hgen.chained⟩
        · rw [hkeep, List.map_cons, TreeOp.run, TreeOp.apply, hinsert]
          exact hgen.inserted
        · rw [hkeep, hgen.laid, SparseTree.laid_of_insert _ _ _ hzero hsparse]

end Paths

section Batches

variable (hash : List Fr → Fr) (hD : D ≤ 257) (t : ValueTree D SmirkMetadata)

theorem sized_leaves (txn : Transaction Proof) :
    ∀ leaf ∈ txn.leaves, leaf.toNat < modulus := by
  intro leaf hleaf
  obtain ⟨f, -, rfl⟩ := List.mem_map.mp hleaf
  rw [Element.fromBase_toNat]
  exact ZMod.val_lt _

include hD in
/-- Three transactions with twelve leaves make a batch when their leaves fit. -/
theorem genBatch_generated (h : t.keyed.Valid hash) (hcache : Faithful hash t.cache)
    (txns : Vector (Transaction Proof) utxoAggNumber) (currentBlock : ℕ)
    (hinstances : ∀ txn ∈ txns.toList, txn.instances ≠ [])
    (hlen : (txns.toList.flatMap Transaction.leaves).length = utxoAggLeaves)
    (hfree : h.sparse.Free (nonNull (txns.toList.flatMap Transaction.leaves))) :
    ∃ batch final mp, genBatch hash t txns currentBlock =
        .ok (⟨utxoAggLeaves, t.rootHash hash, final.rootHash hash, batch⟩, final) ∧
      merklePath (t.pathFor hash Element.zero) = .ok mp ∧
      Generated hash mp currentBlock h (txns.toList.flatMap Transaction.leaves) final
        batch.inserts.toList := by
  obtain ⟨mp, hmp, -⟩ := merklePath_pathFor h Element.zero
  obtain ⟨final, inserts, hok, hgen⟩ := generateInserts_generated _ mp hmp currentBlock hD
    (txns.toList.flatMap Transaction.leaves) h hcache hfree
  have hcount : inserts.length = utxoAggLeaves := by
    rw [← hlen, ← hgen.leaf_eq, List.length_map]
  have hleaves : extractLeaves txns.toList = .ok (txns.toList.flatMap Transaction.leaves) := by
    rw [extractLeaves, if_neg]
    rw [List.any_eq_true]
    rintro ⟨txn, htxn, hempty⟩
    exact hinstances txn htxn (List.isEmpty_iff.mp hempty)
  refine ⟨⟨⟨inserts.toArray, by simpa using hcount⟩⟩, final, mp, ?_, hmp, hgen⟩
  rw [genBatch, Note.paddingNote_commitment, hleaves]
  simp only [Bind.bind, Except.bind, pure, Except.pure, hok]
  rw [dif_pos hcount]
  exact congrArg (fun len => Except.ok ((⟨len, _, _, _⟩ : GeneratedBatch D), final)) hcount

section Roots

variable {hash t} {N : ℕ} (hN : 0 < N) (batch : Batch N D) (h : t.keyed.Valid hash)
  (mp : MerklePath D) (hmp : merklePath (t.pathFor hash Element.zero) = .ok mp)
  (currentBlock : ℕ) (leaves : List Element) (final : ValueTree D SmirkMetadata)
  (hgen : Generated hash mp currentBlock h leaves final batch.inserts.toList)

include hN hmp hgen in
/-- The old root of a batch is that of the tree, without what sits in the slot of zero if its
first leaf is zero. -/
theorem oldRoot_generated :
    batch.oldRoot hash =
      if leaves.head? = some Element.zero then
        (root (elementNode hash) (D - 1)
          (Function.update t.tree.leafAt (bits D Element.zero) Element.zero)).toBase
      else (t.rootHash hash).toBase := by
  obtain ⟨first, rest, hinserts⟩ : ∃ first rest, batch.inserts.toList = first :: rest := by
    cases hlist : batch.inserts.toList with
    | nil =>
      have hlen := congrArg List.length hlist
      rw [Vector.length_toList, List.length_nil] at hlen
      omega
    | cons first rest => exact ⟨first, rest, rfl⟩
  have hchain := hgen.chained
  have hpath := hgen.padding_path
  have hleaf := hgen.leaf_eq
  rw [hinserts] at hchain hpath hleaf
  have hhead : leaves.head? = some first.leaf := by
    rw [← hleaf]
    rfl
  rw [Batch.oldRoot, hinserts, List.head?_cons, Option.map_some, Option.getD_some, hhead]
  rw [Chained] at hchain
  by_cases hpadding : first.leaf = Element.zero
  · obtain ⟨mp', hmp', hroots⟩ := merklePath_pathFor h Element.zero
    obtain rfl : mp = mp' := Except.ok.inj (hmp.symm.trans hmp')
    rw [if_pos (congrArg some hpadding), Insert.computeNullRoot, MerklePath.computeNullRoot,
      hpath first (List.mem_cons_self ..) hpadding, hpadding, hroots]
  · rw [if_neg hpadding] at hchain
    rw [if_neg fun heq => hpadding (Option.some.inj heq)]
    exact hchain.1

include hgen in
/-- The new root of a batch is that of the tree it leaves, or its old root if it only pads. -/
theorem newRoot_generated :
    batch.newRoot hash =
      if nonNull leaves = [] then batch.oldRoot hash else (final.rootHash hash).toBase := by
  have hlast := chained_last _ _ _ hgen.chained
  rw [Batch.newRoot]
  by_cases hempty : nonNull leaves = []
  · have hnone : batch.inserts.toList.reverse.find? (fun insert => !insert.isPadding hash) =
        none := by
      rw [List.find?_eq_none]
      intro insert hinsert
      have hmem : insert.leaf ∈ leaves :=
        hgen.leaf_eq ▸ List.mem_map_of_mem (List.mem_reverse.mp hinsert)
      have hzero : insert.leaf = Element.zero := by
        by_contra hne
        have hin := (mem_nonNull leaves insert.leaf).mpr ⟨hmem, hne⟩
        rw [hempty] at hin
        cases hin
      simp [isPadding_eq, hzero]
    rw [hnone, if_pos hempty]
    rfl
  · obtain ⟨leaf, hleaf⟩ := List.exists_mem_of_ne_nil _ hempty
    obtain ⟨hmem, hne⟩ := (mem_nonNull leaves leaf).mp hleaf
    rw [← hgen.leaf_eq, List.mem_map] at hmem
    obtain ⟨insert, hinsert, rfl⟩ := hmem
    rw [if_neg hempty, ← hlast]
    cases hfind : batch.inserts.toList.reverse.find? fun insert => !insert.isPadding hash with
    | some found => rfl
    | none =>
      have hpadding := List.find?_eq_none.mp hfind insert (List.mem_reverse.mpr hinsert)
      have hzero : insert.leaf = Element.zero := by simpa [isPadding_eq] using hpadding
      exact absurd hzero hne

end Roots

/-- The non-zero leaves as field elements and as elements. -/
theorem nonZero_toBase (leaves : List Element) (h : ∀ leaf ∈ leaves, leaf.toNat < modulus) :
    (BatchSoundness.nonZero (leaves.map Element.toBase)).map Element.fromBase =
      nonNull leaves := by
  induction leaves with
  | nil => rfl
  | cons leaf rest ih =>
    obtain ⟨hsize, hrest⟩ := List.forall_mem_cons.mp h
    by_cases hzero : leaf = Element.zero
    · rw [List.map_cons, hzero, Element.toBase_zero, BatchSoundness.nonZero_cons_zero, ih hrest]
      exact ((nonNull_cons Element.zero rest).trans (if_pos rfl)).symm
    · have hne : leaf.toBase ≠ 0 := fun h => hzero ((Element.toBase_eq_zero leaf hsize).mp h)
      rw [List.map_cons, BatchSoundness.nonZero_cons _ _ hne, List.map_cons, ih hrest,
        Element.fromBase_toBase leaf hsize]
      exact ((nonNull_cons leaf rest).trans (if_neg hzero)).symm

include hD in
/-- The batch of three transactions whose leaves fit the tree satisfies its circuit. It exposes
the root of the tree, the root after its non-zero leaves are inserted in their order, and the
leaves, and it leaves the tree of these insertions. -/
theorem genBatch_complete (h : t.keyed.Valid hash) (hcache : Faithful hash t.cache)
    (txns : Vector (Transaction Proof) utxoAggNumber) (currentBlock : ℕ)
    (hinstances : ∀ txn ∈ txns.toList, txn.instances ≠ [])
    (hlen : (txns.toList.flatMap Transaction.leaves).length = utxoAggLeaves)
    (hfree : h.sparse.Free (nonNull (txns.toList.flatMap Transaction.leaves)))
    (hzero : h.sparse.leaf (bits D Element.zero) = Element.zero) :
    ∃ out final, genBatch hash t txns currentBlock = .ok (out, final) ∧
      Satisfied hash (out.batch.publicInputs hash) (out.batch.synthesize hash) ∧
      out.batch.leafs = (txns.toList.flatMap Transaction.leaves).map Element.toBase ∧
      out.batch.oldRoot hash = (t.rootHash hash).toBase ∧
      TreeOp.run hash t ((BatchSoundness.nonZero out.batch.leafs).map fun leaf =>
        TreeOp.insert (Element.fromBase leaf) ⟨currentBlock⟩) = .ok final ∧
      out.batch.newRoot hash = (final.rootHash hash).toBase ∧
      ∃ hfinal : final.keyed.Valid hash,
        hfinal.sparse = h.sparse.laid (nonNull (txns.toList.flatMap Transaction.leaves)) := by
  obtain ⟨batch, final, mp, hok, hmp, hgen⟩ :=
    genBatch_generated hash hD t h hcache txns currentBlock hinstances hlen hfree
  have hsized : ∀ leaf ∈ txns.toList.flatMap Transaction.leaves, leaf.toNat < modulus := by
    intro leaf hleaf
    obtain ⟨txn, -, hin⟩ := List.mem_flatMap.mp hleaf
    exact sized_leaves txn leaf hin
  have hinserts : ∀ insert ∈ batch.inserts.toList, insert.leaf.toNat < modulus := by
    intro insert hinsert
    exact hsized _ (hgen.leaf_eq ▸ List.mem_map_of_mem hinsert)
  have hvacant : t.tree.leafAt (bits D Element.zero) = Element.zero := hzero
  have hroot : t.rootHash hash = root (elementNode hash) (D - 1) t.tree.leafAt := h.rootHash_eq
  have hold : batch.oldRoot hash = (t.rootHash hash).toBase := by
    have hclear := Function.update_eq_self (bits D Element.zero) t.tree.leafAt
    rw [hvacant] at hclear
    rw [oldRoot_generated (by decide) batch h mp hmp currentBlock _ final hgen, hclear, ← hroot,
      ite_self]
  have hchain := hgen.chained
  rw [← hold] at hchain
  obtain ⟨hsat, hnew⟩ := satisfied_chained hD batch _ hinserts hchain
  have hleafs : batch.leafs = (txns.toList.flatMap Transaction.leaves).map Element.toBase := by
    rw [← hgen.leaf_eq, List.map_map]
    rfl
  refine ⟨_, final, hok, hsat, hleafs, hold, ?_, hnew, hgen.valid, hgen.laid⟩
  dsimp only
  rw [hleafs, ← hgen.inserted, ← nonZero_toBase _ hsized, List.map_map]
  rfl

end Batches

section FirstBatch

private def spend : Transaction Unit :=
  ⟨[[9#256, 0#256, 0#256, 5#256, 0#256, 6#256, 0#256]], ()⟩

private def padding : Transaction Unit := ⟨[List.replicate 7 0#256], ()⟩

private def firstTxns : Vector (Transaction Unit) utxoAggNumber := #v[padding, spend, padding]

private theorem firstTxns_leaves :
    nonNull (firstTxns.toList.flatMap Transaction.leaves) = [5#256, 6#256] := by
  decide

/-- A spend between two padding transactions, over the empty tree of the rollup. -/
theorem genBatch_complete_first :
    ∃ h : (ValueTree.newWithCache 161 SmirkMetadata []).keyed.Valid (fun _ => 1),
      ∃ out final, genBatch (fun _ => 1) (ValueTree.newWithCache 161 SmirkMetadata []) firstTxns 1 =
          .ok (out, final) ∧
        Satisfied (fun _ => 1) (out.batch.publicInputs fun _ => 1)
          (out.batch.synthesize fun _ => 1) ∧
        out.batch.leafs = (firstTxns.toList.flatMap Transaction.leaves).map Element.toBase ∧
        out.batch.oldRoot (fun _ => 1) = ((ValueTree.newWithCache 161 SmirkMetadata []).rootHash
          fun _ => 1).toBase ∧
        TreeOp.run (fun _ => 1) (ValueTree.newWithCache 161 SmirkMetadata [])
          ((BatchSoundness.nonZero out.batch.leafs).map fun leaf =>
            TreeOp.insert (Element.fromBase leaf) ⟨1⟩) = .ok final ∧
        out.batch.newRoot (fun _ => 1) = (final.rootHash fun _ => 1).toBase ∧
        ∃ hfinal : final.keyed.Valid fun _ => 1,
          hfinal.sparse = h.sparse.laid (nonNull (firstTxns.toList.flatMap Transaction.leaves)) := by
  have hcache : SmirkValues.Faithful (fun _ => 1) [] := fun known hknown => nomatch hknown
  have hnew := @ValueTree.newWithCache_holds 161 SmirkMetadata (fun _ => 1) [] hcache
  have hvacant : ∀ p, hnew.valid.sparse.leaf p = Element.zero := fun p => leafAt_empty p
  refine ⟨hnew.valid, genBatch_complete (fun _ => 1) (by decide) _ hnew.valid hnew.faithful
    firstTxns 1 ?_ ?_ ⟨?_, fun x _ => hvacant _⟩ (hvacant _)⟩
  · decide
  · decide
  · rw [firstTxns_leaves]
    refine List.pairwise_pair.mpr fun heq => ?_
    have hsame := bits_inj_of_lt 161 5#256 6#256 (by decide) (by decide) heq
    exact absurd hsame (by decide)

end FirstBatch
end PayyRollup.ProverBatch
