import PayyRollup.AmountBinding
import PayyRollup.CommittedRuns
import PayyRollup.KeyedSums

/-!
Spent notes over runs of validated blocks. The nullifier of a note is a function of its
commitment, whatever witness a prover takes, and a leaf goes into the tree once; so a note is
spent at most once. A node that checks the recent root has a tree with that root, and a Merkle
path with any directions leads to a leaf of it: what is spent was committed. The accounts of the
transactions then add up to those of the run.
-/
namespace PayyRollup.SpentNotes

open ScalarField ConstraintProgram Layouter ElementHash Gadgets SparseMerkle Notes UtxoCircuit
  ValueConservation AmountBinding SmirkNode SmirkTree NodeBlocks BlockValidation BlockCommit
  CommittedRuns

variable {O : HashOracle Fr} {D : ℕ}

/-- The inputs of a transaction that are not padding. -/
def spends (cells : UtxoCells) : List UtxoInputCells :=
  cells.inputs.filter fun c => decide (c.value ≠ 0)

/-- The outputs of a transaction that are not padding. -/
def creates (cells : UtxoCells) : List NoteConstraintCells :=
  cells.outputs.filter fun c => decide (c.value ≠ 0)

/-- The commitment of the note that an input spends. -/
def spentCm (c : UtxoInputCells) : Fr := c.note.commitment.cm

def leafHashes (cells : UtxoCells) : List Fr :=
  (spends cells).map UtxoInputCells.nullifier ++ (creates cells).map NoteConstraintCells.cm

/-- A witness for each transaction. -/
def Witnessed (O : HashOracle Fr) (D : ℕ) : List UtxoProof → List UtxoCells → Prop :=
  List.Forall₂ fun txn cells => Constrained O D (fieldInstances txn) cells

section Cells

variable (hO : O.CollisionFree) (hnull : O.NoNullPreimage) {inst : List Fr} {cells : UtxoCells}

theorem mem_spends (h : Constrained O D inst cells) (c : UtxoInputCells) (hc : c ∈ spends cells) :
    ConstrainedInput O D cells.unverifiedRoot c ∧ c.value ≠ 0 :=
  ⟨h.input c (List.mem_of_mem_filter hc), of_decide_eq_true (List.mem_filter.mp hc).2⟩

theorem mem_creates (h : Constrained O D inst cells) (c : NoteConstraintCells)
    (hc : c ∈ creates cells) : ConstrainedOutput O c ∧ c.value ≠ 0 :=
  ⟨h.output c (List.mem_of_mem_filter hc), of_decide_eq_true (List.mem_filter.mp hc).2⟩

include hnull in
theorem nullifier_ne_zero (h : Constrained O D inst cells) (c : UtxoInputCells)
    (hc : c ∈ cells.inputs) : c.nullifier ≠ 0 ↔ c.value ≠ 0 := by
  refine not_congr ⟨input_value_zero hnull (h.input c hc), fun hzero => ?_⟩
  rw [(h.input c hc).nullifier_eq, if_pos hzero]

include hnull in
theorem commitment_ne_zero (h : Constrained O D inst cells) (c : NoteConstraintCells)
    (hc : c ∈ cells.outputs) : c.cm ≠ 0 ↔ c.value ≠ 0 := by
  obtain ⟨version, hopens⟩ := (h.output c hc).opens
  exact not_congr (opens_cm_eq_zero hnull hopens)

include hO in
/-- Two spends of one commitment have one nullifier, whatever the witnesses. -/
theorem nullifier_unique {root root' : Fr} {a b : UtxoInputCells}
    (ha : ConstrainedInput O D root a) (hb : ConstrainedInput O D root' b) (hav : a.value ≠ 0)
    (hbv : b.value ≠ 0) (h : spentCm a = spentCm b) : a.nullifier = b.nullifier := by
  obtain ⟨version, path, hspends⟩ := ha.spends
  obtain ⟨version', path', hspends'⟩ := hb.spends
  have hcm := hspends.opens.cm_eq
  have hcm' := hspends'.opens.cm_eq
  rw [if_neg (show a.note.commitment.value ≠ 0 from hav)] at hcm
  rw [if_neg (show b.note.commitment.value ≠ 0 from hbv)] at hcm'
  have hmessages := hO.eq hspends.opens.hashed hspends'.opens.hashed
    (hcm.symm.trans (h.trans hcm'))
  simp only [List.cons.injEq] at hmessages
  obtain ⟨-, haddress, hpsi, -⟩ := hmessages
  have hkeys := hO.eq hspends.address_hashed hspends'.address_hashed
    (hspends.address_eq.trans (haddress.trans hspends'.address_eq.symm))
  have hsecret : a.note.secretKey = b.note.secretKey := (List.cons.inj hkeys).1
  rw [spentCm, spentCm] at h
  rw [ha.nullifier_eq, hb.nullifier_eq, if_neg hav, if_neg hbv, hspends.nullifier_eq,
    hspends'.nullifier_eq, h, hsecret, hpsi]

theorem spends_nullifierOf {root : Fr} {a : UtxoInputCells} (ha : ConstrainedInput O D root a)
    (hav : a.value ≠ 0) : NullifierOf O a.nullifier a.value := by
  obtain ⟨version, path, hspends⟩ := ha.spends
  refine ⟨a.note.commitment, version, a.note.secretKey, hspends.opens, hspends.nullifier_hashed,
    ?_, rfl⟩
  rw [ha.nullifier_eq, if_neg hav, hspends.nullifier_eq]

theorem spends_commitmentOf {root : Fr} {a : UtxoInputCells} (ha : ConstrainedInput O D root a) :
    CommitmentOf O (spentCm a) a.value := by
  obtain ⟨version, path, hspends⟩ := ha.spends
  exact ⟨a.note.commitment, version, hspends.opens, rfl, rfl⟩

theorem creates_commitmentOf {c : NoteConstraintCells} (hc : ConstrainedOutput O c) :
    CommitmentOf O c.cm c.value := by
  obtain ⟨version, hopens⟩ := hc.opens
  exact ⟨c, version, hopens, rfl, rfl⟩

end Cells

section Leaves

variable (hnull : O.NoNullPreimage)

theorem toBase_ne_zero (e : Element) (h : e.toNat < modulus) :
    e ≠ Element.nullHash ↔ e.toBase ≠ 0 :=
  (not_congr (Element.toBase_eq_zero e h)).symm

theorem nonNull_toBase (leaves : List Element) (hsized : ∀ leaf ∈ leaves, leaf.toNat < modulus) :
    (nonNull leaves).map Element.toBase =
      (leaves.map Element.toBase).filter fun x => decide (x ≠ 0) := by
  rw [nonNull, List.filter_map]
  congr 1
  refine List.filter_congr fun e he => ?_
  exact decide_eq_decide.mpr (toBase_ne_zero e (hsized e he))

include hnull in
/-- The leaves of a transaction are the nullifiers and the commitments of its notes. -/
theorem leaves_toBase {txn : UtxoProof} {cells : UtxoCells}
    (h : Constrained O D (fieldInstances txn) cells)
    (hsized : ∀ leaf ∈ txn.leaves, leaf.toNat < modulus) :
    (nonNull txn.leaves).map Element.toBase = leafHashes cells := by
  obtain ⟨first, second, one, two, hin, hout, h3, h4, h5, h6⟩ := constrained_pairs h
  have hall : txn.leaves.map Element.toBase =
      cells.inputs.map UtxoInputCells.nullifier ++ cells.outputs.map NoteConstraintCells.cm := by
    rw [hin, hout]
    simp only [UtxoProof.leaves, List.map_cons, List.map_nil, List.cons_append, List.nil_append,
      List.cons.injEq, and_true]
    exact ⟨Option.some.inj h3, Option.some.inj h4, Option.some.inj h5, Option.some.inj h6⟩
  rw [nonNull_toBase _ hsized, hall, List.filter_append, List.filter_map, List.filter_map,
    leafHashes, spends, creates]
  congr 2
  · refine List.filter_congr fun c hc => ?_
    exact decide_eq_decide.mpr (nullifier_ne_zero hnull h c hc)
  · refine List.filter_congr fun c hc => ?_
    exact decide_eq_decide.mpr (commitment_ne_zero hnull h c hc)

include hnull in
theorem witnessed_leaves {txns : List UtxoProof} {cells : List UtxoCells}
    (h : Witnessed O D txns cells)
    (hsized : ∀ txn ∈ txns, ∀ leaf ∈ txn.leaves, leaf.toNat < modulus) :
    (nonNull (txns.flatMap UtxoProof.leaves)).map Element.toBase = cells.flatMap leafHashes := by
  induction h with
  | nil => rfl
  | cons hfirst _ ih =>
    rw [List.forall_mem_cons] at hsized
    rw [List.flatMap_cons, List.flatMap_cons, nonNull_append, List.map_append,
      leaves_toBase hnull hfirst hsized.1, ih hsized.2]

theorem exists_witnessed (txns : List UtxoProof)
    (h : ∀ txn ∈ txns, ∃ cells, Constrained O D (fieldInstances txn) cells) :
    ∃ cells, Witnessed O D txns cells := by
  induction txns with
  | nil => exact ⟨[], List.Forall₂.nil⟩
  | cons txn rest ih =>
    rw [List.forall_mem_cons] at h
    obtain ⟨own, hown⟩ := h.1
    obtain ⟨cells, hcells⟩ := ih h.2
    exact ⟨own :: cells, List.Forall₂.cons hown hcells⟩

theorem Witnessed.constrained {txns : List UtxoProof} {cells : List UtxoCells}
    (h : Witnessed O D txns cells) (c : UtxoCells) (hc : c ∈ cells) :
    ∃ txn ∈ txns, Constrained O D (fieldInstances txn) c := by
  induction h with
  | nil => cases hc
  | cons hfirst _ ih =>
    rcases List.mem_cons.mp hc with rfl | hc
    · exact ⟨_, List.mem_cons_self, hfirst⟩
    · obtain ⟨txn, htxn, hconstrained⟩ := ih hc
      exact ⟨txn, List.mem_cons_of_mem _ htxn, hconstrained⟩

theorem Witnessed.witness {txns : List UtxoProof} {cells : List UtxoCells}
    (h : Witnessed O D txns cells) (txn : UtxoProof) (htxn : txn ∈ txns) :
    ∃ c ∈ cells, Constrained O D (fieldInstances txn) c := by
  induction h with
  | nil => cases htxn
  | cons hfirst _ ih =>
    rcases List.mem_cons.mp htxn with rfl | htxn
    · exact ⟨_, List.mem_cons_self, hfirst⟩
    · obtain ⟨c, hc, hconstrained⟩ := ih htxn
      exact ⟨c, List.mem_cons_of_mem _ hc, hconstrained⟩

end Leaves

section Paths

/-- The pairs of a tree are among the hashed messages. -/
def TreeHashed (O : HashOracle Fr) (tree : Tree D) : Prop :=
  RootHashed (pairHash O) (D - 1) fun p => (tree.tree.leafAt p).toBase

/-- A path to the root of a tree, with any directions, starts at one of its leaves. -/
theorem leaf_of_path (hO : O.CollisionFree) {tree : Tree D} (hvalid : tree.Valid O.hash)
    (hhashed : TreeHashed O tree) {cm : Fr} {path : List (Bool × Fr)}
    (hlen : path.length = D - 1) (hpath : PathHashedUp (pairHash O) cm path)
    (hroot : climbUp (pairHash O).node cm path = (tree.rootHash O.hash).toBase) (hcm : cm ≠ 0) :
    ∃ e, tree.containsElement e = true ∧ e.toBase = cm := by
  have hfield : (tree.rootHash O.hash).toBase = SparseMerkle.root (pairHash O).node (D - 1)
      fun p => (tree.tree.leafAt p).toBase := by
    rw [hvalid.rootHash_eq, root_elementNode_toBase]
    rfl
  rw [pathHashedUp_iff] at hpath
  rw [climbUp_eq_climb, hfield] at hroot
  have hreverse : path.reverse.length = D - 1 := by rw [List.length_reverse, hlen]
  have hat := climb_eq_root (pairHash O) (pairHash_injective O hO)
    (fun p => (tree.tree.leafAt p).toBase) path.reverse cm
  rw [hreverse] at hat
  obtain ⟨hleaf, -⟩ := hat hhashed hpath hroot
  refine ⟨tree.tree.leafAt (path.reverse.map Prod.fst), ?_, hleaf.symm⟩
  have hne : hvalid.sparse.leaf (path.reverse.map Prod.fst) ≠ 0 := by
    intro hzero
    refine hcm (hleaf.trans ?_)
    change (hvalid.sparse.leaf (path.reverse.map Prod.fst)).toBase = 0
    rw [hzero]
    exact Element.toBase_zero
  exact (hvalid.mem_sparse _).mp (SparseTree.leaf_mem hvalid.sparse _ hne)

end Paths

section Runs

/-- The transactions of a run, in order. -/
def allTxns (blocks : List Block) : List UtxoProof :=
  blocks.flatMap fun block => block.content.state.txns

/-- A block that was validated, with a tree whose pairs are among the hashed messages. -/
def Checked (O : HashOracle Fr) (badBlocks : List ℕ) (block : Block) (l' : Ledger D) : Prop :=
  block.height ∉ badBlocks ∧ TreeHashed O l'.notesTree.tree

/-- The tree holds the leaves of the transactions, each once. -/
structure HoldsLeaves (blocks : List Block) (tree : Tree D) : Prop where
  sized : ∀ txn ∈ allTxns blocks, ∀ leaf ∈ txn.leaves, leaf.toNat < modulus
  nodup : (nonNull ((allTxns blocks).flatMap UtxoProof.leaves)).Nodup
  contains_iff : ∀ e, tree.containsElement e = true ↔
    e ∈ nonNull ((allTxns blocks).flatMap UtxoProof.leaves)

/-- The runs of validated blocks. -/
abbrev CheckedRun (O : HashOracle Fr) (D : ℕ) (env : NodeEnv) (mode : Mode) (badBlocks : List ℕ) :
    List Block → Ledger D → Prop :=
  CommittedRun env mode badBlocks (Checked O badBlocks)

/-- The note was in the tree of a block whose root was recent when the transaction was
validated. -/
def SpentUnderRecentRoot (O : HashOracle Fr) (D : ℕ) (env : NodeEnv) (mode : Mode)
    (badBlocks : List ℕ) (before : List Block) (block : Block) (txn : UtxoProof) (cm : Fr) : Prop :=
  ∃ (l l' : Ledger D) (earlier : List Block) (recent : Block) (later : List Block),
    CheckedRun O D env mode badBlocks before l ∧
    txn.recentRoot ∈ recentRoots l.blockStore block.height ∧
    before = earlier ++ recent :: later ∧ recent.rootHash = txn.recentRoot ∧
    CheckedRun O D env mode badBlocks (earlier ++ [recent]) l' ∧
    l'.notesTree.tree.rootHash env.poseidon = txn.recentRoot ∧
    l'.notesTree.tree.containsElement (Element.fromBase cm) = true

variable {env : NodeEnv} {mode : Mode} {badBlocks : List ℕ} {blocks : List Block} {l : Ledger D}

theorem allTxns_concat (blocks : List Block) (block : Block) :
    allTxns (blocks ++ [block]) = allTxns blocks ++ block.content.state.txns := by
  simp [allTxns]

theorem holdsLeaves (hrun : CheckedRun O D env mode badBlocks blocks l) :
    HoldsLeaves blocks l.notesTree.tree := by
  induction hrun with
  | start =>
    refine ⟨nofun, List.nodup_nil, fun e => ?_⟩
    have hempty : (freshLedger D).notesTree.tree.entries = [] := rfl
    rw [Tree.containsElement, hempty]
    simp [allTxns, nonNull]
  | commit blocks l block l' hrun hcommits hchecked ih =>
    obtain ⟨hgood, -⟩ := hchecked
    obtain ⟨hpasses, -⟩ := (validate_ok mode block.content l.blockStore l.notesTree.tree).mp
      (hcommits.validated hgood)
    obtain ⟨io, hcommitted, hfree⟩ := hcommits.cases hrun.valid
    obtain ⟨h', hlaid⟩ := hcommitted.inserted
    have hleaves : nonNull ((allTxns (blocks ++ [block])).flatMap UtxoProof.leaves) =
        nonNull ((allTxns blocks).flatMap UtxoProof.leaves) ++
          block.content.state.leavesNonNull := by
      rw [allTxns_concat, List.flatMap_append, nonNull_append]
      rfl
    refine ⟨fun txn htxn => ?_, ?_, fun e => ?_⟩
    · rw [allTxns_concat, List.mem_append] at htxn
      rcases htxn with htxn | htxn
      · exact ih.sized txn htxn
      · exact (hpasses.txns txn htxn).sized
    · rw [hleaves, List.nodup_append]
      refine ⟨ih.nodup, hpasses.nodup, fun a ha b hb heq => ?_⟩
      obtain ⟨hin, hne⟩ := (mem_nonNull _ b).mp hb
      obtain ⟨txn, htxn, hleaf⟩ := List.mem_flatMap.mp hin
      have hfresh := (hpasses.txns txn htxn).fresh b hleaf hne
      rw [heq, ← ih.contains_iff, hfresh] at ha
      cases ha
    · rw [contains_laid hrun.valid h' _ (newLeaves_ne_null _ _ _) hfree hlaid,
        newLeaves_of_not_bad _ _ _ _ hgood, hleaves, List.mem_append, ih.contains_iff, or_comm]

/-- The step of a run that commits one of its blocks. -/
theorem run_step {admits : Block → Ledger D → Prop} {before after : List Block} {block : Block}
    (hrun : CommittedRun env mode badBlocks admits (before ++ block :: after) l) :
    ∃ l₀ l₁, CommittedRun env mode badBlocks admits before l₀ ∧
      CommittedRun env mode badBlocks admits (before ++ [block]) l₁ ∧
      CommitsBlock env mode badBlocks block l₀ l₁ ∧ admits block l₁ := by
  have hsplit : before ++ block :: after = (before ++ [block]) ++ after := by simp
  rw [hsplit] at hrun
  obtain ⟨l₁, hthrough⟩ := CommittedRun.of_append _ after hrun
  obtain ⟨l₀, hbefore, hcommits, hadmits⟩ := hthrough.last
  exact ⟨l₀, l₁, hbefore, hthrough, hcommits, hadmits⟩

theorem climbUp_ne_zero (hnull : O.NoNullPreimage) (path : List (Bool × Fr)) (leaf : Fr)
    (hleaf : leaf ≠ 0) (hpath : PathHashedUp (pairHash O) leaf path) :
    climbUp (pairHash O).node leaf path ≠ 0 := by
  induction path generalizing leaf with
  | nil => exact hleaf
  | cons step rest ih =>
    obtain ⟨right, sibling⟩ := step
    obtain ⟨hstep, hrest⟩ := hpath
    refine ih _ ?_ hrest
    cases right with
    | false => exact hnull _ hstep
    | true => exact hnull _ hstep

variable (hO : O.CollisionFree) (hnull : O.NoNullPreimage) (henv : env.poseidon = O.hash)
  (hmode : mode.isProver = false)

include hO hnull henv hmode in
/-- Outside prover mode, what a transaction spends was committed under a recent root. -/
theorem spent_under_recent_root {before after : List Block} {block : Block}
    (hrun : CheckedRun O D env mode badBlocks (before ++ block :: after) l)
    (txn : UtxoProof) (htxn : txn ∈ block.content.state.txns) {cells : UtxoCells}
    (hcells : Constrained O D (fieldInstances txn) cells) (c : UtxoInputCells)
    (hc : c ∈ spends cells) :
    SpentUnderRecentRoot O D env mode badBlocks before block txn (spentCm c) := by
  obtain ⟨l₀, l₁, hbefore, -, hcommits, hgood, -⟩ := run_step hrun
  obtain ⟨hpasses, -⟩ := (validate_ok mode block.content l₀.blockStore l₀.notesTree.tree).mp
    (hcommits.validated hgood)
  have hvalid := hpasses.txns txn htxn
  obtain ⟨hinput, hvalue⟩ := mem_spends hcells c hc
  obtain ⟨version, path, hspends⟩ := hinput.spends
  have hcm : spentCm c ≠ 0 := fun hzero =>
    hvalue ((opens_cm_eq_zero hnull hspends.opens).mp hzero)
  have hrootEq : txn.recentRoot.toBase = c.root :=
    Option.some.inj (hcells.root c (List.mem_of_mem_filter hc))
  rw [hinput.root_eq, if_neg hvalue, hspends.root_eq] at hrootEq
  have hrecent : txn.recentRoot ∈ recentRoots l₀.blockStore block.height := by
    rcases hvalid.recent with hzero | hrecent | hprover
    · exfalso
      rw [hzero] at hrootEq
      exact climbUp_ne_zero hnull path _ hcm hspends.path_hashed
        (hrootEq.symm.trans Element.toBase_zero)
    · exact hrecent
    · rw [hmode] at hprover
      cases hprover
  obtain ⟨recent, hlisted, hroot⟩ := List.mem_map.mp hrecent
  obtain ⟨height, -, -, hget⟩ := (BlockStore.mem_list _ _ _ _).mp hlisted
  obtain ⟨hin, -⟩ := (hbefore.stored height recent).mp hget
  obtain ⟨earlier, later, rfl⟩ := List.append_of_mem hin
  obtain ⟨l₂, l', hearlier, hthrough, hthen, hgood', hhashed⟩ := run_step hbefore
  have hdeclared : l'.notesTree.tree.rootHash env.poseidon = txn.recentRoot :=
    (hthen.root hearlier.valid fun hbad => absurd hbad hgood').trans hroot
  have hvalid' := hthrough.valid
  obtain ⟨e, hcontains, hbase⟩ : ∃ e, l'.notesTree.tree.containsElement e = true ∧
      e.toBase = spentCm c := by
    rw [henv] at hvalid' hdeclared
    refine leaf_of_path hO hvalid' hhashed hspends.path_length hspends.path_hashed ?_ hcm
    rw [hdeclared, hrootEq]
    rfl
  have hleaves := holdsLeaves hthrough
  obtain ⟨hleaf, -⟩ := (mem_nonNull _ e).mp ((hleaves.contains_iff e).mp hcontains)
  obtain ⟨txn', htxn', hleaf⟩ := List.mem_flatMap.mp hleaf
  refine ⟨l₀, l', earlier, recent, later, hbefore, hrecent, rfl, hroot, hthrough, hdeclared, ?_⟩
  rw [← hbase, Element.fromBase_toBase e (hleaves.sized txn' htxn' e hleaf)]
  exact hcontains

include hO hnull henv hmode in
/-- Every spent note was created by a transaction of the run, with the same value. -/
theorem created_before (hrun : CheckedRun O D env mode badBlocks blocks l)
    {cells : List UtxoCells} (hcells : Witnessed O D (allTxns blocks) cells) (c : UtxoInputCells)
    (hc : c ∈ cells.flatMap spends) :
    ∃ o ∈ cells.flatMap creates, o.cm = spentCm c ∧ o.value = c.value ∧ o.value.val < 2 ^ 240 := by
  obtain ⟨own, hown, hspent⟩ := List.mem_flatMap.mp hc
  obtain ⟨txn, htxn, hconstrained⟩ := hcells.constrained own hown
  obtain ⟨block, hblock, hin⟩ := List.mem_flatMap.mp htxn
  obtain ⟨before, after, rfl⟩ := List.append_of_mem hblock
  obtain ⟨l₀, l', earlier, recent, later, -, -, rfl, -, hthrough, -, hcontains⟩ :=
    spent_under_recent_root hO hnull henv hmode hrun txn hin hconstrained c hspent
  have hleaves := holdsLeaves hrun
  have hleaf : Element.fromBase (spentCm c) ∈ nonNull ((allTxns (earlier ++ recent :: later ++
      block :: after)).flatMap UtxoProof.leaves) := by
    have hthen := (holdsLeaves hthrough).contains_iff _ |>.mp hcontains
    have hsplit : allTxns (earlier ++ recent :: later ++ block :: after) =
        allTxns (earlier ++ [recent]) ++ allTxns (later ++ block :: after) := by
      simp [allTxns]
    rw [hsplit, List.flatMap_append, nonNull_append]
    exact List.mem_append_left _ hthen
  have hhash : spentCm c ∈ cells.flatMap leafHashes := by
    rw [← witnessed_leaves hnull hcells hleaves.sized]
    exact List.mem_map.mpr ⟨_, hleaf, Element.toBase_fromBase _⟩
  obtain ⟨hinput, hvalue⟩ := mem_spends hconstrained c hspent
  obtain ⟨other, hother, hhash⟩ := List.mem_flatMap.mp hhash
  obtain ⟨txn', -, hconstrained'⟩ := hcells.constrained other hother
  rcases List.mem_append.mp hhash with hnullifier | hcommitment
  · obtain ⟨c', hc', heq⟩ := List.mem_map.mp hnullifier
    obtain ⟨hinput', hvalue'⟩ := mem_spends hconstrained' c' hc'
    have hboth := spends_nullifierOf hinput' hvalue'
    rw [heq] at hboth
    exact absurd hboth ((spends_commitmentOf hinput).not_nullifier hO hnull)
  · obtain ⟨o, ho, heq⟩ := List.mem_map.mp hcommitment
    obtain ⟨houtput, -⟩ := mem_creates hconstrained' o ho
    have hsame := creates_commitmentOf houtput
    rw [heq] at hsame
    exact ⟨o, List.mem_flatMap.mpr ⟨other, hother, ho⟩, heq,
      hsame.value_eq hO hnull (spends_commitmentOf hinput), houtput.value_lt⟩

include hnull in
/-- No nullifier and no commitment is inserted twice. -/
theorem leafHashes_nodup (hrun : CheckedRun O D env mode badBlocks blocks l)
    {cells : List UtxoCells} (hcells : Witnessed O D (allTxns blocks) cells) :
    ((cells.flatMap spends).map UtxoInputCells.nullifier).Nodup ∧
      ((cells.flatMap creates).map NoteConstraintCells.cm).Nodup := by
  have hleaves := holdsLeaves hrun
  have hall : (cells.flatMap leafHashes).Nodup := by
    rw [← witnessed_leaves hnull hcells hleaves.sized]
    refine List.Nodup.map_on (fun a ha b hb heq => ?_) hleaves.nodup
    obtain ⟨hain, -⟩ := (mem_nonNull _ a).mp ha
    obtain ⟨hbin, -⟩ := (mem_nonNull _ b).mp hb
    obtain ⟨txn, htxn, ha⟩ := List.mem_flatMap.mp hain
    obtain ⟨txn', htxn', hb⟩ := List.mem_flatMap.mp hbin
    exact Element.toBase_inj a b (hleaves.sized txn htxn a ha) (hleaves.sized txn' htxn' b hb) heq
  constructor
  · rw [List.map_flatMap]
    exact hall.sublist (List.Sublist.flatMap_right cells fun _ _ => List.sublist_append_left _ _)
  · rw [List.map_flatMap]
    exact hall.sublist (List.Sublist.flatMap_right cells fun _ _ => List.sublist_append_right _ _)

include hO hnull in
theorem spentCm_nodup (hrun : CheckedRun O D env mode badBlocks blocks l)
    {cells : List UtxoCells} (hcells : Witnessed O D (allTxns blocks) cells) :
    ((cells.flatMap spends).map spentCm).Nodup := by
  refine KeyedSums.nodup_keys (leafHashes_nodup hnull hrun hcells).1 fun a ha b hb heq => ?_
  obtain ⟨own, hown, ha⟩ := List.mem_flatMap.mp ha
  obtain ⟨other, hother, hb⟩ := List.mem_flatMap.mp hb
  obtain ⟨txn, -, hconstrained⟩ := hcells.constrained own hown
  obtain ⟨txn', -, hconstrained'⟩ := hcells.constrained other hother
  obtain ⟨hinput, hvalue⟩ := mem_spends hconstrained a ha
  obtain ⟨hinput', hvalue'⟩ := mem_spends hconstrained' b hb
  exact nullifier_unique hO hinput hinput' hvalue hvalue' heq

/-- Padding adds nothing to a sum. -/
theorem sum_nonzero {α : Type} (value : α → Fr) (xs : List α) :
    ((xs.filter fun x => decide (value x ≠ 0)).map fun x => (value x).val).sum =
      naturalSum (xs.map value) := by
  induction xs with
  | nil => rfl
  | cons x xs ih =>
    rw [List.map_cons, naturalSum_cons, ← ih]
    by_cases hzero : value x = 0
    · simp [hzero]
    · simp [hzero]

/-- The equations of the transactions add up. -/
theorem conserved_all (cells : List UtxoCells)
    (h : ∀ own ∈ cells, inputSum own + minted own = outputSum own + burned own) :
    ((cells.flatMap spends).map fun c => c.value.val).sum + (cells.map minted).sum =
      ((cells.flatMap creates).map fun c => c.value.val).sum + (cells.map burned).sum := by
  induction cells with
  | nil => rfl
  | cons own rest ih =>
    rw [List.forall_mem_cons] at h
    have hown := h.1
    have hrest := ih h.2
    unfold inputSum outputSum at hown
    rw [← sum_nonzero, ← sum_nonzero] at hown
    simp only [List.flatMap_cons, List.map_append, List.sum_append, List.map_cons, List.sum_cons]
    unfold spends creates at hrest ⊢
    omega

include hO hnull henv hmode in
/-- What is committed and not spent is what was minted, less what was burned. -/
theorem unspent_value (hrun : CheckedRun O D env mode badBlocks blocks l)
    {cells : List UtxoCells} (hcells : Witnessed O D (allTxns blocks) cells) :
    (((cells.flatMap creates).filter fun o =>
        decide (o.cm ∉ (cells.flatMap spends).map spentCm)).map fun o => o.value.val).sum +
      (cells.map burned).sum = (cells.map minted).sum := by
  have hbefore := fun c hc => created_before hO hnull henv hmode hrun hcells c hc
  have hall := conserved_all cells fun own hown => by
    obtain ⟨txn, -, hconstrained⟩ := hcells.constrained own hown
    refine conserved hconstrained fun c hc hpadding => ?_
    have hvalue := (not_padding_iff hconstrained c hc).mp hpadding
    obtain ⟨o, -, -, hsame, hlt⟩ := hbefore c (List.mem_flatMap.mpr
      ⟨own, hown, List.mem_filter.mpr ⟨hc, decide_eq_true hvalue⟩⟩)
    rwa [hsame] at hlt
  have hmatch : ∀ c ∈ cells.flatMap spends, ∃ o ∈ cells.flatMap creates,
      o.cm = spentCm c ∧ o.value.val = c.value.val := by
    intro c hc
    obtain ⟨o, ho, hcm, hsame, -⟩ := hbefore c hc
    exact ⟨o, ho, hcm, congrArg ZMod.val hsame⟩
  have hleft := KeyedSums.leftover_add_matched (leafHashes_nodup hnull hrun hcells).2
    (spentCm_nodup hO hnull hrun hcells) hmatch
  omega

/-- Outside prover mode no note is spent twice, only notes committed under a recent root are
spent, and the notes that are left have the value that was minted and not burned. -/
theorem no_double_spend (O : HashOracle Fr) (hO : O.CollisionFree) (hnull : O.NoNullPreimage)
    (env : NodeEnv) (henv : env.poseidon = O.hash) (hsound : NodeSound O D env) (mode : Mode)
    (hmode : mode.isProver = false) (badBlocks : List ℕ) (blocks : List Block) (l : Ledger D)
    (hrun : CheckedRun O D env mode badBlocks blocks l) :
    (∃ cells, Witnessed O D (allTxns blocks) cells) ∧
      (∀ before block after, blocks = before ++ block :: after →
        ∀ txn ∈ block.content.state.txns, ∀ cells, Constrained O D (fieldInstances txn) cells →
          ∀ c ∈ spends cells,
            SpentUnderRecentRoot O D env mode badBlocks before block txn (spentCm c)) ∧
      ∀ cells, Witnessed O D (allTxns blocks) cells →
        (nonNull ((allTxns blocks).flatMap UtxoProof.leaves)).map Element.toBase =
          cells.flatMap leafHashes ∧
        ((cells.flatMap spends).map spentCm).Nodup ∧
        ((cells.flatMap spends).map UtxoInputCells.nullifier).Nodup ∧
        (((cells.flatMap creates).filter fun o =>
            decide (o.cm ∉ (cells.flatMap spends).map spentCm)).map fun o => o.value.val).sum +
          (cells.map burned).sum = (cells.map minted).sum := by
  refine ⟨?_, fun before block after hblocks txn htxn cells hcells c hc => ?_,
    fun cells hcells => ⟨witnessed_leaves hnull hcells (holdsLeaves hrun).sized,
      spentCm_nodup hO hnull hrun hcells, (leafHashes_nodup hnull hrun hcells).1,
      unspent_value hO hnull henv hmode hrun hcells⟩⟩
  · refine exists_witnessed _ fun txn htxn => ?_
    obtain ⟨block, hblock, hin⟩ := List.mem_flatMap.mp htxn
    obtain ⟨before, after, rfl⟩ := List.append_of_mem hblock
    obtain ⟨l₀, l₁, -, -, hcommits, hgood, -⟩ := run_step hrun
    obtain ⟨hpasses, -⟩ := (validate_ok mode block.content l₀.blockStore l₀.notesTree.tree).mp
      (hcommits.validated hgood)
    exact (BridgeCircuits.utxoAccepts_iff O D _).mp
      (hsound _ txn.proof (hpasses.txns txn hin).verified)
  · rw [hblocks] at hrun
    exact spent_under_recent_root hO hnull henv hmode hrun txn htxn hcells c hc

end Runs

section Witness

/-- A note of 5, its nullifier, and the two trees that they lead to. -/
def coinHash (m : List Fr) : Fr :=
  if m.length = 2 then
    if m = [0, 0] then 1 else if m = [4, 0] then 9 else 11
  else if m.length = 4 then if m[0]? = some 0 then 2 else 7
  else if m[0]? = some 5 then 4 else 3

def coinDecode (x : Fr) : List Fr :=
  if x = 1 then [0, 0] else if x = 9 then [4, 0] else if x = 11 then [4, 7]
  else if x = 2 then [0, 0, 0, 0] else if x = 7 then [4, 0, 0, 0]
  else if x = 4 then [5, 1, 0, 0, 0, 0] else [0, 1, 0, 0, 0, 0]

def coinMessages : HashOracle Fr := HashOracle.ofDecoder coinHash coinDecode

theorem mem_coinMessages (m : List Fr) (h : coinDecode (coinHash m) = m) :
    m ∈ coinMessages.messages := h

theorem coinMessages_nonNull : coinMessages.NoNullPreimage := by
  intro m _
  change coinHash m ≠ 0
  unfold coinHash
  split_ifs <;> decide

theorem padding_opens : Opens coinMessages paddingCells 0 :=
  ⟨mem_coinMessages _ (by decide), by decide, by decide⟩

theorem five_opens : Opens coinMessages fiveCells 0 :=
  ⟨mem_coinMessages _ (by decide), by decide, by decide⟩

theorem padding_constrained : ConstrainedOutput coinMessages paddingCells :=
  ⟨⟨0, padding_opens⟩, by decide⟩

theorem five_constrained : ConstrainedOutput coinMessages fiveCells :=
  ⟨⟨0, five_opens⟩, by decide⟩

def noNote : InputNoteConstraintCells where
  commitment := paddingCells
  nullifier := 2
  root := 1
  secretKey := 0
  zero := 0

def coinNote : InputNoteConstraintCells where
  commitment := fiveCells
  nullifier := 7
  root := 9
  secretKey := 0
  zero := 0

theorem noNote_spends : Spends coinMessages 2 noNote 0 [(false, 0)] :=
  ⟨padding_opens, rfl, ⟨mem_coinMessages _ (by decide), trivial⟩, by decide,
    mem_coinMessages _ (by decide), by decide,
    mem_coinMessages _ (by decide), by decide, rfl⟩

theorem coinNote_spends : Spends coinMessages 2 coinNote 0 [(false, 0)] :=
  ⟨five_opens, rfl, ⟨mem_coinMessages _ (by decide), trivial⟩, by decide,
    mem_coinMessages _ (by decide), by decide,
    mem_coinMessages _ (by decide), by decide, rfl⟩

theorem noInput_constrained (root : Fr) :
    ConstrainedInput coinMessages 2 root ⟨noNote, root, 0⟩ := by
  have hvalue : noNote.commitment.value = 0 := by decide
  exact ⟨⟨0, _, noNote_spends⟩, (if_pos hvalue).symm, (if_pos hvalue).symm⟩

theorem coinInput_constrained (root : Fr) :
    ConstrainedInput coinMessages 2 root ⟨coinNote, 9, 7⟩ := by
  have hvalue : coinNote.commitment.value ≠ 0 := by decide
  exact ⟨⟨0, _, coinNote_spends⟩, (if_neg hvalue).symm, (if_neg hvalue).symm⟩

def coinMint : UtxoCells where
  unverifiedRoot := 0
  utxoKind := 2
  inputs := [⟨noNote, 0, 0⟩, ⟨noNote, 0, 0⟩]
  outputs := [fiveCells, paddingCells]

def coinBurn : UtxoCells where
  unverifiedRoot := 9
  utxoKind := 3
  inputs := [⟨coinNote, 9, 7⟩, ⟨noNote, 9, 0⟩]
  outputs := [paddingCells, paddingCells]

theorem coinMint_constrained : Constrained coinMessages 2 [0, 4, 5, 0, 0, 4, 0] coinMint := by
  refine ⟨rfl, rfl, ?_, ?_, by decide, ?_, by decide, by decide, ?_⟩
  · simp only [coinMint, List.forall_mem_cons]
    exact ⟨noInput_constrained 0, noInput_constrained 0, by simp⟩
  · simp only [coinMint, List.forall_mem_cons]
    exact ⟨five_constrained, padding_constrained, by simp⟩
  · simp [coinMint]
  · simp only [coinMint, UtxoCells.nullifiers, UtxoCells.commitments]
    decide

theorem coinBurn_constrained : Constrained coinMessages 2 [9, 7, 5, 7, 0, 0, 0] coinBurn := by
  refine ⟨rfl, rfl, ?_, ?_, by decide, ?_, by decide, by decide, ?_⟩
  · simp only [coinBurn, List.forall_mem_cons]
    exact ⟨coinInput_constrained 9, noInput_constrained 9, by simp⟩
  · simp only [coinBurn, List.forall_mem_cons]
    exact ⟨padding_constrained, padding_constrained, by simp⟩
  · simp [coinBurn]
  · simp only [coinBurn, UtxoCells.nullifiers, UtxoCells.commitments]
    decide

/-- A node whose verifier accepts the mint and the burn. -/
def coinEnv : NodeEnv :=
  { trustingEnv with
    poseidon := coinHash
    verifyProof := fun inst _ => some (decide (inst = [0, 4, 5, 0, 0, 4, 0]) ||
      decide (inst = [9, 7, 5, 7, 0, 0, 0])) }

theorem coinEnv_sound : NodeSound coinMessages 2 coinEnv := by
  intro inst proof h
  have haccepted := Option.some.inj h
  rw [Bool.or_eq_true, decide_eq_true_eq, decide_eq_true_eq] at haccepted
  rcases haccepted with rfl | rfl
  · exact (BridgeCircuits.utxoAccepts_iff _ _ _).mpr ⟨coinMint, coinMint_constrained⟩
  · exact (BridgeCircuits.utxoAccepts_iff _ _ _).mpr ⟨coinBurn, coinBurn_constrained⟩

def coinBlock (height : ℕ) (rootHash : Element) (txn : UtxoProof) : Block :=
  ⟨⟨⟨height, 0#256, 0, 0#256, []⟩, ⟨rootHash, [txn]⟩⟩, Vector.replicate 65 0⟩

def burnTxn : UtxoProof := ⟨9#256, 7#256, 5#256, (7#256, 0#256), (0#256, 0#256), []⟩

theorem mint_verified : mintOfFive.verify coinEnv = some true := by
  have hfirst : decide (mintOfFive.instances.map Element.toBase = [0, 4, 5, 0, 0, 4, 0]) = true :=
    decide_eq_true mintOfFive_fields
  change some (_ || _) = some true
  rw [hfirst, Bool.true_or]

theorem burn_fields : burnTxn.instances.map Element.toBase = [9, 7, 5, 7, 0, 0, 0] := by
  decide

theorem burn_verified : burnTxn.verify coinEnv = some true := by
  have hsecond : decide (burnTxn.instances.map Element.toBase = [9, 7, 5, 7, 0, 0, 0]) = true :=
    decide_eq_true burn_fields
  change some (_ || _) = some true
  rw [hsecond, Bool.or_true]

theorem burn_sized : ∀ leaf ∈ burnTxn.leaves, leaf.toNat < modulus := by
  simp only [burnTxn, UtxoProof.leaves, List.forall_mem_cons]
  have hzero : (0#256).toNat < modulus := modulus_prime.pos
  have hseven : (7#256).toNat < modulus := by
    have hbig : 7 < modulus := by decide
    simpa using hbig
  exact ⟨hseven, hzero, hzero, hzero, by simp⟩

theorem coinBlock_leaves (height : ℕ) (rootHash : Element) (txn : UtxoProof) :
    (coinBlock height rootHash txn).content.state.leavesNonNull = nonNull txn.leaves := by
  simp [BlockState.leavesNonNull, BlockState.leaves, coinBlock]

/-- A block of one transaction is committed when the leaves have free slots. -/
theorem exists_coinBlock {env : NodeEnv} {mode : Mode} {l : Ledger D}
    (hvalid : l.notesTree.tree.Valid env.poseidon) (height : ℕ) (rootHash : Element)
    (txn : UtxoProof) (hlt : height < 2 ^ 64)
    (hrising : ∀ h stored, l.blockStore.get h = some stored → h < height)
    (hverified : txn.verify env = some true)
    (hrecent : txn.recentRoot = 0#256 ∨ txn.recentRoot ∈ recentRoots l.blockStore height ∨
      mode.isProver = true)
    (hsized : ∀ leaf ∈ txn.leaves, leaf.toNat < modulus)
    (hfree : hvalid.sparse.Free (nonNull txn.leaves))
    (hroot : root (elementNode env.poseidon) (D - 1)
      (hvalid.sparse.laid (nonNull txn.leaves)).leaf = rootHash) :
    ∃ l', CommitsBlock env mode [] (coinBlock height rootHash txn) l l' ∧
      ∃ h' : l'.notesTree.tree.Valid env.poseidon,
        h'.sparse = hvalid.sparse.laid (nonNull txn.leaves) := by
  have hleaves := coinBlock_leaves height rootHash txn
  have hnew : newLeaves l.notesTree.tree (coinBlock height rootHash txn).content.state
      (decide ((coinBlock height rootHash txn).height ∈ ([] : List ℕ))) = nonNull txn.leaves := by
    rw [newLeaves_of_not_bad _ _ _ _ List.not_mem_nil, hleaves]
  have hfree' : LeavesFree [] (coinBlock height rootHash txn) l hvalid := by
    unfold LeavesFree
    rw [hnew]
    exact hfree
  have hok : validate env (coinBlock height rootHash txn).content mode l.blockStore
      l.notesTree.tree = .ok () := by
    refine (validate_ok _ _ _ _).mpr ⟨⟨?_, fun t ht => ?_⟩, ?_⟩
    · rw [hleaves]
      exact hfree.distinct.imp fun hne heq => hne (congrArg _ heq)
    · obtain rfl := List.mem_singleton.mp ht
      refine ⟨hverified, hrecent, hsized, fun leaf hleaf hne => ?_⟩
      have hnone := not_contains_of_vacant hvalid _ hfree.vacant
      rw [List.any_eq_false] at hnone
      simpa using hnone leaf ((mem_nonNull _ _).mpr ⟨hleaf, hne⟩)
    · rw [hleaves, newRootHash_eq_some hvalid]
      exact ⟨hfree.not_crowded, hroot.symm⟩
  have hcommits := @exists_commitsBlock D env mode [] (coinBlock height rootHash txn) l hvalid hlt
    hrising (fun _ => hok) hfree'
  rwa [hnew] at hcommits

def mintedTree : SparseTree Element (bits 2) := (SparseTree.empty (bits 2)).laid [4#256]

def burntTree : SparseTree Element (bits 2) := mintedTree.laid [7#256]

theorem minted_root : root (elementNode coinEnv.poseidon) (2 - 1) mintedTree.leaf = 9#256 := by
  decide

theorem burnt_root : root (elementNode coinEnv.poseidon) (2 - 1) burntTree.leaf = 11#256 := by
  decide

theorem treeHashed_minted {l : Ledger 2} (hvalid : l.notesTree.tree.Valid coinEnv.poseidon)
    (hsparse : hvalid.sparse = mintedTree) : TreeHashed coinMessages l.notesTree.tree := by
  have hpair : [(mintedTree.leaf [false]).toBase, (mintedTree.leaf [true]).toBase] ∈
      coinMessages.messages := mem_coinMessages _ (by decide)
  rw [← hsparse] at hpair
  exact ⟨hpair, trivial, trivial⟩

theorem treeHashed_burnt {l : Ledger 2} (hvalid : l.notesTree.tree.Valid coinEnv.poseidon)
    (hsparse : hvalid.sparse = burntTree) : TreeHashed coinMessages l.notesTree.tree := by
  have hpair : [(burntTree.leaf [false]).toBase, (burntTree.leaf [true]).toBase] ∈
      coinMessages.messages := mem_coinMessages _ (by decide)
  rw [← hsparse] at hpair
  exact ⟨hpair, trivial, trivial⟩

theorem mint_checked : ∃ l : Ledger 2,
    CheckedRun coinMessages 2 coinEnv .node [] [coinBlock 1 9#256 mintOfFive] l ∧
      ∃ h : l.notesTree.tree.Valid coinEnv.poseidon, h.sparse = mintedTree := by
  have hvalid : (freshLedger 2).notesTree.tree.Valid coinEnv.poseidon := Tree.new_valid
  have hsparse : hvalid.sparse = SparseTree.empty (bits 2) := Tree.new_sparse hvalid
  have hleaves : nonNull mintOfFive.leaves = [4#256] := by decide
  have hfree : hvalid.sparse.Free (nonNull mintOfFive.leaves) := by
    rw [hleaves, hsparse]
    exact ⟨List.pairwise_singleton _ _, fun _ _ => rfl⟩
  have hlaid : hvalid.sparse.laid (nonNull mintOfFive.leaves) = mintedTree := by
    rw [hleaves, hsparse]
    rfl
  have hroot : root (elementNode coinEnv.poseidon) (2 - 1)
      (hvalid.sparse.laid (nonNull mintOfFive.leaves)).leaf = 9#256 := by
    rw [hlaid]
    exact minted_root
  obtain ⟨l, hcommits, hvalid', hsparse'⟩ := @exists_coinBlock 2 coinEnv .node (freshLedger 2)
    hvalid 1 9#256 mintOfFive (by norm_num) nofun mint_verified (Or.inl rfl) mintOfFive_sized hfree
    hroot
  rw [hlaid] at hsparse'
  exact ⟨l, .commit [] _ _ l .start hcommits
    ⟨List.not_mem_nil, treeHashed_minted hvalid' hsparse'⟩, hvalid', hsparse'⟩

/-- The note of 5 is minted and then burned. -/
theorem burn_checked : ∃ l : Ledger 2,
    CheckedRun coinMessages 2 coinEnv .node []
      [coinBlock 1 9#256 mintOfFive, coinBlock 2 11#256 burnTxn] l := by
  obtain ⟨l₁, hrun, hvalid, hsparse⟩ := mint_checked
  have hleaves : nonNull burnTxn.leaves = [7#256] := by decide
  have hfree : hvalid.sparse.Free (nonNull burnTxn.leaves) := by
    rw [hleaves, hsparse]
    refine ⟨List.pairwise_singleton _ _, fun x hx => ?_⟩
    obtain rfl := List.mem_singleton.mp hx
    decide
  have hlaid : hvalid.sparse.laid (nonNull burnTxn.leaves) = burntTree := by
    rw [hleaves, hsparse]
    rfl
  have hroot : root (elementNode coinEnv.poseidon) (2 - 1)
      (hvalid.sparse.laid (nonNull burnTxn.leaves)).leaf = 11#256 := by
    rw [hlaid]
    exact burnt_root
  have hrecent : burnTxn.recentRoot ∈ recentRoots l₁.blockStore 2 := by
    refine List.mem_map.mpr ⟨coinBlock 1 9#256 mintOfFive, ?_, rfl⟩
    exact (BlockStore.mem_list _ _ _ _).mpr
      ⟨1, by decide, by decide, (hrun.stored 1 _).mpr ⟨List.mem_singleton.mpr rfl, rfl⟩⟩
  have hrising : ∀ h stored, l₁.blockStore.get h = some stored → h < 2 := by
    intro h stored hget
    obtain ⟨hmem, rfl⟩ := (hrun.stored h stored).mp hget
    obtain rfl := List.mem_singleton.mp hmem
    exact Nat.lt_succ_self 1
  obtain ⟨l₂, hcommits, hvalid', hsparse'⟩ := @exists_coinBlock 2 coinEnv .node l₁ hvalid 2 11#256
    burnTxn (by norm_num) hrising burn_verified (Or.inr (Or.inl hrecent)) burn_sized hfree hroot
  rw [hlaid] at hsparse'
  exact ⟨l₂, .commit _ l₁ _ l₂ hrun hcommits
    ⟨List.not_mem_nil, treeHashed_burnt hvalid' hsparse'⟩⟩

theorem coinInput_spent : (⟨coinNote, 9, 7⟩ : UtxoInputCells) ∈ spends coinBurn := by
  refine List.mem_filter.mpr ⟨List.mem_cons_self, decide_eq_true ?_⟩
  decide

theorem coin_sums : ([coinMint, coinBurn].map minted).sum = 5 ∧
    ([coinMint, coinBurn].map burned).sum = 5 := by
  decide

/-- The burn spends a note of a recent tree, and what was minted is burned. -/
theorem no_double_spend_coin :
    (∃ l : Ledger 2, CheckedRun coinMessages 2 coinEnv .node []
      [coinBlock 1 9#256 mintOfFive, coinBlock 2 11#256 burnTxn] l) ∧
    SpentUnderRecentRoot coinMessages 2 coinEnv .node [] [coinBlock 1 9#256 mintOfFive]
      (coinBlock 2 11#256 burnTxn) burnTxn (spentCm ⟨coinNote, 9, 7⟩) ∧
    ([coinMint, coinBurn].map minted).sum = 5 ∧ ([coinMint, coinBurn].map burned).sum = 5 := by
  obtain ⟨l, hrun⟩ := burn_checked
  have hall := no_double_spend coinMessages (HashOracle.ofDecoder_collisionFree coinHash coinDecode)
    coinMessages_nonNull coinEnv rfl coinEnv_sound .node rfl []
    [coinBlock 1 9#256 mintOfFive, coinBlock 2 11#256 burnTxn] l hrun
  obtain ⟨-, hspent, -⟩ := hall
  refine ⟨⟨l, hrun⟩, ?_, coin_sums⟩
  exact hspent [coinBlock 1 9#256 mintOfFive] (coinBlock 2 11#256 burnTxn) [] rfl burnTxn
    (List.mem_singleton.mpr rfl) coinBurn coinBurn_constrained ⟨coinNote, 9, 7⟩ coinInput_spent

end Witness

section Uncommitted

/-- Five ranges of field elements, each wide enough for the hashes along a path. -/
def wide (i k : ℕ) : Fr := ((i * 2 ^ 200 + k : ℕ) : Fr)

/-- A pair hashes to the successor of its left element. -/
def chainHash : List Fr → Fr
  | [x, _] => x + 1
  | [cm, _, _, _] => if cm = 0 then wide 5 0 else wide 1 0
  | value :: _ => if value = 0 then wide 3 0 else wide 2 0
  | [] => 1

def chainDecode (y : Fr) : List Fr :=
  if y.val % 2 ^ 200 = 0 then
    if y = wide 1 0 then [wide 2 0, 0, 0, 0]
    else if y = wide 5 0 then [0, 0, 0, 0]
    else if y = wide 2 0 then [5, 1, 0, 0, 0, 0]
    else if y = wide 3 0 then [0, 1, 0, 0, 0, 0]
    else []
  else [y - 1, (((y.val - 1) % 2 ^ 200 : ℕ) : Fr)]

def chainMessages : HashOracle Fr := HashOracle.ofDecoder chainHash chainDecode

theorem mem_chainMessages (m : List Fr) (h : chainDecode (chainHash m) = m) :
    m ∈ chainMessages.messages := h

theorem wide_val (i k : ℕ) (hi : i ≤ 5) (hk : k ≤ 160) : (wide i k).val = i * 2 ^ 200 + k := by
  rw [wide, ZMod.val_natCast, Nat.mod_eq_of_lt]
  have hbig : 6 * 2 ^ 200 < modulus := by decide
  omega

theorem wide_succ (i k : ℕ) : wide i k + 1 = wide i (k + 1) := by
  unfold wide
  push_cast
  ring

theorem chainMessages_nonNull : chainMessages.NoNullPreimage := by
  intro m hm hzero
  have hdecoded : chainDecode (chainHash m) = m := hm
  have hnil : chainDecode 0 = [] := by decide
  rw [show chainHash m = 0 from hzero, hnil] at hdecoded
  subst hdecoded
  exact absurd hzero (by decide)

/-- The pairs on the way up from a left-most leaf are hashed. -/
theorem pair_hashed (i k : ℕ) (hi : i ≤ 5) (hk : k < 160) :
    [wide i k, (k : Fr)] ∈ chainMessages.messages := by
  apply mem_chainMessages
  have hval := wide_val i (k + 1) hi hk
  have hmod : (i * 2 ^ 200 + (k + 1)) % 2 ^ 200 = k + 1 := by omega
  have hless : (i * 2 ^ 200 + (k + 1) - 1) % 2 ^ 200 = k := by omega
  have hback : wide i (k + 1) - 1 = wide i k := by
    rw [← wide_succ]
    ring
  change chainDecode (wide i k + 1) = _
  rw [wide_succ, chainDecode, hval, hmod, if_neg (by omega), hless, hback]

/-- A path whose siblings are empty trees. -/
def emptyPath (k m : ℕ) : List (Bool × Fr) := (List.range' k m).map fun j => (false, (j : Fr))

theorem emptyPath_climbs (i : ℕ) (hi : i ≤ 5) (m k : ℕ) (hk : k + m ≤ 160) :
    PathHashedUp (pairHash chainMessages) (wide i k) (emptyPath k m) ∧
      climbUp (pairHash chainMessages).node (wide i k) (emptyPath k m) = wide i (k + m) := by
  induction m generalizing k with
  | zero => exact ⟨trivial, rfl⟩
  | succ m ih =>
    have hnode : chainMessages.hash [wide i k, (k : Fr)] = wide i (k + 1) := wide_succ i k
    obtain ⟨hhashed, hclimb⟩ := ih (k + 1) (by omega)
    have hpath : emptyPath k (m + 1) = (false, (k : Fr)) :: emptyPath (k + 1) m := by
      simp [emptyPath, List.range'_succ]
    rw [hpath]
    refine ⟨⟨pair_hashed i k hi (by omega), ?_⟩, ?_⟩
    · change PathHashedUp _ (chainMessages.hash [wide i k, (k : Fr)]) _
      rw [hnode]
      exact hhashed
    · change climbUp _ (chainMessages.hash [wide i k, (k : Fr)]) _ = _
      rw [hnode, hclimb, Nat.add_right_comm, Nat.add_assoc]

/-- The leaves of a tree whose only leaf may be the left-most. -/
def leftLeaf (n : ℕ) (x : Fr) (p : List Bool) : Fr := if List.replicate n false = p then x else 0

theorem child_leftLeaf (n : ℕ) (x : Fr) :
    child (leftLeaf (n + 1) x) false = leftLeaf n x ∧
      child (leftLeaf (n + 1) x) true = leftLeaf n 0 := by
  constructor
  · funext p
    simp [child, leftLeaf, List.replicate_succ]
  · funext p
    simp [child, leftLeaf, List.replicate_succ]

theorem leftLeaf_root (n : ℕ) (hn : n ≤ 160) (i : ℕ) (hi : i ≤ 5) :
    root (pairHash chainMessages).node n (leftLeaf n (wide i 0)) = wide i n ∧
      RootHashed (pairHash chainMessages) n (leftLeaf n (wide i 0)) := by
  induction n generalizing i with
  | zero =>
    refine ⟨?_, trivial⟩
    rw [root, leftLeaf, List.replicate_zero, if_pos rfl]
  | succ n ih =>
    obtain ⟨hleft, hright⟩ := child_leftLeaf n (wide i 0)
    obtain ⟨hroot, hhashed⟩ := ih (by omega) i hi
    obtain ⟨hempty, hempties⟩ := ih (by omega) 0 (by omega)
    have hzero : wide 0 0 = 0 := by simp [wide]
    have hsize : wide 0 n = n := by simp [wide]
    rw [hzero] at hempty hempties
    rw [root, RootHashed, hleft, hright, hroot, hempty, hsize]
    exact ⟨wide_succ i n, pair_hashed i n hi (by omega), hhashed, hempties⟩

/-- A note of 5 that no transaction created. -/
def unmintedNote : InputNoteConstraintCells where
  commitment := { value := 5, address := 1, cm := wide 2 0, isPadding := 0, source := 0, psi := 0 }
  nullifier := wide 1 0
  root := wide 2 160
  secretKey := 0
  zero := 0

def emptyNote : InputNoteConstraintCells where
  commitment := paddingCells
  nullifier := wide 5 0
  root := wide 0 160
  secretKey := 0
  zero := 0

def unmintedInput : UtxoInputCells := ⟨unmintedNote, wide 2 160, wide 1 0⟩

def unmintedBurn : UtxoCells where
  unverifiedRoot := wide 2 160
  utxoKind := 3
  inputs := [unmintedInput, ⟨emptyNote, wide 2 160, 0⟩]
  outputs := [paddingCells, paddingCells]

theorem emptyNote_opens : Opens chainMessages paddingCells 0 :=
  ⟨mem_chainMessages _ (by decide), by decide, by decide⟩

theorem unmintedNote_opens : Opens chainMessages unmintedNote.commitment 0 :=
  ⟨mem_chainMessages _ (by decide), by decide, by decide⟩

theorem unmintedNote_spends : Spends chainMessages 161 unmintedNote 0 (emptyPath 0 160) := by
  obtain ⟨hhashed, hclimb⟩ := emptyPath_climbs 2 (by omega) 160 0 (by omega)
  exact ⟨unmintedNote_opens, by simp [emptyPath], hhashed, hclimb.symm,
    mem_chainMessages _ (by decide), by decide,
    mem_chainMessages _ (by decide), by decide, rfl⟩

theorem emptyNote_spends : Spends chainMessages 161 emptyNote 0 (emptyPath 0 160) := by
  obtain ⟨hhashed, hclimb⟩ := emptyPath_climbs 0 (by omega) 160 0 (by omega)
  have hzero : wide 0 0 = emptyNote.commitment.cm := by decide
  rw [hzero] at hhashed hclimb
  exact ⟨emptyNote_opens, by simp [emptyPath], hhashed, hclimb.symm,
    mem_chainMessages _ (by decide), by decide,
    mem_chainMessages _ (by decide), by decide, rfl⟩

theorem unmintedInput_constrained (root : Fr) :
    ConstrainedInput chainMessages 161 root unmintedInput := by
  have hvalue : unmintedNote.commitment.value ≠ 0 := by decide
  exact ⟨⟨0, _, unmintedNote_spends⟩, (if_neg hvalue).symm, (if_neg hvalue).symm⟩

theorem emptyInput_constrained (root : Fr) :
    ConstrainedInput chainMessages 161 root ⟨emptyNote, root, 0⟩ := by
  have hvalue : emptyNote.commitment.value = 0 := by decide
  exact ⟨⟨0, _, emptyNote_spends⟩, (if_pos hvalue).symm, (if_pos hvalue).symm⟩

theorem unmintedBurn_constrained :
    Constrained chainMessages 161 [wide 2 160, wide 1 0, 5, wide 1 0, 0, 0, 0] unmintedBurn := by
  have hpadding : ConstrainedOutput chainMessages paddingCells := by
    refine ⟨⟨0, emptyNote_opens⟩, ?_⟩
    decide
  refine ⟨rfl, rfl, ?_, ?_, by decide, ?_, by decide, by decide, ?_⟩
  · simp only [unmintedBurn, List.forall_mem_cons]
    exact ⟨unmintedInput_constrained _, emptyInput_constrained _, by simp⟩
  · simp only [unmintedBurn, List.forall_mem_cons]
    exact ⟨hpadding, hpadding, by simp⟩
  · simp [unmintedBurn, unmintedInput]
  · simp only [unmintedBurn, UtxoCells.nullifiers, UtxoCells.commitments]
    decide

/-- A node whose verifier accepts the burn. -/
def chainEnv : NodeEnv :=
  { trustingEnv with
    poseidon := chainHash
    verifyProof := fun inst _ =>
      some (decide (inst = [wide 2 160, wide 1 0, 5, wide 1 0, 0, 0, 0])) }

theorem chainEnv_sound : NodeSound chainMessages 161 chainEnv := by
  intro inst proof h
  obtain rfl := of_decide_eq_true (Option.some.inj h)
  exact (BridgeCircuits.utxoAccepts_iff _ _ _).mpr ⟨unmintedBurn, unmintedBurn_constrained⟩

/-- The nullifier of the note that no transaction created. -/
def unmintedLeaf : Element := Element.fromBase (wide 1 0)

def unmintedTxn : UtxoProof :=
  ⟨Element.fromBase (wide 2 160), unmintedLeaf, 5#256, (unmintedLeaf, 0#256), (0#256, 0#256), []⟩

theorem unminted_fields :
    unmintedTxn.instances.map Element.toBase = [wide 2 160, wide 1 0, 5, wide 1 0, 0, 0, 0] := by
  decide

theorem unminted_verified : unmintedTxn.verify chainEnv = some true :=
  congrArg some (decide_eq_true unminted_fields)

theorem unminted_sized : ∀ leaf ∈ unmintedTxn.leaves, leaf.toNat < modulus := by
  have hzero : (0#256).toNat < modulus := modulus_prime.pos
  have hleaf : unmintedLeaf.toNat < modulus := by
    rw [unmintedLeaf, Element.fromBase_toNat]
    exact ZMod.val_lt _
  simp only [unmintedTxn, UtxoProof.leaves, List.forall_mem_cons]
  exact ⟨hleaf, hzero, hzero, hzero, by simp⟩

def unmintedTree : SparseTree Element (bits 161) :=
  (SparseTree.empty (bits 161)).laid [unmintedLeaf]

theorem unmintedTree_leaf :
    (fun p => (unmintedTree.leaf p).toBase) = leftLeaf 160 (wide 1 0) := by
  have hslot : bits 161 unmintedLeaf = List.replicate 160 false := by decide +kernel
  funext p
  change ((if (0 : Element) = 0 then resident (bits 161) [unmintedLeaf] p else 0)).toBase = _
  rw [if_pos rfl, resident, leftLeaf]
  by_cases hp : List.replicate 160 false = p
  · rw [if_pos hp, List.find?_cons_of_pos (by simpa [hslot] using hp)]
    exact Element.toBase_fromBase _
  · rw [if_neg hp, List.find?_cons_of_neg (by simpa [hslot] using hp)]
    exact Element.toBase_zero

theorem unminted_root : root (elementNode chainEnv.poseidon) (161 - 1) unmintedTree.leaf =
    Element.fromBase (wide 1 160) := by
  have hsized : ∀ n σ, (root (elementNode chainHash) (n + 1) σ).toNat < modulus :=
    fun n σ => hashMerge_toNat_lt chainHash _
  have hfield : (root (elementNode chainHash) 160 unmintedTree.leaf).toBase = wide 1 160 := by
    rw [root_elementNode_toBase, unmintedTree_leaf]
    exact (leftLeaf_root 160 le_rfl 1 (by omega)).1
  rw [← hfield]
  exact (Element.fromBase_toBase _ (hsized 159 unmintedTree.leaf)).symm

theorem unminted_checked : ∃ l : Ledger 161, CheckedRun chainMessages 161 chainEnv .prover []
    [coinBlock 1 (Element.fromBase (wide 1 160)) unmintedTxn] l := by
  have hvalid : (freshLedger 161).notesTree.tree.Valid chainEnv.poseidon := Tree.new_valid
  have hsparse : hvalid.sparse = SparseTree.empty (bits 161) := Tree.new_sparse hvalid
  have hleaves : nonNull unmintedTxn.leaves = [unmintedLeaf] := by decide
  have hfree : hvalid.sparse.Free (nonNull unmintedTxn.leaves) := by
    rw [hleaves, hsparse]
    exact ⟨List.pairwise_singleton _ _, fun _ _ => rfl⟩
  have hlaid : hvalid.sparse.laid (nonNull unmintedTxn.leaves) = unmintedTree := by
    rw [hleaves, hsparse]
    rfl
  have hroot : root (elementNode chainEnv.poseidon) (161 - 1)
      (hvalid.sparse.laid (nonNull unmintedTxn.leaves)).leaf = Element.fromBase (wide 1 160) := by
    rw [hlaid]
    exact unminted_root
  obtain ⟨l, hcommits, hvalid', hsparse'⟩ := @exists_coinBlock 161 chainEnv .prover
    (freshLedger 161) hvalid 1 _ unmintedTxn (by norm_num) nofun unminted_verified
    (Or.inr (Or.inr rfl)) unminted_sized hfree hroot
  refine ⟨l, .commit [] _ _ l .start hcommits ⟨List.not_mem_nil, ?_⟩⟩
  have hleaf : (fun p => (l.notesTree.tree.tree.leafAt p).toBase) = leftLeaf 160 (wide 1 0) := by
    rw [← unmintedTree_leaf, ← hlaid, ← hsparse']
    rfl
  have hhashed := (leftLeaf_root 160 le_rfl 1 (by omega)).2
  rw [← hleaf] at hhashed
  exact hhashed

/-- A prover does not check the recent root, and accepts a burn of a note that is in no tree. -/
theorem not_spent_under_recent_root_prover :
    chainMessages.CollisionFree ∧ chainMessages.NoNullPreimage ∧
      chainEnv.poseidon = chainMessages.hash ∧ NodeSound chainMessages 161 chainEnv ∧
      (∃ l : Ledger 161, CheckedRun chainMessages 161 chainEnv .prover []
        [coinBlock 1 (Element.fromBase (wide 1 160)) unmintedTxn] l) ∧
      Constrained chainMessages 161 (fieldInstances unmintedTxn) unmintedBurn ∧
      unmintedInput ∈ spends unmintedBurn ∧
      ¬SpentUnderRecentRoot chainMessages 161 chainEnv .prover [] []
        (coinBlock 1 (Element.fromBase (wide 1 160)) unmintedTxn) unmintedTxn
        (spentCm unmintedInput) ∧
      minted unmintedBurn = 0 ∧ burned unmintedBurn = 5 := by
  refine ⟨HashOracle.ofDecoder_collisionFree _ _, chainMessages_nonNull, rfl, chainEnv_sound,
    unminted_checked, ?_, ?_, ?_, ?_⟩
  · have hfields : fieldInstances unmintedTxn = _ := unminted_fields
    rw [hfields]
    exact unmintedBurn_constrained
  · refine List.mem_filter.mpr ⟨List.mem_cons_self, decide_eq_true ?_⟩
    decide
  · rintro ⟨l, l', earlier, recent, later, -, -, hsplit, -⟩
    cases earlier <;> cases hsplit
  · decide

end Uncommitted

end PayyRollup.SpentNotes
