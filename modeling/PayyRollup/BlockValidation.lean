import PayyRollup.NodeBlocks

/-!
The checks a node makes on a transaction and on a block, before a block is committed. Each
check is read as what it accepts and when it panics. A block passes when its transactions
pass, its non-zero leaves differ, and its root is that of the tree with the leaves laid over
it; the overlay panics where two leaves share an empty slot.
-/
namespace PayyRollup.BlockValidation

open ScalarField SparseMerkle ElementHash SmirkNode SmirkTree NodeBlocks

def recentRootCount : ℕ := 64

variable {D : ℕ}

section Checks

variable (env : NodeEnv)

/-- The roots of the blocks stored up to a height. -/
def recentRoots (store : BlockStore) (height : ℕ) : List Element :=
  (store.list (nextHeight height - recentRootCount) (nextHeight height)).map Block.rootHash

/-- The leaves of one side of a transaction: sized, and not in the tree. -/
def checkLeaves (inTree : Element → Error) (tree : Tree D) : List Element → Except Error Unit
  | [] => .ok ()
  | leaf :: rest =>
      if modulus ≤ leaf.toNat then .error (.invalidElementSize leaf)
      else if leaf ≠ 0#256 ∧ tree.containsElement leaf = true then .error (inTree leaf)
      else checkLeaves inTree tree rest

def validateTxn (mode : Mode) (utxo : UtxoProof) (height : ℕ) (store : BlockStore)
    (tree : Tree D) : Outcome Error Unit :=
  match utxo.verify env with
  | none => .error .panic
  | some false => .error (.err .invalidProof)
  | some true =>
      if utxo.recentRoot ≠ 0#256 ∧ utxo.recentRoot ∉ recentRoots store height ∧
          mode.isProver = false then
        .error (.err (.utxoRootIsNotRecentEnough utxo.recentRoot (recentRoots store height)
          (utxo.hash env)))
      else
        (do
          checkLeaves (fun leaf => .noteAlreadySpent leaf (utxo.hash env)) tree
            [utxo.inputLeaves.1, utxo.inputLeaves.2]
          checkLeaves .outputNoteExists tree
            [utxo.outputLeaves.1, utxo.outputLeaves.2]).mapError Failure.err

/-- The leaves of a block so far, each with the transaction it is in. -/
abbrev TxnLeaves := List (Element × CryptoHash)

def insertLeaves (txnHash : CryptoHash) : List Element → TxnLeaves → Except Error TxnLeaves
  | [], known => .ok known
  | leaf :: rest, known =>
      if leaf = 0#256 then insertLeaves txnHash rest known
      else
        match known.lookup leaf with
        | some existing => .error (.leafAlreadyInsertedInTheSameBlock leaf existing txnHash)
        | none => insertLeaves txnHash rest (known ++ [(leaf, txnHash)])

def validateTxns (mode : Mode) (height : ℕ) (store : BlockStore) (tree : Tree D) :
    List UtxoProof → TxnLeaves → Outcome Error TxnLeaves
  | [], known => .ok known
  | txn :: rest, known => do
      let leaves ← (insertLeaves (txn.hash env) txn.leaves known).mapError Failure.err
      validateTxn env mode txn height store tree
      validateTxns mode height store tree rest leaves

/-- The root after inserting the leaves; without leaves the root does not change. -/
def newRootHash (tree : Tree D) (leaves : List Element) : Option Element :=
  if leaves.isEmpty then some (tree.rootHash env.poseidon)
  else tree.rootHashWith env.poseidon leaves

def validate (self : BlockContent) (mode : Mode) (store : BlockStore) (tree : Tree D) :
    Outcome Error Unit := do
  let txnLeaves ← validateTxns env mode self.header.height store tree self.state.txns []
  match newRootHash env tree (txnLeaves.map Prod.fst) with
  | none => .error .panic
  | some root =>
      if root ≠ self.state.rootHash then
        .error (.err (.invalidBlockRoot root self.state.rootHash))
      else .ok ()

end Checks

/-- What `validateTxn` accepts. -/
structure ValidTxn (env : NodeEnv) (mode : Mode) (utxo : UtxoProof) (height : ℕ)
    (store : BlockStore) (tree : Tree D) : Prop where
  verified : utxo.verify env = some true
  recent : utxo.recentRoot = 0#256 ∨ utxo.recentRoot ∈ recentRoots store height ∨
    mode.isProver = true
  sized : ∀ leaf ∈ utxo.leaves, leaf.toNat < modulus
  fresh : ∀ leaf ∈ utxo.leaves, leaf ≠ 0#256 → tree.containsElement leaf = false

section Laws

variable {env : NodeEnv}

theorem checkLeaves_ok (inTree : Element → Error) (tree : Tree D) (leaves : List Element) :
    checkLeaves inTree tree leaves = .ok () ↔
      ∀ leaf ∈ leaves, leaf.toNat < modulus ∧
        (leaf ≠ 0#256 → tree.containsElement leaf = false) := by
  induction leaves with
  | nil => simp [checkLeaves]
  | cons leaf rest ih =>
    rw [checkLeaves, List.forall_mem_cons, ← ih]
    by_cases hsize : modulus ≤ leaf.toNat
    · simp [hsize]
    · have hlt : leaf.toNat < modulus := Nat.lt_of_not_le hsize
      by_cases hin : leaf ≠ 0#256 ∧ tree.containsElement leaf = true
      · simp [hsize, hlt, hin]
      · rw [if_neg hsize, if_neg hin]
        simp only [ne_eq, not_and, Bool.not_eq_true] at hin
        simp only [hlt, true_and, ne_eq]
        exact ⟨fun h => ⟨hin, h⟩, fun h => h.2⟩

theorem mapError_ok {ε ε' α : Type} (f : ε → ε') (x : Except ε α) (a : α) :
    x.mapError f = .ok a ↔ x = .ok a := by
  cases x with
  | error e => simp [Except.mapError]
  | ok b => simp [Except.mapError]

/-- The leaves of a transaction, side by side. -/
theorem forall_leaves (utxo : UtxoProof) (P : Element → Prop) :
    (∀ leaf ∈ utxo.leaves, P leaf) ↔
      (∀ leaf ∈ [utxo.inputLeaves.1, utxo.inputLeaves.2], P leaf) ∧
        ∀ leaf ∈ [utxo.outputLeaves.1, utxo.outputLeaves.2], P leaf := by
  rw [← List.forall_mem_append]
  rfl

theorem validateTxn_ok (mode : Mode) (utxo : UtxoProof) (height : ℕ) (store : BlockStore)
    (tree : Tree D) :
    validateTxn env mode utxo height store tree = .ok () ↔
      ValidTxn env mode utxo height store tree := by
  unfold validateTxn
  split
  · rename_i hverify
    exact iff_of_false (by simp) fun h => by simp [h.verified] at hverify
  · rename_i hverify
    exact iff_of_false (by simp) fun h => by simp [h.verified] at hverify
  · rename_i hverify
    split
    · rename_i hold
      refine iff_of_false (by simp) fun h => ?_
      rcases h.recent with hzero | hrecent | hprover
      · exact hold.1 hzero
      · exact hold.2.1 hrecent
      · simp [hprover] at hold
    · rename_i hrecent
      have hrecent' : utxo.recentRoot = 0#256 ∨ utxo.recentRoot ∈ recentRoots store height ∨
          mode.isProver = true := by
        by_contra hnone
        simp only [not_or, Bool.not_eq_true] at hnone
        exact hrecent hnone
      have hboth : ∀ x y : Except Error Unit,
          (do x; y : Except Error Unit) = .ok () ↔ x = .ok () ∧ y = .ok () := by
        intro x y
        cases x with
        | error e => simp [bind, Except.bind]
        | ok u => simp [bind, Except.bind]
      rw [mapError_ok, hboth, checkLeaves_ok, checkLeaves_ok, ← forall_leaves]
      constructor
      · intro h
        exact ⟨hverify, hrecent', fun leaf hleaf => (h leaf hleaf).1,
          fun leaf hleaf => (h leaf hleaf).2⟩
      · intro h leaf hleaf
        exact ⟨h.sized leaf hleaf, h.fresh leaf hleaf⟩

/-- The check of a transaction panics exactly when its proof cannot be read. -/
theorem validateTxn_panic (mode : Mode) (utxo : UtxoProof) (height : ℕ) (store : BlockStore)
    (tree : Tree D) :
    validateTxn env mode utxo height store tree = .error .panic ↔ utxo.verify env = none := by
  unfold validateTxn
  split
  · rename_i hverify
    simp [hverify]
  · rename_i hverify
    simp [hverify]
  · rename_i hverify
    simp only [hverify, reduceCtorEq, iff_false]
    split
    · simp
    · generalize (do
        checkLeaves (fun leaf => Error.noteAlreadySpent leaf (utxo.hash env)) tree
          [utxo.inputLeaves.1, utxo.inputLeaves.2]
        checkLeaves Error.outputNoteExists tree
          [utxo.outputLeaves.1, utxo.outputLeaves.2] : Except Error Unit) = x
      cases x with
      | error e => simp [Except.mapError]
      | ok u => simp [Except.mapError]

theorem lookup_eq_none (known : TxnLeaves) (leaf : Element) :
    known.lookup leaf = none ↔ leaf ∉ known.map Prod.fst := by
  rw [List.lookup_eq_none_iff]
  simp only [bne_iff_ne, ne_eq, List.mem_map, not_exists, not_and]
  exact forall₂_congr fun p _ => ⟨fun h h' => h h'.symm, fun h h' => h h'.symm⟩

theorem insertLeaves_ok (txnHash : CryptoHash) (leaves : List Element) (known known' : TxnLeaves)
    (hknown : (known.map Prod.fst).Nodup) :
    insertLeaves txnHash leaves known = .ok known' ↔
      (known.map Prod.fst ++ nonNull leaves).Nodup ∧
        known' = known ++ (nonNull leaves).map fun leaf => (leaf, txnHash) := by
  induction leaves generalizing known with
  | nil =>
    simp only [insertLeaves, Except.ok.injEq, nonNull, List.filter_nil, List.append_nil, hknown,
      true_and, List.map_nil]
    exact eq_comm
  | cons leaf rest ih =>
    rw [insertLeaves, nonNull_cons]
    by_cases hzero : leaf = 0#256
    · rw [if_pos hzero, if_pos hzero, ih known hknown]
    · rw [if_neg hzero, if_neg hzero]
      cases hlookup : known.lookup leaf with
      | some existing =>
        refine iff_of_false (by simp) ?_
        rintro ⟨hnodup, -⟩
        have hnot : leaf ∉ known.map Prod.fst := fun hmem =>
          (List.nodup_append.mp hnodup).2.2 leaf hmem leaf (List.mem_cons_self ..) rfl
        rw [(lookup_eq_none known leaf).mpr hnot] at hlookup
        cases hlookup
      | none =>
        have hnot := (lookup_eq_none known leaf).mp hlookup
        have hnext : ((known ++ [(leaf, txnHash)]).map Prod.fst).Nodup := by
          rw [List.map_append, List.map_singleton]
          exact List.nodup_append.mpr ⟨hknown, List.nodup_singleton _, by
            intro a ha b hb hab
            have heq : a = leaf := hab.trans (List.mem_singleton.mp hb)
            exact hnot (heq ▸ ha)⟩
        dsimp only
        rw [ih _ hnext, List.map_append, List.map_singleton, List.append_assoc,
          List.append_assoc]
        rfl

/-- Adding the leaves of a transaction never panics. -/
theorem insertLeaves_no_panic (txnHash : CryptoHash) (leaves : List Element) (known : TxnLeaves) :
    (insertLeaves txnHash leaves known).mapError Failure.err ≠ .error .panic := by
  cases insertLeaves txnHash leaves known with
  | error e => simp [Except.mapError]
  | ok known' => simp [Except.mapError]

variable (mode : Mode) (height : ℕ) (store : BlockStore) (tree : Tree D)

theorem map_fst_insertLeaves (txnHash : CryptoHash) (leaves : List Element) (known : TxnLeaves) :
    (known ++ (nonNull leaves).map fun leaf => (leaf, txnHash)).map Prod.fst =
      known.map Prod.fst ++ nonNull leaves := by
  rw [List.map_append, List.map_map]
  congr 1
  exact List.map_id _

/-- Leaves that cannot be added are not distinct, whatever follows them. -/
theorem insertLeaves_failed (txnHash : CryptoHash) (leaves : List Element) (known : TxnLeaves)
    (hknown : (known.map Prod.fst).Nodup) (e : Failure Error)
    (h : (insertLeaves txnHash leaves known).mapError Failure.err = .error e)
    (more : List Element) : ¬(known.map Prod.fst ++ nonNull leaves ++ more).Nodup := by
  intro hnodup
  have hok := (insertLeaves_ok txnHash leaves known _ hknown).mpr
    ⟨(List.nodup_append.mp hnodup).1, rfl⟩
  rw [hok] at h
  cases h

/-- The loop over the transactions succeeds when each passes and no leaf is seen twice. -/
theorem validateTxns_ok (txns : List UtxoProof) (known : TxnLeaves)
    (hknown : (known.map Prod.fst).Nodup) (keys : List Element) :
    (∃ leaves, validateTxns env mode height store tree txns known = .ok leaves ∧
        leaves.map Prod.fst = keys) ↔
      keys = known.map Prod.fst ++ nonNull (txns.flatMap UtxoProof.leaves) ∧ keys.Nodup ∧
        ∀ txn ∈ txns, ValidTxn env mode txn height store tree := by
  induction txns generalizing known with
  | nil =>
    simp only [validateTxns, Except.ok.injEq, exists_eq_left', List.flatMap_nil, nonNull,
      List.filter_nil, List.append_nil, List.not_mem_nil, false_imp_iff, implies_true, and_true]
    constructor
    · rintro rfl
      exact ⟨rfl, hknown⟩
    · rintro ⟨rfl, -⟩
      rfl
  | cons txn rest ih =>
    rw [validateTxns, List.flatMap_cons, nonNull_append, List.forall_mem_cons, ← List.append_assoc]
    cases hinsert : (insertLeaves (txn.hash env) txn.leaves known).mapError Failure.err with
    | error e =>
      refine iff_of_false (by simp [bind, Except.bind]) ?_
      rintro ⟨rfl, hnodup, -⟩
      exact insertLeaves_failed _ _ known hknown e hinsert _ hnodup
    | ok leaves =>
      obtain ⟨hnodup, rfl⟩ := (insertLeaves_ok _ _ known _ hknown).mp
        ((mapError_ok Failure.err _ leaves).mp hinsert)
      cases htxn : validateTxn env mode txn height store tree with
      | error e =>
        refine iff_of_false (by simp [bind, Except.bind]) ?_
        rintro ⟨-, -, hvalid, -⟩
        rw [(validateTxn_ok mode txn height store tree).mpr hvalid] at htxn
        cases htxn
      | ok u =>
        have hvalid := (validateTxn_ok mode txn height store tree).mp htxn
        have hfst := map_fst_insertLeaves (txn.hash env) txn.leaves known
        simp only [bind, Except.bind, hvalid, true_and]
        rw [ih _ (by rw [hfst]; exact hnodup), hfst]

theorem flatMap_leaves_first (txn t : UtxoProof) (rest before after : List UtxoProof)
    (h : txn :: rest = before ++ t :: after) :
    ∃ more, (before ++ [t]).flatMap UtxoProof.leaves = txn.leaves ++ more := by
  cases before with
  | nil =>
    obtain ⟨rfl, -⟩ := List.cons.inj h
    exact ⟨[], by simp⟩
  | cons first others =>
    obtain ⟨rfl, -⟩ := List.cons.inj h
    exact ⟨_, List.flatMap_cons⟩

/-- The loop panics exactly at a proof that cannot be read, when it gets there. -/
theorem validateTxns_panic (txns : List UtxoProof) (known : TxnLeaves)
    (hknown : (known.map Prod.fst).Nodup) :
    validateTxns env mode height store tree txns known = .error .panic ↔
      ∃ before txn after, txns = before ++ txn :: after ∧ txn.verify env = none ∧
        (known.map Prod.fst ++
          nonNull ((before ++ [txn]).flatMap UtxoProof.leaves)).Nodup ∧
        ∀ t ∈ before, ValidTxn env mode t height store tree := by
  induction txns generalizing known with
  | nil =>
    refine iff_of_false (by simp [validateTxns]) ?_
    rintro ⟨before, txn, after, h, -⟩
    simp at h
  | cons txn rest ih =>
    rw [validateTxns]
    cases hinsert : (insertLeaves (txn.hash env) txn.leaves known).mapError Failure.err with
    | error e =>
      have hno := insertLeaves_no_panic (txn.hash env) txn.leaves known
      rw [hinsert] at hno
      refine iff_of_false (by simpa [bind, Except.bind] using hno) ?_
      rintro ⟨before, t, after, heq, -, hnodup, -⟩
      obtain ⟨more, hmore⟩ := flatMap_leaves_first txn t rest before after heq
      rw [hmore, nonNull_append, ← List.append_assoc] at hnodup
      exact insertLeaves_failed _ _ known hknown e hinsert _ hnodup
    | ok leaves =>
      obtain ⟨hnodup, rfl⟩ := (insertLeaves_ok _ _ known _ hknown).mp
        ((mapError_ok Failure.err _ leaves).mp hinsert)
      have hfst := map_fst_insertLeaves (txn.hash env) txn.leaves known
      have hpanic := @validateTxn_panic D env mode txn height store tree
      cases htxn : validateTxn env mode txn height store tree with
      | error e =>
        rw [htxn, Except.error.injEq] at hpanic
        simp only [bind, Except.bind, Except.error.injEq]
        rw [hpanic]
        constructor
        · intro hnone
          refine ⟨[], txn, rest, rfl, hnone, ?_, by simp⟩
          simpa using hnodup
        · rintro ⟨before, t, after, heq, hnone, -, hbefore⟩
          cases before with
          | nil =>
            obtain ⟨rfl, -⟩ := List.cons.inj heq
            exact hnone
          | cons first others =>
            obtain ⟨rfl, -⟩ := List.cons.inj heq
            have hvalid := hbefore txn (List.mem_cons_self ..)
            rw [(validateTxn_ok mode txn height store tree).mpr hvalid] at htxn
            cases htxn
      | ok u =>
        have hvalid := (validateTxn_ok mode txn height store tree).mp htxn
        simp only [bind, Except.bind]
        rw [ih _ (by rw [hfst]; exact hnodup), hfst]
        constructor
        · rintro ⟨before, t, after, rfl, hnone, hnodup', hbefore⟩
          refine ⟨txn :: before, t, after, rfl, hnone, ?_, List.forall_mem_cons.mpr
            ⟨hvalid, hbefore⟩⟩
          rwa [List.cons_append, List.flatMap_cons, nonNull_append, ← List.append_assoc]
        · rintro ⟨before, t, after, heq, hnone, hnodup', hbefore⟩
          cases before with
          | nil =>
            obtain ⟨rfl, -⟩ := List.cons.inj heq
            rw [hvalid.verified] at hnone
            cases hnone
          | cons first others =>
            obtain ⟨rfl, rfl⟩ := List.cons.inj heq
            rw [List.cons_append, List.flatMap_cons, nonNull_append, ← List.append_assoc]
              at hnodup'
            exact ⟨others, t, after, rfl, hnone, hnodup', fun x hx =>
              hbefore x (List.mem_cons_of_mem _ hx)⟩

end Laws

section Roots

variable {env : NodeEnv} {tree : Tree D}

/-- The new root is that of the leaves laid over the tree; crowded leaves panic. -/
theorem newRootHash_eq_some (h : tree.Valid env.poseidon) (leaves : List Element) (r : Element) :
    newRootHash env tree leaves = some r ↔
      ¬Crowded (bits D) h.sparse.leaf leaves ∧
        r = root (elementNode env.poseidon) (D - 1) (h.sparse.laid leaves).leaf := by
  unfold newRootHash
  by_cases hempty : leaves = []
  · subst hempty
    simp only [List.isEmpty_nil, if_true, Option.some.injEq, h.rootHash_eq, SparseTree.laid_nil,
      not_crowded_nil, not_false_eq_true, true_and]
    exact eq_comm
  · rw [if_neg (by simpa using hempty)]
    exact h.rootHashWith_eq_some leaves r

theorem newRootHash_eq_none (h : tree.Valid env.poseidon) (leaves : List Element) :
    newRootHash env tree leaves = none ↔ Crowded (bits D) h.sparse.leaf leaves := by
  constructor
  · intro hnone
    by_contra hfree
    rw [(newRootHash_eq_some h leaves _).mpr ⟨hfree, rfl⟩] at hnone
    cases hnone
  · intro hcrowded
    cases hroot : newRootHash env tree leaves with
    | none => rfl
    | some r => exact absurd hcrowded ((newRootHash_eq_some h leaves r).mp hroot).1

end Roots

/-- What the loop of `validate` accepts. -/
structure PassesTxns (env : NodeEnv) (mode : Mode) (content : BlockContent) (store : BlockStore)
    (tree : Tree D) : Prop where
  nodup : content.state.leavesNonNull.Nodup
  txns : ∀ txn ∈ content.state.txns, ValidTxn env mode txn content.header.height store tree

/-- A block `validate` panics on. -/
def Panics (env : NodeEnv) (mode : Mode) (content : BlockContent) (store : BlockStore)
    (tree : Tree D) : Prop :=
  ∃ before txn after, content.state.txns = before ++ txn :: after ∧ txn.verify env = none ∧
    (nonNull ((before ++ [txn]).flatMap UtxoProof.leaves)).Nodup ∧
    ∀ t ∈ before, ValidTxn env mode t content.header.height store tree

section Blocks

variable {env : NodeEnv} (mode : Mode) (content : BlockContent) (store : BlockStore)
  (tree : Tree D)

/-- The loop of `validate` ends with the non-zero leaves of the block, or not at all. -/
theorem validateTxns_cases :
    (∃ leaves, validateTxns env mode content.header.height store tree content.state.txns [] =
        .ok leaves ∧ leaves.map Prod.fst = content.state.leavesNonNull ∧
        PassesTxns env mode content store tree) ∨
      ∃ e, validateTxns env mode content.header.height store tree content.state.txns [] =
        .error e ∧ ¬PassesTxns env mode content store tree := by
  have hloop := @validateTxns_ok D env mode content.header.height store tree
    content.state.txns [] List.nodup_nil
  cases hrun : validateTxns env mode content.header.height store tree content.state.txns [] with
  | error e =>
    refine Or.inr ⟨e, rfl, fun h => ?_⟩
    obtain ⟨leaves, hok, -⟩ := (hloop content.state.leavesNonNull).mpr ⟨rfl, h.nodup, h.txns⟩
    rw [hrun] at hok
    cases hok
  | ok leaves =>
    obtain ⟨hkeys, hnodup, htxns⟩ := (hloop _).mp ⟨leaves, hrun, rfl⟩
    rw [hkeys] at hnodup
    exact Or.inl ⟨leaves, rfl, hkeys, hnodup, htxns⟩

/-- A block passes when its transactions do and its root is the new root. -/
theorem validate_ok :
    validate env content mode store tree = .ok () ↔
      PassesTxns env mode content store tree ∧
        newRootHash env tree content.state.leavesNonNull = some content.state.rootHash := by
  unfold validate
  rcases validateTxns_cases mode content store tree with
    ⟨leaves, hrun, hkeys, hpasses⟩ | ⟨e, hrun, hfails⟩
  · rw [hrun]
    simp only [bind, Except.bind, hkeys, hpasses, true_and]
    cases newRootHash env tree content.state.leavesNonNull with
    | none => simp
    | some r =>
      by_cases hroot : r = content.state.rootHash
      · simp [hroot]
      · simp [hroot]
  · rw [hrun]
    simp only [bind, Except.bind, reduceCtorEq, hfails, false_and]

/-- Validation panics at a proof that cannot be read, or at crowded leaves. -/
theorem validate_panic :
    validate env content mode store tree = .error .panic ↔
      Panics env mode content store tree ∨
        (PassesTxns env mode content store tree ∧
          newRootHash env tree content.state.leavesNonNull = none) := by
  have hpanic := @validateTxns_panic D env mode content.header.height store tree
    content.state.txns [] List.nodup_nil
  unfold validate
  rcases validateTxns_cases mode content store tree with
    ⟨leaves, hrun, hkeys, hpasses⟩ | ⟨e, hrun, hfails⟩
  · rw [hrun] at hpanic
    have hno : ¬Panics env mode content store tree := fun h => by cases hpanic.mpr h
    rw [hrun]
    simp only [bind, Except.bind, hkeys, hno, hpasses, true_and, false_or]
    cases newRootHash env tree content.state.leavesNonNull with
    | none => simp
    | some r =>
      by_cases hroot : r = content.state.rootHash
      · simp [hroot]
      · simp [hroot]
  · rw [hrun, Except.error.injEq] at hpanic
    rw [hrun]
    simp only [bind, Except.bind, hfails, false_and, or_false, Except.error.injEq]
    exact hpanic

end Blocks
end PayyRollup.BlockValidation
