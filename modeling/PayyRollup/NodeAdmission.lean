import PayyRollup.BlockCommit

/-!
Admitting a transaction. A mint or burn must be known to the rollup contract at a safe
height of the chain; then the transaction is validated at the confirmed height. A block is
validated at its own height, one above, so the two checks look at different windows of
recent roots.
-/
namespace PayyRollup.NodeAdmission

open ScalarField SmirkTree NodeBlocks BlockValidation BlockCommit

/-- The rollup contract as the node reads it; every query may fail. -/
structure ContractView where
  blockNumber : Option ℕ
  getMint : ℕ → Element → Option Element
  hasBurn : ℕ → Element → Option Bool

variable {D : ℕ}

section Admission

variable (env : NodeEnv)

def query {α : Type} (failure : Error) : Option α → Outcome Error α
  | some a => .ok a
  | none => .error (.err failure)

/-- A mint or burn is in the contract under the one leaf of its transaction. -/
def checkContract (contract : ContractView) (safeEthHeight : ℕ) (utxo : UtxoProof) :
    Outcome Error Unit :=
  if utxo.inputLeaves = (0#256, 0#256) ∧ utxo.outputLeaves.2 = 0#256 then do
    let mint ← query .contracts (contract.getMint safeEthHeight utxo.outputLeaves.1)
    if mint = 0#256 then .error (.err (.mintIsNotInTheContract utxo.outputLeaves.1))
    else .ok ()
  else if utxo.inputLeaves.2 = 0#256 ∧ utxo.outputLeaves = (0#256, 0#256) then do
    let exists_ ← query .contracts (contract.hasBurn safeEthHeight utxo.inputLeaves.1)
    if exists_ = false then .error (.err (.burnIsNotInTheContract utxo.inputLeaves.1))
    else .ok ()
  else .error (.err .invalidMintOrBurnLeaves)

def validateTransaction (mode : Mode) (safeEthHeightOffset : ℕ) (contract : ContractView)
    (utxo : UtxoProof) (height : ℕ) (store : BlockStore) (tree : Tree D) :
    Outcome Error Unit := do
  if utxo.mbHash ≠ 0#256 ∧ utxo.mbValue ≠ 0#256 then
    let ethBlock ← query .failedToGetEthBlockNumber contract.blockNumber
    checkContract contract (ethBlock - safeEthHeightOffset) utxo
  validateTxn env mode utxo height store tree

end Admission

section Windows

variable {env : NodeEnv}

/-- The checks of a transaction apart from its recent root. -/
structure PassesOtherChecks (env : NodeEnv) (utxo : UtxoProof) (tree : Tree D) : Prop where
  verified : utxo.verify env = some true
  sized : ∀ leaf ∈ utxo.leaves, leaf.toNat < modulus
  fresh : ∀ leaf ∈ utxo.leaves, leaf ≠ 0#256 → tree.containsElement leaf = false

theorem validTxn_iff (mode : Mode) (utxo : UtxoProof) (height : ℕ) (store : BlockStore)
    (tree : Tree D) :
    ValidTxn env mode utxo height store tree ↔
      (utxo.recentRoot = 0#256 ∨ utxo.recentRoot ∈ recentRoots store height ∨
        mode.isProver = true) ∧ PassesOtherChecks env utxo tree := by
  constructor
  · intro h
    exact ⟨h.recent, h.verified, h.sized, h.fresh⟩
  · rintro ⟨hrecent, h⟩
    exact ⟨h.verified, hrecent, h.sized, h.fresh⟩

/-- The roots of a window are those of the blocks stored at its heights. -/
theorem mem_recentRoots (store : BlockStore) (height : ℕ) (r : Element) :
    r ∈ recentRoots store height ↔
      ∃ k block, nextHeight height ≤ k + recentRootCount ∧ k < nextHeight height ∧
        store.get k = some block ∧ block.rootHash = r := by
  unfold recentRoots
  rw [List.mem_map]
  constructor
  · rintro ⟨block, hblock, hroot⟩
    obtain ⟨k, hstart, hstop, hget⟩ := (BlockStore.mem_list _ _ _ _).mp hblock
    exact ⟨k, block, by omega, hstop, hget, hroot⟩
  · rintro ⟨k, block, hstart, hstop, hget, hroot⟩
    exact ⟨block, (BlockStore.mem_list _ _ _ _).mpr ⟨k, by omega, hstop, hget⟩, hroot⟩

/-- What the node admits is valid, and known to the contract if it names a mint or burn. -/
theorem validateTransaction_ok (mode : Mode) (safeEthHeightOffset : ℕ) (contract : ContractView)
    (utxo : UtxoProof) (height : ℕ) (store : BlockStore) (tree : Tree D)
    (h : validateTransaction env mode safeEthHeightOffset contract utxo height store tree =
      .ok ()) :
    ValidTxn env mode utxo height store tree ∧
      (utxo.mbHash ≠ 0#256 → utxo.mbValue ≠ 0#256 → ∃ ethBlock,
        contract.blockNumber = some ethBlock ∧
          checkContract contract (ethBlock - safeEthHeightOffset) utxo = .ok ()) := by
  unfold validateTransaction at h
  by_cases hnamed : utxo.mbHash ≠ 0#256 ∧ utxo.mbValue ≠ 0#256
  · rw [if_pos hnamed] at h
    cases hblock : contract.blockNumber with
    | none =>
      rw [hblock] at h
      cases h
    | some ethBlock =>
      rw [hblock] at h
      cases hcheck : checkContract contract (ethBlock - safeEthHeightOffset) utxo with
      | error failure =>
        simp only [query, bind, Except.bind, hcheck] at h
        cases h
      | ok =>
        simp only [query, bind, Except.bind, hcheck] at h
        exact ⟨(validateTxn_ok mode utxo height store tree).mp h,
          fun _ _ => ⟨ethBlock, rfl, hcheck⟩⟩
  · rw [if_neg hnamed] at h
    exact ⟨(validateTxn_ok mode utxo height store tree).mp h,
      fun hhash hvalue => absurd ⟨hhash, hvalue⟩ hnamed⟩

end Windows

/-- Admission at a height and validation in the next block agree exactly when the windows of
roots agree on the root of the transaction, or the root or the other checks do not matter. -/
theorem admission_agrees_iff (env : NodeEnv) (mode : Mode) (utxo : UtxoProof) (height : ℕ)
    (store : BlockStore) (tree : Tree D) :
    (validateTxn env mode utxo height store tree = .ok () ↔
        validateTxn env mode utxo (nextHeight height) store tree = .ok ()) ↔
      mode.isProver = true ∨ utxo.recentRoot = 0#256 ∨ ¬PassesOtherChecks env utxo tree ∨
        (utxo.recentRoot ∈ recentRoots store height ↔
          utxo.recentRoot ∈ recentRoots store (nextHeight height)) := by
  rw [validateTxn_ok, validateTxn_ok, validTxn_iff, validTxn_iff]
  by_cases hother : PassesOtherChecks env utxo tree
  · by_cases hprover : mode.isProver = true
    · simp [hprover]
    · by_cases hzero : utxo.recentRoot = 0#256
      · simp [hzero]
      · simp [hother, hprover, hzero]
  · simp [hother]

/-- Sixty-four stored blocks; only the first one has the root 7. -/
def oneOldRoot : BlockStore where
  blocks := fun height =>
    if 1 ≤ height ∧ height ≤ 64 then
      some ⟨⟨⟨height, 0#256, 0, 0#256, []⟩, ⟨if height = 1 then 7#256 else 8#256, []⟩⟩,
        Vector.replicate 65 0⟩
    else none
  maxHeight := some 64

/-- A transaction at the edge of the window is admitted and then fails in the next block. -/
theorem not_admission_agrees :
    let utxo : UtxoProof := ⟨7#256, 0#256, 0#256, (0#256, 0#256), (0#256, 0#256), []⟩
    validateTxn trustingEnv .validator utxo 64 oneOldRoot (Tree.new 161) = .ok () ∧
      validateTxn trustingEnv .validator utxo 65 oneOldRoot (Tree.new 161) ≠ .ok () := by
  intro utxo
  have hother : PassesOtherChecks trustingEnv utxo (Tree.new 161) := by
    refine ⟨rfl, ?_, fun _ _ _ => rfl⟩
    intro leaf hleaf
    have hzero : leaf = 0#256 := by
      simpa [utxo, UtxoProof.leaves] using hleaf
    rw [hzero]
    exact modulus_prime.pos
  constructor
  · rw [validateTxn_ok, validTxn_iff]
    refine ⟨Or.inr (Or.inl ((mem_recentRoots _ _ _).mpr ?_)), hother⟩
    exact ⟨1, _, by decide, by decide, rfl, rfl⟩
  · rw [ne_eq, validateTxn_ok, validTxn_iff]
    rintro ⟨hzero | hrecent | hprover, -⟩
    · revert hzero
      decide
    · obtain ⟨k, block, hstart, -, hget, hroot⟩ := (mem_recentRoots _ _ _).mp hrecent
      have hlarge : 2 ≤ k := by
        change 66 ≤ k + 64 at hstart
        omega
      have hblock : block.rootHash = 8#256 := by
        unfold BlockStore.get oneOldRoot at hget
        dsimp only at hget
        split at hget
        · obtain rfl := Option.some.inj hget
          exact if_neg (by omega)
        · cases hget
      rw [hblock] at hroot
      revert hroot
      decide
    · cases hprover

end PayyRollup.NodeAdmission
