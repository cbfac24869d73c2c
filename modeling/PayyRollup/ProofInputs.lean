import PayyRollup.NodeAdmission

/-!
The public inputs of a transaction as a node checks them. The verifier reads every input modulo
the prime, and only the leaves are required to be below it: the recent root, the mint or burn
hash and the value pass with the prime added, where no other check stops the transaction. The
result of the verifier is unwrapped, so proof bytes that it cannot read are a panic.
-/
namespace PayyRollup.ProofInputs

open ScalarField SmirkTree NodeBlocks BlockValidation NodeAdmission BlockCommit

variable {D : ℕ} (env : NodeEnv) (mode : Mode) (height : ℕ) (store : BlockStore) (tree : Tree D)

/-- Validation ends with a result, and what it accepts is canonical. -/
structure TotalCanonical (utxo : UtxoProof) : Prop where
  no_panic : validateTxn env mode utxo height store tree ≠ .error .panic
  canonical : validateTxn env mode utxo height store tree = .ok () →
    ∀ e ∈ utxo.instances, e.toNat < modulus

/-- The inputs beside the leaves. -/
def HeaderCanonical (utxo : UtxoProof) : Prop :=
  utxo.recentRoot.toNat < modulus ∧ utxo.mbHash.toNat < modulus ∧ utxo.mbValue.toNat < modulus

/-- The recent root is none of those that are looked at. -/
def RootRefused (utxo : UtxoProof) : Prop :=
  utxo.recentRoot ≠ 0#256 ∧ utxo.recentRoot ∉ recentRoots store height ∧ mode.isProver = false

/-- The verifier can read the proof, and inputs that are not canonical meet a check that
refuses them for another reason. -/
structure Guarded (utxo : UtxoProof) : Prop where
  readable : utxo.verify env ≠ none
  refused : HeaderCanonical utxo ∨ RootRefused mode height store utxo ∨
    ¬PassesOtherChecks env utxo tree

theorem rootRefused_iff (utxo : UtxoProof) :
    RootRefused mode height store utxo ↔
      ¬(utxo.recentRoot = 0#256 ∨ utxo.recentRoot ∈ recentRoots store height ∨
        mode.isProver = true) := by
  rw [RootRefused, not_or, not_or, Bool.not_eq_true]

theorem instances_canonical (utxo : UtxoProof) :
    (∀ e ∈ utxo.instances, e.toNat < modulus) ↔
      HeaderCanonical utxo ∧ ∀ leaf ∈ utxo.leaves, leaf.toNat < modulus := by
  rw [UtxoProof.instances, List.forall_mem_append, HeaderCanonical, List.forall_mem_cons,
    List.forall_mem_cons, List.forall_mem_singleton]

theorem totalCanonical_iff (utxo : UtxoProof) :
    TotalCanonical env mode height store tree utxo ↔ Guarded env mode height store tree utxo := by
  constructor
  · rintro ⟨hpanic, hcanonical⟩
    refine ⟨fun hnone => hpanic ((validateTxn_panic mode utxo height store tree).mpr hnone), ?_⟩
    by_cases hroot : RootRefused mode height store utxo
    · exact Or.inr (Or.inl hroot)
    · by_cases hother : PassesOtherChecks env utxo tree
      · rw [rootRefused_iff, not_not] at hroot
        have hok := (validateTxn_ok mode utxo height store tree).mpr
          ((validTxn_iff mode utxo height store tree).mpr ⟨hroot, hother⟩)
        exact Or.inl ((instances_canonical utxo).mp (hcanonical hok)).1
      · exact Or.inr (Or.inr hother)
  · rintro ⟨hreadable, hrefused⟩
    refine ⟨fun hpanic => hreadable ((validateTxn_panic mode utxo height store tree).mp hpanic), ?_⟩
    intro hok
    obtain ⟨hroot, hother⟩ := (validTxn_iff mode utxo height store tree).mp
      ((validateTxn_ok mode utxo height store tree).mp hok)
    rcases hrefused with hheader | hrefused | hfails
    · exact (instances_canonical utxo).mpr ⟨hheader, hother.sized⟩
    · exact absurd hroot ((rootRefused_iff mode height store utxo).mp hrefused)
    · exact absurd hother hfails

/-- Canonical inputs are determined by what the verifier reads of them. -/
theorem eq_of_toBase (first second : List Element) (hfirst : ∀ e ∈ first, e.toNat < modulus)
    (hsecond : ∀ e ∈ second, e.toNat < modulus)
    (h : first.map Element.toBase = second.map Element.toBase) : first = second := by
  induction first generalizing second with
  | nil => exact (List.map_eq_nil_iff.mp h.symm).symm
  | cons e first ih =>
    cases second with
    | nil => cases h
    | cons f second =>
      obtain ⟨he, hfirst⟩ := List.forall_mem_cons.mp hfirst
      obtain ⟨hf, hsecond⟩ := List.forall_mem_cons.mp hsecond
      obtain ⟨hhead, htail⟩ := List.cons.inj h
      rw [Element.toBase_inj e f he hf hhead, ih second hfirst hsecond htail]

/-- Validation of a transaction is total and accepts only canonical inputs exactly when it is
guarded, and of two guarded transactions that are accepted and that the verifier reads alike, the
inputs are the same. -/
theorem validateTxn_canonical_iff (utxo : UtxoProof) :
    (TotalCanonical env mode height store tree utxo ↔
        Guarded env mode height store tree utxo) ∧
      ∀ twin : UtxoProof, Guarded env mode height store tree utxo →
        Guarded env mode height store tree twin →
          validateTxn env mode utxo height store tree = .ok () →
            validateTxn env mode twin height store tree = .ok () →
              twin.instances.map Element.toBase = utxo.instances.map Element.toBase →
                twin.instances = utxo.instances := by
  refine ⟨totalCanonical_iff env mode height store tree utxo, ?_⟩
  intro twin hutxo htwin hok hokTwin hsame
  have hcanonical := ((totalCanonical_iff env mode height store tree utxo).mpr hutxo).canonical hok
  have htwinCanonical :=
    ((totalCanonical_iff env mode height store tree twin).mpr htwin).canonical hokTwin
  exact eq_of_toBase _ _ htwinCanonical hcanonical hsame

/-- A transaction without leaves that mints a value for no hash. -/
def mintOf (value : Element) : UtxoProof :=
  ⟨0#256, 0#256, value, (0#256, 0#256), (0#256, 0#256), []⟩

theorem mintOf_passes (value : Element) :
    PassesOtherChecks trustingEnv (mintOf value) (Tree.new 161) := by
  have hzero : ∀ leaf ∈ (mintOf value).leaves, leaf = 0#256 := by
    intro leaf hleaf
    simpa [mintOf, UtxoProof.leaves] using hleaf
  refine ⟨rfl, ?_, fun leaf hleaf hne => absurd (hzero leaf hleaf) hne⟩
  intro leaf hleaf
  rw [hzero leaf hleaf]
  exact modulus_prime.pos

theorem mintOf_accepted (value : Element) :
    validateTxn trustingEnv .validator (mintOf value) 1 BlockStore.empty (Tree.new 161) = .ok () :=
  (validateTxn_ok _ _ _ _ _).mpr ((validTxn_iff _ _ _ _ _).mpr ⟨Or.inl rfl, mintOf_passes value⟩)

/-- A mint of 5 for the hash of its output leaf. -/
def leafMint : UtxoProof := ⟨0#256, 4#256, 5#256, (0#256, 0#256), (4#256, 0#256), []⟩

theorem validateTxn_canonical_iff_leafMint :
    validateTxn trustingEnv .validator leafMint 1 BlockStore.empty (Tree.new 161) = .ok () ∧
      TotalCanonical trustingEnv .validator 1 BlockStore.empty (Tree.new 161) leafMint := by
  have hsmall : ∀ e ∈ leafMint.instances, e.toNat < modulus := by
    intro e he
    simp only [leafMint, UtxoProof.instances, UtxoProof.leaves, List.cons_append, List.nil_append,
      List.mem_cons, List.not_mem_nil, or_false] at he
    rcases he with rfl | rfl | rfl | rfl | rfl | rfl | rfl
    all_goals norm_num [modulus]
  obtain ⟨hheader, hleaves⟩ := (instances_canonical leafMint).mp hsmall
  have hguarded : Guarded trustingEnv .validator 1 BlockStore.empty (Tree.new 161) leafMint :=
    ⟨Option.some_ne_none true, Or.inl hheader⟩
  refine ⟨(validateTxn_ok _ _ _ _ _).mpr ((validTxn_iff _ _ _ _ _).mpr
    ⟨Or.inl rfl, rfl, hleaves, fun _ _ _ => rfl⟩), ?_⟩
  exact (validateTxn_canonical_iff trustingEnv .validator 1 BlockStore.empty (Tree.new 161)
    leafMint).1.mpr hguarded

/-- Two encodings of the value zero are both accepted. -/
theorem not_canonical_value :
    validateTxn trustingEnv .validator (mintOf 0#256) 1 BlockStore.empty (Tree.new 161) =
        .ok () ∧
      validateTxn trustingEnv .validator (mintOf (BitVec.ofNat 256 modulus)) 1 BlockStore.empty
          (Tree.new 161) = .ok () ∧
        (mintOf (BitVec.ofNat 256 modulus)).instances.map Element.toBase =
            (mintOf 0#256).instances.map Element.toBase ∧
          ¬TotalCanonical trustingEnv .validator 1 BlockStore.empty (Tree.new 161)
            (mintOf (BitVec.ofNat 256 modulus)) := by
  refine ⟨mintOf_accepted _, mintOf_accepted _, by decide, ?_⟩
  intro h
  have hvalue := h.canonical (mintOf_accepted _) (BitVec.ofNat 256 modulus)
    (List.mem_cons_of_mem _ (List.mem_cons_of_mem _ List.mem_cons_self))
  exact absurd hvalue (by decide)

end PayyRollup.ProofInputs
