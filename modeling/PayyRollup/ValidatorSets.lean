import PayyRollup.SignatureQuorums

/-!
The validator set of a height. The contract keeps an index into its sets that only advances;
a node searches the list for the last set that is valid at the height. The two agree at the
heights from which the set at the index is valid, as long as a node can read every height at
which a set becomes valid.
-/
namespace PayyRollup.ValidatorSets

open ScalarField VerifierContracts Transactions RollupState RollupCalls RollupEffects
  SignatureQuorums

section SortedLists

variable {α : Type} {p : α → Bool}

/-- In a list whose first elements satisfy a predicate, those are a prefix. -/
theorem filter_eq_take (l : List α) (hmono : l.Pairwise fun a b => p b = true → p a = true)
    (k : ℕ) (hk : k < l.length) (hp : p l[k] = true)
    (hnext : ∀ h : k + 1 < l.length, p l[k + 1] = false) : l.filter p = l.take (k + 1) := by
  have hleft : (l.take (k + 1)).filter p = l.take (k + 1) := by
    rw [List.filter_eq_self]
    intro a ha
    obtain ⟨j, hj, rfl⟩ := List.mem_take_iff_getElem.mp ha
    rcases Nat.lt_or_eq_of_le (show j ≤ k by omega) with hlt | rfl
    · exact List.pairwise_iff_getElem.mp hmono j k (by omega) hk hlt hp
    · exact hp
  have hright : (l.drop (k + 1)).filter p = [] := by
    rw [List.filter_eq_nil_iff]
    intro a ha hpa
    obtain ⟨j, hj, rfl⟩ := List.mem_iff_getElem.mp ha
    rw [List.getElem_drop] at hpa
    rw [List.length_drop] at hj
    have hfalse := hnext (by omega)
    rcases Nat.eq_zero_or_pos j with rfl | hpos
    · rw [hpa] at hfalse
      cases hfalse
    · have htrue := List.pairwise_iff_getElem.mp hmono (k + 1) (k + 1 + j) (by omega) (by omega)
        (by omega) hpa
      rw [htrue] at hfalse
      cases hfalse
  conv_lhs => rw [← List.take_append_drop (k + 1) l]
  rw [List.filter_append, hleft, hright, List.append_nil]

theorem takeWhile_spec (p : α → Bool) (l : List α) :
    (l.takeWhile p).length ≤ l.length ∧
      (∀ j (h : j < l.length), j < (l.takeWhile p).length → p l[j] = true) ∧
      ∀ h : (l.takeWhile p).length < l.length, p l[(l.takeWhile p).length] = false := by
  induction l with
  | nil => exact ⟨le_refl 0, fun _ _ hj => absurd hj (Nat.not_lt_zero _),
      fun h => absurd h (Nat.not_lt_zero _)⟩
  | cons a l ih =>
    obtain ⟨hle, hin, hout⟩ := ih
    by_cases ha : p a = true
    · rw [List.takeWhile_cons_of_pos ha]
      refine ⟨Nat.succ_le_succ hle, ?_, ?_⟩
      · intro j h hj
        cases j with
        | zero => exact ha
        | succ j => exact hin j (Nat.lt_of_succ_lt_succ h) (Nat.lt_of_succ_lt_succ hj)
      · intro h
        exact hout (Nat.lt_of_succ_lt_succ h)
    · rw [List.takeWhile_cons_of_neg ha]
      refine ⟨Nat.zero_le _, fun _ _ hj => absurd hj (Nat.not_lt_zero _), fun _ => ?_⟩
      rw [Bool.not_eq_true] at ha
      exact ha

end SortedLists

section Selection

variable {τ : Type}

/-- The set that a verification of a block at the height checks the signatures against. -/
def selectedSet (s : Rollup τ) (height : Element) : ValidatorSet :=
  (s.updateValidatorSetIndex height).getValidators

/-- The last added set that is valid from the height or below. -/
def LastValid (sets : List ValidatorSet) (height : Element) (set : ValidatorSet) : Prop :=
  (sets.filter fun set => decide (set.validFrom ≤ height)).getLast? = some set

/-- The node's search; it panics if a set is valid from a height beyond 64 bits, or if none
is valid. -/
def validatorsForHeight (validatorSets : List ValidatorSet) (height : ℕ) :
    Option (List Address) :=
  if validatorSets.all (fun set => decide (set.validFrom.toNat < 2 ^ 64)) = true then
    (validatorSets.filter fun set => decide (set.validFrom.toNat ≤ height)).getLast?.map
      ValidatorSet.validatorsArray
  else none

/-- The sets become valid at increasing heights, the first at genesis, and the index is that
of a set. -/
structure SetsInv (s : Rollup τ) : Prop where
  genesis : ∃ first rest, s.validatorSets = first :: rest ∧ first.validFrom = 0#256
  ascending : s.validatorSets.Pairwise fun a b => a.validFrom < b.validFrom
  index : s.validatorSetIndex < s.validatorSets.length

/-- The two states hold the same sets and the same index. -/
structure SameSets (s s' : Rollup τ) : Prop where
  sets : s'.validatorSets = s.validatorSets
  index : s'.validatorSetIndex = s.validatorSetIndex

instance : IsPreorder (Rollup τ) SameSets where
  refl := fun _ => ⟨rfl, rfl⟩
  trans := fun _ _ _ h h' => ⟨h'.sets.trans h.sets, h'.index.trans h.index⟩

theorem SetsInv.of_same {s s' : Rollup τ} (h : SetsInv s) (hsame : SameSets s s') :
    SetsInv s' := by
  obtain ⟨hgenesis, hascending, hindex⟩ := h
  rw [← hsame.sets] at hgenesis hascending hindex
  rw [← hsame.index] at hindex
  exact ⟨hgenesis, hascending, hindex⟩

theorem sameSets_admissible (env : Externals τ) : Admissible env SameSets := by
  refine ⟨fun s chain => ⟨rfl, rfl⟩, ?_, ?_⟩
  · intro s s' h
    cases h with
    | mint => exact ⟨rfl, rfl⟩
    | burn => exact ⟨rfl, rfl⟩
    | burnToAddress => exact ⟨rfl, rfl⟩
    | burnToRouter => exact ⟨rfl, rfl⟩
  · intro routerCall hrouter sender nullifier amount s s' h
    obtain ⟨chain, t, hexecuted, rfl⟩ := h.executed
    have hburn : Respects SameSets (executeBurn env routerCall nullifier amount) :=
      respects_executeBurn routerCall (fun _ _ => ⟨rfl, rfl⟩) hrouter nullifier amount
    have hsame := hburn.relates _ _ _ hexecuted
    exact ⟨hsame.sets, hsame.index⟩

theorem SetsInv.mono {s : Rollup τ} (h : SetsInv s) (height : Element) :
    s.validatorSets.Pairwise fun a b =>
      decide (b.validFrom ≤ height) = true → decide (a.validFrom ≤ height) = true := by
  refine h.ascending.imp ?_
  intro a b hlt hb
  rw [decide_eq_true_eq] at hb ⊢
  exact BitVec.le_trans (BitVec.le_of_lt hlt) hb

/-- The index of the selected set: it is at least the kept one, the sets that it passed are
valid at the height, and the next one is not. -/
theorem selectedIndex_spec {s : Rollup τ} (h : SetsInv s) (height : Element) :
    ∃ k, ∃ hk : k < s.validatorSets.length, s.validatorSetIndex ≤ k ∧
      (s.updateValidatorSetIndex height).validatorSetIndex = k ∧
      selectedSet s height = s.validatorSets[k] ∧
      (s.validatorSetIndex < k → s.validatorSets[k].validFrom ≤ height) ∧
      ∀ hnext : k + 1 < s.validatorSets.length, ¬s.validatorSets[k + 1].validFrom ≤ height := by
  have hindex := h.index
  obtain ⟨hle, hin, hout⟩ := takeWhile_spec (fun set : ValidatorSet =>
    decide (set.validFrom ≤ height)) (s.validatorSets.drop (s.validatorSetIndex + 1))
  rw [List.length_drop] at hle
  set passed := ((s.validatorSets.drop (s.validatorSetIndex + 1)).takeWhile fun set =>
    decide (set.validFrom ≤ height)).length with hpassed
  have hk : s.validatorSetIndex + passed < s.validatorSets.length := by omega
  refine ⟨s.validatorSetIndex + passed, hk, by omega, rfl, ?_, ?_, ?_⟩
  · change s.validatorSets.getD (s.validatorSetIndex + passed) _ = _
    rw [List.getD_eq_getElem?_getD, List.getElem?_eq_getElem hk]
    rfl
  · intro hlt
    have hlast := hin (passed - 1) (by rw [List.length_drop]; omega) (by omega)
    rw [decide_eq_true_eq, List.getElem_drop] at hlast
    have hshift : s.validatorSetIndex + 1 + (passed - 1) = s.validatorSetIndex + passed := by
      omega
    simpa only [hshift] using hlast
  · intro hnext
    have hfirst := hout (by rw [List.length_drop]; omega)
    rw [decide_eq_false_iff_not, List.getElem_drop] at hfirst
    have hshift : s.validatorSetIndex + 1 + passed = s.validatorSetIndex + passed + 1 := by
      omega
    simpa only [hshift] using hfirst

theorem getValidators_eq {s : Rollup τ} (h : SetsInv s) :
    ∃ hk : s.validatorSetIndex < s.validatorSets.length,
      s.getValidators = s.validatorSets[s.validatorSetIndex] := by
  refine ⟨h.index, ?_⟩
  unfold Rollup.getValidators
  rw [List.getD_eq_getElem?_getD, List.getElem?_eq_getElem h.index]
  rfl

/-- The selected set is the last valid one exactly at the heights at which the set at the
index is valid. -/
theorem lastValid_iff {s : Rollup τ} (h : SetsInv s) (height : Element) :
    LastValid s.validatorSets height (selectedSet s height) ↔
      s.getValidators.validFrom ≤ height := by
  obtain ⟨k, hk, hle, -, hselected, hpassed, hnext⟩ := selectedIndex_spec h height
  obtain ⟨hindex, hcurrent⟩ := getValidators_eq h
  rw [hselected, hcurrent]
  constructor
  · intro hlast
    have hmem := List.mem_of_mem_getLast? (Option.mem_def.mpr hlast)
    have hvalid := of_decide_eq_true (List.mem_filter.mp hmem).2
    rcases Nat.lt_or_eq_of_le hle with hlt | heq
    · exact BitVec.le_trans
        (BitVec.le_of_lt (List.pairwise_iff_getElem.mp h.ascending _ k hindex hk hlt)) hvalid
    · simpa only [heq] using hvalid
  · intro hvalid
    have hp : decide (s.validatorSets[k].validFrom ≤ height) = true := by
      rw [decide_eq_true_eq]
      rcases Nat.lt_or_eq_of_le hle with hlt | heq
      · exact hpassed hlt
      · simpa only [heq] using hvalid
    unfold LastValid
    rw [filter_eq_take _ (h.mono height) k hk hp fun hlt => decide_eq_false (hnext hlt)]
    rw [List.getLast?_take, if_neg (Nat.succ_ne_zero k), Nat.add_sub_cancel,
      List.getElem?_eq_getElem hk, Option.some_or]

/-- A node finds the last valid set if it can read the heights of all sets. -/
theorem validatorsForHeight_iff (sets : List ValidatorSet) (height : Element)
    (set : ValidatorSet) (hlast : LastValid sets height set) :
    validatorsForHeight sets height.toNat = some set.validatorsArray ↔
      ∀ set ∈ sets, set.validFrom.toNat < 2 ^ 64 := by
  have hfilter : (sets.filter fun set => decide (set.validFrom.toNat ≤ height.toNat)) =
      sets.filter fun set => decide (set.validFrom ≤ height) := rfl
  unfold LastValid at hlast
  unfold validatorsForHeight
  rw [hfilter, hlast]
  have hall : sets.all (fun set => decide (set.validFrom.toNat < 2 ^ 64)) = true ↔
      ∀ set ∈ sets, set.validFrom.toNat < 2 ^ 64 := by
    rw [List.all_eq_true]
    exact forall₂_congr fun set hset => decide_eq_true_iff
  rw [← hall]
  by_cases hread : sets.all (fun set => decide (set.validFrom.toNat < 2 ^ 64)) = true
  · rw [if_pos hread]
    exact ⟨fun _ => hread, fun _ => rfl⟩
  · rw [if_neg hread]
    exact ⟨fun hfound => (by cases hfound), fun h => absurd h hread⟩

end Selection

section Runs

variable {τ : Type} (env : Externals τ) (routers : Routers τ) (depth : ℕ)

theorem verifyBlock2_sets (sender : Address) (args : BlockArgs) (s s' : Rollup τ)
    (h : Commits (verifyBlock2 env (routerCallAt env routers depth) sender args) s () s') :
    SameSets (s.updateValidatorSetIndex args.height) s' := by
  obtain ⟨t, hexecuted, -, rfl⟩ := (verifyBlock2_verifies env _ sender args s s' h).executed
  have htxns : Respects SameSets ([0, 3, 6, 9, 12, 15].forM fun i =>
      verifyTxn env (routerCallAt env routers depth) (args.utxoHash (i + 1))
        (args.utxoHash (i + 2))) := by
    apply respects_forM
    intro i hi
    exact respects_verifyTxn _ (fun _ _ => ⟨rfl, rfl⟩) (fun _ _ => ⟨rfl, rfl⟩)
      ((sameSets_admissible env).routerCallAt routers depth) _ _
  have hsame := htxns.relates _ _ _ hexecuted
  exact ⟨hsame.sets, hsame.index⟩

theorem call_setsInv (sender : Address) (c : Call τ) (s s' : Rollup τ) (hs : SetsInv s)
    (h : Calls env (routerCallAt env routers depth) sender s c s') : SetsInv s' := by
  cases h with
  | request r s' h =>
    exact hs.of_same (((sameSets_admissible env).request _
      ((sameSets_admissible env).routerCallAt routers depth) sender r).relates _ _ _ h)
  | verifyBlock2 args s' h =>
    refine SetsInv.of_same ?_ (verifyBlock2_sets env routers depth sender args s s' h)
    obtain ⟨k, hk, -, hindex, -⟩ := selectedIndex_spec hs args.height
    exact ⟨hs.genesis, hs.ascending, hindex ▸ hk⟩
  | setRoot newRoot => exact hs.of_same ⟨rfl, rfl⟩
  | setValidators validFrom validators hlast hdistinct =>
    obtain ⟨first, rest, hsets, hzero⟩ := hs.genesis
    refine ⟨⟨first, rest ++ [⟨validators, validFrom⟩], ?_, hzero⟩, ?_, ?_⟩
    · dsimp only
      rw [hsets]
      rfl
    · refine List.pairwise_append.mpr ⟨hs.ascending, List.pairwise_singleton _ _, ?_⟩
      intro a ha b hb
      obtain rfl := List.mem_singleton.mp hb
      change a.validFrom < validFrom
      obtain ⟨earlier, last, hsplit⟩ : ∃ earlier last, s.validatorSets = earlier ++ [last] := by
        rw [hsets]
        exact ⟨_, _, (List.dropLast_append_getLast (List.cons_ne_nil first rest)).symm⟩
      have hnew : last.validFrom < validFrom := by
        apply hlast
        rw [hsplit, List.getLast?_append]
        rfl
      rw [hsplit] at ha
      rcases List.mem_append.mp ha with hearlier | hsame
      · have hascending := hs.ascending
        rw [hsplit] at hascending
        exact BitVec.lt_trans ((List.pairwise_append.mp hascending).2.2 a hearlier last
          (List.mem_singleton_self last)) hnew
      · obtain rfl := List.mem_singleton.mp hsame
        exact hnew
    · dsimp only
      rw [List.length_append]
      exact Nat.lt_add_right _ hs.index
  | settings c chain owner provers routerWhitelist gasPerRouterCall =>
    exact hs.of_same ⟨rfl, rfl⟩

theorem runCalls_setsInv (chain : τ) (owner prover : Address) (initialValidators : List Address)
    (emptyMerkleTreeRootHash : Element) (txs : List (Address × Call τ)) :
    SetsInv (runCalls env routers depth
      (initialState chain owner prover initialValidators emptyMerkleTreeRootHash) txs) := by
  apply runCalls_keeps env routers depth SetsInv (call_setsInv env routers depth)
  exact ⟨⟨_, [], rfl, rfl⟩, List.pairwise_singleton _ _, Nat.zero_lt_one⟩

/-- In every state of a run, the set a block is checked against is the last one that is valid
at its height, and the one a node finds, exactly when the set at the index is valid at that
height and a node can read the heights of all sets. -/
theorem selection_agrees_iff (chain : τ) (owner prover : Address)
    (initialValidators : List Address) (emptyMerkleTreeRootHash : Element)
    (txs : List (Address × Call τ)) (height : Element) :
    let s := runCalls env routers depth
      (initialState chain owner prover initialValidators emptyMerkleTreeRootHash) txs
    (LastValid s.validatorSets height (selectedSet s height) ∧
      (height.toNat < 2 ^ 64 → validatorsForHeight s.validatorSets height.toNat =
        some (selectedSet s height).validatorsArray)) ↔
    s.getValidators.validFrom ≤ height ∧
      (height.toNat < 2 ^ 64 → ∀ set ∈ s.validatorSets, set.validFrom.toNat < 2 ^ 64) := by
  intro s
  have hs : SetsInv s := runCalls_setsInv env routers depth chain owner prover initialValidators
    emptyMerkleTreeRootHash txs
  rw [← lastValid_iff hs height]
  constructor
  · rintro ⟨hlast, hfound⟩
    exact ⟨hlast, fun hheight =>
      (validatorsForHeight_iff _ height _ hlast).mp (hfound hheight)⟩
  · rintro ⟨hlast, hread⟩
    exact ⟨hlast, fun hheight =>
      (validatorsForHeight_iff _ height _ hlast).mpr (hread hheight)⟩

end Runs

section LaterSet

/-- The sets of validator 1, and of validator 2 from height 5 on. -/
def twoSets : Rollup Unit :=
  { initialState () 7#160 2#160 [1#160] 0#256 with
    validatorSets := [⟨[1#160], 0#256⟩, ⟨[2#160], 5#256⟩] }

/-- The calls of the owner and the prover up to a block at height 5. -/
def upToHeightFive : List (Address × Call Unit) :=
  [(7#160, .setValidators 5#256 [2#160]), (2#160, .verifyBlock2 (namedBlock 5#256 [2#160]))]

theorem run_upToHeightFive (routers : Routers Unit) :
    runCalls namingEnv routers 1 (initialState () 7#160 2#160 [1#160] 0#256) upToHeightFive =
      { (twoSets.updateValidatorSetIndex 5#256).addRootHash 0#256 with
        blockHash := proposalHash namingEnv (namedBlock 5#256 [2#160])
        blockHeight := 5#256 } := by
  have hsets : step namingEnv routers 1 (initialState () 7#160 2#160 [1#160] 0#256)
      (7#160, .setValidators 5#256 [2#160]) = twoSets := rfl
  have hverified := namedBlock_verified (routerCallAt namingEnv routers 1) 2#160 twoSets 5#256
    [2#160] rfl rfl (by norm_num) (by simp [Rollup.updateValidatorSetIndex, Rollup.getValidators,
      twoSets, initialState, Rollup.addRootHash]) (by simp) (by decide)
  have hblock := step_of_commits namingEnv routers 1 2#160
    (.verifyBlock2 (namedBlock 5#256 [2#160])) twoSets _ () hverified
  unfold upToHeightFive runCalls
  rw [List.foldl_cons, hsets, List.foldl_cons, List.foldl_nil]
  exact hblock

/-- After a block at height 5, a block at height 1 is verified against the set that becomes
valid at height 5. -/
theorem not_selection_agrees :
    let routers : Routers Unit := fun _ _ _ _ => .stop true
    let s := runCalls namingEnv routers 1 (initialState () 7#160 2#160 [1#160] 0#256)
      upToHeightFive
    (∃ s', Commits (verifyBlock2 namingEnv (routerCallAt namingEnv routers 1) 2#160
      (namedBlock 1#256 [2#160])) s () s') ∧
    ¬LastValid s.validatorSets 1#256 (selectedSet s 1#256) := by
  intro routers s
  have hs : s = { (twoSets.updateValidatorSetIndex 5#256).addRootHash 0#256 with
      blockHash := proposalHash namingEnv (namedBlock 5#256 [2#160])
      blockHeight := 5#256 } := run_upToHeightFive routers
  have hset : selectedSet s 1#256 = ⟨[2#160], 5#256⟩ := by
    rw [hs]
    rfl
  have hsets : s.validatorSets = [⟨[1#160], 0#256⟩, ⟨[2#160], 5#256⟩] := by
    rw [hs]
    rfl
  have harray : (s.updateValidatorSetIndex 1#256).getValidators.validatorsArray = [2#160] :=
    congrArg ValidatorSet.validatorsArray hset
  refine ⟨⟨_, namedBlock_verified _ 2#160 s 1#256 [2#160] ?_ ?_ (by norm_num) ?_ (by simp) ?_⟩,
    ?_⟩
  · rw [hs]
    rfl
  · rw [hs]
    rfl
  · rw [harray]
    exact fun _ h => h
  · rw [harray]
    decide
  · rw [hset, hsets]
    unfold LastValid
    simp

end LaterSet

end PayyRollup.ValidatorSets
