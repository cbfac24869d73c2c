import PayyRollup.BridgeCircuits
import PayyRollup.NodeAdmission
import PayyRollup.PaymentEffects
import PayyRollup.RollupReverts
import PayyRollup.ValueConservation

/-!
One amount for each hash, across the circuits. A commitment hashes its value and a nullifier
hashes its commitment, so a hash that no other message has fixes the value behind it. The mint
and burn circuits expose the hash beside that value, and so does a UTXO proof whose leaves have
the pattern that the node looks for. What the contract registers is verified by the circuits;
its amount is therefore that of every transaction the node admits for the same hash.
-/
namespace PayyRollup.AmountBinding

open ScalarField ConstraintProgram Layouter ElementHash Notes UtxoCircuit BridgeCircuits
  ValueConservation

variable (O : HashOracle Fr)

/-- The commitment of a note with the value, as the note circuit forces it. -/
def CommitmentOf (c v : Fr) : Prop :=
  ∃ cells version, Opens O cells version ∧ cells.cm = c ∧ cells.value = v

/-- The nullifier of a note with the value, under some secret key. -/
def NullifierOf (c v : Fr) : Prop :=
  ∃ cells version secretKey, Opens O cells version ∧
    [cells.cm, secretKey, cells.psi, 0] ∈ O.messages ∧
    O.hash [cells.cm, secretKey, cells.psi, 0] = c ∧ cells.value = v

/-- The mint circuit accepts the commitment with the value. -/
def MintProves (c v : Fr) : Prop :=
  ∃ L inst i, i < L ∧ MintAccepts O L inst ∧ inst[i * 3]? = some c ∧ inst[i * 3 + 1]? = some v

/-- One of the burn circuits accepts the nullifier with the value. -/
def BurnProves (c v : Fr) : Prop :=
  (∃ L inst i, i < L ∧ BurnAccepts O L inst ∧ inst[i * 4 + 1]? = some c ∧
    inst[i * 4 + 1 + 1]? = some v) ∨
  ∃ L inst i, i < L ∧ BurnToAccepts O L inst ∧ inst[i * 4 + 2]? = some c ∧
    inst[i * 4 + 2 + 1]? = some v

/-- No input leaf, and one output leaf at most. -/
def MintPattern (inst : List Fr) : Prop :=
  inst[3]? = some 0 ∧ inst[4]? = some 0 ∧ inst[6]? = some 0

/-- One input leaf at most, and no output leaf. -/
def BurnPattern (inst : List Fr) : Prop :=
  inst[4]? = some 0 ∧ inst[5]? = some 0 ∧ inst[6]? = some 0

/-- The UTXO circuit accepts the instances, with the hash and the value of a mint or burn. -/
structure UtxoProves (D : ℕ) (inst : List Fr) (c w : Fr) : Prop where
  accepts : UtxoAccepts O D inst
  mb_hash : inst[1]? = some c
  mb_value : inst[2]? = some w

section Binding

variable {O} (hO : O.CollisionFree) (hnull : O.NoNullPreimage) {c v w : Fr} {D : ℕ}
  {inst : List Fr}

include hnull in
theorem opens_cm_eq_zero {cells : NoteConstraintCells} {version : Fr}
    (h : Opens O cells version) : cells.cm = 0 ↔ cells.value = 0 := by
  rw [h.cm_eq]
  by_cases hzero : cells.value = 0
  · rw [if_pos hzero]
    exact iff_of_true rfl hzero
  · rw [if_neg hzero]
    exact iff_of_false (hnull _ h.hashed) hzero

include hO hnull in
/-- Two openings of one commitment have one value. -/
theorem CommitmentOf.value_eq (h : CommitmentOf O c v) (h' : CommitmentOf O c w) : v = w := by
  obtain ⟨a, _, ha, hac, rfl⟩ := h
  obtain ⟨b, _, hb, hbc, rfl⟩ := h'
  have hsame : a.cm = b.cm := hac.trans hbc.symm
  have hzero := opens_cm_eq_zero hnull ha
  have hzero' := opens_cm_eq_zero hnull hb
  by_cases hav : a.value = 0
  · rw [hav, eq_comm, ← hzero', ← hsame, hzero]
    exact hav
  · have hbv : b.value ≠ 0 := by
      rw [ne_eq, ← hzero', ← hsame, hzero]
      exact hav
    rw [ha.cm_eq, hb.cm_eq, if_neg hav, if_neg hbv] at hsame
    exact (List.cons.inj (hO.eq ha.hashed hb.hashed hsame)).1

include hO hnull in
/-- A nullifier fixes the commitment, and so the value. -/
theorem NullifierOf.value_eq (h : NullifierOf O c v) (h' : NullifierOf O c w) : v = w := by
  obtain ⟨a, va, sk, ha, hmem, hac, hv⟩ := h
  obtain ⟨b, vb, sk', hb, hmem', hbc, hw⟩ := h'
  have hmessages := hO.eq hmem hmem' (hac.trans hbc.symm)
  have hcm : a.cm = b.cm := (List.cons.inj hmessages).1
  exact CommitmentOf.value_eq hO hnull ⟨a, va, ha, hcm, hv⟩ ⟨b, vb, hb, rfl, hw⟩

include hO hnull in
/-- Commitments and nullifiers hash messages of different lengths. -/
theorem CommitmentOf.not_nullifier (h : CommitmentOf O c v) : ¬NullifierOf O c w := by
  obtain ⟨a, _, ha, hac, -⟩ := h
  rintro ⟨b, _, sk, -, hmem, hbc, -⟩
  by_cases hzero : a.value = 0
  · have hcm := (opens_cm_eq_zero hnull ha).mpr hzero
    exact hnull _ hmem (hbc.trans (hac.symm.trans hcm))
  · rw [ha.cm_eq, if_neg hzero] at hac
    have hlen := congrArg List.length (hO.eq ha.hashed hmem (hac.trans hbc.symm))
    simp at hlen

theorem MintProves.commitmentOf (h : MintProves O c v) : CommitmentOf O c v := by
  obtain ⟨L, inst, i, hi, ⟨self, hsat⟩, hc, hv⟩ := h
  obtain ⟨cells, version, hrow⟩ := (sat_mint O.hash O inst self ()).mp hsat i hi
  have hcm := hrow.commitment
  have hvalue := hrow.value
  rw [hc, Option.some_inj] at hcm
  rw [hv, Option.some_inj] at hvalue
  exact ⟨cells, version, hrow.opens, hcm.symm, hvalue.symm⟩

theorem nullifierOf_of_row {base i : ℕ} {secretKey toAddress tail version : Fr}
    {cells : NoteConstraintCells} (h : BurnRow O inst base i secretKey toAddress tail cells version)
    (hc : inst[i * 4 + base]? = some c) (hv : inst[i * 4 + base + 1]? = some v) :
    NullifierOf O c v := by
  have hnullifier := h.nullifier
  have hvalue := h.value
  rw [hc, Option.some_inj] at hnullifier
  rw [hv, Option.some_inj] at hvalue
  exact ⟨cells, version, secretKey, h.opens, h.nullifier_hashed, hnullifier.symm, hvalue.symm⟩

theorem BurnProves.nullifierOf (h : BurnProves O c v) : NullifierOf O c v := by
  rcases h with ⟨L, inst, i, hi, ⟨self, hsat⟩, hc, hv⟩ | ⟨L, inst, i, hi, ⟨self, hsat⟩, hc, hv⟩
  · obtain ⟨secretKey, toAddress, -, hrows⟩ := (sat_burn O.hash O inst self ()).mp hsat
    obtain ⟨cells, version, hrow⟩ := hrows i hi
    exact nullifierOf_of_row hrow hc hv
  · obtain ⟨secretKey, kind, toAddress, -, -, hrows⟩ := (sat_burnTo O.hash O inst self ()).mp hsat
    obtain ⟨cells, version, hrow⟩ := hrows i hi
    exact nullifierOf_of_row hrow hc hv

/-- The two inputs and the two outputs of a constrained UTXO, with the rows of their leaves. -/
theorem constrained_pairs {cells : UtxoCells} (h : Constrained O D inst cells) :
    ∃ first second one two, cells.inputs = [first, second] ∧ cells.outputs = [one, two] ∧
      inst[3]? = some first.nullifier ∧ inst[4]? = some second.nullifier ∧
      inst[5]? = some one.cm ∧ inst[6]? = some two.cm := by
  obtain ⟨first, second, hinputs⟩ := List.length_eq_two.mp h.inputs_length
  obtain ⟨one, two, houtputs⟩ := List.length_eq_two.mp h.outputs_length
  have hleaf := h.leaf
  rw [UtxoCells.nullifiers, UtxoCells.commitments, hinputs, houtputs] at hleaf
  refine ⟨first, second, one, two, hinputs, houtputs, ?_, ?_, ?_, ?_⟩
  · exact hleaf (first.nullifier, 0) (by simp [List.zipIdx])
  · exact hleaf (second.nullifier, 1) (by simp [List.zipIdx])
  · exact hleaf (one.cm, 2) (by simp [List.zipIdx])
  · exact hleaf (two.cm, 3) (by simp [List.zipIdx])

include hnull in
/-- An input without a leaf is padding. -/
theorem input_value_zero {unverifiedRoot : Fr} {cells : UtxoInputCells}
    (h : ConstrainedInput O D unverifiedRoot cells) (hleaf : cells.nullifier = 0) :
    cells.value = 0 := by
  by_contra hvalue
  obtain ⟨version, path, hspends⟩ := h.spends
  rw [h.nullifier_eq, if_neg hvalue, hspends.nullifier_eq] at hleaf
  exact hnull _ hspends.nullifier_hashed hleaf

include hnull in
/-- An output without a leaf is padding. -/
theorem output_value_zero {cells : NoteConstraintCells} (h : ConstrainedOutput O cells)
    (hleaf : cells.cm = 0) : cells.value = 0 := by
  obtain ⟨version, hopens⟩ := h.opens
  exact (opens_cm_eq_zero hnull hopens).mp hleaf

theorem UtxoProves.constrained (h : UtxoProves O D inst c w) :
    ∃ cells, Constrained O D inst cells ∧ cells.mbHash = c ∧ cells.mbValue = w := by
  obtain ⟨cells, hcells⟩ := (utxoAccepts_iff O D inst).mp h.accepts
  have hhash := hcells.mb_hash
  have hvalue := hcells.mb_value
  rw [h.mb_hash, Option.some_inj] at hhash
  rw [h.mb_value, Option.some_inj] at hvalue
  exact ⟨cells, hcells, hhash.symm, hvalue.symm⟩

include hnull in
/-- With the pattern of a mint, the hash is the output leaf and the value that of its note. -/
theorem UtxoProves.commitmentOf (h : UtxoProves O D inst c w) (hw : w ≠ 0)
    (hpattern : MintPattern inst) : CommitmentOf O c w ∧ inst[5]? = some c := by
  obtain ⟨cells, hcells, hhash, hvalue⟩ := h.constrained
  obtain ⟨first, second, one, two, hin, hout, h3, h4, h5, h6⟩ := constrained_pairs hcells
  obtain ⟨hp3, hp4, hp6⟩ := hpattern
  rw [hp3, Option.some_inj] at h3
  rw [hp4, Option.some_inj] at h4
  rw [hp6, Option.some_inj] at h6
  have hfirst := input_value_zero hnull (hcells.input first (by simp [hin])) h3.symm
  have hsecond := input_value_zero hnull (hcells.input second (by simp [hin])) h4.symm
  have htwo := output_value_zero hnull (hcells.output two (by simp [hout])) h6.symm
  rw [UtxoCells.mbValue] at hvalue
  rw [UtxoCells.mbHash] at hhash
  by_cases hburn : cells.isBurn
  · rw [if_pos hburn, UtxoCells.totalIn, hin] at hvalue
    simp only [List.map_cons, List.map_nil, List.sum_cons, List.sum_nil, hfirst, hsecond,
      add_zero] at hvalue
    exact absurd hvalue.symm hw
  · rw [if_neg hburn] at hvalue hhash
    by_cases hmint : cells.isMint
    · rw [if_pos hmint, UtxoCells.totalOut, hout] at hvalue
      rw [if_pos hmint, UtxoCells.commitments, hout] at hhash
      simp only [List.map_cons, List.map_nil, List.sum_cons, List.sum_nil, htwo,
        add_zero] at hvalue
      obtain ⟨version, hopens⟩ := (hcells.output one (by simp [hout])).opens
      exact ⟨⟨one, version, hopens, hhash, hvalue⟩, h5.trans (congrArg some hhash)⟩
    · rw [if_neg hmint] at hvalue
      exact absurd hvalue.symm hw

include hnull in
/-- With the pattern of a burn, the hash is the input leaf and the value that of its note. -/
theorem UtxoProves.nullifierOf (h : UtxoProves O D inst c w) (hw : w ≠ 0)
    (hpattern : BurnPattern inst) : NullifierOf O c w ∧ inst[3]? = some c := by
  obtain ⟨cells, hcells, hhash, hvalue⟩ := h.constrained
  obtain ⟨first, second, one, two, hin, hout, h3, h4, h5, h6⟩ := constrained_pairs hcells
  obtain ⟨hp4, hp5, hp6⟩ := hpattern
  rw [hp4, Option.some_inj] at h4
  rw [hp5, Option.some_inj] at h5
  rw [hp6, Option.some_inj] at h6
  have hsecond := input_value_zero hnull (hcells.input second (by simp [hin])) h4.symm
  have hone := output_value_zero hnull (hcells.output one (by simp [hout])) h5.symm
  have htwo := output_value_zero hnull (hcells.output two (by simp [hout])) h6.symm
  rw [UtxoCells.mbValue] at hvalue
  rw [UtxoCells.mbHash] at hhash
  by_cases hburn : cells.isBurn
  · rw [if_pos hburn, UtxoCells.totalIn, hin] at hvalue
    rw [if_pos hburn, UtxoCells.nullifiers, hin] at hhash
    simp only [List.map_cons, List.map_nil, List.sum_cons, List.sum_nil, hsecond,
      add_zero] at hvalue
    have hfirst := hcells.input first (by simp [hin])
    obtain ⟨version, path, hspends⟩ := hfirst.spends
    have hleaf := hfirst.nullifier_eq
    rw [hvalue, if_neg hw, hspends.nullifier_eq] at hleaf
    exact ⟨⟨first.note.commitment, version, first.note.secretKey, hspends.opens,
      hspends.nullifier_hashed, hleaf.symm.trans hhash, hvalue⟩, h3.trans (congrArg some hhash)⟩
  · rw [if_neg hburn] at hvalue
    by_cases hmint : cells.isMint
    · rw [if_pos hmint, UtxoCells.totalOut, hout] at hvalue
      simp only [List.map_cons, List.map_nil, List.sum_cons, List.sum_nil, hone, htwo,
        add_zero] at hvalue
      exact absurd hvalue.symm hw
    · rw [if_neg hmint] at hvalue
      exact absurd hvalue.symm hw

end Binding

section Contract

open VerifierContracts Transactions RollupState RollupCalls RollupEffects RollupReverts
  CallBacks PaymentLog PaymentEffects

variable {τ : Type} (env : Externals τ)

/-- The mint circuit accepted the commitment with the amount. -/
def MintVerified (c v : Element) : Prop :=
  ∃ proof source, Verified env.mintPlonk proof [c, v, source]

/-- Every amount of the contract was verified by a circuit. -/
structure Registered (s : Rollup τ) : Prop where
  minted : ∀ c, s.mints c ≠ 0#256 → MintVerified env c (s.mints c)
  burned : ∀ c, (s.burns c).amount ≠ 0#256 → BurnVerified env c (s.burns c).amount
  routed : ∀ c, s.burnsKind c = 1#256 → BurnVerified env c (s.burnsToRouter c).amount
  kinds : ∀ c, s.burnsKind c = 0#256 ∨ s.burnsKind c = 1#256

def Keeps (s s' : Rollup τ) : Prop := Registered env s → Registered env s'

instance : IsPreorder (Rollup τ) (Keeps env) where
  refl := fun _ h => h
  trans := fun _ _ _ h h' hs => h' (h hs)

/-- The amount of a burn that the contract finds. -/
def registeredBurn (s : Rollup τ) (c : Element) : Option Element :=
  if s.burnsKind c = 0#256 then
    if (s.burns c).amount = 0#256 then none else some (s.burns c).amount
  else if s.burnsKind c = 1#256 then some (s.burnsToRouter c).amount
  else none

variable {env} {s : Rollup τ}

theorem Registered.burnVerified (h : Registered env s) (c v : Element)
    (hburn : registeredBurn s c = some v) : BurnVerified env c v := by
  unfold registeredBurn at hburn
  split at hburn
  · split at hburn
    · cases hburn
    · rename_i hamount
      obtain rfl := Option.some.inj hburn
      exact h.burned c hamount
  · split at hburn
    · rename_i hkind
      obtain rfl := Option.some.inj hburn
      exact h.routed c hkind
    · cases hburn

theorem Registered.setMint (h : Registered env s) (chain : τ) (c v : Element)
    (hverified : MintVerified env c v) :
    Registered env { s with chain, mints := Function.update s.mints c v } := by
  refine ⟨fun k hk => ?_, h.burned, h.routed, h.kinds⟩
  dsimp only at hk ⊢
  by_cases heq : k = c
  · subst heq
    rwa [Function.update_self]
  · rw [Function.update_of_ne heq] at hk ⊢
    exact h.minted k hk

theorem Registered.setBurn (h : Registered env s) (c : Element) (burn : RollupState.Burn)
    (hverified : BurnVerified env c burn.amount) :
    Registered env { s with
      burnsKind := Function.update s.burnsKind c 0#256
      burns := Function.update s.burns c burn } := by
  refine ⟨h.minted, fun k hk => ?_, fun k hk => ?_, fun k => ?_⟩
  · dsimp only at hk ⊢
    by_cases heq : k = c
    · subst heq
      rwa [Function.update_self]
    · rw [Function.update_of_ne heq] at hk ⊢
      exact h.burned k hk
  · dsimp only at hk ⊢
    by_cases heq : k = c
    · subst heq
      rw [Function.update_self] at hk
      cases hk
    · rw [Function.update_of_ne heq] at hk
      exact h.routed k hk
  · dsimp only
    by_cases heq : k = c
    · subst heq
      exact Or.inl (Function.update_self ..)
    · rw [Function.update_of_ne heq]
      exact h.kinds k

theorem Registered.setBurnToRouter (h : Registered env s) (c : Element) (burn : BurnToRouter)
    (hverified : BurnVerified env c burn.amount) :
    Registered env { s with
      burnsKind := Function.update s.burnsKind c 1#256
      burnsToRouter := Function.update s.burnsToRouter c burn } := by
  refine ⟨h.minted, h.burned, fun k hk => ?_, fun k => ?_⟩
  · dsimp only at hk ⊢
    by_cases heq : k = c
    · subst heq
      rwa [Function.update_self]
    · rw [Function.update_of_ne heq] at hk ⊢
      exact h.routed k hk
  · dsimp only
    by_cases heq : k = c
    · subst heq
      exact Or.inr (Function.update_self ..)
    · rw [Function.update_of_ne heq]
      exact h.kinds k

/-- Requests register what a circuit verified; a substitution keeps the amount. -/
theorem keeps_admissible : Admissible env (Keeps env) := by
  refine ⟨fun s chain h => ⟨h.minted, h.burned, h.routed, h.kinds⟩, fun s s' hregisters h => ?_, ?_⟩
  · cases hregisters with
    | mint chain proof c v source _ hverified =>
      exact h.setMint chain c v ⟨proof, source, hverified⟩
    | burn toAddr proof c v source sig _ _ hverified =>
      exact h.setBurn c ⟨toAddr, v⟩ (Or.inl ⟨proof, _, source, sig, hverified⟩)
    | burnToAddress toAddr proof c v source sig _ _ hverified =>
      exact h.setBurn c ⟨bytes32ToAddress toAddr, v⟩ (Or.inr ⟨proof, _, _, source, sig, hverified⟩)
    | burnToRouter msgHash proof c v source sig router routerCalldata returnAddress _ _ hverified =>
      exact h.setBurnToRouter c ⟨router, routerCalldata, v, returnAddress⟩
        (Or.inr ⟨proof, _, _, source, sig, hverified⟩)
  · intro routerCall hrouter sender c amount s s' hsubstitutes h
    obtain ⟨chain, t, hexecuted, rfl⟩ := hsubstitutes.executed
    have hburn : Respects (Keeps env) (executeBurn env routerCall c amount) :=
      respects_executeBurn routerCall (fun _ _ h => ⟨h.minted, h.burned, h.routed, h.kinds⟩)
        hrouter c amount
    have ht : Registered env t :=
      hburn.relates _ _ _ hexecuted ⟨h.minted, h.burned, h.routed, h.kinds⟩
    refine ht.setBurn c ⟨sender, amount⟩ ?_
    rcases executeBurn_amount env _ _ routerCall c amount hexecuted with
      ⟨-, hamount, hsame⟩ | ⟨hkind, hsame⟩
    · rw [← hsame]
      exact h.burned c hamount
    · rw [← hsame]
      exact h.routed c hkind

section Calls

variable {routerCall : Address → Bytes → Element → RollupM τ Bool}
  (hrouter : ∀ router routerCalldata gas,
    Respects (Keeps env) (routerCall router routerCalldata gas))

include hrouter

/-- The transactions of a block register nothing new. -/
theorem keeps_verifyTxns (pairs : List (Element × Element)) :
    Respects (Keeps env) (pairs.forM fun pair => verifyTxn env routerCall pair.1 pair.2) := by
  apply respects_forM
  intro pair _
  exact respects_verifyTxn _ (fun _ _ h => ⟨h.minted, h.burned, h.routed, h.kinds⟩)
    (fun _ _ h => ⟨h.minted, h.burned, h.routed, h.kinds⟩) hrouter _ _

theorem keeps_call (sender : Address) (c : Call τ) :
    Respects (Keeps env) (call env routerCall sender c) := by
  refine ⟨fun s u s' h hs => ?_⟩
  cases call_cases env routerCall sender c s s' u h with
  | request r _ hrequest =>
    exact (keeps_admissible.request _ hrouter sender r).relates _ _ _ hrequest hs
  | verifyBlock2 args _ hblock =>
    obtain ⟨t, hexecuted, -, rfl⟩ := (verifyBlock2_verifies env _ sender args s _ hblock).executed
    have hpairs : Respects (Keeps env) ([0, 3, 6, 9, 12, 15].forM fun i =>
        verifyTxn env routerCall (args.utxoHash (i + 1)) (args.utxoHash (i + 2))) :=
      keeps_verifyTxns hrouter ([0, 3, 6, 9, 12, 15].map fun i =>
        (args.utxoHash (i + 1), args.utxoHash (i + 2)))
    have ht : Registered env t :=
      hpairs.relates _ _ _ hexecuted ⟨hs.minted, hs.burned, hs.routed, hs.kinds⟩
    exact ⟨ht.minted, ht.burned, ht.routed, ht.kinds⟩
  | setRoot newRoot => exact ⟨hs.minted, hs.burned, hs.routed, hs.kinds⟩
  | setValidators validFrom validators => exact ⟨hs.minted, hs.burned, hs.routed, hs.kinds⟩
  | settings c chain owner provers routerWhitelist gasPerRouterCall =>
    exact ⟨hs.minted, hs.burned, hs.routed, hs.kinds⟩

end Calls

section NestedCalls

variable (routers : RouterCalls τ) (depth : ℕ)

theorem keeps_nestedCall (router : Address × Bytes × Element → RollupM τ Bool)
    (hrouter : ∀ args, Respects (Keeps env) (router args)) (sender : Address) (c : Call τ) :
    Respects (Keeps env) (nestedCall env router sender c) :=
  keeps_call (fun address routerCalldata gas => hrouter (address, routerCalldata, gas)) sender c

theorem keeps_calleeAt (args : Address × Bytes × Element) :
    Respects (Keeps env) (calleeAt id (nestedCall env) routers depth args) :=
  calleeAt_respects id (fun _ _ => True) (nestedCall env) routers
    (fun router hrouter _ sender c _ => keeps_nestedCall router hrouter sender c)
    (fun _ _ => Script.within_of_forall _ (fun _ _ => trivial) _) depth args

theorem registered_runNested (txs : List (Address × Call τ)) (h : Registered env s) :
    Registered env (runNestedCalls env routers depth s txs) := by
  have hrun : Keeps env s (runNestedCalls env routers depth s txs) :=
    runNested_relates id (fun _ _ => True) (nestedCall env) routers
      (fun router hrouter _ sender c _ => keeps_nestedCall router hrouter sender c)
      (fun _ _ => Script.within_of_forall _ (fun _ _ => trivial) _) depth s txs
      fun _ _ => trivial
  exact hrun h

theorem registered_run (routers : Routers τ) (txs : List (Address × Call τ))
    (h : Registered env s) : Registered env (runCalls env routers depth s txs) := by
  rw [runCalls_eq_nested]
  exact registered_runNested (ofRouters routers) depth txs h

end NestedCalls

theorem registered_initial (chain : τ) (owner prover : Address)
    (initialValidators : List Address) (emptyRoot : Element) :
    Registered env (initialState chain owner prover initialValidators emptyRoot) :=
  ⟨fun _ h => absurd rfl h, fun _ h => absurd rfl h, nofun, fun _ => Or.inl rfl⟩

end Contract

section Node

open SmirkTree NodeBlocks BlockValidation NodeAdmission

variable {nodeEnv : NodeEnv} {D : ℕ}

/-- The instances of a proof as field elements. -/
def fieldInstances (utxo : UtxoProof) : List Fr := utxo.instances.map Element.toBase

/-- The leaves have a pattern, and the contract answered for the one leaf. -/
theorem checkContract_registered (contract : ContractView) (safeEthHeight : ℕ) (utxo : UtxoProof)
    (h : checkContract contract safeEthHeight utxo = .ok ()) :
    (MintPattern (fieldInstances utxo) ∧ ∃ mint, mint ≠ 0#256 ∧
      contract.getMint safeEthHeight utxo.outputLeaves.1 = some mint) ∨
      BurnPattern (fieldInstances utxo) ∧
        contract.hasBurn safeEthHeight utxo.inputLeaves.1 = some true := by
  have hzero : Element.toBase 0#256 = 0 := Element.toBase_zero
  unfold checkContract at h
  split at h
  · rename_i hmint
    refine Or.inl ⟨⟨?_, ?_, ?_⟩, ?_⟩
    · simp [fieldInstances, UtxoProof.instances, UtxoProof.leaves, hmint.1, hzero]
    · simp [fieldInstances, UtxoProof.instances, UtxoProof.leaves, hmint.1, hzero]
    · simp [fieldInstances, UtxoProof.instances, UtxoProof.leaves, hmint.2, hzero]
    · cases hanswer : contract.getMint safeEthHeight utxo.outputLeaves.1 with
      | none =>
        rw [hanswer] at h
        cases h
      | some mint =>
        rw [hanswer] at h
        refine ⟨mint, fun hnone => ?_, rfl⟩
        subst hnone
        cases h
  · split at h
    · rename_i hburn
      refine Or.inr ⟨⟨?_, ?_, ?_⟩, ?_⟩
      · simp [fieldInstances, UtxoProof.instances, UtxoProof.leaves, hburn.1, hzero]
      · simp [fieldInstances, UtxoProof.instances, UtxoProof.leaves, hburn.2, hzero]
      · simp [fieldInstances, UtxoProof.instances, UtxoProof.leaves, hburn.2, hzero]
      · cases hanswer : contract.hasBurn safeEthHeight utxo.inputLeaves.1 with
        | none =>
          rw [hanswer] at h
          cases h
        | some found =>
          rw [hanswer] at h
          cases found with
          | true => rfl
          | false => cases h
    · cases h

theorem checkContract_pattern (contract : ContractView) (safeEthHeight : ℕ) (utxo : UtxoProof)
    (h : checkContract contract safeEthHeight utxo = .ok ()) :
    MintPattern (fieldInstances utxo) ∨ BurnPattern (fieldInstances utxo) := by
  rcases checkContract_registered contract safeEthHeight utxo h with ⟨hmint, -⟩ | ⟨hburn, -⟩
  · exact Or.inl hmint
  · exact Or.inr hburn

end Node

section Agreement

open VerifierContracts Transactions RollupState RollupCalls RollupEffects RollupReverts
  PaymentEffects SmirkTree NodeBlocks BlockValidation NodeAdmission

variable {τ : Type}

/-- The generated verifiers of the contract accept what some witness satisfies. -/
structure ContractSound (O : HashOracle Fr) (env : Externals τ) : Prop where
  mint : ∀ inst proof, env.mintPlonk inst proof = true → MintAccepts O 1 inst
  burn : ∀ inst proof, env.burnPlonk inst proof = true → BurnAccepts O 1 inst
  burnTo : ∀ inst proof, env.burnPlonkV2 inst proof = true → BurnToAccepts O 1 inst

/-- The verifier of the node accepts what some witness satisfies. -/
def NodeSound (O : HashOracle Fr) (D : ℕ) (nodeEnv : NodeEnv) : Prop :=
  ∀ inst proof, nodeEnv.verifyProof inst proof = some true → UtxoAccepts O D inst

/-- An instance as the prover submits it: the field element that was proved. -/
def submitted (e : Element) : Element := Element.fromBase e.toBase

variable {O} {env : Externals τ} (hsound : ContractSound O env)

include hsound in
theorem MintVerified.proves {c v : Element} (h : MintVerified env c v) :
    v.toNat < modulus ∧ MintProves O c.toBase v.toBase := by
  obtain ⟨proof, source, hcanonical, hplonk⟩ := h
  have hvalue := hcanonical v (List.mem_cons_of_mem _ List.mem_cons_self)
  exact ⟨hvalue, 1, _, 0, Nat.one_pos, hsound.mint _ proof hplonk, rfl, rfl⟩

include hsound in
theorem burnVerified_proves {c v : Element} (h : BurnVerified env c v) :
    v.toNat < modulus ∧ BurnProves O c.toBase v.toBase := by
  rcases h with ⟨proof, toAddr, source, sig, hcanonical, hplonk⟩ |
    ⟨proof, kind, toAddr, source, sig, hcanonical, hplonk⟩
  · have hvalue := hcanonical v (by simp)
    exact ⟨hvalue, Or.inl ⟨1, _, 0, Nat.one_pos, hsound.burn _ proof hplonk, rfl, rfl⟩⟩
  · have hvalue := hcanonical v (by simp)
    exact ⟨hvalue, Or.inr ⟨1, _, 0, Nat.one_pos, hsound.burnTo _ proof hplonk, rfl, rfl⟩⟩

variable (hO : O.CollisionFree) (hnull : O.NoNullPreimage) {D : ℕ} {inst : List Fr}

include hO hnull in
/-- What a circuit registers and what a UTXO proof exposes have one amount. -/
theorem registration_agrees {c v w : Fr} (h : UtxoProves O D inst c w) (hw : w ≠ 0) :
    (MintProves O c v → MintPattern inst → v = w) ∧
      (BurnProves O c v → BurnPattern inst → v = w) := by
  constructor
  · intro hmint hpattern
    exact hmint.commitmentOf.value_eq hO hnull (h.commitmentOf hnull hw hpattern).1
  · intro hburn hpattern
    exact hburn.nullifierOf.value_eq hO hnull (h.nullifierOf hnull hw hpattern).1

include hO hnull in
/-- A hash that is both a commitment and a nullifier does not exist, so the pattern need not be
known beforehand. -/
theorem registration_amount {c v w : Fr} (h : UtxoProves O D inst c w) (hw : w ≠ 0)
    (hpattern : MintPattern inst ∨ BurnPattern inst)
    (hproves : MintProves O c v ∨ BurnProves O c v) : v = w := by
  rcases hpattern with hmint | hburn
  · have hcommitment := (h.commitmentOf hnull hw hmint).1
    rcases hproves with hproves | hproves
    · exact (registration_agrees hO hnull h hw).1 hproves hmint
    · exact absurd hproves.nullifierOf (hcommitment.not_nullifier hO hnull)
  · have hnullifier := (h.nullifierOf hnull hw hburn).1
    rcases hproves with hproves | hproves
    · exact absurd hnullifier (hproves.commitmentOf.not_nullifier hO hnull)
    · exact (registration_agrees hO hnull h hw).2 hproves hburn

theorem submitted_ne_zero (e : Element) (h : submitted e ≠ 0#256) : e.toBase ≠ 0 := by
  intro hzero
  refine h ?_
  rw [submitted, hzero, ← Element.toBase_zero]
  exact Element.fromBase_toBase Element.zero modulus_prime.pos

include hsound hO hnull in
/-- The amounts the circuits verified for a hash are those of a transaction with the hash. -/
theorem verified_amount (utxo : UtxoProof) (v : Element)
    (hutxo : UtxoProves O D (fieldInstances utxo) utxo.mbHash.toBase utxo.mbValue.toBase)
    (hvalue : submitted utxo.mbValue ≠ 0#256)
    (hpattern : MintPattern (fieldInstances utxo) ∨ BurnPattern (fieldInstances utxo))
    (hv : MintVerified env (submitted utxo.mbHash) v ∨ BurnVerified env (submitted utxo.mbHash) v) :
    v = submitted utxo.mbValue := by
  have hproves : v.toNat < modulus ∧
      (MintProves O utxo.mbHash.toBase v.toBase ∨ BurnProves O utxo.mbHash.toBase v.toBase) := by
    rcases hv with hv | hv
    · obtain ⟨hlt, hproves⟩ := hv.proves hsound
      rw [submitted, Element.toBase_fromBase] at hproves
      exact ⟨hlt, Or.inl hproves⟩
    · obtain ⟨hlt, hproves⟩ := burnVerified_proves hsound hv
      rw [submitted, Element.toBase_fromBase] at hproves
      exact ⟨hlt, Or.inr hproves⟩
  have hsame := registration_amount hO hnull hutxo (submitted_ne_zero _ hvalue) hpattern hproves.2
  rw [submitted, ← hsame, Element.fromBase_toBase v hproves.1]

include hsound hO hnull in
/-- No state with verified amounts rejects the amount of a transaction with such a pattern. -/
theorem amount_checks_pass {s : Rollup τ} (hs : Registered env s) (utxo : UtxoProof)
    (hutxo : UtxoProves O D (fieldInstances utxo) utxo.mbHash.toBase utxo.mbValue.toBase)
    (hvalue : submitted utxo.mbValue ≠ 0#256)
    (hpattern : MintPattern (fieldInstances utxo) ∨ BurnPattern (fieldInstances utxo))
    {e : Revert} (he : TxnReverts s (submitted utxo.mbHash) (submitted utxo.mbValue) e) :
    e ≠ .reason "RollupV6: Invalid mint amount" ∧ e ≠ .reason "RollupV6: Invalid burn amount" := by
  have hamount := fun v => verified_amount hsound hO hnull utxo v hutxo hvalue hpattern
  cases he with
  | mintAmount hmint hother => exact absurd (hamount _ (Or.inl (hs.minted _ hmint))) hother
  | burnAmount hmint hkind hburn hother =>
    exact absurd (hamount _ (Or.inr (hs.burned _ hburn))) hother
  | routerAmount hmint hkind hother =>
    exact absurd (hamount _ (Or.inr (hs.routed _ hkind))) hother
  | notFound => exact ⟨by simp, by simp⟩
  | token data => exact ⟨by simp, by simp⟩

include hsound hO hnull in
theorem registeredBurn_unique {s t : Rollup τ} (hs : Registered env s) (ht : Registered env t)
    {c v w : Element} (hv : registeredBurn s c = some v) (hw : registeredBurn t c = some w) :
    v = w := by
  obtain ⟨hvlt, hvproves⟩ := burnVerified_proves hsound (hs.burnVerified c v hv)
  obtain ⟨hwlt, hwproves⟩ := burnVerified_proves hsound (ht.burnVerified c w hw)
  exact Element.toBase_inj v w hvlt hwlt
    (hvproves.nullifierOf.value_eq hO hnull hwproves.nullifierOf)

include hsound hO hnull in
theorem registeredBurn_none {s t : Rollup τ} (hs : Registered env s) (ht : Registered env t)
    {c : Element} (hmint : s.mints c ≠ 0#256) : registeredBurn t c = none := by
  cases hburn : registeredBurn t c with
  | none => rfl
  | some v =>
    have hcommitment := ((hs.minted c hmint).proves hsound).2.commitmentOf
    have hnullifier := (burnVerified_proves hsound (ht.burnVerified c v hburn)).2.nullifierOf
    exact absurd hnullifier (hcommitment.not_nullifier hO hnull)

end Agreement

section Runs

open VerifierContracts Transactions RollupState RollupCalls RollupEffects RollupReverts
  CallBacks PaymentLog PaymentEffects SmirkTree NodeBlocks BlockValidation NodeAdmission

variable {τ : Type} {D : ℕ}

theorem calleeAt_total (env : Externals τ) (routers : RouterCalls τ) (depth : ℕ)
    (args : Address × Bytes × Element) (s : Rollup τ) (e : Revert) :
    ¬Reverts (calleeAt id (nestedCall env) routers depth args) s e := by
  cases depth with
  | zero => exact not_reverts_pure s e false
  | succ depth =>
    unfold Reverts calleeAt
    simp

/-- Without a message of hash zero a hash has one amount: in the circuits, in every two states of
the contract, and in the checks it makes on a transaction that a node has admitted. Routers may
make any calls. -/
theorem amounts_bound (O : HashOracle Fr) (hO : O.CollisionFree) (hnull : O.NoNullPreimage)
    (env : Externals τ) (hsound : ContractSound O env) (nodeEnv : NodeEnv)
    (hnode : NodeSound O D nodeEnv) (routers : RouterCalls τ) (depth : ℕ) (chain : τ)
    (owner prover : Address) (initialValidators : List Address) (emptyRoot : Element) :
    let after := fun txs => runNestedCalls env routers depth
      (initialState chain owner prover initialValidators emptyRoot) txs
    let verify := fun pair : Element × Element =>
      verifyTxn env (fun router routerCalldata gas =>
        calleeAt id (nestedCall env) routers depth (router, routerCalldata, gas)) pair.1 pair.2
    (∀ depth inst c v w, UtxoProves O depth inst c w → w ≠ 0 →
      (MintProves O c v → MintPattern inst → v = w) ∧
        (BurnProves O c v → BurnPattern inst → v = w)) ∧
    (∀ txs txs' c v w, registeredBurn (after txs) c = some v →
      registeredBurn (after txs') c = some w → v = w) ∧
    (∀ txs txs' c, (after txs).mints c ≠ 0#256 → registeredBurn (after txs') c = none) ∧
    ∀ mode safeEthHeightOffset contract utxo height store (tree : Tree D),
      validateTransaction nodeEnv mode safeEthHeightOffset contract utxo height store tree =
        .ok () →
      utxo.mbHash ≠ 0#256 →
        ∀ txs blockHeight earlier t, Commits (List.forM earlier verify)
            ((after txs).updateValidatorSetIndex blockHeight) () t →
          ∀ e, Reverts (verify (submitted utxo.mbHash, submitted utxo.mbValue)) t e →
            e ≠ .reason "RollupV6: Invalid mint amount" ∧
              e ≠ .reason "RollupV6: Invalid burn amount" := by
  intro after verify
  have hafter : ∀ txs, Registered env (after txs) := fun txs =>
    registered_runNested routers depth txs
      (registered_initial chain owner prover initialValidators emptyRoot)
  refine ⟨fun depth inst c v w h hw => registration_agrees hO hnull h hw, ?_, ?_, ?_⟩
  · exact fun txs txs' c v w hv hw =>
      registeredBurn_unique hsound hO hnull (hafter txs) (hafter txs') hv hw
  · exact fun txs txs' c hmint =>
      registeredBurn_none hsound hO hnull (hafter txs) (hafter txs') hmint
  · intro mode safeEthHeightOffset contract utxo height store tree hadmitted hhash txs
      blockHeight earlier t hearlier e hreverts
    obtain ⟨hvalue, hreason⟩ := verifyTxn_reverts _
      (fun router routerCalldata gas => calleeAt_total env routers depth
        (router, routerCalldata, gas)) _ _ hreverts
    obtain ⟨hvalid, hknown⟩ := validateTransaction_ok mode safeEthHeightOffset contract utxo
      height store tree hadmitted
    have hstart : Registered env ((after txs).updateValidatorSetIndex blockHeight) :=
      ⟨(hafter txs).minted, (hafter txs).burned, (hafter txs).routed, (hafter txs).kinds⟩
    have hpairs : Respects (Keeps env) (earlier.forM verify) := keeps_verifyTxns
      (fun router routerCalldata gas => keeps_calleeAt routers depth
        (router, routerCalldata, gas)) earlier
    have ht : Registered env t := hpairs.relates _ _ _ hearlier hstart
    have hnonzero : utxo.mbValue ≠ 0#256 := by
      intro hzero
      rw [hzero] at hvalue
      exact hvalue (Element.fromBase_toBase Element.zero modulus_prime.pos)
    obtain ⟨ethBlock, -, hcheck⟩ := hknown hhash hnonzero
    have hproves : UtxoProves O D (fieldInstances utxo) utxo.mbHash.toBase utxo.mbValue.toBase :=
      ⟨hnode _ utxo.proof hvalid.verified, rfl, rfl⟩
    exact amount_checks_pass hsound hO hnull ht utxo hproves hvalue
      (checkContract_pattern contract _ utxo hcheck) hreason

/-- The key 0, the padding note, its nullifier and a note of 5 are hashed. -/
def fewHash (m : List Fr) : Fr :=
  if m.length = 2 then 1 else if m.length = 4 then 2 else if m[0]? = some 5 then 4 else 3

def fewDecode (x : Fr) : List Fr :=
  if x = 1 then [0, 0] else if x = 2 then [0, 0, 0, 0]
  else if x = 4 then [5, 1, 0, 0, 0, 0] else [0, 1, 0, 0, 0, 0]

def fewMessages : HashOracle Fr := HashOracle.ofDecoder fewHash fewDecode

theorem mem_fewMessages (m : List Fr) (h : fewDecode (fewHash m) = m) : m ∈ fewMessages.messages :=
  h

theorem fewMessages_nonNull : fewMessages.NoNullPreimage := by
  intro m _
  change fewHash m ≠ 0
  unfold fewHash
  split
  · decide
  · split
    · decide
    · split
      · decide
      · decide

def paddingCells : NoteConstraintCells :=
  { value := 0, address := 1, cm := 0, isPadding := 1, source := 0, psi := 0 }

def fiveCells : NoteConstraintCells :=
  { value := 5, address := 1, cm := 4, isPadding := 0, source := 0, psi := 0 }

theorem paddingCells_opens : Opens fewMessages paddingCells 0 :=
  ⟨mem_fewMessages _ (by decide), by decide, by decide⟩

theorem fiveCells_opens : Opens fewMessages fiveCells 0 :=
  ⟨mem_fewMessages _ (by decide), by decide, by decide⟩

theorem paddingCells_constrained : ConstrainedOutput fewMessages paddingCells :=
  ⟨⟨0, paddingCells_opens⟩, by decide⟩

theorem fiveCells_constrained : ConstrainedOutput fewMessages fiveCells :=
  ⟨⟨0, fiveCells_opens⟩, by decide⟩

def paddingInput : UtxoInputCells where
  note := { commitment := paddingCells, nullifier := 2, root := 0, secretKey := 0, zero := 0 }
  root := 0
  nullifier := 0

/-- A mint of 5. -/
def mintCells : UtxoCells where
  unverifiedRoot := 0
  utxoKind := 2
  inputs := [paddingInput, paddingInput]
  outputs := [fiveCells, paddingCells]

theorem paddingInput_constrained : ConstrainedInput fewMessages 1 0 paddingInput := by
  refine ⟨⟨0, [], ?_⟩, by decide, by decide⟩
  exact ⟨paddingCells_opens, rfl, trivial, rfl, mem_fewMessages _ (by decide),
    by decide, mem_fewMessages _ (by decide), by decide, rfl⟩

theorem mintCells_constrained : Constrained fewMessages 1 [0, 4, 5, 0, 0, 4, 0] mintCells := by
  refine ⟨rfl, rfl, ?_, ?_, by decide, ?_, by decide, by decide, ?_⟩
  · simp only [mintCells, List.forall_mem_cons]
    exact ⟨paddingInput_constrained, paddingInput_constrained, by simp⟩
  · simp only [mintCells, List.forall_mem_cons]
    exact ⟨fiveCells_constrained, paddingCells_constrained, by simp⟩
  · simp [mintCells, paddingInput]
  · simp only [mintCells, UtxoCells.nullifiers, UtxoCells.commitments]
    decide

/-- A contract whose mint verifier accepts the mint of 5. -/
def mintingEnv : Externals Unit where
  address := 9#160
  mintPlonk := fun instances _ => decide (instances = [4, 5, 0])
  burnPlonk := fun _ _ => false
  burnPlonkV2 := fun _ _ => false
  aggregatePlonk := fun _ _ => false
  keccak256 := fun _ => 0#256
  recover := fun _ _ _ _ => .error []
  domainSeparator := 0#256
  hasCode := fun _ _ => false
  isBlacklisted := fun _ _ => false
  transfer := fun chain _ _ => .ok chain
  transferFrom := fun chain _ _ _ => .ok chain
  approve := fun chain _ _ => .ok chain
  receiveWithAuthorization := fun chain _ _ _ _ _ _ _ _ _ => .ok chain

theorem mintingEnv_sound : ContractSound fewMessages mintingEnv := by
  refine ⟨fun inst proof h => ?_, nofun, nofun⟩
  obtain rfl := of_decide_eq_true h
  refine ⟨⟨Vector.replicate 1 Note.default⟩, (sat_mint _ _ _ _ _).mpr fun i hi => ?_⟩
  obtain rfl : i = 0 := by omega
  exact ⟨fiveCells, 0, fiveCells_opens, rfl, rfl, rfl⟩

/-- A node whose verifier accepts the UTXO proof of the mint of 5. -/
def mintingNode : NodeEnv :=
  { BlockCommit.trustingEnv with
    verifyProof := fun instances _ => some (decide (instances = [0, 4, 5, 0, 0, 4, 0])) }

theorem mintingNode_sound : NodeSound fewMessages 1 mintingNode := by
  intro inst proof h
  obtain rfl := of_decide_eq_true (Option.some.inj h)
  exact (utxoAccepts_iff _ _ _).mpr ⟨mintCells, mintCells_constrained⟩

def mintOfFive : UtxoProof := ⟨0#256, 4#256, 5#256, (0#256, 0#256), (4#256, 0#256), []⟩

theorem mintOfFive_fields : mintOfFive.instances.map Element.toBase = [0, 4, 5, 0, 0, 4, 0] := by
  decide

theorem mintOfFive_verified : mintOfFive.verify mintingNode = some true :=
  congrArg some (decide_eq_true mintOfFive_fields)

theorem mintOfFive_sized : ∀ leaf ∈ mintOfFive.leaves, leaf.toNat < modulus := by
  simp only [mintOfFive, UtxoProof.leaves, List.forall_mem_cons]
  have hzero : (0#256).toNat < modulus := modulus_prime.pos
  have hfour : (4#256).toNat < modulus := by
    have hbig : 4 < modulus := by decide
    simpa using hbig
  exact ⟨hzero, hzero, hfour, hzero, by simp⟩

theorem mintOfFive_validTxn :
    ValidTxn mintingNode .node mintOfFive 1 BlockStore.empty (Tree.new 1) := by
  refine ⟨mintOfFive_verified, Or.inl rfl, mintOfFive_sized, fun leaf _ _ => ?_⟩
  have hempty : (Tree.new 1).entries = [] := by decide
  rw [Tree.containsElement, hempty]
  exact decide_eq_false List.not_mem_nil

theorem mintOfFive_admitted (contract : ContractView) (hblock : contract.blockNumber = some 1)
    (hmint : contract.getMint 1 4#256 = some 5#256) :
    validateTransaction mintingNode .node 0 contract mintOfFive 1 BlockStore.empty (Tree.new 1) =
      .ok () := by
  have hknown : mintOfFive.mbHash ≠ 0#256 ∧ mintOfFive.mbValue ≠ 0#256 := by decide
  have hcheck : checkContract contract (1 - 0) mintOfFive = .ok () := by
    have hpattern : mintOfFive.inputLeaves = (0#256, 0#256) ∧ mintOfFive.outputLeaves.2 = 0#256 :=
      ⟨rfl, rfl⟩
    have hanswer : contract.getMint (1 - 0) mintOfFive.outputLeaves.1 = some 5#256 := hmint
    rw [checkContract, if_pos hpattern, hanswer]
    rfl
  unfold validateTransaction
  rw [(validateTxn_ok _ _ _ _ _).mpr mintOfFive_validTxn, if_pos hknown, hblock]
  change (checkContract contract (1 - 0) mintOfFive >>= fun _ => Except.ok ()) = _
  rw [hcheck]
  rfl

/-- The contract as it is after the mint was registered. -/
def mintView : ContractView := ⟨some 1, fun _ c => some (if c = 4#256 then 5#256 else 0#256),
  fun _ _ => some false⟩

def mintTxs : List (Address × Call Unit) := [(3#160, .request (.mint [] 4#256 5#256 0#256))]

def noRouters : Routers Unit := fun _ _ _ _ => .stop true

theorem mintTxs_mints :
    (runNestedCalls mintingEnv (ofRouters noRouters) 0 (initialState () 7#160 2#160 [1#160] 0#256)
      mintTxs).mints 4#256 = 5#256 := by
  decide

/-- A mint of 5 is registered and admitted, and its amount passes. -/
theorem amounts_bound_mint :
    let s := runNestedCalls mintingEnv (ofRouters noRouters) 0
      (initialState () 7#160 2#160 [1#160] 0#256) mintTxs
    s.mints 4#256 = 5#256 ∧ ∀ e,
      Reverts (verifyTxn mintingEnv (fun router routerCalldata gas =>
        calleeAt id (nestedCall mintingEnv) (ofRouters noRouters) 0
          (router, routerCalldata, gas))
        (submitted 4#256) (submitted 5#256)) (s.updateValidatorSetIndex 0#256) e →
      e ≠ .reason "RollupV6: Invalid mint amount" ∧
        e ≠ .reason "RollupV6: Invalid burn amount" := by
  intro s
  refine ⟨mintTxs_mints, fun e he => ?_⟩
  have hall := amounts_bound fewMessages (HashOracle.ofDecoder_collisionFree fewHash fewDecode)
    fewMessages_nonNull mintingEnv mintingEnv_sound mintingNode mintingNode_sound
    (ofRouters noRouters) 0 () 7#160 2#160 [1#160] 0#256
  obtain ⟨-, -, -, hpasses⟩ := hall
  have hknown : mintOfFive.mbHash ≠ 0#256 := by decide
  have hnone : Commits (List.forM [] fun pair : Element × Element =>
      verifyTxn mintingEnv (fun router routerCalldata gas =>
        calleeAt id (nestedCall mintingEnv) (ofRouters noRouters) 0
          (router, routerCalldata, gas))
        pair.1 pair.2)
      (s.updateValidatorSetIndex 0#256) () (s.updateValidatorSetIndex 0#256) :=
    (commits_pure _ _ _ _).mpr ⟨rfl, rfl⟩
  exact hpasses .node 0 mintView mintOfFive 1 BlockStore.empty (Tree.new 1)
    (mintOfFive_admitted mintView rfl rfl) hknown mintTxs 0#256 [] _ hnone e he

/-- The messages of `fewMessages`, with a note of 7 whose commitment is zero. -/
def nullHash (m : List Fr) : Fr := if m[0]? = some 7 then 0 else fewHash m

def nullDecode (x : Fr) : List Fr := if x = 0 then [7, 1, 0, 0, 0, 0] else fewDecode x

def nullMessages : HashOracle Fr := HashOracle.ofDecoder nullHash nullDecode

theorem mem_nullMessages (m : List Fr) (h : nullDecode (nullHash m) = m) :
    m ∈ nullMessages.messages :=
  h

def sevenCells : NoteConstraintCells :=
  { value := 7, address := 1, cm := 0, isPadding := 0, source := 0, psi := 0 }

theorem nullMessages_opens : Opens nullMessages paddingCells 0 ∧ Opens nullMessages fiveCells 0 ∧
    Opens nullMessages sevenCells 0 := by
  refine ⟨⟨mem_nullMessages _ ?_, ?_, ?_⟩, ⟨mem_nullMessages _ ?_, ?_, ?_⟩,
    ⟨mem_nullMessages _ ?_, ?_, ?_⟩⟩
  all_goals decide

/-- A mint of 5 and 7 whose second output is seen as padding. -/
def hiddenCells : UtxoCells where
  unverifiedRoot := 0
  utxoKind := 2
  inputs := [paddingInput, paddingInput]
  outputs := [fiveCells, sevenCells]

theorem hiddenInput_constrained : ConstrainedInput nullMessages 1 0 paddingInput := by
  refine ⟨⟨0, [], ?_⟩, by decide, by decide⟩
  exact ⟨nullMessages_opens.1, rfl, trivial, rfl, mem_nullMessages _ (by decide),
    by decide, mem_nullMessages _ (by decide), by decide, rfl⟩

theorem hiddenCells_constrained :
    Constrained nullMessages 1 [0, 4, 12, 0, 0, 4, 0] hiddenCells := by
  obtain ⟨-, hfive, hseven⟩ := nullMessages_opens
  refine ⟨rfl, rfl, ?_, ?_, by decide, ?_, by decide, by decide, ?_⟩
  · simp only [hiddenCells, List.forall_mem_cons]
    exact ⟨hiddenInput_constrained, hiddenInput_constrained, by simp⟩
  · simp only [hiddenCells, List.forall_mem_cons]
    exact ⟨⟨⟨0, hfive⟩, by decide⟩, ⟨⟨0, hseven⟩, by decide⟩, by simp⟩
  · simp [hiddenCells, paddingInput]
  · simp only [hiddenCells, UtxoCells.nullifiers, UtxoCells.commitments]
    decide

/-- A commitment of zero hides an output: an injective hash alone does not bind the amount. -/
theorem not_amounts_bound_null : nullMessages.CollisionFree ∧
    UtxoProves nullMessages 1 [0, 4, 12, 0, 0, 4, 0] 4 12 ∧
    MintPattern [0, 4, 12, 0, 0, 4, 0] ∧ MintProves nullMessages 4 5 ∧ (5 : Fr) ≠ 12 := by
  refine ⟨HashOracle.ofDecoder_collisionFree nullHash nullDecode, ⟨?_, rfl, rfl⟩,
    ⟨rfl, rfl, rfl⟩, ⟨1, [4, 5, 0], 0, Nat.one_pos, ?_, rfl, rfl⟩, by decide⟩
  · exact (utxoAccepts_iff _ _ _).mpr ⟨hiddenCells, hiddenCells_constrained⟩
  · refine ⟨⟨Vector.replicate 1 Note.default⟩, (sat_mint _ _ _ _ _).mpr fun i hi => ?_⟩
    obtain rfl : i = 0 := by omega
    exact ⟨fiveCells, 0, nullMessages_opens.2.1, rfl, rfl, rfl⟩

end Runs

end PayyRollup.AmountBinding
