import PayyRollup.OrderlyLogs
import PayyRollup.PayoutSafety
import PayyRollup.PlainProofs
import PayyRollup.RolledBlocks

/-!
The backing of the notes. In every run of the contract with sound verifiers, whose routers only
send requests, each accepted transaction that mints takes a deposit of its own, and each one
that burns is one roll-up of its hash. So no hash is rolled up twice, payouts are safe, and the
balance covers the notes that are left and the deposits that wait for their transaction.
-/
namespace PayyRollup.SupplyBacking

open ScalarField ConstraintProgram Gadgets ElementHash BatchSoundness Notes UtxoCircuit
  BridgeCircuits ValueConservation AmountBinding Aggregation RollupProof VerifierContracts
  Transactions RollupState RollupCalls RollupEffects CallBacks PaymentLog PaymentEffects BurnLife
  TokenLedger PayoutSafety RecordedRoots RootHistory OrderlyLogs RolledBlocks SparseMerkle
open SpentNotes (spends creates spentCm leafHashes mem_spends mem_creates nullifier_ne_zero
  commitment_ne_zero spends_nullifierOf creates_commitmentOf)

section Transactions

variable {O : HashOracle Fr} (hO : O.CollisionFree) (hnull : O.NoNullPreimage) {D : ℕ}

/-- The hash and the value of a pair are those that the proof exposes. -/
structure Exposes (O : HashOracle Fr) (D : ℕ) (pair : Element × Element) (own : UtxoCells) :
    Prop where
  constrained : ∃ column, Constrained O D column own
  hash : own.mbHash = pair.1.toBase
  value : own.mbValue = pair.2.toBase
  sized : pair.1.toNat < modulus ∧ pair.2.toNat < modulus

theorem toBase_val (e : Element) (h : e.toNat < modulus) : e.toBase.val = e.toNat := by
  rw [← Element.fromBase_toNat, Element.fromBase_toBase e h]

theorem minted_of_zero (own : UtxoCells) (h : own.mbValue = 0) :
    minted own = 0 ∧ burned own = 0 := by
  unfold minted burned
  rw [h, ZMod.val_zero, ite_self, ite_self]
  exact ⟨rfl, rfl⟩

include hnull in
/-- The hash of a burn is a nullifier, unless it is zero. -/
theorem burn_nullifierOf {column : List Fr} {own : UtxoCells} (h : Constrained O D column own)
    (hburn : own.isBurn) (hne : own.mbHash ≠ 0) :
    (∃ v, NullifierOf O own.mbHash v) ∧ own.mbHash ∈ leafHashes own := by
  obtain ⟨first, second, one, two, hin, hout, -⟩ := constrained_pairs h
  have hhash : own.mbHash = first.nullifier := by
    rw [UtxoCells.mbHash, if_pos hburn, UtxoCells.nullifiers, hin]
    rfl
  have hmem : first ∈ own.inputs := by simp [hin]
  rw [hhash] at hne
  have hvalue := (nullifier_ne_zero hnull h first hmem).mp hne
  have hspent : first ∈ spends own := List.mem_filter.mpr ⟨hmem, decide_eq_true hvalue⟩
  rw [hhash]
  refine ⟨⟨_, spends_nullifierOf (h.input first hmem) hvalue⟩, ?_⟩
  exact List.mem_append_left _ (List.mem_map_of_mem hspent)

include hnull in
/-- The hash of a mint is a commitment. -/
theorem mint_commitmentOf {column : List Fr} {own : UtxoCells} (h : Constrained O D column own)
    (hburn : ¬own.isBurn) (hmint : own.isMint) :
    (∃ v, CommitmentOf O own.mbHash v) ∧ (own.mbHash ≠ 0 → own.mbHash ∈ leafHashes own) := by
  obtain ⟨first, second, one, two, hin, hout, -⟩ := constrained_pairs h
  have hhash : own.mbHash = one.cm := by
    rw [UtxoCells.mbHash, if_neg hburn, if_pos hmint, UtxoCells.commitments, hout]
    rfl
  have hmem : one ∈ own.outputs := by simp [hout]
  rw [hhash]
  refine ⟨⟨_, creates_commitmentOf (h.output one hmem)⟩, fun hne => ?_⟩
  have hvalue := (commitment_ne_zero hnull h one hmem).mp hne
  have hcreated : one ∈ creates own := List.mem_filter.mpr ⟨hmem, decide_eq_true hvalue⟩
  exact List.mem_append_right _ (List.mem_map_of_mem hcreated)

variable {τ : Type} {env : Externals τ} (hsound : ContractSound O env) {n v : Element}
  {own : UtxoCells}

theorem value_ne_zero (h : Exposes O D (n, v) own) (hv : v ≠ 0#256) : own.mbValue ≠ 0 := by
  rw [h.value]
  intro hzero
  exact hv ((Element.toBase_eq_zero v h.sized.2).mp hzero)

include hO hnull hsound in
/-- A transaction whose hash was minted mints its value. -/
theorem minted_of_verified (h : Exposes O D (n, v) own) (hv : v ≠ 0#256)
    (hverified : MintVerified env n v) :
    minted own = v.toNat ∧ burned own = 0 ∧ own.mbHash ∈ leafHashes own := by
  obtain ⟨column, hconstrained⟩ := h.constrained
  have hvalue := value_ne_zero h hv
  have hcommitment := (hverified.proves hsound).2.commitmentOf
  have hhash : own.mbHash = n.toBase := h.hash
  have hne : own.mbHash ≠ 0 := by
    intro hzero
    obtain ⟨cells, version, hopens, hcm, hcells⟩ := hcommitment
    rw [← hhash, hzero] at hcm
    have hcells' := (opens_cm_eq_zero hnull hopens).mp hcm
    rw [hcells, ← h.value] at hcells'
    exact hvalue hcells'
  have hburn : ¬own.isBurn := by
    intro hburn
    obtain ⟨⟨w, hnullifier⟩, -⟩ := burn_nullifierOf hnull hconstrained hburn hne
    rw [hhash] at hnullifier
    exact hcommitment.not_nullifier hO hnull hnullifier
  have hmint : own.isMint := by
    by_contra hmint
    exact hvalue (mbValue_transfer hmint hburn)
  refine ⟨?_, if_neg hburn, (mint_commitmentOf hnull hconstrained hburn hmint).2 hne⟩
  rw [minted, if_pos hmint, h.value, toBase_val v h.sized.2]

include hO hnull hsound in
/-- A transaction whose hash was burned burns its value. -/
theorem burned_of_verified (h : Exposes O D (n, v) own) (hv : v ≠ 0#256)
    (hverified : BurnVerified env n v) :
    minted own = 0 ∧ burned own = v.toNat ∧ own.mbHash ∈ leafHashes own := by
  obtain ⟨column, hconstrained⟩ := h.constrained
  have hvalue := value_ne_zero h hv
  have hnullifier := (burnVerified_proves hsound hverified).2.nullifierOf
  have hhash : own.mbHash = n.toBase := h.hash
  have hne : own.mbHash ≠ 0 := by
    obtain ⟨cells, version, secretKey, -, hmem, hhashed, -⟩ := hnullifier
    rw [hhash, ← hhashed]
    exact hnull _ hmem
  have hburn : own.isBurn := by
    by_contra hburn
    by_cases hmint : own.isMint
    · obtain ⟨⟨w, hcommitment⟩, -⟩ := mint_commitmentOf hnull hconstrained hburn hmint
      rw [hhash] at hcommitment
      exact hcommitment.not_nullifier hO hnull hnullifier
    · exact hvalue (mbValue_transfer hmint hburn)
  refine ⟨if_neg (not_mint_of_burn hburn), ?_,
    (burn_nullifierOf hnull hconstrained hburn hne).2⟩
  rw [burned, if_pos hburn, h.value, toBase_val v h.sized.2]

end Transactions

section Matching

variable {O : HashOracle Fr} (hO : O.CollisionFree) (hnull : O.NoNullPreimage) {D : ℕ}
  {τ : Type} {env : Externals τ} (hsound : ContractSound O env) {root₀ : Element}
  {accepted : List BlockArgs} {blocks : List (List (List Fr))} {T : NotesTree D}
  {cells : List UtxoCells} {log : List Entry} {ps rs : List (Element × Element)}

/-- The words of a block are field elements. -/
theorem utxoHash_lt {args : BlockArgs} (h : ∀ e ∈ args.utxoHashes.toList, e.toNat < modulus)
    (i : ℕ) : (args.utxoHash i).toNat < modulus := by
  unfold BlockArgs.utxoHash
  rw [List.getD_eq_getElem?_getD]
  cases hget : args.utxoHashes.toList[i]? with
  | none => exact modulus_prime.pos
  | some e => exact h e (List.mem_of_getElem? hget)

theorem forall₂_trans {α β γ : Type} {R : α → β → Prop} {S : β → γ → Prop} {Q : α → γ → Prop}
    (hQ : ∀ a b c, R a b → S b c → Q a c) {xs : List α} {ys : List β} {zs : List γ}
    (h : List.Forall₂ R xs ys) (h' : List.Forall₂ S ys zs) : List.Forall₂ Q xs zs := by
  induction h generalizing zs with
  | nil =>
    cases h'
    exact .nil
  | cons hfirst _ ih =>
    cases h' with
    | cons hsecond hrest => exact .cons (hQ _ _ _ hfirst hsecond) (ih hrest)

/-- The transactions of the accepted blocks expose what their columns have. -/
theorem exposes_run (h : RolledRun O D root₀ accepted blocks T)
    (hcells : RolledBlocks.Witnessed O D blocks.flatten cells) :
    List.Forall₂ (Exposes O D) (accepted.flatMap pairs) cells := by
  have hcolumns : List.Forall₂ (fun (pair : Element × Element) (column : List Fr) =>
      column[1]? = some pair.1.toBase ∧ column[2]? = some pair.2.toBase ∧
        pair.1.toNat < modulus ∧ pair.2.toNat < modulus)
      (accepted.flatMap pairs) blocks.flatten := by
    clear hcells
    induction h with
    | start => exact .nil
    | block accepted blocks T S args utxos _ hrolls hcanonical _ _ _ _ ih =>
      rw [List.flatMap_append, List.flatten_append, List.flatMap_singleton, List.flatten_singleton]
      refine List.rel_append ih ?_
      refine rollsUp_forall₂ hrolls _ _ fun i column hexposed => ?_
      exact ⟨hexposed 1 (by omega), hexposed 2 (by omega), utxoHash_lt hcanonical _,
        utxoHash_lt hcanonical _⟩
  refine forall₂_trans (fun pair column own hpair hown => ?_) hcolumns hcells
  obtain ⟨hhash, hvalue, hsized⟩ := hpair
  have hmbHash := hown.mb_hash
  have hmbValue := hown.mb_value
  rw [hhash, Option.some_inj] at hmbHash
  rw [hvalue, Option.some_inj] at hmbValue
  exact ⟨⟨column, hown⟩, hmbHash.symm, hmbValue.symm, hsized⟩

/-- How the transactions of the blocks stand to the log. -/
structure Matches (log : List Entry) (rs : List (Element × Element)) (cells : List UtxoCells) :
    Prop where
  burns : rs.map (fun r => (r.1.toBase, r.2.toNat)) =
    (cells.filter fun own => decide (burned own ≠ 0)).map fun own => (own.mbHash, burned own)
  mints : ∀ own ∈ cells, minted own ≠ 0 →
    ∃ c v, (c, v) ∈ mintedAmounts log ∧ c.toBase = own.mbHash ∧ v.toNat = minted own
  leaf : ∀ own ∈ cells, minted own ≠ 0 ∨ burned own ≠ 0 → own.mbHash ∈ leafHashes own

theorem toNat_ne_zero {v : Element} (hv : v ≠ 0#256) : v.toNat ≠ 0 :=
  fun hzero => hv (BitVec.eq_of_toNat_eq hzero)

include hO hnull hsound in
theorem settled_matches (hs : Settled env log ps rs)
    (hcells : List.Forall₂ (Exposes O D) ps cells)
    (hminted : ∀ c v, (c, v) ∈ mintedAmounts log → MintVerified env c v) :
    Matches log rs cells := by
  induction hs generalizing cells with
  | nil =>
    cases hcells
    exact ⟨rfl, by simp, by simp⟩
  | nothing n ps rs _ ih =>
    cases hcells with
    | @cons _ own _ rest hfirst hrest =>
      obtain ⟨hburns, hmints, hleaf⟩ := ih hrest
      have hzero : own.mbValue = 0 := hfirst.value.trans Element.toBase_zero
      obtain ⟨hmint, hburn⟩ := minted_of_zero own hzero
      refine ⟨?_, ?_, ?_⟩
      · rw [hburns, List.filter_cons_of_neg (by simp [hburn])]
      · rw [List.forall_mem_cons]
        exact ⟨fun h => absurd hmint h, hmints⟩
      · rw [List.forall_mem_cons]
        exact ⟨fun h => absurd h (by simp [hmint, hburn]), hleaf⟩
  | mint n v ps rs hv hmem _ ih =>
    cases hcells with
    | @cons _ own _ rest hfirst hrest =>
      obtain ⟨hburns, hmints, hleaf⟩ := ih hrest
      have hamount : (n, v) ∈ mintedAmounts log := (mem_mintedAmounts n v).mpr ⟨hmem, hv⟩
      obtain ⟨hmint, hburn, hown⟩ :=
        minted_of_verified hO hnull hsound hfirst hv (hminted n v hamount)
      refine ⟨?_, ?_, ?_⟩
      · rw [hburns, List.filter_cons_of_neg (by simp [hburn])]
      · rw [List.forall_mem_cons]
        exact ⟨fun _ => ⟨n, v, hamount, hfirst.hash.symm, hmint.symm⟩, hmints⟩
      · rw [List.forall_mem_cons]
        exact ⟨fun _ => hown, hleaf⟩
  | burn n v ps rs hv hverified _ ih =>
    cases hcells with
    | @cons _ own _ rest hfirst hrest =>
      obtain ⟨hburns, hmints, hleaf⟩ := ih hrest
      obtain ⟨hmint, hburn, hown⟩ := burned_of_verified hO hnull hsound hfirst hv hverified
      have hne : burned own ≠ 0 := by
        rw [hburn]
        exact toNat_ne_zero hv
      refine ⟨?_, ?_, ?_⟩
      · rw [List.filter_cons_of_pos (by simp [hne]), List.map_cons, List.map_cons, hburns, hburn,
          hfirst.hash]
      · rw [List.forall_mem_cons]
        exact ⟨fun h => absurd hmint h, hmints⟩
      · rw [List.forall_mem_cons]
        exact ⟨fun _ => hown, hleaf⟩

/-- Transactions with a value have different hashes. -/
theorem hashes_nodup (hbooks : Books O D cells) (keep : UtxoCells → Bool)
    (hleaf : ∀ own ∈ cells, keep own = true → own.mbHash ∈ leafHashes own) :
    ((cells.filter keep).map UtxoCells.mbHash).Nodup := by
  have hdisjoint := (List.nodup_flatMap.mp hbooks.nodup).2
  refine List.pairwise_map.mpr (List.Pairwise.imp_of_mem ?_ (hdisjoint.filter keep))
  intro a b ha hb hab heq
  obtain ⟨hain, hakeep⟩ := List.mem_filter.mp ha
  obtain ⟨hbin, hbkeep⟩ := List.mem_filter.mp hb
  have hmem := hleaf a hain hakeep
  rw [heq] at hmem
  exact hab hmem (hleaf b hbin hbkeep)

theorem sum_filter_ne_zero {α : Type} (f : α → ℕ) (xs : List α) :
    ((xs.filter fun x => decide (f x ≠ 0)).map f).sum = (xs.map f).sum := by
  induction xs with
  | nil => rfl
  | cons x rest ih =>
    by_cases hx : f x = 0
    · rw [List.filter_cons_of_neg (by simp [hx]), ih, List.map_cons, List.sum_cons, hx,
        Nat.zero_add]
    · rw [List.filter_cons_of_pos (by simp [hx]), List.map_cons, List.map_cons, List.sum_cons,
        List.sum_cons, ih]

theorem total_rolledUpIn (log : List Entry) :
    total rolledUpIn log = ((rolledUps log).map fun r => r.2.toNat).sum := by
  induction log with
  | nil => rfl
  | cons e rest ih =>
    have hcons : total rolledUpIn (e :: rest) = rolledUpIn e + total rolledUpIn rest := by
      simp [total]
    rw [hcons, ih]
    cases e with
    | rolledUp n v => simp [rolledUps, rolledUpIn]
    | _ => simp [rolledUps, rolledUpIn]

theorem total_mintedIn (log : List Entry) :
    total mintedIn log = ((mintedAmounts log).map fun m => m.2.toNat).sum := by
  induction log with
  | nil => rfl
  | cons e rest ih =>
    have hcons : total mintedIn (e :: rest) = mintedIn e + total mintedIn rest := by
      simp [total]
    rw [hcons, ih]
    cases e with
    | minted c v =>
      by_cases hv : v = 0#256
      · simp [mintedAmounts, mintedIn, hv]
      · simp [mintedAmounts, mintedIn, hv]
    | _ => simp [mintedAmounts, mintedIn]

/-- The transactions that mint. -/
def mints (cells : List UtxoCells) : List UtxoCells :=
  cells.filter fun own => decide (minted own ≠ 0)

/-- The deposits whose commitment no accepted transaction has minted. -/
def pendingMints (log : List Entry) (cells : List UtxoCells) : List (Element × Element) :=
  (mintedAmounts log).filter fun m => !((mints cells).map UtxoCells.mbHash).contains m.1.toBase

def pendingValue (log : List Entry) (cells : List UtxoCells) : ℕ :=
  ((pendingMints log cells).map fun m => m.2.toNat).sum

theorem mintVerified_canonical {c v : Element} (h : MintVerified env c v) : c.toNat < modulus := by
  obtain ⟨proof, source, hcanonical, -⟩ := h
  exact hcanonical c List.mem_cons_self

/-- The deposits are those of the accepted mints and those that wait. -/
theorem pending_add_minted (hbooks : Books O D cells) (hmatches : Matches log rs cells)
    (honce : ((mintedAmounts log).map Prod.fst).Nodup)
    (hminted : ∀ c v, (c, v) ∈ mintedAmounts log → MintVerified env c v) :
    pendingValue log cells + (cells.map minted).sum = total mintedIn log := by
  have hkeys : ((mintedAmounts log).map fun m => m.1.toBase).Nodup := by
    refine KeyedSums.nodup_keys honce fun a ha b hb heq => ?_
    exact Element.toBase_inj a.1 b.1 (mintVerified_canonical (hminted a.1 a.2 ha))
      (mintVerified_canonical (hminted b.1 b.2 hb)) heq
  have hhashes : ((mints cells).map UtxoCells.mbHash).Nodup :=
    hashes_nodup hbooks _ fun own hown hne =>
      hmatches.leaf own hown (Or.inl (of_decide_eq_true hne))
  have hmatch : ∀ own ∈ mints cells, ∃ m ∈ mintedAmounts log,
      m.1.toBase = own.mbHash ∧ m.2.toNat = minted own := by
    intro own hown
    obtain ⟨hin, hne⟩ := List.mem_filter.mp hown
    obtain ⟨c, v, hmem, hhash, hvalue⟩ := hmatches.mints own hin (of_decide_eq_true hne)
    exact ⟨(c, v), hmem, hhash, hvalue⟩
  have hleft := KeyedSums.leftover_add_matched hkeys hhashes hmatch
  have hpending : pendingMints log cells = (mintedAmounts log).filter fun m =>
      decide (m.1.toBase ∉ (mints cells).map UtxoCells.mbHash) :=
    List.filter_congr fun m _ => by rw [List.contains_eq_mem, decide_not]
  have hsum := sum_filter_ne_zero minted cells
  rw [total_mintedIn, ← hleft, ← hsum, pendingValue, hpending]
  rfl

/-- The roll-ups are those of the accepted burns. -/
theorem rolledUp_eq_burned (hmatches : Matches log (rolledUps log) cells) :
    total rolledUpIn log = (cells.map burned).sum := by
  have hburns := congrArg (List.map Prod.snd) hmatches.burns
  rw [List.map_map, List.map_map] at hburns
  rw [total_rolledUpIn, ← sum_filter_ne_zero burned]
  exact congrArg List.sum hburns

/-- No hash is rolled up twice. -/
theorem rolledUps_nodup (hbooks : Books O D cells) (hmatches : Matches log (rolledUps log) cells) :
    ((rolledUps log).map Prod.fst).Nodup := by
  have hhashes : ((cells.filter fun own => decide (burned own ≠ 0)).map UtxoCells.mbHash).Nodup :=
    hashes_nodup hbooks _ fun own hown hne =>
      hmatches.leaf own hown (Or.inr (of_decide_eq_true hne))
  have hburns := congrArg (List.map Prod.fst) hmatches.burns
  rw [List.map_map, List.map_map] at hburns
  change (rolledUps log).map (fun r => r.1.toBase) = _ at hburns
  refine List.Nodup.of_map Element.toBase ?_
  rw [List.map_map]
  change ((rolledUps log).map fun r => r.1.toBase).Nodup
  rw [hburns]
  exact hhashes

end Matching

section Runs

variable {O : HashOracle Fr} (hO : O.CollisionFree) (hnull : O.NoNullPreimage) {D : ℕ}
  {τ : Type} {env : Externals τ} (hsound : ContractSound O env)

include hO hnull hsound in
/-- Sound circuits bind a hash to one amount. -/
theorem bindsAmount_of_sound : BindsAmount env := by
  intro n v w hv hw
  obtain ⟨hvlt, hvproves⟩ := burnVerified_proves hsound hv
  obtain ⟨hwlt, hwproves⟩ := burnVerified_proves hsound hw
  exact Element.toBase_inj v w hvlt hwlt
    (hvproves.nullifierOf.value_eq hO hnull hwproves.nullifierOf)

variable (ledger : Ledger env) (routers : RouterCalls τ) (depth : ℕ)

/-- The lives of all hashes at the end of a proper run. -/
theorem lives_run (hbinds : BindsAmount env)
    (hrouters : ∀ args s, (routers args s).Within (FairCall ledger.Fair)) (chain : τ)
    (owner prover : Address) (initialValidators : List Address) (emptyRoot : Element)
    (txs : List (Address × Call τ)) (htxs : ∀ tx ∈ txs, FairCall ledger.Fair tx.1 tx.2)
    (hproper : ∀ n, Proper n (runLogged env routers depth
      (initialState chain owner prover initialValidators emptyRoot, []) txs).2) :
    ∃ amountOf : Element → Element, ∀ n, Life (amountOf n) n (runLogged env routers depth
      (initialState chain owner prover initialValidators emptyRoot, []) txs) := by
  obtain ⟨amountOf, hamountOf⟩ : ∃ amountOf : Element → Element,
      ∀ n v, BurnVerified env n v → v = amountOf n := by
    classical
    refine ⟨fun n => if h : ∃ v, BurnVerified env n v then h.choose else 0#256, fun n v hv => ?_⟩
    have hex : ∃ v, BurnVerified env n v := ⟨v, hv⟩
    simp only [dif_pos hex]
    exact hbinds n v _ hv hex.choose_spec
  have hlives := (lives_lawful amountOf ledger.Fair hamountOf).run routers depth hrouters
    (initialState chain owner prover initialValidators emptyRoot, []) txs htxs
  exact ⟨amountOf, fun n => (hlives n).lives (hproper n)
    (initial_life chain owner prover initialValidators emptyRoot _ n)⟩

/-- The balance covers the deposits less the burns rolled up. -/
theorem deposits_covered (hbinds : BindsAmount env)
    (hrouters : ∀ args s, (routers args s).Within (FairCall ledger.Fair)) (chain : τ)
    (owner prover : Address) (initialValidators : List Address) (emptyRoot : Element)
    (hallowed : ledger.allowed chain = 0) (txs : List (Address × Call τ))
    (htxs : ∀ tx ∈ txs, FairCall ledger.Fair tx.1 tx.2)
    (hproper : ∀ n, Proper n (runLogged env routers depth
      (initialState chain owner prover initialValidators emptyRoot, []) txs).2) :
    let p := runLogged env routers depth
      (initialState chain owner prover initialValidators emptyRoot, []) txs
    total mintedIn p.2 ≤ ledger.balance p.1.chain + total rolledUpIn p.2 := by
  intro p
  obtain ⟨amountOf, hlife⟩ := lives_run ledger routers depth hbinds hrouters chain owner prover
    initialValidators emptyRoot txs htxs hproper
  have hcovers : ledger.Covers
      (initialState chain owner prover initialValidators emptyRoot, []) p :=
    (covers_lawful ledger).run routers depth hrouters _ txs htxs
  have hpaid := total_le_of_executed paidIn (fun e => advancedIn e + rolledUpIn e) ?_ p.2
    fun n => life_covered (hlife n)
  · have hsum : total (fun e => advancedIn e + rolledUpIn e) p.2 =
        total advancedIn p.2 + total rolledUpIn p.2 := List.sum_map_add
    have hstart : ledger.allowed
        (initialState chain owner prover initialValidators emptyRoot).chain = 0 := hallowed
    unfold Ledger.Covers at hcovers
    simp only [total_nil] at hcovers
    omega
  · intro e hnone
    cases e with
    | paid n payee v => exact absurd (hnone n) (by simp [executes])
    | _ => rfl

end Runs

section Backing

/-- Fresh storage with the empty tree. -/
abbrev genesis (O : HashOracle Fr) (D : ℕ) {τ : Type} (chain : τ) (owner prover : Address)
    (initialValidators : List Address) : Rollup τ :=
  initialState chain owner prover initialValidators (emptyTreeHash O.hash D)

/-- How the accepted transactions stand to the storage and its log. -/
structure Ledgered (O : HashOracle Fr) (D : ℕ) {τ : Type} (env : Externals τ) (p : Logged τ)
    (cells : List UtxoCells) : Prop where
  books : Books O D cells
  matched : Matches p.2 (rolledUps p.2) cells
  orderly : Orderly p.2
  once : ((mintedAmounts p.2).map Prod.fst).Nodup
  minted : ∀ c v, (c, v) ∈ mintedAmounts p.2 → MintVerified env c v

variable {Proof Accumulator : Type} (V : SnarkVerifier Proof Accumulator)
  (hlimbs : ∀ acc, (V.limbs acc).length = 12) {O : HashOracle Fr} (hO : O.CollisionFree)
  (hnull : O.NoNullPreimage) {D : ℕ} (hD : D ≤ 257)
  (hempty : BatchSoundness.TreeHashed O D (SparseTree.empty (slot (D - 1))))
  {τ : Type} {env : Externals τ} (hsound : ContractSound O env)
  (hgrant : ∀ instances proof, env.aggregatePlonk instances proof = true →
    RollupAccepts V O D instances)
  (routers : Routers τ) (depth : ℕ) (chain : τ) (owner prover : Address)
  (initialValidators : List Address) (txs : List (Address × Call τ))

theorem Ledgered.proper {p : Logged τ} {cells : List UtxoCells} (h : Ledgered O D env p cells)
    (n : Element) : Proper n p.2 :=
  h.orderly.proper (rolledUps_nodup h.books h.matched) n

include hO hnull in
/-- The notes that are left and the deposits that wait are the deposits less the roll-ups. -/
theorem Ledgered.accounts {p : Logged τ} {cells : List UtxoCells} (h : Ledgered O D env p cells) :
    unspentValue cells + pendingValue p.2 cells + total rolledUpIn p.2 = total mintedIn p.2 := by
  have hunspent := h.books.unspent_value hO hnull
  have hpending := pending_add_minted h.books h.matched h.once h.minted
  have hrolled := rolledUp_eq_burned h.matched
  omega

include hO hnull hempty hsound in
theorem ledgered_run {blocks : List (List (List Fr))} {T : NotesTree D} {cells : List UtxoCells}
    (hrun : RolledRun O D (emptyTreeHash O.hash D) (acceptedBlocks env routers depth
      (genesis O D chain owner prover initialValidators) txs) blocks T)
    (hcells : RolledBlocks.Witnessed O D blocks.flatten cells) :
    Ledgered O D env (runLogged env (ofRouters routers) depth
      (genesis O D chain owner prover initialValidators, []) txs) cells := by
  have hsettles := run_settles env routers depth
    (genesis O D chain owner prover initialValidators, []) txs
  have hinitial := initial_recorded env chain owner prover initialValidators
    (emptyTreeHash O.hash D)
  obtain ⟨rs, hrolled, hsettled⟩ := hsettles.settled hinitial
  have hrecorded := hsettles.recorded hinitial
  have hregistered := @registered_run τ env _ depth routers txs
    (registered_initial chain owner prover initialValidators (emptyTreeHash O.hash D))
  rw [runCalls_eq_nested, ← runLogged_state env (ofRouters routers) depth _ [] txs]
    at hregistered
  obtain rfl : rolledUps (runLogged env (ofRouters routers) depth
      (genesis O D chain owner prover initialValidators, []) txs).2 = rs := hrolled
  have hminted : ∀ c v, (c, v) ∈ mintedAmounts (runLogged env (ofRouters routers) depth
      (genesis O D chain owner prover initialValidators, []) txs).2 → MintVerified env c v := by
    intro c v hmem
    have hkept := hrecorded.kept c v hmem
    have hne := ((mem_mintedAmounts c v).mp hmem).2
    rw [← hkept] at hne ⊢
    exact hregistered.minted c hne
  exact ⟨hrun.books hO hnull hempty (emptyTreeHash_toBase O D) hcells,
    settled_matches hO hnull hsound hsettled (exposes_run hrun hcells) hminted,
    hsettles.orderly orderly_nil, hrecorded.once, hminted⟩

include V hlimbs hO hnull hD hempty hsound hgrant in
/-- In every run without `setRoot` no note is spent twice, what is spent was created in an
earlier block, and the balance of the contract covers the notes that are left and the deposits
that wait for their transaction. -/
theorem supply_backed (ledger : Ledger env)
    (hrouters : ∀ args s, (ofRouters routers args s).Within (FairCall ledger.Fair))
    (hallowed : ledger.allowed chain = 0) (hnoset : ∀ tx ∈ txs, ∀ r, tx.2 ≠ .setRoot r)
    (hfair : ∀ tx ∈ txs, FairCall ledger.Fair tx.1 tx.2) :
    let s₀ := genesis O D chain owner prover initialValidators
    let p := runLogged env (ofRouters routers) depth (s₀, []) txs
    p.1 = runCalls env routers depth s₀ txs ∧
      ∃ blocks T, RolledRun O D (emptyTreeHash O.hash D)
          (acceptedBlocks env routers depth s₀ txs) blocks T ∧
        (∃ cells, RolledBlocks.Witnessed O D blocks.flatten cells) ∧
        (∀ earlier utxos later, blocks = earlier ++ utxos :: later → ∀ column ∈ utxos,
          ∀ own, Constrained O D column own → ∀ c ∈ spends own,
            spentCm c ∈ elements earlier) ∧
        ∀ cells, RolledBlocks.Witnessed O D blocks.flatten cells →
          ((cells.flatMap spends).map spentCm).Nodup ∧
          unspentValue cells + pendingValue p.2 cells + total rolledUpIn p.2 =
            total mintedIn p.2 ∧
          unspentValue cells + pendingValue p.2 cells ≤ ledger.balance p.1.chain := by
  intro s₀ p
  have hstart : s₀.currentRootHash = emptyTreeHash O.hash D := addRootHash_current _ _
  obtain ⟨blocks, T, hrun, -, -, -⟩ := rolledRun_run V hlimbs hO hD env routers depth hgrant s₀ _
    hstart (initialState_rootHashes chain owner prover initialValidators _) hempty
    (emptyTreeHash_toBase O D) txs hnoset
  have hstate : p.1 = runCalls env routers depth s₀ txs := by
    rw [runCalls_eq_nested]
    exact runLogged_state env (ofRouters routers) depth s₀ [] txs
  refine ⟨hstate, blocks, T, hrun, hrun.witnessed, fun earlier utxos later hblocks column hcolumn
    own hown c hc => hrun.spent_before hO hnull hempty (emptyTreeHash_toBase O D) earlier utxos
      later hblocks column hcolumn own hown c hc, fun cells hcells => ?_⟩
  have hledgered := ledgered_run hO hnull hempty hsound routers depth chain owner prover
    initialValidators txs hrun hcells
  have haccounts : unspentValue cells + pendingValue p.2 cells + total rolledUpIn p.2 =
      total mintedIn p.2 := hledgered.accounts hO hnull
  have hcovered : total mintedIn p.2 ≤ ledger.balance p.1.chain + total rolledUpIn p.2 :=
    deposits_covered ledger (ofRouters routers) depth
      (bindsAmount_of_sound hO hnull hsound) hrouters chain owner prover initialValidators _
      hallowed txs hfair hledgered.proper
  exact ⟨hledgered.books.spentCm_nodup hO, haccounts, by omega⟩

include V hlimbs hO hnull hD hempty hsound hgrant in
/-- With sound verifiers and routers that only send requests, no hash is rolled up twice or
during its own substitution, and the payouts of every hash are safe, but that the token may
refuse the substitute. -/
theorem payouts_settled (ledger : Ledger env)
    (hrouters : ∀ args s, (ofRouters routers args s).Within (FairCall ledger.Fair))
    (hnoset : ∀ tx ∈ txs, ∀ r, tx.2 ≠ .setRoot r)
    (hfair : ∀ tx ∈ txs, FairCall ledger.Fair tx.1 tx.2) :
    let s₀ := genesis O D chain owner prover initialValidators
    let p := runLogged env (ofRouters routers) depth (s₀, []) txs
    p.1 = runCalls env routers depth s₀ txs ∧ ∀ n, Proper n p.2 ∧ PaidUnlessRefused n p.2 ∧
      ∀ v, .rolledUp n v ∈ p.2 → .registered n v ∈ p.2 := by
  intro s₀ p
  have hstart : s₀.currentRootHash = emptyTreeHash O.hash D := addRootHash_current _ _
  obtain ⟨blocks, T, hrun, -, -, -⟩ := rolledRun_run V hlimbs hO hD env routers depth hgrant s₀ _
    hstart (initialState_rootHashes chain owner prover initialValidators _) hempty
    (emptyTreeHash_toBase O D) txs hnoset
  obtain ⟨cells, hcells⟩ := hrun.witnessed
  have hledgered := ledgered_run hO hnull hempty hsound routers depth chain owner prover
    initialValidators txs hrun hcells
  obtain ⟨amountOf, hlife⟩ := lives_run ledger (ofRouters routers) depth
      (bindsAmount_of_sound hO hnull hsound) hrouters chain owner prover initialValidators _ txs
    hfair hledgered.proper
  refine ⟨?_, fun n => ⟨hledgered.proper n, life_paidUnlessRefused (hlife n), fun v hmem =>
    life_rolledUp (hlife n) hmem⟩⟩
  rw [runCalls_eq_nested]
  exact runLogged_state env (ofRouters routers) depth s₀ [] txs

end Backing

section MintedBlock

open Chips InsertCircuit PlainProofs

/-- The insert of a leaf into the tree of one slot. -/
theorem oneSlot_inserts (x : Fr) :
    Inserts fewMessages 1 ⟨x, 0, x, bitCell (decide (x = 0))⟩ [] :=
  ⟨rfl, trivial, rfl, trivial, rfl, rfl⟩

/-- The column of a mint of 5, and that of padding. -/
def mintColumn : List Fr := [0, 4, 5, 0, 0, 4, 0]

def paddingColumn : List Fr := List.replicate 7 0

def paddingUtxo : UtxoCells where
  unverifiedRoot := 0
  utxoKind := 1
  inputs := [AmountBinding.paddingInput, AmountBinding.paddingInput]
  outputs := [AmountBinding.paddingCells, AmountBinding.paddingCells]

theorem paddingUtxo_constrained : Constrained fewMessages 1 paddingColumn paddingUtxo := by
  refine ⟨rfl, rfl, ?_, ?_, by decide, ?_, by decide, by decide, ?_⟩
  · simp only [paddingUtxo, List.forall_mem_cons]
    exact ⟨AmountBinding.paddingInput_constrained, AmountBinding.paddingInput_constrained, by simp⟩
  · simp only [paddingUtxo, List.forall_mem_cons]
    exact ⟨AmountBinding.paddingCells_constrained, AmountBinding.paddingCells_constrained, by simp⟩
  · simp [paddingUtxo, AmountBinding.paddingInput, paddingColumn]
  · simp only [paddingUtxo, UtxoCells.nullifiers, UtxoCells.commitments]
    decide

theorem columns_accept : UtxoAccepts fewMessages 1 mintColumn ∧
    UtxoAccepts fewMessages 1 paddingColumn :=
  ⟨(utxoAccepts_iff _ _ _).mpr ⟨mintCells, mintCells_constrained⟩,
    (utxoAccepts_iff _ _ _).mpr ⟨paddingUtxo, paddingUtxo_constrained⟩⟩

def mintAggregate : List Fr := List.replicate 12 0 ++ [0, 4, 0, 4, 5, 0, 0, 0, 0, 0, 0]

def paddingAggregate : List Fr := List.replicate 12 0 ++ [4, 4, 0, 0, 0, 0, 0, 0, 0, 0, 0]

/-- The column of the block: the roots 0 and 4, and a mint of 5 for the hash 4. -/
def rollupColumn : List Fr := List.replicate 12 0 ++ [0, 4, 0, 4, 5] ++ List.replicate 15 0

theorem mintAggregate_accepts :
    AggregateUtxoAccepts plainVerifier fewMessages 1 mintAggregate := by
  refine aggregateRows_accepts mintColumn paddingColumn paddingColumn 0 4 ?_
    (0 :: 0 :: 4 :: List.replicate 9 0) rfl fun inst insert => ?_
  · simp only [List.forall_mem_cons]
    exact ⟨⟨rfl, columns_accept.1⟩, ⟨rfl, columns_accept.2⟩, ⟨rfl, columns_accept.2⟩, by simp⟩
  · have hfour : (4 : Fr) ≠ 0 := by decide
    have hdepth : (1 : ℕ) ≤ 257 := by norm_num
    have hinserts : List.replicate 12 insert =
        insert :: insert :: insert :: List.replicate 9 insert := rfl
    rw [hinserts]
    refine insertLeaf_sat hdepth _ insert _ _ [] (oneSlot_inserts 0) 0 4 _ (fun _ => rfl) ?_
    rw [if_pos rfl]
    refine insertLeaf_sat hdepth _ insert _ _ [] (oneSlot_inserts 0) 0 4 _ (fun _ => rfl) ?_
    rw [if_pos rfl]
    refine insertLeaf_sat hdepth _ insert _ _ [] (oneSlot_inserts 4) 0 4 _ (fun _ => rfl) ?_
    rw [if_neg hfour]
    exact insertPadding_sat hdepth _ _ rfl [] (oneSlot_inserts 0) (List.replicate 9 insert) 4

theorem paddingAggregate_accepts :
    AggregateUtxoAccepts plainVerifier fewMessages 1 paddingAggregate := by
  refine aggregateRows_accepts paddingColumn paddingColumn paddingColumn 4 4 ?_
    (List.replicate 12 0) rfl fun inst insert => ?_
  · simp only [List.forall_mem_cons]
    exact ⟨⟨rfl, columns_accept.2⟩, ⟨rfl, columns_accept.2⟩, ⟨rfl, columns_accept.2⟩, by simp⟩
  · exact insertPadding_sat (by norm_num) _ _ rfl [] (oneSlot_inserts 0)
      (List.replicate 12 insert) 4

theorem rollupColumn_accepts : RollupAccepts plainVerifier fewMessages 1 rollupColumn :=
  rollupRows_accepts 0 4 4 [0, 4, 5, 0, 0, 0, 0, 0, 0] (List.replicate 9 0) ⟨rfl, rfl⟩
    mintAggregate_accepts paddingAggregate_accepts

/-- A chain with a purse, whose verifiers accept the mint of 5 and its block. -/
def mintedEnv : Externals Purse :=
  { purseEnv with
    mintPlonk := fun instances _ => decide (instances = [4, 5, 0])
    burnPlonk := fun _ _ => false
    burnPlonkV2 := fun _ _ => false
    aggregatePlonk := fun instances _ => decide (instances = rollupColumn) }

theorem mintedEnv_sound : ContractSound fewMessages mintedEnv := by
  refine ⟨fun inst proof h => ?_, nofun, nofun⟩
  exact mintingEnv_sound.mint inst proof h

def mintedLedger : Ledger mintedEnv where
  balance := Purse.held
  allowance := Purse.allowed
  transfer := purseLedger.transfer
  approve := purseLedger.approve
  transferFrom := purseLedger.transferFrom
  transferFrom_self := purseLedger.transferFrom_self
  receiveWithAuthorization := purseLedger.receiveWithAuthorization

theorem mintedLedger_balance (c : Purse) : mintedLedger.balance c = c.held := rfl

def mintedBlock : BlockArgs where
  aggrProof := []
  aggrInstances := Vector.replicate 12 0#256
  oldRoot := 0#256
  newRoot := 4#256
  utxoHashes := #v[0#256, 4#256, 5#256, 0#256, 0#256, 0#256, 0#256, 0#256, 0#256, 0#256, 0#256,
    0#256, 0#256, 0#256, 0#256, 0#256, 0#256, 0#256]
  otherHashFromBlockHash := 0#256
  height := 1#256
  signatures := [⟨0#256, 0#256, 0#256⟩]

def stillRouters : Routers Purse := fun _ _ _ _ => .stop true

/-- The mint is registered, and then rolled up. -/
def mintedTxs : List (Address × Call Purse) :=
  [(3#160, .request (.mint [] 4#256 5#256 0#256)), (2#160, .verifyBlock2 mintedBlock)]

def mintedStart : Rollup Purse := genesis fewMessages 1 emptyPurse 7#160 2#160 [1#160]

def mintedEnd : Logged Purse :=
  runLogged mintedEnv (ofRouters stillRouters) 1 (mintedStart, []) mintedTxs

theorem mintedEnd_log : mintedEnd.2 = [.minted 4#256 5#256] := by decide +kernel

theorem mintedEnd_held : mintedEnd.1.chain.held = 5 := by decide +kernel

theorem mintedBlock_accepted :
    (acceptedBlocks mintedEnv stillRouters 1 mintedStart mintedTxs).map BlockArgs.newRoot =
      [4#256] := by
  decide +kernel

theorem mintedTxs_fair : (∀ tx ∈ mintedTxs, ∀ r, tx.2 ≠ .setRoot r) ∧
    ∀ tx ∈ mintedTxs, FairCall mintedLedger.Fair tx.1 tx.2 := by
  constructor
  · intro tx htx r hset
    simp only [mintedTxs, List.mem_cons, List.not_mem_nil, or_false] at htx
    rcases htx with rfl | rfl <;> cases hset
  · intro tx htx effect heffect
    simp only [mintedTxs, List.mem_cons, List.not_mem_nil, or_false] at htx
    rcases htx with rfl | rfl <;> cases heffect

theorem mintedEnv_grants (instances : List Fr) (proof : Bytes)
    (h : mintedEnv.aggregatePlonk instances proof = true) :
    RollupAccepts plainVerifier fewMessages 1 instances := by
  rw [of_decide_eq_true h]
  exact rollupColumn_accepts

theorem fewMessages_collisionFree : fewMessages.CollisionFree :=
  HashOracle.ofDecoder_collisionFree fewHash fewDecode

theorem emptyTree_hashed :
    BatchSoundness.TreeHashed fewMessages 1 (SparseTree.empty (slot (1 - 1))) := trivial

/-- The note of 5 is left, and the balance is 5. -/
theorem supply_backed_minted :
    (acceptedBlocks mintedEnv stillRouters 1 mintedStart mintedTxs).map BlockArgs.newRoot =
        [4#256] ∧
      ∃ blocks T, RolledRun fewMessages 1 (emptyTreeHash fewMessages.hash 1)
          (acceptedBlocks mintedEnv stillRouters 1 mintedStart mintedTxs) blocks T ∧
        (∃ cells, RolledBlocks.Witnessed fewMessages 1 blocks.flatten cells) ∧
        ∀ cells, RolledBlocks.Witnessed fewMessages 1 blocks.flatten cells →
          unspentValue cells + pendingValue mintedEnd.2 cells = 5 ∧
            mintedLedger.balance mintedEnd.1.chain = 5 := by
  have hbacked := supply_backed plainVerifier (fun _ => rfl)
    fewMessages_collisionFree fewMessages_nonNull (by norm_num : 1 ≤ 257) emptyTree_hashed
    mintedEnv_sound mintedEnv_grants stillRouters 1 emptyPurse 7#160 2#160 [1#160] mintedTxs
    mintedLedger (fun _ _ => .stop true) emptyPurse_allowed mintedTxs_fair.1 mintedTxs_fair.2
  obtain ⟨-, blocks, T, hrun, hcells, -, hall⟩ := hbacked
  refine ⟨mintedBlock_accepted, blocks, T, hrun, hcells, fun cells hwitnessed => ?_⟩
  have haccounts : unspentValue cells + pendingValue mintedEnd.2 cells +
      total rolledUpIn mintedEnd.2 = total mintedIn mintedEnd.2 := (hall cells hwitnessed).2.1
  have hminted : total mintedIn mintedEnd.2 = 5 ∧ total rolledUpIn mintedEnd.2 = 0 := by
    rw [mintedEnd_log]
    exact ⟨rfl, rfl⟩
  rw [hminted.1, hminted.2, Nat.add_zero] at haccounts
  refine ⟨haccounts, ?_⟩
  rw [mintedLedger_balance]
  exact mintedEnd_held

/-- The payouts of the run that mints a note are safe. -/
theorem payouts_settled_minted :
    mintedEnd.1 = runCalls mintedEnv stillRouters 1 mintedStart mintedTxs ∧
      ∀ n, Proper n mintedEnd.2 ∧ PaidUnlessRefused n mintedEnd.2 ∧
        ∀ v, .rolledUp n v ∈ mintedEnd.2 → .registered n v ∈ mintedEnd.2 :=
  payouts_settled plainVerifier (fun _ => rfl)
    fewMessages_collisionFree fewMessages_nonNull (by norm_num : 1 ≤ 257) emptyTree_hashed
    mintedEnv_sound mintedEnv_grants stillRouters 1 emptyPurse 7#160 2#160 [1#160] mintedTxs
    mintedLedger (fun _ _ => .stop true) mintedTxs_fair.1 mintedTxs_fair.2

end MintedBlock

end PayyRollup.SupplyBacking
