import PayyRollup.TxnPaging

/-!
The transactions that are still to come after a cursor, from the oldest to the newest. A page
after any cursor holds the next of them, also when the cursor stands at no transaction, and
the cursor it returns leaves the others. A block that is stored above all others adds its
transactions behind those that are listed already, so what is still to come after a cursor
only gets longer.
-/
namespace PayyRollup.PendingTxns

open NodeBlocks hiding Error
open SmirkTree BlockStoreDb CursorPages TxnPages TxnPaging

abbrev Listed := ListTxnsPosition × UtxoProof

def ListTxnsPosition.Lt (p q : ListTxnsPosition) : Prop :=
  p.block < q.block ∨ p.block = q.block ∧ p.txn < q.txn

/-- The positions that come after a cursor. -/
def Passes (cursor : CursorChoiceAfter ListTxnsPosition) (p : ListTxnsPosition) : Prop :=
  match cursor with
  | .after q => q.block < p.block
  | .afterInclusive q => ListTxnsPosition.Lt q p

instance (cursor : CursorChoiceAfter ListTxnsPosition) (p : ListTxnsPosition) :
    Decidable (Passes cursor p) := by
  unfold Passes ListTxnsPosition.Lt
  cases cursor <;> exact inferInstance

def listedTxns (h : Height) (b : BlockFormat) : List Listed :=
  b.intoBlock.content.state.txns.mapIdx fun i txn => (⟨h, i⟩, txn)

/-- All transactions, from the oldest to the newest. -/
def listing (db : Db BlockFormat TxnFormat) : List Listed :=
  (listNonEmpty db ⟨.unbounded, .unbounded⟩ .lowestToHighest).flatMap fun r =>
    match r with
    | .ok g => listedTxns g.1 g.2
    | .error _ => []

def pending (cursor : CursorChoiceAfter ListTxnsPosition) (db : Db BlockFormat TxnFormat) :
    List Listed :=
  (listing db).filter fun e => decide (Passes cursor e.1)

def entry (txn : TxnWithInfo) : Listed := (txn.position, txn.proof)

section Positions

variable {p q r : ListTxnsPosition}

theorem ListTxnsPosition.Lt.trans (h : ListTxnsPosition.Lt p q) (h' : ListTxnsPosition.Lt q r) :
    ListTxnsPosition.Lt p r := by
  unfold ListTxnsPosition.Lt at *
  rcases h with h | ⟨h, hlt⟩
  · rcases h' with h' | ⟨h', -⟩
    · exact Or.inl (lt_trans h h')
    · exact Or.inl (h' ▸ h)
  · rcases h' with h' | ⟨h', hlt'⟩
    · exact Or.inl (h ▸ h')
    · exact Or.inr ⟨h.trans h', by omega⟩

theorem ListTxnsPosition.Lt.irrefl (p : ListTxnsPosition) : ¬ListTxnsPosition.Lt p p := by
  unfold ListTxnsPosition.Lt
  rintro (h | ⟨-, h⟩)
  · exact lt_irrefl _ h
  · omega

/-- What comes after a later position comes after the cursor. -/
theorem Passes.trans {cursor : CursorChoiceAfter ListTxnsPosition} (h : Passes cursor p)
    (h' : ListTxnsPosition.Lt p q) : Passes cursor q := by
  cases cursor with
  | after r =>
    change r.block < p.block at h
    change r.block < q.block
    rcases h' with h' | ⟨h', -⟩
    · exact lt_trans h h'
    · rwa [← h']
  | afterInclusive r => exact ListTxnsPosition.Lt.trans h h'

end Positions

section Index

variable {env : NodeEnv} {now : ℕ} {maxHeight : Height} {db : Db BlockFormat TxnFormat}
  {blocks : List (Height × BlockFormat)}

theorem map_entry (h : TxnIndex env now maxHeight db blocks) (g : Height × BlockFormat)
    (hg : g ∈ blocks) :
    (blockTxns env now maxHeight g.2).map entry = listedTxns g.1 g.2 := by
  symm
  unfold listedTxns
  rw [List.mapIdx_eq_iff]
  intro i
  unfold blockTxns entry TxnWithInfo.position
  rw [List.getElem?_map, List.getElem?_mapIdx, Option.map_map, h.placed g hg]
  rfl

theorem map_entry_enumeration (h : TxnIndex env now maxHeight db blocks) :
    (enumeration env now maxHeight .lowestToHighest blocks).map entry =
      blocks.flatMap fun g => listedTxns g.1 g.2 := by
  change (blocks.flatMap _).map entry = _
  rw [List.map_flatMap]
  exact List.flatMap_congr fun g hg => map_entry h g hg

/-- The listing reads the index of blocks with transactions. -/
theorem listing_eq (h : Filed keyNonEmptyBlock db blocks) :
    listing db = blocks.flatMap fun g => listedTxns g.1 g.2 := by
  unfold listing
  rw [h.listNonEmpty_all, List.flatMap_map]
  rfl

theorem listing_sorted (h : TxnIndex env now maxHeight db blocks) :
    (listing db).Pairwise fun d e => ListTxnsPosition.Lt d.1 e.1 := by
  rw [listing_eq h.filed, ← map_entry_enumeration h, List.pairwise_map]
  exact h.enumeration_sorted .lowestToHighest

/-- The transactions of a block in the range of a cursor that are not skipped. -/
theorem not_skipped_iff (cursor : CursorChoiceAfter ListTxnsPosition) (p : ListTxnsPosition) :
    ((cursorRange (some (.after (cursor.mapPos (·.block)))) .lowestToHighest).Contains p.block ∧
      txnsToSkip (some (.after cursor)) p = false) ↔ Passes cursor p := by
  rw [← Bool.not_eq_true, txnsToSkip_eq_true]
  cases cursor with
  | after q =>
    change (q.block < p.block ∧ True) ∧ ¬(p.block = q.block ∧ p.txn ≤ q.txn) ↔ q.block < p.block
    constructor
    · exact fun h => h.1.1
    · exact fun h => ⟨⟨h, trivial⟩, fun heq => absurd heq.1 h.ne'⟩
  | afterInclusive q =>
    change (q.block ≤ p.block ∧ True) ∧ ¬(p.block = q.block ∧ p.txn ≤ q.txn) ↔
      q.block < p.block ∨ q.block = p.block ∧ q.txn < p.txn
    constructor
    · rintro ⟨⟨hle, -⟩, hnot⟩
      rcases lt_or_eq_of_le hle with hlt | heq
      · exact Or.inl hlt
      · exact Or.inr ⟨heq, by
          by_contra hge
          exact hnot ⟨heq.symm, by omega⟩⟩
    · rintro (hlt | ⟨heq, hlt⟩)
      · exact ⟨⟨hlt.le, trivial⟩, fun h => absurd h.1 hlt.ne'⟩
      · exact ⟨⟨heq.le, trivial⟩, fun h => by omega⟩

theorem filter_split {A : Type} (p : A → Bool) (xs : List A)
    (hup : xs.Pairwise fun x y => p x = true → p y = true) :
    xs = xs.filter (fun x => !p x) ++ xs.filter p := by
  induction xs with
  | nil => rfl
  | cons x xs ih =>
    obtain ⟨hx, hxs⟩ := List.pairwise_cons.mp hup
    cases hp : p x with
    | true =>
      have hnone : (x :: xs).filter (fun y => !p y) = [] := by
        rw [List.filter_eq_nil_iff]
        intro y hy
        rcases List.mem_cons.mp hy with rfl | hy
        · simp [hp]
        · simp [hx y hy hp]
      have hall : (x :: xs).filter p = x :: xs := by
        rw [List.filter_eq_self]
        intro y hy
        rcases List.mem_cons.mp hy with rfl | hy
        · exact hp
        · exact hx y hy hp
      rw [hnone, hall, List.nil_append]
    | false =>
      rw [List.filter_cons_of_pos (by simp [hp]), List.filter_cons_of_neg (by simp [hp]),
        List.cons_append, ← ih hxs]

/-- The listing is what the cursor has passed, and then what is still to come. -/
theorem listing_split (hsorted : (listing db).Pairwise fun d e => ListTxnsPosition.Lt d.1 e.1)
    (cursor : CursorChoiceAfter ListTxnsPosition) :
    listing db = (listing db).filter (fun e => !decide (Passes cursor e.1)) ++
      pending cursor db := by
  apply filter_split
  apply hsorted.imp
  intro d e hlt hd
  exact decide_eq_true ((of_decide_eq_true hd).trans hlt)

/-- After a cursor at a listed transaction come the transactions behind it. -/
theorem pending_afterInclusive
    (hsorted : (listing db).Pairwise fun d e => ListTxnsPosition.Lt d.1 e.1)
    (before after : List Listed) (e : Listed) (hplace : listing db = before ++ e :: after) :
    pending (.afterInclusive e.1) db = after := by
  rw [hplace, List.pairwise_append, List.pairwise_cons] at hsorted
  obtain ⟨-, ⟨hafter, -⟩, hbefore⟩ := hsorted
  have hnone : before.filter (fun d => decide (Passes (.afterInclusive e.1) d.1)) = [] := by
    rw [List.filter_eq_nil_iff]
    intro d hd
    rw [decide_eq_true_eq]
    intro hpasses
    exact ListTxnsPosition.Lt.irrefl _
      ((hbefore d hd e List.mem_cons_self).trans hpasses)
  have hself : ¬Passes (.afterInclusive e.1) e.1 := ListTxnsPosition.Lt.irrefl e.1
  have hall : after.filter (fun d => decide (Passes (.afterInclusive e.1) d.1)) = after := by
    rw [List.filter_eq_self]
    intro d hd
    exact decide_eq_true (hafter d hd)
  unfold pending
  rw [hplace, List.filter_append, hnone, List.nil_append,
    List.filter_cons_of_neg (by rwa [decide_eq_true_eq]), hall]

/-- The transactions of a block that are still to come. -/
def later (env : NodeEnv) (now : ℕ) (maxHeight : Height)
    (cursor : CursorChoiceAfter ListTxnsPosition) (g : Height × BlockFormat) : List TxnWithInfo :=
  (blockTxns env now maxHeight g.2).filter fun txn => decide (Passes cursor txn.position)

theorem later_of_contained (h : TxnIndex env now maxHeight db blocks)
    (cursor : CursorChoiceAfter ListTxnsPosition) (g : Height × BlockFormat) (hg : g ∈ blocks)
    (hin : (cursorRange (some (.after (cursor.mapPos (·.block)))) .lowestToHighest).Contains g.1) :
    (blockTxns env now maxHeight g.2).filter (fun txn =>
      !txnsToSkip (some (.after cursor)) txn.position) = later env now maxHeight cursor g := by
  apply List.filter_congr
  intro txn htxn
  have hblock : txn.position.block = g.1 := h.mem_height g hg txn htxn
  have hiff := not_skipped_iff cursor txn.position
  rw [hblock] at hiff
  rw [Bool.eq_iff_iff, Bool.not_eq_true', decide_eq_true_eq, ← hiff]
  exact (and_iff_right hin).symm

theorem later_of_not_contained (h : TxnIndex env now maxHeight db blocks)
    (cursor : CursorChoiceAfter ListTxnsPosition) (g : Height × BlockFormat) (hg : g ∈ blocks)
    (hout : ¬(cursorRange (some (.after (cursor.mapPos (·.block))))
      .lowestToHighest).Contains g.1) : later env now maxHeight cursor g = [] := by
  unfold later
  rw [List.filter_eq_nil_iff]
  intro txn htxn
  have hblock : txn.position.block = g.1 := h.mem_height g hg txn htxn
  rw [decide_eq_true_eq, ← not_skipped_iff, hblock]
  exact fun hpasses => hout hpasses.1

/-- Blocks above another one in the range come after the cursor as a whole. -/
theorem later_of_above (h : TxnIndex env now maxHeight db blocks)
    (cursor : CursorChoiceAfter ListTxnsPosition) (k : Height)
    (hin : (cursorRange (some (.after (cursor.mapPos (·.block)))) .lowestToHighest).Contains k)
    (g : Height × BlockFormat) (hg : g ∈ blocks) (hlt : k < g.1) :
    later env now maxHeight cursor g = blockTxns env now maxHeight g.2 := by
  unfold later
  rw [List.filter_eq_self]
  intro txn htxn
  have hblock : txn.position.block = g.1 := h.mem_height g hg txn htxn
  rw [decide_eq_true_eq]
  cases cursor with
  | after q =>
    change q.block < k ∧ True at hin
    change q.block < txn.position.block
    rw [hblock]
    exact lt_trans hin.1 hlt
  | afterInclusive q =>
    change q.block ≤ k ∧ True at hin
    refine Or.inl ?_
    rw [hblock]
    exact lt_of_le_of_lt hin.1 hlt

/-- Of groups of which only the first may be empty, a page needs one more than it has
elements. -/
theorem take_flatMap_take_succ {A G : Type} (f : G → List A) (gs : List G) (n : ℕ)
    (hne : ∀ g ∈ gs.tail, f g ≠ []) :
    ((gs.take (n + 1)).flatMap f).take n = (gs.flatMap f).take n := by
  cases gs with
  | nil => rfl
  | cons g gs =>
    rw [List.take_succ_cons, List.flatMap_cons, List.flatMap_cons, List.take_append,
      List.take_append]
    congr 1
    exact take_flatMap_take f gs hne _ _ (Nat.sub_le _ _)

theorem flatMap_filter_of_nil {A G : Type} (f : G → List A) (p : G → Bool) (gs : List G)
    (hnil : ∀ g ∈ gs, p g = false → f g = []) : (gs.filter p).flatMap f = gs.flatMap f := by
  induction gs with
  | nil => rfl
  | cons g gs ih =>
    obtain ⟨hg, hgs⟩ := List.forall_mem_cons.mp hnil
    rw [List.flatMap_cons, ← ih hgs]
    cases hp : p g with
    | false => rw [List.filter_cons_of_neg (by simp [hp]), hg hp, List.nil_append]
    | true => rw [List.filter_cons_of_pos hp, List.flatMap_cons]

/-- A page after a cursor holds the next transactions. -/
theorem listTxns_pending (h : TxnIndex env now maxHeight db blocks) (limit : Option ℕ)
    (cursor : CursorChoiceAfter ListTxnsPosition) :
    ∃ txns, listTxns env now maxHeight db ⟨limit, some (.after cursor), .oldestToNewest⟩ =
      .ok (ends txns, txns) ∧ txns.map entry = (pending cursor db).take (txnLimit limit) := by
  refine ⟨_, Filed.listTxns env now maxHeight h.filed _ _ rfl, ?_⟩
  let inRange := blocks.filter fun g => decide ((cursorRange
    (some (.after (cursor.mapPos (·.block)))) .lowestToHighest).Contains g.1)
  have hmem : ∀ g ∈ inRange, g ∈ blocks ∧ (cursorRange
      (some (.after (cursor.mapPos (·.block)))) .lowestToHighest).Contains g.1 := by
    intro g hg
    rw [List.mem_filter, decide_eq_true_eq] at hg
    exact hg
  have hpage : pageTxns env now maxHeight (some (.after cursor)) (txnLimit limit)
      (fetched blocks ⟨limit, some (.after cursor), .oldestToNewest⟩) =
        (inRange.flatMap (later env now maxHeight cursor)).take (txnLimit limit) := by
    change (((inRange.take (txnLimit limit + 1)).flatMap fun g =>
      blockTxns env now maxHeight g.2).filter _).take _ = _
    rw [List.filter_flatMap]
    have hlater : (inRange.take (txnLimit limit + 1)).flatMap (fun g =>
        (blockTxns env now maxHeight g.2).filter fun txn =>
          !txnsToSkip (some (.after cursor)) txn.position) =
        (inRange.take (txnLimit limit + 1)).flatMap (later env now maxHeight cursor) := by
      apply List.flatMap_congr
      intro g hg
      obtain ⟨hg, hin⟩ := hmem g (List.mem_of_mem_take hg)
      exact later_of_contained h cursor g hg hin
    rw [hlater]
    apply take_flatMap_take_succ
    have hsorted : inRange.Pairwise fun a b => a.1 < b.1 := h.filed.sorted.filter _
    intro g hg
    cases hfirst : inRange with
    | nil =>
      rw [hfirst] at hg
      cases hg
    | cons first rest =>
      rw [hfirst] at hg hsorted
      have hfirstmem : first ∈ inRange := by
        rw [hfirst]
        exact List.mem_cons_self
      have hgmem : g ∈ inRange := by
        rw [hfirst]
        exact List.mem_cons_of_mem _ hg
      rw [later_of_above h cursor first.1 (hmem first hfirstmem).2 g (hmem g hgmem).1
        ((List.pairwise_cons.mp hsorted).1 g hg)]
      exact h.non_empty g (hmem g hgmem).1
  have hall : inRange.flatMap (later env now maxHeight cursor) =
      blocks.flatMap (later env now maxHeight cursor) := by
    apply flatMap_filter_of_nil
    intro g hg hout
    exact later_of_not_contained h cursor g hg (of_decide_eq_false hout)
  rw [hpage, hall, List.map_take]
  congr 1
  unfold pending
  rw [listing_eq h.filed, List.map_flatMap, List.filter_flatMap]
  apply List.flatMap_congr
  intro g hg
  rw [← map_entry h g hg, List.filter_map]
  rfl

end Index

section Growth

variable (env : NodeEnv)

def isNewer (maxHeight : Option Height) (b : BlockFormat) : Bool :=
  maxHeight.all fun maxHeight => decide (maxHeight < (nodeApi env).blockHeight b)

/-- The node stores a block above all others; it stores no other one. -/
def storeNew (db : Db BlockFormat TxnFormat) (b : BlockFormat) : Db BlockFormat TxnFormat :=
  match getMaxHeight db, BlockStoreDb.set (nodeApi env) db b with
  | .ok maxHeight, .ok db' => if isNewer env maxHeight b = true then db' else db
  | _, _ => db

variable {env} {calls : List BlockFormat} {db : Db BlockFormat TxnFormat}

theorem nonEmptyBlock_lt (h : Content (nodeApi env) calls db) (b : BlockFormat)
    (hnewer : isNewer env (calls.map (nodeApi env).blockHeight).max? b = true)
    (blocks : List (Height × BlockFormat)) (hfiled : Filed keyNonEmptyBlock db blocks)
    (g : Height × BlockFormat) (hg : g ∈ blocks) : g.1 < (nodeApi env).blockHeight b := by
  obtain ⟨c, hc, -, hheight, -⟩ := nonEmpty_call env h g.1 _
    ((hfiled.lookup_iff g.1 _).mpr ⟨g.2, rfl, hg⟩)
  have hmem : g.1 ∈ calls.map (nodeApi env).blockHeight := by
    rw [← hheight]
    exact List.mem_map_of_mem hc
  cases hmax : (calls.map (nodeApi env).blockHeight).max? with
  | none =>
    rw [List.max?_eq_none_iff.mp hmax] at hmem
    cases hmem
  | some m =>
    rw [hmax] at hnewer
    have hle := (List.max?_eq_some_iff.mp hmax).2 g.1 hmem
    exact lt_of_le_of_lt hle (of_decide_eq_true hnewer)

/-- The index after a block above all others. -/
theorem filed_concat (h : Content (nodeApi env) calls db) (b : BlockFormat)
    (hnewer : isNewer env (calls.map (nodeApi env).blockHeight).max? b = true)
    (blocks : List (Height × BlockFormat)) (hfiled : Filed keyNonEmptyBlock db blocks)
    (db' : Db BlockFormat TxnFormat) (h' : Content (nodeApi env) (calls ++ [b]) db') :
    Filed keyNonEmptyBlock db' (blocks ++ if b.intoBlock.content.state.txns.isEmpty then []
      else [((nodeApi env).blockHeight b, b)]) := by
  have habove := nonEmptyBlock_lt h b hnewer blocks hfiled
  have hempty : ((nodeApi env).txns b).isEmpty = b.intoBlock.content.state.txns.isEmpty := by
    rw [Bool.eq_iff_iff, List.isEmpty_iff, List.isEmpty_iff]
    exact List.mapIdx_eq_nil_iff
  refine ⟨fun k v => ?_, ?_⟩
  · have hold := hfiled.lookup_iff k v
    change db.lookup (.nonEmptyBlock k) = some v ↔ _ at hold
    change db'.lookup (.nonEmptyBlock k) = some v ↔ _
    rw [h.nonEmpty] at hold
    rw [h'.nonEmpty, lastWith_concat, hempty]
    by_cases hb : b.intoBlock.content.state.txns.isEmpty = true
    · rw [if_pos hb, hb, List.append_nil, ← hold]
      simp
    · rw [Bool.not_eq_true] at hb
      rw [hb, if_neg Bool.false_ne_true]
      by_cases hk : (nodeApi env).blockHeight b = k
      · subst hk
        rw [if_pos (by simp)]
        constructor
        · rintro heq
          obtain rfl := Option.some.inj heq
          exact ⟨b, rfl, by simp⟩
        · rintro ⟨c, rfl, hc⟩
          rw [List.mem_append, List.mem_singleton] at hc
          rcases hc with hc | hc
          · exact absurd (habove _ hc) (lt_irrefl _)
          · obtain rfl : c = b := congrArg Prod.snd hc
            rfl
      · rw [if_neg (by simp [hk]), hold]
        refine exists_congr fun c => and_congr_right fun _ => ?_
        rw [List.mem_append, List.mem_singleton]
        constructor
        · exact Or.inl
        · rintro (hc | hc)
          · exact hc
          · exact absurd (congrArg Prod.fst hc).symm hk
  · rw [List.pairwise_append]
    refine ⟨hfiled.sorted, ?_, fun g hg g' hg' => ?_⟩
    · split <;> simp
    · split at hg'
      · cases hg'
      · obtain rfl := List.mem_singleton.mp hg'
        exact habove g hg

/-- A new block adds its transactions behind the listed ones. -/
theorem storeNew_grows (h : Content (nodeApi env) calls db) (b : BlockFormat) :
    (∃ calls', Content (nodeApi env) calls' (storeNew env db b)) ∧
      ∃ more, listing (storeNew env db b) = listing db ++ more ∧
        ∀ d ∈ listing db, ∀ e ∈ more, d.1.block < e.1.block := by
  obtain ⟨db', hset, h'⟩ := h.set b
  have hstore : storeNew env db b =
      if isNewer env (calls.map (nodeApi env).blockHeight).max? b = true then db' else db := by
    unfold storeNew
    rw [h.getMaxHeight, hset]
  rw [hstore]
  by_cases hnewer : isNewer env (calls.map (nodeApi env).blockHeight).max? b = true
  · rw [if_pos hnewer]
    obtain ⟨blocks, hindex⟩ := exists_txnIndex env 0 0 h
    have hfiled := filed_concat h b hnewer blocks hindex.filed db' h'
    refine ⟨⟨_, h'⟩, (if b.intoBlock.content.state.txns.isEmpty = true then []
      else [((nodeApi env).blockHeight b, b)]).flatMap (fun g => listedTxns g.1 g.2), ?_, ?_⟩
    · rw [listing_eq hfiled, listing_eq hindex.filed, List.flatMap_append]
    · intro d hd e he
      rw [listing_eq hindex.filed, List.mem_flatMap] at hd
      rw [List.mem_flatMap] at he
      obtain ⟨g, hg, hd⟩ := hd
      obtain ⟨g', hg', he⟩ := he
      have hheight : g'.1 = (nodeApi env).blockHeight b := by
        split at hg'
        · cases hg'
        · exact congrArg Prod.fst (List.mem_singleton.mp hg')
      unfold listedTxns at hd he
      obtain ⟨i, hi, rfl⟩ := List.mem_mapIdx.mp hd
      obtain ⟨j, hj, rfl⟩ := List.mem_mapIdx.mp he
      change g.1 < g'.1
      rw [hheight]
      exact nonEmptyBlock_lt h b hnewer blocks hindex.filed g hg
  · rw [if_neg hnewer]
    exact ⟨⟨calls, h⟩, [], (List.append_nil _).symm, fun _ _ _ he => absurd he (by simp)⟩

end Growth
end PayyRollup.PendingTxns
