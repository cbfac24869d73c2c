import PayyRollup.BlockCommit
import PayyRollup.TxnPages

/-!
Reading all transactions of a store by following cursors. Forward, the pages enumerate the
transactions of the stored blocks, each once and in the asked order, whatever blocks the
store was filled with. Backward, the page for a cursor is the one before it only when the
cursor is at the first transaction of its block and the blocks just before it fill one page
without a rest.
-/
namespace PayyRollup.TxnPaging

open NodeBlocks hiding Error
open BlockCommit (trustingEnv)
open SmirkTree KeyValueStore BlockStoreDb CursorPages TxnPages

variable (env : NodeEnv) (now : ℕ) (maxHeight : Height)

/-- The transactions of the stored blocks, each once, by blocks in the asked order and by
their positions in a block. Others are listed only at a height whose stored block has no
transactions, from a block it replaced. -/
structure Enumerates (calls : List BlockFormat) (db : Db BlockFormat TxnFormat)
    (order : BlockListOrder) (txns : List TxnWithInfo) : Prop where
  complete : ∀ k b, get db k = .ok (some b) → ∀ i proof,
    b.intoBlock.content.state.txns[i]? = some proof →
      ∃ txn ∈ txns, txn.position = ⟨k, i⟩ ∧ txn.proof = proof ∧ txn.hash = proof.hash env
  once : (txns.map TxnWithInfo.position).Nodup
  in_order : txns.Pairwise fun s t => order.Precedes s.blockHeight t.blockHeight ∨
    s.blockHeight = t.blockHeight ∧ s.indexInBlock < t.indexInBlock
  of_call : ∀ txn ∈ txns, ∃ b ∈ calls, (nodeApi env).blockHeight b = txn.blockHeight ∧
    b.intoBlock.content.state.txns[txn.indexInBlock]? = some txn.proof ∧
      ∃ c, get db txn.blockHeight = .ok (some c) ∧ (c.intoBlock.content.state.txns ≠ [] → c = b)

theorem blockTxns_length (b : BlockFormat) :
    (blockTxns env now maxHeight b).length = b.intoBlock.content.state.txns.length := by
  simp [blockTxns]

variable {calls : List BlockFormat} {db : Db BlockFormat TxnFormat}
  {blocks : List (Height × BlockFormat)}

theorem nonEmpty_call (h : Content (nodeApi env) calls db) (k : Height)
    (v : Value BlockFormat TxnFormat) (hv : db.lookup (.nonEmptyBlock k) = some v) :
    ∃ b ∈ calls, v = .block b ∧ (nodeApi env).blockHeight b = k ∧
      b.intoBlock.content.state.txns ≠ [] := by
  rw [h.nonEmpty, Option.map_eq_some_iff] at hv
  obtain ⟨b, hb, rfl⟩ := hv
  obtain ⟨hmem, hp⟩ := mem_of_lastWith _ _ _ hb
  rw [Bool.and_eq_true, decide_eq_true_eq] at hp
  refine ⟨b, hmem, rfl, hp.1, fun hnil => ?_⟩
  have hempty : ((nodeApi env).txns b).isEmpty = true := by
    change (b.intoBlock.content.state.txns.mapIdx _).isEmpty = true
    rw [hnil]
    rfl
  rw [hempty] at hp
  exact absurd hp.2 (by decide)

/-- The index of a store that was filled by calls. -/
theorem exists_txnIndex (h : Content (nodeApi env) calls db) :
    ∃ blocks, TxnIndex env now maxHeight db blocks := by
  obtain ⟨blocks, hfiled⟩ := exists_filed keyNonEmptyBlock db fun k v hv => by
    obtain ⟨b, -, rfl, -⟩ := nonEmpty_call env h k v hv
    exact ⟨b, rfl⟩
  have hof : ∀ g ∈ blocks, db.lookup (.nonEmptyBlock g.1) = some (.block g.2) := fun g hg =>
    (hfiled.lookup_iff g.1 _).mpr ⟨g.2, rfl, hg⟩
  refine ⟨blocks, hfiled, fun g hg => ?_, fun g hg hnil => ?_⟩
  · obtain ⟨b, -, heq, hheight, -⟩ := nonEmpty_call env h g.1 _ (hof g hg)
    rwa [Value.block.inj heq]
  · obtain ⟨b, -, heq, -, hne⟩ := nonEmpty_call env h g.1 _ (hof g hg)
    apply hne
    rw [← Value.block.inj heq, ← List.length_eq_zero_iff, ← blockTxns_length env now maxHeight,
      hnil]
    rfl

/-- A stored block that has transactions is the one in the index. -/
theorem nonEmpty_stored (h : Content (nodeApi env) calls db) (k : Height) (b : BlockFormat)
    (hb : get db k = .ok (some b)) (hne : b.intoBlock.content.state.txns ≠ []) :
    db.lookup (.nonEmptyBlock k) = some (.block b) := by
  obtain ⟨rfl, -⟩ := h.stored k b hb
  refine h.non_empty_found _ b hb fun hnil => hne ?_
  have hlen := congrArg List.length hnil
  change (b.intoBlock.content.state.txns.mapIdx _).length = 0 at hlen
  rwa [List.length_mapIdx, List.length_eq_zero_iff] at hlen

theorem enumeration_enumerates (h : Content (nodeApi env) calls db)
    (hindex : TxnIndex env now maxHeight db blocks) (order : BlockListOrder) :
    Enumerates env calls db order (enumeration env now maxHeight order blocks) := by
  refine ⟨fun k b hb i proof hproof => ?_, hindex.positions_nodup order,
    hindex.enumeration_sorted order, fun txn htxn => ?_⟩
  · have hne : b.intoBlock.content.state.txns ≠ [] := by
      intro hnil
      rw [hnil] at hproof
      simp at hproof
    have hmem : (k, b) ∈ blocks := by
      obtain ⟨c, hc, hmem⟩ := (hindex.filed.lookup_iff _ _).mp (nonEmpty_stored env h k b hb hne)
      obtain rfl := Value.block.inj hc
      exact hmem
    obtain ⟨rfl, -⟩ := h.stored k b hb
    have hin : ∃ txn, (blockTxns env now maxHeight b)[i]? = some txn := by
      unfold blockTxns
      rw [List.getElem?_mapIdx, hproof]
      exact ⟨_, rfl⟩
    obtain ⟨txn, htxn⟩ := hin
    obtain ⟨hi, hheight, hsame, hhash⟩ := blockTxns_getElem? env now maxHeight b i txn htxn
    rw [hproof, Option.some_inj] at hsame
    subst hsame
    refine ⟨txn, List.mem_flatMap.mpr ⟨_, (mem_asked order _ _).mpr hmem,
      List.mem_of_getElem? htxn⟩, ?_, rfl, hhash⟩
    rw [TxnWithInfo.position, hi, hheight]
  · obtain ⟨g, hg, htxn⟩ := List.mem_flatMap.mp htxn
    rw [mem_asked] at hg
    have hlisted : db.lookup (.nonEmptyBlock g.1) = some (.block g.2) :=
      (hindex.filed.lookup_iff g.1 _).mpr ⟨g.2, rfl, hg⟩
    obtain ⟨b, hb, heq, hheight, -⟩ := nonEmpty_call env h g.1 _ hlisted
    obtain rfl := Value.block.inj heq
    obtain ⟨i, hi⟩ := List.mem_iff_getElem?.mp htxn
    obtain ⟨hindexIn, hblock, hproof, -⟩ := blockTxns_getElem? env now maxHeight g.2 i txn hi
    refine ⟨g.2, hb, hblock.symm, by rwa [hindexIn], ?_⟩
    obtain ⟨c, hc⟩ := h.stored_of_mem g.2 hb
    rw [hblock]
    refine ⟨c, hc, fun hne => ?_⟩
    have hfound := nonEmpty_stored env h _ c hc hne
    rw [hheight, hlisted] at hfound
    exact (Value.block.inj (Option.some.inj hfound)).symm

theorem txnLimit_pos (limit : Option ℕ) (h : limit ≠ some 0) : 0 < txnLimit limit := by
  unfold txnLimit
  cases limit with
  | none => decide
  | some n =>
    have hn : n ≠ 0 := fun hn => h (congrArg some hn)
    rw [Option.getD_some]
    omega

theorem followAfter_pages (hindex : TxnIndex env now maxHeight db blocks) (limit : Option ℕ)
    (hlimit : limit ≠ some 0) (order : ListTxnOrder) (fuel : ℕ)
    (hfuel : (enumeration env now maxHeight order.toBlockListOrder blocks).length < fuel) :
    ∃ pages, followAfter env now maxHeight db limit order fuel = .ok (some pages) ∧
      pages.flatten = enumeration env now maxHeight order.toBlockListOrder blocks ∧
        Chunks (txnLimit limit) pages :=
  (hindex.pages limit order).follow_all (txnLimit_pos limit hlimit) fuel hfuel

/-- Following the cursors from the first page enumerates the transactions of all stored
blocks. -/
theorem followAfter_enumerates (env : NodeEnv) (calls : List BlockFormat) (now : ℕ)
    (maxHeight : Height) (limit : Option ℕ) (hlimit : limit ≠ some 0) (order : ListTxnOrder) :
    ∃ db, sets (nodeApi env) (create _ _) calls = .ok db ∧
      ∃ txns, Enumerates env calls db order.toBlockListOrder txns ∧
        ∀ fuel, txns.length < fuel →
          ∃ pages, followAfter env now maxHeight db limit order fuel = .ok (some pages) ∧
            pages.flatten = txns := by
  obtain ⟨db, hsets, hcontent⟩ := sets_content (nodeApi env) calls
  obtain ⟨blocks, hindex⟩ := exists_txnIndex env now maxHeight hcontent
  refine ⟨db, hsets, _, enumeration_enumerates env now maxHeight hcontent hindex _, ?_⟩
  intro fuel hfuel
  obtain ⟨pages, hpages, hflatten, -⟩ :=
    followAfter_pages env now maxHeight hindex limit hlimit order fuel hfuel
  exact ⟨pages, hpages, hflatten⟩

section Backward

variable (db) (limit : Option ℕ) (order : ListTxnOrder)

/-- The page before a position holds the transactions just before it in the enumeration that
forward paging gives. -/
def PageBefore (position : ListTxnsPosition) : Prop :=
  ∃ fuel pages pre x post cursor,
    followAfter env now maxHeight db limit order fuel = .ok (some pages) ∧
      pages.flatten = pre ++ x :: post ∧ x.position = position ∧
        listTxns env now maxHeight db ⟨limit, some (.before (.beforeInclusive position)), order⟩ =
          .ok (cursor, pre.drop (pre.length - txnLimit limit))

def txnCount (blocks : List (Height × BlockFormat)) : ℕ :=
  (blocks.map fun g => g.2.intoBlock.content.state.txns.length).sum

/-- The position is the first of its block, and the blocks just before it, as many as a page
has transactions, fill a page without a rest, or what there is of it. -/
structure Uncut (before : List (Height × BlockFormat)) (b : BlockFormat) (i : ℕ) : Prop where
  first : i = 0
  fits : txnCount (before.drop (before.length - txnLimit limit)) ≤ txnLimit limit
  fills : txnCount (before.drop (before.length - txnLimit limit)) = txnLimit limit ∨
    b.intoBlock.content.state.txns.length = 1

variable {env now maxHeight db}

theorem txnCount_eq (gs : List (Height × BlockFormat)) :
    (gs.flatMap fun g => blockTxns env now maxHeight g.2).length = txnCount gs := by
  rw [List.length_flatMap, txnCount]
  simp only [blockTxns_length]

variable (hindex : TxnIndex env now maxHeight db blocks) (hlimit : limit ≠ some 0)
  (before after : List (Height × BlockFormat)) (k : Height) (b : BlockFormat)
  (hasked : order.toBlockListOrder.asked blocks = before ++ (k, b) :: after)
  (i : ℕ) (hi : i < b.intoBlock.content.state.txns.length)

include hindex hasked hi

/-- A position in a block is a place in the enumeration. -/
theorem exists_place : ∃ own x later, x.position = ⟨k, i⟩ ∧
    blockTxns env now maxHeight b = own ++ x :: later ∧ own.length = i ∧
      enumeration env now maxHeight order.toBlockListOrder blocks =
        (before.flatMap (fun g => blockTxns env now maxHeight g.2) ++ own) ++
          x :: (later ++ after.flatMap fun g => blockTxns env now maxHeight g.2) := by
  rw [← blockTxns_length env now maxHeight] at hi
  have hmem : (k, b) ∈ blocks := by
    rw [← mem_asked order.toBlockListOrder, hasked]
    simp
  obtain ⟨own, x, later, hb, hlen⟩ : ∃ own x later,
      blockTxns env now maxHeight b = own ++ x :: later ∧ own.length = i := by
    refine ⟨(blockTxns env now maxHeight b).take i, (blockTxns env now maxHeight b)[i],
      (blockTxns env now maxHeight b).drop (i + 1), ?_, ?_⟩
    · rw [← List.drop_eq_getElem_cons hi, List.take_append_drop]
    · rw [List.length_take]
      omega
  have hget : (blockTxns env now maxHeight b)[i]? = some x := by
    rw [hb, ← hlen]
    simp
  obtain ⟨hindexIn, hheight, -⟩ := blockTxns_getElem? env now maxHeight b i x hget
  refine ⟨own, x, later, ?_, hb, hlen, ?_⟩
  · rw [TxnWithInfo.position, hindexIn, hheight, hindex.placed (k, b) hmem]
  · unfold enumeration
    rw [hasked, List.flatMap_append, List.flatMap_cons, hb]
    simp

include hlimit

/-- What a page before a cursor holds, against the transactions just before it. -/
theorem listTxns_before_preceding (pre post : List TxnWithInfo) (x : TxnWithInfo)
    (hall : enumeration env now maxHeight order.toBlockListOrder blocks = pre ++ x :: post)
    (hx : x.position = ⟨k, i⟩) :
    (∃ cursor, listTxns env now maxHeight db
      ⟨limit, some (.before (.beforeInclusive ⟨k, i⟩)), order⟩ =
        .ok (cursor, pre.drop (pre.length - txnLimit limit))) ↔ Uncut limit before b i := by
  obtain ⟨own, x', later, hx', hb, hlen, hplace⟩ :=
    exists_place order hindex before after k b hasked i hi
  obtain ⟨rfl, rfl⟩ := hindex.place_unique _ _ _ _ _ x x' hall hplace (hx.trans hx'.symm)
  have hk : x.blockHeight = k := congrArg ListTxnsPosition.block hx
  subst hk
  have hpage := hindex.listTxns_before limit order before after b x own later hasked hb
  dsimp only at hpage
  rw [hx] at hpage
  have hnodup := List.Nodup.of_map _ (hindex.positions_nodup order.toBlockListOrder)
  have hne : ∀ g ∈ before, blockTxns env now maxHeight g.2 ≠ [] := by
    intro g hg
    apply hindex.non_empty g
    rw [← mem_asked order.toBlockListOrder, hasked]
    simp [hg]
  have happart : (before.flatMap (fun g => blockTxns env now maxHeight g.2) ++ own ++
      later).Nodup := by
    rw [hplace] at hnodup
    have hlater : later.Sublist
        (x :: (later ++ after.flatMap fun g => blockTxns env now maxHeight g.2)) :=
      (List.sublist_append_left _ _).trans (List.sublist_cons_self _ _)
    exact List.Nodup.sublist (hlater.append_left _) hnodup
  have hiff := take_before_iff (fun g : Height × BlockFormat => blockTxns env now maxHeight g.2)
    before hne (txnLimit limit) (txnLimit_pos limit hlimit) own later happart
  have hcount := blockTxns_length env now maxHeight b
  rw [hb, List.length_append, List.length_cons] at hcount
  refine Iff.trans ?_ (hiff.trans ?_)
  · rw [hpage]
    constructor
    · rintro ⟨cursor, heq⟩
      exact congrArg Prod.snd (Except.ok.inj heq)
    · intro heq
      exact ⟨_, by rw [heq]⟩
  · rw [txnCount_eq]
    constructor
    · rintro ⟨hown, hfits, hfills⟩
      subst hown
      refine ⟨hlen.symm, hfits, hfills.imp_right ?_⟩
      rintro rfl
      exact hcount.symm
    · rintro ⟨rfl, hfits, hfills⟩
      have hown := List.length_eq_zero_iff.mp hlen
      refine ⟨hown, hfits, hfills.imp_right fun hone => ?_⟩
      rw [← List.length_eq_zero_iff]
      omega

theorem pageBefore_iff :
    PageBefore env now maxHeight db limit order ⟨k, i⟩ ↔ Uncut limit before b i := by
  obtain ⟨own, x, later, hx, -, -, hplace⟩ :=
    exists_place order hindex before after k b hasked i hi
  have hall := listTxns_before_preceding limit order hindex hlimit before after k b hasked i hi
  constructor
  · rintro ⟨fuel, pages, pre, x', post, cursor, hpages, hflatten, hx', hpage⟩
    have hfollow := (hindex.pages limit order).of_follow (txnLimit_pos limit hlimit) fuel pages
      hpages
    exact (hall pre post x' (hfollow.1.symm.trans hflatten) hx').mp ⟨cursor, hpage⟩
  · intro huncut
    obtain ⟨cursor, hpage⟩ := (hall _ _ x hplace hx).mpr huncut
    obtain ⟨pages, hpages, hflatten, -⟩ := followAfter_pages env now maxHeight hindex limit hlimit
      order _ (Nat.lt_succ_self _)
    exact ⟨_, pages, _, x, _, cursor, hpages, hflatten.trans hplace, hx, hpage⟩

/-- Going back from a page that starts at the position. -/
theorem returns_iff (fuel : ℕ) (pages done later : List (List TxnWithInfo)) (p q : List TxnWithInfo)
    (hpages : followAfter env now maxHeight db limit order fuel = .ok (some pages))
    (hsplit : pages = done ++ p :: q :: later)
    (hstart : q.head?.map TxnWithInfo.position = some ⟨k, i⟩) :
    (∃ cursor, listTxns env now maxHeight db
      ⟨limit, some (.before (.beforeInclusive ⟨k, i⟩)), order⟩ = .ok (cursor, p)) ↔
        Uncut limit before b i := by
  obtain ⟨hflatten, hchunks⟩ := (hindex.pages limit order).of_follow (txnLimit_pos limit hlimit)
    fuel pages hpages
  obtain ⟨x, hhead, hx⟩ := Option.map_eq_some_iff.mp hstart
  obtain ⟨rest, rfl⟩ : ∃ rest, q = x :: rest := by
    cases q with
    | nil => cases hhead
    | cons y rest => exact ⟨rest, by rw [Option.some.inj hhead]⟩
  have hfull := hchunks.full done p (x :: rest) later hsplit
  have hplace : enumeration env now maxHeight order.toBlockListOrder blocks =
      (done.flatten ++ p) ++ x :: (rest ++ later.flatten) := by
    rw [← hflatten, hsplit]
    simp
  have hdrop : (done.flatten ++ p).drop ((done.flatten ++ p).length - txnLimit limit) = p := by
    rw [drop_last_append _ _ _ (by omega), hfull, Nat.sub_self]
    rfl
  have hall := listTxns_before_preceding limit order hindex hlimit before after k b hasked i hi
    _ _ x hplace hx
  rwa [hdrop] at hall

end Backward

/-- A page backward is the one before the cursor exactly if no block is cut, and then going
back from a page returns the page before it. -/
theorem listTxns_before_iff (env : NodeEnv) (calls : List BlockFormat) (now : ℕ)
    (maxHeight : Height) (limit : Option ℕ) (hlimit : limit ≠ some 0) (order : ListTxnOrder) :
    ∃ db, sets (nodeApi env) (create _ _) calls = .ok db ∧
      ∃ blocks, listNonEmpty db ⟨.unbounded, .unbounded⟩ order.toBlockListOrder =
          blocks.map .ok ∧
        ∀ before k b after, blocks = before ++ (k, b) :: after →
          ∀ i < b.intoBlock.content.state.txns.length,
            (PageBefore env now maxHeight db limit order ⟨k, i⟩ ↔ Uncut limit before b i) ∧
            ∀ fuel pages done p q later,
              followAfter env now maxHeight db limit order fuel = .ok (some pages) →
                pages = done ++ p :: q :: later →
                  q.head?.map TxnWithInfo.position = some ⟨k, i⟩ →
                    ((∃ cursor, listTxns env now maxHeight db
                      ⟨limit, some (.before (.beforeInclusive ⟨k, i⟩)), order⟩ =
                        .ok (cursor, p)) ↔ Uncut limit before b i) := by
  obtain ⟨db, hsets, hcontent⟩ := sets_content (nodeApi env) calls
  obtain ⟨blocks, hindex⟩ := exists_txnIndex env now maxHeight hcontent
  refine ⟨db, hsets, _, hindex.filed.listNonEmpty_all order.toBlockListOrder, ?_⟩
  intro before k b after hasked i hi
  refine ⟨pageBefore_iff limit order hindex hlimit before after k b hasked i hi, ?_⟩
  intro fuel pages done p q later hpages hsplit hstart
  exact returns_iff limit order hindex hlimit before after k b hasked i hi fuel pages done later
    p q hpages hsplit hstart

section Examples

/-- A block with transactions that differ in their recent roots. -/
def blockWith (height : ℕ) (recentRoots : List ScalarField.Element) : BlockFormat :=
  .v1 ⟨⟨⟨height, 0#256, 0, 0#256, []⟩, ⟨0#256, recentRoots.map fun root =>
    ⟨root, 0#256, 0#256, (0#256, 0#256), (0#256, 0#256), []⟩⟩⟩, Vector.replicate 65 0⟩

theorem followAfter_enumerates_two :
    ∃ db, sets (nodeApi trustingEnv) (create _ _)
        [blockWith 2 [1#256], blockWith 3 [2#256, 3#256]] = .ok db ∧
      ∃ txns, Enumerates trustingEnv [blockWith 2 [1#256], blockWith 3 [2#256, 3#256]] db
          .highestToLowest txns ∧
        ∀ fuel, txns.length < fuel →
          ∃ pages, followAfter trustingEnv 0 3 db (some 1) .newestToOldest fuel =
              .ok (some pages) ∧ pages.flatten = txns :=
  followAfter_enumerates trustingEnv [blockWith 2 [1#256], blockWith 3 [2#256, 3#256]] 0 3
    (some 1) (by decide) .newestToOldest

/-- A block replaced by one without transactions is listed with a transaction that no stored
block has. -/
theorem not_enumerates_replaced :
    ∃ db, sets (nodeApi trustingEnv) (create _ _) [blockWith 2 [1#256], blockWith 2 []] = .ok db ∧
      ∃ fuel pages, followAfter trustingEnv 0 2 db (some 1) .newestToOldest fuel =
          .ok (some pages) ∧
        ∃ txn ∈ pages.flatten, ∀ k b, get db k = .ok (some b) →
          txn.proof ∉ b.intoBlock.content.state.txns := by
  obtain ⟨db, hsets, hcontent⟩ :=
    sets_content (nodeApi trustingEnv) [blockWith 2 [1#256], blockWith 2 []]
  obtain ⟨blocks, hindex⟩ := exists_txnIndex trustingEnv 0 2 hcontent
  obtain ⟨pages, hpages, hflatten, -⟩ := followAfter_pages trustingEnv 0 2 hindex (some 1)
    (by decide) .newestToOldest _ (Nat.lt_succ_self _)
  have hlisted : db.lookup (.nonEmptyBlock 2) = some (.block (blockWith 2 [1#256])) := by
    rw [hcontent.nonEmpty]
    rfl
  have hmem : (2, blockWith 2 [1#256]) ∈ blocks := by
    obtain ⟨b, hb, hmem⟩ := (hindex.filed.lookup_iff _ _).mp hlisted
    rwa [Value.block.inj hb]
  obtain ⟨txn, htxn⟩ : ∃ txn, (blockTxns trustingEnv 0 2 (blockWith 2 [1#256]))[0]? = some txn :=
    ⟨_, rfl⟩
  refine ⟨db, hsets, _, pages, hpages, txn, ?_, fun k b hb => ?_⟩
  · rw [hflatten]
    exact List.mem_flatMap.mpr ⟨_, (mem_asked _ _ _).mpr hmem, List.mem_of_getElem? htxn⟩
  · obtain ⟨hheight, before, after, hcalls, -⟩ := hcontent.stored k b hb
    have hcall : b ∈ [blockWith 2 [1#256], blockWith 2 []] := by
      rw [hcalls]
      simp
    have hk : k = 2 := by
      rcases List.mem_pair.mp hcall with rfl | rfl <;> exact hheight.symm
    have hlast : get db 2 = .ok (some (blockWith 2 [])) := by
      rw [hcontent.get]
      rfl
    rw [hk, hlast] at hb
    obtain rfl := Option.some.inj (Except.ok.inj hb)
    exact List.not_mem_nil

theorem listTxns_before_iff_two :
    ∃ db, sets (nodeApi trustingEnv) (create _ _)
        [blockWith 2 [1#256], blockWith 3 [2#256, 3#256]] = .ok db ∧
      ∃ blocks, listNonEmpty db ⟨.unbounded, .unbounded⟩ .lowestToHighest = blocks.map .ok ∧
        ∀ before k b after, blocks = before ++ (k, b) :: after →
          ∀ i < b.intoBlock.content.state.txns.length,
            (PageBefore trustingEnv 0 3 db (some 1) .oldestToNewest ⟨k, i⟩ ↔
              Uncut (some 1) before b i) ∧
            ∀ fuel pages done p q later,
              followAfter trustingEnv 0 3 db (some 1) .oldestToNewest fuel = .ok (some pages) →
                pages = done ++ p :: q :: later →
                  q.head?.map TxnWithInfo.position = some ⟨k, i⟩ →
                    ((∃ cursor, listTxns trustingEnv 0 3 db
                      ⟨some 1, some (.before (.beforeInclusive ⟨k, i⟩)), .oldestToNewest⟩ =
                        .ok (cursor, p)) ↔ Uncut (some 1) before b i) :=
  listTxns_before_iff trustingEnv [blockWith 2 [1#256], blockWith 3 [2#256, 3#256]] 0 3
    (some 1) (by decide) .oldestToNewest

/-- From the second transaction of a block the way back does not lead to the first one. -/
theorem not_pageBefore :
    ¬∀ (env : NodeEnv) (calls : List BlockFormat) (now : ℕ) (maxHeight : Height)
      (limit : Option ℕ) (order : ListTxnOrder) (db : Db BlockFormat TxnFormat), limit ≠ some 0 →
        sets (nodeApi env) (create _ _) calls = .ok db →
          ∀ k b i, get db k = .ok (some b) → i < b.intoBlock.content.state.txns.length →
            PageBefore env now maxHeight db limit order ⟨k, i⟩ := by
  intro hclaim
  obtain ⟨db, hsets, hcontent⟩ := sets_content (nodeApi trustingEnv) [blockWith 1 [1#256, 2#256]]
  have hget : get db 1 = .ok (some (blockWith 1 [1#256, 2#256])) := by
    rw [hcontent.get]
    rfl
  have hpage := hclaim trustingEnv _ 0 1 (some 1) .oldestToNewest db (by decide) hsets 1 _ 1 hget
    (by decide)
  obtain ⟨blocks, hindex⟩ := exists_txnIndex trustingEnv 0 1 hcontent
  have hmem : (1, blockWith 1 [1#256, 2#256]) ∈ blocks := by
    have hlookup := hcontent.non_empty_found 1 _ hget (by
      simp [nodeApi, blockWith, BlockFormat.intoBlock])
    obtain ⟨b, hb, hmem⟩ := (hindex.filed.lookup_iff _ _).mp hlookup
    rwa [Value.block.inj hb]
  obtain ⟨before, after, hsplit⟩ := List.append_of_mem hmem
  have huncut := (pageBefore_iff (some 1) .oldestToNewest hindex (by decide) before after 1 _
    hsplit 1 (by decide)).mp hpage
  exact absurd huncut.first (by decide)

end Examples
end PayyRollup.TxnPaging
