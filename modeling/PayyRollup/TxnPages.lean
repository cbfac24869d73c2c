import PayyRollup.BlockStorePages
import PayyRollup.CursorPages

/-!
The listing of transactions, page by page. A page is read from the blocks that have
transactions: one block more than the page has transactions is fetched, starting or ending
with the block of the cursor, and the transactions of that block up to the cursor are
skipped. Going forward this gives the next transactions. Going backward the same ones are
skipped, which are those before the cursor instead of those after it, and the page is filled
from the far end of what was fetched. Waiting for new blocks on an empty page is left out: it
only repeats the listing. The clock is read once for a listing.
-/
namespace PayyRollup.TxnPages

open NodeBlocks hiding Error
open SmirkTree BlockStoreDb CursorPages

structure ListTxnsPosition where
  block : Height
  txn : ℕ
  deriving DecidableEq

inductive ListTxnOrder
  | newestToOldest
  | oldestToNewest

def ListTxnOrder.toBlockListOrder : ListTxnOrder → BlockListOrder
  | newestToOldest => .highestToLowest
  | oldestToNewest => .lowestToHighest

structure ListTxnsQuery where
  limit : Option ℕ
  cursor : Option (CursorChoice ListTxnsPosition)
  order : ListTxnOrder

structure TxnWithInfo where
  proof : UtxoProof
  indexInBlock : ℕ
  hash : CryptoHash
  blockHeight : Height
  time : ℕ

def TxnWithInfo.position (txn : TxnWithInfo) : ListTxnsPosition :=
  ⟨txn.blockHeight, txn.indexInBlock⟩

/-- One second for each block up to the greatest height; the machine integer wraps around. -/
def estimateBlockTime (now : ℕ) (height maxHeight : Height) : ℕ :=
  (now + 2 ^ 64 - (maxHeight.val - height.val)) % 2 ^ 64

def txnLimit (limit : Option ℕ) : ℕ := min (limit.getD 10) 100

/-- Pairs are compared by their first components first. -/
def ListTxnsPosition.Le (p q : ListTxnsPosition) : Prop :=
  p.block < q.block ∨ p.block = q.block ∧ p.txn ≤ q.txn

instance (p q : ListTxnsPosition) : Decidable (p.Le q) := by
  unfold ListTxnsPosition.Le
  exact inferInstance

/-- The transactions of the block of a cursor that are skipped. -/
def txnsToSkip (cursor : Option (CursorChoice ListTxnsPosition)) (p : ListTxnsPosition) : Bool :=
  match cursor with
  | some cursor => decide (ListTxnsPosition.Le ⟨cursor.inner.block, 0⟩ p ∧ p.Le cursor.inner)
  | none => false

section Paginator

variable {ε A Pos : Type} (itemToPos : A → Pos)

def advance (cursor : Cursor Pos) (pos : Pos) : Cursor Pos :=
  { after := some (.after pos)
    before := cursor.before.or (some (.before pos)) }

/-- Collect the items up to the first error, with the first and the last position. -/
def paginatorCollect (cursor : Cursor Pos) :
    List (Except ε A) → Cursor Pos × Except ε (List A)
  | [] => (cursor, .ok [])
  | .error e :: _ => (cursor, .error e)
  | .ok item :: rest =>
      let others := paginatorCollect (advance cursor (itemToPos item)) rest
      (others.1, others.2.map (item :: ·))

end Paginator

section Listing

variable (env : NodeEnv) (now : ℕ) (maxHeight : Height)

def blockTxns (b : BlockFormat) : List TxnWithInfo :=
  b.intoBlock.content.state.txns.mapIdx fun i txn =>
    { proof := txn
      indexInBlock := i
      hash := txn.hash env
      blockHeight := (nodeApi env).blockHeight b
      time := b.timestamp.getD (estimateBlockTime now ((nodeApi env).blockHeight b) maxHeight) }

/-- The items of the fetched blocks; an error stays an item. -/
def flattenOk (blocks : List (Outcome Error BlockFormat)) : List (Outcome Error TxnWithInfo) :=
  blocks.flatMap fun r =>
    match r with
    | .ok b => (blockTxns env now maxHeight b).map .ok
    | .error e => [.error e]

def keeps (cursor : Option (CursorChoice ListTxnsPosition)) : Outcome Error TxnWithInfo → Bool
  | .ok txn => !txnsToSkip cursor txn.position
  | .error _ => true

def listTxnsInner (blockFetcher : Option (CursorChoice Height) → BlockListOrder → ℕ →
    Outcome Error (List (Outcome Error BlockFormat))) (query : ListTxnsQuery) :
    Outcome Error (Cursor ListTxnsPosition × List TxnWithInfo) := do
  let limit := txnLimit query.limit
  let blocks ← blockFetcher (query.cursor.map fun cursor => cursor.mapPos (·.block))
    query.order.toBlockListOrder (limit + 1)
  let transactions := ((flattenOk env now maxHeight blocks).filter (keeps query.cursor)).take limit
  let (cursor, transactions) := paginatorCollect TxnWithInfo.position ⟨none, none⟩ transactions
  let transactions ← transactions
  return (⟨cursor.after.map (·.inclusive), cursor.before.map (·.inclusive)⟩, transactions)

variable (db : Db BlockFormat TxnFormat)

def fetchBlocksNonEmptyPaginated (cursor : Option (CursorChoice Height)) (order : BlockListOrder)
    (limit : ℕ) : Outcome Error (List (Outcome Error BlockFormat)) :=
  (listNonEmptyPaginated db cursor order limit).map fun results =>
    results.map fun r => r.map Prod.snd

def listTxns (query : ListTxnsQuery) :
    Outcome Error (Cursor ListTxnsPosition × List TxnWithInfo) :=
  listTxnsInner env now maxHeight (fetchBlocksNonEmptyPaginated db) query

/-- A page after a cursor, with the cursor after that page. -/
def forwardPage (limit : Option ℕ) (order : ListTxnOrder)
    (after : Option (CursorChoiceAfter ListTxnsPosition)) :
    Outcome Error (Option (CursorChoiceAfter ListTxnsPosition) × List TxnWithInfo) :=
  (listTxns env now maxHeight db ⟨limit, after.map .after, order⟩).map fun page =>
    (page.1.after, page.2)

/-- Follow the returned cursors until a page comes back empty. -/
def followAfter (limit : Option ℕ) (order : ListTxnOrder) (fuel : ℕ) :
    Outcome Error (Option (List (List TxnWithInfo))) :=
  follow (forwardPage env now maxHeight db limit order) fuel none

end Listing

section Paginated

variable {ε : Type}

/-- The cursors at the ends of a page. -/
def ends (txns : List TxnWithInfo) : Cursor ListTxnsPosition :=
  ⟨txns.getLast?.map fun txn => .afterInclusive txn.position,
    txns.head?.map fun txn => .beforeInclusive txn.position⟩

theorem paginatorCollect_ok {A Pos : Type} (itemToPos : A → Pos) (cursor : Cursor Pos)
    (items : List A) :
    paginatorCollect itemToPos cursor (items.map (.ok : _ → Except ε A)) =
      (⟨(items.getLast?.map fun item => .after (itemToPos item)).or cursor.after,
        cursor.before.or (items.head?.map fun item => .before (itemToPos item))⟩,
        .ok items) := by
  induction items generalizing cursor with
  | nil =>
    change (cursor, _) = _
    simp
  | cons item items ih =>
    rw [List.map_cons, paginatorCollect, ih]
    cases items with
    | nil => simp [advance, Except.map]
    | cons next rest =>
      have hlast : (next :: rest).getLast? = some ((next :: rest).getLast (by simp)) :=
        List.getLast?_eq_some_getLast _
      rw [List.getLast?_cons_cons, hlast]
      simp [advance, Except.map]

end Paginated

section Index

variable (env : NodeEnv) (now : ℕ) (maxHeight : Height) {db : Db BlockFormat TxnFormat}
  {blocks : List (Height × BlockFormat)}

/-- The index of the blocks that have transactions. -/
structure TxnIndex (db : Db BlockFormat TxnFormat) (blocks : List (Height × BlockFormat)) :
    Prop where
  filed : Filed keyNonEmptyBlock db blocks
  placed : ∀ g ∈ blocks, (nodeApi env).blockHeight g.2 = g.1
  non_empty : ∀ g ∈ blocks, blockTxns env now maxHeight g.2 ≠ []

/-- All transactions in the order in which they are asked for. -/
def enumeration (order : BlockListOrder) (blocks : List (Height × BlockFormat)) :
    List TxnWithInfo :=
  (order.asked blocks).flatMap fun g => blockTxns env now maxHeight g.2

theorem blockTxns_getElem? (b : BlockFormat) (i : ℕ) (txn : TxnWithInfo)
    (h : (blockTxns env now maxHeight b)[i]? = some txn) :
    txn.indexInBlock = i ∧ txn.blockHeight = (nodeApi env).blockHeight b ∧
      b.intoBlock.content.state.txns[i]? = some txn.proof ∧ txn.hash = txn.proof.hash env := by
  unfold blockTxns at h
  rw [List.getElem?_mapIdx, Option.map_eq_some_iff] at h
  obtain ⟨proof, hproof, rfl⟩ := h
  exact ⟨rfl, rfl, hproof, rfl⟩

theorem blockTxns_height (b : BlockFormat) (txn : TxnWithInfo)
    (h : txn ∈ blockTxns env now maxHeight b) :
    txn.blockHeight = (nodeApi env).blockHeight b := by
  obtain ⟨i, hi⟩ := List.mem_iff_getElem?.mp h
  exact (blockTxns_getElem? env now maxHeight b i txn hi).2.1

theorem blockTxns_sorted (b : BlockFormat) :
    (blockTxns env now maxHeight b).Pairwise fun s t => s.indexInBlock < t.indexInBlock := by
  rw [List.pairwise_iff_getElem]
  intro i j hi hj hij
  rw [(blockTxns_getElem? env now maxHeight b i _ (List.getElem?_eq_getElem hi)).1,
    (blockTxns_getElem? env now maxHeight b j _ (List.getElem?_eq_getElem hj)).1]
  exact hij

/-- What is left of the fetched blocks for a page. -/
def pageTxns (cursor : Option (CursorChoice ListTxnsPosition)) (limit : ℕ)
    (fetched : List (Height × BlockFormat)) : List TxnWithInfo :=
  ((fetched.flatMap fun g => blockTxns env now maxHeight g.2).filter fun txn =>
    !txnsToSkip cursor txn.position).take limit

/-- The blocks that are fetched for a query. -/
def fetched (blocks : List (Height × BlockFormat)) (query : ListTxnsQuery) :
    List (Height × BlockFormat) :=
  let cursor := query.cursor.map fun cursor => cursor.mapPos (·.block)
  let order := query.order.toBlockListOrder
  pageOf cursor (txnLimit query.limit + 1)
    ((order.asked blocks).filter fun g => decide ((cursorRange cursor order).Contains g.1))

theorem flattenOk_ok (fetched : List (Height × BlockFormat)) :
    flattenOk env now maxHeight (fetched.map fun g => .ok g.2) =
      (fetched.flatMap fun g => blockTxns env now maxHeight g.2).map .ok := by
  unfold flattenOk
  rw [List.flatMap_map, List.map_flatMap]

theorem filter_keeps (cursor : Option (CursorChoice ListTxnsPosition)) (txns : List TxnWithInfo) :
    (txns.map .ok).filter (keeps cursor) =
      (txns.filter fun txn => !txnsToSkip cursor txn.position).map .ok := by
  rw [List.filter_map]
  rfl

/-- A listing reads the transactions of the fetched blocks and returns cursors at its ends. -/
theorem Filed.listTxns (h : Filed keyNonEmptyBlock db blocks) (query : ListTxnsQuery)
    (txns : List TxnWithInfo) (htxns : pageTxns env now maxHeight query.cursor
      (txnLimit query.limit) (fetched blocks query) = txns) :
    listTxns env now maxHeight db query = .ok (ends txns, txns) := by
  have hfetch : fetchBlocksNonEmptyPaginated db
      (query.cursor.map fun cursor => cursor.mapPos (·.block)) query.order.toBlockListOrder
      (txnLimit query.limit + 1) = .ok ((fetched blocks query).map fun g => .ok g.2) := by
    unfold fetchBlocksNonEmptyPaginated
    rw [h.listNonEmptyPaginated]
    change Except.ok (List.map _ (List.map _ (fetched blocks query))) = _
    rw [List.map_map]
    rfl
  have hcollect : paginatorCollect TxnWithInfo.position ⟨none, none⟩
      (((flattenOk env now maxHeight ((fetched blocks query).map fun g => .ok g.2)).filter
        (keeps query.cursor)).take (txnLimit query.limit)) =
      (⟨txns.getLast?.map fun txn => .after txn.position,
        txns.head?.map fun txn => .before txn.position⟩, .ok txns) := by
    rw [flattenOk_ok, filter_keeps, ← List.map_take, paginatorCollect_ok]
    simp [← htxns, pageTxns]
  unfold TxnPages.listTxns listTxnsInner
  dsimp only
  rw [hfetch]
  dsimp only [bind, Except.bind]
  rw [hcollect]
  simp only [pure, Except.pure, ends, Option.map_map]
  rfl

theorem txnsToSkip_eq_true (cursor : CursorChoice ListTxnsPosition) (p : ListTxnsPosition) :
    txnsToSkip (some cursor) p = true ↔
      p.block = cursor.inner.block ∧ p.txn ≤ cursor.inner.txn := by
  change decide (_ ∧ _) = true ↔ _
  rw [decide_eq_true_eq]
  unfold ListTxnsPosition.Le
  constructor
  · rintro ⟨hlow | ⟨hlow, -⟩, hhigh | ⟨hhigh, hle⟩⟩
    · exact absurd hhigh (lt_asymm hlow)
    · exact ⟨hhigh, hle⟩
    · exact absurd hlow.symm hhigh.ne
    · exact ⟨hhigh, hle⟩
  · rintro ⟨hblock, hle⟩
    exact ⟨Or.inr ⟨hblock.symm, Nat.zero_le _⟩, Or.inr ⟨hblock, hle⟩⟩

variable {env now maxHeight} (h : TxnIndex env now maxHeight db blocks)
  (cursor : CursorChoice ListTxnsPosition)

include h

theorem TxnIndex.mem_height (g : Height × BlockFormat) (hg : g ∈ blocks) (txn : TxnWithInfo)
    (htxn : txn ∈ blockTxns env now maxHeight g.2) : txn.blockHeight = g.1 := by
  rw [blockTxns_height env now maxHeight g.2 txn htxn, h.placed g hg]

/-- Other blocks than that of the cursor are kept. -/
theorem TxnIndex.filter_others (gs : List (Height × BlockFormat)) (hsub : ∀ g ∈ gs, g ∈ blocks)
    (hne : ∀ g ∈ gs, g.1 ≠ cursor.inner.block) :
    ((gs.flatMap fun g => blockTxns env now maxHeight g.2).filter fun txn =>
      !txnsToSkip (some cursor) txn.position) =
        gs.flatMap fun g => blockTxns env now maxHeight g.2 := by
  rw [List.filter_eq_self]
  intro txn htxn
  obtain ⟨g, hg, htxn⟩ := List.mem_flatMap.mp htxn
  rw [Bool.not_eq_true', ← Bool.not_eq_true, txnsToSkip_eq_true, not_and]
  intro hblock
  have hheight := h.mem_height g (hsub g hg) txn htxn
  exact absurd (hheight.symm.trans hblock) (hne g hg)

omit h in
/-- Of the block of the cursor the transactions after the cursor are kept. -/
theorem filter_own (b : BlockFormat) (own later : List TxnWithInfo) (x : TxnWithInfo)
    (hb : blockTxns env now maxHeight b = own ++ x :: later) (hx : cursor.inner = x.position) :
    ((blockTxns env now maxHeight b).filter fun txn =>
      !txnsToSkip (some cursor) txn.position) = later := by
  have hsorted := blockTxns_sorted env now maxHeight b
  have hheight : ∀ txn ∈ own ++ x :: later, txn.blockHeight = x.blockHeight := by
    intro txn htxn
    rw [← hb] at htxn
    have hxmem : x ∈ blockTxns env now maxHeight b := by
      rw [hb]
      simp
    rw [blockTxns_height env now maxHeight b txn htxn, blockTxns_height env now maxHeight b x hxmem]
  rw [hb] at hsorted ⊢
  obtain ⟨-, hlater, hown⟩ := List.pairwise_append.mp hsorted
  have hskip : ∀ txn ∈ own ++ x :: later, txnsToSkip (some cursor) txn.position = true ↔
      txn.indexInBlock ≤ x.indexInBlock := by
    intro txn htxn
    rw [txnsToSkip_eq_true, hx]
    exact and_iff_right (hheight txn htxn)
  have hnone : own.filter (fun txn => !txnsToSkip (some cursor) txn.position) = [] := by
    rw [List.filter_eq_nil_iff]
    intro txn htxn
    rw [Bool.not_eq_true', Bool.not_eq_false, hskip txn (List.mem_append_left _ htxn)]
    exact (hown txn htxn x List.mem_cons_self).le
  rw [List.filter_append, hnone, List.nil_append, List.filter_cons_of_neg, List.filter_eq_self]
  · intro txn htxn
    rw [Bool.not_eq_true', ← Bool.not_eq_true,
      hskip txn (List.mem_append_right _ (List.mem_cons_of_mem _ htxn)), not_le]
    exact (List.pairwise_cons.mp hlater).1 txn htxn
  · rw [Bool.not_eq_true', Bool.not_eq_false, hskip x (by simp)]

/-- A place in the enumeration is a place in a block. -/
theorem TxnIndex.exists_block (order : BlockListOrder) (pre post : List TxnWithInfo)
    (x : TxnWithInfo) (hall : enumeration env now maxHeight order blocks = pre ++ x :: post) :
    ∃ before b after own later, order.asked blocks = before ++ (x.blockHeight, b) :: after ∧
      blockTxns env now maxHeight b = own ++ x :: later ∧
      pre = before.flatMap (fun g => blockTxns env now maxHeight g.2) ++ own ∧
      post = later ++ after.flatMap fun g => blockTxns env now maxHeight g.2 := by
  obtain ⟨before, ⟨k, b⟩, after, own, later, hasked, hb, hpre, hpost⟩ :=
    exists_group _ _ pre post x hall
  have hmem : (k, b) ∈ blocks := by
    rw [← mem_asked order, hasked]
    simp
  have hk := h.mem_height (k, b) hmem x (by rw [hb]; simp)
  subst hk
  exact ⟨before, b, after, own, later, hasked, hb, hpre, hpost⟩

omit h in
theorem pageOf_before (cursor : Option (CursorChoice Height)) (hcursor : reverseResults cursor = true)
    (n : ℕ) (before : List (Height × BlockFormat)) (g : Height × BlockFormat) :
    pageOf cursor (n + 1) (before ++ [g]) = before.drop (before.length - n) ++ [g] := by
  unfold pageOf
  have hlen : (before ++ [g]).length - (n + 1) = before.length - n := by
    rw [List.length_append, List.length_singleton]
    omega
  rw [if_pos hcursor, hlen, List.drop_append_of_le_length (by omega)]

/-- The first page. -/
theorem TxnIndex.listTxns_first (limit : Option ℕ) (order : ListTxnOrder) :
    let txns := (enumeration env now maxHeight order.toBlockListOrder blocks).take (txnLimit limit)
    listTxns env now maxHeight db ⟨limit, none, order⟩ = .ok (ends txns, txns) := by
  apply Filed.listTxns env now maxHeight h.filed
  have hrange : ((order.toBlockListOrder.asked blocks).filter fun g =>
      decide ((cursorRange none order.toBlockListOrder).Contains g.1)) =
        order.toBlockListOrder.asked blocks := by
    rw [List.filter_eq_self]
    intro g _
    rw [decide_eq_true_eq]
    exact contains_first _ _
  have hfetched : fetched blocks ⟨limit, none, order⟩ =
      (order.toBlockListOrder.asked blocks).take (txnLimit limit + 1) := by
    change List.take (txnLimit limit + 1) (List.filter (fun g : Height × BlockFormat =>
      decide ((cursorRange none order.toBlockListOrder).Contains g.1)) _) = _
    rw [hrange]
  have hkeep : ∀ txns : List TxnWithInfo,
      (txns.filter fun txn => !txnsToSkip none txn.position) = txns := by
    intro txns
    rw [List.filter_eq_self]
    intro txn _
    rfl
  unfold pageTxns
  rw [hfetched, hkeep]
  apply take_flatMap_take _ _ _ _ _ (Nat.le_succ _)
  intro g hg
  rw [mem_asked] at hg
  exact h.non_empty g hg

section AtCursor

variable (limit : Option ℕ) (order : ListTxnOrder) (before after : List (Height × BlockFormat))
  (b : BlockFormat) (x : TxnWithInfo) (own later : List TxnWithInfo)
  (hasked : order.toBlockListOrder.asked blocks = before ++ (x.blockHeight, b) :: after)
  (hb : blockTxns env now maxHeight b = own ++ x :: later)

include hasked hb

/-- The page after a transaction. -/
theorem TxnIndex.listTxns_after :
    let txns := (later ++ after.flatMap fun g => blockTxns env now maxHeight g.2).take
      (txnLimit limit)
    listTxns env now maxHeight db ⟨limit, some (.after (.afterInclusive x.position)), order⟩ =
      .ok (ends txns, txns) := by
  apply Filed.listTxns env now maxHeight h.filed
  have hmem : ∀ g ∈ after, g ∈ blocks := by
    intro g hg
    rw [← mem_asked order.toBlockListOrder, hasked]
    simp [hg]
  have hother : ∀ g ∈ after, g.1 ≠ x.blockHeight := fun g hg =>
    (BlockListOrder.Precedes.ne _ _ _ ((h.filed.around _ before after _ b hasked).2 g hg)).symm
  have hfetched : fetched blocks ⟨limit, some (.after (.afterInclusive x.position)), order⟩ =
      (x.blockHeight, b) :: after.take (txnLimit limit) := by
    change List.take _ (List.filter (fun g : Height × BlockFormat => decide ((cursorRange
      (some (.after (.afterInclusive x.blockHeight))) _).Contains g.1)) _) = _
    rw [h.filed.filter_after _ before after _ b hasked, List.take_succ_cons]
  unfold pageTxns
  rw [hfetched, List.flatMap_cons, List.filter_append, filter_own _ b own later x hb rfl,
    h.filter_others (.after (.afterInclusive x.position)) (after.take _)
      (fun g hg => hmem g (List.mem_of_mem_take hg))
      (fun g hg => hother g (List.mem_of_mem_take hg)), List.take_append, List.take_append]
  congr 1
  apply take_flatMap_take _ _ _ _ _ (Nat.sub_le _ _)
  intro g hg
  exact h.non_empty g (hmem g hg)

/-- The page before a transaction. -/
theorem TxnIndex.listTxns_before :
    let txns := ((before.drop (before.length - txnLimit limit)).flatMap
      (fun g => blockTxns env now maxHeight g.2) ++ later).take (txnLimit limit)
    listTxns env now maxHeight db ⟨limit, some (.before (.beforeInclusive x.position)), order⟩ =
      .ok (ends txns, txns) := by
  apply Filed.listTxns env now maxHeight h.filed
  have hmem : ∀ g ∈ before, g ∈ blocks := by
    intro g hg
    rw [← mem_asked order.toBlockListOrder, hasked]
    simp [hg]
  have hother : ∀ g ∈ before, g.1 ≠ x.blockHeight := fun g hg =>
    BlockListOrder.Precedes.ne _ _ _ ((h.filed.around _ before after _ b hasked).1 g hg)
  have hfetched : fetched blocks ⟨limit, some (.before (.beforeInclusive x.position)), order⟩ =
      before.drop (before.length - txnLimit limit) ++ [(x.blockHeight, b)] := by
    change pageOf (some (.before (.beforeInclusive x.blockHeight))) _ (List.filter (fun g : Height × BlockFormat =>
      decide ((cursorRange (some (.before (.beforeInclusive x.blockHeight))) _).Contains g.1)) _) = _
    rw [h.filed.filter_before _ before after _ b hasked, pageOf_before _ rfl]
  unfold pageTxns
  rw [hfetched, List.flatMap_append, List.filter_append, List.flatMap_singleton,
    filter_own _ b own later x hb rfl,
    h.filter_others (.before (.beforeInclusive x.position)) (before.drop _)
      (fun g hg => hmem g (List.mem_of_mem_drop hg))
      (fun g hg => hother g (List.mem_of_mem_drop hg))]

end AtCursor

/-- Each page after a cursor holds the next transactions of the enumeration. -/
theorem TxnIndex.pages (limit : Option ℕ) (order : ListTxnOrder) :
    Pages (forwardPage env now maxHeight db limit order)
      (fun txn => .afterInclusive txn.position) (txnLimit limit)
      (enumeration env now maxHeight order.toBlockListOrder blocks) := by
  refine ⟨?_, fun pre x post hall => ?_⟩
  · unfold forwardPage
    rw [Option.map_none, h.listTxns_first limit order]
    rfl
  · obtain ⟨before, b, after, own, later, hasked, hb, -, rfl⟩ :=
      h.exists_block order.toBlockListOrder pre post x hall
    unfold forwardPage
    rw [Option.map_some, h.listTxns_after limit order before after b x own later hasked hb]
    rfl

/-- The transactions come by blocks in the asked order and by their positions in a block. -/
theorem TxnIndex.enumeration_sorted (order : BlockListOrder) :
    (enumeration env now maxHeight order blocks).Pairwise fun s t =>
      order.Precedes s.blockHeight t.blockHeight ∨
        s.blockHeight = t.blockHeight ∧ s.indexInBlock < t.indexInBlock := by
  have hmem : ∀ g ∈ order.asked blocks, g ∈ blocks := fun g hg => (mem_asked order g blocks).mp hg
  unfold enumeration
  rw [List.pairwise_flatMap]
  refine ⟨fun g hg => ?_, ?_⟩
  · apply (blockTxns_sorted env now maxHeight g.2).imp_of_mem
    intro s t hs ht hlt
    refine Or.inr ⟨?_, hlt⟩
    rw [h.mem_height g (hmem g hg) s hs, h.mem_height g (hmem g hg) t ht]
  · apply (h.filed.asked_sorted order).imp_of_mem
    intro g g' hg hg' hprecedes s hs t ht
    left
    rwa [h.mem_height g (hmem g hg) s hs, h.mem_height g' (hmem g' hg') t ht]

theorem TxnIndex.positions_nodup (order : BlockListOrder) :
    ((enumeration env now maxHeight order blocks).map TxnWithInfo.position).Nodup := by
  rw [List.nodup_iff_pairwise_ne, List.pairwise_map]
  apply (h.enumeration_sorted order).imp
  intro s t hst heq
  have hblock : s.blockHeight = t.blockHeight := congrArg ListTxnsPosition.block heq
  have htxn : s.indexInBlock = t.indexInBlock := congrArg ListTxnsPosition.txn heq
  rcases hst with hprecedes | ⟨-, hlt⟩
  · exact BlockListOrder.Precedes.ne _ _ _ hprecedes hblock
  · omega

/-- A transaction has one place in the enumeration. -/
theorem TxnIndex.place_unique (order : BlockListOrder) (pre post pre' post' : List TxnWithInfo)
    (x x' : TxnWithInfo) (hall : enumeration env now maxHeight order blocks = pre ++ x :: post)
    (hall' : enumeration env now maxHeight order blocks = pre' ++ x' :: post')
    (hx : x.position = x'.position) : pre = pre' ∧ x = x' := by
  have hnodup := h.positions_nodup order
  have hin : x ∈ enumeration env now maxHeight order blocks := by
    rw [hall]
    simp
  have hin' : x' ∈ enumeration env now maxHeight order blocks := by
    rw [hall']
    simp
  obtain rfl := List.inj_on_of_nodup_map hnodup hin hin' hx
  have hnodup := List.Nodup.of_map _ hnodup
  rw [hall] at hnodup hall'
  obtain ⟨-, hcons, hapart⟩ := List.nodup_append.mp hnodup
  have hpre : x ∉ pre := fun hmem => hapart x hmem x List.mem_cons_self rfl
  have hpost : x ∉ post := (List.nodup_cons.mp hcons).1
  exact ⟨((List.append_cons_inj_of_notMem hpre hpost).mp hall').1, rfl⟩

end Index
end PayyRollup.TxnPages
