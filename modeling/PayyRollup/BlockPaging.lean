import PayyRollup.TxnPages

/-!
Reading the blocks of a store page by page, all of them or those with transactions. Following
the cursors after each page reads the whole listing in the asked order, each block once, and
ends with an empty page. A page before a height holds the last blocks of that listing that
come before the height, and the height itself if the cursor is inclusive, in the order of the
listing. A cursor may stand at a height without a block.
-/
namespace PayyRollup.BlockPaging

open KeyValueStore SmirkTree BlockStoreDb CursorPages TxnPages
open NodeBlocks hiding Error

variable {B T : Type}

section Pages

variable (key : ListableKey) (db : Db B T) (order : BlockListOrder) (limit : ℕ)

/-- A page after a cursor, with the cursor that a paginator builds over it. -/
def pageAfter (itemToPos : B → Height) (after : Option (CursorChoiceAfter Height)) :
    Outcome Error (Option (CursorChoiceAfter Height) × List (Height × B)) := do
  let blocks ← key.blocksPaginated db (after.map .after) order limit
  let (cursor, blocks) := paginatorCollect (fun r => itemToPos r.2) ⟨none, none⟩ blocks
  let blocks ← blocks
  return (cursor.after, blocks)

end Pages

instance (order : BlockListOrder) (a b : Height) : Decidable (order.Precedes a b) :=
  match order with
  | .lowestToHighest => inferInstanceAs (Decidable (a < b))
  | .highestToLowest => inferInstanceAs (Decidable (b < a))

/-- The last elements of a list, up to a limit. -/
def lastUpTo {A : Type} (limit : ℕ) (xs : List A) : List A := xs.drop (xs.length - limit)

/-- The pages of one kind of keys partition the listing, and the pages before a height hold
what comes just before it there. -/
structure Paged (api : BlockApi B T) (key : ListableKey) (db : Db B T) (order : BlockListOrder)
    (limit : ℕ) (blocks : List (Height × B)) : Prop where
  listing : key.listBlocks db ⟨.unbounded, .unbounded⟩ order = blocks.map .ok
  stored : ∀ h b, (h, b) ∈ blocks ↔ db.lookup (key.toKey h) = some (.block b)
  in_order : blocks.Pairwise fun a b => order.Precedes a.1 b.1
  after : ∀ fuel, blocks.length < fuel → ∃ pages,
    follow (pageAfter key db order limit api.blockHeight) fuel none = .ok (some pages) ∧
      pages.flatten = blocks ∧ Chunks limit pages
  before : ∀ h, key.blocksPaginated db (some (.before (.before h))) order limit =
    .ok ((lastUpTo limit (blocks.filter fun b => decide (order.Precedes b.1 h))).map .ok)
  before_inclusive : ∀ h,
    key.blocksPaginated db (some (.before (.beforeInclusive h))) order limit = .ok ((lastUpTo limit
      (blocks.filter fun b => decide (b.1 = h ∨ order.Precedes b.1 h))).map .ok)

section Cursors

variable {key : ListableKey} {db : Db B T} {blocks : List (Height × B)}

theorem contains_after_exclusive (order : BlockListOrder) (k a : Height) :
    (cursorRange (some (.after (.after k))) order).Contains a ↔ order.Precedes k a := by
  cases order with
  | lowestToHighest => exact and_iff_left trivial
  | highestToLowest => exact and_iff_right trivial

theorem contains_before_exclusive (order : BlockListOrder) (k a : Height) :
    (cursorRange (some (.before (.before k))) order).Contains a ↔ order.Precedes a k := by
  cases order with
  | lowestToHighest => exact and_iff_right trivial
  | highestToLowest => exact and_iff_left trivial

/-- The blocks before a cursor, for any condition that its range stands for. -/
theorem blocksPaginated_before (h : Filed key db blocks) (order : BlockListOrder) (limit : ℕ)
    (cursor : CursorChoiceBefore Height) (P : Height → Prop) [DecidablePred P]
    (hrange : ∀ a, (cursorRange (some (.before cursor)) order).Contains a ↔ P a) :
    key.blocksPaginated db (some (.before cursor)) order limit =
      .ok ((lastUpTo limit ((order.asked blocks).filter fun b => decide (P b.1))).map .ok) := by
  rw [h.blocksPaginated]
  simp only [hrange]
  rfl

/-- The page after a cursor and the cursor of its last block. -/
theorem pageAfter_eq (h : Filed key db blocks) (order : BlockListOrder) (limit : ℕ)
    (itemToPos : B → Height) (after : Option (CursorChoiceAfter Height)) (P : Height → Prop)
    [DecidablePred P]
    (hrange : ∀ a, (cursorRange (after.map .after) order).Contains a ↔ P a) :
    let page := ((order.asked blocks).filter fun b => decide (P b.1)).take limit
    pageAfter key db order limit itemToPos after =
      .ok (page.getLast?.map fun b => .after (itemToPos b.2), page) := by
  intro page
  have hpage : pageOf (after.map .after) limit ((order.asked blocks).filter fun b =>
      decide ((cursorRange (after.map .after) order).Contains b.1)) = page := by
    simp only [hrange]
    cases after <;> rfl
  unfold pageAfter
  rw [h.blocksPaginated, hpage]
  change (do
    let (cursor, blocks) := paginatorCollect (fun r : Height × B => itemToPos r.2) ⟨none, none⟩
      (page.map (.ok : _ → Outcome Error (Height × B)))
    let blocks ← blocks
    return (cursor.after, blocks)) = _
  rw [paginatorCollect_ok]
  simp [pure, Except.pure, bind, Except.bind]

/-- The pages after the cursors are those of the listing. -/
theorem pages_after (h : Filed key db blocks) (order : BlockListOrder) (limit : ℕ)
    (itemToPos : B → Height) (hpos : ∀ b ∈ blocks, itemToPos b.2 = b.1) :
    Pages (pageAfter key db order limit itemToPos) (fun b => .after (itemToPos b.2)) limit
      (order.asked blocks) := by
  refine ⟨?_, fun before x after hall => ?_⟩
  · have hall : (order.asked blocks).filter (fun b => decide True) = order.asked blocks := by
      simp
    have hpage := pageAfter_eq h order limit itemToPos none (fun _ => True)
      (fun a => iff_of_true (contains_first order a) trivial)
    rwa [hall] at hpage
  · have hx : x ∈ blocks := by
      rw [← mem_asked order, hall]
      simp
    have hpage := pageAfter_eq h order limit itemToPos (some (.after (itemToPos x.2)))
      (order.Precedes x.1) (fun a => by
        rw [hpos x hx]
        exact contains_after_exclusive order x.1 a)
    obtain ⟨hbefore, hafter⟩ := h.around order before after x.1 x.2 hall
    have hfilter : (order.asked blocks).filter (fun b => decide (order.Precedes x.1 b.1)) =
        after := by
      rw [hall, List.filter_append, List.filter_cons_of_neg (by
        simpa using BlockListOrder.Precedes.irrefl order x.1), List.filter_eq_nil_iff.mpr,
        List.nil_append, List.filter_eq_self]
      · intro b hb
        exact decide_eq_true (hafter b hb)
      · intro b hb
        rw [decide_eq_true_eq]
        exact BlockListOrder.Precedes.asymm order _ _ (hbefore b hb)
    rwa [hfilter] at hpage

end Cursors

/-- The records of one kind of keys are blocks under their own heights. -/
def OwnHeights (api : BlockApi B T) (key : ListableKey) (db : Db B T) : Prop :=
  ∀ h v, db.lookup (key.toKey h) = some v → ∃ b, v = .block b ∧ api.blockHeight b = h

theorem OwnHeights.paged {api : BlockApi B T} {key : ListableKey} {db : Db B T}
    (h : OwnHeights api key db) (order : BlockListOrder) (limit : ℕ) (hlimit : 0 < limit) :
    ∃ blocks, Paged api key db order limit blocks := by
  obtain ⟨blocks, hfiled⟩ := exists_filed key db fun k v hv => by
    obtain ⟨b, rfl, -⟩ := h k v hv
    exact ⟨b, rfl⟩
  have hpos : ∀ b ∈ blocks, api.blockHeight b.2 = b.1 := by
    intro b hb
    obtain ⟨c, hc, hheight⟩ := h b.1 _ ((hfiled.lookup_iff b.1 _).mpr ⟨b.2, rfl, hb⟩)
    rwa [Value.block.inj hc]
  refine ⟨order.asked blocks, ?_, ?_, hfiled.asked_sorted order, ?_, ?_, ?_⟩
  · have hall : blocks.filter (fun b =>
        decide (HeightRange.Contains ⟨.unbounded, .unbounded⟩ b.1)) = blocks := by
      rw [List.filter_eq_self]
      intro b _
      exact decide_eq_true ⟨trivial, trivial⟩
    rw [hfiled.listBlocks, hall]
  · intro k b
    rw [mem_asked, hfiled.lookup_iff]
    constructor
    · exact fun hb => ⟨b, rfl, hb⟩
    · rintro ⟨c, hc, hmem⟩
      rwa [Value.block.inj hc]
  · intro fuel hfuel
    exact (pages_after hfiled order limit api.blockHeight hpos).follow_all hlimit fuel hfuel
  · intro k
    exact blocksPaginated_before hfiled order limit _ _
      fun a => contains_before_exclusive order k a
  · intro k
    exact blocksPaginated_before hfiled order limit _ _ fun a => contains_before order k a

section Stores

variable {api : BlockApi B T} {calls : List B} {db : Db B T}

theorem keyBlock_ownHeights (h : Content api calls db) : OwnHeights api keyBlock db := by
  intro k v hv
  rw [show keyBlock.toKey k = .block k from rfl, h.block, Option.map_eq_some_iff] at hv
  obtain ⟨b, hb, rfl⟩ := hv
  exact ⟨b, rfl, of_decide_eq_true (mem_of_lastWith _ _ _ hb).2⟩

theorem keyNonEmptyBlock_ownHeights (h : Content api calls db) :
    OwnHeights api keyNonEmptyBlock db := by
  intro k v hv
  rw [show keyNonEmptyBlock.toKey k = .nonEmptyBlock k from rfl, h.nonEmpty,
    Option.map_eq_some_iff] at hv
  obtain ⟨b, hb, rfl⟩ := hv
  have hp := (mem_of_lastWith _ _ _ hb).2
  rw [Bool.and_eq_true, decide_eq_true_eq] at hp
  exact ⟨b, rfl, hp.1⟩

/-- The listing of all blocks has the stored ones. -/
theorem mem_blocks_iff (h : Content api calls db) (k : Height) (b : B) :
    db.lookup (keyBlock.toKey k) = some (.block b) ↔ BlockStoreDb.get db k = .ok (some b) := by
  rw [show keyBlock.toKey k = .block k from rfl, h.block, h.get, Except.ok.injEq]
  cases lastWith (fun b => decide (api.blockHeight b = k)) calls <;> simp

/-- A listed block with transactions is one the store was filled with, and it is still stored
if no other block came with its height. -/
theorem nonEmpty_of_listed (h : Content api calls db) (k : Height) (b : B)
    (hb : db.lookup (keyNonEmptyBlock.toKey k) = some (.block b)) :
    b ∈ calls ∧ api.blockHeight b = k ∧ api.txns b ≠ [] ∧
      ((∀ c ∈ calls, api.blockHeight c = k → c = b) →
        BlockStoreDb.get db k = .ok (some b)) := by
  rw [show keyNonEmptyBlock.toKey k = .nonEmptyBlock k from rfl, h.nonEmpty,
    Option.map_eq_some_iff] at hb
  obtain ⟨c, hc, hcb⟩ := hb
  obtain rfl := Value.block.inj hcb
  obtain ⟨hmem, hp⟩ := mem_of_lastWith _ _ _ hc
  rw [Bool.and_eq_true, decide_eq_true_eq] at hp
  refine ⟨hmem, hp.1, fun hnil => by simp [hnil] at hp, fun hone => ?_⟩
  obtain ⟨d, hd⟩ := h.stored_of_mem c hmem
  rw [hp.1] at hd
  obtain ⟨hheight, before, after, hcalls, -⟩ := h.stored k d hd
  have hdmem : d ∈ calls := by
    rw [hcalls]
    simp
  rw [hd, hone d hdmem hheight]

end Stores

/-- Whatever blocks a store was filled with, both paginated listings partition their listing
into the pages after the cursors, and return what comes just before a height in it. -/
theorem listPaginated_paged (api : BlockApi B T) (calls : List B) (order : BlockListOrder)
    (limit : ℕ) (hlimit : 1 ≤ limit) :
    ∃ db, sets api (create B T) calls = .ok db ∧
      (∃ blocks, Paged api keyBlock db order limit blocks ∧
        ∀ k b, (k, b) ∈ blocks ↔ BlockStoreDb.get db k = .ok (some b)) ∧
      ∃ blocks, Paged api keyNonEmptyBlock db order limit blocks ∧
        (∀ k b, BlockStoreDb.get db k = .ok (some b) → api.txns b ≠ [] → (k, b) ∈ blocks) ∧
        ∀ k b, (k, b) ∈ blocks → b ∈ calls ∧ api.blockHeight b = k ∧ api.txns b ≠ [] ∧
          ((∀ c ∈ calls, api.blockHeight c = k → c = b) →
            BlockStoreDb.get db k = .ok (some b)) := by
  obtain ⟨db, hsets, hcontent⟩ := sets_content api calls
  obtain ⟨blocks, hblocks⟩ := (keyBlock_ownHeights hcontent).paged order limit hlimit
  obtain ⟨filled, hfilled⟩ := (keyNonEmptyBlock_ownHeights hcontent).paged order limit hlimit
  refine ⟨db, hsets, ⟨blocks, hblocks, fun k b => ?_⟩, filled, hfilled, fun k b hb hne => ?_,
    fun k b hb => ?_⟩
  · rw [hblocks.stored]
    exact mem_blocks_iff hcontent k b
  · rw [hfilled.stored]
    exact hcontent.non_empty_found k b hb hne
  · exact nonEmpty_of_listed hcontent k b ((hfilled.stored k b).mp hb)

/-- Three blocks, of which the second has no transactions, in pages of one. -/
theorem listPaginated_paged_three :
    let calls := [(1, 0#256, [1#256]), (3, 1#256, []), (2, 2#256, [2#256])]
    ∃ db, sets dummyApi (create _ _) calls = .ok db ∧
      (∃ blocks, Paged dummyApi keyBlock db .highestToLowest 1 blocks ∧
        ∀ k b, (k, b) ∈ blocks ↔ BlockStoreDb.get db k = .ok (some b)) ∧
      ∃ blocks, Paged dummyApi keyNonEmptyBlock db .highestToLowest 1 blocks ∧
        (∀ k b, BlockStoreDb.get db k = .ok (some b) → dummyApi.txns b ≠ [] →
          (k, b) ∈ blocks) ∧
        ∀ k b, (k, b) ∈ blocks → b ∈ calls ∧ dummyApi.blockHeight b = k ∧
          dummyApi.txns b ≠ [] ∧ ((∀ c ∈ calls, dummyApi.blockHeight c = k → c = b) →
            BlockStoreDb.get db k = .ok (some b)) :=
  listPaginated_paged dummyApi [(1, 0#256, [1#256]), (3, 1#256, []), (2, 2#256, [2#256])]
    .highestToLowest 1 (by decide)

end PayyRollup.BlockPaging
