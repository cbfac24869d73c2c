import PayyRollup.BlockStoreRanges

/-!
Pages of blocks. A cursor at a height becomes a range that ends or starts there, on the side
that the order asks for. Blocks before a cursor are read in the other order, away from the
cursor, and reversed afterwards; so a page ends at the cursor in one case and starts at it in
the other. The records of a store are given here as a list of blocks by ascending height.
-/
namespace PayyRollup.BlockStoreDb

open VerifierContracts NodeBlocks SmirkTree KeyValueStore

inductive CursorChoiceAfter (Pos : Type)
  | after (pos : Pos)
  | afterInclusive (pos : Pos)

inductive CursorChoiceBefore (Pos : Type)
  | before (pos : Pos)
  | beforeInclusive (pos : Pos)

inductive CursorChoice (Pos : Type)
  | after (cursor : CursorChoiceAfter Pos)
  | before (cursor : CursorChoiceBefore Pos)

structure Cursor (Pos : Type) where
  after : Option (CursorChoiceAfter Pos)
  before : Option (CursorChoiceBefore Pos)

namespace CursorChoiceAfter

variable {Pos NewPos : Type}

def inner : CursorChoiceAfter Pos → Pos
  | after pos => pos
  | afterInclusive pos => pos

def inclusive (cursor : CursorChoiceAfter Pos) : CursorChoiceAfter Pos :=
  afterInclusive cursor.inner

def toBound : CursorChoiceAfter Pos → Bound Pos
  | after pos => .excluded pos
  | afterInclusive pos => .included pos

def mapPos (f : Pos → NewPos) : CursorChoiceAfter Pos → CursorChoiceAfter NewPos
  | after pos => after (f pos)
  | afterInclusive pos => afterInclusive (f pos)

end CursorChoiceAfter

namespace CursorChoiceBefore

variable {Pos NewPos : Type}

def inner : CursorChoiceBefore Pos → Pos
  | before pos => pos
  | beforeInclusive pos => pos

def inclusive (cursor : CursorChoiceBefore Pos) : CursorChoiceBefore Pos :=
  beforeInclusive cursor.inner

def toBound : CursorChoiceBefore Pos → Bound Pos
  | before pos => .excluded pos
  | beforeInclusive pos => .included pos

def mapPos (f : Pos → NewPos) : CursorChoiceBefore Pos → CursorChoiceBefore NewPos
  | before pos => before (f pos)
  | beforeInclusive pos => beforeInclusive (f pos)

end CursorChoiceBefore

namespace CursorChoice

variable {Pos NewPos : Type}

def inner : CursorChoice Pos → Pos
  | after cursor => cursor.inner
  | before cursor => cursor.inner

def mapPos (f : Pos → NewPos) : CursorChoice Pos → CursorChoice NewPos
  | after cursor => after (cursor.mapPos f)
  | before cursor => before (cursor.mapPos f)

end CursorChoice

section Paginated

variable {B T : Type}

/-- The range of a cursor, in the order in which the keys are indexed. -/
def cursorRange (cursor : Option (CursorChoice Height)) (order : BlockListOrder) : HeightRange :=
  let bounds : Bound Height × Bound Height :=
    match cursor with
    | none => (.unbounded, .unbounded)
    | some (.before before) => (.unbounded, before.toBound)
    | some (.after after) => (after.toBound, .unbounded)
  if order.isIndexedOrder then ⟨bounds.1, bounds.2⟩ else ⟨bounds.2, bounds.1⟩

/-- Whether the results are read away from the cursor, to be reversed. -/
def reverseResults : Option (CursorChoice Height) → Bool
  | none | some (.after _) => false
  | some (.before _) => true

namespace ListableKey

variable (key : ListableKey)

def listPaginated (db : Db B T) (cursor : Option (CursorChoice Height)) (order : BlockListOrder)
    (limit : ℕ) : Outcome Error (List (Key × B)) := do
  let readOrder := if reverseResults cursor then order.reverse else order
  let results ←
    (((key.list (cursorRange cursor order) readOrder).intoIterator db).take limit).mapM id
  return if reverseResults cursor then results.reverse else results

/-- The pages as the store returns them, with the heights of the blocks. -/
def blocksPaginated (db : Db B T) (cursor : Option (CursorChoice Height)) (order : BlockListOrder)
    (limit : ℕ) : Outcome Error (List (Outcome Error (Height × B))) :=
  (key.listPaginated db cursor order limit).map fun results =>
    results.map fun r => key.checkKey (.ok r)

end ListableKey

def listPaginated (db : Db B T) (cursor : Option (CursorChoice Height)) (order : BlockListOrder)
    (limit : ℕ) : Outcome Error (List (Outcome Error (Height × B))) :=
  keyBlock.blocksPaginated db cursor order limit

def listNonEmptyPaginated (db : Db B T) (cursor : Option (CursorChoice Height))
    (order : BlockListOrder) (limit : ℕ) :
    Outcome Error (List (Outcome Error (Height × B))) :=
  (keyNonEmptyBlock.listPaginated db cursor order limit).map fun results =>
    results.map fun r => keyNonEmptyBlock.checkKey (.ok r)

end Paginated

/-- The records in the order in which they are asked for. -/
def BlockListOrder.asked {A : Type} (order : BlockListOrder) (records : List A) : List A :=
  if order.isIndexedOrder then records else records.reverse

instance (range : HeightRange) (h : Height) : Decidable (range.Contains h) := by
  unfold HeightRange.Contains
  cases range.startBound <;> cases range.endBound <;> exact inferInstance

section Filed

variable {B T : Type}

/-- The records of one kind are these blocks, by ascending height. -/
structure Filed (key : ListableKey) (db : Db B T) (blocks : List (Height × B)) : Prop where
  lookup_iff : ∀ h v, db.lookup (key.toKey h) = some v ↔ ∃ b, v = .block b ∧ (h, b) ∈ blocks
  sorted : blocks.Pairwise fun a b => a.1 < b.1

variable {key : ListableKey} {db : Db B T} {blocks : List (Height × B)}

theorem exists_filed (key : ListableKey) (db : Db B T)
    (hblocks : ∀ h v, db.lookup (key.toKey h) = some v → ∃ b, v = .block b) :
    ∃ blocks, Filed key db blocks := by
  obtain ⟨records, -, hmem, hsorted⟩ :=
    key.exists_records db ⟨.unbounded, .unbounded⟩ .lowestToHighest
  have hrange : records ∈
      Set.range (List.map fun record : Height × B => (record.1, (.block record.2 : Value B T))) := by
    rw [Set.range_list_map]
    rintro ⟨h, v⟩ hv
    obtain ⟨b, rfl⟩ := hblocks h v ((hmem h v).mp hv).1
    exact ⟨(h, b), rfl⟩
  obtain ⟨blocks, rfl⟩ := hrange
  refine ⟨blocks, fun h v => ?_, ?_⟩
  · have hall : db.lookup (key.toKey h) = some v ↔
        db.lookup (key.toKey h) = some v ∧ HeightRange.Contains ⟨.unbounded, .unbounded⟩ h :=
      (and_iff_left ⟨trivial, trivial⟩).symm
    rw [hall, ← hmem, List.mem_map]
    constructor
    · rintro ⟨⟨a, b⟩, hb, heq⟩
      obtain ⟨rfl, rfl⟩ := Prod.mk.inj heq
      exact ⟨b, rfl, hb⟩
    · rintro ⟨b, rfl, hb⟩
      exact ⟨(h, b), hb, rfl⟩
  · rwa [List.pairwise_map] at hsorted

theorem decodeRecord_block (key : ListableKey) (h : Height) (b : B) :
    RecordList.decodeRecord (key.toKey h, (.block b : Value B T)) = .ok (key.toKey h, b) := by
  unfold RecordList.decodeRecord
  rw [Key.deserialize_serialize]
  rfl

/-- A range of blocks, in either order. -/
theorem Filed.intoIterator (h : Filed key db blocks) (range : HeightRange)
    (order : BlockListOrder) :
    (key.list range order).intoIterator db =
      (order.asked (blocks.filter fun b => decide (range.Contains b.1))).map fun b =>
        .ok (key.toKey b.1, b.2) := by
  obtain ⟨records, hrecords, hmem, hsorted⟩ := key.exists_records db range order
  have hsame : records = (blocks.filter fun b => decide (range.Contains b.1)).map fun b =>
      (b.1, (.block b.2 : Value B T)) := by
    apply eq_of_sorted heightCoding _ _ hsorted
    · rw [List.pairwise_map]
      exact h.sorted.filter _
    · rintro ⟨a, v⟩
      rw [hmem, h.lookup_iff, List.mem_map]
      constructor
      · rintro ⟨⟨b, rfl, hb⟩, hin⟩
        exact ⟨(a, b), by simp [hb, hin], rfl⟩
      · rintro ⟨⟨c, b⟩, hb, heq⟩
        obtain ⟨rfl, rfl⟩ := Prod.mk.inj heq
        rw [List.mem_filter, decide_eq_true_eq] at hb
        exact ⟨⟨b, rfl, hb.1⟩, hb.2⟩
  have hdecode : ∀ bs : List (Height × B),
      ((bs.map fun b => (b.1, (.block b.2 : Value B T))).map fun record =>
        (key.toKey record.1, record.2)).map RecordList.decodeRecord =
          bs.map fun b => .ok (key.toKey b.1, b.2) := by
    intro bs
    rw [List.map_map, List.map_map]
    exact List.map_congr_left fun b _ => decodeRecord_block key b.1 b.2
  unfold RecordList.intoIterator BlockListOrder.asked
  rw [hrecords, hsame]
  cases order with
  | lowestToHighest => exact hdecode _
  | highestToLowest =>
    change (List.map _ (List.map _ _)).reverse.map _ = (List.filter _ _).reverse.map _
    rw [← List.map_reverse, ← List.map_reverse]
    exact hdecode _

theorem mapM_ok {ε A A' : Type} (f : A → A') (xs : List A) :
    (xs.map fun x => (.ok (f x) : Except ε A')).mapM id = .ok (xs.map f) := by
  induction xs with
  | nil => rfl
  | cons x xs ih =>
    rw [List.map_cons, List.mapM_cons, ih]
    rfl

theorem asked_filter {A : Type} (order : BlockListOrder) (p : A → Bool) (xs : List A) :
    order.asked (xs.filter p) = (order.asked xs).filter p := by
  cases order with
  | lowestToHighest => rfl
  | highestToLowest => exact List.filter_reverse.symm

theorem asked_reverse {A : Type} (order : BlockListOrder) (xs : List A) :
    order.reverse.asked xs = (order.asked xs).reverse := by
  cases order with
  | lowestToHighest => rfl
  | highestToLowest => exact (List.reverse_reverse xs).symm

theorem mem_asked {A : Type} (order : BlockListOrder) (x : A) (xs : List A) :
    x ∈ order.asked xs ↔ x ∈ xs := by
  cases order with
  | lowestToHighest => exact Iff.rfl
  | highestToLowest => exact List.mem_reverse

theorem Filed.asked_sorted (h : Filed key db blocks) (order : BlockListOrder) :
    (order.asked blocks).Pairwise fun a b => order.Precedes a.1 b.1 := by
  cases order with
  | lowestToHighest => exact h.sorted
  | highestToLowest =>
    change blocks.reverse.Pairwise _
    rw [List.pairwise_reverse]
    exact h.sorted

/-- The blocks of a page: the last ones of the range before a cursor, the first ones else. -/
def pageOf (cursor : Option (CursorChoice Height)) (limit : ℕ) (inRange : List (Height × B)) :
    List (Height × B) :=
  if reverseResults cursor then inRange.drop (inRange.length - limit) else inRange.take limit

theorem Filed.listPaginated (h : Filed key db blocks) (cursor : Option (CursorChoice Height))
    (order : BlockListOrder) (limit : ℕ) :
    key.listPaginated db cursor order limit =
      .ok ((pageOf cursor limit ((order.asked blocks).filter fun b =>
        decide ((cursorRange cursor order).Contains b.1))).map fun b => (key.toKey b.1, b.2)) := by
  unfold ListableKey.listPaginated pageOf
  dsimp only
  rw [h.intoIterator, ← List.map_take, mapM_ok, asked_filter]
  cases hreverse : reverseResults cursor with
  | false => rfl
  | true =>
    change Except.ok (List.map _ _).reverse = Except.ok (List.map _ _)
    rw [if_pos rfl, if_pos rfl, asked_reverse, List.filter_reverse, ← List.map_reverse,
      List.reverse_take, List.reverse_reverse, List.length_reverse]

theorem ListableKey.checkKey_toKey (key : ListableKey) (b : Height × B) :
    key.checkKey (.ok (key.toKey b.1, b.2)) = .ok b := by
  unfold ListableKey.checkKey
  dsimp only [bind, Except.bind]
  rw [key.fromKey_toKey]
  rfl

theorem Filed.blocksPaginated (h : Filed key db blocks) (cursor : Option (CursorChoice Height))
    (order : BlockListOrder) (limit : ℕ) :
    key.blocksPaginated db cursor order limit =
      .ok ((pageOf cursor limit ((order.asked blocks).filter fun b =>
        decide ((cursorRange cursor order).Contains b.1))).map .ok) := by
  unfold ListableKey.blocksPaginated
  rw [h.listPaginated]
  change Except.ok (List.map _ (List.map _ _)) = _
  rw [List.map_map]
  exact congrArg Except.ok (List.map_congr_left fun b _ => key.checkKey_toKey b)

/-- The page of blocks with transactions for a cursor. -/
theorem Filed.listNonEmptyPaginated (h : Filed keyNonEmptyBlock db blocks)
    (cursor : Option (CursorChoice Height)) (order : BlockListOrder) (limit : ℕ) :
    listNonEmptyPaginated db cursor order limit =
      .ok ((pageOf cursor limit ((order.asked blocks).filter fun b =>
        decide ((cursorRange cursor order).Contains b.1))).map .ok) :=
  h.blocksPaginated cursor order limit

theorem contains_first (order : BlockListOrder) (a : Height) :
    (cursorRange none order).Contains a := by
  cases order <;> exact ⟨trivial, trivial⟩

theorem contains_after (order : BlockListOrder) (k a : Height) :
    (cursorRange (some (.after (.afterInclusive k))) order).Contains a ↔
      a = k ∨ order.Precedes k a := by
  cases order with
  | lowestToHighest =>
    change k ≤ a ∧ True ↔ a = k ∨ k < a
    rw [and_true, le_iff_eq_or_lt, eq_comm]
  | highestToLowest =>
    change True ∧ a ≤ k ↔ a = k ∨ a < k
    rw [true_and, le_iff_eq_or_lt]

theorem contains_before (order : BlockListOrder) (k a : Height) :
    (cursorRange (some (.before (.beforeInclusive k))) order).Contains a ↔
      a = k ∨ order.Precedes a k := by
  cases order with
  | lowestToHighest =>
    change True ∧ a ≤ k ↔ a = k ∨ a < k
    rw [true_and, le_iff_eq_or_lt]
  | highestToLowest =>
    change k ≤ a ∧ True ↔ a = k ∨ k < a
    rw [and_true, le_iff_eq_or_lt, eq_comm]

theorem BlockListOrder.Precedes.irrefl (order : BlockListOrder) (a : Height) :
    ¬order.Precedes a a := by
  cases order <;> exact lt_irrefl a

theorem BlockListOrder.Precedes.asymm (order : BlockListOrder) (a b : Height)
    (h : order.Precedes a b) : ¬order.Precedes b a := by
  cases order <;> exact lt_asymm h

theorem BlockListOrder.Precedes.ne (order : BlockListOrder) (a b : Height)
    (h : order.Precedes a b) : a ≠ b := by
  rintro rfl
  exact irrefl order a h

/-- A listing of a range. -/
theorem Filed.listBlocks (h : Filed key db blocks) (range : HeightRange) (order : BlockListOrder) :
    key.listBlocks db range order =
      (order.asked (blocks.filter fun b => decide (range.Contains b.1))).map .ok := by
  unfold ListableKey.listBlocks
  rw [h.intoIterator, List.map_map]
  exact List.map_congr_left fun b _ => key.checkKey_toKey b

/-- The listing of all blocks with transactions. -/
theorem Filed.listNonEmpty_all (h : Filed keyNonEmptyBlock db blocks) (order : BlockListOrder) :
    listNonEmpty db ⟨.unbounded, .unbounded⟩ order = (order.asked blocks).map .ok := by
  have hall : blocks.filter (fun b =>
      decide (HeightRange.Contains ⟨.unbounded, .unbounded⟩ b.1)) = blocks := by
    rw [List.filter_eq_self]
    intro b _
    exact decide_eq_true ⟨trivial, trivial⟩
  unfold listNonEmpty
  rw [h.listBlocks, hall]

section Cursors

variable (h : Filed key db blocks) (order : BlockListOrder) (before after : List (Height × B))
  (k : Height) (b : B) (hsplit : order.asked blocks = before ++ (k, b) :: after)

include h hsplit

theorem Filed.around :
    (∀ a ∈ before, order.Precedes a.1 k) ∧ ∀ a ∈ after, order.Precedes k a.1 := by
  have hsorted := h.asked_sorted order
  rw [hsplit, List.pairwise_append, List.pairwise_cons] at hsorted
  exact ⟨fun a ha => hsorted.2.2 a ha (k, b) List.mem_cons_self, hsorted.2.1.1⟩

/-- The range after a cursor starts with the block of the cursor. -/
theorem Filed.filter_after :
    ((order.asked blocks).filter fun a => decide ((cursorRange
      (some (.after (.afterInclusive k))) order).Contains a.1)) = (k, b) :: after := by
  obtain ⟨hbefore, hafter⟩ := h.around order before after k b hsplit
  have hnone : before.filter (fun a => decide ((cursorRange
      (some (.after (.afterInclusive k))) order).Contains a.1)) = [] := by
    rw [List.filter_eq_nil_iff]
    intro a ha
    rw [decide_eq_true_eq, contains_after, not_or]
    exact ⟨BlockListOrder.Precedes.ne order _ _ (hbefore a ha),
      BlockListOrder.Precedes.asymm order _ _ (hbefore a ha)⟩
  rw [hsplit, List.filter_append, hnone, List.nil_append, List.filter_eq_self]
  intro a ha
  rw [decide_eq_true_eq, contains_after]
  rcases List.mem_cons.mp ha with rfl | ha
  · exact Or.inl rfl
  · exact Or.inr (hafter a ha)

/-- The range before a cursor ends with the block of the cursor. -/
theorem Filed.filter_before :
    ((order.asked blocks).filter fun a => decide ((cursorRange
      (some (.before (.beforeInclusive k))) order).Contains a.1)) = before ++ [(k, b)] := by
  obtain ⟨hbefore, hafter⟩ := h.around order before after k b hsplit
  have hnone : after.filter (fun a => decide ((cursorRange
      (some (.before (.beforeInclusive k))) order).Contains a.1)) = [] := by
    rw [List.filter_eq_nil_iff]
    intro a ha
    rw [decide_eq_true_eq, contains_before, not_or]
    exact ⟨(BlockListOrder.Precedes.ne order _ _ (hafter a ha)).symm,
      BlockListOrder.Precedes.asymm order _ _ (hafter a ha)⟩
  rw [hsplit, List.append_cons, List.filter_append, hnone, List.append_nil, List.filter_eq_self]
  intro a ha
  rw [decide_eq_true_eq, contains_before]
  rcases List.mem_append.mp ha with ha | ha
  · exact Or.inr (hbefore a ha)
  · exact Or.inl (congrArg Prod.fst (List.mem_singleton.mp ha))

end Cursors

end Filed
end PayyRollup.BlockStoreDb
