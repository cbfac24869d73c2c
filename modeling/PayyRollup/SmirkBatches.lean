import PayyRollup.SmirkValues

/-!
Batches of new elements with the index of their low bits. An insertion and a merge look for
collisions in the index only, so everything rests on it being the set of the low bits of the
entries. It stays so under every operation, also where one fails; hence the errors are exactly the
collisions of entries, and a merged batch has the entries of both. The iteration order of a hash
set decides only in which order the collisions of a merge are listed.
-/
namespace PayyRollup.SmirkBatches

open ScalarField SmirkNode SmirkTree SmirkValues

/-- New elements with their values, and the index of their low bits. -/
structure Batch (D : ℕ) (V : Type) where
  entries : List (Element × V)
  lsbs : Finset (List Bool)

/-- The depths for which an element has low bits: there are at most 256 of them. -/
def HasLsbs (D : ℕ) : Prop := 0 < D ∧ D ≤ 257

instance (D : ℕ) : Decidable (HasLsbs D) := inferInstanceAs (Decidable (_ ∧ _))

/-- The order in which a hash set lists its elements. -/
structure SetOrder where
  list : Finset (List Bool) → List (List Bool)
  perm : ∀ lsbs, (list lsbs).Perm lsbs.toList

namespace Batch

variable {D : ℕ} {V : Type}

def new (D : ℕ) (V : Type) : Batch D V := ⟨[], ∅⟩

def elements (self : Batch D V) : List Element := self.entries.map Prod.fst

def findElementWithLsb (self : Batch D V) (lsb : List Bool) : Option Element :=
  self.elements.find? fun e => bits D e = lsb

/-- The batch after an insertion, and the result. -/
def insert (self : Batch D V) (element : Element) (value : V) :
    Batch D V × Outcome CollisionError Unit :=
  if HasLsbs D then
    if bits D element ∈ self.lsbs then
      match self.findElementWithLsb (bits D element) with
      | some inTree => (self, .error (.err [⟨inTree, element, D, StructName.batch⟩]))
      | none => (self, .error .panic)
    else
      (⟨self.entries ++ [(element, value)], Insert.insert (bits D element) self.lsbs⟩, .ok ())
  else (self, .error .panic)

def insertAll (self : Batch D V) : List (Element × V) → Outcome CollisionError (Batch D V)
  | [] => .ok self
  | (element, value) :: rest =>
      match self.insert element value with
      | (batch, .ok ()) => batch.insertAll rest
      | (_, .error e) => .error e

def fromEntries (D : ℕ) (entries : List (Element × V)) : Outcome CollisionError (Batch D V) :=
  (new D V).insertAll entries

/-- The collision of two batches at some low bits; the source unwraps both searches. -/
def collisionAt (self other : Batch D V) (lsb : List Bool) : Option Collision :=
  (self.findElementWithLsb lsb).bind fun elementInSelf =>
    (other.findElementWithLsb lsb).map fun elementInOther =>
      ⟨elementInSelf, elementInOther, D, StructName.batch⟩

def merge (order : SetOrder) (self other : Batch D V) : Outcome CollisionError (Batch D V) :=
  let collidingLsbs := (order.list self.lsbs).filter fun lsb => lsb ∈ other.lsbs
  if collidingLsbs.length ≠ 0 then
    match collidingLsbs.mapM (collisionAt self other) with
    | some collisions => .error (.err collisions)
    | none => .error .panic
  else .ok ⟨self.entries ++ other.entries, self.lsbs ∪ other.lsbs⟩

end Batch

variable {D : ℕ} {V : Type}

/-- The batches that sequences of operations lead to. -/
inductive Reachable (order : SetOrder) : Batch D V → Prop
  | new : Reachable order (Batch.new D V)
  | insert (b : Batch D V) (element : Element) (value : V) :
      Reachable order b → Reachable order (b.insert element value).1
  | fromEntries (entries : List (Element × V)) (b : Batch D V) :
      Batch.fromEntries D entries = .ok b → Reachable order b
  | merge (a b m : Batch D V) : Reachable order a → Reachable order b →
      a.merge order b = .ok m → Reachable order m

/-- The index is that of the entries, and no two of these share their low bits. -/
structure Indexed (b : Batch D V) : Prop where
  lsbs_eq : b.lsbs = (b.entries.map fun e => bits D e.1).toFinset
  distinct : b.entries.Pairwise fun a c => bits D a.1 ≠ bits D c.1
  has_lsbs : b.entries = [] ∨ HasLsbs D

section Lookup

variable {b : Batch D V} (h : Indexed b)

include h in
theorem mem_lsbs (lsb : List Bool) : lsb ∈ b.lsbs ↔ ∃ a ∈ b.entries, bits D a.1 = lsb := by
  rw [h.lsbs_eq, List.mem_toFinset, List.mem_map]

theorem findElementWithLsb_some (lsb : List Bool) (e : Element)
    (hfind : b.findElementWithLsb lsb = some e) : ∃ a ∈ b.entries, bits D a.1 = lsb ∧ a.1 = e := by
  obtain ⟨a, ha, rfl⟩ := List.mem_map.mp (List.mem_of_find?_eq_some hfind)
  exact ⟨a, ha, by simpa using List.find?_some hfind, rfl⟩

include h in
/-- The element with some low bits is found, and there is no other. -/
theorem findElementWithLsb_eq (a : Element × V) (ha : a ∈ b.entries) :
    b.findElementWithLsb (bits D a.1) = some a.1 := by
  cases hfind : b.findElementWithLsb (bits D a.1) with
  | none =>
    have hnone := List.find?_eq_none.mp hfind a.1 (List.mem_map_of_mem ha)
    simp at hnone
  | some e =>
    obtain ⟨c, hc, hbits, rfl⟩ := findElementWithLsb_some _ e hfind
    have hnodup : (b.entries.map fun a => bits D a.1).Nodup := List.pairwise_map.mpr h.distinct
    rw [List.inj_on_of_nodup_map hnodup hc ha hbits]

include h in
/-- An insertion panics for want of low bits, fails on a collision, or adds the entry. -/
theorem insert_cases (e : Element) (v : V) :
    ¬HasLsbs D ∧ b.insert e v = (b, .error .panic) ∨
    HasLsbs D ∧ (∃ a ∈ b.entries, bits D a.1 = bits D e ∧
      b.insert e v = (b, .error (.err [⟨a.1, e, D, StructName.batch⟩]))) ∨
    HasLsbs D ∧ (∀ a ∈ b.entries, bits D a.1 ≠ bits D e) ∧
      b.insert e v = (⟨b.entries ++ [(e, v)], Insert.insert (bits D e) b.lsbs⟩, .ok ()) := by
  by_cases hD : HasLsbs D
  · right
    by_cases hin : bits D e ∈ b.lsbs
    · left
      obtain ⟨a, ha, hbits⟩ := (mem_lsbs h _).mp hin
      have hfind := findElementWithLsb_eq h a ha
      rw [hbits] at hfind
      refine ⟨hD, a, ha, hbits, ?_⟩
      rw [Batch.insert, if_pos hD, if_pos hin, hfind]
    · right
      refine ⟨hD, fun a ha hbits => hin ((mem_lsbs h _).mpr ⟨a, ha, hbits⟩), ?_⟩
      rw [Batch.insert, if_pos hD, if_neg hin]
  · left
    exact ⟨hD, by rw [Batch.insert, if_neg hD]⟩

end Lookup

section Invariant

theorem indexed_new : Indexed (Batch.new D V) := ⟨rfl, List.Pairwise.nil, Or.inl rfl⟩

theorem Indexed.insert {b : Batch D V} (h : Indexed b) (e : Element) (v : V) :
    Indexed (b.insert e v).1 := by
  rcases insert_cases h e v with ⟨-, heq⟩ | ⟨-, a, -, -, heq⟩ | ⟨hD, hfresh, heq⟩
  · rw [heq]
    exact h
  · rw [heq]
    exact h
  · rw [heq]
    refine ⟨?_, ?_, Or.inr hD⟩
    · change Insert.insert (bits D e) b.lsbs = _
      rw [List.map_append, List.toFinset_append, ← h.lsbs_eq, Finset.union_comm]
      rfl
    · refine List.pairwise_append.mpr ⟨h.distinct, List.pairwise_singleton _ _, ?_⟩
      intro a ha c hc
      obtain rfl := List.mem_singleton.mp hc
      exact hfresh a ha

theorem Indexed.insertAll {b m : Batch D V} (h : Indexed b) (entries : List (Element × V))
    (hok : b.insertAll entries = .ok m) : Indexed m ∧ m.entries = b.entries ++ entries := by
  induction entries generalizing b with
  | nil =>
    cases hok
    exact ⟨h, (List.append_nil _).symm⟩
  | cons entry rest ih =>
    obtain ⟨e, v⟩ := entry
    have hnext := h.insert e v
    rw [Batch.insertAll] at hok
    rcases insert_cases h e v with ⟨-, heq⟩ | ⟨-, a, -, -, heq⟩ | ⟨-, -, heq⟩
    · rw [heq] at hok
      cases hok
    · rw [heq] at hok
      cases hok
    · rw [heq] at hok hnext
      obtain ⟨hindexed, hentries⟩ := ih hnext hok
      refine ⟨hindexed, ?_⟩
      rw [hentries, List.append_assoc]
      rfl

theorem fromEntries_indexed (entries : List (Element × V)) (b : Batch D V)
    (hok : Batch.fromEntries D entries = .ok b) : Indexed b ∧ b.entries = entries :=
  indexed_new.insertAll entries hok

/-- A search that succeeds for every element gives all results, in order. -/
theorem mapM_some {α β : Type} (f : α → Option β) (xs : List α)
    (h : ∀ x ∈ xs, ∃ y, f x = some y) :
    ∃ ys, xs.mapM f = some ys ∧ ys.length = xs.length ∧ ∀ y, y ∈ ys ↔ ∃ x ∈ xs, f x = some y := by
  induction xs with
  | nil => exact ⟨[], rfl, rfl, by simp⟩
  | cons x xs ih =>
    rw [List.forall_mem_cons] at h
    obtain ⟨y, hy⟩ := h.1
    obtain ⟨ys, hmap, hlen, hmem⟩ := ih h.2
    refine ⟨y :: ys, ?_, by rw [List.length_cons, List.length_cons, hlen], fun z => ?_⟩
    · rw [List.mapM_cons, hy, hmap]
      rfl
    · rw [List.mem_cons, hmem, List.exists_mem_cons_iff, hy, Option.some.injEq, eq_comm]

/-- What two batches are merged to, in every case. -/
theorem merge_cases (order : SetOrder) {a b : Batch D V} (ha : Indexed a) (hb : Indexed b) :
    (∃ collisions, collisions ≠ [] ∧ a.merge order b = .error (.err collisions) ∧
      ∀ c, c ∈ collisions ↔ ∃ x ∈ a.entries, ∃ y ∈ b.entries, bits D x.1 = bits D y.1 ∧
        c = ⟨x.1, y.1, D, StructName.batch⟩) ∨
    (∀ x ∈ a.entries, ∀ y ∈ b.entries, bits D x.1 ≠ bits D y.1) ∧
      a.merge order b = .ok ⟨a.entries ++ b.entries, a.lsbs ∪ b.lsbs⟩ := by
  have hcolliding : ∀ lsb, lsb ∈ (order.list a.lsbs).filter (fun lsb => lsb ∈ b.lsbs) ↔
      (∃ x ∈ a.entries, bits D x.1 = lsb) ∧ ∃ y ∈ b.entries, bits D y.1 = lsb := by
    intro lsb
    rw [List.mem_filter, (order.perm a.lsbs).mem_iff, Finset.mem_toList, decide_eq_true_eq,
      mem_lsbs ha, mem_lsbs hb]
  unfold Batch.merge
  generalize (order.list a.lsbs).filter (fun lsb => lsb ∈ b.lsbs) = colliding at hcolliding ⊢
  have hat : ∀ x ∈ a.entries, ∀ y ∈ b.entries, bits D x.1 = bits D y.1 →
      a.collisionAt b (bits D x.1) = some ⟨x.1, y.1, D, StructName.batch⟩ := by
    intro x hx y hy hbits
    have hother := findElementWithLsb_eq hb y hy
    rw [← hbits] at hother
    rw [Batch.collisionAt, findElementWithLsb_eq ha x hx, hother]
    rfl
  cases colliding with
  | nil =>
    refine Or.inr ⟨fun x hx y hy hbits => ?_, rfl⟩
    exact absurd ((hcolliding (bits D x.1)).mpr ⟨⟨x, hx, rfl⟩, y, hy, hbits.symm⟩)
      List.not_mem_nil
  | cons lsb rest =>
    left
    obtain ⟨collisions, hmap, hlen, hmem⟩ := mapM_some (a.collisionAt b) (lsb :: rest)
      fun lsb hlsb => by
        obtain ⟨⟨x, hx, rfl⟩, y, hy, hbits⟩ := (hcolliding lsb).mp hlsb
        exact ⟨_, hat x hx y hy hbits.symm⟩
    refine ⟨collisions, ?_, ?_, fun c => ?_⟩
    · rintro rfl
      cases hlen
    · simp only [hmap, List.length_cons, ne_eq, Nat.succ_ne_zero, not_false_eq_true, if_true]
    · rw [hmem]
      constructor
      · rintro ⟨lsb, hlsb, hc⟩
        obtain ⟨⟨x, hx, rfl⟩, y, hy, hbits⟩ := (hcolliding lsb).mp hlsb
        rw [hat x hx y hy hbits.symm, Option.some.injEq] at hc
        exact ⟨x, hx, y, hy, hbits.symm, hc.symm⟩
      · rintro ⟨x, hx, y, hy, hbits, rfl⟩
        exact ⟨bits D x.1, (hcolliding _).mpr ⟨⟨x, hx, rfl⟩, y, hy, hbits.symm⟩,
          hat x hx y hy hbits⟩

theorem Indexed.merge (order : SetOrder) {a b m : Batch D V} (ha : Indexed a) (hb : Indexed b)
    (hok : a.merge order b = .ok m) : Indexed m := by
  rcases merge_cases order ha hb with ⟨collisions, -, heq, -⟩ | ⟨hapart, heq⟩
  · rw [heq] at hok
    cases hok
  · rw [heq, Except.ok.injEq] at hok
    rw [← hok]
    refine ⟨?_, List.pairwise_append.mpr ⟨ha.distinct, hb.distinct, hapart⟩, ?_⟩
    · change a.lsbs ∪ b.lsbs = _
      rw [List.map_append, List.toFinset_append, ← ha.lsbs_eq, ← hb.lsbs_eq]
    · rcases ha.has_lsbs with hnil | hD
      · rcases hb.has_lsbs with hnil' | hD
        · left
          change a.entries ++ b.entries = []
          rw [hnil, hnil', List.append_nil]
        · exact Or.inr hD
      · exact Or.inr hD

theorem Reachable.indexed {order : SetOrder} {b : Batch D V} (h : Reachable order b) :
    Indexed b := by
  induction h with
  | new => exact indexed_new
  | insert b element value _ ih => exact ih.insert element value
  | fromEntries entries b hok => exact (fromEntries_indexed entries b hok).1
  | merge a b m _ _ hok iha ihb => exact iha.merge order ihb hok

end Invariant

section Refinement

/-- A batch with its index as the batch of the tree, which has its invariant instead. -/
def Indexed.valueBatch {b : Batch D V} (h : Indexed b) : ValueBatch D V where
  entries := b.entries
  distinct := h.distinct
  fits := h.has_lsbs.imp_right And.right

/-- Insertions do the same to the batches of the tree. -/
theorem insert_refines {b : Batch D V} (h : Indexed b) (hD : 0 < D) (e : Element) (v : V) :
    (h.valueBatch.insert e v).map ValueBatch.entries =
      (b.insert e v).2.map fun _ => (b.insert e v).1.entries := by
  have hfind : h.valueBatch.keys.findElementWithLsb (bits D e) = b.findElementWithLsb (bits D e) :=
    rfl
  rcases insert_cases h e v with ⟨hnot, heq⟩ | ⟨hhas, a, ha, hbits, heq⟩ | ⟨hhas, hfresh, heq⟩
  · have hbig : 257 < D := by
      unfold HasLsbs at hnot
      omega
    rw [heq, ValueBatch.insert, dif_pos hbig]
    rfl
  · have hsmall : ¬257 < D := not_lt.mpr hhas.2
    have hsome := findElementWithLsb_eq h a ha
    rw [hbits, ← hfind] at hsome
    rw [heq, ValueBatch.insert, dif_neg hsmall]
    split
    · rename_i inTree hin
      rw [hsome, Option.some.injEq] at hin
      rw [hin]
      rfl
    · rename_i hin
      rw [hsome] at hin
      cases hin
  · have hsmall : ¬257 < D := not_lt.mpr hhas.2
    have hnone : b.findElementWithLsb (bits D e) = none := by
      cases hin : b.findElementWithLsb (bits D e) with
      | none => rfl
      | some inTree =>
        obtain ⟨a, ha, hbits, -⟩ := findElementWithLsb_some _ inTree hin
        exact absurd hbits (hfresh a ha)
    rw [← hfind] at hnone
    rw [heq, ValueBatch.insert, dif_neg hsmall]
    split
    · rename_i inTree hin
      rw [hnone] at hin
      cases hin
    · rfl

end Refinement

/-- An insertion fails exactly on a collision, names the entry and changes nothing. -/
structure InsertsExactly (b : Batch D V) (e : Element) (v : V) : Prop where
  fails_iff : (∃ collisions, (b.insert e v).2 = .error (.err collisions)) ↔
    ∃ a ∈ b.entries, bits D a.1 = bits D e
  unchanged : (b.insert e v).2 ≠ .ok () → (b.insert e v).1 = b
  reported : ∀ collisions, (b.insert e v).2 = .error (.err collisions) →
    ∃ a ∈ b.entries, bits D a.1 = bits D e ∧ collisions = [⟨a.1, e, D, StructName.batch⟩]
  inserted : (b.insert e v).2 = .ok () → (b.insert e v).1.entries = b.entries ++ [(e, v)]
  panics_iff : (b.insert e v).2 = .error .panic ↔ ¬HasLsbs D

/-- A merge fails exactly on collisions, lists these, and keeps all entries otherwise. -/
structure MergesExactly (order : SetOrder) (a b : Batch D V) : Prop where
  fails_iff : (∃ collisions, a.merge order b = .error (.err collisions)) ↔
    ∃ x ∈ a.entries, ∃ y ∈ b.entries, bits D x.1 = bits D y.1
  reported : ∀ collisions, a.merge order b = .error (.err collisions) → ∀ c, c ∈ collisions ↔
    ∃ x ∈ a.entries, ∃ y ∈ b.entries, bits D x.1 = bits D y.1 ∧
      c = ⟨x.1, y.1, D, StructName.batch⟩
  union : ∀ m, a.merge order b = .ok m → m.entries = a.entries ++ b.entries
  no_panic : a.merge order b ≠ .error .panic

theorem Indexed.insertsExactly {b : Batch D V} (h : Indexed b) (e : Element) (v : V) :
    InsertsExactly b e v := by
  rcases insert_cases h e v with ⟨hnot, heq⟩ | ⟨hhas, a, ha, hbits, heq⟩ | ⟨hhas, hfresh, heq⟩
  · have hnone : ∀ a ∈ b.entries, bits D a.1 ≠ bits D e := by
      intro a ha
      rw [h.has_lsbs.resolve_right hnot] at ha
      cases ha
    refine ⟨?_, fun _ => by rw [heq], fun _ hc => ?_, fun hok => ?_, by simp [heq, hnot]⟩
    · refine iff_of_false ?_ fun ⟨a, ha, hbits⟩ => hnone a ha hbits
      simp [heq]
    · rw [heq] at hc
      cases hc
    · rw [heq] at hok
      cases hok
  · refine ⟨iff_of_true ⟨_, by rw [heq]⟩ ⟨a, ha, hbits⟩, fun _ => by rw [heq], fun _ hc => ?_,
      fun hok => ?_, by simp [heq, hhas]⟩
    · rw [heq] at hc
      cases hc
      exact ⟨a, ha, hbits, rfl⟩
    · rw [heq] at hok
      cases hok
  · refine ⟨iff_of_false ?_ fun ⟨a, ha, hbits⟩ => hfresh a ha hbits, fun hok => ?_,
      fun _ hc => ?_, fun _ => by rw [heq], by simp [heq, hhas]⟩
    · simp [heq]
    · exact absurd (by rw [heq]) hok
    · rw [heq] at hc
      cases hc

theorem Indexed.mergesExactly (order : SetOrder) {a b : Batch D V} (ha : Indexed a)
    (hb : Indexed b) : MergesExactly order a b := by
  rcases merge_cases order ha hb with ⟨collisions, hne, heq, hmem⟩ | ⟨hapart, heq⟩
  · obtain ⟨c, hc⟩ := List.exists_mem_of_ne_nil collisions hne
    obtain ⟨x, hx, y, hy, hbits, -⟩ := (hmem c).mp hc
    refine ⟨iff_of_true ⟨_, heq⟩ ⟨x, hx, y, hy, hbits⟩, fun collisions' heq' => ?_,
      fun m hok => ?_, by simp [heq]⟩
    · rw [heq] at heq'
      cases heq'
      exact hmem
    · rw [heq] at hok
      cases hok
  · refine ⟨iff_of_false ?_ fun ⟨x, hx, y, hy, hbits⟩ => hapart x hx y hy hbits,
      fun _ heq' => ?_, fun m hok => ?_, by simp [heq]⟩
    · simp [heq]
    · rw [heq] at heq'
      cases heq'
    · rw [heq] at hok
      cases hok
      rfl

/-- The index of a batch is that of its entries, and insertions and merges are exact. -/
theorem batch_index_exact (order : SetOrder) (b : Batch D V) (hb : Reachable order b) :
    (b.lsbs = (b.entries.map fun e => bits D e.1).toFinset ∧
      b.entries.Pairwise fun a c => bits D a.1 ≠ bits D c.1) ∧
    (∀ e v, InsertsExactly b e v) ∧
    (∀ other, Reachable order other → MergesExactly order b other) ∧
    ∀ (entries : List (Element × V)) (m : Batch D V),
      Batch.fromEntries D entries = .ok m → m.entries = entries :=
  ⟨⟨hb.indexed.lsbs_eq, hb.indexed.distinct⟩, fun e v => hb.indexed.insertsExactly e v,
    fun _ hother => hb.indexed.mergesExactly order hother.indexed,
    fun entries m hok => (fromEntries_indexed entries m hok).2⟩

/-- One order of a hash set: that of the bits. -/
def sortedOrder : SetOrder where
  list := fun lsbs => lsbs.sort (· ≤ ·)
  perm := fun lsbs => Finset.sort_perm_toList lsbs _

/-- A batch of one element; another element with its low bits collides. -/
theorem batch_index_exact_one :
    let b := ((Batch.new 3 ℕ).insert 1#256 7).1
    b.lsbs = {bits 3 1#256} ∧ (b.insert 5#256 8).1 = b ∧
      ∃ collisions, b.merge sortedOrder ((Batch.new 3 ℕ).insert 5#256 8).1 =
        .error (.err collisions) := by
  intro b
  have hb : Reachable sortedOrder b := .insert _ _ _ .new
  obtain ⟨⟨hlsbs, -⟩, hinsert, hmerge, -⟩ := batch_index_exact sortedOrder b hb
  have hcollides : bits 3 1#256 = bits 3 5#256 := by decide
  refine ⟨hlsbs, (hinsert 5#256 8).unchanged ?_, ?_⟩
  · obtain ⟨collisions, herr⟩ := (hinsert 5#256 8).fails_iff.mpr
      ⟨(1#256, 7), List.mem_singleton.mpr rfl, hcollides⟩
    rw [herr]
    simp
  · exact (hmerge _ (.insert _ _ _ .new)).fails_iff.mpr
      ⟨(1#256, 7), List.mem_singleton.mpr rfl, (5#256, 8), List.mem_singleton.mpr rfl, hcollides⟩

end PayyRollup.SmirkBatches
