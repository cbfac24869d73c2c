import PayyRollup.SmirkValues

/-!
The root of the notes tree is the root of the full tree of its elements. Every successful
insertion lays its elements over a valid tree, so a run of insertions in any order and any
batches ends in the tree of all of them: its root is computed naively from the elements, no
hash is out of date, and the entries are the leaves.
-/
namespace PayyRollup.SmirkValues

open ScalarField SparseMerkle ElementHash SmirkNode SmirkTree KeyValueStore

namespace Node

variable {height : ℕ}

/-- No hash is out of date. -/
def Clean : {height : ℕ} → Node height → Prop
  | 0, _ => True
  | _ + 1, .empty _ => True
  | _ + 1, .parent left right _ hashDirty => hashDirty = false ∧ Clean left ∧ Clean right

/-- The elements in the leaves, from left to right. -/
def leaves : {height : ℕ} → Node height → List Element
  | 0, .leaf element => [element]
  | _, .empty _ => []
  | _ + 1, .parent left right _ _ => leaves left ++ leaves right

theorem clean_of_wellHashed (hash : List Fr → Fr) (node : Node height)
    (h : node.WellHashed hash) : Clean node := by
  induction height with
  | zero => cases node <;> trivial
  | succ height ih =>
    cases node with
    | empty _ => trivial
    | parent left right stored hashDirty =>
      obtain ⟨hclean, -, hleft, hright⟩ := h
      exact ⟨hclean, ih left hleft, ih right hright⟩

/-- The leaves are what the assignment holds. -/
theorem mem_leaves (hash : List Fr → Fr) (node : Node height) (h : node.WellHashed hash)
    (e : Element) : e ∈ leaves node ↔ e ≠ 0 ∧ ∃ p, node.leafAt p = e := by
  induction height with
  | zero =>
    cases node with
    | leaf element =>
      have hne : element ≠ 0 := h
      constructor
      · intro he
        obtain rfl := List.mem_singleton.mp he
        exact ⟨hne, [], rfl⟩
      · rintro ⟨hne', p, rfl⟩
        cases p with
        | nil => exact List.mem_singleton_self _
        | cons b p => exact absurd rfl hne'
    | empty _ =>
      refine iff_of_false (by simp [leaves]) ?_
      rintro ⟨hne, p, rfl⟩
      exact hne (leafAt_empty p)
  | succ height ih =>
    cases node with
    | empty _ =>
      refine iff_of_false (by simp [leaves]) ?_
      rintro ⟨hne, p, rfl⟩
      exact hne (leafAt_empty p)
    | parent left right stored hashDirty =>
      obtain ⟨-, -, hleft, hright⟩ := h
      rw [leaves, List.mem_append, ih left hleft, ih right hright]
      constructor
      · rintro (⟨hne, p, hp⟩ | ⟨hne, p, hp⟩)
        · exact ⟨hne, false :: p, hp⟩
        · exact ⟨hne, true :: p, hp⟩
      · rintro ⟨hne, p, hp⟩
        cases p with
        | nil => exact absurd hp.symm hne
        | cons b p =>
          cases b with
          | false => exact Or.inl ⟨hne, p, hp⟩
          | true => exact Or.inr ⟨hne, p, hp⟩

/-- Leaves that lie in their slots are distinct. -/
theorem leaves_nodup (hash : List Fr → Fr) (node : Node height) (h : node.WellHashed hash)
    (slot : Element → List Bool) (hplaced : ∀ p, node.leafAt p ≠ 0 → slot (node.leafAt p) = p) :
    (leaves node).Nodup := by
  induction height generalizing slot with
  | zero =>
    cases node with
    | leaf element => exact List.nodup_singleton element
    | empty _ => exact List.nodup_nil
  | succ height ih =>
    cases node with
    | empty _ => exact List.nodup_nil
    | parent left right stored hashDirty =>
      obtain ⟨-, -, hleft, hright⟩ := h
      have hl : ∀ p, left.leafAt p ≠ 0 → slot (left.leafAt p) = false :: p := fun p =>
        hplaced (false :: p)
      have hr : ∀ p, right.leafAt p ≠ 0 → slot (right.leafAt p) = true :: p := fun p =>
        hplaced (true :: p)
      rw [leaves, List.nodup_append]
      refine ⟨ih left hleft (fun e => (slot e).tail) ?_,
        ih right hright (fun e => (slot e).tail) ?_, ?_⟩
      · intro p hp
        rw [hl p hp, List.tail_cons]
      · intro p hp
        rw [hr p hp, List.tail_cons]
      · intro a ha b hb hab
        subst hab
        obtain ⟨hne, p, rfl⟩ := (mem_leaves hash left hleft a).mp ha
        obtain ⟨-, q, hq⟩ := (mem_leaves hash right hright _).mp hb
        have hslot := hr q (hq ▸ hne)
        rw [hq, hl p hne] at hslot
        simp at hslot

/-- The siblings to a slot are those of the assignment. -/
theorem siblingsTo_eq (hash : List Fr → Fr) (node : Node height) (h : node.WellHashed hash)
    (p : List Bool) (hp : p.length = height) :
    siblingsTo hash node p = siblings (elementNode hash) node.leafAt p := by
  induction height generalizing p with
  | zero =>
    obtain rfl := List.length_eq_zero_iff.mp hp
    cases node <;> rfl
  | succ height ih =>
    obtain ⟨bit, p, rfl⟩ : ∃ bit rest, p = bit :: rest := by
      cases p with
      | nil => simp at hp
      | cons bit rest => exact ⟨bit, rest, rfl⟩
    have hlen : p.length = height := by simpa using hp
    have hother : ((node.side !bit).rootHash hash) =
        root (elementNode hash) p.length (child node.leafAt !bit) := by
      rw [child_leafAt, hlen]
      exact rootHash_eq hash _ (wellHashed_side hash node h _)
    have hsame : siblingsTo hash (node.side bit) p =
        siblings (elementNode hash) (child node.leafAt bit) p := by
      rw [child_leafAt]
      exact ih _ (wellHashed_side hash node h bit) p hlen
    rw [siblings, ← hother, ← hsame]
    cases node with
    | parent left right stored hashDirty => cases bit <;> rfl
    | empty _ =>
      have hrange : (List.range' 1 (height + 1)).reverse =
          (height + 1) :: (List.range' 1 height).reverse := by
        rw [List.range'_concat, List.reverse_append]
        simp [Nat.add_comm]
      have hside : ∀ b, (SmirkNode.Node.empty (height + 1)).side b = .empty height := fun _ => rfl
      rw [siblingsTo, hrange, hside, hside, List.map_cons]
      cases height with
      | zero => rfl
      | succ height => rfl

end Node

namespace ValueTree

variable {D : ℕ} {V : Type} {hash : List Fr → Fr} {t : ValueTree D V}

theorem mem_elements (t : ValueTree D V) (e : Element) : e ∈ t.elements ↔ e ∈ t.entries :=
  mem_map_fst_iterator elementCoding t.entries e

/-- What an insertion does to the nodes before their hashes are recalculated. -/
def Dirtied (hash : List Fr → Fr) (D : ℕ) (node : Node (D - 1)) (elements : List Element)
    (node' : Node (D - 1)) : Prop :=
  (elements = [] ∧ node' = node) ∨
    (elements ≠ [] ∧
      node.insertWithoutHashing hash D (sortByBits D elements) 0 = some (node', true))

theorem dirtied_of_insertBatch (s inserted : Tree D) (batch : Batch D)
    (h : s.insertBatch hash batch = .ok inserted) :
    ∃ node, Dirtied hash D s.tree batch.entries node ∧
      inserted.tree = node.recalculateHashes hash ∧
      ∀ e, e ∈ inserted.entries ↔ e ∈ batch.entries ∨ e ∈ s.entries := by
  unfold Tree.insertBatch at h
  split at h
  · cases h
  · split at h
    · cases h
    · rename_i hinserted
      cases h
      unfold Tree.insertWithoutHashing at hinserted
      split at hinserted
      · rename_i hempty
        rw [List.isEmpty_iff] at hempty
        cases hinserted
        refine ⟨s.tree, Or.inl ⟨hempty, rfl⟩, rfl, ?_⟩
        simp [hempty]
      · rename_i hempty
        rw [List.isEmpty_iff] at hempty
        split at hinserted
        · cases hinserted
        · split at hinserted
          · cases hinserted
          · split at hinserted
            · rename_i node hnode
              cases hinserted
              exact ⟨node, Or.inr ⟨hempty, hnode⟩, rfl, Tree.mem_foldl_orderedInsert _ _⟩
            · cases hinserted

/-- An insertion succeeds only for new elements in empty slots. -/
theorem free_of_insertBatch (h : t.keyed.Valid hash) (schedule : Schedule)
    (batch : ValueBatch D V) (r : ValueTree D V × List HashChange)
    (hok : t.insertBatch hash schedule batch = .ok r) :
    (∀ e ∈ batch.elements, e ≠ Element.nullHash) ∧
      ∀ e ∈ batch.elements, h.sparse.leaf (bits D e) = 0 := by
  unfold insertBatch at hok
  split at hok
  · cases hok
  · rename_i hcheck
    refine ⟨?_, (h.checkCollisions_ok batch.keys).mp hcheck⟩
    split at hok
    · cases hok
    · rename_i hinserted
      unfold insertWithoutHashing at hinserted
      split at hinserted
      · rename_i hempty
        rw [List.isEmpty_iff] at hempty
        simp [ValueBatch.elements, hempty]
      · split at hinserted
        · cases hinserted
        · rename_i hnull
          intro e he heq
          obtain ⟨entry, hentry, rfl⟩ := List.mem_map.mp he
          apply hnull
          rw [List.any_eq_true]
          exact ⟨entry, hentry, decide_eq_true heq⟩

/-- New elements for empty slots are inserted, and with them their values. -/
theorem insertBatch_free (h : t.keyed.Valid hash) (hcache : Faithful hash t.cache)
    (schedule : Schedule) (batch : ValueBatch D V)
    (hnull : ∀ e ∈ batch.elements, e ≠ Element.nullHash)
    (hvacant : ∀ e ∈ batch.elements, h.sparse.leaf (bits D e) = 0) :
    ∃ node, Dirtied hash D t.tree batch.elements node ∧
      t.insertBatch hash schedule batch =
        .ok (⟨node.recalculateHashes hash, putAll batch.entries t.entries, t.cache⟩,
          (Node.recalculateHashes hash (elementNode hash) node schedule).2) ∧
      ∃ h' : (⟨node.recalculateHashes hash, putAll batch.entries t.entries, t.cache⟩ :
          ValueTree D V).keyed.Valid hash,
        h'.sparse = h.sparse.laid batch.elements := by
  obtain ⟨inserted, hinserted, hvalid, hlaid⟩ := h.insertBatch_free batch.keys hnull hvacant
  obtain ⟨node, hnode, htree, hentries⟩ := dirtied_of_insertBatch _ _ _ hinserted
  have hnode : Dirtied hash D t.tree batch.elements node := hnode
  have hcheck : t.checkCollisions batch = .ok () :=
    (h.checkCollisions_ok batch.keys).mpr hvacant
  have hmem : ∀ e, e ∈ (⟨node.recalculateHashes hash, putAll batch.entries t.entries, t.cache⟩ :
      ValueTree D V).elements ↔ e ∈ inserted.entries := by
    intro e
    have hkeyed : e ∈ t.keyed.entries ↔ e ∈ t.entries := mem_elements t e
    rw [mem_elements, mem_putAll, hentries, hkeyed]
    rfl
  refine ⟨node, hnode, ?_, ⟨?_, ?_, ?_⟩, ?_⟩
  · have hrecalculated := Node.recalculateHashes_fst hash node schedule
    unfold insertBatch
    rw [hcheck, hashCached_eq hash t.cache hcache]
    rcases hnode with ⟨hempty, rfl⟩ | ⟨hne, hnode⟩
    · have hnil : batch.entries = [] := List.map_eq_nil_iff.mp hempty
      simp only [insertWithoutHashing, hnil, List.isEmpty_nil, ↓reduceIte, hrecalculated]
      rfl
    · have hnil : batch.entries.isEmpty = false := by
        rw [List.isEmpty_eq_false_iff]
        exact fun hnil => hne (List.map_eq_nil_iff.mpr hnil)
      have hnotNull : (batch.entries.any fun e => e.1 = Element.nullHash) = false := by
        rw [List.any_eq_false]
        intro e he
        simpa using hnull e.1 (List.mem_map_of_mem he)
      have hnotKnown : (batch.entries.any fun e => e.1 ∈ t.entries) = false := by
        rw [List.any_eq_false]
        intro e he hin
        rw [decide_eq_true_eq, ← mem_elements] at hin
        obtain ⟨hnonzero, heq⟩ := (h.entries_iff e.1).mp hin
        exact hnonzero (heq.symm.trans (hvacant e.1 (List.mem_map_of_mem he)))
      have hnode' : t.tree.insertWithoutHashing hash D
          (sortByBits D (batch.entries.map Prod.fst)) 0 = some (node, true) := hnode
      simp only [insertWithoutHashing, hnil, hnotNull, hnotKnown, hnode', hrecalculated,
        Bool.false_eq_true, ↓reduceIte]
  · rw [keyed, ← htree]
    exact hvalid.well_hashed
  · rw [keyed, ← htree]
    exact hvalid.placed
  · intro e
    have hiff := hvalid.entries_iff e
    rw [htree] at hiff
    exact (hmem e).trans hiff
  · rw [← show hvalid.sparse = h.sparse.laid batch.elements from hlaid]
    apply SparseTree.ext_leaf
    change (node.recalculateHashes hash).leafAt = inserted.tree.leafAt
    rw [htree]

/-- A tree of entries in distinct slots. -/
structure Holds (hash : List Fr → Fr) (t : ValueTree D V) (entries : List (Element × V)) :
    Prop where
  valid : t.keyed.Valid hash
  free : (SparseTree.empty (bits D)).Free (entries.map Prod.fst)
  not_null : ∀ e ∈ entries.map Prod.fst, e ≠ Element.nullHash
  laid : valid.sparse = (SparseTree.empty (bits D)).laid (entries.map Prod.fst)
  values : ∀ e v, t.entries.lookup e = some v ↔ (e, v) ∈ entries
  faithful : Faithful hash t.cache

theorem newWithCache_keyed (cache : List KnownHash) :
    (newWithCache D V cache).keyed = Tree.new D := by
  have hnil : (newWithCache D V cache).elements = [] := by
    apply List.eq_nil_iff_forall_not_mem.mpr
    intro e he
    rw [mem_elements] at he
    exact Finmap.notMem_empty he
  rw [keyed, hnil]
  rfl

theorem newWithCache_holds (cache : List KnownHash) (h : Faithful hash cache) :
    (newWithCache D V cache).Holds hash [] := by
  have helements : (newWithCache D V cache).keyed = Tree.new D := newWithCache_keyed cache
  have hnew : (newWithCache D V cache).keyed.Valid hash := by
    rw [helements]
    exact Tree.new_valid
  refine ⟨hnew, ⟨List.Pairwise.nil, by simp⟩, by simp, ?_, ?_, h⟩
  · rw [List.map_nil, SparseTree.laid_nil]
    exact SparseTree.ext_leaf _ _ (funext fun p => leafAt_empty p)
  · intro e v
    have hnone : (newWithCache D V cache).entries.lookup e = none := Finmap.lookup_empty e
    simp [hnone]

theorem Holds.mem_iff {entries : List (Element × V)} (h : t.Holds hash entries) (e : Element) :
    e ∈ t.elements ↔ e ∈ entries.map Prod.fst := by
  rw [mem_elements, Finmap.mem_iff, List.mem_map]
  constructor
  · rintro ⟨v, hv⟩
    exact ⟨(e, v), (h.values e v).mp hv, rfl⟩
  · rintro ⟨⟨e', v⟩, hv, rfl⟩
    exact ⟨v, (h.values e' v).mpr hv⟩

/-- A batch fits when its slots are empty and its elements are not null. -/
theorem Holds.append {entries : List (Element × V)} (h : t.Holds hash entries)
    (schedule : Schedule) (batch : ValueBatch D V)
    (hnull : ∀ e ∈ batch.elements, e ≠ Element.nullHash)
    (hvacant : ∀ e ∈ batch.elements, h.valid.sparse.leaf (bits D e) = 0) :
    ∃ node, Dirtied hash D t.tree batch.elements node ∧
      t.insertBatch hash schedule batch =
        .ok (⟨node.recalculateHashes hash, putAll batch.entries t.entries, t.cache⟩,
          (Node.recalculateHashes hash (elementNode hash) node schedule).2) ∧
      (⟨node.recalculateHashes hash, putAll batch.entries t.entries, t.cache⟩ :
        ValueTree D V).Holds hash (entries ++ batch.entries) := by
  obtain ⟨node, hnode, hok, hvalid, hlaid⟩ :=
    insertBatch_free h.valid h.faithful schedule batch hnull hvacant
  have hdistinct : batch.elements.Pairwise fun a b => bits D a ≠ bits D b := batch.keys.distinct
  have hfree : h.valid.sparse.Free batch.elements := ⟨hdistinct, hvacant⟩
  rw [h.laid] at hfree hlaid
  obtain ⟨hboth, hbothLaid⟩ := SparseTree.laid_append _ _ h.not_null hnull h.free hfree
  refine ⟨node, hnode, hok, hvalid, ?_, ?_, ?_, ?_, h.faithful⟩
  · rw [List.map_append]
    exact hboth
  · rw [List.map_append]
    exact List.forall_mem_append.mpr ⟨h.not_null, hnull⟩
  · rw [List.map_append, hlaid]
    exact hbothLaid.symm
  · intro e v
    have hnodup : (batch.entries.map Prod.fst).Nodup := by
      rw [List.nodup_iff_pairwise_ne]
      apply hdistinct.imp
      rintro a b hab rfl
      exact hab rfl
    rw [lookup_putAll_iff _ _ _ _ hnodup, h.values, List.mem_append, or_comm]
    have hfresh : (e, v) ∈ entries → e ∉ batch.entries.map Prod.fst := by
      intro hin hnew
      have hold := (h.mem_iff e).mpr (List.mem_map_of_mem hin)
      obtain ⟨hne, hleaf⟩ := (h.valid.entries_iff e).mp hold
      exact hne (hleaf.symm.trans (hvacant e hnew))
    tauto

theorem Holds.insertBatch {entries : List (Element × V)} (h : t.Holds hash entries)
    (schedule : Schedule) (batch : ValueBatch D V) (r : ValueTree D V × List HashChange)
    (hok : t.insertBatch hash schedule batch = .ok r) :
    r.1.Holds hash (entries ++ batch.entries) := by
  obtain ⟨hnull, hvacant⟩ := free_of_insertBatch h.valid schedule batch r hok
  obtain ⟨node, -, hok', hholds⟩ := h.append schedule batch hnull hvacant
  rw [hok', Except.ok.injEq] at hok
  rw [← hok]
  exact hholds

/-- An insertion of new elements touches the nodes above them and recalculates their hashes. -/
theorem Holds.insertBatch_touched {entries : List (Element × V)} (h : t.Holds hash entries)
    (schedule : Schedule) (batch : ValueBatch D V) (r : ValueTree D V × List HashChange)
    (hne : batch.entries ≠ []) (hok : t.insertBatch hash schedule batch = .ok r) :
    ∃ node, t.tree.Touched hash node ∧ node.leafAt = r.1.tree.leafAt ∧
      r = (⟨node.recalculateHashes hash, putAll batch.entries t.entries, t.cache⟩,
        (Node.recalculateHashes hash (elementNode hash) node schedule).2) ∧
      r.1.Holds hash (entries ++ batch.entries) := by
  obtain ⟨hnull, hvacant⟩ := free_of_insertBatch h.valid schedule batch r hok
  obtain ⟨node, hdirtied, hok', hholds⟩ := h.append schedule batch hnull hvacant
  rw [hok', Except.ok.injEq] at hok
  obtain rfl := hok
  have hnil : batch.elements ≠ [] := fun hnil => hne (List.map_eq_nil_iff.mp hnil)
  obtain ⟨node', hnode', -, htouched⟩ := h.valid.insertWithoutHashing_free batch.elements hnil
    hnull ⟨batch.keys.distinct, hvacant⟩
  rcases hdirtied with ⟨hempty, -⟩ | ⟨-, hnode⟩
  · exact absurd hempty hnil
  · have hsame : node' = node := by
      have heq := hnode'.symm.trans hnode
      rw [Option.some_inj, Prod.mk.injEq] at heq
      exact heq.1
    rw [hsame] at htouched
    have hmarked := marked_of_touched hash t.tree node h.valid.well_hashed htouched
    exact ⟨node, htouched, (recalculateHashes_spec hash node hmarked).2.symm, rfl, hholds⟩

theorem valueBatch_insert_ok (self batch : ValueBatch D V) (element : Element) (value : V)
    (h : self.insert element value = .ok batch) :
    batch.entries = self.entries ++ [(element, value)] := by
  unfold ValueBatch.insert at h
  split at h
  · cases h
  · split at h
    · cases h
    · cases h
      rfl

theorem Holds.insert {entries : List (Element × V)} (h : t.Holds hash entries)
    (element : Element) (value : V) (t' : ValueTree D V)
    (hok : t.insert hash element value = .ok t') :
    t'.Holds hash (entries ++ [(element, value)]) := by
  unfold ValueTree.insert at hok
  split at hok
  · cases hok
  · rename_i batch hbatch
    have hentries := valueBatch_insert_ok _ _ _ _ hbatch
    cases hinsert : t.insertBatch hash (fun _ => []) batch with
    | error e =>
      rw [hinsert] at hok
      cases hok
    | ok r =>
      rw [hinsert] at hok
      cases hok
      have hholds := h.insertBatch _ _ r hinsert
      rw [hentries] at hholds
      exact hholds

theorem pathFor_siblings (h : t.keyed.Valid hash) (e : Element) :
    (t.pathFor hash e).element = e ∧ (t.pathFor hash e).siblingsDeepestFirst =
      (siblings (elementNode hash) t.tree.leafAt (bits D e)).reverse := by
  have hlen := siblings_length (elementNode hash) t.tree.leafAt (bits D e)
  rw [bits_length] at hlen
  constructor
  · rw [Path.element, pathFor, List.getLastD_concat]
  · rw [Path.siblingsDeepestFirst, pathFor,
      Node.siblingsTo_eq hash t.tree h.well_hashed (bits D e) (bits_length D e)]
    apply List.take_left'
    rw [List.length_reverse, hlen]

/-- A path takes any leaf to the root of the tree with that leaf in its slot. -/
theorem computeRootHash_pathFor (h : t.keyed.Valid hash) (e x : Element) :
    (t.pathFor hash e).computeRootHash hash x =
      root (elementNode hash) (D - 1) (Function.update t.tree.leafAt (bits D e) x) := by
  obtain ⟨helement, hdeepest⟩ := pathFor_siblings h e
  have hlen := siblings_length (elementNode hash) t.tree.leafAt (bits D e)
  have hroot := root_update (elementNode hash) t.tree.leafAt (bits D e) x
  rw [bits_length] at hroot
  have hzip : ((bits D e).reverse.zip
      (siblings (elementNode hash) t.tree.leafAt (bits D e)).reverse).reverse =
      (bits D e).zip (siblings (elementNode hash) t.tree.leafAt (bits D e)) := by
    rw [List.zip, ← List.reverse_zipWith hlen.symm, List.reverse_reverse]
  rw [Path.computeRootHash, helement, hdeepest, climbUp_eq_climb, hzip, hroot]

/-- The path to an element of the tree leads from it to the root. -/
theorem pathFor_proves (h : t.keyed.Valid hash) (e : Element) (he : e ∈ t.elements) :
    (t.pathFor hash e).computeRootHash hash (t.pathFor hash e).element =
      (t.pathFor hash e).rootHash := by
  obtain ⟨-, hleaf⟩ := (h.entries_iff e).mp he
  have hsame : Function.update t.tree.leafAt (bits D e) e = t.tree.leafAt := by
    rw [Function.update_eq_self_iff]
    exact hleaf.symm
  rw [computeRootHash_pathFor h, (pathFor_siblings h e).1, hsame]
  exact (SmirkNode.rootHash_eq hash t.tree h.well_hashed).symm

theorem valueBatch_insert_of_fresh (self : ValueBatch D V) (element : Element) (value : V)
    (hD : D ≤ 257) (h : ∀ a ∈ self.elements, bits D a ≠ bits D element) :
    ∃ batch, self.insert element value = .ok batch := by
  unfold ValueBatch.insert
  rw [dif_neg (Nat.not_lt.mpr hD)]
  split
  · rename_i inTree hfound
    have hbits := List.find?_some hfound
    exact absurd (of_decide_eq_true hbits) (h _ (List.mem_of_find?_eq_some hfound))
  · exact ⟨_, rfl⟩

/-- Entries in distinct slots make a batch. -/
theorem valueBatch_fromEntries (entries : List (Element × V)) (hD : entries = [] ∨ D ≤ 257)
    (h : entries.Pairwise fun a b => bits D a.1 ≠ bits D b.1) :
    ∃ batch, ValueBatch.fromEntries D entries = .ok batch ∧ batch.entries = entries := by
  have hall : ∀ (rest : List (Element × V)) (self : ValueBatch D V), (rest = [] ∨ D ≤ 257) →
      (self.entries ++ rest).Pairwise (fun a b => bits D a.1 ≠ bits D b.1) →
      ∃ batch, self.insertAll rest = .ok batch ∧ batch.entries = self.entries ++ rest := by
    intro rest
    induction rest with
    | nil =>
      intro self _ _
      exact ⟨self, rfl, (List.append_nil _).symm⟩
    | cons entry rest ih =>
      intro self hfits hpairs
      obtain ⟨element, value⟩ := entry
      have hD : D ≤ 257 := hfits.resolve_left (List.cons_ne_nil _ _)
      have hfresh : ∀ a ∈ self.elements, bits D a ≠ bits D element := by
        intro a ha
        obtain ⟨entry, hentry, rfl⟩ := List.mem_map.mp ha
        exact (List.pairwise_append.mp hpairs).2.2 entry hentry _ (List.mem_cons_self ..)
      obtain ⟨batch, hbatch⟩ := valueBatch_insert_of_fresh self element value hD hfresh
      have hentries := valueBatch_insert_ok self batch element value hbatch
      rw [← List.singleton_append, ← List.append_assoc, ← hentries] at hpairs
      obtain ⟨final, hfinal, hfinalEntries⟩ := ih batch (Or.inr hD) hpairs
      refine ⟨final, ?_, ?_⟩
      · simp only [ValueBatch.insertAll, hbatch, bind, Except.bind]
        exact hfinal
      · rw [hfinalEntries, hentries, List.append_assoc, List.singleton_append]
  exact hall entries (ValueBatch.new D V) hD h

/-- A batch made of entries holds these entries. -/
theorem valueBatch_fromEntries_ok (entries : List (Element × V)) (batch : ValueBatch D V)
    (h : ValueBatch.fromEntries D entries = .ok batch) : batch.entries = entries := by
  have hall : ∀ (rest : List (Element × V)) (self : ValueBatch D V),
      self.insertAll rest = .ok batch → batch.entries = self.entries ++ rest := by
    intro rest
    induction rest with
    | nil =>
      intro self hself
      cases hself
      rw [List.append_nil]
    | cons entry rest ih =>
      intro self hself
      obtain ⟨element, value⟩ := entry
      cases hinsert : self.insert element value with
      | error e => simp [ValueBatch.insertAll, hinsert, bind, Except.bind] at hself
      | ok next =>
        simp only [ValueBatch.insertAll, hinsert, bind, Except.bind] at hself
        rw [ih next hself, valueBatch_insert_ok self next element value hinsert, List.append_assoc,
          List.singleton_append]
  exact hall entries (ValueBatch.new D V) h

/-- An element that is not null fits when its slot is free of the known ones. -/
theorem Holds.insert_of_free {entries : List (Element × V)} (h : t.Holds hash entries)
    (hD : D ≤ 257) (element : Element) (value : V) (hnull : element ≠ Element.nullHash)
    (hfree : (SparseTree.empty (bits D)).Free (entries.map Prod.fst ++ [element])) :
    ∃ t', t.insert hash element value = .ok t' := by
  obtain ⟨batch, hbatch⟩ := valueBatch_insert_of_fresh (ValueBatch.new D V) element value hD
    (by simp [ValueBatch.new, ValueBatch.elements])
  have hentries : batch.elements = [element] := by
    rw [ValueBatch.elements, valueBatch_insert_ok _ _ _ _ hbatch]
    rfl
  have hone : ∀ e ∈ [element], e ≠ Element.nullHash := by
    intro e he
    rw [List.mem_singleton.mp he]
    exact hnull
  have hlaid := SparseTree.free_of_append _ _ h.not_null hone hfree
  rw [← h.laid] at hlaid
  obtain ⟨node, -, hok, -⟩ := h.append (fun _ => []) batch
    (by rw [hentries]; exact hone) (by rw [hentries]; exact hlaid.vacant)
  have hinsert : t.insert hash element value =
      (t.insertBatch hash (fun _ => []) batch).map Prod.fst := by
    rw [ValueTree.insert, hbatch]
  exact ⟨_, by rw [hinsert, hok]; rfl⟩

theorem insertWithPaths_cons (element : Element) (value : V) (rest : List (Element × V))
    (r : ValueTree D V × List (Path D))
    (hok : t.insertWithPaths hash ((element, value) :: rest) = .ok r) :
    ∃ inserted, t.insert hash element value = .ok inserted ∧
      ∃ final, inserted.insertWithPaths hash rest = .ok final ∧
        r = (final.1, inserted.pathFor hash element :: final.2) := by
  unfold ValueTree.insertWithPaths at hok
  cases hinsert : t.insert hash element value with
  | error e =>
    rw [hinsert] at hok
    cases hok
  | ok inserted =>
    rw [hinsert] at hok
    cases hrest : inserted.insertWithPaths hash rest with
    | error e => simp [hrest, bind, Except.bind] at hok
    | ok final =>
      simp only [hrest, bind, Except.bind, pure, Except.pure, Except.ok.injEq] at hok
      exact ⟨inserted, rfl, final, hrest, hok.symm⟩

theorem Holds.insertWithPaths {entries : List (Element × V)} (h : t.Holds hash entries)
    (added : List (Element × V)) (r : ValueTree D V × List (Path D))
    (hok : t.insertWithPaths hash added = .ok r) : r.1.Holds hash (entries ++ added) := by
  induction added generalizing t entries r with
  | nil =>
    cases hok
    rw [List.append_nil]
    exact h
  | cons entry rest ih =>
    obtain ⟨element, value⟩ := entry
    obtain ⟨inserted, hinserted, final, hfinal, rfl⟩ := insertWithPaths_cons _ _ _ _ hok
    have hholds := ih (h.insert element value inserted hinserted) final hfinal
    rw [List.append_assoc, List.singleton_append] at hholds
    exact hholds

/-- Every path that an insertion returns proves its element. -/
theorem Holds.paths_prove {entries : List (Element × V)} (h : t.Holds hash entries)
    (added : List (Element × V)) (r : ValueTree D V × List (Path D))
    (hok : t.insertWithPaths hash added = .ok r) :
    ∀ path ∈ r.2, path.computeRootHash hash path.element = path.rootHash := by
  induction added generalizing t entries r with
  | nil =>
    cases hok
    simp
  | cons entry rest ih =>
    obtain ⟨element, value⟩ := entry
    obtain ⟨inserted, hinserted, final, hfinal, rfl⟩ := insertWithPaths_cons _ _ _ _ hok
    have hholds := h.insert element value inserted hinserted
    change ∀ path ∈ inserted.pathFor hash element :: final.2, _
    rw [List.forall_mem_cons]
    refine ⟨pathFor_proves hholds.valid element ?_, ih hholds final hfinal⟩
    rw [hholds.mem_iff, List.map_append]
    exact List.mem_append_right _ (List.mem_singleton_self _)

theorem Holds.insertWithPaths_of_free {entries : List (Element × V)} (h : t.Holds hash entries)
    (hD : D ≤ 257) (added : List (Element × V))
    (hnull : ∀ e ∈ added.map Prod.fst, e ≠ Element.nullHash)
    (hfree : (SparseTree.empty (bits D)).Free (entries.map Prod.fst ++ added.map Prod.fst)) :
    ∃ r, t.insertWithPaths hash added = .ok r := by
  induction added generalizing t entries with
  | nil => exact ⟨_, rfl⟩
  | cons entry rest ih =>
    obtain ⟨element, value⟩ := entry
    obtain ⟨hfirst, hrest⟩ := List.forall_mem_cons.mp hnull
    rw [List.map_cons, ← List.singleton_append, ← List.append_assoc] at hfree
    have hhead := hfree.of_append
    obtain ⟨inserted, hinserted⟩ := h.insert_of_free hD element value hfirst hhead
    have hholds := h.insert element value inserted hinserted
    rw [← List.map_singleton (f := Prod.fst) (a := (element, value)), ← List.map_append] at hfree
    obtain ⟨r, hr⟩ := ih hholds hrest hfree
    refine ⟨(r.1, inserted.pathFor hash element :: r.2), ?_⟩
    simp only [ValueTree.insertWithPaths, hinserted, hr, bind, Except.bind, pure, Except.pure]

end ValueTree

/-- Elements below the number of slots are told apart by their slots. -/
theorem bits_inj_of_lt (D : ℕ) (a b : Element) (ha : a.toNat < 2 ^ (D - 1))
    (hb : b.toNat < 2 ^ (D - 1)) (h : bits D a = bits D b) : a = b := by
  have hnat := BitLists.toBits_inj_of_lt (D - 1) a.toNat b.toNat ha hb (List.reverse_injective h)
  exact BitVec.eq_of_toNat_eq hnat

/-- Laid over the empty tree, each element is alone in its slot. -/
theorem laid_empty_leaf (D : ℕ) (xs : List Element) :
    ((SparseTree.empty (bits D)).laid xs).leaf = resident (bits D) xs := by
  funext p
  rw [SparseTree.laid_leaf, overlay, if_pos (SparseTree.empty_leaf p)]

/-- The root of the full tree in which each element sits in its slot. -/
def naiveRoot (hash : List Fr → Fr) (D : ℕ) (elements : List Element) : Element :=
  root (elementNode hash) (D - 1) (resident (bits D) elements)

inductive TreeOp (D : ℕ) (V : Type)
  | insert (element : Element) (value : V)
  | insertWithPaths (entries : List (Element × V))
  | insertBatch (schedule : Schedule) (batch : ValueBatch D V)

namespace TreeOp

variable {D : ℕ} {V : Type} (hash : List Fr → Fr)

def entries : TreeOp D V → List (Element × V)
  | insert element value => [(element, value)]
  | insertWithPaths entries => entries
  | insertBatch _ batch => batch.entries

def apply (t : ValueTree D V) : TreeOp D V → Outcome CollisionError (ValueTree D V)
  | insert element value => t.insert hash element value
  | insertWithPaths entries => (t.insertWithPaths hash entries).map Prod.fst
  | insertBatch schedule batch => (t.insertBatch hash schedule batch).map Prod.fst

/-- Apply operations as long as they succeed. -/
def run (t : ValueTree D V) : List (TreeOp D V) → Outcome CollisionError (ValueTree D V)
  | [] => .ok t
  | op :: rest =>
      match op.apply hash t with
      | .error e => .error e
      | .ok next => run next rest

variable {hash} {t : ValueTree D V} {known : List (Element × V)}

theorem apply_holds (h : t.Holds hash known) (op : TreeOp D V) (t' : ValueTree D V)
    (hok : op.apply hash t = .ok t') : t'.Holds hash (known ++ op.entries) := by
  cases op with
  | insert element value => exact h.insert element value t' hok
  | insertWithPaths entries =>
    cases hinsert : t.insertWithPaths hash entries with
    | error e =>
      rw [apply, hinsert] at hok
      cases hok
    | ok r =>
      rw [apply, hinsert] at hok
      cases hok
      exact h.insertWithPaths entries r hinsert
  | insertBatch schedule batch =>
    cases hinsert : t.insertBatch hash schedule batch with
    | error e =>
      rw [apply, hinsert] at hok
      cases hok
    | ok r =>
      rw [apply, hinsert] at hok
      cases hok
      exact h.insertBatch schedule batch r hinsert

theorem run_holds (h : t.Holds hash known) (ops : List (TreeOp D V)) (t' : ValueTree D V)
    (hok : run hash t ops = .ok t') : t'.Holds hash (known ++ ops.flatMap entries) := by
  induction ops generalizing t known with
  | nil =>
    cases hok
    rw [List.flatMap_nil, List.append_nil]
    exact h
  | cons op rest ih =>
    rw [run] at hok
    split at hok
    · cases hok
    · rename_i next hnext
      have hrest := ih (apply_holds h op next hnext) hok
      rw [List.flatMap_cons, ← List.append_assoc]
      exact hrest

theorem apply_of_free (h : t.Holds hash known) (hD : D ≤ 257) (op : TreeOp D V)
    (hnull : ∀ e ∈ op.entries.map Prod.fst, e ≠ Element.nullHash)
    (hfree : (SparseTree.empty (bits D)).Free (known.map Prod.fst ++ op.entries.map Prod.fst)) :
    ∃ t', op.apply hash t = .ok t' := by
  cases op with
  | insert element value => exact h.insert_of_free hD element value (hnull _ (by simp [entries])) hfree
  | insertWithPaths added =>
    obtain ⟨r, hr⟩ := h.insertWithPaths_of_free hD added hnull hfree
    exact ⟨r.1, by rw [apply, hr]; rfl⟩
  | insertBatch schedule batch =>
    have hlaid := SparseTree.free_of_append _ _ h.not_null hnull hfree
    rw [← h.laid] at hlaid
    obtain ⟨node, -, hok, -⟩ := h.append schedule batch hnull hlaid.vacant
    exact ⟨_, by rw [apply, hok]; rfl⟩

/-- Elements that are not null and lie in distinct slots are inserted in any order. -/
theorem run_of_free (h : t.Holds hash known) (hD : D ≤ 257) (ops : List (TreeOp D V))
    (hnull : ∀ e ∈ (ops.flatMap entries).map Prod.fst, e ≠ Element.nullHash)
    (hfree : (SparseTree.empty (bits D)).Free
      (known.map Prod.fst ++ (ops.flatMap entries).map Prod.fst)) :
    ∃ t', run hash t ops = .ok t' := by
  induction ops generalizing t known with
  | nil => exact ⟨t, rfl⟩
  | cons op rest ih =>
    rw [List.flatMap_cons, List.map_append, List.forall_mem_append] at hnull
    rw [List.flatMap_cons, List.map_append, ← List.append_assoc] at hfree
    obtain ⟨next, hnext⟩ := apply_of_free h hD op hnull.1 hfree.of_append
    rw [← List.map_append] at hfree
    obtain ⟨t', ht'⟩ := ih (apply_holds h op next hnext) hnull.2 hfree
    exact ⟨t', by rw [run, hnext]; exact ht'⟩

end TreeOp

/-- A tree is determined by its entries: their slots differ, the root is the naive one, every
hash is up to date, and the leaves are the elements. -/
structure Canonical {D : ℕ} {V : Type} (hash : List Fr → Fr) (entries : List (Element × V))
    (t : ValueTree D V) : Prop where
  apart : entries.Pairwise fun a b => bits D a.1 ≠ bits D b.1
  root : t.rootHash hash = naiveRoot hash D (entries.map Prod.fst)
  clean : Node.Clean t.tree
  leaves : t.elements.Perm (Node.leaves t.tree)
  values : ∀ e v, (e, v) ∈ t.iter ↔ (e, v) ∈ entries

theorem ValueTree.Holds.canonical {D : ℕ} {V : Type} {hash : List Fr → Fr} {t : ValueTree D V}
    {entries : List (Element × V)} (h : t.Holds hash entries) : Canonical hash entries t := by
  have hdistinct := h.free.distinct
  rw [List.pairwise_map] at hdistinct
  refine ⟨hdistinct, ?_, ?_, ?_, ?_⟩
  · have hroot : t.rootHash hash = SparseMerkle.root (elementNode hash) (D - 1) h.valid.sparse.leaf :=
      h.valid.rootHash_eq
    rw [hroot, h.laid, laid_empty_leaf]
    rfl
  · exact Node.clean_of_wellHashed hash t.tree h.valid.well_hashed
  · have hnodup := Node.leaves_nodup hash t.tree h.valid.well_hashed (bits D) h.valid.placed
    refine (List.perm_ext_iff_of_nodup (iterator_nodup elementCoding t.entries) hnodup).mpr ?_
    intro e
    rw [Node.mem_leaves hash t.tree h.valid.well_hashed]
    refine (h.valid.entries_iff e).trans ?_
    constructor
    · rintro ⟨hne, hleaf⟩
      exact ⟨hne, _, hleaf⟩
    · rintro ⟨hne, p, rfl⟩
      have hplaced := h.valid.placed p hne
      exact ⟨hne, congrArg t.tree.leafAt hplaced⟩
  · intro e v
    rw [ValueTree.iter, mem_iterator]
    exact h.values e v

theorem naiveRoot_of_mem (hash : List Fr → Fr) (D : ℕ) (xs ys : List Element)
    (hxs : xs.Pairwise fun a b => bits D a ≠ bits D b)
    (hys : ys.Pairwise fun a b => bits D a ≠ bits D b) (h : ∀ e, e ∈ xs ↔ e ∈ ys) :
    naiveRoot hash D xs = naiveRoot hash D ys := by
  have hnodup : ∀ zs : List Element, zs.Pairwise (fun a b => bits D a ≠ bits D b) → zs.Nodup := by
    intro zs hzs
    rw [List.nodup_iff_pairwise_ne]
    apply hzs.imp
    rintro a b hab rfl
    exact hab rfl
  have hperm := (List.perm_ext_iff_of_nodup (hnodup xs hxs) (hnodup ys hys)).mpr h
  have hfree : (SparseTree.empty (bits D)).Free xs := ⟨hxs, fun _ _ => rfl⟩
  have hover := overlay_perm (bits D) _ xs ys hperm hfree.not_crowded
  rw [← SparseTree.laid_leaf, ← SparseTree.laid_leaf, laid_empty_leaf, laid_empty_leaf] at hover
  rw [naiveRoot, naiveRoot, hover]

/-- Successful insertions in any order and any batches end in the tree of their elements. -/
theorem run_canonical (hash : List Fr → Fr) (D : ℕ) (V : Type) (ops : List (TreeOp D V))
    (t : ValueTree D V) (h : TreeOp.run hash (ValueTree.new D V) ops = .ok t) :
    Canonical hash (ops.flatMap TreeOp.entries) t ∧
      ∀ (ops' : List (TreeOp D V)) (t' : ValueTree D V),
        TreeOp.run hash (ValueTree.new D V) ops' = .ok t' →
        (∀ e, e ∈ (ops.flatMap TreeOp.entries).map Prod.fst ↔
          e ∈ (ops'.flatMap TreeOp.entries).map Prod.fst) →
        t.rootHash hash = t'.rootHash hash := by
  have hrun : ∀ (ops : List (TreeOp D V)) (t : ValueTree D V),
      TreeOp.run hash (ValueTree.new D V) ops = .ok t →
      Canonical hash (ops.flatMap TreeOp.entries) t := by
    intro ops t h
    have hnew : (ValueTree.new D V).Holds hash [] := ValueTree.newWithCache_holds [] (by simp [Faithful])
    exact (TreeOp.run_holds hnew ops t h).canonical
  refine ⟨hrun ops t h, ?_⟩
  intro ops' t' h' hsame
  have hcanon := hrun ops t h
  have hcanon' := hrun ops' t' h'
  rw [hcanon.root, hcanon'.root]
  exact naiveRoot_of_mem hash D _ _ (List.pairwise_map.mpr hcanon.apart)
    (List.pairwise_map.mpr hcanon'.apart) hsame

/-- Two elements one after the other, and a third in a batch of its own. -/
def threeInserts : List (TreeOp 161 Unit) :=
  [TreeOp.insert 2#256 (), TreeOp.insertWithPaths [(3#256, ())],
    TreeOp.insertBatch (fun _ => [])
      ⟨[(5#256, ())], List.pairwise_singleton _ _, Or.inr (by omega)⟩]

theorem run_canonical_three :
    ∃ t, TreeOp.run (fun children => children.sum + 1) (ValueTree.new 161 Unit) threeInserts =
        .ok t ∧
      t.rootHash (fun children => children.sum + 1) =
        naiveRoot (fun children => children.sum + 1) 161 [2#256, 3#256, 5#256] := by
  let hash : List Fr → Fr := fun children => children.sum + 1
  have hnew : (ValueTree.new 161 Unit).Holds hash [] :=
    ValueTree.newWithCache_holds [] (by simp [Faithful])
  have hentries : (threeInserts.flatMap TreeOp.entries).map Prod.fst = [2#256, 3#256, 5#256] := rfl
  have hnull : ∀ e ∈ [2#256, 3#256, 5#256], e ≠ Element.nullHash := by
    simp [Element.nullHash, Element.zero]
  have hsmall : ∀ e ∈ [2#256, 3#256, 5#256], e.toNat < 2 ^ (161 - 1) := by simp
  have hdistinct : [2#256, 3#256, 5#256].Pairwise fun a b => bits 161 a ≠ bits 161 b := by
    have hne : [2#256, 3#256, 5#256].Pairwise (· ≠ ·) := by simp
    apply hne.imp_of_mem
    intro a b ha hb hab heq
    exact hab (bits_inj_of_lt 161 a b (hsmall a ha) (hsmall b hb) heq)
  have hfree : (SparseTree.empty (bits 161)).Free [2#256, 3#256, 5#256] :=
    ⟨hdistinct, fun _ _ => rfl⟩
  rw [← hentries] at hnull hfree ⊢
  obtain ⟨t, ht⟩ := TreeOp.run_of_free hnew (by omega) threeInserts hnull hfree
  exact ⟨t, ht, (run_canonical hash 161 Unit threeInserts t ht).1.root⟩

end PayyRollup.SmirkValues
