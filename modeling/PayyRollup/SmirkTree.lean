import Mathlib.Data.List.Sort
import PayyRollup.SmirkNode

/-!
The notes tree with its entries, batches of new elements, and the tree that is also kept in
a database. The values stored with the elements and the cached hashes are left out: no
function here reads the former, and the latter agree with the hash function. A valid tree
is a sparse tree, and inserting a batch into it is inserting its elements one by one.
-/
namespace PayyRollup.SmirkTree

open BitLists ScalarField SparseMerkle ElementHash SmirkNode

/-- How a function that does not return a value ends. -/
inductive Failure (ε : Type)
  | err (e : ε)
  | panic
  deriving DecidableEq

abbrev Outcome (ε α : Type) := Except (Failure ε) α

/-- Wrap the error of a call; a panic stays one. -/
def Failure.map {ε ε' : Type} (f : ε → ε') : Failure ε → Failure ε'
  | err e => err (f e)
  | panic => panic

inductive StructName
  | batch
  | tree
  deriving DecidableEq

structure Collision where
  inTree : Element
  inserted : Element
  depth : ℕ
  structName : StructName
  deriving DecidableEq

abbrev CollisionError := List Collision

/-- New elements; no two of them have the same low bits. -/
structure Batch (D : ℕ) where
  entries : List Element
  distinct : entries.Pairwise fun a b => bits D a ≠ bits D b

namespace Batch

variable {D : ℕ}

def empty (D : ℕ) : Batch D := ⟨[], List.Pairwise.nil⟩

def isEmpty (self : Batch D) : Bool := self.entries.isEmpty

def findElementWithLsb (self : Batch D) (lsb : List Bool) : Option Element :=
  self.entries.find? fun e => bits D e = lsb

def insert (self : Batch D) (element : Element) : Except CollisionError (Batch D) :=
  match h : self.findElementWithLsb (bits D element) with
  | some inTree => .error [⟨inTree, element, D, StructName.batch⟩]
  | none => .ok
      { entries := self.entries ++ [element]
        distinct := by
          refine List.pairwise_append.mpr ⟨self.distinct, List.pairwise_singleton _ _, ?_⟩
          intro a ha b hb
          obtain rfl := List.mem_singleton.mp hb
          simpa using List.find?_eq_none.mp h a ha }

def insertAll (self : Batch D) : List Element → Except CollisionError (Batch D)
  | [] => .ok self
  | element :: rest => do
      let batch ← self.insert element
      batch.insertAll rest

def fromEntries (D : ℕ) (entries : List Element) : Except CollisionError (Batch D) :=
  (empty D).insertAll entries

theorem insert_ok (self batch : Batch D) (element : Element) :
    self.insert element = .ok batch ↔
      (∀ a ∈ self.entries, bits D a ≠ bits D element) ∧
        batch.entries = self.entries ++ [element] := by
  have hfind : self.findElementWithLsb (bits D element) = none ↔
      ∀ a ∈ self.entries, bits D a ≠ bits D element := by
    rw [findElementWithLsb, List.find?_eq_none]
    simp
  unfold insert
  rw [← hfind]
  obtain ⟨entries, hdistinct⟩ := batch
  split
  · rename_i inTree h
    simp [h]
  · rename_i h
    simp only [h, Except.ok.injEq, Batch.mk.injEq, true_and]
    exact eq_comm

theorem insertAll_ok (self batch : Batch D) (elements : List Element) :
    self.insertAll elements = .ok batch ↔
      (self.entries ++ elements).Pairwise (fun a b => bits D a ≠ bits D b) ∧
        batch.entries = self.entries ++ elements := by
  induction elements generalizing self with
  | nil =>
    rw [insertAll, List.append_nil, Except.ok.injEq]
    obtain ⟨entries, hdistinct⟩ := self
    obtain ⟨entries', hdistinct'⟩ := batch
    simp only [Batch.mk.injEq]
    exact ⟨fun h => ⟨hdistinct, h.symm⟩, fun h => h.2.symm⟩
  | cons element rest ih =>
    rw [insertAll]
    cases hinsert : self.insert element with
    | error e =>
      refine iff_of_false (by simp [bind, Except.bind]) ?_
      rintro ⟨hpairs, -⟩
      have hfresh : ∀ a ∈ self.entries, bits D a ≠ bits D element := fun a ha =>
        (List.pairwise_append.mp hpairs).2.2 a ha element (List.mem_cons_self ..)
      have hdistinct : (self.entries ++ [element]).Pairwise fun a b => bits D a ≠ bits D b := by
        refine List.pairwise_append.mpr ⟨self.distinct, List.pairwise_singleton _ _, ?_⟩
        intro a ha b hb
        obtain rfl := List.mem_singleton.mp hb
        exact hfresh a ha
      have hok := (insert_ok self ⟨self.entries ++ [element], hdistinct⟩ element).mpr
        ⟨hfresh, rfl⟩
      rw [hinsert] at hok
      cases hok
    | ok batch' =>
      have hentries := ((insert_ok self batch' element).mp hinsert).2
      change batch'.insertAll rest = .ok batch ↔ _
      rw [ih batch', hentries, List.append_assoc, List.singleton_append]

/-- A batch is made of any elements that differ in their low bits, and only of these. -/
theorem fromEntries_ok (batch : Batch D) (elements : List Element) :
    fromEntries D elements = .ok batch ↔
      elements.Pairwise (fun a b => bits D a ≠ bits D b) ∧ batch.entries = elements := by
  rw [fromEntries, insertAll_ok]
  rfl

end Batch

/-- The tree with the elements in it, in order. -/
structure Tree (D : ℕ) where
  tree : Node (D - 1)
  entries : List Element

namespace Tree

variable {D : ℕ} (hash : List Fr → Fr)

def new (D : ℕ) : Tree D := ⟨Node.empty (D - 1), []⟩

def containsElement (t : Tree D) (element : Element) : Bool := decide (element ∈ t.entries)

def rootHash (t : Tree D) : Element := t.tree.rootHash hash

/-- The root if these elements were inserted; `none` stands for a panic. -/
def rootHashWith (t : Tree D) (extraElements : List Element) : Option Element :=
  t.tree.hashWith hash D extraElements

def checkCollisions (t : Tree D) (batch : Batch D) : Except CollisionError Unit :=
  let collisions := t.entries.filterMap fun inTree =>
    (batch.findElementWithLsb (bits D inTree)).map fun inserted =>
      ⟨inTree, inserted, D, StructName.tree⟩
  if collisions.isEmpty then .ok () else .error collisions

/-- Insert into the tree and the entries; `none` stands for a collision, which the caller
unwraps. -/
def insertWithoutHashing (t : Tree D) (entries : List Element) : Option (Tree D) :=
  if entries.isEmpty then some t
  else if Element.nullHash ∈ entries then none
  else if entries.any t.containsElement then none
  else
    match t.tree.insertWithoutHashing hash D (sortByBits D entries) 0 with
    | some (tree, true) =>
        some ⟨tree, entries.foldl (fun known e => known.orderedInsert (· ≤ ·) e) t.entries⟩
    | _ => none

def insertBatch (t : Tree D) (batch : Batch D) : Outcome CollisionError (Tree D) :=
  match t.checkCollisions batch with
  | .error collisions => .error (.err collisions)
  | .ok () =>
      match t.insertWithoutHashing hash batch.entries with
      | none => .error .panic
      | some inserted => .ok { inserted with tree := inserted.tree.recalculateHashes hash }

/-- The hashes are up to date, every leaf is in its slot, and the entries are the leaves. -/
structure Valid (t : Tree D) : Prop where
  well_hashed : t.tree.WellHashed hash
  placed : ∀ p, t.tree.leafAt p ≠ 0 → bits D (t.tree.leafAt p) = p
  entries_iff : ∀ e, e ∈ t.entries ↔ e ≠ 0 ∧ t.tree.leafAt (bits D e) = e

section Laws

variable {hash} {t : Tree D}

/-- A valid tree is the sparse tree of its leaves. -/
def Valid.sparse (h : t.Valid hash) : SparseTree Element (bits D) where
  leaf := t.tree.leafAt
  placed := h.placed

theorem Valid.mem_sparse (h : t.Valid hash) (e : Element) :
    e ∈ h.sparse ↔ t.containsElement e = true := by
  rw [containsElement, decide_eq_true_eq, h.entries_iff]
  rfl

theorem new_valid : (new D).Valid hash := by
  have hleaf : ∀ p, (new D).tree.leafAt p = 0 := leafAt_empty
  refine ⟨?_, ?_, ?_⟩
  · exact wellHashed_empty hash (D - 1)
  · intro p hp
    exact absurd (hleaf p) hp
  · intro e
    rw [hleaf]
    refine iff_of_false (by simp [new]) ?_
    rintro ⟨hne, hzero⟩
    exact hne hzero.symm

theorem new_sparse (h : (new D).Valid hash) : h.sparse = SparseTree.empty (bits D) := by
  apply SparseTree.ext_leaf
  funext p
  exact leafAt_empty p

theorem Valid.rootHash_eq (h : t.Valid hash) :
    t.rootHash hash = root (elementNode hash) (D - 1) h.sparse.leaf :=
  SmirkNode.rootHash_eq hash t.tree h.well_hashed

/-- The root with extra elements is the root of the overlay, and panics on crowding. -/
theorem Valid.rootHashWith_eq_some (h : t.Valid hash) (extra : List Element) (r : Element) :
    t.rootHashWith hash extra = some r ↔
      ¬Crowded (bits D) h.sparse.leaf extra ∧
        r = root (elementNode hash) (D - 1) (h.sparse.laid extra).leaf := by
  have hperm := sortByBits_perm D extra
  have hspec := hashWithInner_eq_some hash t.tree h.well_hashed 0 (Nat.zero_add _)
    (sortByBits D extra) (sortByBits_sorted D extra) r
  rw [slotFrom_zero] at hspec
  rw [rootHashWith, Node.hashWith, hspec]
  constructor
  · rintro ⟨hfree, rfl⟩
    refine ⟨fun hcrowded => hfree (hcrowded.perm _ hperm.symm), ?_⟩
    rw [overlay_perm _ _ _ _ hperm hfree]
    rfl
  · rintro ⟨hfree, rfl⟩
    have hfree' : ¬Crowded (bits D) t.tree.leafAt (sortByBits D extra) := fun hcrowded =>
      hfree (hcrowded.perm _ hperm)
    refine ⟨hfree', ?_⟩
    rw [overlay_perm _ _ _ _ hperm hfree']
    rfl

/-- The check finds every element whose slot is occupied. -/
theorem Valid.checkCollisions_ok (h : t.Valid hash) (batch : Batch D) :
    t.checkCollisions batch = .ok () ↔
      ∀ e ∈ batch.entries, h.sparse.leaf (bits D e) = 0 := by
  have hnone : ∀ inTree, (batch.findElementWithLsb (bits D inTree)).map
      (fun inserted => Collision.mk inTree inserted D StructName.tree) = none ↔
      ∀ e ∈ batch.entries, bits D e ≠ bits D inTree := by
    intro inTree
    rw [Option.map_eq_none_iff, Batch.findElementWithLsb, List.find?_eq_none]
    simp
  unfold checkCollisions
  simp only [ite_eq_left_iff, reduceCtorEq, imp_false, not_not, List.isEmpty_iff,
    List.filterMap_eq_nil_iff, hnone]
  constructor
  · intro hfresh e he
    by_contra hoccupied
    have hplaced := h.placed _ hoccupied
    have hin : t.tree.leafAt (bits D e) ∈ t.entries := by
      refine (h.entries_iff _).mpr ⟨hoccupied, ?_⟩
      rw [hplaced]
    exact hfresh _ hin e he hplaced.symm
  · intro hvacant inTree hin e he heq
    obtain ⟨hne, hleaf⟩ := (h.entries_iff inTree).mp hin
    apply hne
    rw [← hleaf, ← heq]
    exact hvacant e he

theorem mem_foldl_orderedInsert (known entries : List Element) (e : Element) :
    e ∈ entries.foldl (fun known e => known.orderedInsert (· ≤ ·) e) known ↔
      e ∈ entries ∨ e ∈ known := by
  induction entries generalizing known with
  | nil => simp
  | cons x rest ih =>
    rw [List.foldl_cons, ih, List.mem_orderedInsert, List.mem_cons]
    tauto

theorem length_foldl_orderedInsert (known entries : List Element) :
    (entries.foldl (fun known e => known.orderedInsert (· ≤ ·) e) known).length =
      known.length + entries.length := by
  induction entries generalizing known with
  | nil => rfl
  | cons x rest ih =>
    rw [List.foldl_cons, ih, List.orderedInsert_length, List.length_cons]
    omega

theorem insertWithoutHashing_length (entries : List Element) (inserted : Tree D)
    (h : t.insertWithoutHashing hash entries = some inserted) :
    inserted.entries.length = t.entries.length + entries.length := by
  unfold insertWithoutHashing at h
  split at h
  · rename_i hempty
    cases h
    rw [List.isEmpty_iff.mp hempty]
    rfl
  split at h
  · cases h
  split at h
  · cases h
  split at h
  · cases h
    exact length_foldl_orderedInsert t.entries entries
  · cases h

/-- A batch that is inserted makes another tree, unless it is empty. -/
theorem insertBatch_ne (batch : Batch D) (tree : Tree D)
    (hempty : batch.isEmpty = false) (h : t.insertBatch hash batch = .ok tree) : tree ≠ t := by
  unfold insertBatch at h
  split at h
  · cases h
  split at h
  · cases h
  · rename_i inserted hinserted
    cases h
    intro heq
    have hlength := insertWithoutHashing_length batch.entries inserted hinserted
    have hsame := congrArg Tree.entries heq
    change inserted.entries = t.entries at hsame
    have hpos : 0 < batch.entries.length := by
      rw [List.length_pos_iff, ← List.isEmpty_eq_false_iff]
      exact hempty
    rw [hsame] at hlength
    omega

theorem checkCollisions_empty (batch : Batch D) (hempty : batch.isEmpty = true) :
    t.checkCollisions batch = .ok () := by
  have hentries : batch.entries = [] := List.isEmpty_iff.mp hempty
  simp [checkCollisions, Batch.findElementWithLsb, hentries]

/-- Inserting new elements into empty slots touches the way to them. -/
theorem Valid.insertWithoutHashing_free (h : t.Valid hash) (elements : List Element)
    (hne : elements ≠ []) (hnull : ∀ e ∈ elements, e ≠ Element.nullHash)
    (hfree : h.sparse.Free elements) :
    ∃ node, t.tree.insertWithoutHashing hash D (sortByBits D elements) 0 = some (node, true) ∧
      node.leafAt = (h.sparse.laid elements).leaf ∧ t.tree.Touched hash node := by
  have hperm := sortByBits_perm D elements
  have hsorted : FreeFrom D 0 t.tree.leafAt (sortByBits D elements) := by
    refine ⟨?_, ?_⟩
    · rw [slotFrom_zero]
      exact hperm.symm.pairwise hfree.distinct fun hne heq => hne heq.symm
    · rw [slotFrom_zero]
      intro e he
      exact hfree.vacant e (hperm.mem_iff.mp he)
  obtain ⟨node, hnode, hleaf, htouched⟩ := SmirkNode.insertWithoutHashing_free hash t.tree
    h.well_hashed 0 (Nat.zero_add _) (sortByBits D elements) (sortByBits_sorted D elements) hsorted
    (fun hnil => hne (List.perm_nil.mp (hnil ▸ hperm.symm)))
    fun e he => hnull e (hperm.mem_iff.mp he)
  have hcrowded : ¬Crowded (bits D) t.tree.leafAt (sortByBits D elements) := fun hc =>
    hfree.not_crowded (hc.perm _ hperm)
  refine ⟨node, hnode, ?_, htouched⟩
  rw [hleaf, slotFrom_zero, overlay_perm _ _ _ _ hperm hcrowded]
  rfl

/-- A batch of new elements for empty slots is laid over the tree. -/
theorem Valid.insertBatch_free (h : t.Valid hash) (batch : Batch D)
    (hnull : ∀ e ∈ batch.entries, e ≠ Element.nullHash)
    (hvacant : ∀ e ∈ batch.entries, h.sparse.leaf (bits D e) = 0) :
    ∃ inserted, t.insertBatch hash batch = .ok inserted ∧
      ∃ hinserted : inserted.Valid hash, hinserted.sparse = h.sparse.laid batch.entries := by
  have hfree : h.sparse.Free batch.entries := ⟨batch.distinct, hvacant⟩
  have hcheck := (h.checkCollisions_ok batch).mpr hvacant
  by_cases hempty : batch.entries = []
  · obtain ⟨hwell, hleaf⟩ := recalculateHashes_spec hash t.tree
      (marked_of_wellHashed hash t.tree h.well_hashed)
    refine ⟨{ t with tree := t.tree.recalculateHashes hash }, ?_, ⟨hwell, ?_, ?_⟩, ?_⟩
    · simp [insertBatch, hcheck, insertWithoutHashing, hempty]
    · rw [hleaf]
      exact h.placed
    · rw [hleaf]
      exact h.entries_iff
    · rw [hempty, SparseTree.laid_nil]
      exact SparseTree.ext_leaf _ _ hleaf
  · obtain ⟨node, hnode, hlaid, htouched⟩ :=
      h.insertWithoutHashing_free batch.entries hempty hnull hfree
    have hmarked := marked_of_touched hash t.tree node h.well_hashed htouched
    obtain ⟨hwell, hsame⟩ := recalculateHashes_spec hash node hmarked
    rw [hlaid] at hsame
    have hfresh : ∀ e ∈ batch.entries, e ∉ t.entries := by
      intro e he hin
      obtain ⟨hne, heq⟩ := (h.entries_iff e).mp hin
      exact hne (heq.symm.trans (hvacant e he))
    refine ⟨⟨node.recalculateHashes hash,
      batch.entries.foldl (fun known e => known.orderedInsert (· ≤ ·) e) t.entries⟩, ?_,
      ⟨hwell, ?_, ?_⟩, SparseTree.ext_leaf _ _ hsame⟩
    · have hnotNull : Element.nullHash ∉ batch.entries := fun hin => hnull _ hin rfl
      have hnotKnown : batch.entries.any t.containsElement = false := by
        rw [List.any_eq_false]
        intro e he
        simpa [containsElement] using hfresh e he
      simp [insertBatch, hcheck, insertWithoutHashing, hempty, hnotNull, hnotKnown, hnode]
    · rw [hsame]
      exact (h.sparse.laid batch.entries).placed
    · intro e
      rw [mem_foldl_orderedInsert, hsame, ← SparseTree.mem_iff,
        SparseTree.mem_laid batch.entries hnull hfree, h.mem_sparse, containsElement,
        decide_eq_true_eq]

theorem Valid.insertBatch_collision (h : t.Valid hash) (batch : Batch D)
    (hoccupied : ¬∀ e ∈ batch.entries, h.sparse.leaf (bits D e) = 0) :
    ∃ collisions, t.insertBatch hash batch = .error (.err collisions) := by
  unfold insertBatch
  cases hcheck : t.checkCollisions batch with
  | error collisions => exact ⟨collisions, rfl⟩
  | ok u => exact absurd ((h.checkCollisions_ok batch).mp hcheck) hoccupied

end Laws
end Tree

/-- The error of a tree kept in a database. -/
inductive StorageError
  | rocksdb
  | collision (source : CollisionError)
  deriving DecidableEq

/-- A tree that is also kept in a database: the elements written so far. -/
structure Persistent (D : ℕ) where
  tree : Tree D
  db : List Element

namespace Persistent

variable {D : ℕ} (hash : List Fr → Fr)

/-- Insert into the tree, then write the new elements at once if the database allows it. -/
def insertBatch (self : Persistent D) (batch : Batch D) (written : Bool) :
    Persistent D × Outcome StorageError Unit :=
  if batch.isEmpty then (self, .ok ())
  else
    match self.tree.insertBatch hash batch with
    | .error e => (self, .error (e.map StorageError.collision))
    | .ok tree =>
        if written then (⟨tree, self.db ++ batch.entries⟩, .ok ())
        else (⟨tree, self.db⟩, .error (.err .rocksdb))

/-- The tree of the elements of a database. -/
def load (D : ℕ) (db : List Element) : Outcome StorageError (Persistent D) := do
  let batch ← (Batch.fromEntries D db).mapError fun e => Failure.err (StorageError.collision e)
  let tree ← ((Tree.new D).insertBatch hash batch).mapError (Failure.map StorageError.collision)
  return ⟨tree, db⟩

/-- The database holds exactly the elements of the tree. -/
structure Stored (p : Persistent D) : Prop where
  valid : p.tree.Valid hash
  free : (SparseTree.empty (bits D)).Free p.db
  not_null : ∀ e ∈ p.db, e ≠ Element.nullHash
  laid : valid.sparse = (SparseTree.empty (bits D)).laid p.db

section Laws

variable {hash} {p : Persistent D}

/-- How an insertion ends: the batch collides and all stays, it is in memory only, or there is no
error. -/
theorem insertBatch_ends (batch : Batch D) (written : Bool) :
    (∃ collisions, p.tree.checkCollisions batch = .error collisions ∧
      p.insertBatch hash batch written = (p, .error (.err (.collision collisions)))) ∨
    p.tree.checkCollisions batch = .ok () ∧
      ((∃ inserted, p.tree.insertBatch hash batch = .ok inserted ∧ batch.isEmpty = false ∧
        written = false ∧
        p.insertBatch hash batch written = (⟨inserted, p.db⟩, .error (.err .rocksdb))) ∨
      (∀ inserted, p.tree.insertBatch hash batch = .ok inserted →
        batch.isEmpty = true ∨ written = true) ∧
        ∀ e, (p.insertBatch hash batch written).2 ≠ .error (.err e)) := by
  unfold insertBatch
  cases hempty : batch.isEmpty with
  | true => exact Or.inr ⟨Tree.checkCollisions_empty batch hempty, Or.inr ⟨by simp, by simp⟩⟩
  | false =>
    rw [if_neg Bool.false_ne_true]
    cases hcheck : p.tree.checkCollisions batch with
    | error collisions =>
      refine Or.inl ⟨collisions, rfl, ?_⟩
      rw [Tree.insertBatch, hcheck]
      rfl
    | ok u =>
      refine Or.inr ⟨rfl, ?_⟩
      rw [Tree.insertBatch, hcheck]
      dsimp only
      cases p.tree.insertWithoutHashing hash batch.entries with
      | none => exact Or.inr ⟨by simp, by simp [Failure.map]⟩
      | some inserted =>
        cases written with
        | false => exact Or.inl ⟨_, rfl, rfl, rfl, rfl⟩
        | true => exact Or.inr ⟨by simp, by simp⟩

/-- Loading a database gives the tree it was written from, up to the cached hashes. -/
theorem load_db (db : List Element) (hfree : (SparseTree.empty (bits D)).Free db)
    (hnull : ∀ e ∈ db, e ≠ Element.nullHash) :
    ∃ p : Persistent D, load hash D db = .ok p ∧ p.db = db ∧ p.Stored hash := by
  obtain ⟨batch, hbatch, hentries⟩ : ∃ batch, Batch.fromEntries D db = .ok batch ∧
      batch.entries = db :=
    ⟨⟨db, hfree.distinct⟩, (Batch.fromEntries_ok _ db).mpr ⟨hfree.distinct, rfl⟩, rfl⟩
  have hnew : (Tree.new D).Valid hash := Tree.new_valid
  have hsparse := Tree.new_sparse hnew
  obtain ⟨tree, htree, hvalid, hlaid⟩ := hnew.insertBatch_free batch
    (by rw [hentries]; exact hnull) (by rw [hentries, hsparse]; exact hfree.vacant)
  refine ⟨⟨tree, db⟩, ?_, rfl, hvalid, hfree, hnull, ?_⟩
  · simp [load, hbatch, htree, Except.mapError, bind, Except.bind, pure, Except.pure]
  · rw [hlaid, hentries, hsparse]

theorem new_stored : (⟨Tree.new D, []⟩ : Persistent D).Stored hash := by
  refine ⟨Tree.new_valid, ⟨List.Pairwise.nil, by simp⟩, by simp, ?_⟩
  rw [Tree.new_sparse, SparseTree.laid_nil]

/-- New elements in the tree and in its database. -/
theorem Stored.append {q : Persistent D} (h : p.Stored hash) (leaves : List Element)
    (hnull : ∀ e ∈ leaves, e ≠ Element.nullHash) (hfree : h.valid.sparse.Free leaves)
    (hq : q.tree.Valid hash) (hlaid : hq.sparse = h.valid.sparse.laid leaves)
    (hdb : q.db = p.db ++ leaves) : q.Stored hash := by
  rw [h.laid] at hfree
  obtain ⟨hboth, hbothLaid⟩ := SparseTree.laid_append _ _ h.not_null hnull h.free hfree
  refine ⟨hq, ?_, ?_, ?_⟩
  · rw [hdb]
    exact hboth
  · rw [hdb]
    exact List.forall_mem_append.mpr ⟨h.not_null, hnull⟩
  · rw [hlaid, hdb, hbothLaid, h.laid]

end Laws
end Persistent
end PayyRollup.SmirkTree
