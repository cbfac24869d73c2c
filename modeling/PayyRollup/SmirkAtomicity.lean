import PayyRollup.SmirkStorage

/-!
What an insertion leaves behind when it fails. A batch is checked against the tree before
anything changes, and the insertion after the check is unwrapped; the check says nothing
about the null hash, which only the insertion refuses. The tree in the database is written
after the tree in memory, so a refused write leaves the two apart. The root that elements
would lead to is computed beside the tree, and is the root that inserting them gives.
-/
namespace PayyRollup.SmirkAtomicity

open ScalarField SparseMerkle ElementHash SmirkNode SmirkTree KeyValueStore SmirkValues
open SmirkStorage (Persistent)

variable {D : ℕ} {V : Type}

section Hashing

variable (hash : List Fr → Fr) (cached : Element → Element → Element) (D : ℕ)

/-- The hash with extra elements, where known hashes are taken from a cache. -/
def hashWithInner : {height : ℕ} → Node height → List Element → ℕ → Option Element
  | 0, .leaf element, _, _ => some element
  | 0, .empty _, extra, _ =>
      if extra.length ≤ 1 then some (extra.headD (emptyTreeHash hash 1)) else none
  | _ + 1, node, extra, pathDepth =>
      let ls := lefts D pathDepth extra
      let rs := rights D pathDepth extra
      let leftHash := if ls.isEmpty then some ((node.side false).rootHash hash)
        else hashWithInner (node.side false) ls (pathDepth + 1)
      let rightHash := if rs.isEmpty then some ((node.side true).rootHash hash)
        else hashWithInner (node.side true) rs (pathDepth + 1)
      leftHash.bind fun l => rightHash.map fun r => cached l r

theorem hashWithInner_eq {height : ℕ} (node : Node height) (extra : List Element)
    (pathDepth : ℕ) : hashWithInner hash (elementNode hash) D node extra pathDepth =
      node.hashWithInner hash D extra pathDepth := by
  induction height generalizing extra pathDepth with
  | zero => cases node <;> rfl
  | succ height ih => simp only [hashWithInner, Node.hashWithInner, ih]

end Hashing

section Operations

variable (hash : List Fr → Fr)

/-- The root if these elements were inserted, with the tree that was asked; `none` stands for
a panic: for an element without enough bits, or for two elements in one empty leaf. -/
def rootHashWith (self : ValueTree D V) (extraElements : List Element) :
    ValueTree D V × Option Element :=
  if 257 < D ∧ extraElements ≠ [] then (self, none)
  else (self, hashWithInner hash (hashCached hash self.cache) D self.tree
    (sortByBits D extraElements) 0)

/-- Insert a batch, with the tree that is left behind. -/
def insertBatch (self : ValueTree D V) (schedule : Schedule) (batch : ValueBatch D V) :
    ValueTree D V × Outcome CollisionError Unit :=
  match self.checkCollisions batch with
  | .error collisions => (self, .error (.err collisions))
  | .ok () =>
      match self.insertWithoutHashing hash batch.entries with
      | none => (self, .error .panic)
      | some inserted =>
          let tree := SmirkValues.Node.recalculateHashes hash (hashCached hash self.cache)
            inserted.tree schedule
          ({ inserted with tree := tree.1 }, .ok ())

/-- The trees that the public functions build. -/
inductive Built : ValueTree D V → Prop
  | new (cache : List KnownHash) (h : Faithful hash cache) :
      Built (ValueTree.newWithCache D V cache)
  | inserted (t t' : ValueTree D V) (schedule : Schedule) (batch : ValueBatch D V)
      (h : Built t) (hok : insertBatch hash t schedule batch = (t', .ok ())) : Built t'

/-- An element of a batch has the slot of an element of the tree. -/
def Collides (t : ValueTree D V) (batch : ValueBatch D V) : Prop :=
  ∃ e ∈ batch.elements, ∃ x ∈ t.elements, bits D x = bits D e

/-- An insertion inserts the whole batch, or returns an error and changes nothing. -/
def Atomic (t : ValueTree D V) (schedule : Schedule) (batch : ValueBatch D V) : Prop :=
  match insertBatch hash t schedule batch with
  | (t', .ok ()) => ∀ e v, t'.entries.lookup e = some v ↔
      (e, v) ∈ batch.entries ∨ t.entries.lookup e = some v
  | (t', .error (.err _)) => t' = t
  | (_, .error .panic) => False

end Operations

section Laws

variable {hash : List Fr → Fr} {t : ValueTree D V}

theorem insertBatch_eq (hash : List Fr → Fr) (t : ValueTree D V) (schedule : Schedule)
    (batch : ValueBatch D V) :
    t.insertBatch hash schedule batch = (insertBatch hash t schedule batch).2.map
      fun _ => ((insertBatch hash t schedule batch).1,
        match t.insertWithoutHashing hash batch.entries with
        | none => []
        | some inserted => (SmirkValues.Node.recalculateHashes hash (hashCached hash t.cache)
            inserted.tree schedule).2) := by
  unfold insertBatch ValueTree.insertBatch
  cases t.checkCollisions batch with
  | error collisions => rfl
  | ok _ => cases t.insertWithoutHashing hash batch.entries <;> rfl

/-- Every tree holds the entries that were inserted. -/
theorem Built.holds (h : Built hash t) : ∃ entries, t.Holds hash entries := by
  induction h with
  | new cache hcache => exact ⟨[], ValueTree.newWithCache_holds cache hcache⟩
  | inserted t t' schedule batch _ hok ih =>
    obtain ⟨entries, hholds⟩ := ih
    have heq := insertBatch_eq hash t schedule batch
    rw [hok] at heq
    exact ⟨_, hholds.insertBatch schedule batch _ heq⟩

/-- A batch finds its slots empty unless it collides. -/
theorem vacant_iff (h : t.keyed.Valid hash) (batch : ValueBatch D V) :
    (∀ e ∈ batch.elements, h.sparse.leaf (bits D e) = 0) ↔ ¬Collides t batch := by
  constructor
  · rintro hvacant ⟨e, he, x, hx, hbits⟩
    obtain ⟨hne, hleaf⟩ := (h.entries_iff x).mp hx
    have hzero := hvacant e he
    rw [← hbits] at hzero
    exact hne (hleaf.symm.trans hzero)
  · intro hfree e he
    by_contra hoccupied
    have hplaced := h.placed _ hoccupied
    refine hfree ⟨e, he, h.sparse.leaf (bits D e), ?_, hplaced⟩
    refine (h.entries_iff _).mpr ⟨hoccupied, ?_⟩
    exact congrArg t.tree.leafAt hplaced

/-- The three ends of an insertion: a collision, a null hash, or the whole batch. -/
theorem insertBatch_cases (h : Built hash t) (schedule : Schedule) (batch : ValueBatch D V) :
    (Collides t batch ∧
      ∃ collisions, insertBatch hash t schedule batch = (t, .error (.err collisions))) ∨
    (¬Collides t batch ∧ Element.nullHash ∈ batch.elements ∧
      insertBatch hash t schedule batch = (t, .error .panic)) ∨
    (¬Collides t batch ∧ Element.nullHash ∉ batch.elements ∧
      ∃ t', insertBatch hash t schedule batch = (t', .ok ())) := by
  obtain ⟨entries, hholds⟩ := h.holds
  have hcheck := (hholds.valid.checkCollisions_ok batch.keys).trans
    (vacant_iff hholds.valid batch)
  change t.checkCollisions batch = .ok () ↔ _ at hcheck
  by_cases hcollides : Collides t batch
  · left
    refine ⟨hcollides, ?_⟩
    unfold insertBatch
    cases hresult : t.checkCollisions batch with
    | error collisions => exact ⟨collisions, rfl⟩
    | ok _ => exact absurd hcollides (hcheck.mp hresult)
  right
  have hok := hcheck.mpr hcollides
  by_cases hnull : Element.nullHash ∈ batch.elements
  · left
    refine ⟨hcollides, hnull, ?_⟩
    obtain ⟨entry, hentry, hkey⟩ := List.mem_map.mp hnull
    have hnonempty : batch.entries.isEmpty = false := by
      rw [List.isEmpty_eq_false_iff]
      exact List.ne_nil_of_mem hentry
    have hany : (batch.entries.any fun e => e.1 = Element.nullHash) = true :=
      List.any_eq_true.mpr ⟨entry, hentry, decide_eq_true hkey⟩
    simp only [insertBatch, hok, ValueTree.insertWithoutHashing, hnonempty, hany,
      Bool.false_eq_true, ↓reduceIte]
  · right
    refine ⟨hcollides, hnull, ?_⟩
    have hvacant := (vacant_iff hholds.valid batch).mpr hcollides
    obtain ⟨node, -, hinserted, -⟩ := hholds.append schedule batch
      (fun e he heq => hnull (heq ▸ he)) hvacant
    rw [insertBatch_eq] at hinserted
    cases hresult : insertBatch hash t schedule batch with
    | mk t' outcome =>
      rw [hresult] at hinserted
      cases outcome with
      | error e => cases hinserted
      | ok _ => exact ⟨t', rfl⟩

/-- A batch that is inserted is added to the entries. -/
theorem Built.lookup_inserted (h : Built hash t) (schedule : Schedule) (batch : ValueBatch D V)
    (t' : ValueTree D V) (hok : insertBatch hash t schedule batch = (t', .ok ())) (e : Element)
    (v : V) : t'.entries.lookup e = some v ↔
      (e, v) ∈ batch.entries ∨ t.entries.lookup e = some v := by
  obtain ⟨entries, hholds⟩ := h.holds
  have heq := insertBatch_eq hash t schedule batch
  rw [hok] at heq
  have hinserted := hholds.insertBatch schedule batch _ heq
  rw [show t'.entries.lookup e = some v ↔ _ from hinserted.values e v, hholds.values,
    List.mem_append, or_comm]

end Laws

section Roots

variable (hash : List Fr → Fr) (t : ValueTree D V)

/-- The root of a tree with more elements is the root of the tree after their insertion. -/
theorem rootHashWith_eq_insertBatch (h : Built hash t) (schedule : Schedule)
    (batch : ValueBatch D V) (hnull : Element.nullHash ∉ batch.elements)
    (hfree : ¬Collides t batch) (extraElements : List Element)
    (hperm : extraElements.Perm batch.elements) :
    ∃ t', insertBatch hash t schedule batch = (t', .ok ()) ∧
      rootHashWith hash t extraElements = (t, some (t'.rootHash hash)) := by
  obtain ⟨entries, hholds⟩ := h.holds
  have hvacant := (vacant_iff hholds.valid batch).mpr hfree
  have hne : ∀ e ∈ batch.elements, e ≠ Element.nullHash := fun e he heq => hnull (heq ▸ he)
  obtain ⟨node, -, hinserted, hvalid, hlaid⟩ := ValueTree.insertBatch_free hholds.valid
    hholds.faithful schedule batch hne hvacant
  have hfits : ¬(257 < D ∧ extraElements ≠ []) := by
    rintro ⟨hdepth, hsome⟩
    rcases batch.fits with hempty | hD
    · apply hsome
      rw [← List.perm_nil]
      have hnil : batch.elements = [] := List.map_eq_nil_iff.mpr hempty
      rwa [hnil] at hperm
    · omega
  have hall : (SparseTree.Free hholds.valid.sparse extraElements) := by
    refine ⟨hperm.symm.pairwise batch.keys.distinct fun hne heq => hne heq.symm, ?_⟩
    intro e he
    exact hvacant e (hperm.mem_iff.mp he)
  have hroot := (hholds.valid.rootHashWith_eq_some extraElements _).mpr
    ⟨hall.not_crowded, rfl⟩
  have hsame : (hholds.valid.sparse.laid extraElements) =
      hholds.valid.sparse.laid batch.elements :=
    SparseTree.ext_leaf _ _ (overlay_perm (bits D) _ _ _ hperm hall.not_crowded)
  rw [insertBatch_eq] at hinserted
  cases hresult : insertBatch hash t schedule batch with
  | mk t' outcome =>
    rw [hresult] at hinserted
    cases outcome with
    | error e => cases hinserted
    | ok _ =>
      refine ⟨t', rfl, ?_⟩
      rw [rootHashWith, if_neg hfits, hashCached_eq hash t.cache hholds.faithful,
        hashWithInner_eq]
      have htree : t' = ⟨node.recalculateHashes hash, putAll batch.entries t.entries, t.cache⟩ :=
        (Prod.mk.inj (Except.ok.inj hinserted)).1
      subst htree
      refine congrArg (Prod.mk t) (hroot.trans ?_)
      rw [hsame, ← hlaid]
      exact congrArg some hvalid.rootHash_eq.symm

/-- One element for the left half of a tree with four slots, and two for the right half. -/
def leftBatch : ValueBatch 3 Unit :=
  ⟨[(1, ())], List.pairwise_singleton _ _, Or.inr (by omega)⟩

def rightBatch : ValueBatch 3 Unit :=
  ⟨[(2, ()), (3, ())], by decide, Or.inr (by omega)⟩

theorem built_new : Built (fun _ => 0) (ValueTree.newWithCache 3 Unit []) :=
  Built.new [] (by simp [Faithful])

theorem new_not_collides (batch : ValueBatch D V) (cache : List KnownHash) :
    ¬Collides (ValueTree.newWithCache D V cache) batch := by
  rintro ⟨e, -, x, hx, -⟩
  rw [ValueTree.mem_elements] at hx
  exact Finmap.notMem_empty hx

theorem leftBatch_not_null : Element.nullHash ∉ leftBatch.elements := by
  have helements : leftBatch.elements = [1] := rfl
  rw [helements]
  simp [Element.nullHash, Element.zero]

theorem rootHashWith_eq_insertBatch_right :
    ∃ t t' : ValueTree 3 Unit, t.entries.lookup 1 = some () ∧
      insertBatch (fun _ => 0) t (fun _ => []) rightBatch = (t', .ok ()) ∧
      rootHashWith (fun _ => 0) t [3, 2] = (t, some (t'.rootHash fun _ => 0)) := by
  rcases insertBatch_cases built_new (fun _ => []) leftBatch with
    ⟨hcollides, -⟩ | ⟨-, hnull, -⟩ | ⟨-, -, t, ht⟩
  · exact absurd hcollides (new_not_collides leftBatch [])
  · exact absurd hnull leftBatch_not_null
  · have hlookup := built_new.lookup_inserted _ _ _ ht
    have hone : ∀ x ∈ t.elements, x = 1 := by
      intro x hx
      rw [ValueTree.mem_elements, Finmap.mem_iff] at hx
      obtain ⟨v, hv⟩ := hx
      rcases (hlookup x v).mp hv with hin | hold
      · exact congrArg Prod.fst (List.mem_singleton.mp hin)
      · cases hold
    have helements : rightBatch.elements = [2, 3] := rfl
    have hfree : ¬Collides t rightBatch := by
      rintro ⟨e, he, x, hx, hbits⟩
      rw [hone x hx] at hbits
      rw [helements, List.mem_cons, List.mem_singleton] at he
      rcases he with rfl | rfl
      · exact absurd hbits (by decide)
      · exact absurd hbits (by decide)
    obtain ⟨t', hok, hroot⟩ := rootHashWith_eq_insertBatch (fun _ => 0) t
      (Built.inserted _ _ _ _ built_new ht) (fun _ => []) rightBatch
      (by rw [helements]; simp [Element.nullHash, Element.zero]) hfree [3, 2]
      (by rw [helements]; exact List.Perm.swap _ _ _)
    exact ⟨t, t', (hlookup 1 ()).mpr (Or.inl (List.mem_singleton_self _)), hok, hroot⟩

end Roots

section Atomicity

variable (hash : List Fr → Fr)

/-- An insertion is atomic unless the batch has a null hash that no collision hides. -/
theorem atomic_iff (t : ValueTree D V) (h : Built hash t) (schedule : Schedule)
    (batch : ValueBatch D V) : Atomic hash t schedule batch ↔
      (Element.nullHash ∈ batch.elements → Collides t batch) := by
  unfold Atomic
  rcases insertBatch_cases h schedule batch with
    ⟨hcollides, collisions, herr⟩ | ⟨hfree, hnull, hpanic⟩ | ⟨hfree, hnull, t', hok⟩
  · rw [herr]
    exact iff_of_true rfl fun _ => hcollides
  · rw [hpanic]
    exact iff_of_false id fun hhides => hfree (hhides hnull)
  · rw [hok]
    exact iff_of_true (h.lookup_inserted schedule batch t' hok) fun hin => absurd hin hnull

theorem atomic_leftBatch :
    Atomic (fun _ => 0) (ValueTree.newWithCache 3 Unit []) (fun _ => []) leftBatch :=
  (atomic_iff (fun _ => 0) _ built_new (fun _ => []) leftBatch).mpr fun hnull =>
    absurd hnull leftBatch_not_null

def nullBatch : ValueBatch 3 Unit :=
  ⟨[(Element.nullHash, ())], List.pairwise_singleton _ _, Or.inr (by omega)⟩

/-- A batch takes the null hash, and the empty tree panics on it. -/
theorem not_atomic_nullBatch :
    ValueBatch.fromEntries 3 [(Element.nullHash, ())] = .ok nullBatch ∧
      ¬Atomic (fun _ => 0) (ValueTree.newWithCache 3 Unit []) (fun _ => []) nullBatch := by
  refine ⟨rfl, ?_⟩
  unfold Atomic
  rcases insertBatch_cases built_new (fun _ => []) nullBatch with
    ⟨hcollides, -⟩ | ⟨-, -, hpanic⟩ | ⟨-, hnull, -⟩
  · exact absurd hcollides (new_not_collides nullBatch [])
  · rw [hpanic]
    exact id
  · exact absurd (List.mem_singleton_self _) hnull

/-- The database and the tree describe one set of elements. -/
def Agrees (p : Persistent D V) : Prop :=
  ∃ q, Persistent.load hash D p.db = .ok q ∧ q.tree.entries = p.tree.entries ∧
    q.tree.rootHash hash = p.tree.rootHash hash

/-- The same elements in memory, and the same ones after a reload. -/
structure Unchanged (p q : Persistent D V) : Prop where
  entries_eq : q.tree.entries = p.tree.entries
  root_eq : q.tree.rootHash hash = p.tree.rootHash hash
  load_eq : Persistent.load hash D q.db = Persistent.load hash D p.db

variable {hash} in
theorem Unchanged.agrees {p q : Persistent D V} (h : Unchanged hash p q) (hp : Agrees hash p) :
    Agrees hash q := by
  obtain ⟨loaded, hload, hentries, hroot⟩ := hp
  exact ⟨loaded, h.load_eq.trans hload, hentries.trans h.entries_eq.symm,
    hroot.trans h.root_eq.symm⟩

/-- An insertion that returns an error leaves the tree and the database as they were. -/
def FailsCleanly (p : Persistent D V) (schedule : Schedule) (batch : ValueBatch D V)
    (written : Bool) : Prop :=
  ∀ e, (p.insertBatch hash schedule batch written).2 = .error (.err e) →
    Unchanged hash p (p.insertBatch hash schedule batch written).1 ∧
      (Agrees hash p → Agrees hash (p.insertBatch hash schedule batch written).1)

/-- An insertion fails cleanly unless it has inserted a batch that the database refuses. -/
theorem failsCleanly_iff (p : Persistent D V) (h : Built hash p.tree) (schedule : Schedule)
    (batch : ValueBatch D V) (written : Bool) : FailsCleanly hash p schedule batch written ↔
      written = true ∨ batch.entries = [] ∨ Element.nullHash ∈ batch.elements ∨
        Collides p.tree batch := by
  have hsame : Unchanged hash p p := ⟨rfl, rfl, rfl⟩
  have htree := insertBatch_eq hash p.tree schedule batch
  unfold FailsCleanly SmirkStorage.Persistent.insertBatch
  by_cases hempty : batch.entries = []
  · rw [if_pos (List.isEmpty_iff.mpr hempty)]
    exact iff_of_true (fun e he => nomatch he) (Or.inr (Or.inl hempty))
  rw [if_neg (fun hnil => hempty (List.isEmpty_iff.mp hnil))]
  rcases insertBatch_cases h schedule batch with
    ⟨hcollides, collisions, herr⟩ | ⟨hfree, hnull, hpanic⟩ | ⟨hfree, hnull, t', hok⟩
  · rw [herr] at htree
    rw [htree]
    exact iff_of_true (fun _ _ => ⟨hsame, id⟩) (Or.inr (Or.inr (Or.inr hcollides)))
  · rw [hpanic] at htree
    rw [htree]
    exact iff_of_true (fun _ _ => ⟨hsame, id⟩) (Or.inr (Or.inr (Or.inl hnull)))
  · rw [hok] at htree
    rw [htree]
    cases written with
    | true => exact iff_of_true (fun e he => nomatch he) (Or.inl rfl)
    | false =>
      refine iff_of_false ?_ (by simp [hempty, hnull, hfree])
      intro hclean
      obtain ⟨hunchanged, -⟩ := hclean SmirkStorage.Error.rocksdb rfl
      obtain ⟨⟨e, v⟩, hentry⟩ := List.exists_mem_of_ne_nil _ hempty
      have hin := (h.lookup_inserted schedule batch t' hok e v).mpr (Or.inl hentry)
      have hentries : t'.entries = p.tree.entries := hunchanged.entries_eq
      rw [hentries] at hin
      have hold : e ∈ p.tree.elements := by
        rw [ValueTree.mem_elements, Finmap.mem_iff]
        exact ⟨v, hin⟩
      exact hfree ⟨e, List.mem_map_of_mem hentry, e, hold, rfl⟩

theorem failsCleanly_leftBatch :
    FailsCleanly (fun _ => 0) (Persistent.new 3 Unit) (fun _ => []) leftBatch true :=
  (failsCleanly_iff (fun _ => 0) (Persistent.new 3 Unit) built_new (fun _ => []) leftBatch
    true).mpr (Or.inl rfl)

/-- A refused write leaves the element in memory, and a reload does not find it. -/
theorem not_failsCleanly_refused :
    ¬FailsCleanly (fun _ => 0) (Persistent.new 3 Unit) (fun _ => []) leftBatch false := by
  intro hclean
  rcases insertBatch_cases built_new (fun _ => []) leftBatch with
    ⟨hcollides, -⟩ | ⟨-, hnull, -⟩ | ⟨-, -, t, ht⟩
  · exact new_not_collides leftBatch [] hcollides
  · exact leftBatch_not_null hnull
  · have htree := insertBatch_eq (fun _ => 0) (ValueTree.newWithCache 3 Unit []) (fun _ => [])
      leftBatch
    rw [ht] at htree
    have hresult : (Persistent.new 3 Unit).insertBatch (fun _ => 0) (fun _ => []) leftBatch false =
        (⟨t, ∅⟩, .error (.err .rocksdb)) := by
      rw [SmirkStorage.Persistent.insertBatch, if_neg (by decide)]
      rw [show (Persistent.new 3 Unit).tree = ValueTree.newWithCache 3 Unit [] from rfl, htree]
      rfl
    have hunchanged := (hclean .rocksdb (by rw [hresult])).1.entries_eq
    rw [hresult] at hunchanged
    have hin := (built_new.lookup_inserted _ _ _ ht 1 ()).mpr (Or.inl (List.mem_singleton_self _))
    rw [show t.entries = ∅ from hunchanged] at hin
    cases hin

end Atomicity
end PayyRollup.SmirkAtomicity
