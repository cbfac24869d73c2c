import PayyRollup.StorageRoundTrip

/-!
The cache of hashes of a tree. The hashes known at the start are sorted by their elements and
searched first; the other results are kept as they are computed, until they are evicted. Provided
hashes are not validated, so a cache answers like the hash function as long as right hashes are
provided. A database provides right hashes whatever was inserted, stored and loaded before: every
record of a hash that is written is right, also when the tree is ahead of the database.
-/
namespace PayyRollup.HashCaches

open ScalarField ElementHash KeyValueStore SmirkValues SmirkStorage

section Search

variable {α : Type} (compareTo : α → Ordering)

def searchIn : ℕ → List α → Option α
  | 0, _ => none
  | fuel + 1, xs =>
      match xs[xs.length / 2]? with
      | none => none
      | some x =>
          match compareTo x with
          | .eq => some x
          | .lt => searchIn fuel (xs.drop (xs.length / 2 + 1))
          | .gt => searchIn fuel (xs.take (xs.length / 2))

/-- Binary search in a sorted list, by the order of its items to what is searched. -/
def binarySearchBy (xs : List α) : Option α := searchIn compareTo xs.length xs

theorem searchIn_some (fuel : ℕ) (xs : List α) (x : α) (h : searchIn compareTo fuel xs = some x) :
    x ∈ xs ∧ compareTo x = .eq := by
  induction fuel generalizing xs with
  | zero => cases h
  | succ fuel ih =>
    unfold searchIn at h
    split at h
    · cases h
    · rename_i y hy
      split at h
      · rename_i heq
        cases h
        exact ⟨List.mem_of_getElem? hy, heq⟩
      · obtain ⟨hx, heq⟩ := ih _ h
        exact ⟨List.mem_of_mem_drop hx, heq⟩
      · obtain ⟨hx, heq⟩ := ih _ h
        exact ⟨List.mem_of_mem_take hx, heq⟩

end Search

/-- Pairs in lexicographic order. -/
def comparePairs (a b : Element × Element) : Ordering :=
  (compare a.1.toNat b.1.toNat).then (compare a.2.toNat b.2.toNat)

theorem comparePairs_eq (a b : Element × Element) (h : comparePairs a b = .eq) : a = b := by
  obtain ⟨hleft, hright⟩ := Ordering.then_eq_eq.mp h
  rw [Nat.compare_eq_eq] at hleft hright
  exact Prod.ext (BitVec.eq_of_toNat_eq hleft) (BitVec.eq_of_toNat_eq hright)

structure SimpleHashCache where
  inner : Store (Element × Element) Element
  initial : List KnownHash
  hashes : ℕ
  cacheHits : ℕ
  cacheMisses : ℕ

namespace SimpleHashCache

def new : SimpleHashCache := ⟨∅, [], 0, 0, 0⟩

def hash (hashFn : List Fr → Fr) (left right : Element) (self : SimpleHashCache) :
    SimpleHashCache × Element :=
  let found := binarySearchBy
    (fun known : KnownHash => comparePairs (known.left, known.right) (left, right)) self.initial
  match found with
  | some known =>
      ({ self with hashes := self.hashes + 1, cacheHits := self.cacheHits + 1 }, known.result)
  | none =>
      match self.inner.lookup (left, right) with
      | some result =>
          ({ self with hashes := self.hashes + 1, cacheHits := self.cacheHits + 1 }, result)
      | none =>
          let result := elementNode hashFn left right
          ({ self with
              inner := self.inner.insert (left, right) result
              hashes := self.hashes + 1
              cacheMisses := self.cacheMisses + 1 }, result)

def sortByPairs (hashes : List KnownHash) : List KnownHash :=
  hashes.mergeSort fun a b => comparePairs (a.left, a.right) (b.left, b.right) != .gt

/-- Provide hashes, without validation; `none` is the panic of a second call. -/
def provideKnownHashes (hashes : List KnownHash) (self : SimpleHashCache) :
    Option SimpleHashCache :=
  if self.initial.isEmpty then some { self with initial := sortByPairs hashes } else none

def evict (left right : Element) (self : SimpleHashCache) : SimpleHashCache :=
  { self with inner := self.inner.erase (left, right) }

def evictAll (self : SimpleHashCache) : SimpleHashCache := { self with inner := ∅ }

end SimpleHashCache

/-- A call of a cache. -/
inductive Operation
  | provideKnownHashes (hashes : List KnownHash)
  | hash (left right : Element)
  | evict (left right : Element)
  | evictAll

/-- A call that panics leaves the cache as it is. -/
def SimpleHashCache.call (hashFn : List Fr → Fr) (self : SimpleHashCache) :
    Operation → SimpleHashCache
  | .provideKnownHashes hashes => (self.provideKnownHashes hashes).getD self
  | .hash left right => (self.hash hashFn left right).1
  | .evict left right => self.evict left right
  | .evictAll => self.evictAll

def SimpleHashCache.run (hashFn : List Fr → Fr) (self : SimpleHashCache)
    (operations : List Operation) : SimpleHashCache :=
  operations.foldl (SimpleHashCache.call hashFn) self

/-- Hashes that are provided are right. -/
def Operation.Right (hashFn : List Fr → Fr) : Operation → Prop
  | .provideKnownHashes hashes => Faithful hashFn hashes
  | _ => True

/-- Every hash in the cache is the hash of its elements. -/
structure Right (hashFn : List Fr → Fr) (c : SimpleHashCache) : Prop where
  initial : Faithful hashFn c.initial
  inner : ∀ left right result, c.inner.lookup (left, right) = some result →
    result = elementNode hashFn left right

section Calls

variable {hashFn : List Fr → Fr} {c : SimpleHashCache}

theorem new_right : Right hashFn SimpleHashCache.new := by
  refine ⟨by simp [Faithful, SimpleHashCache.new], ?_⟩
  intro left right result hlookup
  rw [SimpleHashCache.new, Finmap.lookup_empty] at hlookup
  cases hlookup

/-- A right cache answers with the hash and stays right. -/
theorem Right.hash (h : Right hashFn c) (left right : Element) :
    (c.hash hashFn left right).2 = elementNode hashFn left right ∧
      Right hashFn (c.hash hashFn left right).1 := by
  unfold SimpleHashCache.hash
  dsimp only
  split
  · rename_i known hfound
    obtain ⟨hmem, hkey⟩ := searchIn_some _ _ _ known hfound
    have hpair := comparePairs_eq _ _ hkey
    rw [Prod.mk.injEq] at hpair
    obtain ⟨rfl, rfl⟩ := hpair
    exact ⟨h.initial known hmem, h.initial, h.inner⟩
  · split
    · rename_i result hlookup
      exact ⟨h.inner left right result hlookup, h.initial, h.inner⟩
    · refine ⟨rfl, h.initial, ?_⟩
      intro l r result hlookup
      by_cases hsame : (l, r) = (left, right)
      · rw [hsame, Finmap.lookup_insert, Option.some.injEq] at hlookup
        obtain ⟨rfl, rfl⟩ := Prod.mk.inj hsame
        exact hlookup.symm
      · rw [Finmap.lookup_insert_of_ne _ hsame] at hlookup
        exact h.inner l r result hlookup

theorem Right.provideKnownHashes (h : Right hashFn c) (hashes : List KnownHash)
    (hhashes : Faithful hashFn hashes) :
    Right hashFn ((c.provideKnownHashes hashes).getD c) := by
  unfold SimpleHashCache.provideKnownHashes
  split
  · refine ⟨?_, h.inner⟩
    intro known hknown
    exact hhashes known (List.mem_mergeSort.mp hknown)
  · exact h

theorem Right.evict (h : Right hashFn c) (left right : Element) :
    Right hashFn (c.evict left right) := by
  refine ⟨h.initial, ?_⟩
  intro l r result hlookup
  by_cases hsame : (l, r) = (left, right)
  · rw [SimpleHashCache.evict, hsame, Finmap.lookup_erase] at hlookup
    cases hlookup
  · rw [SimpleHashCache.evict, Finmap.lookup_erase_ne hsame] at hlookup
    exact h.inner l r result hlookup

theorem Right.evictAll (h : Right hashFn c) : Right hashFn c.evictAll := by
  refine ⟨h.initial, ?_⟩
  intro l r result hlookup
  rw [SimpleHashCache.evictAll, Finmap.lookup_empty] at hlookup
  cases hlookup

theorem Right.call (h : Right hashFn c) (operation : Operation)
    (hoperation : operation.Right hashFn) : Right hashFn (c.call hashFn operation) := by
  cases operation with
  | provideKnownHashes hashes => exact h.provideKnownHashes hashes hoperation
  | hash left right => exact (h.hash left right).2
  | evict left right => exact h.evict left right
  | evictAll => exact h.evictAll

theorem Right.run (h : Right hashFn c) (operations : List Operation)
    (hoperations : ∀ operation ∈ operations, operation.Right hashFn) :
    Right hashFn (c.run hashFn operations) := by
  induction operations generalizing c with
  | nil => exact h
  | cons operation rest ih =>
    obtain ⟨hfirst, hrest⟩ := List.forall_mem_cons.mp hoperations
    exact ih (h.call operation hfirst) hrest

/-- Recalculating with a right cache is recalculating with the hashes known at the start. -/
theorem Right.recalculateHashes (h : Right hashFn c) {height : ℕ} (node : SmirkNode.Node height)
    (schedule : Schedule) :
    SmirkValues.Node.recalculateHashes hashFn
        (fun left right => (c.hash hashFn left right).2) node schedule =
      SmirkValues.Node.recalculateHashes hashFn (hashCached hashFn c.initial) node schedule := by
  rw [hashCached_eq hashFn c.initial h.initial]
  congr 1
  funext left right
  exact (h.hash left right).1

end Calls

section Databases

variable {D : ℕ} {V : Type} {hash : List Fr → Fr}

def persistWrite (known : KnownHash) : Write KeyFormat (ValueFormat V) :=
  .put (.v2 (.knownHash known.left known.right)) (.v2 (.knownHash known.result))

/-- Store the hashes of the tree that the database does not have; `none` is a panic. -/
def persistHashes (hash : List Fr → Fr) (self : Persistent D V) (written : Bool) :
    Option (Persistent D V) :=
  (SmirkValues.Node.knownHashes hash self.tree.tree).map fun inMemoryHashes =>
    let hashesToInsert := inMemoryHashes.filter fun known =>
      match self.db.lookup (.v2 (.knownHash known.left known.right)) with
      | some (.v2 (.knownHash result)) => result != known.result
      | _ => true
    if written then ⟨self.tree, write (hashesToInsert.map persistWrite) self.db⟩ else self

/-- A record of an element, or of a right hash. -/
def RecordRight (hash : List Fr → Fr) (record : KeyFormat × ValueFormat V) : Prop :=
  (∃ key value, entry record = .ok (.smirkKV key value)) ∨
    ∃ known, entry record = .ok (.knownHash known) ∧
      known.result = elementNode hash known.left known.right

def RecordsRight (hash : List Fr → Fr) (db : Db V) : Prop :=
  ∀ key value, db.lookup key = some value → RecordRight hash (key, value)

/-- A tree and its database after any insertions, stored hashes and restarts. The first database
has records of elements only; a tree is made empty or loaded, and a write may fail. -/
inductive Written (hash : List Fr → Fr) : Persistent D V → Prop
  | new (db : Db V) (h : ∀ key value, db.lookup key = some value →
      ∃ element metadata, entry (key, value) = .ok (.smirkKV element metadata)) :
      Written hash ⟨ValueTree.new D V, db⟩
  | reopen (p : Persistent D V) (h : Written hash p) : Written hash ⟨ValueTree.new D V, p.db⟩
  | load (p q : Persistent D V) (h : Written hash p) (hload : Persistent.load hash D p.db = .ok q) :
      Written hash q
  | insertBatch (p : Persistent D V) (call : Call D V) (h : Written hash p) :
      Written hash (p.insertBatch hash call.schedule call.batch call.written).1
  | persistHashes (p q : Persistent D V) (written : Bool) (h : Written hash p)
      (hpersist : HashCaches.persistHashes hash p written = some q) : Written hash q

/-- The loader takes every record and provides right hashes. -/
theorem collect_right (records : List (KeyFormat × ValueFormat V))
    (h : ∀ record ∈ records, RecordRight hash record) :
    ∃ known kv, collect records = .ok (known, kv) ∧ Faithful hash known := by
  induction records with
  | nil => exact ⟨[], [], rfl, by simp [Faithful]⟩
  | cons record rest ih =>
    obtain ⟨hrecord, hrest⟩ := List.forall_mem_cons.mp h
    obtain ⟨known, kv, hcollect, hknown⟩ := ih hrest
    rcases hrecord with ⟨key, value, hentry⟩ | ⟨k, hentry, hresult⟩
    · refine ⟨known, (key, value) :: kv, ?_, hknown⟩
      rw [collect, hentry, hcollect]
      rfl
    · refine ⟨k :: known, kv, ?_, List.forall_mem_cons.mpr ⟨hresult, hknown⟩⟩
      rw [collect, hentry, hcollect]
      rfl

theorem RecordsRight.collect {db : Db V} (h : RecordsRight hash db) :
    ∃ known kv, collect (iterator keyCoding db) = .ok (known, kv) ∧ Faithful hash known := by
  apply collect_right
  rintro ⟨key, value⟩ hrecord
  exact h key value ((mem_iterator _ _ _ _).mp hrecord)

theorem RecordsRight.write {db : Db V} (h : RecordsRight hash db)
    (writes : List (Write KeyFormat (ValueFormat V)))
    (hwrites : ∀ w ∈ writes, ∀ value, w.outcome = some value → RecordRight hash (w.key, value)) :
    RecordsRight hash (KeyValueStore.write writes db) := by
  intro key value hlookup
  rcases lookup_write_mem_cases writes db key with ⟨-, hsame⟩ | ⟨w, hw, hkey, houtcome⟩
  · exact h key value (hsame ▸ hlookup)
  · rw [houtcome] at hlookup
    rw [← hkey]
    exact hwrites w hw value hlookup

/-- The records that an insertion writes are right where its reports are. -/
theorem writeBatch_right (newKvPairs : List (Element × V)) (log : List HashChange)
    (hlog : ∀ left right result, (hashChanges log).lookup (left, right) = some (some result) →
      result = elementNode hash left right)
    (w : Write KeyFormat (ValueFormat V)) (hw : w ∈ Persistent.writeBatch newKvPairs log)
    (value : ValueFormat V) (hvalue : w.outcome = some value) :
    RecordRight hash (w.key, value) := by
  rcases (mem_writeBatch newKvPairs log w).mp hw with
    ⟨e, v, -, rfl | rfl⟩ | ⟨l, r, -, rfl⟩ | ⟨l, r, result, hchange, rfl⟩
  · cases hvalue
    exact Or.inl ⟨e, v, rfl⟩
  · cases hvalue
  · cases hvalue
  · cases hvalue
    exact Or.inr ⟨⟨l, r, result⟩, rfl, hlog l r result hchange⟩

theorem knownHashes_faithful {height : ℕ} (node : SmirkNode.Node height)
    (hwell : node.WellHashed hash) :
    ∃ known, SmirkValues.Node.knownHashes hash node = some known ∧ Faithful hash known := by
  induction height with
  | zero =>
    refine ⟨[], ?_, by simp [Faithful]⟩
    cases node <;> rfl
  | succ height ih =>
    cases node with
    | empty _ => exact ⟨[], rfl, by simp [Faithful]⟩
    | parent l r stored hashDirty =>
      obtain ⟨rfl, rfl, hl, hr⟩ := hwell
      obtain ⟨ls, hls, hleft⟩ := ih l hl
      obtain ⟨rs, hrs, hright⟩ := ih r hr
      refine ⟨⟨l.rootHash hash, r.rootHash hash,
        elementNode hash (l.rootHash hash) (r.rootHash hash)⟩ :: ls ++ rs, ?_, ?_⟩
      · simp only [SmirkValues.Node.knownHashes, hls, hrs, Bool.false_eq_true, ↓reduceIte]
        rfl
      · intro known hknown
        rw [List.cons_append, List.mem_cons, List.mem_append] at hknown
        rcases hknown with rfl | hknown | hknown
        · rfl
        · exact hleft known hknown
        · exact hright known hknown

/-- A tree with its entries and a database with right records. -/
structure Sound (hash : List Fr → Fr) (p : Persistent D V) : Prop where
  holds : ∃ entries, p.tree.Holds hash entries
  records : RecordsRight hash p.db

theorem new_holds : (ValueTree.new D V).Holds hash [] :=
  ValueTree.newWithCache_holds [] (by simp [Faithful])

theorem Sound.load {p q : Persistent D V} (h : Sound hash p)
    (hload : Persistent.load hash D p.db = .ok q) : Sound hash q := by
  obtain ⟨known, kv, hcollect, hknown⟩ := h.records.collect
  unfold Persistent.load loadTree at hload
  rw [hcollect] at hload
  dsimp only at hload
  cases hbatch : ValueBatch.fromEntries D kv with
  | error e =>
    rw [hbatch] at hload
    cases hload
  | ok batch =>
    rw [hbatch] at hload
    dsimp only at hload
    cases hinsert : (ValueTree.newWithCache D V known).insertBatch hash (fun _ => []) batch with
    | error e =>
      rw [hinsert] at hload
      cases hload
    | ok r =>
      rw [hinsert] at hload
      cases hload
      have hnew : (ValueTree.newWithCache D V known).Holds hash [] :=
        ValueTree.newWithCache_holds known hknown
      exact ⟨⟨_, hnew.insertBatch _ batch r hinsert⟩, h.records⟩

theorem Sound.insertBatch {p : Persistent D V} (h : Sound hash p) (call : Call D V) :
    Sound hash (p.insertBatch hash call.schedule call.batch call.written).1 := by
  obtain ⟨entries, hholds⟩ := h.holds
  rcases insertBatch_cases p call with hsame | ⟨hne, r, hok, hresult⟩
  · rw [hsame]
    exact h
  · obtain ⟨node, -, -, hr, hinserted⟩ :=
      hholds.insertBatch_touched call.schedule call.batch r hne hok
    have hlog : ∀ left right result,
        (hashChanges r.2).lookup (left, right) = some (some result) →
          result = elementNode hash left right := by
      rw [hr]
      exact (SmirkValues.Node.reports_changes hash node call.schedule).lookup_true _
    rw [hresult]
    cases call.written with
    | false => exact ⟨⟨_, hinserted⟩, h.records⟩
    | true => exact ⟨⟨_, hinserted⟩, h.records.write _ (writeBatch_right _ r.2 hlog)⟩

theorem Sound.persistHashes {p q : Persistent D V} (h : Sound hash p) (written : Bool)
    (hpersist : HashCaches.persistHashes hash p written = some q) : Sound hash q := by
  obtain ⟨entries, hholds⟩ := h.holds
  obtain ⟨known, hknown, hfaithful⟩ :=
    knownHashes_faithful p.tree.tree hholds.valid.well_hashed
  unfold HashCaches.persistHashes at hpersist
  rw [hknown, Option.map_some, Option.some.injEq] at hpersist
  subst hpersist
  cases written with
  | false => exact h
  | true =>
    refine ⟨h.holds, h.records.write _ ?_⟩
    intro w hw value hvalue
    obtain ⟨k, hk, rfl⟩ := List.mem_map.mp hw
    cases hvalue
    exact Or.inr ⟨k, rfl, hfaithful k (List.mem_of_mem_filter hk)⟩

theorem Written.sound {p : Persistent D V} (h : Written hash p) : Sound hash p := by
  induction h with
  | new db hdb => exact ⟨⟨[], new_holds⟩, fun key value hlookup => Or.inl (hdb key value hlookup)⟩
  | reopen p _ ih => exact ⟨⟨[], new_holds⟩, ih.records⟩
  | load p q _ hload ih => exact ih.load hload
  | insertBatch p call _ ih => exact ih.insertBatch call
  | persistHashes p q written _ hpersist ih => exact ih.persistHashes written hpersist

/-- A cache answers with the hash after any calls that provide right hashes, and a database that
was written by insertions provides right hashes when it is loaded. -/
theorem cache_transparent (hash : List Fr → Fr) :
    (∀ operations : List Operation, (∀ operation ∈ operations, operation.Right hash) →
      ∀ left right, ((SimpleHashCache.new.run hash operations).hash hash left right).2 =
        hashMerge hash [left, right]) ∧
    ∀ (D : ℕ) (V : Type) (p : Persistent D V), Written hash p →
      ∃ known kv, collect (iterator keyCoding p.db) = .ok (known, kv) ∧
        (Operation.provideKnownHashes known).Right hash := by
  constructor
  · intro operations hoperations left right
    exact ((new_right.run operations hoperations).hash left right).1
  · intro D V p hp
    exact hp.sound.records.collect

end Databases
end PayyRollup.HashCaches
