import PayyRollup.BlockStoreIndexes

/-!
The migration of a store of the first version. Its blocks are listed in the order of their
heights, since the order of the serialized keys is that of the heights. However often the
migration is interrupted, and whatever further blocks are set in between, the stored records
of transactions and of blocks with transactions are of stored blocks; the last scan then
writes those that a store of the second version gets from calls in the order of the heights.
-/
namespace PayyRollup.BlockStoreDb

open NodeBlocks SmirkTree KeyValueStore

section Order

theorem append_lt_append (xs ys us vs : List ℕ) (hlen : xs.length = ys.length) (h : xs < ys) :
    xs ++ us < ys ++ vs := by
  induction xs generalizing ys with
  | nil =>
    obtain rfl := List.length_eq_zero_iff.mp hlen.symm
    exact absurd h (lt_irrefl _)
  | cons x xs ih =>
    cases ys with
    | nil => simp at hlen
    | cons y ys =>
      rw [List.cons_lt_cons_iff] at h
      rw [List.cons_append, List.cons_append, List.cons_lt_cons_iff]
      exact h.imp_right fun h => ⟨h.1, ih ys (by simpa using hlen) h.2⟩

/-- Big-endian bytes are ordered as the numbers are. -/
theorem beBytes_lt (count a b : ℕ) (hb : b < 256 ^ count) (h : a < b) :
    (beBytes count a).map UInt8.toNat < (beBytes count b).map UInt8.toNat := by
  induction count generalizing a b with
  | zero =>
    rw [pow_zero] at hb
    omega
  | succ count ih =>
    have hdiv : b / 256 < 256 ^ count := by
      rw [Nat.pow_succ] at hb
      exact Nat.div_lt_of_lt_mul (by omega)
    have hlast : ∀ x, (UInt8.ofNat x).toNat = x % 256 := fun x => UInt8.toNat_ofNat'
    rw [beBytes_succ, beBytes_succ, List.map_append, List.map_append]
    by_cases hfront : a / 256 = b / 256
    · rw [hfront]
      apply List.append_left_lt
      rw [List.map_singleton, List.map_singleton, List.cons_lt_cons_iff, hlast, hlast]
      omega
    · apply append_lt_append _ _ _ _ (by simp)
      exact ih _ _ hdiv (by omega)

theorem beBytes_lt_iff (count a b : ℕ) (ha : a < 256 ^ count) (hb : b < 256 ^ count) :
    (beBytes count a).map UInt8.toNat < (beBytes count b).map UInt8.toNat ↔ a < b := by
  have hmono : StrictMonoOn (fun x => (beBytes count x).map UInt8.toNat) {x | x < 256 ^ count} :=
    fun c _ d hd hcd => beBytes_lt count c d hd hcd
  exact hmono.lt_iff_lt ha hb

/-- A height in eight bytes. -/
theorem height_beBytes_lt (a b : Height) :
    (beBytes 8 a).map UInt8.toNat < (beBytes 8 b).map UInt8.toNat ↔ a < b :=
  beBytes_lt_iff 8 a b (a.isLt.trans_eq (by norm_num)) (b.isLt.trans_eq (by norm_num))

theorem code_block_lt (a b : Height) :
    keyCoding.code (.block a) < keyCoding.code (.block b) ↔ a < b := by
  change 0 :: (beBytes 8 a).map UInt8.toNat < 0 :: (beBytes 8 b).map UInt8.toNat ↔ _
  rw [List.cons_lt_cons_iff, height_beBytes_lt, eq_self, true_and]
  exact or_iff_right (lt_irrefl 0)

/-- The range of all blocks has no other keys. -/
theorem in_range_iff (k : Key) :
    (Key.block 0).serialize.map UInt8.toNat ≤ keyCoding.code k ∧ keyCoding.code k <
        (Key.block (Fin.last _)).serializeImmediateSuccessor.map UInt8.toNat ↔
      ∃ h, k = .block h := by
  constructor
  · rintro ⟨-, hupper⟩
    have hkind : k.kind.toNat < 0 ∨ k.kind.toNat = 0 ∧ _ := List.cons_lt_cons_iff.mp hupper
    cases k <;> first
      | exact ⟨_, rfl⟩
      | exact absurd hkind (by simp [Key.kind])
  · rintro ⟨h, rfl⟩
    have hlast : keyCoding.code (.block (Fin.last _)) <
        (Key.block (Fin.last _)).serializeImmediateSuccessor.map UInt8.toNat := by
      change _ < (_ ++ [0]).map UInt8.toNat
      rw [List.map_append]
      have happend : keyCoding.code (.block (Fin.last _)) ++ [] <
          keyCoding.code (.block (Fin.last _)) ++ [0].map UInt8.toNat :=
        List.append_left_lt (List.nil_lt_cons _ _)
      rwa [List.append_nil] at happend
    refine ⟨?_, ?_⟩
    · rcases (Fin.zero_le h).lt_or_eq with hpos | rfl
      · exact ((code_block_lt 0 h).mpr hpos).le
      · exact le_refl _
    · rcases (Fin.le_last h).lt_or_eq with hlt | rfl
      · exact ((code_block_lt h _).mpr hlt).trans hlast
      · exact hlast

end Order

def heightCoding : Coding Height Height := ⟨id, Function.injective_id⟩

section Scan

variable {B T : Type} (api : BlockApi B T)

/-- The blocks of a map, from the lowest to the highest. -/
def inOrder (blocks : Store Height B) : List B := (iterator heightCoding blocks).map Prod.snd

/-- The blocks of a store of the first version. -/
structure Stored (blocks : Store Height B) (db : Db B T) : Prop where
  placed : ∀ h b, blocks.lookup h = some b → api.blockHeight b = h
  block : ∀ h, db.lookup (.block h) = (blocks.lookup h).map .block
  version : db.lookup .storeVersion = none

variable {api} {blocks : Store Height B} {db : Db B T} (h : Stored api blocks db)

include h

theorem Stored.mem_inOrder (b : B) :
    b ∈ inOrder blocks ↔ blocks.lookup (api.blockHeight b) = some b := by
  rw [inOrder, List.mem_map]
  constructor
  · rintro ⟨⟨k, c⟩, hc, rfl⟩
    rw [mem_iterator] at hc
    rw [h.placed k c hc]
    exact hc
  · intro hb
    exact ⟨_, (mem_iterator _ _ _ _).mpr hb, rfl⟩

theorem Stored.mem_of_lookup (k : Height) (b : B) (hb : blocks.lookup k = some b) :
    b ∈ inOrder blocks := by
  rw [h.mem_inOrder, h.placed k b hb]
  exact hb

theorem Stored.inOrder_sorted :
    (inOrder blocks).Pairwise fun b c => api.blockHeight b < api.blockHeight c := by
  rw [inOrder, List.pairwise_map]
  apply (iterator_sorted heightCoding blocks).imp_of_mem
  rintro ⟨k, b⟩ ⟨k', b'⟩ hb hb' hlt
  rw [mem_iterator] at hb hb'
  rw [h.placed k b hb, h.placed k' b' hb']
  exact hlt

/-- The scan lists the blocks from the lowest to the highest. -/
theorem Stored.listAll :
    listAll db = (iterator heightCoding blocks).map fun record => .ok record := by
  have hrecords : listRecords db (.block 0) (.block (Fin.last _)) =
      (iterator heightCoding blocks).map fun record => (.block record.1, .block record.2) := by
    apply eq_of_sorted keyCoding
    · exact (iterator_sorted keyCoding db).filter _
    · rw [List.pairwise_map]
      apply (iterator_sorted heightCoding blocks).imp
      intro a b hab
      exact (code_block_lt a.1 b.1).mpr hab
    · rintro ⟨k, v⟩
      rw [listRecords, List.mem_filter, mem_iterator, Bool.and_eq_true, decide_eq_true_eq,
        decide_eq_true_eq, in_range_iff, List.mem_map]
      constructor
      · rintro ⟨hv, k', rfl⟩
        rw [h.block, Option.map_eq_some_iff] at hv
        obtain ⟨b, hb, rfl⟩ := hv
        exact ⟨(k', b), (mem_iterator _ _ _ _).mpr hb, rfl⟩
      · rintro ⟨⟨k', b⟩, hb, heq⟩
        obtain ⟨rfl, rfl⟩ := Prod.mk.inj heq
        rw [mem_iterator] at hb
        exact ⟨by rw [h.block, hb]; rfl, k', rfl⟩
  rw [BlockStoreDb.listAll, hrecords, List.map_map]
  rfl

omit h in
theorem migrationWrites_ok (records : List (Height × B)) :
    migrationWrites api (records.map fun record => .ok record) =
      (records.map fun record => migrationBatch api record.2, .ok ()) := by
  induction records with
  | nil => rfl
  | cons record rest ih =>
    change (migrationBatch api record.2 :: (migrationWrites api _).1, (migrationWrites api _).2) = _
    rw [ih]
    rfl

theorem Stored.writes : migrationWrites api (BlockStoreDb.listAll db) =
    ((inOrder blocks).map (migrationBatch api), .ok ()) := by
  rw [h.listAll, migrationWrites_ok, inOrder, List.map_map]
  rfl

omit h in
theorem applyAll_eq (batches : List (List (Write Key (Value B T)))) (db : Db B T) :
    applyAll batches db = write batches.flatten db := by
  induction batches generalizing db with
  | nil => rfl
  | cons batch rest ih =>
    rw [List.flatten_cons, write_append]
    exact ih (write batch db)

theorem Stored.storeVersion : storeVersion db = .ok 0 := by
  rw [BlockStoreDb.storeVersion, read, h.version]
  rfl

theorem Stored.migrate : migrate api db =
    (setStoreVersion (write ((inOrder blocks).flatMap (migrationBatch api)) db) 1, .ok ()) := by
  rw [BlockStoreDb.migrate, h.storeVersion]
  change migrateToV1 api db = _
  simp only [migrateToV1, h.writes, applyAll_eq, List.flatMap_def]

theorem Stored.interrupted (writes : ℕ) : interrupted api db writes =
    write (((inOrder blocks).take writes).flatMap (migrationBatch api)) db := by
  rw [BlockStoreDb.interrupted, h.storeVersion]
  simp only [h.writes, applyAll_eq, List.flatMap_def, List.map_take]

end Scan

section Records

variable {B T : Type} (api : BlockApi B T)

/-- What the keys hold after a scan. -/
theorem lookup_migrated (scanned : List B) (db : Db B T) (k : Key) :
    (write (scanned.flatMap (migrationBatch api)) db).lookup k =
      match k with
      | .txnByHash x =>
          ((lastWith (fun t => decide (api.txnHash t = x)) (scanned.flatMap api.txns)).map .txn).or
            (db.lookup (.txnByHash x))
      | .nonEmptyBlock h =>
          ((lastWith (fun b => decide (api.blockHeight b = h) && !(api.txns b).isEmpty)
            scanned).map .block).or (db.lookup (.nonEmptyBlock h))
      | k => db.lookup k := by
  induction scanned using List.reverseRecOn with
  | nil => cases k <;> rfl
  | append_singleton scanned b ih =>
    rw [List.flatMap_append, List.flatMap_singleton, write_append, lookup_write, migrationBatch,
      lastWrite_append, lastWrite_nonEmptyEntry]
    cases k with
    | txnByHash x =>
      dsimp only at ih ⊢
      rw [lastWrite_txnEntries, List.flatMap_append, List.flatMap_singleton, lastWith_append]
      cases hlast : lastWith (fun t => decide (api.txnHash t = x)) (api.txns b) with
      | none => simpa using ih
      | some t => simp [Write.outcome]
    | nonEmptyBlock h =>
      dsimp only at ih ⊢
      rw [lastWrite_txnEntries_of_ne _ _ (by simp), lastWith_concat]
      by_cases hb : api.blockHeight b = h ∧ (api.txns b).isEmpty = false
      · obtain ⟨rfl, hempty⟩ := hb
        simp [hempty, Write.outcome]
      · have hkey : ¬(Key.nonEmptyBlock h = .nonEmptyBlock (api.blockHeight b) ∧
            (api.txns b).isEmpty = false) := by
          rintro ⟨hk, hempty⟩
          exact hb ⟨(Key.nonEmptyBlock.inj hk).symm, hempty⟩
        have hp : ¬(decide (api.blockHeight b = h) && !(api.txns b).isEmpty) = true := by
          simpa using hb
        rw [if_neg hkey, if_neg hp]
        exact ih
    | _ => simpa [lastWrite_txnEntries_of_ne] using ih

/-- The records that both versions of a store have. -/
structure Basic (blocks : Store Height B) (db : Db B T) : Prop where
  stored : Stored api blocks db
  maxHeight : ∀ v, db.lookup .maxHeight = some v ↔
    ∃ h, v = .height h ∧ IsGreatest {h | h ∈ blocks} h
  hash : ∀ x v, db.lookup (.blockHashToHeight x) = some v ↔
    ∃ h, v = .height h ∧ IsGreatest {h | ∃ b, blocks.lookup h = some b ∧ api.blockHash b = x} h
  pending : db.lookup .pendingBlock = none

/-- A store of the first version. -/
structure VersionZero (blocks : Store Height B) (db : Db B T) : Prop where
  basic : Basic api blocks db
  txn : ∀ x, db.lookup (.txnByHash x) = none
  nonEmpty : ∀ h, db.lookup (.nonEmptyBlock h) = none

/-- A store of the first version, as far as it has been migrated. -/
structure Partial (blocks : Store Height B) (db : Db B T) : Prop where
  basic : Basic api blocks db
  txn : ∀ x v, db.lookup (.txnByHash x) = some v →
    ∃ h b, blocks.lookup h = some b ∧ x ∈ (api.txns b).map api.txnHash
  nonEmpty : ∀ h v, db.lookup (.nonEmptyBlock h) = some v →
    ∃ b, blocks.lookup h = some b ∧ api.txns b ≠ []

variable {api} {blocks : Store Height B} {db : Db B T}

theorem VersionZero.toPartial (h : VersionZero api blocks db) : Partial api blocks db := by
  refine ⟨h.basic, fun x v hv => ?_, fun k v hv => ?_⟩
  · rw [h.txn] at hv
    cases hv
  · rw [h.nonEmpty] at hv
    cases hv

/-- A part of a scan keeps the store as it is, but for records of its blocks. -/
theorem Partial.scanned (h : Partial api blocks db) (scanned : List B)
    (hscanned : ∀ b ∈ scanned, b ∈ inOrder blocks) :
    Partial api blocks (write (scanned.flatMap (migrationBatch api)) db) := by
  have hstored := h.basic.stored
  refine ⟨⟨⟨hstored.placed, fun k => ?_, ?_⟩, ?_, fun x => ?_, ?_⟩, fun x v hv => ?_,
    fun k v hv => ?_⟩
  · rw [lookup_migrated]
    exact hstored.block k
  · rw [lookup_migrated]
    exact hstored.version
  · rw [lookup_migrated]
    exact h.basic.maxHeight
  · rw [lookup_migrated]
    exact h.basic.hash x
  · rw [lookup_migrated]
    exact h.basic.pending
  · rw [lookup_migrated] at hv
    rcases Option.or_eq_some_iff.mp hv with hlast | ⟨-, hold⟩
    · obtain ⟨t, ht, -⟩ := Option.map_eq_some_iff.mp hlast
      obtain ⟨hmem, hx⟩ := mem_of_lastWith _ _ _ ht
      obtain ⟨b, hb, htb⟩ := List.mem_flatMap.mp hmem
      obtain rfl := of_decide_eq_true hx
      exact ⟨_, b, (hstored.mem_inOrder b).mp (hscanned b hb), List.mem_map_of_mem htb⟩
    · exact h.txn x v hold
  · rw [lookup_migrated] at hv
    rcases Option.or_eq_some_iff.mp hv with hlast | ⟨-, hold⟩
    · obtain ⟨b, hb, -⟩ := Option.map_eq_some_iff.mp hlast
      obtain ⟨hmem, hp⟩ := mem_of_lastWith _ _ _ hb
      obtain ⟨hheight, hempty⟩ := (Bool.and_eq_true _ _).mp hp
      obtain rfl := of_decide_eq_true hheight
      exact ⟨b, (hstored.mem_inOrder b).mp (hscanned b hmem), by simpa using hempty⟩
    · exact h.nonEmpty k v hold

theorem Partial.interrupted (h : Partial api blocks db) (writes : ℕ) :
    Partial api blocks (interrupted api db writes) := by
  rw [h.basic.stored.interrupted]
  exact h.scanned _ fun b hb => List.mem_of_mem_take hb

end Records

section Completed

variable {B T : Type} {api : BlockApi B T}

/-- In the order of the heights the last block with a property is the highest one. -/
theorem lastWith_sorted (p : B → Bool) (xs : List B)
    (hxs : xs.Pairwise fun b c => api.blockHeight b < api.blockHeight c) (b : B) :
    lastWith p xs = some b ↔
      b ∈ xs ∧ p b ∧ ∀ c ∈ xs, p c → api.blockHeight c ≤ api.blockHeight b := by
  rw [lastWith_eq_some]
  constructor
  · rintro ⟨hp, before, after, rfl, hafter⟩
    refine ⟨by simp, hp, fun c hc hpc => ?_⟩
    rcases List.mem_append.mp hc with hbefore | hrest
    · exact ((List.pairwise_append.mp hxs).2.2 c hbefore b (by simp)).le
    · rcases List.mem_cons.mp hrest with rfl | hlater
      · exact le_refl _
      · rw [hafter c hlater] at hpc
        cases hpc
  · rintro ⟨hmem, hp, hmax⟩
    obtain ⟨before, after, rfl⟩ := List.append_of_mem hmem
    refine ⟨hp, before, after, rfl, fun c hc => ?_⟩
    by_contra hpc
    have hlt := (List.pairwise_cons.mp (List.pairwise_append.mp hxs).2.1).1 c hc
    have hle := hmax c (by simp [hc]) (by simpa using hpc)
    exact absurd (hlt.trans_le hle) (lt_irrefl _)

/-- The records of the calls determine the store. -/
theorem Content.unique {calls : List B} {db db' : Db B T} (h : Content api calls db)
    (h' : Content api calls db') : db = db' := by
  apply Finmap.ext_lookup
  intro k
  cases k with
  | block k => rw [h.block, h'.block]
  | maxHeight => rw [h.maxHeight, h'.maxHeight]
  | blockHashToHeight x => rw [h.hash, h'.hash]
  | pendingBlock => rw [h.pending, h'.pending]
  | txnByHash x => rw [h.txn, h'.txn]
  | storeVersion => rw [h.version, h'.version]
  | nonEmptyBlock k => rw [h.nonEmpty, h'.nonEmpty]

variable {blocks : Store Height B} {db : Db B T}

theorem Stored.lastWith_height (h : Stored api blocks db) (k : Height) :
    lastWith (fun b => decide (api.blockHeight b = k)) (inOrder blocks) = blocks.lookup k := by
  apply Option.ext
  intro b
  rw [lastWith_sorted _ _ h.inOrder_sorted, h.mem_inOrder]
  constructor
  · rintro ⟨hb, hk, -⟩
    rwa [of_decide_eq_true hk] at hb
  · intro hb
    have hk := h.placed k b hb
    refine ⟨by rwa [hk], decide_eq_true hk, fun c _ hc => ?_⟩
    rw [of_decide_eq_true hc, hk]

theorem Stored.mem_heights (h : Stored api blocks db) (k : Height) :
    k ∈ (inOrder blocks).map api.blockHeight ↔ k ∈ blocks := by
  rw [List.mem_map, ← Finmap.lookup_isSome, Option.isSome_iff_exists]
  constructor
  · rintro ⟨b, hb, rfl⟩
    exact ⟨b, (h.mem_inOrder b).mp hb⟩
  · rintro ⟨b, hb⟩
    exact ⟨b, h.mem_of_lookup k b hb, h.placed k b hb⟩

omit api in
theorem max?_iff_isGreatest (hs : List Height) (s : Set Height) (hmem : ∀ k, k ∈ hs ↔ k ∈ s)
    (k : Height) : hs.max? = some k ↔ IsGreatest s k := by
  rw [List.max?_eq_some_iff, hmem]
  refine and_congr_right fun _ => ?_
  constructor
  · intro hmax k' hk'
    exact hmax k' ((hmem k').mpr hk')
  · intro hmax k' hk'
    exact hmax ((hmem k').mp hk')

theorem Basic.max?_inOrder (h : Basic api blocks db) :
    db.lookup .maxHeight = ((inOrder blocks).map api.blockHeight).max?.map .height := by
  apply Option.ext
  intro v
  rw [h.maxHeight, Option.map_eq_some_iff]
  refine exists_congr fun k => ?_
  rw [max?_iff_isGreatest _ {h | h ∈ blocks} h.stored.mem_heights, and_comm, eq_comm]

theorem Basic.hash_inOrder (h : Basic api blocks db) (x : CryptoHash) :
    db.lookup (.blockHashToHeight x) =
      (lastWith (fun b => decide (api.blockHash b = x)) (inOrder blocks)).map fun b =>
        .height (api.blockHeight b) := by
  apply Option.ext
  intro v
  rw [h.hash, Option.map_eq_some_iff]
  constructor
  · rintro ⟨k, rfl, ⟨b, hb, hx⟩, hmax⟩
    have hk := h.stored.placed k b hb
    refine ⟨b, ?_, by rw [hk]⟩
    rw [lastWith_sorted _ _ h.stored.inOrder_sorted]
    refine ⟨h.stored.mem_of_lookup k b hb, decide_eq_true hx, fun c hc hcx => ?_⟩
    rw [hk]
    exact hmax ⟨c, (h.stored.mem_inOrder c).mp hc, of_decide_eq_true hcx⟩
  · rintro ⟨b, hb, rfl⟩
    rw [lastWith_sorted _ _ h.stored.inOrder_sorted] at hb
    obtain ⟨hmem, hx, hmax⟩ := hb
    refine ⟨_, rfl, ⟨b, (h.stored.mem_inOrder b).mp hmem, of_decide_eq_true hx⟩, ?_⟩
    rintro k ⟨c, hc, hcx⟩
    have hle := hmax c (h.stored.mem_of_lookup k c hc) (decide_eq_true hcx)
    rwa [h.stored.placed k c hc] at hle

/-- A whole scan and the mark of the version leave what calls in order would have written. -/
theorem Partial.completed (h : Partial api blocks db) :
    Content api (inOrder blocks)
      (setStoreVersion (write ((inOrder blocks).flatMap (migrationBatch api)) db) 1) := by
  have hlookup : ∀ k, k ≠ .storeVersion →
      (setStoreVersion (write ((inOrder blocks).flatMap (migrationBatch api)) db) 1).lookup k =
        (write ((inOrder blocks).flatMap (migrationBatch api)) db).lookup k := by
    intro k hk
    exact Finmap.lookup_insert_of_ne _ hk
  refine ⟨fun k => ?_, ?_, fun x => ?_, fun x => ?_, fun k => ?_, ?_, ?_⟩
  · rw [hlookup _ (by simp), lookup_migrated, h.basic.stored.lastWith_height]
    exact h.basic.stored.block k
  · rw [hlookup _ (by simp), lookup_migrated]
    exact h.basic.max?_inOrder
  · rw [hlookup _ (by simp), lookup_migrated]
    exact h.basic.hash_inOrder x
  · rw [hlookup _ (by simp), lookup_migrated]
    dsimp only
    cases hlast : lastWith (fun t => decide (api.txnHash t = x))
        ((inOrder blocks).flatMap api.txns) with
    | some t => rfl
    | none =>
      rw [lastWith_eq_none] at hlast
      rw [Option.map_none, Option.none_or, Option.eq_none_iff_forall_ne_some]
      intro v hv
      obtain ⟨k, b, hb, hx⟩ := h.txn x v hv
      obtain ⟨t, ht, rfl⟩ := List.mem_map.mp hx
      have hmem := List.mem_flatMap.mpr ⟨b, h.basic.stored.mem_of_lookup k b hb, ht⟩
      exact of_decide_eq_false (hlast t hmem) rfl
  · rw [hlookup _ (by simp), lookup_migrated]
    dsimp only
    cases hlast : lastWith (fun b => decide (api.blockHeight b = k) && !(api.txns b).isEmpty)
        (inOrder blocks) with
    | some b => rfl
    | none =>
      rw [lastWith_eq_none] at hlast
      rw [Option.map_none, Option.none_or, Option.eq_none_iff_forall_ne_some]
      intro v hv
      obtain ⟨b, hb, hne⟩ := h.nonEmpty k v hv
      have hp := hlast b (h.basic.stored.mem_of_lookup k b hb)
      rw [h.basic.stored.placed k b hb] at hp
      simp [hne] at hp
  · exact Finmap.lookup_insert _
  · rw [hlookup _ (by simp), lookup_migrated]
    exact h.basic.pending

end Completed

section Events

variable {B T : Type} (api : BlockApi B T)

/-- What happens to a store before a migration completes. -/
inductive Event (B : Type)
  | interrupted (writes : ℕ)
  | set (block : B)

def step (db : Db B T) : Event B → Outcome Error (Db B T)
  | .interrupted writes => .ok (interrupted api db writes)
  | .set block => BlockStoreDb.set api db block

def run (db : Db B T) (events : List (Event B)) : Outcome Error (Db B T) :=
  events.foldlM (step api) db

/-- The blocks by height after an event. -/
def place (blocks : Store Height B) : Event B → Store Height B
  | .interrupted _ => blocks
  | .set block => blocks.insert (api.blockHeight block) block

/-- The block replaces no block with another hash or with other transactions, and its hash
is not that of a block elsewhere. -/
structure Fits (blocks : Store Height B) (b : B) : Prop where
  same_height : ∀ c, blocks.lookup (api.blockHeight b) = some c →
    api.blockHash c = api.blockHash b ∧
      (api.txns c).map api.txnHash = (api.txns b).map api.txnHash
  same_hash : ∀ h c, blocks.lookup h = some c → api.blockHash c = api.blockHash b →
    h = api.blockHeight b

def FitsAll (blocks : Store Height B) : List (Event B) → Prop
  | [] => True
  | .interrupted _ :: rest => FitsAll blocks rest
  | .set b :: rest => Fits api blocks b ∧ FitsAll (blocks.insert (api.blockHeight b) b) rest

variable {api} {blocks : Store Height B} {db : Db B T}

theorem Basic.getMaxHeight (h : Basic api blocks db) :
    getMaxHeight db = .ok ((inOrder blocks).map api.blockHeight).max? := by
  rw [BlockStoreDb.getMaxHeight, read, h.max?_inOrder]
  cases ((inOrder blocks).map api.blockHeight).max? <;> rfl

/-- The blocks of a store of the first version, whatever block is set. -/
theorem Stored.set (h : Stored api blocks db) (maxHeight : Option Height) (b : B) :
    Stored api (blocks.insert (api.blockHeight b) b) (write (setBatch api maxHeight b) db) := by
  refine ⟨fun k c hc => ?_, fun k => ?_, ?_⟩
  · by_cases hk : k = api.blockHeight b
    · subst hk
      rw [Finmap.lookup_insert, Option.some_inj] at hc
      rw [hc]
    · rw [Finmap.lookup_insert_of_ne _ hk] at hc
      exact h.placed k c hc
  · rw [lookup_setBatch]
    dsimp only
    by_cases hk : k = api.blockHeight b
    · subst hk
      rw [if_pos rfl, Finmap.lookup_insert]
      rfl
    · rw [if_neg (Ne.symm hk), Finmap.lookup_insert_of_ne _ hk]
      exact h.block k
  · rw [lookup_setBatch]
    exact h.version

theorem Basic.set (h : Basic api blocks db) (b : B) (hfits : Fits api blocks b) :
    Basic api (blocks.insert (api.blockHeight b) b)
      (write (setBatch api ((inOrder blocks).map api.blockHeight).max? b) db) := by
  refine ⟨h.stored.set _ b, fun v => ?_, fun x v => ?_, ?_⟩
  · have hlookup : (write (setBatch api ((inOrder blocks).map api.blockHeight).max? b) db).lookup
        .maxHeight = ((inOrder blocks).map api.blockHeight ++ [api.blockHeight b]).max?.map
          .height := by
      rw [lookup_setBatch, max?_concat]
      dsimp only
      rw [h.max?_inOrder]
      split <;> rfl
    rw [hlookup, Option.map_eq_some_iff]
    refine exists_congr fun k => ?_
    rw [max?_iff_isGreatest _ {k | k ∈ blocks.insert (api.blockHeight b) b}, and_comm, eq_comm]
    intro k
    rw [List.mem_append, List.mem_singleton, h.stored.mem_heights, or_comm]
    exact Finmap.mem_insert.symm
  · rw [lookup_setBatch]
    dsimp only
    by_cases hx : api.blockHash b = x
    · subst hx
      rw [if_pos rfl, Option.some_inj]
      have honly : ∀ k, (∃ c, (blocks.insert (api.blockHeight b) b).lookup k = some c ∧
          api.blockHash c = api.blockHash b) ↔ k = api.blockHeight b := by
        intro k
        constructor
        · rintro ⟨c, hc, hhash⟩
          by_contra hk
          rw [Finmap.lookup_insert_of_ne _ hk] at hc
          exact hk (hfits.same_hash k c hc hhash)
        · rintro rfl
          exact ⟨b, Finmap.lookup_insert _, rfl⟩
      simp only [honly]
      constructor
      · rintro rfl
        exact ⟨_, rfl, rfl, fun k hk => le_of_eq hk⟩
      · rintro ⟨k, rfl, hk, -⟩
        rw [hk]
    · rw [if_neg hx, h.hash]
      have hsame : ∀ k, (∃ c, (blocks.insert (api.blockHeight b) b).lookup k = some c ∧
          api.blockHash c = x) ↔ ∃ c, blocks.lookup k = some c ∧ api.blockHash c = x := by
        intro k
        by_cases hk : k = api.blockHeight b
        · subst hk
          rw [Finmap.lookup_insert]
          constructor
          · rintro ⟨c, hc, hhash⟩
            rw [Option.some_inj.mp hc] at hx
            exact absurd hhash hx
          · rintro ⟨c, hc, hhash⟩
            rw [(hfits.same_height c hc).1] at hhash
            exact absurd hhash hx
        · rw [Finmap.lookup_insert_of_ne _ hk]
      simp only [hsame]
  · rw [lookup_setBatch]
    exact h.pending

theorem Partial.set (h : Partial api blocks db) (b : B) (hfits : Fits api blocks b) :
    ∃ db', set api db b = .ok db' ∧
      Partial api (blocks.insert (api.blockHeight b) b) db' := by
  have hkept : ∀ k c, blocks.lookup k = some c →
      ∃ c', (blocks.insert (api.blockHeight b) b).lookup k = some c' ∧
        (api.txns c').map api.txnHash = (api.txns c).map api.txnHash := by
    intro k c hc
    by_cases hk : k = api.blockHeight b
    · subst hk
      exact ⟨b, Finmap.lookup_insert _, (hfits.same_height c hc).2.symm⟩
    · exact ⟨c, by rw [Finmap.lookup_insert_of_ne _ hk, hc], rfl⟩
  refine ⟨_, ?_, h.basic.set b hfits, fun x v hv => ?_, fun k v hv => ?_⟩
  · rw [BlockStoreDb.set, h.basic.getMaxHeight]
    rfl
  · rw [lookup_setBatch] at hv
    rcases Option.or_eq_some_iff.mp hv with hlast | ⟨-, hold⟩
    · obtain ⟨t, ht, -⟩ := Option.map_eq_some_iff.mp hlast
      obtain ⟨hmem, hx⟩ := mem_of_lastWith _ _ _ ht
      obtain rfl := of_decide_eq_true hx
      exact ⟨_, b, Finmap.lookup_insert _, List.mem_map_of_mem hmem⟩
    · obtain ⟨k, c, hc, hx⟩ := h.txn x v hold
      obtain ⟨c', hc', htxns⟩ := hkept k c hc
      exact ⟨k, c', hc', by rwa [htxns]⟩
  · rw [lookup_setBatch] at hv
    dsimp only at hv
    split at hv
    · next hk =>
      obtain ⟨rfl, hempty⟩ := hk
      exact ⟨b, Finmap.lookup_insert _, by simpa using hempty⟩
    · obtain ⟨c, hc, hne⟩ := h.nonEmpty k v hv
      obtain ⟨c', hc', htxns⟩ := hkept k c hc
      refine ⟨c', hc', fun hnil => hne ?_⟩
      rwa [hnil, List.map_nil, eq_comm, List.map_eq_nil_iff] at htxns

theorem run_partial (h : Partial api blocks db) (events : List (Event B))
    (hfits : FitsAll api blocks events) :
    ∃ db', run api db events = .ok db' ∧ Partial api (events.foldl (place api) blocks) db' := by
  induction events generalizing blocks db with
  | nil => exact ⟨db, rfl, h⟩
  | cons event rest ih =>
    cases event with
    | interrupted writes => exact ih (h.interrupted writes) hfits
    | set b =>
      obtain ⟨hb, hrest⟩ := hfits
      obtain ⟨db', hset, hfinished⟩ := h.set b hb
      obtain ⟨final, hrun, hfinal⟩ := ih hfinished hrest
      refine ⟨final, ?_, hfinal⟩
      change (BlockStoreDb.set api db b >>= fun db => run api db rest) = _
      rw [hset]
      exact hrun

theorem Content.migrate {calls : List B} (h : Content api calls db) :
    migrate api db = (db, .ok ()) := by
  have hversion : storeVersion db = .ok 1 := by
    rw [storeVersion, read, h.version]
    rfl
  rw [BlockStoreDb.migrate, hversion]
  rfl

end Events

/-- However a store of the first version came to its migration, the migration leaves what calls
in the order of the heights write, and a further migration leaves it alone. -/
theorem migrate_sets {B T : Type} (api : BlockApi B T) (blocks : Store Height B) (db : Db B T)
    (hstore : VersionZero api blocks db) (events : List (Event B))
    (hfits : FitsAll api blocks events) :
    ∃ db' final, run api db events = .ok db' ∧ migrate api db' = (final, .ok ()) ∧
      sets api (create B T) (inOrder (events.foldl (place api) blocks)) = .ok final ∧
      migrate api final = (final, .ok ()) := by
  obtain ⟨db', hrun, hfinished⟩ := run_partial hstore.toPartial events hfits
  obtain ⟨final, hsets, hcontent⟩ :=
    sets_content api (inOrder (events.foldl (place api) blocks))
  have hfinal := hcontent.unique hfinished.completed
  refine ⟨db', final, hrun, ?_, hsets, hcontent.migrate⟩
  rw [hfinished.basic.stored.migrate, hfinal]

section Single

variable {B T : Type} (api : BlockApi B T) (b : B)

/-- A store of the first version with one block. -/
def singleStore : Db B T :=
  write [.put (.block (api.blockHeight b)) (.block b),
    .put .maxHeight (.height (api.blockHeight b)),
    .put (.blockHashToHeight (api.blockHash b)) (.height (api.blockHeight b))] ∅

def singleBlocks : Store Height B := (∅ : Store Height B).insert (api.blockHeight b) b

theorem lookup_singleBlocks (h : Height) (c : B) :
    (singleBlocks api b).lookup h = some c ↔ h = api.blockHeight b ∧ c = b := by
  by_cases hh : h = api.blockHeight b
  · rw [singleBlocks, hh, Finmap.lookup_insert]
    simp [eq_comm]
  · rw [singleBlocks, Finmap.lookup_insert_of_ne _ hh]
    simp [hh]

theorem lookup_singleStore (k : Key) : (singleStore api b).lookup k =
    match k with
    | .block h => if api.blockHeight b = h then some (.block b) else none
    | .maxHeight => some (.height (api.blockHeight b))
    | .blockHashToHeight x =>
        if api.blockHash b = x then some (.height (api.blockHeight b)) else none
    | _ => none := by
  rw [singleStore, lookup_write]
  cases k with
  | block h => by_cases hh : api.blockHeight b = h <;> simp [lastWrite, Write.key, hh, Write.outcome]
  | blockHashToHeight x =>
    by_cases hx : api.blockHash b = x <;> simp [lastWrite, Write.key, hx, Write.outcome]
  | _ => simp [lastWrite, Write.key, Write.outcome]

theorem singleStore_versionZero : VersionZero api (singleBlocks api b) (singleStore api b) := by
  have hgreatest : ∀ (p : Height → Prop) (k : Height), (∀ h, p h ↔ h = api.blockHeight b) →
      (IsGreatest {h | p h} k ↔ k = api.blockHeight b) := by
    intro p k hp
    simp only [hp]
    constructor
    · exact fun hk => hk.1
    · rintro rfl
      exact ⟨rfl, fun h hh => le_of_eq hh⟩
  have hmem : ∀ h, h ∈ singleBlocks api b ↔ h = api.blockHeight b := by
    intro h
    rw [singleBlocks, Finmap.mem_insert]
    simp [Finmap.notMem_empty]
  refine ⟨⟨⟨fun h c hc => ?_, fun h => ?_, ?_⟩, fun v => ?_, fun x v => ?_, ?_⟩, fun x => ?_,
    fun h => ?_⟩
  · obtain ⟨rfl, rfl⟩ := (lookup_singleBlocks api b h c).mp hc
    rfl
  · rw [lookup_singleStore]
    dsimp only
    by_cases hh : h = api.blockHeight b
    · rw [if_pos hh.symm, (lookup_singleBlocks api b h b).mpr ⟨hh, rfl⟩]
      rfl
    · rw [if_neg (Ne.symm hh), singleBlocks, Finmap.lookup_insert_of_ne _ hh]
      rfl
  · rw [lookup_singleStore]
  · rw [lookup_singleStore]
    simp only [hgreatest _ _ hmem]
    simp [eq_comm]
  · rw [lookup_singleStore]
    dsimp only
    by_cases hx : api.blockHash b = x
    · rw [if_pos hx]
      have honly : ∀ h, (∃ c, (singleBlocks api b).lookup h = some c ∧ api.blockHash c = x) ↔
          h = api.blockHeight b := by
        intro h
        simp [lookup_singleBlocks, hx]
      simp only [hgreatest _ _ honly]
      simp [eq_comm]
    · rw [if_neg hx]
      simp [lookup_singleBlocks, IsGreatest, hx]
  · rw [lookup_singleStore]
  · rw [lookup_singleStore]
  · rw [lookup_singleStore]

variable {api b}

/-- A block without transactions replaces the only block before the migration: the old hash
still leads to the height, and no transaction is indexed. -/
theorem migrate_replaced (c : B) (hheight : api.blockHeight c = api.blockHeight b)
    (hhash : api.blockHash c ≠ api.blockHash b) (hempty : api.txns c = []) :
    ∃ db final, set api (singleStore api b) c = .ok db ∧ migrate api db = (final, .ok ()) ∧
      final.lookup (.blockHashToHeight (api.blockHash b)) = some (.height (api.blockHeight b)) ∧
      ∀ x, final.lookup (.txnByHash x) = none := by
  have hstore := (singleStore_versionZero api b).basic
  have hstored := hstore.stored.set ((inOrder (singleBlocks api b)).map api.blockHeight).max? c
  have hscanned : (inOrder ((singleBlocks api b).insert (api.blockHeight c) c)).flatMap api.txns =
      [] := by
    rw [List.flatMap_eq_nil_iff]
    intro d hd
    rw [hstored.mem_inOrder] at hd
    by_cases hother : api.blockHeight d = api.blockHeight c
    · rw [hother, Finmap.lookup_insert, Option.some_inj] at hd
      rw [← hd, hempty]
    · rw [Finmap.lookup_insert_of_ne _ hother, lookup_singleBlocks] at hd
      exact absurd (hd.1.trans hheight.symm) hother
  refine ⟨_, _, ?_, hstored.migrate, ?_, fun x => ?_⟩
  · rw [BlockStoreDb.set, hstore.getMaxHeight]
    rfl
  · refine (Finmap.lookup_insert_of_ne _ (by simp)).trans ?_
    rw [lookup_migrated]
    dsimp only
    rw [lookup_setBatch]
    dsimp only
    rw [if_neg hhash, lookup_singleStore]
    exact if_pos rfl
  · refine (Finmap.lookup_insert_of_ne _ (by simp)).trans ?_
    rw [lookup_migrated, hscanned]
    dsimp only
    rw [lookup_setBatch]
    dsimp only
    rw [hempty, lookup_singleStore]
    rfl

end Single

/-- An interrupted migration, a call for a higher block, and another interruption. -/
theorem migrate_sets_two :
    ∃ db' final,
      run dummyApi (singleStore dummyApi (1, 0#256, [123#256]))
        [.interrupted 1, .set (2, 9#256, [124#256]), .interrupted 1] = .ok db' ∧
      migrate dummyApi db' = (final, .ok ()) ∧
      sets dummyApi (create _ _)
        (inOrder ([.interrupted 1, .set (2, 9#256, [124#256]), .interrupted 1].foldl
          (place dummyApi) (singleBlocks dummyApi (1, 0#256, [123#256])))) = .ok final ∧
      migrate dummyApi final = (final, .ok ()) := by
  refine migrate_sets dummyApi _ _ (singleStore_versionZero dummyApi _) _ ⟨⟨?_, ?_⟩, trivial⟩
  · intro c hc
    exact absurd ((lookup_singleBlocks _ _ _ c).mp hc).1 (by decide)
  · intro h c hc hhash
    obtain ⟨-, rfl⟩ := (lookup_singleBlocks _ _ _ c).mp hc
    exact absurd hhash (by decide)

/-- Calls of the two blocks never leave what a call that replaces a block and the migration
leave: the hash of the old block is known, but not its transaction. -/
theorem migrate_forgets_replaced :
    VersionZero dummyApi (singleBlocks dummyApi (1, 0#256, [123#256]))
        (singleStore dummyApi (1, 0#256, [123#256])) ∧
      ∃ db' final,
        run dummyApi (singleStore dummyApi (1, 0#256, [123#256])) [.set (1, 9#256, [])] =
          .ok db' ∧
        migrate dummyApi db' = (final, .ok ()) ∧
        ∀ calls : List (Height × CryptoHash × List CryptoHash),
          (∀ c ∈ calls, c = (1, 0#256, [123#256]) ∨ c = (1, 9#256, [])) →
            sets dummyApi (create _ _) calls ≠ .ok final := by
  refine ⟨singleStore_versionZero dummyApi _, ?_⟩
  have hreplaced : ∃ db final,
      set dummyApi (singleStore dummyApi (1, 0#256, [123#256])) (1, 9#256, []) = .ok db ∧ _ :=
    migrate_replaced _ rfl (by decide) rfl
  obtain ⟨db', final, hset, hmigrate, hhash, htxn⟩ := hreplaced
  refine ⟨db', final, ?_, hmigrate, fun calls hcalls hsets => ?_⟩
  · change (BlockStoreDb.set dummyApi _ _ >>= pure) = _
    rw [hset]
    rfl
  obtain ⟨db, hdb, hcontent⟩ := sets_content dummyApi calls
  obtain rfl := Except.ok.inj (hdb.symm.trans hsets)
  rw [hcontent.hash, Option.map_eq_some_iff] at hhash
  obtain ⟨c, hc, -⟩ := hhash
  obtain ⟨hmem, hzero⟩ := mem_of_lastWith _ _ _ hc
  have hold : c = (1, 0#256, [123#256]) := by
    rcases hcalls c hmem with rfl | rfl
    · rfl
    · exact absurd hzero (by decide)
  subst hold
  obtain ⟨t, ht⟩ := lastWith_isSome (fun t => decide (dummyApi.txnHash t = 123#256))
    (calls.flatMap dummyApi.txns) 123#256 (List.mem_flatMap.mpr ⟨_, hmem, by decide⟩) (by decide)
  have hnone := htxn 123#256
  rw [hcontent.txn, ht] at hnone
  cases hnone

end PayyRollup.BlockStoreDb
