import PayyRollup.BlockStoreDb

/-!
What the block store holds after a sequence of calls. Each record is that of the last call
that wrote it, so the indexes remember replaced blocks: nothing is ever deleted. Against the
blocks that are stored by height, the indexes are exact as long as no call has replaced a
stored block by a block with another hash.
-/
namespace PayyRollup.BlockStoreDb

open NodeBlocks SmirkTree KeyValueStore

/-- The last element of a list with a property. -/
def lastWith {A : Type} (p : A → Bool) (xs : List A) : Option A := xs.reverse.find? p

section Last

variable {A : Type} (p : A → Bool)

@[simp] theorem lastWith_nil : lastWith p [] = none := rfl

theorem lastWith_append (xs ys : List A) :
    lastWith p (xs ++ ys) = (lastWith p ys).or (lastWith p xs) := by
  rw [lastWith, List.reverse_append, List.find?_append]
  rfl

theorem lastWith_concat (xs : List A) (x : A) :
    lastWith p (xs ++ [x]) = if p x then some x else lastWith p xs := by
  rw [lastWith_append]
  cases hx : p x <;> simp [lastWith, hx]

theorem lastWith_eq_none (xs : List A) : lastWith p xs = none ↔ ∀ x ∈ xs, p x = false := by
  simp [lastWith, List.find?_eq_none]

theorem lastWith_eq_some (xs : List A) (x : A) : lastWith p xs = some x ↔
    p x ∧ ∃ before after, xs = before ++ x :: after ∧ ∀ y ∈ after, p y = false := by
  rw [lastWith, List.find?_eq_some_iff_append]
  refine and_congr_right fun _ => ?_
  constructor
  · rintro ⟨later, earlier, heq, hlater⟩
    refine ⟨earlier.reverse, later.reverse, ?_, fun y hy => ?_⟩
    · rw [← List.reverse_reverse xs, heq]
      simp
    · simpa using hlater y (List.mem_reverse.mp hy)
  · rintro ⟨before, after, rfl, hafter⟩
    refine ⟨after.reverse, before.reverse, by simp, fun y hy => ?_⟩
    simpa using hafter y (List.mem_reverse.mp hy)

theorem mem_of_lastWith (xs : List A) (x : A) (h : lastWith p xs = some x) : x ∈ xs ∧ p x :=
  ⟨List.mem_reverse.mp (List.mem_of_find?_eq_some h), List.find?_some h⟩

theorem lastWith_isSome (xs : List A) (x : A) (hx : x ∈ xs) (hp : p x) :
    ∃ y, lastWith p xs = some y := by
  rw [← Option.ne_none_iff_exists', Ne, lastWith_eq_none]
  intro hnone
  rw [hnone x hx] at hp
  cases hp

end Last

section Content

variable {B T : Type} (api : BlockApi B T)

/-- The records of a sequence of calls. -/
structure Content (calls : List B) (db : Db B T) : Prop where
  block : ∀ h, db.lookup (.block h) =
    (lastWith (fun b => decide (api.blockHeight b = h)) calls).map .block
  maxHeight : db.lookup .maxHeight = (calls.map api.blockHeight).max?.map .height
  hash : ∀ x, db.lookup (.blockHashToHeight x) =
    (lastWith (fun b => decide (api.blockHash b = x)) calls).map fun b =>
      .height (api.blockHeight b)
  txn : ∀ x, db.lookup (.txnByHash x) =
    (lastWith (fun t => decide (api.txnHash t = x)) (calls.flatMap api.txns)).map .txn
  nonEmpty : ∀ h, db.lookup (.nonEmptyBlock h) =
    (lastWith (fun b => decide (api.blockHeight b = h) && !(api.txns b).isEmpty) calls).map .block
  version : db.lookup .storeVersion = some (.version 1)
  pending : db.lookup .pendingBlock = none

variable {api} (maxHeight : Option Height) (b : B) (db : Db B T)

theorem lastWrite_txnEntries (x : CryptoHash) :
    lastWrite (txnEntries api b) (.txnByHash x) =
      (lastWith (fun t => decide (api.txnHash t = x)) (api.txns b)).map fun t =>
        .put (.txnByHash (api.txnHash t)) (.txn t) := by
  rw [lastWrite, txnEntries, ← List.map_reverse, List.find?_map, lastWith]
  congr 1
  congr 1
  funext t
  simp [Write.key]

theorem lastWrite_txnEntries_of_ne (k : Key) (hk : ∀ x, k ≠ .txnByHash x) :
    lastWrite (txnEntries api b) k = none := by
  apply lastWrite_eq_none
  intro w hw heq
  obtain ⟨t, -, rfl⟩ := List.mem_map.mp hw
  exact hk _ heq.symm

theorem lastWrite_nonEmptyEntry (k : Key) :
    lastWrite (nonEmptyEntry api b) k =
      if k = .nonEmptyBlock (api.blockHeight b) ∧ (api.txns b).isEmpty = false then
        some (.put (.nonEmptyBlock (api.blockHeight b)) (.block b))
      else none := by
  unfold nonEmptyEntry
  by_cases hempty : (api.txns b).isEmpty = true
  · rw [if_pos hempty]
    simp [lastWrite, hempty]
  · rw [if_neg hempty, lastWrite_singleton]
    simp [Write.key, hempty, eq_comm]

theorem lastWrite_maxHeightEntry (k : Key) :
    lastWrite (maxHeightEntry api maxHeight b) k =
      if k = .maxHeight ∧ maxHeight.all fun m => decide (m < api.blockHeight b) then
        some (.put .maxHeight (.height (api.blockHeight b)))
      else none := by
  unfold maxHeightEntry
  by_cases hall : (maxHeight.all fun m => decide (m < api.blockHeight b)) = true
  · rw [if_pos hall, lastWrite_singleton]
    simp [Write.key, hall, eq_comm]
  · rw [if_neg hall]
    simp [lastWrite, hall]

/-- What the keys hold after a call. -/
theorem lookup_setBatch (k : Key) :
    (write (setBatch api maxHeight b) db).lookup k =
      match k with
      | .block h => if api.blockHeight b = h then some (.block b) else db.lookup (.block h)
      | .maxHeight =>
          if maxHeight.all fun m => decide (m < api.blockHeight b) then
            some (.height (api.blockHeight b))
          else db.lookup .maxHeight
      | .blockHashToHeight x =>
          if api.blockHash b = x then some (.height (api.blockHeight b))
          else db.lookup (.blockHashToHeight x)
      | .txnByHash x =>
          ((lastWith (fun t => decide (api.txnHash t = x)) (api.txns b)).map .txn).or
            (db.lookup (.txnByHash x))
      | .nonEmptyBlock h =>
          if api.blockHeight b = h ∧ (api.txns b).isEmpty = false then some (.block b)
          else db.lookup (.nonEmptyBlock h)
      | .pendingBlock => db.lookup .pendingBlock
      | .storeVersion => db.lookup .storeVersion := by
  rw [lookup_write, setBatch, lastWrite_append, lastWrite_append, lastWrite_append,
    lastWrite_append, lastWrite_nonEmptyEntry, lastWrite_maxHeightEntry, lastWrite_singleton,
    lastWrite_singleton]
  cases k with
  | block h =>
    rw [lastWrite_txnEntries_of_ne _ _ (by simp)]
    by_cases hh : api.blockHeight b = h <;> simp [Write.key, hh, Write.outcome]
  | maxHeight =>
    rw [lastWrite_txnEntries_of_ne _ _ (by simp)]
    cases maxHeight.all fun m => decide (m < api.blockHeight b) <;> simp [Write.key, Write.outcome]
  | blockHashToHeight x =>
    rw [lastWrite_txnEntries_of_ne _ _ (by simp)]
    by_cases hx : api.blockHash b = x <;> simp [Write.key, hx, Write.outcome]
  | txnByHash x =>
    rw [lastWrite_txnEntries]
    cases hlast : lastWith (fun t => decide (api.txnHash t = x)) (api.txns b) <;>
      simp [Write.key, Write.outcome, hlast]
  | nonEmptyBlock h =>
    rw [lastWrite_txnEntries_of_ne _ _ (by simp)]
    by_cases hh : api.blockHeight b = h
    · subst hh
      cases (api.txns b).isEmpty <;> simp [Write.key, Write.outcome]
    · simp [Write.key, hh, Ne.symm hh]
  | pendingBlock =>
    rw [lastWrite_txnEntries_of_ne _ _ (by simp)]
    simp [Write.key]
  | storeVersion =>
    rw [lastWrite_txnEntries_of_ne _ _ (by simp)]
    simp [Write.key]

theorem create_content : Content api [] (create B T) := by
  have hlookup : ∀ k, (create B T).lookup k =
      if k = .storeVersion then some (.version 1) else none := by
    intro k
    rw [create, setStoreVersion, lookup_write, lastWrite_singleton]
    by_cases hk : Key.storeVersion = k
    · simp [Write.key, hk, Write.outcome]
    · simp [Write.key, hk, Ne.symm hk]
  refine ⟨fun h => ?_, ?_, fun x => ?_, fun x => ?_, fun h => ?_, ?_, ?_⟩ <;> rw [hlookup] <;> rfl

variable {b db} {calls : List B}

theorem Content.getMaxHeight (h : Content api calls db) :
    getMaxHeight db = .ok (calls.map api.blockHeight).max? := by
  rw [BlockStoreDb.getMaxHeight, read, h.maxHeight]
  cases (calls.map api.blockHeight).max? <;> rfl

theorem max?_concat (hs : List Height) (h : Height) : (hs ++ [h]).max? =
    if hs.max?.all fun m => decide (m < h) then some h else hs.max? := by
  cases hs with
  | nil => rfl
  | cons x xs =>
    rw [List.cons_append, List.max?_cons', List.max?_cons', List.foldl_append, Option.all_some]
    change some (max (xs.foldl max x) h) = _
    by_cases hlt : xs.foldl max x < h
    · rw [if_pos (decide_eq_true hlt), max_eq_right hlt.le]
    · rw [if_neg (by simpa using hlt), max_eq_left (not_lt.mp hlt)]

/-- A call adds the records of its block. -/
theorem Content.set (h : Content api calls db) (b : B) :
    ∃ db', set api db b = .ok db' ∧ Content api (calls ++ [b]) db' := by
  refine ⟨write (setBatch api (calls.map api.blockHeight).max? b) db, ?_, ?_⟩
  · rw [BlockStoreDb.set, h.getMaxHeight]
    rfl
  · refine ⟨fun k => ?_, ?_, fun x => ?_, fun x => ?_, fun k => ?_, ?_, ?_⟩ <;>
      simp only [lookup_setBatch]
    · rw [lastWith_concat, h.block]
      by_cases hk : api.blockHeight b = k <;> simp [hk]
    · rw [List.map_append, List.map_singleton, max?_concat, h.maxHeight]
      split <;> rfl
    · rw [lastWith_concat, h.hash]
      by_cases hx : api.blockHash b = x <;> simp [hx]
    · rw [List.flatMap_append, List.flatMap_singleton, lastWith_append, h.txn]
      cases lastWith (fun t => decide (api.txnHash t = x)) (api.txns b) <;> simp
    · rw [lastWith_concat, h.nonEmpty]
      by_cases hk : api.blockHeight b = k <;> cases (api.txns b).isEmpty <;> simp [hk]
    · exact h.version
    · exact h.pending

/-- The store holds the records of the calls. -/
theorem sets_content (api : BlockApi B T) (calls : List B) :
    ∃ db, sets api (create B T) calls = .ok db ∧ Content api calls db := by
  induction calls using List.reverseRecOn with
  | nil => exact ⟨_, rfl, create_content⟩
  | append_singleton calls b ih =>
    obtain ⟨db, hsets, hcontent⟩ := ih
    obtain ⟨db', hset, hcontent'⟩ := hcontent.set b
    refine ⟨db', ?_, hcontent'⟩
    rw [sets, List.foldlM_append]
    change (sets api (create B T) calls >>= fun db => [b].foldlM (BlockStoreDb.set api) db) = _
    rw [hsets]
    change (BlockStoreDb.set api db b >>= pure) = _
    rw [hset]
    rfl

theorem Content.get (h : Content api calls db) (k : Height) : get db k =
    .ok (lastWith (fun b => decide (api.blockHeight b = k)) calls) := by
  rw [BlockStoreDb.get, read, h.block]
  cases lastWith (fun b => decide (api.blockHeight b = k)) calls <;> rfl

theorem Content.getBlockHeightByHash (h : Content api calls db) (x : CryptoHash) :
    getBlockHeightByHash db x =
      .ok ((lastWith (fun b => decide (api.blockHash b = x)) calls).map api.blockHeight) := by
  rw [BlockStoreDb.getBlockHeightByHash, read, h.hash]
  cases lastWith (fun b => decide (api.blockHash b = x)) calls <;> rfl

theorem Content.getTxnByHash (h : Content api calls db) (x : CryptoHash) : getTxnByHash db x =
    .ok (lastWith (fun t => decide (api.txnHash t = x)) (calls.flatMap api.txns)) := by
  rw [BlockStoreDb.getTxnByHash, read, h.txn]
  cases lastWith (fun t => decide (api.txnHash t = x)) (calls.flatMap api.txns) <;> rfl

end Content

section Indexes

variable {B T : Type} (api : BlockApi B T)

/-- Blocks of one hash have one height and the same transaction hashes, and blocks that share
a transaction hash have one hash. -/
structure Distinct (calls : List B) : Prop where
  block_hash : ∀ b ∈ calls, ∀ b' ∈ calls, api.blockHash b = api.blockHash b' →
    api.blockHeight b = api.blockHeight b' ∧
      (api.txns b).map api.txnHash = (api.txns b').map api.txnHash
  txn_hash : ∀ b ∈ calls, ∀ b' ∈ calls, ∀ t ∈ api.txns b, ∀ t' ∈ api.txns b',
    api.txnHash t = api.txnHash t' → api.blockHash b = api.blockHash b'

/-- Every stored block is found in every index, and whatever an index holds has been stored. -/
structure Indexed (calls : List B) (db : Db B T) : Prop where
  max_height : ∃ maxHeight, getMaxHeight db = .ok maxHeight ∧ ∀ h, maxHeight = some h ↔
    (∃ b, get db h = .ok (some b)) ∧ ∀ h' b, get db h' = .ok (some b) → h' ≤ h
  hash_found : ∀ h b, get db h = .ok (some b) →
    api.blockHeight b = h ∧ getBlockHeightByHash db (api.blockHash b) = .ok (some h)
  txn_found : ∀ h b, get db h = .ok (some b) → ∀ t ∈ api.txns b,
    ∃ t', getTxnByHash db (api.txnHash t) = .ok (some t') ∧
      ∃ h' b', get db h' = .ok (some b') ∧ ∃ i : ℕ, (api.txns b')[i]? = some t'
  non_empty_found : ∀ h b, get db h = .ok (some b) → api.txns b ≠ [] →
    db.lookup (.nonEmptyBlock h) = some (.block b)
  hash_history : ∀ x h, getBlockHeightByHash db x = .ok (some h) →
    ∃ b ∈ calls, api.blockHash b = x ∧ api.blockHeight b = h
  txn_history : ∀ x t, getTxnByHash db x = .ok (some t) →
    api.txnHash t = x ∧ ∃ b ∈ calls, t ∈ api.txns b
  non_empty_history : ∀ h value, db.lookup (.nonEmptyBlock h) = some value →
    ∃ b ∈ calls, api.blockHeight b = h ∧ api.txns b ≠ [] ∧ value = .block b

/-- The indexes hold nothing of blocks that are not stored. -/
structure Exact (db : Db B T) : Prop where
  hash_exact : ∀ x h, getBlockHeightByHash db x = .ok (some h) →
    ∀ b, get db h = .ok (some b) → api.blockHash b = x
  txn_exact : ∀ x t, getTxnByHash db x = .ok (some t) →
    ∃ h b, get db h = .ok (some b) ∧ ∃ t' ∈ api.txns b, api.txnHash t' = x
  non_empty_exact : ∀ h value, db.lookup (.nonEmptyBlock h) = some value →
    ∃ b, get db h = .ok (some b) ∧ api.txns b ≠ [] ∧ value = .block b

variable {api} {calls : List B} {db : Db B T} (h : Content api calls db)

include h

/-- A stored block is the last call at its height. -/
theorem Content.stored (k : Height) (b : B) (hb : BlockStoreDb.get db k = .ok (some b)) :
    api.blockHeight b = k ∧ ∃ before after, calls = before ++ b :: after ∧
      ∀ c ∈ after, api.blockHeight c ≠ k := by
  rw [h.get, Except.ok.injEq, lastWith_eq_some] at hb
  obtain ⟨hk, before, after, hcalls, hafter⟩ := hb
  exact ⟨of_decide_eq_true hk, before, after, hcalls, fun c hc => of_decide_eq_false (hafter c hc)⟩

theorem Content.stored_of_mem (c : B) (hc : c ∈ calls) :
    ∃ b, BlockStoreDb.get db (api.blockHeight c) = .ok (some b) := by
  obtain ⟨b, hb⟩ := lastWith_isSome (fun b => decide (api.blockHeight b = api.blockHeight c))
    calls c hc (decide_eq_true rfl)
  exact ⟨b, by rw [h.get, hb]⟩

theorem Content.max_height : ∃ maxHeight, BlockStoreDb.getMaxHeight db = .ok maxHeight ∧
    ∀ k, maxHeight = some k ↔ (∃ b, BlockStoreDb.get db k = .ok (some b)) ∧
      ∀ k' b, BlockStoreDb.get db k' = .ok (some b) → k' ≤ k := by
  refine ⟨_, h.getMaxHeight, fun k => ?_⟩
  rw [List.max?_eq_some_iff]
  constructor
  · rintro ⟨hmem, hmax⟩
    obtain ⟨c, hc, rfl⟩ := List.mem_map.mp hmem
    refine ⟨h.stored_of_mem c hc, fun k' b hb => ?_⟩
    obtain ⟨rfl, before, after, hcalls, -⟩ := h.stored k' b hb
    exact hmax _ (List.mem_map_of_mem (by rw [hcalls]; simp))
  · rintro ⟨⟨b, hb⟩, hmax⟩
    obtain ⟨rfl, before, after, hcalls, -⟩ := h.stored k b hb
    refine ⟨List.mem_map_of_mem (by rw [hcalls]; simp), fun k' hk' => ?_⟩
    obtain ⟨c, hc, rfl⟩ := List.mem_map.mp hk'
    obtain ⟨b', hb'⟩ := h.stored_of_mem c hc
    exact hmax _ b' hb'

theorem Content.non_empty_found (k : Height) (b : B) (hb : BlockStoreDb.get db k = .ok (some b))
    (hne : api.txns b ≠ []) : db.lookup (.nonEmptyBlock k) = some (.block b) := by
  obtain ⟨rfl, before, after, hcalls, hafter⟩ := h.stored k b hb
  rw [h.nonEmpty, Option.map_eq_some_iff]
  refine ⟨b, ?_, rfl⟩
  rw [lastWith_eq_some]
  refine ⟨by simpa using hne, before, after, hcalls, fun c hc => ?_⟩
  simp [hafter c hc]

theorem Content.txn_found (hdistinct : Distinct api calls) (k : Height) (b : B)
    (hb : BlockStoreDb.get db k = .ok (some b)) (t : T) (ht : t ∈ api.txns b) :
    ∃ t' ∈ api.txns b, BlockStoreDb.getTxnByHash db (api.txnHash t) = .ok (some t') := by
  obtain ⟨rfl, before, after, hcalls, hafter⟩ := h.stored k b hb
  obtain ⟨t', ht'⟩ := lastWith_isSome (fun t' => decide (api.txnHash t' = api.txnHash t))
    (api.txns b) t ht (decide_eq_true rfl)
  have hlater : lastWith (fun t' => decide (api.txnHash t' = api.txnHash t))
      (after.flatMap api.txns) = none := by
    rw [lastWith_eq_none]
    intro t'' ht''
    obtain ⟨c, hc, hct⟩ := List.mem_flatMap.mp ht''
    rw [decide_eq_false_iff_not]
    intro heq
    have hhash := hdistinct.txn_hash c (by rw [hcalls]; simp [hc]) b (by rw [hcalls]; simp)
      t'' hct t ht heq
    have hheight := hdistinct.block_hash c (by rw [hcalls]; simp [hc]) b (by rw [hcalls]; simp)
      hhash
    exact hafter c hc hheight.1
  refine ⟨t', (mem_of_lastWith _ _ _ ht').1, ?_⟩
  rw [h.getTxnByHash, hcalls, List.flatMap_append, List.flatMap_cons, lastWith_append,
    lastWith_append, hlater, ht']
  rfl

theorem Content.indexed (hdistinct : Distinct api calls) : Indexed api calls db := by
  refine ⟨h.max_height, fun k b hb => ?_, fun k b hb t ht => ?_, h.non_empty_found,
    fun x k hx => ?_, fun x t hx => ?_, fun k value hvalue => ?_⟩
  · obtain ⟨rfl, before, after, hcalls, -⟩ := h.stored k b hb
    have hmem : b ∈ calls := by rw [hcalls]; simp
    obtain ⟨c, hc⟩ := lastWith_isSome (fun c => decide (api.blockHash c = api.blockHash b))
      calls b hmem (decide_eq_true rfl)
    obtain ⟨hcMem, hcHash⟩ := mem_of_lastWith _ _ _ hc
    have hheight := (hdistinct.block_hash c hcMem b hmem (of_decide_eq_true hcHash)).1
    refine ⟨rfl, ?_⟩
    rw [h.getBlockHeightByHash, hc, Option.map_some, hheight]
  · obtain ⟨t', ht', hfound⟩ := h.txn_found hdistinct k b hb t ht
    obtain ⟨i, hi⟩ := List.mem_iff_getElem?.mp ht'
    exact ⟨t', hfound, k, b, hb, i, hi⟩
  · rw [h.getBlockHeightByHash, Except.ok.injEq, Option.map_eq_some_iff] at hx
    obtain ⟨b, hb, hheight⟩ := hx
    obtain ⟨hmem, hhash⟩ := mem_of_lastWith _ _ _ hb
    exact ⟨b, hmem, of_decide_eq_true hhash, hheight⟩
  · rw [h.getTxnByHash, Except.ok.injEq] at hx
    obtain ⟨hmem, hhash⟩ := mem_of_lastWith _ _ _ hx
    obtain ⟨b, hb, ht⟩ := List.mem_flatMap.mp hmem
    exact ⟨of_decide_eq_true hhash, b, hb, ht⟩
  · rw [h.nonEmpty, Option.map_eq_some_iff] at hvalue
    obtain ⟨b, hb, hvalue⟩ := hvalue
    obtain ⟨hmem, hp⟩ := mem_of_lastWith _ _ _ hb
    simp only [Bool.and_eq_true, decide_eq_true_eq, Bool.not_eq_true',
      List.isEmpty_eq_false_iff] at hp
    exact ⟨b, hmem, hp.1, hp.2, hvalue.symm⟩

/-- The indexes are exact when the blocks of one height have one hash. -/
theorem Content.exact (hdistinct : Distinct api calls)
    (hone : ∀ b ∈ calls, ∀ b' ∈ calls, api.blockHeight b = api.blockHeight b' →
      api.blockHash b = api.blockHash b') : Exact api db := by
  have hindexed := h.indexed hdistinct
  have hmem : ∀ k b, BlockStoreDb.get db k = .ok (some b) → b ∈ calls := by
    intro k b hb
    obtain ⟨-, before, after, hcalls, -⟩ := h.stored k b hb
    rw [hcalls]
    simp
  refine ⟨fun x k hx b hb => ?_, fun x t hx => ?_, fun k value hvalue => ?_⟩
  · obtain ⟨c, hc, rfl, rfl⟩ := hindexed.hash_history x k hx
    exact hone b (hmem _ b hb) c hc (h.stored _ b hb).1
  · obtain ⟨rfl, c, hc, ht⟩ := hindexed.txn_history x t hx
    obtain ⟨b, hb⟩ := h.stored_of_mem c hc
    have hhash := hone c hc b (hmem _ b hb) (h.stored _ b hb).1.symm
    have hhashes := (hdistinct.block_hash c hc b (hmem _ b hb) hhash).2
    have hin : api.txnHash t ∈ (api.txns b).map api.txnHash := by
      rw [← hhashes]
      exact List.mem_map_of_mem ht
    obtain ⟨t', ht', heq⟩ := List.mem_map.mp hin
    exact ⟨_, b, hb, t', ht', heq⟩
  · obtain ⟨c, hc, rfl, hne, rfl⟩ := hindexed.non_empty_history k value hvalue
    obtain ⟨b, hb⟩ := h.stored_of_mem c hc
    have hhash := hone c hc b (hmem _ b hb) (h.stored _ b hb).1.symm
    have hhashes := (hdistinct.block_hash c hc b (hmem _ b hb) hhash).2
    have hnonEmpty : api.txns b ≠ [] := by
      intro hnil
      rw [hnil, List.map_nil, List.map_eq_nil_iff] at hhashes
      exact hne hhashes
    refine ⟨b, hb, hnonEmpty, ?_⟩
    rw [h.non_empty_found _ b hb hnonEmpty, Option.some_inj] at hvalue
    exact hvalue.symm

theorem Content.one_of_exact (hdistinct : Distinct api calls) (hexact : Exact api db) (b : B)
    (hb : b ∈ calls) (b' : B) (hb' : b' ∈ calls) (hheight : api.blockHeight b = api.blockHeight b') :
    api.blockHash b = api.blockHash b' := by
  have hmaps : ∀ c ∈ calls, BlockStoreDb.getBlockHeightByHash db (api.blockHash c) =
      .ok (some (api.blockHeight c)) := by
    intro c hc
    obtain ⟨d, hd⟩ := lastWith_isSome (fun d => decide (api.blockHash d = api.blockHash c))
      calls c hc (decide_eq_true rfl)
    obtain ⟨hdMem, hdHash⟩ := mem_of_lastWith _ _ _ hd
    have hsame := (hdistinct.block_hash d hdMem c hc (of_decide_eq_true hdHash)).1
    rw [h.getBlockHeightByHash, hd, Option.map_some, hsame]
  obtain ⟨stored, hstored⟩ := h.stored_of_mem b hb
  have hfirst := hexact.hash_exact _ _ (hmaps b hb) stored hstored
  have hsecond := hexact.hash_exact _ _ (hmaps b' hb') stored (hheight ▸ hstored)
  exact hfirst.symm.trans hsecond

end Indexes
theorem Distinct.of_prefix {B T : Type} {api : BlockApi B T} {before calls : List B}
    (h : Distinct api calls) (hbefore : before <+: calls) : Distinct api before :=
  ⟨fun b hb b' hb' => h.block_hash b (hbefore.subset hb) b' (hbefore.subset hb'),
    fun b hb b' hb' => h.txn_hash b (hbefore.subset hb) b' (hbefore.subset hb')⟩

/-- After every call the stored blocks are found in all indexes, and the indexes hold nothing
else exactly as long as no block has been replaced by one with another hash. -/
theorem sets_indexed {B T : Type} (api : BlockApi B T) (calls : List B)
    (hdistinct : Distinct api calls) :
    (∀ before, before <+: calls →
      ∃ db, sets api (create B T) before = .ok db ∧ Indexed api before db) ∧
    ((∀ before, before <+: calls → ∀ db, sets api (create B T) before = .ok db → Exact api db) ↔
      ∀ b ∈ calls, ∀ b' ∈ calls, api.blockHeight b = api.blockHeight b' →
        api.blockHash b = api.blockHash b') := by
  refine ⟨fun before hbefore => ?_, fun hexact => ?_, fun hone before hbefore db hsets => ?_⟩
  · obtain ⟨db, hsets, hcontent⟩ := sets_content api before
    exact ⟨db, hsets, hcontent.indexed (hdistinct.of_prefix hbefore)⟩
  · obtain ⟨db, hsets, hcontent⟩ := sets_content api calls
    exact hcontent.one_of_exact hdistinct (hexact calls (List.prefix_refl _) db hsets)
  · obtain ⟨db', hsets', hcontent⟩ := sets_content api before
    rw [hsets', Except.ok.injEq] at hsets
    subst hsets
    exact hcontent.exact (hdistinct.of_prefix hbefore) fun b hb b' hb' =>
      hone b (hbefore.subset hb) b' (hbefore.subset hb')

/-- Blocks that are a height, a hash and the hashes of their transactions. -/
def dummyApi : BlockApi (Height × CryptoHash × List CryptoHash) CryptoHash :=
  ⟨Prod.fst, fun b => b.2.1, fun b => b.2.2, id⟩

theorem sets_indexed_two :
    (∀ before, before <+: [(1, 0#256, [123#256, 124#256]), (0, 1#256, [])] →
      ∃ db, sets dummyApi (create _ _) before = .ok db ∧ Indexed dummyApi before db) ∧
    ((∀ before, before <+: [(1, 0#256, [123#256, 124#256]), (0, 1#256, [])] →
        ∀ db, sets dummyApi (create _ _) before = .ok db → Exact dummyApi db) ↔
      ∀ b ∈ [(1, 0#256, [123#256, 124#256]), (0, 1#256, [])],
        ∀ b' ∈ [(1, 0#256, [123#256, 124#256]), (0, 1#256, [])],
          dummyApi.blockHeight b = dummyApi.blockHeight b' →
            dummyApi.blockHash b = dummyApi.blockHash b') := by
  refine sets_indexed dummyApi _ ⟨?_, ?_⟩
  · simp [dummyApi]
  · simp [dummyApi]

/-- A block without transactions in place of another one: the old hash still leads to the
height, and the indexes of transactions keep the old block. -/
theorem sets_keeps_replaced :
    Distinct dummyApi [(1, 0#256, [123#256]), (1, 9#256, [])] ∧
      ¬∀ before, before <+: [(1, 0#256, [123#256]), (1, 9#256, [])] →
        ∀ db, sets dummyApi (create _ _) before = .ok db → Exact dummyApi db := by
  have hdistinct : Distinct dummyApi [(1, 0#256, [123#256]), (1, 9#256, [])] := by
    refine ⟨?_, ?_⟩
    · simp [dummyApi]
    · simp [dummyApi]
  refine ⟨hdistinct, fun hexact => ?_⟩
  obtain ⟨db, hsets, hcontent⟩ := sets_content dummyApi [(1, 0#256, [123#256]), (1, 9#256, [])]
  have hone := hcontent.one_of_exact hdistinct (hexact _ (List.prefix_refl _) db hsets)
    (1, 0#256, [123#256]) (by simp) (1, 9#256, []) (by simp) rfl
  exact absurd hone (by decide)

section Node

structure TxnMetadata where
  blockHeight : Height
  blockTime : Option ℕ
  blockHash : CryptoHash
  blockTxnIndex : ℕ

structure TxnFormat where
  txn : UtxoProof
  metadata : TxnMetadata

inductive BlockFormat
  | v1 (block : Block)
  | v2 (block : Block) (timestampUnixS : Option ℕ)

def BlockFormat.intoBlock : BlockFormat → Block
  | v1 block => block
  | v2 block _ => block

def BlockFormat.timestamp : BlockFormat → Option ℕ
  | v1 _ => none
  | v2 _ timestampUnixS => timestampUnixS

variable (env : NodeEnv)

/-- The blocks of a node; a transaction is stored with its place in the chain. -/
def nodeApi : BlockApi BlockFormat TxnFormat where
  blockHeight := fun b => Fin.ofNat (2 ^ 64) b.intoBlock.height
  blockHash := fun b => b.intoBlock.hash env
  txns := fun b => b.intoBlock.content.state.txns.mapIdx fun i t =>
    ⟨t, Fin.ofNat (2 ^ 64) b.intoBlock.height, b.timestamp, b.intoBlock.hash env, i % 2 ^ 32⟩
  txnHash := fun t => t.txn.hash env

/-- The metadata of a record are the height of its block and its position. -/
theorem nodeApi_txns (b : BlockFormat) (i : ℕ) (t : TxnFormat)
    (h : ((nodeApi env).txns b)[i]? = some t) :
    b.intoBlock.content.state.txns[i]? = some t.txn ∧
      t.metadata = ⟨(nodeApi env).blockHeight b, b.timestamp, (nodeApi env).blockHash b,
        i % 2 ^ 32⟩ := by
  change (b.intoBlock.content.state.txns.mapIdx _)[i]? = some t at h
  rw [List.getElem?_mapIdx, Option.map_eq_some_iff] at h
  obtain ⟨txn, htxn, rfl⟩ := h
  exact ⟨htxn, rfl⟩

/-- What the rest of the node reads of the store. -/
def view (db : Db BlockFormat TxnFormat) : BlockStore where
  blocks := fun h =>
    if hh : h < 2 ^ 64 then
      match get db ⟨h, hh⟩ with
      | .ok block => block.map BlockFormat.intoBlock
      | .error _ => none
    else none
  maxHeight :=
    match getMaxHeight db with
    | .ok maxHeight => maxHeight.map Fin.val
    | .error _ => none

/-- A call writes the block and the greatest height as the smaller store does. -/
theorem Content.view_set {calls : List BlockFormat} {db : Db BlockFormat TxnFormat}
    (h : Content (nodeApi env) calls db) (b : BlockFormat) (hb : b.intoBlock.height < 2 ^ 64) :
    ∃ db', BlockStoreDb.set (nodeApi env) db b = .ok db' ∧
      view db' = (view db).set b.intoBlock := by
  obtain ⟨db', hset, hcontent⟩ := h.set b
  have hheight : ((nodeApi env).blockHeight b : ℕ) = b.intoBlock.height := Nat.mod_eq_of_lt hb
  refine ⟨db', hset, ?_⟩
  rw [view, BlockStore.set, hcontent.getMaxHeight, List.map_append, List.map_singleton, max?_concat]
  congr 1
  · funext k
    by_cases hk : k < 2 ^ 64
    · have hsame : (nodeApi env).blockHeight b = ⟨k, hk⟩ ↔ k = b.intoBlock.height := by
        rw [← hheight, Fin.ext_iff]
        exact eq_comm
      rw [dif_pos hk, hcontent.get, lastWith_concat]
      by_cases heq : k = b.intoBlock.height
      · subst heq
        simp [hsame]
      · rw [if_neg (by simpa using fun h => heq (hsame.mp h)), Function.update_of_ne heq]
        simp only [view, dif_pos hk, h.get]
    · have hne : k ≠ b.intoBlock.height := by omega
      rw [dif_neg hk, Function.update_of_ne hne]
      simp only [view, dif_neg hk]
  · simp only [view, h.getMaxHeight]
    cases (calls.map (nodeApi env).blockHeight).max? with
    | none => simp [hheight]
    | some m =>
      have hlt : m < (nodeApi env).blockHeight b ↔ (m : ℕ) < b.intoBlock.height := by
        rw [← hheight, Fin.lt_def]
      by_cases hm : (m : ℕ) < b.intoBlock.height <;> simp [hlt, hm, hheight]

end Node
end PayyRollup.BlockStoreDb
