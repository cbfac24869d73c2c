import PayyRollup.CacheGaps

/-!
The cache of a node that hears only the blocks of one chain, in any order and any number of
times. Such a cache never has two blocks at a height, so its two maps agree. The heights next to
the confirmed one are safe in it: as long as they are fewer than the cache has places, a full
cache always has a greater height to evict. The block after them always finds a place.
-/
namespace PayyRollup.BlockCaches

open NodeBlocks

variable (env : NodeEnv) (chain : ℕ → Block)

/-- The blocks of the chain are at their heights, and have hashes of their own. -/
structure Distinct : Prop where
  height_eq : ∀ height, (chain height).height = height
  hash_inj : ∀ a b, a < 2 ^ 64 → b < 2 ^ 64 → (chain a).hash env = (chain b).hash env → a = b

/-- A cache of blocks of the chain, none of them below the confirmed height. -/
structure Carries (cache : BlockCache) : Prop where
  agrees : Agrees env cache
  chained : ∀ x block, cache.blocks.lookup x = some block →
    block = chain block.height ∧ block.height < 2 ^ 64
  above : ∀ x block, cache.blocks.lookup x = some block → cache.height ≤ block.height

/-- All heights above the confirmed one and up to a bound have a block. -/
def Covers (cache : BlockCache) (bound : ℕ) : Prop :=
  ∀ k, cache.height < k → k ≤ bound → ∃ x, cache.blockHashHeights.lookup k = some x

variable {env chain} {cache : BlockCache}

theorem Distinct.heights_of_hash (h : Distinct env chain) (a b : Block)
    (ha : ∃ k < 2 ^ 64, a = chain k) (hb : ∃ k < 2 ^ 64, b = chain k)
    (hsame : a.hash env = b.hash env) : a.height = b.height := by
  obtain ⟨k, hk, rfl⟩ := ha
  obtain ⟨j, hj, rfl⟩ := hb
  rw [h.hash_inj k j hk hj hsame]

/-- A full cache has a height beyond any bound below its room. -/
theorem Carries.exists_above (h : Carries env chain cache) (bound : ℕ)
    (hroom : bound + 1 - cache.height < cache.maxCacheSize) (hfull : cache.atCapacity = true) :
    bound < cache.lastHeight := by
  have hlength : cache.maxCacheSize ≤ cache.blocks.entries.length := of_decide_eq_true hfull
  by_contra hlast
  have hlookup : ∀ entry ∈ cache.blocks.entries, cache.blocks.lookup entry.1 = some entry.2 :=
    fun entry hentry => AList.mem_lookup_iff.mpr hentry
  have hbetween : ∀ entry ∈ cache.blocks.entries,
      entry.2.height ∈ Finset.Icc cache.height bound := by
    intro entry hentry
    have hfound := hlookup entry hentry
    obtain ⟨hle, -⟩ := lastHeight_spec _ _ (h.agrees.height_of_block _ _ hfound)
    exact Finset.mem_Icc.mpr ⟨h.above _ _ hfound, by omega⟩
  have hnodup : (cache.blocks.entries.map fun entry => entry.2.height).Nodup := by
    refine List.Nodup.map_on ?_ cache.blocks.nodupKeys.nodup
    rintro ⟨x, a⟩ ha ⟨y, b⟩ hb (hsame : a.height = b.height)
    have hx := h.agrees.height_of_block x a (hlookup _ ha)
    have hy := h.agrees.height_of_block y b (hlookup _ hb)
    rw [hsame, hy, Option.some_inj] at hx
    subst hx
    have hvalue : cache.blocks.lookup y = some a := hlookup _ ha
    rw [show cache.blocks.lookup y = some b from hlookup _ hb, Option.some_inj] at hvalue
    rw [hvalue]
  have hcard : (cache.blocks.entries.map fun entry => entry.2.height).length ≤
      (Finset.Icc cache.height bound).card := by
    rw [← List.toFinset_card_of_nodup hnodup]
    refine Finset.card_le_card fun k hk => ?_
    obtain ⟨entry, hentry, rfl⟩ := List.mem_map.mp (List.mem_toFinset.mp hk)
    exact hbetween entry hentry
  rw [List.length_map, Nat.card_Icc] at hcard
  omega

section Inserting

variable (hdistinct : Distinct env chain) (h : Carries env chain cache) (k : ℕ)
  (hk : k < 2 ^ 64)

include hdistinct h hk

/-- The other blocks of the cache are at other heights, and have other hashes. -/
theorem Carries.apart (x : CryptoHash) (other : Block)
    (hx : cache.blocks.lookup x = some other) :
    other.height = (chain k).height ↔ x = (chain k).hash env := by
  have hhash := h.agrees.hashed x other hx
  obtain ⟨hother, hbound⟩ := h.chained x other hx
  rw [hdistinct.height_eq, ← hhash]
  constructor
  · intro hheight
    rw [hother, hheight]
  · intro hsame
    rw [hother] at hsame
    exact hdistinct.hash_inj _ _ hbound hk hsame

theorem Carries.insert : Carries env chain (cache.insert env (chain k)) := by
  by_cases hignored : Ignored cache (chain k)
  · obtain ⟨maxHeight, hinsert⟩ := @insert_of_ignored env cache (chain k) hignored
    rw [hinsert]
    exact ⟨⟨h.agrees.hashed, h.agrees.same⟩, h.chained, h.above⟩
  · have hroom := h.agrees.makeRoom (chain k)
    have hheight := (@makeRoom_heights cache (chain k)).1
    have hkept : ∀ x other, (cache.makeRoom (chain k)).blocks.lookup x = some other →
        cache.blocks.lookup x = some other :=
      fun x other hx => ((h.agrees.lookup_makeRoom (chain k) x other).mp hx).1
    have hput := hroom.put (chain k) fun x other hx =>
      h.apart hdistinct k hk x other (hkept x other hx)
    rw [insert_of_not_ignored (chain k) hignored]
    refine ⟨hput, ?_, ?_⟩
    · intro x other hx
      rw [lookup_put_block] at hx
      split at hx
      · rw [← Option.some.inj hx, hdistinct.height_eq]
        exact ⟨rfl, hk⟩
      · exact h.chained x other (hkept x other hx)
    · intro x other hx
      change (cache.makeRoom (chain k)).height ≤ _
      rw [hheight]
      rw [lookup_put_block] at hx
      split at hx
      · rw [← Option.some.inj hx]
        exact Nat.not_lt.mp fun hold => hignored (Or.inl hold)
      · exact h.above x other (hkept x other hx)

/-- With room for the heights up to a bound, an insertion loses none of them, and the next block
is put behind them. -/
theorem Carries.insert_covers (bound : ℕ) (hcovers : Covers cache bound)
    (hroom : bound + 1 - cache.height < cache.maxCacheSize) :
    Covers (cache.insert env (chain k)) bound ∧
      (k = bound + 1 → Covers (cache.insert env (chain k)) k) := by
  have hheight := hdistinct.height_eq k
  by_cases hignored : Ignored cache (chain k)
  · obtain ⟨maxHeight, hinsert⟩ := @insert_of_ignored env cache (chain k) hignored
    rw [hinsert]
    refine ⟨hcovers, ?_⟩
    rintro rfl j (hj : cache.height < j) hle
    rcases hignored with hold | ⟨hfull, hlast⟩
    · omega
    · have habove := h.exists_above bound hroom hfull
      omega
  · rw [insert_of_not_ignored (chain k) hignored]
    have hkept : Covers ((cache.makeRoom (chain k)).put env (chain k)) bound := by
      intro j (hj : (cache.makeRoom (chain k)).height < j) hle
      rw [(makeRoom_heights (chain k)).1] at hj
      rw [lookup_put_height]
      split
      · exact ⟨_, rfl⟩
      · obtain ⟨x, hx⟩ := hcovers j hj hle
        obtain ⟨other, hother, hotherHeight, -⟩ := h.agrees.block_of_height j x hx
        refine ⟨x, hotherHeight ▸ (h.agrees.makeRoom (chain k)).height_of_block x other
          ((h.agrees.lookup_makeRoom (chain k) x other).mpr ⟨hother, fun hfull => ?_⟩)⟩
        have habove := h.exists_above bound hroom hfull
        omega
    refine ⟨hkept, ?_⟩
    rintro rfl j hj hle
    by_cases hnew : j = bound + 1
    · exact ⟨_, by rw [lookup_put_height, if_pos (hnew.trans hheight.symm)]⟩
    · exact hkept j hj (by omega)

end Inserting

/-- A cache with only its first block. -/
theorem carries_new (hdistinct : Distinct env chain) (k : ℕ) (hk : k < 2 ^ 64)
    (maxCacheSize : ℕ) : Carries env chain (BlockCache.new env (chain k) maxCacheSize) := by
  have hempty : Carries env chain ⟨(chain k).height, (chain k).height, ∅, ∅, maxCacheSize⟩ := by
    refine ⟨⟨fun x block hx => ?_, fun height x => ?_⟩, fun x block hx => ?_, fun x block hx => ?_⟩
    · cases hx
    · exact ⟨fun hx => (by cases hx), fun ⟨block, hx, _⟩ => (by cases hx)⟩
    · cases hx
    · cases hx
  exact hempty.insert hdistinct k hk

section Confirming

variable (h : Carries env chain cache) (bound : ℕ)

include h in
theorem Carries.confirm (height : ℕ) : Carries env chain (cache.confirm height) := by
  have hagrees := (h.agrees.confirm height).1
  refine ⟨hagrees, fun x block hx => h.chained x block (confirm_blocks height x block hx), ?_⟩
  intro x block hx
  have hlookup := hagrees.height_of_block x block hx
  rw [confirm_lookup] at hlookup
  rw [confirm_height]
  by_contra hlow
  rw [if_pos (Nat.not_le.mp hlow)] at hlookup
  cases hlookup

theorem remove_maxCacheSize (x : CryptoHash) :
    (cache.remove x).maxCacheSize = cache.maxCacheSize := by
  unfold BlockCache.remove
  split
  · rfl
  · rfl

include h in
theorem Carries.remove (x : CryptoHash) : Carries env chain (cache.remove x) := by
  have hkept : ∀ y block, (cache.remove x).blocks.lookup y = some block →
      cache.blocks.lookup y = some block := (remove_sub x).1
  refine ⟨h.agrees.remove x, fun y block hy => h.chained y block (hkept y block hy), ?_⟩
  intro y block hy
  rw [remove_height]
  exact h.above y block (hkept y block hy)

theorem Covers.confirm (hcovers : Covers cache bound) (height : ℕ) (hle : cache.height ≤ height) :
    Covers (cache.confirm height) bound := by
  intro k hk hbound
  rw [confirm_height] at hk
  rw [confirm_lookup, if_neg (by omega)]
  exact hcovers k (by omega) hbound

include h in
/-- The next block to commit is the next one of the chain. -/
theorem Carries.next (block : Block)
    (hnext : cache.getNextCommitBlock = some block) : block = chain (cache.height + 1) := by
  obtain ⟨-, hheight⟩ := h.agrees.available_of_reported _ block hnext
  obtain ⟨x, -, hlookup⟩ := Option.bind_eq_some_iff.mp hnext
  rw [(h.chained x block hlookup).1, hheight]

include h in
theorem Carries.bound_le (hcovers : Covers cache bound)
    (hnone : cache.getNextCommitBlock = none) : bound ≤ cache.height := by
  by_contra hbehind
  obtain ⟨x, hx⟩ := hcovers (cache.height + 1) (Nat.lt_succ_self _) (by omega)
  obtain ⟨block, hblock, -⟩ := h.agrees.block_of_height _ x hx
  rw [BlockCache.getNextCommitBlock, BlockCache.getByHeight, hx, Option.bind_some, hblock] at hnone
  cases hnone

end Confirming

end PayyRollup.BlockCaches
