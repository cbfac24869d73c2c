import PayyRollup.BlockCaches
import PayyRollup.PrefixRuns

/-!
When the two maps of the block cache agree. Beside the cache runs a list of the blocks that
were confirmed, or reported for the confirmed height, and have not been passed by a greater
height. An insertion keeps the maps in agreement when every other block at its height is
evicted by it, and it keeps the confirmed blocks when it neither replaces nor evicts one. The
other operations are at fault only when they remove a confirmed block.
-/
namespace PayyRollup.BlockCaches

open NodeBlocks PrefixRuns

variable (env : NodeEnv)

/-- Blocks are kept by their hash, and the two maps have the same heights and hashes. -/
structure Agrees (cache : BlockCache) : Prop where
  hashed : ∀ x block, cache.blocks.lookup x = some block → block.hash env = x
  same : ∀ h x, cache.blockHashHeights.lookup h = some x ↔
    ∃ block, cache.blocks.lookup x = some block ∧ block.height = h

/-- A block is found under its hash and its height. -/
structure Available (cache : BlockCache) (block : Block) : Prop where
  by_hash : cache.blocks.lookup (block.hash env) = some block
  by_height : cache.blockHashHeights.lookup block.height = some (block.hash env)

inductive Op
  | insert (block : Block)
  | confirm (height : ℕ)
  | remove (hash : CryptoHash)

/-- A cache with the blocks that were confirmed and have not been passed. -/
structure Watched where
  cache : BlockCache
  confirmed : List Block

namespace Watched

/-- A block that is reported for the confirmed height is a confirmed one. -/
def report (cache : BlockCache) (confirmed : List Block) : Watched :=
  ⟨cache, confirmed ++ (cache.getByHeight cache.height).toList⟩

def new (startBlock : Block) (maxCacheSize : ℕ) : Watched :=
  report (BlockCache.new env startBlock maxCacheSize) [startBlock]

def step (w : Watched) : Op → Watched
  | .insert block => report (w.cache.insert env block) w.confirmed
  | .confirm height =>
      report (w.cache.confirm height)
        (w.confirmed.filter fun block => decide (height ≤ block.height))
  | .remove hash => report (w.cache.remove hash) w.confirmed

def run (w : Watched) (ops : List Op) : Watched := ops.foldl (step env) w

/-- The maps agree, the cache is not too large and the confirmed blocks are available. -/
structure Sound (w : Watched) : Prop where
  agrees : ∀ h x, w.cache.blockHashHeights.lookup h = some x ↔
    ∃ block, w.cache.blocks.lookup x = some block ∧ block.height = h
  bounded : w.cache.blocks.entries.length ≤ w.cache.maxCacheSize
  available : ∀ block ∈ w.confirmed, Available env w.cache block

end Watched

/-- The block is old, or above a full cache. -/
def Ignored (cache : BlockCache) (block : Block) : Prop :=
  block.height < cache.height ∨ cache.atCapacity = true ∧ cache.lastHeight < block.height

/-- The blocks at the height of an inserted block, other than one that is evicted, are those of
its hash, and it takes the place of no confirmed block. -/
structure Fits (w : Watched) (block : Block) : Prop where
  apart : ∀ x other, w.cache.blocks.lookup x = some other →
    (w.cache.atCapacity = true → other.height ≠ w.cache.lastHeight) →
      (other.height = block.height ↔ x = block.hash env)
  confirmed : ∀ other ∈ w.confirmed, other.height = block.height ∨
    w.cache.atCapacity = true ∧ other.height = w.cache.lastHeight → other = block

def Permitted (w : Watched) : Op → Prop
  | .insert block => Ignored w.cache block ∨ Fits env w block
  | .confirm _ => True
  | .remove hash => ∀ block ∈ w.confirmed, block.hash env ≠ hash

variable {env} {cache : BlockCache}

section Removing

theorem Agrees.block_of_height (h : Agrees env cache) (k : ℕ) (x : CryptoHash)
    (hk : cache.blockHashHeights.lookup k = some x) :
    ∃ block, cache.blocks.lookup x = some block ∧ block.height = k ∧ block.hash env = x := by
  obtain ⟨block, hblock, hheight⟩ := (h.same k x).mp hk
  exact ⟨block, hblock, hheight, h.hashed x block hblock⟩

theorem Agrees.height_of_block (h : Agrees env cache) (x : CryptoHash) (block : Block)
    (hblock : cache.blocks.lookup x = some block) :
    cache.blockHashHeights.lookup block.height = some x :=
  (h.same block.height x).mpr ⟨block, hblock, rfl⟩

/-- What removing a hash leaves. -/
theorem Agrees.lookup_remove (h : Agrees env cache) (x : CryptoHash) :
    (∀ y, (cache.remove x).blocks.lookup y = if y = x then none else cache.blocks.lookup y) ∧
      ∀ k, (cache.remove x).blockHashHeights.lookup k =
        if cache.blockHashHeights.lookup k = some x then none
        else cache.blockHashHeights.lookup k := by
  unfold BlockCache.remove
  cases hx : cache.blocks.lookup x with
  | none =>
    refine ⟨fun y => ?_, fun k => ?_⟩
    · by_cases hy : y = x
      · rw [if_pos hy, hy]
        exact hx
      · rw [if_neg hy]
    · rw [if_neg]
      intro hk
      obtain ⟨block, hblock, -⟩ := h.block_of_height k x hk
      rw [hx] at hblock
      cases hblock
  | some block =>
    refine ⟨fun y => ?_, fun k => ?_⟩
    · by_cases hy : y = x
      · rw [if_pos hy, hy]
        exact AList.lookup_erase x _
      · rw [if_neg hy]
        exact AList.lookup_erase_ne hy
    · by_cases hk : cache.blockHashHeights.lookup k = some x
      · rw [if_pos hk]
        obtain ⟨other, hother, hheight, -⟩ := h.block_of_height k x hk
        rw [hx, Option.some_inj] at hother
        rw [← hheight, ← hother]
        exact AList.lookup_erase _ _
      · rw [if_neg hk]
        apply AList.lookup_erase_ne
        rintro rfl
        exact hk (h.height_of_block x block hx)

theorem Agrees.remove (h : Agrees env cache) (x : CryptoHash) : Agrees env (cache.remove x) := by
  obtain ⟨hblocks, hheights⟩ := h.lookup_remove x
  refine ⟨fun y block hy => h.hashed y block ((remove_sub x).1 y block hy), fun k y => ?_⟩
  rw [hblocks, hheights]
  by_cases hy : y = x
  · subst hy
    rw [if_pos rfl]
    refine iff_of_false ?_ (by simp)
    split
    · simp
    · assumption
  · rw [if_neg hy, ← h.same]
    split
    · rename_i hk
      rw [hk, Option.some_inj]
      exact iff_of_false (by simp) (Ne.symm hy)
    · exact Iff.rfl

/-- In agreement, removing a height is removing its hash. -/
theorem Agrees.removeHeight (h : Agrees env cache) (k : ℕ) :
    Agrees env (cache.removeHeight k) := by
  unfold BlockCache.removeHeight
  cases hk : cache.blockHashHeights.lookup k with
  | none => exact h
  | some x =>
    obtain ⟨block, hblock, rfl, -⟩ := h.block_of_height k x hk
    have hremove := h.remove x
    rw [BlockCache.remove, hblock] at hremove
    exact hremove

theorem length_erase {K V : Type} [DecidableEq K] (s : AList fun _ : K => V) (k : K) :
    (s.erase k).entries.length =
      if k ∈ s then s.entries.length - 1 else s.entries.length := by
  have hkeys : ∀ t : AList fun _ : K => V, t.entries.length = t.keys.length := fun t => by
    rw [AList.keys, List.keys, List.length_map]
  rw [hkeys, hkeys, AList.keys_erase, List.length_erase]
  exact if_congr (Iff.symm AList.mem_keys) rfl rfl

theorem length_insert {K V : Type} [DecidableEq K] (s : AList fun _ : K => V) (k : K) (v : V) :
    (s.insert k v).entries.length = (s.erase k).entries.length + 1 := rfl

theorem length_remove (x : CryptoHash) :
    (cache.remove x).blocks.entries.length =
      if x ∈ cache.blocks then cache.blocks.entries.length - 1
      else cache.blocks.entries.length := by
  rw [← length_erase]
  unfold BlockCache.remove
  cases hx : cache.blocks.lookup x with
  | none =>
    have hnot : x ∉ cache.blocks := AList.lookup_eq_none.mp hx
    rw [length_erase, if_neg hnot]
  | some block => rfl

theorem length_removeHeight_le (k : ℕ) :
    (cache.removeHeight k).blocks.entries.length ≤ cache.blocks.entries.length := by
  unfold BlockCache.removeHeight
  split
  · rw [show ({ cache with
        blockHashHeights := cache.blockHashHeights.erase k
        blocks := cache.blocks.erase _ } : BlockCache).blocks = cache.blocks.erase _ from rfl,
      length_erase]
    split
    · omega
    · omega
  · exact le_refl _

end Removing

section Confirming

/-- Confirming keeps the maps in agreement and adds nothing. -/
theorem Agrees.foldl_removeHeight (h : Agrees env cache) (heights : List ℕ) :
    Agrees env (heights.foldl BlockCache.removeHeight cache) ∧
      (heights.foldl BlockCache.removeHeight cache).blocks.entries.length ≤
        cache.blocks.entries.length ∧
      (heights.foldl BlockCache.removeHeight cache).maxCacheSize = cache.maxCacheSize := by
  induction heights generalizing cache with
  | nil => exact ⟨h, le_refl _, rfl⟩
  | cons k rest ih =>
    obtain ⟨hagrees, hlength, hmax⟩ := ih (h.removeHeight k)
    refine ⟨hagrees, hlength.trans (length_removeHeight_le k), hmax.trans ?_⟩
    unfold BlockCache.removeHeight
    split <;> rfl

theorem Agrees.confirm (h : Agrees env cache) (height : ℕ) : Agrees env (cache.confirm height) ∧
    (cache.confirm height).blocks.entries.length ≤ cache.blocks.entries.length ∧
    (cache.confirm height).maxCacheSize = cache.maxCacheSize :=
  (show Agrees env { cache with height } from ⟨h.hashed, h.same⟩).foldl_removeHeight _

/-- A block that is not below the confirmed height stays. -/
theorem Available.confirm {block : Block} (h : Available env cache block)
    (hagrees : Agrees env cache) (height : ℕ) (hheight : height ≤ block.height) :
    Available env (cache.confirm height) block := by
  have hlookup : (cache.confirm height).blockHashHeights.lookup block.height =
      some (block.hash env) := by
    rw [confirm_lookup, if_neg (by omega)]
    exact h.by_height
  refine ⟨?_, hlookup⟩
  obtain ⟨other, hother, -⟩ := (hagrees.confirm height).1.block_of_height _ _ hlookup
  have hold := confirm_blocks height _ other hother
  rw [h.by_hash, Option.some_inj] at hold
  subst hold
  exact hother

theorem Agrees.available_of_reported (h : Agrees env cache) (k : ℕ) (block : Block)
    (hblock : cache.getByHeight k = some block) : Available env cache block ∧ block.height = k := by
  obtain ⟨x, hx, hlookup⟩ := Option.bind_eq_some_iff.mp hblock
  obtain ⟨other, hother, hheight, hhash⟩ := h.block_of_height k x hx
  rw [hlookup, Option.some_inj] at hother
  subst hother
  exact ⟨⟨by rw [hhash]; exact hlookup, by rw [hhash, hheight]; exact hx⟩, hheight⟩

end Confirming

section Inserting

variable (env) in
/-- Both entries of a block. -/
def BlockCache.put (self : BlockCache) (block : Block) : BlockCache :=
  { self with
    blockHashHeights := self.blockHashHeights.insert block.height (block.hash env)
    blocks := self.blocks.insert (block.hash env) block }

/-- A full cache loses the block at its greatest height. -/
def BlockCache.makeRoom (self : BlockCache) (block : Block) : BlockCache :=
  let seen := { self with maxHeight := max self.maxHeight block.height }
  if self.atCapacity = true then seen.remove self.lastHash else seen

theorem insert_of_not_ignored (block : Block) (h : ¬Ignored cache block) :
    cache.insert env block = (cache.makeRoom block).put env block := by
  unfold Ignored at h
  push Not at h
  unfold BlockCache.insert
  rw [if_neg (by omega)]
  dsimp only
  rw [if_neg (fun hfull => absurd hfull.2 (by have := h.2 hfull.1; omega))]
  rfl

theorem insert_of_ignored (block : Block) (h : Ignored cache block) :
    ∃ maxHeight, cache.insert env block = { cache with maxHeight } := by
  unfold BlockCache.insert
  by_cases hold : block.height < cache.height
  · exact ⟨cache.maxHeight, if_pos hold⟩
  · have hfull := h.resolve_left hold
    exact ⟨max cache.maxHeight block.height, by rw [if_neg hold, if_pos hfull]⟩

section Put

variable (block : Block)

theorem lookup_put_block (x : CryptoHash) : (cache.put env block).blocks.lookup x =
    if x = block.hash env then some block else cache.blocks.lookup x := by
  by_cases hx : x = block.hash env
  · rw [if_pos hx, hx]
    exact AList.lookup_insert _
  · rw [if_neg hx]
    exact AList.lookup_insert_ne hx

theorem lookup_put_height (k : ℕ) : (cache.put env block).blockHashHeights.lookup k =
    if k = block.height then some (block.hash env) else cache.blockHashHeights.lookup k := by
  by_cases hk : k = block.height
  · rw [if_pos hk, hk]
    exact AList.lookup_insert _
  · rw [if_neg hk]
    exact AList.lookup_insert_ne hk

/-- The maps agree after a block is put only if it is apart from the others. -/
theorem Agrees.apart_of_put (h : Agrees env cache)
    (hsame : ∀ k x, (cache.put env block).blockHashHeights.lookup k = some x ↔
      ∃ other, (cache.put env block).blocks.lookup x = some other ∧ other.height = k)
    (x : CryptoHash) (other : Block) (hx : cache.blocks.lookup x = some other) :
    other.height = block.height ↔ x = block.hash env := by
  have hheight := h.height_of_block x other hx
  constructor
  · intro heq
    by_contra hne
    have hput := (hsame other.height x).mpr ⟨other, by rw [lookup_put_block, if_neg hne]; exact hx,
      rfl⟩
    rw [lookup_put_height, if_pos heq, Option.some_inj] at hput
    exact hne hput.symm
  · rintro rfl
    by_contra hne
    obtain ⟨found, hfound, hfoundHeight⟩ := (hsame other.height (block.hash env)).mp
      (by rw [lookup_put_height, if_neg hne]; exact hheight)
    rw [lookup_put_block, if_pos rfl, Option.some_inj] at hfound
    subst hfound
    exact hne hfoundHeight.symm

variable (hapart : ∀ x other, cache.blocks.lookup x = some other →
  (other.height = block.height ↔ x = block.hash env))

include hapart

theorem Agrees.put (h : Agrees env cache) : Agrees env (cache.put env block) := by
  constructor
  · intro x other hx
    rw [lookup_put_block] at hx
    split at hx
    · rename_i heq
      rw [heq, ← Option.some.inj hx]
    · exact h.hashed x other hx
  · intro k x
    rw [lookup_put_height, lookup_put_block]
    by_cases hx : x = block.hash env
    · subst hx
      rw [if_pos rfl]
      by_cases hk : k = block.height
      · subst hk
        rw [if_pos rfl]
        exact iff_of_true rfl ⟨block, rfl, rfl⟩
      · rw [if_neg hk]
        refine iff_of_false ?_ ?_
        · intro hlookup
          obtain ⟨other, hother, hheight, -⟩ := h.block_of_height k _ hlookup
          exact hk (hheight.symm.trans ((hapart _ other hother).mpr rfl))
        · rintro ⟨other, hother, hheight⟩
          obtain rfl := Option.some.inj hother
          exact hk hheight.symm
    · rw [if_neg hx]
      by_cases hk : k = block.height
      · subst hk
        rw [if_pos rfl]
        refine iff_of_false (fun heq => hx (Option.some.inj heq).symm) ?_
        rintro ⟨other, hother, hheight⟩
        exact hx ((hapart x other hother).mp hheight)
      · rw [if_neg hk]
        exact h.same k x

theorem available_put (other : Block) : Available env (cache.put env block) other ↔
    other = block ∨ Available env cache other ∧ other.height ≠ block.height := by
  constructor
  · rintro ⟨hhash, hheight⟩
    rw [lookup_put_block] at hhash
    split at hhash
    · exact Or.inl (Option.some.inj hhash).symm
    · rename_i hne
      have hother : other.height ≠ block.height := fun heq => hne ((hapart _ other hhash).mp heq)
      rw [lookup_put_height, if_neg hother] at hheight
      exact Or.inr ⟨⟨hhash, hheight⟩, hother⟩
  · rintro (rfl | ⟨⟨hhash, hheight⟩, hother⟩)
    · exact ⟨by rw [lookup_put_block, if_pos rfl], by rw [lookup_put_height, if_pos rfl]⟩
    · have hne : other.hash env ≠ block.hash env := fun heq =>
        hother ((hapart _ other hhash).mpr heq)
      exact ⟨by rw [lookup_put_block, if_neg hne]; exact hhash,
        by rw [lookup_put_height, if_neg hother]; exact hheight⟩

end Put

section Room

variable (block : Block) (h : Agrees env cache)

include h

theorem Agrees.makeRoom : Agrees env (cache.makeRoom block) := by
  have hseen : Agrees env { cache with maxHeight := max cache.maxHeight block.height } :=
    ⟨h.hashed, h.same⟩
  unfold BlockCache.makeRoom
  split
  · exact hseen.remove _
  · exact hseen

/-- The greatest height is that of the block with the last hash. -/
theorem Agrees.last_iff (x : CryptoHash) (other : Block)
    (hx : cache.blocks.lookup x = some other) :
    other.height = cache.lastHeight ↔ x = cache.lastHash := by
  have hheight := h.height_of_block x other hx
  obtain ⟨-, hlast⟩ := lastHeight_spec _ _ hheight
  constructor
  · intro heq
    rw [heq, hlast, Option.some_inj] at hheight
    exact hheight.symm
  · rintro rfl
    obtain ⟨found, hfound, hfoundHeight, -⟩ := h.block_of_height _ _ hlast
    rw [hx, Option.some_inj] at hfound
    rw [hfound]
    exact hfoundHeight

/-- Making room evicts the block at the greatest height of a full cache. -/
theorem Agrees.lookup_makeRoom (x : CryptoHash) (other : Block) :
    (cache.makeRoom block).blocks.lookup x = some other ↔ cache.blocks.lookup x = some other ∧
      (cache.atCapacity = true → other.height ≠ cache.lastHeight) := by
  have hseen : Agrees env { cache with maxHeight := max cache.maxHeight block.height } :=
    ⟨h.hashed, h.same⟩
  unfold BlockCache.makeRoom
  by_cases hfull : cache.atCapacity = true
  · simp only [hfull, ↓reduceIte, (hseen.lookup_remove cache.lastHash).1, forall_const]
    constructor
    · intro hlookup
      split at hlookup
      · cases hlookup
      · rename_i hne
        exact ⟨hlookup, fun heq => hne ((h.last_iff x other hlookup).mp heq)⟩
    · rintro ⟨hlookup, hlast⟩
      rw [if_neg (fun heq => hlast ((h.last_iff x other hlookup).mpr heq))]
      exact hlookup
  · simp [hfull]

theorem Agrees.available_makeRoom (other : Block) :
    Available env (cache.makeRoom block) other ↔ Available env cache other ∧
      (cache.atCapacity = true → other.height ≠ cache.lastHeight) := by
  constructor
  · rintro ⟨hhash, -⟩
    obtain ⟨hlookup, hlast⟩ := (h.lookup_makeRoom block _ other).mp hhash
    exact ⟨⟨hlookup, h.height_of_block _ other hlookup⟩, hlast⟩
  · rintro ⟨⟨hhash, -⟩, hlast⟩
    have hlookup := (h.lookup_makeRoom block _ other).mpr ⟨hhash, hlast⟩
    exact ⟨hlookup, (h.makeRoom block).height_of_block _ other hlookup⟩

/-- With room made, one more block does not exceed a positive maximum. -/
theorem Agrees.length_put_makeRoom (hmax : 0 < cache.maxCacheSize)
    (hbounded : cache.blocks.entries.length ≤ cache.maxCacheSize) :
    ((cache.makeRoom block).put env block).blocks.entries.length ≤ cache.maxCacheSize := by
  have hput : ((cache.makeRoom block).put env block).blocks.entries.length ≤
      (cache.makeRoom block).blocks.entries.length + 1 := by
    change ((cache.makeRoom block).blocks.insert (block.hash env) block).entries.length ≤ _
    rw [length_insert, length_erase]
    split
    · omega
    · omega
  refine hput.trans ?_
  unfold BlockCache.makeRoom
  by_cases hfull : cache.atCapacity = true
  · have hlength : cache.maxCacheSize ≤ cache.blocks.entries.length := of_decide_eq_true hfull
    have hlast : cache.lastHash ∈ cache.blocks := by
      cases hentries : cache.blocks.entries with
      | nil =>
        rw [hentries, List.length_nil] at hlength
        omega
      | cons entry rest =>
        have hfound : cache.blocks.lookup entry.1 = some entry.2 :=
          AList.mem_lookup_iff.mpr (by rw [hentries]; exact List.mem_cons_self)
        obtain ⟨-, hheight⟩ := lastHeight_spec _ _ (h.height_of_block _ _ hfound)
        obtain ⟨other, hother, -⟩ := h.block_of_height _ _ hheight
        exact AList.lookup_isSome.mp (by rw [hother]; rfl)
    rw [if_pos hfull, length_remove, if_pos hlast]
    change cache.blocks.entries.length - 1 + 1 ≤ _
    omega
  · rw [if_neg hfull]
    have hroom : cache.blocks.entries.length < cache.maxCacheSize := by
      unfold BlockCache.atCapacity at hfull
      simpa using hfull
    exact hroom

end Room

end Inserting

section Running

/-- What every permitted operation keeps. -/
structure Watched.Inv (env : NodeEnv) (w : Watched) : Prop where
  agrees : Agrees env w.cache
  positive : 0 < w.cache.maxCacheSize
  bounded : w.cache.blocks.entries.length ≤ w.cache.maxCacheSize
  available : ∀ block ∈ w.confirmed, Available env w.cache block

theorem Agrees.report (h : Agrees env cache) (confirmed : List Block)
    (hpositive : 0 < cache.maxCacheSize)
    (hbounded : cache.blocks.entries.length ≤ cache.maxCacheSize)
    (havailable : ∀ block ∈ confirmed, Available env cache block) :
    (Watched.report cache confirmed).Inv env := by
  refine ⟨h, hpositive, hbounded, fun block hblock => ?_⟩
  rcases List.mem_append.mp hblock with hold | hreported
  · exact havailable block hold
  · exact (h.available_of_reported _ block (Option.mem_toList.mp hreported)).1

theorem Watched.Sound.of_report {confirmed : List Block}
    (h : (Watched.report cache confirmed).Sound env) (block : Block) (hblock : block ∈ confirmed) :
    Available env cache block := h.available block (List.mem_append_left _ hblock)

variable {w : Watched}

theorem insert_maxCacheSize (block : Block) :
    (cache.insert env block).maxCacheSize = cache.maxCacheSize := by
  have hremove : ∀ (c : BlockCache) (x : CryptoHash),
      (c.remove x).maxCacheSize = c.maxCacheSize := by
    intro c x
    unfold BlockCache.remove
    split <;> rfl
  unfold BlockCache.insert
  split
  · rfl
  · dsimp only
    split
    · rfl
    · split
      · exact hremove _ _
      · rfl

theorem Watched.Inv.insert (h : w.Inv env) (block : Block)
    (hfits : Ignored w.cache block ∨ Fits env w block) :
    (w.step env (.insert block)).Inv env := by
  by_cases hignored : Ignored w.cache block
  · obtain ⟨maxHeight, hinsert⟩ : ∃ maxHeight, w.cache.insert env block =
        { w.cache with maxHeight } := insert_of_ignored block hignored
    have hagrees : Agrees env { w.cache with maxHeight } := ⟨h.agrees.hashed, h.agrees.same⟩
    change (Watched.report (w.cache.insert env block) w.confirmed).Inv env
    rw [hinsert]
    exact hagrees.report _ h.positive h.bounded fun b hb => ⟨(h.available b hb).by_hash,
      (h.available b hb).by_height⟩
  · have hfit := hfits.resolve_left hignored
    have hapart : ∀ x other, (w.cache.makeRoom block).blocks.lookup x = some other →
        (other.height = block.height ↔ x = block.hash env) := by
      intro x other hx
      obtain ⟨hx, hlast⟩ := (h.agrees.lookup_makeRoom block x other).mp hx
      exact hfit.apart x other hx hlast
    have hmax : (w.cache.insert env block).maxCacheSize = w.cache.maxCacheSize :=
      insert_maxCacheSize block
    have hlength := h.agrees.length_put_makeRoom block h.positive h.bounded
    change (Watched.report (w.cache.insert env block) w.confirmed).Inv env
    rw [insert_of_not_ignored block hignored] at hmax ⊢
    refine ((h.agrees.makeRoom block).put block hapart).report _ (hmax ▸ h.positive)
      (hmax ▸ hlength) fun other hother => ?_
    rw [available_put block hapart, h.agrees.available_makeRoom]
    by_cases hsame : other = block
    · exact Or.inl hsame
    · have hplace := fun hplace => hsame (hfit.confirmed other hother hplace)
      exact Or.inr ⟨⟨h.available other hother, fun hfull hlast => hplace (Or.inr ⟨hfull, hlast⟩)⟩,
        fun heq => hplace (Or.inl heq)⟩

theorem Watched.Inv.fits (h : w.Inv env) (block : Block)
    (hsound : (w.step env (.insert block)).Sound env) :
    Ignored w.cache block ∨ Fits env w block := by
  by_cases hignored : Ignored w.cache block
  · exact Or.inl hignored
  · change (Watched.report (w.cache.insert env block) w.confirmed).Sound env at hsound
    rw [insert_of_not_ignored block hignored] at hsound
    have hapart := (h.agrees.makeRoom block).apart_of_put block hsound.agrees
    refine Or.inr ⟨fun x other hx hlast => ?_, fun other hother hplace => ?_⟩
    · exact hapart x other ((h.agrees.lookup_makeRoom block x other).mpr ⟨hx, hlast⟩)
    · have havailable := hsound.of_report other hother
      rw [available_put block hapart, h.agrees.available_makeRoom] at havailable
      rcases havailable with hsame | ⟨⟨-, hlast⟩, hheight⟩
      · exact hsame
      · rcases hplace with heq | ⟨hfull, heq⟩
        · exact absurd heq hheight
        · exact absurd heq (hlast hfull)

theorem Watched.Inv.confirm (h : w.Inv env) (height : ℕ) :
    (w.step env (.confirm height)).Inv env := by
  obtain ⟨hagrees, hlength, hmax⟩ := h.agrees.confirm height
  refine hagrees.report _ (hmax ▸ h.positive) (hmax ▸ hlength.trans h.bounded)
    fun block hblock => ?_
  obtain ⟨hold, hheight⟩ := List.mem_filter.mp hblock
  exact (h.available block hold).confirm h.agrees height (of_decide_eq_true hheight)

theorem Watched.Inv.remove_iff (h : w.Inv env) (hash : CryptoHash) :
    ((w.step env (.remove hash)).Sound env → ∀ block ∈ w.confirmed, block.hash env ≠ hash) ∧
      ((∀ block ∈ w.confirmed, block.hash env ≠ hash) → (w.step env (.remove hash)).Inv env) := by
  obtain ⟨hblocks, hheights⟩ := h.agrees.lookup_remove hash
  constructor
  · intro hsound block hblock heq
    have havailable := (hsound.of_report block hblock).by_hash
    rw [hblocks, if_pos heq] at havailable
    cases havailable
  · intro hother
    have hlength : (w.cache.remove hash).blocks.entries.length ≤ w.cache.blocks.entries.length := by
      rw [length_remove]
      split
      · omega
      · omega
    have hmax : (w.cache.remove hash).maxCacheSize = w.cache.maxCacheSize := by
      unfold BlockCache.remove
      split <;> rfl
    refine (h.agrees.remove hash).report _ (hmax ▸ h.positive) (hmax ▸ hlength.trans h.bounded)
      fun block hblock => ?_
    obtain ⟨hhash, hheight⟩ := h.available block hblock
    have hne := hother block hblock
    refine ⟨by rw [hblocks, if_neg hne]; exact hhash, ?_⟩
    rw [hheights, hheight, if_neg]
    rw [Option.some_inj]
    exact hne

/-- The permitted operations are those after which the cache is sound. -/
theorem permitted_criterion : Criterion (Watched.step env) (fun _ => True) (Watched.Inv env)
    (Watched.Sound env) (Permitted env) where
  good _ h := ⟨h.agrees.same, h.bounded, h.available⟩
  necessary w op _ _ h hsound := by
    cases op with
    | insert block => exact h.fits block hsound
    | confirm height => trivial
    | remove hash => exact (h.remove_iff hash).1 hsound
  sufficient w op _ _ h hpermitted := by
    cases op with
    | insert block => exact h.insert block hpermitted
    | confirm height => exact h.confirm height
    | remove hash => exact (h.remove_iff hash).2 hpermitted

theorem new_inv (startBlock : Block) (maxCacheSize : ℕ) (hmax : 0 < maxCacheSize) :
    (Watched.new env startBlock maxCacheSize).Inv env := by
  let empty : BlockCache := ⟨startBlock.height, startBlock.height, ∅, ∅, maxCacheSize⟩
  have hagrees : Agrees env empty := by
    refine ⟨fun x block hx => ?_, fun h x => ?_⟩
    · rw [AList.lookup_empty] at hx
      cases hx
    · rw [AList.lookup_empty]
      refine iff_of_false (by simp) ?_
      rintro ⟨block, hx, -⟩
      rw [AList.lookup_empty] at hx
      cases hx
  have hfull : ¬empty.atCapacity = true := by
    simpa [BlockCache.atCapacity, empty] using hmax.ne'
  have hnot : ¬Ignored empty startBlock := by
    rintro (hold | hignored)
    · exact absurd hold (lt_irrefl _)
    · exact hfull hignored.1
  have hapart : ∀ x other, (empty.makeRoom startBlock).blocks.lookup x = some other →
      (other.height = startBlock.height ↔ x = startBlock.hash env) := by
    intro x other hx
    rw [hagrees.lookup_makeRoom, AList.lookup_empty] at hx
    cases hx.1
  have hinsert : empty.insert env startBlock = (empty.makeRoom startBlock).put env startBlock :=
    insert_of_not_ignored startBlock hnot
  have hlength := hagrees.length_put_makeRoom startBlock hmax (Nat.zero_le _)
  have hsize : (empty.insert env startBlock).maxCacheSize = empty.maxCacheSize :=
    insert_maxCacheSize startBlock
  change (Watched.report (empty.insert env startBlock) [startBlock]).Inv env
  rw [hinsert] at hsize ⊢
  refine ((hagrees.makeRoom startBlock).put startBlock hapart).report _ (hsize ▸ hmax)
    (hsize ▸ hlength) fun block hblock => ?_
  obtain rfl := List.mem_singleton.mp hblock
  exact (available_put block hapart block).mpr (Or.inl rfl)

theorem positive_of_sound (startBlock : Block) (maxCacheSize : ℕ)
    (h : (Watched.new env startBlock maxCacheSize).Sound env) : 0 < maxCacheSize := by
  have havailable := (h.available startBlock (List.mem_append_left _ (by simp))).by_hash
  have hmem := AList.lookup_isSome.mp (by rw [havailable]; rfl)
  have hlength : 0 < (Watched.new env startBlock maxCacheSize).cache.blocks.entries.length := by
    rw [List.length_pos_iff]
    intro hnil
    rw [AList.mem_keys, AList.keys, hnil] at hmem
    cases hmem
  have hsize : (Watched.new env startBlock maxCacheSize).cache.maxCacheSize = maxCacheSize :=
    insert_maxCacheSize startBlock
  have hbounded := h.bounded
  omega

/-- A reported block is among the confirmed ones. -/
theorem reported_mem (startBlock : Block) (maxCacheSize : ℕ) (ops : List Op) (block : Block)
    (h : ((Watched.new env startBlock maxCacheSize).run env ops).cache.getByHeight
      ((Watched.new env startBlock maxCacheSize).run env ops).cache.height = some block) :
    block ∈ ((Watched.new env startBlock maxCacheSize).run env ops).confirmed := by
  obtain ⟨cache, confirmed, hrun⟩ : ∃ cache confirmed,
      (Watched.new env startBlock maxCacheSize).run env ops = Watched.report cache confirmed := by
    induction ops using List.reverseRecOn with
    | nil => exact ⟨_, _, rfl⟩
    | append_singleton ops op _ =>
      rw [Watched.run, List.foldl_concat]
      cases op with
      | insert block => exact ⟨_, _, rfl⟩
      | confirm height => exact ⟨_, _, rfl⟩
      | remove hash => exact ⟨_, _, rfl⟩
  rw [hrun] at h ⊢
  exact List.mem_append_right _ (Option.mem_toList.mpr h)

end Running

/-- An insertion changes neither the block nor the hash that is reported for the confirmed
height. -/
def KeepsReport (w next : Watched) : Prop :=
  ∀ block, w.cache.getByHeight w.cache.height = some block →
    next.cache.getByHeight w.cache.height = some block ∧ next.cache.hash = w.cache.hash

/-- The cache is sound all along a run, and no insertion changes its report, exactly when its
size is positive and every operation is permitted. -/
theorem run_sound_iff (env : NodeEnv) (startBlock : Block) (maxCacheSize : ℕ) (ops : List Op) :
    ((∀ before, before <+: ops →
        ((Watched.new env startBlock maxCacheSize).run env before).Sound env) ∧
      ∀ before block, before ++ [.insert block] <+: ops →
        KeepsReport ((Watched.new env startBlock maxCacheSize).run env before)
          ((Watched.new env startBlock maxCacheSize).run env (before ++ [.insert block]))) ↔
      0 < maxCacheSize ∧ ∀ before op, before ++ [op] <+: ops →
        Permitted env ((Watched.new env startBlock maxCacheSize).run env before) op := by
  have hiff : 0 < maxCacheSize → ((∀ before, before <+: ops →
        ((Watched.new env startBlock maxCacheSize).run env before).Sound env) ↔
      ∀ before op, before ++ [op] <+: ops →
        Permitted env ((Watched.new env startBlock maxCacheSize).run env before) op) :=
    fun hmax => forall_prefix_iff permitted_criterion (new_inv startBlock maxCacheSize hmax)
      fun _ _ => trivial
  constructor
  · rintro ⟨hsound, -⟩
    have hmax := positive_of_sound startBlock maxCacheSize (hsound [] List.nil_prefix)
    exact ⟨hmax, (hiff hmax).mp hsound⟩
  · rintro ⟨hmax, hpermitted⟩
    have hsound := (hiff hmax).mpr hpermitted
    refine ⟨hsound, fun before block hprefix reported hreported => ?_⟩
    have hmem := reported_mem startBlock maxCacheSize before reported hreported
    have hbefore := hsound before (prefix_of_concat hprefix)
    have hafter := hsound _ hprefix
    rw [Watched.run, List.foldl_concat] at hafter ⊢
    have hold := hbefore.available reported hmem
    have hnew := hafter.of_report reported hmem
    have hheight : reported.height = (Watched.run env
        (Watched.new env startBlock maxCacheSize) before).cache.height := by
      obtain ⟨x, hx, hlookup⟩ := Option.bind_eq_some_iff.mp hreported
      obtain ⟨other, hother, hotherHeight⟩ := (hbefore.agrees _ x).mp hx
      rw [hlookup, Option.some_inj] at hother
      rw [hother]
      exact hotherHeight
    refine ⟨?_, ?_⟩
    · rw [← hheight]
      exact Option.bind_eq_some_iff.mpr ⟨_, hnew.by_height, hnew.by_hash⟩
    · have hsame : ((Watched.run env (Watched.new env startBlock maxCacheSize) before).cache.insert
          env block).height = (Watched.run env (Watched.new env startBlock maxCacheSize)
          before).cache.height := insert_height block
      change ((Watched.run env (Watched.new env startBlock maxCacheSize) before).cache.insert env
        block).hash = _
      rw [BlockCache.hash, BlockCache.hash, hsame, ← hheight, hold.by_height]
      exact hnew.by_height

/-- The first word of a message for its hash. -/
def wordEnv : NodeEnv where
  keccak256 := fun message => BitVec.ofNat 256 (fromBeBytes (message.take 32))
  poseidon := fun _ => 0
  verifyProof := fun _ _ => some true
  recoverEcdsa := fun _ _ _ _ => none

/-- A block without transactions, whose root is its hash. -/
def plainBlock (height : ℕ) (root : ScalarField.Element) : Block :=
  ⟨⟨⟨height, 0#256, 0, 0#256, []⟩, ⟨root, []⟩⟩, Vector.replicate 65 0⟩

def twoAtOneHeight : List Op := [.insert (plainBlock 1 2#256), .insert (plainBlock 1 3#256)]

/-- The second block at a height leaves the first one under its hash. -/
theorem run_twoAtOneHeight :
    ¬∀ before, before <+: twoAtOneHeight →
      ((Watched.new wordEnv (plainBlock 0 1#256) 10000).run wordEnv before).Sound wordEnv := by
  intro hsound
  have hagrees := (hsound _ (List.prefix_refl _)).agrees 1 2#256
  have hstale : ((Watched.new wordEnv (plainBlock 0 1#256) 10000).run wordEnv
      twoAtOneHeight).cache.blocks.lookup 2#256 = some (plainBlock 1 2#256) := by decide
  have hlookup := hagrees.mpr ⟨plainBlock 1 2#256, hstale, rfl⟩
  exact absurd hlookup (by decide)

end PayyRollup.BlockCaches
