import Mathlib.Data.List.AList
import PayyRollup.NodeBlocks

/-!
The cache of the confirmed block and the blocks above it. Blocks are kept by their hash, and
hashes by the height of their block; a full cache makes room at its greatest height. The
operations are described by the hash they keep at each height, given that the hash of a
known block determines its height.
-/
namespace PayyRollup.BlockCaches

open NodeBlocks

structure BlockCache where
  height : ℕ
  maxHeight : ℕ
  blocks : AList fun _ : CryptoHash => Block
  blockHashHeights : AList fun _ : ℕ => CryptoHash
  maxCacheSize : ℕ

namespace BlockCache

variable (env : NodeEnv)

/-- The hash of the confirmed block; a missing one panics. -/
def hash (self : BlockCache) : Option CryptoHash := self.blockHashHeights.lookup self.height

def getByHeight (self : BlockCache) (height : ℕ) : Option Block :=
  (self.blockHashHeights.lookup height).bind fun hash => self.blocks.lookup hash

def remove (self : BlockCache) (hash : CryptoHash) : BlockCache :=
  match self.blocks.lookup hash with
  | some block =>
      { self with
        blocks := self.blocks.erase hash
        blockHashHeights := self.blockHashHeights.erase block.height }
  | none => self

def lastHeight (self : BlockCache) : ℕ := self.blockHashHeights.keys.foldr max 0

def lastHash (self : BlockCache) : CryptoHash :=
  (self.blockHashHeights.lookup self.lastHeight).getD 0#256

def atCapacity (self : BlockCache) : Bool :=
  decide (self.maxCacheSize ≤ self.blocks.entries.length)

/-- Old blocks are ignored, and so are the greatest ones when the cache is full. -/
def insert (self : BlockCache) (block : Block) : BlockCache :=
  if block.height < self.height then self
  else
    let seen := { self with maxHeight := max self.maxHeight block.height }
    if self.atCapacity = true ∧ self.lastHeight < block.height then seen
    else
      let roomy := if self.atCapacity = true then seen.remove self.lastHash else seen
      { roomy with
        blockHashHeights := roomy.blockHashHeights.insert block.height (block.hash env)
        blocks := roomy.blocks.insert (block.hash env) block }

/-- The cache with the first block. -/
def new (startBlock : Block) (maxCacheSize : ℕ) : BlockCache :=
  BlockCache.insert env ⟨startBlock.height, startBlock.height, ∅, ∅, maxCacheSize⟩ startBlock

def removeHeight (self : BlockCache) (height : ℕ) : BlockCache :=
  match self.blockHashHeights.lookup height with
  | some hash =>
      { self with
        blockHashHeights := self.blockHashHeights.erase height
        blocks := self.blocks.erase hash }
  | none => self

def confirm (self : BlockCache) (height : ℕ) : BlockCache :=
  let below := self.blockHashHeights.keys.filter fun h => decide (h < height)
  below.foldl removeHeight { self with height }

def getNextCommitBlock (self : BlockCache) : Option Block := self.getByHeight (self.height + 1)

end BlockCache

section Laws

variable {cache : BlockCache}

theorem lookup_removeHeight_of_ne (k h : ℕ) (hk : k ≠ h) :
    (cache.removeHeight h).blockHashHeights.lookup k = cache.blockHashHeights.lookup k := by
  unfold BlockCache.removeHeight
  split
  · exact AList.lookup_erase_ne hk
  · rfl

theorem lookup_removeHeight_self (h : ℕ) :
    (cache.removeHeight h).blockHashHeights.lookup h = none := by
  unfold BlockCache.removeHeight
  split
  · exact AList.lookup_erase h _
  · rename_i hnone
    exact hnone

theorem removeHeight_height (h : ℕ) : (cache.removeHeight h).height = cache.height := by
  unfold BlockCache.removeHeight
  split
  · rfl
  · rfl

theorem removeHeight_blocks (h : ℕ) (x : CryptoHash) (block : Block)
    (hlookup : (cache.removeHeight h).blocks.lookup x = some block) :
    cache.blocks.lookup x = some block := by
  unfold BlockCache.removeHeight at hlookup
  split at hlookup
  · rename_i hash _
    by_cases hx : x = hash
    · subst hx
      rw [AList.lookup_erase] at hlookup
      cases hlookup
    · rwa [AList.lookup_erase_ne hx] at hlookup
  · exact hlookup

theorem foldl_removeHeight (below : List ℕ) :
    (below.foldl BlockCache.removeHeight cache).height = cache.height ∧
      (∀ k, (below.foldl BlockCache.removeHeight cache).blockHashHeights.lookup k =
        if k ∈ below then none else cache.blockHashHeights.lookup k) ∧
      ∀ x block, (below.foldl BlockCache.removeHeight cache).blocks.lookup x = some block →
        cache.blocks.lookup x = some block := by
  induction below generalizing cache with
  | nil => simp
  | cons h rest ih =>
    rw [List.foldl_cons]
    obtain ⟨hheight, hlookup, hblocks⟩ := @ih (cache.removeHeight h)
    refine ⟨hheight.trans (removeHeight_height h), ?_, ?_⟩
    · intro k
      rw [hlookup k]
      by_cases hrest : k ∈ rest
      · simp [hrest]
      · by_cases hk : k = h
        · subst hk
          simp [lookup_removeHeight_self]
        · simp [hrest, hk, lookup_removeHeight_of_ne]
    · intro x block hx
      exact removeHeight_blocks h x block (hblocks x block hx)

@[simp] theorem confirm_height (height : ℕ) : (cache.confirm height).height = height :=
  (foldl_removeHeight _).1

/-- Confirming a height drops the hashes below it. -/
theorem confirm_lookup (height k : ℕ) :
    (cache.confirm height).blockHashHeights.lookup k =
      if k < height then none else cache.blockHashHeights.lookup k := by
  unfold BlockCache.confirm
  rw [(foldl_removeHeight _).2.1 k]
  by_cases hk : k < height
  · by_cases hin : k ∈ cache.blockHashHeights
    · rw [if_pos hk, if_pos]
      exact List.mem_filter.mpr ⟨AList.mem_keys.mp hin, decide_eq_true hk⟩
    · rw [if_pos hk, AList.lookup_eq_none.mpr hin, ite_self]
  · rw [if_neg hk, if_neg]
    intro hmem
    exact hk (of_decide_eq_true (List.mem_filter.mp hmem).2)

theorem confirm_blocks (height : ℕ) (x : CryptoHash) (block : Block)
    (h : (cache.confirm height).blocks.lookup x = some block) :
    cache.blocks.lookup x = some block := by
  exact (@foldl_removeHeight { cache with height } _).2.2 x block h

/-- The greatest height with a hash. -/
theorem lastHeight_spec (k : ℕ) (hash : CryptoHash)
    (h : cache.blockHashHeights.lookup k = some hash) :
    k ≤ cache.lastHeight ∧
      cache.blockHashHeights.lookup cache.lastHeight = some cache.lastHash := by
  have hfold : ∀ keys : List ℕ, (∀ a ∈ keys, a ≤ keys.foldr max 0) ∧
      (keys ≠ [] → keys.foldr max 0 ∈ keys) := by
    intro keys
    induction keys with
    | nil => simp
    | cons a rest ih =>
      rw [List.foldr_cons]
      constructor
      · intro b hb
        rcases List.mem_cons.mp hb with rfl | hb
        · exact le_max_left _ _
        · exact (ih.1 b hb).trans (le_max_right _ _)
      · intro _
        rcases le_total a (rest.foldr max 0) with hle | hle
        · rw [max_eq_right hle]
          by_cases hrest : rest = []
          · subst hrest
            have hzero : a = 0 := Nat.le_zero.mp hle
            simp [hzero]
          · exact List.mem_cons_of_mem _ (ih.2 hrest)
        · rw [max_eq_left hle]
          exact List.mem_cons_self ..
  have hmem : k ∈ cache.blockHashHeights.keys :=
    AList.mem_keys.mp (AList.lookup_isSome.mp (by rw [h]; rfl))
  refine ⟨(hfold _).1 k hmem, ?_⟩
  have hlast : cache.lastHeight ∈ cache.blockHashHeights :=
    AList.mem_keys.mpr ((hfold _).2 (List.ne_nil_of_mem hmem))
  obtain ⟨x, hx⟩ := Option.isSome_iff_exists.mp (AList.lookup_isSome.mpr hlast)
  rw [BlockCache.lastHash, hx]
  rfl

end Laws

/-- Every hash in the cache is that of a known block, of the height it is kept at. -/
structure Tracks (env : NodeEnv) (known : Block → Prop) (cache : BlockCache) : Prop where
  blocks : ∀ hash block, cache.blocks.lookup hash = some block →
    block.hash env = hash ∧ known block
  heights : ∀ height hash, cache.blockHashHeights.lookup height = some hash →
    ∃ block, known block ∧ block.hash env = hash ∧ block.height = height

section Tracking

variable {env : NodeEnv} {known : Block → Prop} {cache : BlockCache}

theorem Tracks.confirm (h : Tracks env known cache) (height : ℕ) :
    Tracks env known (cache.confirm height) := by
  constructor
  · intro hash block hlookup
    exact h.blocks hash block (confirm_blocks height hash block hlookup)
  · intro k hash hlookup
    rw [confirm_lookup] at hlookup
    split at hlookup
    · cases hlookup
    · exact h.heights k hash hlookup

/-- Removing a block only takes away. -/
theorem remove_sub (x : CryptoHash) :
    (∀ hash block, (cache.remove x).blocks.lookup hash = some block →
      cache.blocks.lookup hash = some block) ∧
    ∀ k hash, (cache.remove x).blockHashHeights.lookup k = some hash →
      cache.blockHashHeights.lookup k = some hash := by
  unfold BlockCache.remove
  split
  · rename_i removed _
    constructor
    · intro hash block hlookup
      by_cases hx : hash = x
      · subst hx
        rw [AList.lookup_erase] at hlookup
        cases hlookup
      · rwa [AList.lookup_erase_ne hx] at hlookup
    · intro k hash hlookup
      by_cases hk : k = removed.height
      · subst hk
        rw [AList.lookup_erase] at hlookup
        cases hlookup
      · rwa [AList.lookup_erase_ne hk] at hlookup
  · exact ⟨fun _ _ hlookup => hlookup, fun _ _ hlookup => hlookup⟩

theorem remove_lookup_self (x : CryptoHash) (block : Block)
    (h : cache.blocks.lookup x = some block) :
    (cache.remove x).blockHashHeights.lookup block.height = none := by
  unfold BlockCache.remove
  rw [h]
  exact AList.lookup_erase _ _

theorem Tracks.remove (h : Tracks env known cache) (x : CryptoHash) :
    Tracks env known (cache.remove x) :=
  ⟨fun hash block hlookup => h.blocks hash block ((remove_sub x).1 hash block hlookup),
    fun k hash hlookup => h.heights k hash ((remove_sub x).2 k hash hlookup)⟩

theorem remove_height (x : CryptoHash) : (cache.remove x).height = cache.height := by
  unfold BlockCache.remove
  split
  · rfl
  · rfl

variable (hheight : ∀ a b, known a → known b → a.hash env = b.hash env → a.height = b.height)

include hheight in
/-- Removing the hash kept at a height leaves the other heights. -/
theorem Tracks.remove_lookup (h : Tracks env known cache) (x : CryptoHash) (height k : ℕ)
    (hx : cache.blockHashHeights.lookup height = some x) (hk : k ≠ height) :
    (cache.remove x).blockHashHeights.lookup k = cache.blockHashHeights.lookup k := by
  unfold BlockCache.remove
  split
  · rename_i removed hremoved
    obtain ⟨hhash, hknown⟩ := h.blocks x removed hremoved
    obtain ⟨block, hblock, hblockHash, hblockHeight⟩ := h.heights height x hx
    have heq := hheight removed block hknown hblock (hhash.trans hblockHash.symm)
    apply AList.lookup_erase_ne
    rw [heq, hblockHeight]
    exact hk
  · rfl

include hheight in
/-- The next block is a known one, of the next height. -/
theorem Tracks.next (h : Tracks env known cache) (block : Block)
    (hnext : cache.getNextCommitBlock = some block) :
    known block ∧ block.height = cache.height + 1 ∧
      cache.blockHashHeights.lookup (cache.height + 1) = some (block.hash env) ∧
      cache.blocks.lookup (block.hash env) = some block := by
  unfold BlockCache.getNextCommitBlock BlockCache.getByHeight at hnext
  obtain ⟨hash, hlookup, hblock⟩ := Option.bind_eq_some_iff.mp hnext
  obtain ⟨hhash, hknown⟩ := h.blocks hash block hblock
  obtain ⟨other, hother, hotherHash, hotherHeight⟩ := h.heights _ hash hlookup
  refine ⟨hknown, ?_, by rw [hhash]; exact hlookup, by rw [hhash]; exact hblock⟩
  rw [← hotherHeight]
  exact hheight block other hknown hother (hhash.trans hotherHash.symm)

theorem insert_height (block : Block) : (cache.insert env block).height = cache.height := by
  unfold BlockCache.insert
  split
  · rfl
  · dsimp only
    split
    · rfl
    · dsimp only
      split
      · exact remove_height _
      · rfl

theorem Tracks.insert (h : Tracks env known cache) (block : Block) (hblock : known block) :
    Tracks env known (cache.insert env block) := by
  have hput : ∀ c : BlockCache, Tracks env known c →
      Tracks env known { c with
        blockHashHeights := c.blockHashHeights.insert block.height (block.hash env)
        blocks := c.blocks.insert (block.hash env) block } := by
    intro c hc
    constructor
    · intro hash b hlookup
      dsimp only at hlookup
      by_cases hx : hash = block.hash env
      · subst hx
        rw [AList.lookup_insert] at hlookup
        obtain rfl := Option.some.inj hlookup
        exact ⟨rfl, hblock⟩
      · rw [AList.lookup_insert_ne hx] at hlookup
        exact hc.blocks hash b hlookup
    · intro k hash hlookup
      dsimp only at hlookup
      by_cases hk : k = block.height
      · subst hk
        rw [AList.lookup_insert] at hlookup
        obtain rfl := Option.some.inj hlookup
        exact ⟨block, hblock, rfl, rfl⟩
      · rw [AList.lookup_insert_ne hk] at hlookup
        exact hc.heights k hash hlookup
  have hseen : Tracks env known { cache with maxHeight := max cache.maxHeight block.height } :=
    ⟨h.blocks, h.heights⟩
  unfold BlockCache.insert
  split
  · exact h
  · dsimp only
    split
    · exact hseen
    · split
      · exact hput _ (hseen.remove _)
      · exact hput _ hseen

/-- Inserting a block adds nothing else. -/
theorem insert_sub (block : Block) :
    (∀ hash b, (cache.insert env block).blocks.lookup hash = some b →
      b = block ∨ cache.blocks.lookup hash = some b) ∧
    ∀ k hash, (cache.insert env block).blockHashHeights.lookup k = some hash →
      (k = block.height ∧ hash = block.hash env) ∨
        cache.blockHashHeights.lookup k = some hash := by
  have hput : ∀ c : BlockCache,
      (∀ hash b, c.blocks.lookup hash = some b → cache.blocks.lookup hash = some b) →
      (∀ k hash, c.blockHashHeights.lookup k = some hash →
        cache.blockHashHeights.lookup k = some hash) →
      (∀ hash b, (c.blocks.insert (block.hash env) block).lookup hash = some b →
        b = block ∨ cache.blocks.lookup hash = some b) ∧
      ∀ k hash, (c.blockHashHeights.insert block.height (block.hash env)).lookup k = some hash →
        (k = block.height ∧ hash = block.hash env) ∨
          cache.blockHashHeights.lookup k = some hash := by
    intro c hblocks hheights
    constructor
    · intro hash b hlookup
      by_cases hx : hash = block.hash env
      · subst hx
        rw [AList.lookup_insert] at hlookup
        exact Or.inl (Option.some.inj hlookup).symm
      · rw [AList.lookup_insert_ne hx] at hlookup
        exact Or.inr (hblocks hash b hlookup)
    · intro k hash hlookup
      by_cases hk : k = block.height
      · subst hk
        rw [AList.lookup_insert] at hlookup
        exact Or.inl ⟨rfl, (Option.some.inj hlookup).symm⟩
      · rw [AList.lookup_insert_ne hk] at hlookup
        exact Or.inr (hheights k hash hlookup)
  unfold BlockCache.insert
  split
  · exact ⟨fun _ _ h => Or.inr h, fun _ _ h => Or.inr h⟩
  · dsimp only
    split
    · exact ⟨fun _ _ h => Or.inr h, fun _ _ h => Or.inr h⟩
    · split
      · exact hput _ (remove_sub _).1 (remove_sub _).2
      · exact hput _ (fun _ _ h => h) fun _ _ h => h

theorem tracks_new (startBlock : Block) (maxCacheSize : ℕ) (hstart : known startBlock) :
    Tracks env known (BlockCache.new env startBlock maxCacheSize) := by
  apply Tracks.insert _ startBlock hstart
  constructor
  · intro hash block hlookup
    rw [AList.lookup_empty] at hlookup
    cases hlookup
  · intro k hash hlookup
    rw [AList.lookup_empty] at hlookup
    cases hlookup

include hheight in
/-- A block at another height, or with the confirmed hash, keeps the confirmed hash. -/
theorem Tracks.insert_hash (h : Tracks env known cache) (block : Block)
    (confirmed : CryptoHash) (hconfirmed : cache.hash = some confirmed)
    (hother : block.height ≠ cache.height ∨ block.hash env = confirmed) :
    (cache.insert env block).hash = some confirmed := by
  unfold BlockCache.hash
  rw [insert_height]
  have hput : ∀ c : BlockCache, c.blockHashHeights.lookup cache.height = some confirmed ∨
      block.height = cache.height →
      (c.blockHashHeights.insert block.height (block.hash env)).lookup cache.height =
        some confirmed := by
    intro c hc
    by_cases heq : cache.height = block.height
    · rw [heq, AList.lookup_insert, hother.resolve_left (by simp [heq])]
    · rw [AList.lookup_insert_ne heq]
      exact hc.resolve_right (Ne.symm heq)
  unfold BlockCache.insert
  split
  · exact hconfirmed
  · rename_i hnotOld
    dsimp only
    split
    · exact hconfirmed
    · rename_i hroom
      split
      · rename_i hfull
        apply hput
        by_cases heq : block.height = cache.height
        · exact Or.inr heq
        · left
          have hlast : block.height ≤ cache.lastHeight := by
            by_contra hlt
            exact hroom ⟨hfull, by omega⟩
          have hseen : Tracks env known
              { cache with maxHeight := max cache.maxHeight block.height } :=
            ⟨h.blocks, h.heights⟩
          rw [hseen.remove_lookup hheight cache.lastHash cache.lastHeight cache.height
            (lastHeight_spec _ _ hconfirmed).2 (by omega)]
          exact hconfirmed
      · exact hput _ (Or.inl hconfirmed)

end Tracking

/-- A block that is not old is kept when the cache is not full or goes that high. -/
theorem insert_lookup_self (env : NodeEnv) (cache : BlockCache) (block : Block)
    (hold : cache.height ≤ block.height)
    (hroom : cache.atCapacity = false ∨ block.height ≤ cache.lastHeight) :
    (cache.insert env block).blockHashHeights.lookup block.height = some (block.hash env) := by
  unfold BlockCache.insert
  rw [if_neg (by omega)]
  dsimp only
  rw [if_neg]
  · exact AList.lookup_insert _
  · rintro ⟨hfull, hlast⟩
    rcases hroom with hroom | hroom
    · rw [hroom] at hfull
      cases hfull
    · omega

end PayyRollup.BlockCaches
