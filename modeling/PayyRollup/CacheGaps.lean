import Mathlib.Data.List.Range
import PayyRollup.CacheAgreement

/-!
When a node is out of sync by its cache. The answer compares the greatest height that was seen
with the greatest one in the cache, and then looks for a gap above the confirmed height. It
unwraps the last height of the cache, and the hash of the confirmed height is unwrapped, too;
both are there as long as the block of the confirmed height is. Insertions never lose that
block, but confirming a height without a block does, and so does removing the block.
-/
namespace PayyRollup.BlockCaches

open NodeBlocks PrefixRuns

/-- Whether a height above the confirmed one has no block; `none` stands for a panic. -/
def BlockCache.isOutOfSync (self : BlockCache) (overflowChecks : Bool) : Option Bool :=
  if self.blockHashHeights.keys.isEmpty then none
  else if self.lastHeight < self.maxHeight then some true
  else if overflowChecks = true ∧ 2 ^ 64 ≤ self.height + 1 then none
  else
    let start := nextHeight self.height
    some ((List.range' start (self.maxHeight + 1 - start)).any fun height =>
      (self.blockHashHeights.lookup height).isNone)

/-- A call on the cache, with a known block or a height of 64 bits. -/
inductive Call (known : Block → Prop)
  | insert (block : Block) (h : known block)
  | confirm (height : ℕ) (h : height < 2 ^ 64)
  | remove (hash : CryptoHash)

section Calls

variable (env : NodeEnv) {known : Block → Prop}

def BlockCache.call (self : BlockCache) : Call known → BlockCache
  | .insert block _ => self.insert env block
  | .confirm height _ => self.confirm height
  | .remove hash => self.remove hash

/-- The answers of a cache: it is out of sync exactly when a height up to the greatest one has
no block, and the confirmed hash is there. -/
structure Answers (overflowChecks : Bool) (cache : BlockCache) : Prop where
  exact : ∃ answer, cache.isOutOfSync overflowChecks = some answer ∧ (answer = true ↔
    ∃ height, cache.height < height ∧ height ≤ cache.maxHeight ∧ cache.getByHeight height = none)
  hash : cache.hash ≠ none

/-- A call that keeps the block of the confirmed height: only heights with a block are
confirmed, not the last one there is, and the block of the confirmed height is not removed. -/
def KeepsConfirmed (cache : BlockCache) : Call known → Prop
  | .insert _ _ => True
  | .confirm height _ => cache.getByHeight height ≠ none ∧ height + 1 < 2 ^ 64
  | .remove hash => ∀ block, cache.blocks.lookup hash = some block → block.height ≠ cache.height

/-- Every height of the cache has a block of that height, and the blocks are known. -/
structure Filled (known : Block → Prop) (cache : BlockCache) : Prop where
  found : ∀ k x, cache.blockHashHeights.lookup k = some x →
    ∃ block, cache.blocks.lookup x = some block ∧ block.height = k
  hashed : ∀ x block, cache.blocks.lookup x = some block → block.hash env = x ∧ known block

/-- A filled cache whose heights lie between the confirmed and the greatest one, with the block
of the confirmed height. -/
structure Steady (known : Block → Prop) (cache : BlockCache) : Prop where
  filled : Filled env known cache
  between : ∀ k x, cache.blockHashHeights.lookup k = some x →
    cache.height ≤ k ∧ k ≤ cache.maxHeight
  confirmed : ∃ x, cache.blockHashHeights.lookup cache.height = some x
  room : cache.height + 1 < 2 ^ 64
  small : cache.maxHeight < 2 ^ 64

end Calls

section Laws

variable {env : NodeEnv} {known : Block → Prop} {cache : BlockCache}

theorem keys_ne_nil (k : ℕ) (x : CryptoHash) (h : cache.blockHashHeights.lookup k = some x) :
    cache.blockHashHeights.keys.isEmpty = false := by
  have hmem : k ∈ cache.blockHashHeights.keys :=
    AList.mem_keys.mp (AList.lookup_isSome.mp (by rw [h]; rfl))
  rw [List.isEmpty_eq_false_iff]
  exact List.ne_nil_of_mem hmem

theorem Filled.getByHeight_eq_none (h : Filled env known cache) (k : ℕ) :
    cache.getByHeight k = none ↔ cache.blockHashHeights.lookup k = none := by
  unfold BlockCache.getByHeight
  cases hk : cache.blockHashHeights.lookup k with
  | none => simp
  | some x =>
    obtain ⟨block, hblock, -⟩ := h.found k x hk
    simp [hblock]

theorem mem_heights (start stop k : ℕ) :
    k ∈ List.range' start (stop + 1 - start) ↔ start ≤ k ∧ k ≤ stop := by
  rw [List.mem_range'_1]
  omega

/-- What the answer is when the greatest height of the cache is the greatest one seen. -/
theorem any_gap (start : ℕ) : ((List.range' start (cache.maxHeight + 1 - start)).any fun height =>
      (cache.blockHashHeights.lookup height).isNone) = true ↔
    ∃ height, start ≤ height ∧ height ≤ cache.maxHeight ∧
      cache.blockHashHeights.lookup height = none := by
  rw [List.any_eq_true]
  constructor
  · rintro ⟨k, hk, hnone⟩
    obtain ⟨hstart, hstop⟩ := (mem_heights _ _ k).mp hk
    exact ⟨k, hstart, hstop, Option.isNone_iff_eq_none.mp hnone⟩
  · rintro ⟨k, hstart, hstop, hnone⟩
    exact ⟨k, (mem_heights _ _ k).mpr ⟨hstart, hstop⟩, Option.isNone_iff_eq_none.mpr hnone⟩

/-- A steady cache answers. -/
theorem Steady.answers (h : Steady env known cache) (overflowChecks : Bool) :
    Answers overflowChecks cache := by
  obtain ⟨x, hx⟩ := h.confirmed
  obtain ⟨hle, hlast⟩ := lastHeight_spec _ _ hx
  obtain ⟨-, hmax⟩ := h.between _ _ hlast
  have hgap : ∀ k, cache.getByHeight k = none ↔ cache.blockHashHeights.lookup k = none :=
    h.filled.getByHeight_eq_none
  refine ⟨?_, ?_⟩
  · unfold BlockCache.isOutOfSync
    rw [if_neg (by rw [keys_ne_nil _ _ hx]; simp)]
    by_cases hbehind : cache.lastHeight < cache.maxHeight
    · rw [if_pos hbehind]
      refine ⟨true, rfl, iff_of_true rfl ⟨cache.maxHeight, by omega, le_rfl, ?_⟩⟩
      rw [hgap]
      cases htop : cache.blockHashHeights.lookup cache.maxHeight with
      | none => rfl
      | some y =>
        have := (lastHeight_spec _ _ htop).1
        omega
    · have hroom := h.room
      have hnext : nextHeight cache.height = cache.height + 1 := Nat.mod_eq_of_lt hroom
      rw [if_neg hbehind, if_neg (by omega), hnext]
      refine ⟨_, rfl, ?_⟩
      rw [any_gap]
      simp only [hgap, Nat.succ_le_iff]
  · rw [BlockCache.hash, hx]
    simp

/-- Removing a block and its height leaves the others in place. -/
theorem Filled.erase (h : Filled env known cache) (x : CryptoHash) (block : Block)
    (hblock : cache.blocks.lookup x = some block) :
    Filled env known { cache with
      blocks := cache.blocks.erase x
      blockHashHeights := cache.blockHashHeights.erase block.height } := by
  constructor
  · intro k y hk
    dsimp only at hk ⊢
    have hne : k ≠ block.height := by
      rintro rfl
      rw [AList.lookup_erase] at hk
      cases hk
    rw [AList.lookup_erase_ne hne] at hk
    obtain ⟨other, hother, hheight⟩ := h.found k y hk
    have hy : y ≠ x := by
      rintro rfl
      rw [hblock, Option.some_inj] at hother
      exact hne (hheight.symm.trans (congrArg Block.height hother.symm))
    exact ⟨other, by rw [AList.lookup_erase_ne hy]; exact hother, hheight⟩
  · intro y other hy
    dsimp only at hy
    by_cases heq : y = x
    · subst heq
      rw [AList.lookup_erase] at hy
      cases hy
    · rw [AList.lookup_erase_ne heq] at hy
      exact h.hashed y other hy

theorem Filled.remove (h : Filled env known cache) (x : CryptoHash) :
    Filled env known (cache.remove x) := by
  unfold BlockCache.remove
  cases hx : cache.blocks.lookup x with
  | none => exact h
  | some block => exact h.erase x block hx

theorem Filled.removeHeight (h : Filled env known cache) (k : ℕ) :
    Filled env known (cache.removeHeight k) := by
  unfold BlockCache.removeHeight
  cases hk : cache.blockHashHeights.lookup k with
  | none => exact h
  | some x =>
    obtain ⟨block, hblock, rfl⟩ := h.found k x hk
    exact h.erase x block hblock

theorem Filled.confirm (h : Filled env known cache) (height : ℕ) :
    Filled env known (cache.confirm height) := by
  have hfold : ∀ (heights : List ℕ) (c : BlockCache), Filled env known c →
      Filled env known (heights.foldl BlockCache.removeHeight c) := by
    intro heights
    induction heights with
    | nil => exact fun _ hc => hc
    | cons k rest ih => exact fun c hc => ih _ (hc.removeHeight k)
  exact hfold _ _ ⟨h.found, h.hashed⟩

theorem confirm_maxHeight (height : ℕ) : (cache.confirm height).maxHeight = cache.maxHeight := by
  have hfold : ∀ (heights : List ℕ) (c : BlockCache),
      (heights.foldl BlockCache.removeHeight c).maxHeight = c.maxHeight := by
    intro heights
    induction heights with
    | nil => exact fun _ => rfl
    | cons k rest ih =>
      intro c
      rw [List.foldl_cons, ih]
      unfold BlockCache.removeHeight
      split <;> rfl
  exact hfold _ _

theorem remove_maxHeight (x : CryptoHash) : (cache.remove x).maxHeight = cache.maxHeight := by
  unfold BlockCache.remove
  split <;> rfl

/-- What removing a hash does to the heights. -/
theorem lookup_remove_of_ne (x : CryptoHash) (k : ℕ)
    (hk : ∀ block, cache.blocks.lookup x = some block → block.height ≠ k) :
    (cache.remove x).blockHashHeights.lookup k = cache.blockHashHeights.lookup k := by
  unfold BlockCache.remove
  cases hx : cache.blocks.lookup x with
  | none => rfl
  | some block => exact AList.lookup_erase_ne (hk block hx).symm

variable (hapart : ∀ a b, known a → known b → a.hash env = b.hash env → a.height = b.height)

include hapart in
theorem Filled.put (h : Filled env known cache) (block : Block) (hblock : known block) :
    Filled env known (cache.put env block) := by
  constructor
  · intro k x hk
    rw [lookup_put_height] at hk
    split at hk
    · rename_i heq
      obtain rfl := Option.some.inj hk
      exact ⟨block, by rw [lookup_put_block, if_pos rfl], heq.symm⟩
    · rename_i hne
      obtain ⟨other, hother, hheight⟩ := h.found k x hk
      obtain ⟨hhash, hother'⟩ := h.hashed x other hother
      have hx : x ≠ block.hash env := fun heq =>
        hne (hheight.symm.trans (hapart other block hother' hblock (hhash.trans heq)))
      exact ⟨other, by rw [lookup_put_block, if_neg hx]; exact hother, hheight⟩
  · intro x other hx
    rw [lookup_put_block] at hx
    split at hx
    · rename_i heq
      rw [← Option.some.inj hx, heq]
      exact ⟨rfl, hblock⟩
    · exact h.hashed x other hx

/-- The last block of a full cache is evicted, and no other height. -/
theorem Filled.lookup_makeRoom (h : Filled env known cache) (block : Block)
    (hlast : cache.blockHashHeights.lookup cache.lastHeight = some cache.lastHash) (k : ℕ)
    (hk : cache.atCapacity = true → k ≠ cache.lastHeight) :
    (cache.makeRoom block).blockHashHeights.lookup k = cache.blockHashHeights.lookup k := by
  unfold BlockCache.makeRoom
  split
  · rename_i hfull
    refine lookup_remove_of_ne cache.lastHash k fun other hother hheight => ?_
    obtain ⟨found, hfound, hfoundHeight⟩ := h.found _ _ hlast
    have hsame : some found = some other := hfound.symm.trans hother
    obtain rfl := Option.some.inj hsame
    exact hk hfull (hheight.symm.trans hfoundHeight)
  · rfl

theorem makeRoom_sub (block : Block) (k : ℕ) (x : CryptoHash)
    (h : (cache.makeRoom block).blockHashHeights.lookup k = some x) :
    cache.blockHashHeights.lookup k = some x := by
  unfold BlockCache.makeRoom at h
  dsimp only at h
  split at h
  · exact (@remove_sub { cache with maxHeight := max cache.maxHeight block.height }
      cache.lastHash).2 k x h
  · exact h

theorem makeRoom_heights (block : Block) : (cache.makeRoom block).height = cache.height ∧
    (cache.makeRoom block).maxHeight = max cache.maxHeight block.height := by
  unfold BlockCache.makeRoom
  dsimp only
  split
  · exact ⟨remove_height _, remove_maxHeight _⟩
  · exact ⟨rfl, rfl⟩

theorem Filled.makeRoom (h : Filled env known cache) (block : Block) :
    Filled env known (cache.makeRoom block) := by
  have hseen : Filled env known { cache with maxHeight := max cache.maxHeight block.height } :=
    ⟨h.found, h.hashed⟩
  unfold BlockCache.makeRoom
  dsimp only
  split
  · exact hseen.remove _
  · exact hseen

include hapart in
/-- Insertions keep a cache steady. -/
theorem Steady.insert (h : Steady env known cache) (block : Block) (hblock : known block)
    (hsmall : block.height < 2 ^ 64) : Steady env known (cache.insert env block) := by
  obtain ⟨x, hx⟩ := h.confirmed
  obtain ⟨hle, hlast⟩ := lastHeight_spec _ _ hx
  by_cases hold : block.height < cache.height
  · rw [BlockCache.insert, if_pos hold]
    exact h
  by_cases hfull : cache.atCapacity = true ∧ cache.lastHeight < block.height
  · rw [BlockCache.insert, if_neg hold, if_pos hfull]
    refine ⟨⟨h.filled.found, h.filled.hashed⟩, fun k y hk => ?_, h.confirmed, h.room, ?_⟩
    · have := h.between k y hk
      exact ⟨this.1, this.2.trans (le_max_left _ _)⟩
    · exact max_lt h.small hsmall
  · have hnot : ¬Ignored cache block := fun hignored => hignored.elim hold hfull
    have hroom := h.filled.makeRoom block
    obtain ⟨hheight, hmax⟩ := @makeRoom_heights cache block
    rw [insert_of_not_ignored block hnot]
    have hsame : ((cache.makeRoom block).put env block).height = cache.height := hheight
    have hsameMax : ((cache.makeRoom block).put env block).maxHeight =
        max cache.maxHeight block.height := hmax
    refine ⟨hroom.put hapart block hblock, fun k y hk => ?_, ?_, ?_, ?_⟩
    · rw [hsame, hsameMax]
      rw [lookup_put_height] at hk
      split at hk
      · have := le_max_right cache.maxHeight block.height
        omega
      · have := h.between k y (makeRoom_sub block k y hk)
        exact ⟨this.1, this.2.trans (le_max_left _ _)⟩
    · rw [hsame, lookup_put_height]
      split
      · exact ⟨_, rfl⟩
      · refine ⟨x, (h.filled.lookup_makeRoom block hlast _ fun hcapacity heq => ?_).trans hx⟩
        have := not_and.mp hfull hcapacity
        omega
    · rw [hsame]
      exact h.room
    · rw [hsameMax]
      exact max_lt h.small hsmall

/-- Confirming a height with a block keeps a cache steady. -/
theorem Steady.confirm (h : Steady env known cache) (height : ℕ)
    (hblock : cache.getByHeight height ≠ none) (hroom : height + 1 < 2 ^ 64) :
    Steady env known (cache.confirm height) := by
  refine ⟨h.filled.confirm height, fun k x hk => ?_, ?_, ?_, ?_⟩
  · rw [confirm_lookup] at hk
    split at hk
    · cases hk
    · rw [confirm_height, confirm_maxHeight]
      exact ⟨by omega, (h.between k x hk).2⟩
  · rw [confirm_height, confirm_lookup, if_neg (lt_irrefl _)]
    rw [ne_eq, h.filled.getByHeight_eq_none] at hblock
    exact Option.ne_none_iff_exists'.mp hblock
  · rw [confirm_height]
    exact hroom
  · rw [confirm_maxHeight]
    exact h.small

/-- Removing another block than that of the confirmed height keeps a cache steady. -/
theorem Steady.remove (h : Steady env known cache) (x : CryptoHash)
    (hother : ∀ block, cache.blocks.lookup x = some block → block.height ≠ cache.height) :
    Steady env known (cache.remove x) := by
  obtain ⟨y, hy⟩ := h.confirmed
  refine ⟨h.filled.remove x, fun k z hk => ?_, ⟨y, ?_⟩, ?_, ?_⟩
  · rw [remove_height, remove_maxHeight]
    exact h.between k z ((remove_sub x).2 k z hk)
  · rw [remove_height, lookup_remove_of_ne x _ hother]
    exact hy
  · rw [remove_height]
    exact h.room
  · rw [remove_maxHeight]
    exact h.small

/-- A cache that answers has not confirmed the last height there is. -/
theorem Answers.room {overflowChecks : Bool} (h : Answers overflowChecks cache)
    (hbetween : ∀ k x, cache.blockHashHeights.lookup k = some x →
      cache.height ≤ k ∧ k ≤ cache.maxHeight) (hsmall : cache.maxHeight < 2 ^ 64) :
    cache.height + 1 < 2 ^ 64 := by
  by_contra hend
  obtain ⟨x, hx⟩ := Option.ne_none_iff_exists'.mp h.hash
  obtain ⟨-, hmax⟩ := hbetween _ _ hx
  have hlast := (lastHeight_spec _ _ hx).1
  have hnext : nextHeight cache.height = 0 := by
    rw [nextHeight, show cache.height + 1 = 2 ^ 64 by omega, Nat.mod_self]
  obtain ⟨answer, hanswer, hiff⟩ := h.exact
  unfold BlockCache.isOutOfSync at hanswer
  rw [if_neg (by rw [keys_ne_nil _ _ hx]; simp), if_neg (by omega), hnext] at hanswer
  split at hanswer
  · cases hanswer
  · have hany : answer = true := by
      rw [← Option.some.inj hanswer, any_gap]
      refine ⟨0, le_rfl, Nat.zero_le _, ?_⟩
      cases hzero : cache.blockHashHeights.lookup 0 with
      | none => rfl
      | some y =>
        have := (hbetween 0 y hzero).1
        omega
    obtain ⟨k, hk, hkmax, -⟩ := hiff.mp hany
    omega

/-- The calls that keep a steady cache steady are those after which it answers. -/
theorem keeps_criterion (overflowChecks : Bool) (hbound : ∀ block, known block →
      block.height < 2 ^ 64)
    (hapart : ∀ a b, known a → known b → a.hash env = b.hash env → a.height = b.height) :
    Criterion (fun cache (call : Call known) => cache.call env call) (fun _ => True)
      (Steady env known) (Answers overflowChecks) KeepsConfirmed := by
  refine ⟨fun cache h => h.answers overflowChecks, fun cache call _ _ h hanswers => ?_,
    fun cache call _ _ h hkeeps => ?_⟩
  · cases call with
    | insert block _ => trivial
    | confirm height hlt =>
      have hlookup := hanswers.hash
      change (cache.confirm height).hash ≠ none at hlookup
      rw [BlockCache.hash, confirm_height, confirm_lookup, if_neg (lt_irrefl _)] at hlookup
      refine ⟨fun hnone => hlookup ((h.filled.getByHeight_eq_none _).mp hnone), ?_⟩
      have hanswers : Answers overflowChecks (cache.confirm height) := hanswers
      have hroom := hanswers.room (fun k x hk => ?_) (by rw [confirm_maxHeight]; exact h.small)
      · rwa [confirm_height] at hroom
      · rw [confirm_height, confirm_maxHeight]
        rw [confirm_lookup] at hk
        split at hk
        · cases hk
        · exact ⟨by omega, (h.between k x hk).2⟩
    | remove x =>
      intro block hblock hheight
      have hlookup := hanswers.hash
      change (cache.remove x).hash ≠ none at hlookup
      rw [BlockCache.hash, remove_height, ← hheight] at hlookup
      exact hlookup (remove_lookup_self x block hblock)
  · cases call with
    | insert block hblock => exact h.insert hapart block hblock (hbound block hblock)
    | confirm height _ => exact h.confirm height hkeeps.1 hkeeps.2
    | remove x => exact h.remove x hkeeps

/-- A new cache has its first block, if there is room for it. -/
theorem new_steady_iff (overflowChecks : Bool) (startBlock : Block) (hstart : known startBlock)
    (hsmall : startBlock.height < 2 ^ 64) (maxCacheSize : ℕ) :
    let cache := BlockCache.new env startBlock maxCacheSize
    let roomy := (0 < maxCacheSize ∨ startBlock.height = 0) ∧ startBlock.height + 1 < 2 ^ 64
    (Answers overflowChecks cache → roomy) ∧ (roomy → Steady env known cache) := by
  intro cache roomy
  let empty : BlockCache := ⟨startBlock.height, startBlock.height, ∅, ∅, maxCacheSize⟩
  by_cases hfull : maxCacheSize = 0 ∧ 0 < startBlock.height
  · obtain ⟨hzero, hpos⟩ := hfull
    have hignored : Ignored empty startBlock :=
      Or.inr ⟨by simp [BlockCache.atCapacity, empty, hzero], hpos⟩
    refine ⟨fun hanswers => ?_, fun hroomy => ?_⟩
    · obtain ⟨maxHeight, hsame⟩ : ∃ maxHeight, empty.insert env startBlock =
          { empty with maxHeight } := insert_of_ignored startBlock hignored
      have hlookup := hanswers.hash
      rw [show cache = _ from hsame] at hlookup
      exact absurd (AList.lookup_empty _) hlookup
    · have := hroomy.1
      omega
  · have hnot : ¬Ignored empty startBlock := by
      rintro (hold | ⟨hcapacity, hlast⟩)
      · exact lt_irrefl _ hold
      · have hzero : maxCacheSize ≤ 0 := of_decide_eq_true hcapacity
        exact hfull ⟨by omega, hlast⟩
    have hput : cache = (empty.makeRoom startBlock).put env startBlock :=
      insert_of_not_ignored startBlock hnot
    have hmake : (empty.makeRoom startBlock) = empty := by
      have hseen : ({ empty with maxHeight := max empty.maxHeight startBlock.height } :
          BlockCache) = empty := by simp [empty]
      unfold BlockCache.makeRoom
      dsimp only
      rw [hseen]
      split
      · rfl
      · rfl
    rw [hmake] at hput
    have hlookup : ∀ k, cache.blockHashHeights.lookup k =
        if k = startBlock.height then some (startBlock.hash env) else none := by
      intro k
      rw [hput, lookup_put_height]
      rfl
    have hheight : cache.height = startBlock.height := by rw [hput]; rfl
    have hmax : cache.maxHeight = startBlock.height := by rw [hput]; rfl
    have hbetween : ∀ k x, cache.blockHashHeights.lookup k = some x →
        cache.height ≤ k ∧ k ≤ cache.maxHeight := by
      intro k x hk
      rw [hlookup] at hk
      split at hk
      · omega
      · cases hk
    refine ⟨fun hanswers => ⟨by omega, ?_⟩, fun hroomy => ⟨?_, hbetween, ?_, ?_, ?_⟩⟩
    · rw [← hheight]
      exact hanswers.room hbetween (by rw [hmax]; exact hsmall)
    · rw [hput]
      constructor
      · intro k x hk
        rw [lookup_put_height] at hk
        split at hk
        · rename_i heq
          obtain rfl := Option.some.inj hk
          exact ⟨startBlock, by rw [lookup_put_block, if_pos rfl], heq.symm⟩
        · simp [empty] at hk
      · intro x block hx
        rw [lookup_put_block] at hx
        split at hx
        · rename_i heq
          rw [← Option.some.inj hx, heq]
          exact ⟨rfl, hstart⟩
        · simp [empty] at hx
    · exact ⟨_, by rw [hlookup, if_pos hheight]⟩
    · rw [hheight]
      exact hroomy.2
    · rw [hmax]
      exact hsmall

end Laws

/-- A cache answers all along a run exactly when it has room for its first block and no call
takes the block of the confirmed height away. -/
theorem run_answers_iff (env : NodeEnv) (known : Block → Prop)
    (hbound : ∀ block, known block → block.height < 2 ^ 64)
    (hapart : ∀ a b, known a → known b → a.hash env = b.hash env → a.height = b.height)
    (overflowChecks : Bool) (startBlock : Block) (hstart : known startBlock) (maxCacheSize : ℕ)
    (calls : List (Call known)) :
    (∀ before, before <+: calls → Answers overflowChecks (before.foldl
        (fun cache call => cache.call env call) (BlockCache.new env startBlock maxCacheSize))) ↔
      ((0 < maxCacheSize ∨ startBlock.height = 0) ∧ startBlock.height + 1 < 2 ^ 64) ∧
        ∀ before call, before ++ [call] <+: calls → KeepsConfirmed (before.foldl
          (fun cache call => cache.call env call) (BlockCache.new env startBlock maxCacheSize))
            call := by
  obtain ⟨hroomy, hsteady⟩ := @new_steady_iff env known overflowChecks startBlock hstart
    (hbound startBlock hstart) maxCacheSize
  have hiff := fun hs => forall_prefix_iff (s := BlockCache.new env startBlock maxCacheSize)
    (keeps_criterion overflowChecks hbound hapart) hs
    fun before (_ : before <+: calls) => trivial
  constructor
  · intro hanswers
    have hroom := hroomy (hanswers [] List.nil_prefix)
    exact ⟨hroom, (hiff (hsteady hroom)).mp hanswers⟩
  · rintro ⟨hroom, hkeeps⟩
    exact (hiff (hsteady hroom)).mpr hkeeps

/-- The first block and the next one. -/
def FirstTwo (block : Block) : Prop := block = plainBlock 0 1#256 ∨ block = plainBlock 1 2#256

theorem run_answers_insert :
    FirstTwo (plainBlock 0 1#256) ∧
      ∀ before : List (Call FirstTwo), before <+: [.insert (plainBlock 1 2#256) (Or.inr rfl)] →
        Answers true (before.foldl (fun cache call => cache.call wordEnv call)
          (BlockCache.new wordEnv (plainBlock 0 1#256) 10000)) := by
  have hhash : (plainBlock 0 1#256).hash wordEnv ≠ (plainBlock 1 2#256).hash wordEnv := by
    decide
  refine ⟨Or.inl rfl, ?_⟩
  refine (run_answers_iff wordEnv FirstTwo ?_ ?_ true _ (Or.inl rfl) 10000 _).mpr
    ⟨⟨Or.inr rfl, by decide⟩, ?_⟩
  · rintro block (rfl | rfl) <;> decide
  · rintro a b (rfl | rfl) (rfl | rfl) heq
    · rfl
    · exact absurd heq hhash
    · exact absurd heq.symm hhash
    · rfl
  · intro before call hcall
    have hmem := hcall.subset (List.mem_append_right before (List.mem_singleton_self call))
    rw [List.mem_singleton.mp hmem]
    trivial

/-- Confirming the height below a snapshot empties the cache, and both answers panic. -/
theorem not_answers_confirm :
    ((BlockCache.new wordEnv (plainBlock 0 1#256) 10000).confirm 5).isOutOfSync true = none ∧
      ¬Answers true ((BlockCache.new wordEnv (plainBlock 0 1#256) 10000).confirm 5) := by
  have hpanic : ((BlockCache.new wordEnv (plainBlock 0 1#256) 10000).confirm 5).isOutOfSync true =
      none := by decide
  refine ⟨hpanic, fun h => ?_⟩
  obtain ⟨answer, hanswer, -⟩ := h.exact
  rw [hpanic] at hanswer
  cases hanswer

end PayyRollup.BlockCaches
