import Mathlib.Data.List.Basic
import Mathlib.Data.List.Induction
import Mathlib.Data.Set.Function

/-!
Chains of a compression function over the blocks of a message. The compression is injective only
on the pairs that are compressed, and no such pair gives the first state of a chain. Then a chain
determines its blocks, however many there are. The items of a message are cut into runs of one
size and the last run is filled up; so the filled runs determine the message up to what filled
the last one.
-/
namespace PayyRollup.CompressionChains

section Chains

variable {α β : Type} (compress : α → β → α)

/-- The state and the block of every step are among the pairs. -/
def Chained (pairs : Set (α × β)) (iv : α) (blocks : List β) : Prop :=
  ∀ front block, front ++ [block] <+: blocks → (front.foldl compress iv, block) ∈ pairs

theorem chained_nil (pairs : Set (α × β)) (iv : α) : Chained compress pairs iv [] := by
  intro front block hstart
  have hlength := hstart.length_le
  rw [List.length_append, List.length_singleton, List.length_nil] at hlength
  omega

theorem chained_cons (pairs : Set (α × β)) (iv : α) (block : β) (blocks : List β)
    (hfirst : (iv, block) ∈ pairs) (hrest : Chained compress pairs (compress iv block) blocks) :
    Chained compress pairs iv (block :: blocks) := by
  intro front b hstart
  cases front with
  | nil =>
    obtain ⟨hb, _⟩ := List.cons_prefix_cons.mp hstart
    rw [hb]
    exact hfirst
  | cons x front =>
    obtain ⟨hx, hfront⟩ := List.cons_prefix_cons.mp hstart
    rw [hx, List.foldl_cons]
    exact hrest front b hfront

theorem Chained.front (pairs : Set (α × β)) (iv : α) (front : List β) (block : β)
    (h : Chained compress pairs iv (front ++ [block])) : Chained compress pairs iv front :=
  fun before b hstart => h before b (hstart.trans (List.prefix_append front [block]))

theorem Chained.last (pairs : Set (α × β)) (iv : α) (front : List β) (block : β)
    (h : Chained compress pairs iv (front ++ [block])) :
    (front.foldl compress iv, block) ∈ pairs :=
  h front block List.prefix_rfl

variable {compress} {pairs : Set (α × β)} {iv : α}

/-- A chain that compresses something does not end in its first state. -/
theorem foldl_concat_ne (hiv : ∀ pair ∈ pairs, compress pair.1 pair.2 ≠ iv) (front : List β)
    (block : β) (h : Chained compress pairs iv (front ++ [block])) :
    (front ++ [block]).foldl compress iv ≠ iv := by
  rw [List.foldl_append]
  exact hiv _ (Chained.last compress pairs iv front block h)

theorem foldl_inj (hinj : Set.InjOn (fun pair : α × β => compress pair.1 pair.2) pairs)
    (hiv : ∀ pair ∈ pairs, compress pair.1 pair.2 ≠ iv) (xs ys : List β)
    (hxs : Chained compress pairs iv xs) (hys : Chained compress pairs iv ys)
    (h : xs.foldl compress iv = ys.foldl compress iv) : xs = ys := by
  induction xs using List.reverseRecOn generalizing ys with
  | nil =>
    rcases List.eq_nil_or_concat' ys with hnil | ⟨front, block, hys'⟩
    · exact hnil.symm
    · subst hys'
      exact absurd h.symm (foldl_concat_ne hiv front block hys)
  | append_singleton xs x ih =>
    rcases List.eq_nil_or_concat' ys with hnil | ⟨front, block, hys'⟩
    · subst hnil
      exact absurd h (foldl_concat_ne hiv xs x hxs)
    · subst hys'
      have hpair : (xs.foldl compress iv, x) = (front.foldl compress iv, block) := by
        apply hinj (Chained.last compress pairs iv xs x hxs)
          (Chained.last compress pairs iv front block hys)
        rw [List.foldl_append, List.foldl_append] at h
        exact h
      obtain ⟨hstate, hblock⟩ := Prod.mk.inj hpair
      rw [ih front (Chained.front compress pairs iv xs x hxs)
        (Chained.front compress pairs iv front block hys) hstate, hblock]

end Chains

section Chunks

variable {α : Type} (size : ℕ)

def chunkCount (length : ℕ) : ℕ := (length + size - 1) / size

/-- The runs of `size` items; the last one may be shorter. -/
def chunks (xs : List α) : List (List α) :=
  (List.range (chunkCount size xs.length)).map fun i => (xs.drop (i * size)).take size

/-- A run filled up to `size` items. -/
def fill (item : α) (run : List α) : List α :=
  run ++ List.replicate (size - run.length) item

/-- The items, with the last run filled up. -/
def fillLast (item : α) (xs : List α) : List α :=
  xs ++ List.replicate (chunkCount size xs.length * size - xs.length) item

theorem chunkCount_zero (hsize : 0 < size) : chunkCount size 0 = 0 := by
  unfold chunkCount
  exact Nat.div_eq_of_lt (by omega)

theorem chunkCount_pos (hsize : 0 < size) (length : ℕ) (hlength : 0 < length) :
    chunkCount size length = chunkCount size (length - size) + 1 := by
  unfold chunkCount
  by_cases hfull : size ≤ length
  · rw [show length + size - 1 = length - size + size - 1 + size by omega,
      Nat.add_div_right _ hsize]
  · rw [show length - size + size - 1 = size - 1 by omega,
      Nat.div_eq_of_lt (show size - 1 < size by omega),
      show length + size - 1 = length - 1 + size by omega, Nat.add_div_right _ hsize,
      Nat.div_eq_of_lt (show length - 1 < size by omega)]

theorem chunks_nil (hsize : 0 < size) : chunks size ([] : List α) = [] := by
  simp [chunks, chunkCount_zero size hsize]

theorem chunks_of_ne (hsize : 0 < size) (xs : List α) (hxs : xs ≠ []) :
    chunks size xs = xs.take size :: chunks size (xs.drop size) := by
  unfold chunks
  rw [chunkCount_pos size hsize xs.length (List.length_pos_iff.mpr hxs),
    List.range_succ_eq_map, List.map_cons, List.map_map, Nat.zero_mul, List.drop_zero,
    List.length_drop]
  congr 1
  apply List.map_congr_left
  intro i _
  rw [Function.comp_apply, List.drop_drop, Nat.succ_mul, Nat.add_comm]

variable (item : α)

theorem fill_length (run : List α) (hrun : run.length ≤ size) :
    (fill size item run).length = size := by
  simp [fill, hrun]

theorem fillLast_nil (hsize : 0 < size) : fillLast size item [] = [] := by
  simp [fillLast, chunkCount_zero size hsize]

theorem fillLast_of_ne (hsize : 0 < size) (xs : List α) (hxs : xs ≠ []) :
    fillLast size item xs = fill size item (xs.take size) ++ fillLast size item (xs.drop size) := by
  have hcount := chunkCount_pos size hsize xs.length (List.length_pos_iff.mpr hxs)
  unfold fillLast fill
  rw [hcount, Nat.succ_mul, List.length_take, List.length_drop]
  by_cases hfull : size ≤ xs.length
  · rw [Nat.min_eq_left hfull, Nat.sub_self, List.replicate_zero, List.append_nil,
      ← List.append_assoc, List.take_append_drop]
    congr 2
    omega
  · rw [Nat.min_eq_right (by omega), List.take_of_length_le (by omega),
      List.drop_of_length_le (by omega), Nat.sub_eq_zero_of_le (show xs.length ≤ size by omega),
      chunkCount_zero size hsize]
    simp

theorem chunks_length_le (xs run : List α) (hrun : run ∈ chunks size xs) : run.length ≤ size := by
  obtain ⟨i, _, hi⟩ := List.mem_map.mp hrun
  rw [← hi, List.length_take]
  omega

/-- The filled runs are the runs of the message whose last run is filled. -/
theorem flatten_fill_chunks (hsize : 0 < size) (xs : List α) :
    ((chunks size xs).map (fill size item)).flatten = fillLast size item xs := by
  by_cases hxs : xs = []
  · rw [hxs, chunks_nil size hsize, fillLast_nil size item hsize]
    rfl
  · have hshorter : (xs.drop size).length < xs.length := by
      have := List.length_pos_iff.mpr hxs
      rw [List.length_drop]
      omega
    rw [chunks_of_ne size hsize xs hxs, fillLast_of_ne size item hsize xs hxs, List.map_cons,
      List.flatten_cons, flatten_fill_chunks hsize (xs.drop size)]
termination_by xs.length

/-- Runs of one length are determined by what they make together. -/
theorem flatten_inj (hsize : 0 < size) (runs others : List (List α))
    (hruns : ∀ run ∈ runs, run.length = size) (hothers : ∀ run ∈ others, run.length = size)
    (h : runs.flatten = others.flatten) : runs = others := by
  induction runs generalizing others with
  | nil =>
    cases others with
    | nil => rfl
    | cons other others =>
      have hlength := congrArg List.length h
      rw [List.flatten_cons, List.length_append, hothers other List.mem_cons_self] at hlength
      simp only [List.flatten_nil, List.length_nil] at hlength
      omega
  | cons run runs ih =>
    cases others with
    | nil =>
      have hlength := congrArg List.length h
      rw [List.flatten_cons, List.length_append, hruns run List.mem_cons_self] at hlength
      simp only [List.flatten_nil, List.length_nil] at hlength
      omega
    | cons other others =>
      rw [List.flatten_cons, List.flatten_cons] at h
      have hsame : run.length = other.length := by
        rw [hruns run List.mem_cons_self, hothers other List.mem_cons_self]
      obtain ⟨hhead, htail⟩ := List.append_inj h hsame
      rw [hhead, ih others (fun r hr => hruns r (List.mem_cons_of_mem _ hr))
        (fun r hr => hothers r (List.mem_cons_of_mem _ hr)) htail]

/-- Two messages have the same filled runs exactly when filling their last runs makes them the
same message. -/
theorem fill_chunks_eq_iff (hsize : 0 < size) (xs ys : List α) :
    (chunks size xs).map (fill size item) = (chunks size ys).map (fill size item) ↔
      fillLast size item xs = fillLast size item ys := by
  have hlength : ∀ zs : List α, ∀ run ∈ (chunks size zs).map (fill size item),
      run.length = size := by
    intro zs run hrun
    obtain ⟨chunk, hchunk, rfl⟩ := List.mem_map.mp hrun
    exact fill_length size item chunk (chunks_length_le size zs chunk hchunk)
  rw [← flatten_fill_chunks size item hsize xs, ← flatten_fill_chunks size item hsize ys]
  constructor
  · intro h
    rw [h]
  · exact flatten_inj size hsize _ _ (hlength xs) (hlength ys)

theorem eq_of_fillLast (xs ys : List α) (hlength : xs.length = ys.length)
    (h : fillLast size item xs = fillLast size item ys) : xs = ys :=
  (List.append_inj h hlength).1

end Chunks
end PayyRollup.CompressionChains
