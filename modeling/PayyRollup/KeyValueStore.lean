import Mathlib.Data.Finmap
import Mathlib.Data.Finset.Sort

/-!
A key-value store whose keys are kept in the order of an injective code. Writes come in
batches that are applied as a whole, so what matters about a batch is its last write to each
key. Two stores with the same values are equal, whatever writes led to them.
-/
namespace PayyRollup.KeyValueStore

variable {K O V : Type} [DecidableEq K] [LinearOrder O]

abbrev Store (K V : Type) := Finmap fun _ : K => V

/-- The code of a key, by which the keys are ordered. -/
structure Coding (K O : Type) where
  code : K → O
  injective : Function.Injective code

namespace Coding

def Le (c : Coding K O) (a b : K) : Prop := c.code a ≤ c.code b

instance (c : Coding K O) : DecidableRel c.Le := fun a b =>
  inferInstanceAs (Decidable (c.code a ≤ c.code b))

instance (c : Coding K O) : IsTrans K c.Le := ⟨fun _ _ _ h h' => le_trans h h'⟩

instance (c : Coding K O) : Std.Antisymm c.Le := ⟨fun _ _ h h' => c.injective (le_antisymm h h')⟩

instance (c : Coding K O) : Std.Total c.Le := ⟨fun a b => le_total (c.code a) (c.code b)⟩

end Coding

inductive Write (K V : Type)
  | put (key : K) (value : V)
  | delete (key : K)
  deriving DecidableEq

namespace Write

def key : Write K V → K
  | put key _ => key
  | delete key => key

/-- What the key holds after the write. -/
def outcome : Write K V → Option V
  | put _ value => some value
  | delete _ => none

def apply (s : Store K V) : Write K V → Store K V
  | put key value => s.insert key value
  | delete key => s.erase key

theorem lookup_apply_self (w : Write K V) (s : Store K V) :
    (w.apply s).lookup w.key = w.outcome := by
  cases w with
  | put key value => exact Finmap.lookup_insert s
  | delete key => exact Finmap.lookup_erase key s

theorem lookup_apply_of_ne (w : Write K V) (s : Store K V) (k : K) (h : k ≠ w.key) :
    (w.apply s).lookup k = s.lookup k := by
  cases w with
  | put key value => exact Finmap.lookup_insert_of_ne s h
  | delete key => exact Finmap.lookup_erase_ne h

end Write

/-- Apply a batch of writes. -/
def write (batch : List (Write K V)) (s : Store K V) : Store K V := batch.foldl Write.apply s

theorem write_append (first second : List (Write K V)) (s : Store K V) :
    write (first ++ second) s = write second (write first s) := List.foldl_append

theorem lookup_write_of_not_mem (batch : List (Write K V)) (s : Store K V) (k : K)
    (h : ∀ w ∈ batch, w.key ≠ k) : (write batch s).lookup k = s.lookup k := by
  induction batch generalizing s with
  | nil => rfl
  | cons w rest ih =>
    obtain ⟨hw, hrest⟩ := List.forall_mem_cons.mp h
    have hfirst := w.lookup_apply_of_ne s k (Ne.symm hw)
    exact (ih (w.apply s) hrest).trans hfirst

/-- The last write to a key decides what it holds. -/
theorem lookup_write_of_last (before after : List (Write K V)) (w : Write K V) (s : Store K V)
    (h : ∀ w' ∈ after, w'.key ≠ w.key) :
    (write (before ++ w :: after) s).lookup w.key = w.outcome := by
  rw [write_append]
  have hlast := w.lookup_apply_self (write before s)
  exact (lookup_write_of_not_mem after _ w.key h).trans hlast

/-- A batch without a write to a key leaves it, and otherwise the last one decides. -/
theorem lookup_write_cases (batch : List (Write K V)) (s : Store K V) (k : K) :
    (∀ w ∈ batch, w.key ≠ k) ∧ (write batch s).lookup k = s.lookup k ∨
      ∃ before w after, batch = before ++ w :: after ∧ w.key = k ∧
        (∀ w' ∈ after, w'.key ≠ k) ∧ (write batch s).lookup k = w.outcome := by
  induction batch generalizing s with
  | nil => exact Or.inl ⟨by simp, rfl⟩
  | cons w rest ih =>
    rcases ih (w.apply s) with ⟨hnone, hlookup⟩ | ⟨before, last, after, rfl, hkey, hafter, hlookup⟩
    · by_cases hw : w.key = k
      · subst hw
        exact Or.inr ⟨[], w, rest, rfl, rfl, hnone, hlookup.trans (w.lookup_apply_self s)⟩
      · have hfirst := w.lookup_apply_of_ne s k (Ne.symm hw)
        exact Or.inl ⟨List.forall_mem_cons.mpr ⟨hw, hnone⟩, hlookup.trans hfirst⟩
    · exact Or.inr ⟨w :: before, last, after, rfl, hkey, hafter, hlookup⟩

/-- Either no write is to the key, or what it holds was written. -/
theorem lookup_write_mem_cases (batch : List (Write K V)) (s : Store K V) (k : K) :
    (∀ w ∈ batch, w.key ≠ k) ∧ (write batch s).lookup k = s.lookup k ∨
      ∃ w ∈ batch, w.key = k ∧ (write batch s).lookup k = w.outcome := by
  rcases lookup_write_cases batch s k with hnone | ⟨before, w, after, hbatch, hkey, -, hlookup⟩
  · exact Or.inl hnone
  · exact Or.inr ⟨w, by rw [hbatch]; simp, hkey, hlookup⟩

/-- With one write to each key, every write decides what its key holds. -/
theorem lookup_write_of_mem (batch : List (Write K V)) (w : Write K V) (s : Store K V)
    (hkeys : batch.Pairwise fun w w' => w.key ≠ w'.key) (h : w ∈ batch) :
    (write batch s).lookup w.key = w.outcome := by
  obtain ⟨before, after, rfl⟩ := List.append_of_mem h
  have hafter := (List.pairwise_cons.mp (List.pairwise_append.mp hkeys).2.1).1
  exact lookup_write_of_last before after w s fun w' hw' => Ne.symm (hafter w' hw')

/-- The last write to a key. -/
def lastWrite (batch : List (Write K V)) (k : K) : Option (Write K V) :=
  batch.reverse.find? fun w => w.key = k

theorem lastWrite_append (first second : List (Write K V)) (k : K) :
    lastWrite (first ++ second) k = (lastWrite second k).or (lastWrite first k) := by
  rw [lastWrite, List.reverse_append, List.find?_append]
  rfl

theorem lastWrite_singleton (w : Write K V) (k : K) :
    lastWrite [w] k = if w.key = k then some w else none := by
  by_cases hw : w.key = k <;> simp [lastWrite, hw]

theorem lastWrite_eq_none (batch : List (Write K V)) (k : K) (h : ∀ w ∈ batch, w.key ≠ k) :
    lastWrite batch k = none := by
  rw [lastWrite, List.find?_eq_none]
  intro w hw
  simpa using h w (List.mem_reverse.mp hw)

/-- What a key holds after a batch is what its last write says. -/
theorem lookup_write (batch : List (Write K V)) (s : Store K V) (k : K) :
    (write batch s).lookup k =
      match lastWrite batch k with
      | some w => w.outcome
      | none => s.lookup k := by
  induction batch using List.reverseRecOn with
  | nil => rfl
  | append_singleton batch w ih =>
    rw [write_append, lastWrite_append]
    change (w.apply (write batch s)).lookup k = _
    by_cases hw : w.key = k
    · subst hw
      rw [lastWrite_singleton, if_pos rfl]
      exact w.lookup_apply_self _
    · rw [lastWrite_singleton, if_neg hw, w.lookup_apply_of_ne _ k (Ne.symm hw), ih,
        Option.none_or]

/-- Put every entry of a list. -/
def putAll (entries : List (K × V)) (s : Store K V) : Store K V :=
  write (entries.map fun e => Write.put e.1 e.2) s

theorem lookup_putAll_of_mem (entries : List (K × V)) (s : Store K V) (k : K) (v : V)
    (hkeys : (entries.map Prod.fst).Nodup) (h : (k, v) ∈ entries) :
    (putAll entries s).lookup k = some v := by
  refine lookup_write_of_mem _ (Write.put k v) s ?_ (List.mem_map_of_mem h)
  rw [List.pairwise_map]
  rw [List.nodup_iff_pairwise_ne, List.pairwise_map] at hkeys
  exact hkeys

theorem lookup_putAll_of_not_mem (entries : List (K × V)) (s : Store K V) (k : K)
    (h : k ∉ entries.map Prod.fst) : (putAll entries s).lookup k = s.lookup k := by
  apply lookup_write_of_not_mem
  intro w hw hkey
  obtain ⟨e, he, rfl⟩ := List.mem_map.mp hw
  exact h (List.mem_map.mpr ⟨e, he, hkey⟩)

theorem mem_putAll (entries : List (K × V)) (s : Store K V) (k : K) :
    k ∈ putAll entries s ↔ k ∈ entries.map Prod.fst ∨ k ∈ s := by
  induction entries generalizing s with
  | nil => simp [putAll, write]
  | cons e rest ih =>
    change k ∈ putAll rest (s.insert e.1 e.2) ↔ _
    rw [ih, Finmap.mem_insert, List.map_cons, List.mem_cons]
    tauto

/-- What a store holds after distinct keys have been put. -/
theorem lookup_putAll_iff (entries : List (K × V)) (s : Store K V) (k : K) (v : V)
    (hkeys : (entries.map Prod.fst).Nodup) :
    (putAll entries s).lookup k = some v ↔
      (k, v) ∈ entries ∨ k ∉ entries.map Prod.fst ∧ s.lookup k = some v := by
  by_cases hk : k ∈ entries.map Prod.fst
  · obtain ⟨⟨k', w⟩, hw, rfl⟩ := List.mem_map.mp hk
    rw [lookup_putAll_of_mem entries s k' w hkeys hw, Option.some_inj]
    constructor
    · rintro rfl
      exact Or.inl hw
    · rintro (hv | ⟨hnot, -⟩)
      · have heq := List.inj_on_of_nodup_map hkeys hw hv rfl
        exact congrArg Prod.snd heq
      · exact absurd hk hnot
  · rw [lookup_putAll_of_not_mem entries s k hk]
    constructor
    · intro h
      exact Or.inr ⟨hk, h⟩
    · rintro (hv | ⟨-, h⟩)
      · exact absurd (List.mem_map_of_mem hv) hk
      · exact h

/-- Lists along which a measure increases are determined by their elements. -/
theorem eq_of_increasing {α β : Type} [Preorder β] (f : α → β) (xs ys : List α)
    (hxs : xs.Pairwise fun a b => f a < f b) (hys : ys.Pairwise fun a b => f a < f b)
    (h : ∀ e, e ∈ xs ↔ e ∈ ys) : xs = ys := by
  have hnodup : ∀ zs : List α, (zs.Pairwise fun a b => f a < f b) → zs.Nodup := by
    intro zs hzs
    rw [List.nodup_iff_pairwise_ne]
    apply hzs.imp
    intro a b hab heq
    exact absurd (congrArg f heq) hab.ne
  have hperm := (List.perm_ext_iff_of_nodup (hnodup xs hxs) (hnodup ys hys)).mpr h
  exact hperm.eq_of_pairwise (fun a b _ _ hab hba => absurd hba hab.asymm) hxs hys

section Iteration

variable (c : Coding K O) (s : Store K V)

/-- The entries in the order of their keys. -/
def iterator : List (K × V) :=
  (s.keys.sort c.Le).filterMap fun k => (s.lookup k).map fun v => (k, v)

theorem mem_iterator (k : K) (v : V) : (k, v) ∈ iterator c s ↔ s.lookup k = some v := by
  rw [iterator, List.mem_filterMap]
  constructor
  · rintro ⟨k', -, h⟩
    obtain ⟨v', hv', heq⟩ := Option.map_eq_some_iff.mp h
    obtain ⟨rfl, rfl⟩ := Prod.mk.inj heq
    exact hv'
  · intro h
    refine ⟨k, ?_, by rw [h]; rfl⟩
    rw [Finset.mem_sort, Finmap.mem_keys]
    exact Finmap.mem_of_lookup_eq_some h

theorem map_fst_iterator : (iterator c s).map Prod.fst = s.keys.sort c.Le := by
  have hall : ∀ k ∈ s.keys.sort c.Le, (s.lookup k).isSome = true := by
    intro k hk
    rw [Finset.mem_sort, Finmap.mem_keys] at hk
    exact Finmap.lookup_isSome.mpr hk
  unfold iterator
  generalize s.keys.sort c.Le = keys at hall
  induction keys with
  | nil => rfl
  | cons k rest ih =>
    obtain ⟨hk, hrest⟩ := List.forall_mem_cons.mp hall
    obtain ⟨v, hv⟩ := Option.isSome_iff_exists.mp hk
    simp [hv, ih hrest]

theorem mem_map_fst_iterator (k : K) : k ∈ (iterator c s).map Prod.fst ↔ k ∈ s := by
  rw [map_fst_iterator, Finset.mem_sort, Finmap.mem_keys]

theorem iterator_nodup : ((iterator c s).map Prod.fst).Nodup := by
  rw [map_fst_iterator]
  exact Finset.sort_nodup s.keys c.Le

theorem iterator_sorted : (iterator c s).Pairwise fun a b => c.code a.1 < c.code b.1 := by
  have hsorted := Finset.pairwise_sort s.keys c.Le
  rw [← map_fst_iterator, List.pairwise_map] at hsorted
  have hnodup := iterator_nodup c s
  rw [List.nodup_iff_pairwise_ne, List.pairwise_map] at hnodup
  apply (hsorted.and hnodup).imp
  intro a b hab
  exact lt_of_le_of_ne hab.1 fun heq => hab.2 (c.injective heq)

omit [DecidableEq K] in
/-- Entries in the order of their keys are determined by which they are. -/
theorem eq_of_sorted (xs ys : List (K × V)) (hxs : xs.Pairwise fun a b => c.code a.1 < c.code b.1)
    (hys : ys.Pairwise fun a b => c.code a.1 < c.code b.1) (h : ∀ e, e ∈ xs ↔ e ∈ ys) :
    xs = ys :=
  eq_of_increasing (fun e : K × V => c.code e.1) xs ys hxs hys h

end Iteration
end PayyRollup.KeyValueStore
