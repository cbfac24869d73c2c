import PayyRollup.KeyValueStore
import PayyRollup.PrefixRuns

/-!
The mempool of a node: the transactions by key, the pool of keys that wait, and the keys that
are leased to a block height. The three collections are kept in step by hand. A commit takes
the lock twice, once to remove its transactions and once to free its lease, so other calls may
come between. A transaction is in one place along a run exactly when no step leases it twice,
adds one that is leased already or frees a key without a transaction.
-/
namespace PayyRollup.Mempool

open KeyValueStore PrefixRuns

structure MempoolTxn (V C S : Type) where
  txn : V
  sender : Option S
  changes : List C

structure MempoolState (K V L C S : Type) where
  txns : Store K (MempoolTxn V C S)
  pool : List K
  leased : Store L (Finset K)

/-- The order in which a set is iterated. -/
structure Iteration (K : Type) where
  list : Finset K → List K
  nodup : ∀ s, (list s).Nodup
  mem : ∀ s k, k ∈ list s ↔ k ∈ s

variable {K V L C S R : Type} [DecidableEq K] [DecidableEq L]

namespace MempoolState

def default : MempoolState K V L C S := ⟨∅, [], ∅⟩

/-- The keys of a lease. -/
def held (s : MempoolState K V L C S) (lease : L) : Finset K := (s.leased.lookup lease).getD ∅

/-- Add a transaction whose key is new; the sender of a known one is dropped. -/
def add (s : MempoolState K V L C S) (key : K) (txn : MempoolTxn V C S) :
    MempoolState K V L C S :=
  if key ∈ s.txns then s
  else { s with txns := s.txns.insert key txn, pool := s.pool ++ [key] }

/-- Remove a transaction and send its result, then drop the key from the lease and the pool. -/
def commitKey (lease : L) (s : MempoolState K V L C S) (key : K) (result : R) :
    MempoolState K V L C S × List (S × R) :=
  let sent := match s.txns.lookup key with
    | some txn => (txn.sender.map fun sender => (sender, result)).toList
    | none => []
  let leased := match s.leased.lookup lease with
    | some keys => s.leased.insert lease (keys.erase key)
    | none => s.leased
  ({ txns := s.txns.erase key, pool := s.pool.erase key, leased }, sent)

/-- The first half of a commit. -/
def commitKeys (lease : L) (s : MempoolState K V L C S) :
    List (K × R) → MempoolState K V L C S × List (S × R)
  | [] => (s, [])
  | (key, result) :: rest =>
      let first := commitKey lease s key result
      let others := commitKeys lease first.1 rest
      (others.1, first.2 ++ others.2)

/-- The second half of a commit: the keys of the lease go back to the front of the pool. -/
def free (s : MempoolState K V L C S) (lease : L) (order : Iteration K) :
    MempoolState K V L C S :=
  { s with
    leased := s.leased.erase lease
    pool := (order.list (s.held lease)).foldl (fun pool k => k :: pool) s.pool }

def commit (s : MempoolState K V L C S) (lease : L) (keysWithResults : List (K × R))
    (order : Iteration K) : MempoolState K V L C S × List (S × R) :=
  let removed := commitKeys lease s keysWithResults
  (removed.1.free lease order, removed.2)

def leaseKey (lease : L) (s : MempoolState K V L C S) (key : K) : MempoolState K V L C S :=
  { s with
    pool := s.pool.erase key
    leased := s.leased.insert lease (insert key (s.held lease)) }

def leaseTxns (s : MempoolState K V L C S) (lease : L) (keys : List K) :
    MempoolState K V L C S :=
  keys.foldl (leaseKey lease) s

/-- What a batch has taken so far. -/
structure Taken (K V C : Type) where
  txns : List (K × V)
  discard : List K
  conflictCheck : List C

/-- Take keys off the pool until the batch is full; `none` stands for a key without a
transaction, at which the call panics. -/
def leaseLoop [DecidableEq C] (lease : L) (maxCount : ℕ) (s : MempoolState K V L C S) (taken : Taken K V C) :
    List K → MempoolState K V L C S × Option (Taken K V C)
  | [] => ({ s with pool := [] }, some taken)
  | key :: rest =>
      match s.txns.lookup key with
      | none => ({ s with pool := rest }, none)
      | some txn =>
          if txn.changes.any (· ∈ taken.conflictCheck) then
            leaseLoop lease maxCount s { taken with discard := taken.discard ++ [key] } rest
          else
            let s := { s with leased := s.leased.insert lease (insert key (s.held lease)) }
            let taken := { taken with
              conflictCheck := taken.conflictCheck ++ txn.changes
              txns := taken.txns ++ [(key, txn.txn)] }
            if maxCount ≤ taken.txns.length then ({ s with pool := rest }, some taken)
            else leaseLoop lease maxCount s taken rest

/-- Lease a batch without conflicts; the discarded keys go back to the pool. -/
def leaseBatch [DecidableEq C] (s : MempoolState K V L C S) (lease : L) (maxCount : ℕ) :
    MempoolState K V L C S × Option (List (K × V)) :=
  match leaseLoop lease maxCount s ⟨[], [], []⟩ s.pool with
  | (s, none) => (s, none)
  | (s, some taken) => ({ s with pool := s.pool ++ taken.discard }, some taken.txns)

end MempoolState

/-- What a call does under the lock. -/
inductive Section (K V L C S R : Type)
  | add (key : K) (txn : MempoolTxn V C S)
  | leaseTxns (lease : L) (keys : List K)
  | leaseBatch (lease : L) (maxCount : ℕ)
  | commitKeys (lease : L) (keysWithResults : List (K × R))
  | free (lease : L) (order : Iteration K)

namespace MempoolState

def step [DecidableEq C] (s : MempoolState K V L C S) : Section K V L C S R → MempoolState K V L C S
  | .add key txn => s.add key txn
  | .leaseTxns lease keys => s.leaseTxns lease keys
  | .leaseBatch lease maxCount => (s.leaseBatch lease maxCount).1
  | .commitKeys lease keysWithResults => (commitKeys lease s keysWithResults).1
  | .free lease order => s.free lease order

variable (s : MempoolState K V L C S)

section Effects

omit [DecidableEq K] in
theorem held_insert (lease l : L) (keys : Finset K) :
    ({ s with leased := s.leased.insert lease keys } : MempoolState K V L C S).held l =
      if l = lease then keys else s.held l := by
  unfold held
  by_cases h : l = lease
  · subst h
    rw [Finmap.lookup_insert, if_pos rfl]
    rfl
  · rw [Finmap.lookup_insert_of_ne _ h, if_neg h]

theorem leaseTxns_txns (lease : L) (keys : List K) : (s.leaseTxns lease keys).txns = s.txns := by
  induction keys generalizing s with
  | nil => rfl
  | cons key keys ih => exact ih (leaseKey lease s key)

theorem leaseTxns_pool (lease : L) (keys : List K) :
    (s.leaseTxns lease keys).pool = s.pool.diff keys := by
  induction keys generalizing s with
  | nil => rfl
  | cons key keys ih =>
    rw [List.diff_cons]
    exact ih (leaseKey lease s key)

theorem mem_held_leaseTxns (lease : L) (keys : List K) (l : L) (k : K) :
    k ∈ (s.leaseTxns lease keys).held l ↔ k ∈ s.held l ∨ l = lease ∧ k ∈ keys := by
  induction keys generalizing s with
  | nil => simp [leaseTxns]
  | cons key keys ih =>
    have hfirst : (leaseKey lease s key).held l =
        if l = lease then insert key (s.held lease) else s.held l :=
      held_insert { s with pool := s.pool.erase key } lease l _
    rw [show s.leaseTxns lease (key :: keys) = (leaseKey lease s key).leaseTxns lease keys from rfl,
      ih, hfirst]
    by_cases hl : l = lease
    · subst hl
      simp only [if_pos, Finset.mem_insert, List.mem_cons]
      tauto
    · simp [hl]

/-- The result of a batch from a pool whose keys all have transactions. -/
structure Leased (lease : L) (keys : List K) (s s' : MempoolState K V L C S) : Prop where
  txns : s'.txns = s.txns
  held : ∀ l k, k ∈ s'.held l ↔ k ∈ s.held l ∨ l = lease ∧ k ∈ keys

theorem leaseLoop_spec [DecidableEq C] (lease : L) (maxCount : ℕ) (taken taken' : Taken K V C)
    (pool : List K) (s' : MempoolState K V L C S)
    (hloop : leaseLoop lease maxCount s taken pool = (s', some taken')) :
    ∃ keys, Leased lease keys s s' ∧
      taken'.txns.map Prod.fst = taken.txns.map Prod.fst ++ keys ∧
      (taken.discard ++ pool).Perm (keys ++ (s'.pool ++ taken'.discard)) := by
  induction pool generalizing s taken with
  | nil =>
    obtain ⟨rfl, rfl⟩ : { s with pool := [] } = s' ∧ taken = taken' := by
      simpa [leaseLoop] using hloop
    refine ⟨[], ⟨rfl, fun l k => ?_⟩, by simp, by simp⟩
    simp [held]
  | cons key rest ih =>
    unfold leaseLoop at hloop
    cases htxn : s.txns.lookup key with
    | none => simp [htxn] at hloop
    | some txn =>
      simp only [htxn] at hloop
      split at hloop
      · obtain ⟨keys, hleased, htxns, hperm⟩ := ih s _ hloop
        exact ⟨keys, hleased, htxns, by simpa using hperm⟩
      · let next : MempoolState K V L C S :=
          { s with leased := s.leased.insert lease (insert key (s.held lease)) }
        have hnext : ∀ l k, k ∈ next.held l ↔ k ∈ s.held l ∨ l = lease ∧ k = key := by
          intro l k
          rw [held_insert]
          by_cases hl : l = lease
          · subst hl
            rw [if_pos rfl, Finset.mem_insert]
            tauto
          · simp [hl]
        split at hloop
        · obtain ⟨rfl, htaken⟩ := Prod.mk.inj hloop
          obtain rfl := Option.some.inj htaken
          refine ⟨[key], ⟨rfl, fun l k => ?_⟩, by simp, ?_⟩
          · rw [List.mem_singleton]
            exact hnext l k
          · exact List.perm_middle.trans (List.Perm.cons key List.perm_append_comm)
        · obtain ⟨keys, hleased, htxns, hperm⟩ := ih next _ hloop
          refine ⟨key :: keys, ⟨hleased.txns, fun l k => ?_⟩, ?_, ?_⟩
          · rw [hleased.held, hnext, List.mem_cons]
            tauto
          · simpa using htxns
          · exact List.perm_middle.trans (hperm.cons key)

/-- No call panics on a pool whose keys all have transactions. -/
theorem leaseLoop_known [DecidableEq C] (lease : L) (maxCount : ℕ) (taken : Taken K V C)
    (pool : List K) (hknown : ∀ k ∈ pool, k ∈ s.txns) :
    ∃ s' taken', leaseLoop lease maxCount s taken pool = (s', some taken') := by
  induction pool generalizing s taken with
  | nil => exact ⟨_, _, rfl⟩
  | cons key rest ih =>
    obtain ⟨hkey, hrest⟩ := List.forall_mem_cons.mp hknown
    obtain ⟨txn, htxn⟩ := Finmap.mem_iff.mp hkey
    unfold leaseLoop
    simp only [htxn]
    split
    · exact ih s _ hrest
    · split
      · exact ⟨_, _, rfl⟩
      · exact ih { s with leased := s.leased.insert lease (insert key (s.held lease)) } _ hrest

theorem leaseLoop_txns [DecidableEq C] (lease : L) (maxCount : ℕ) (taken : Taken K V C)
    (pool : List K) : (leaseLoop lease maxCount s taken pool).1.txns = s.txns := by
  induction pool generalizing s taken with
  | nil => rfl
  | cons key rest ih =>
    unfold leaseLoop
    cases htxn : s.txns.lookup key with
    | none => rfl
    | some txn =>
      dsimp only
      split
      · exact ih s _
      · split
        · rfl
        · exact ih _ _

theorem leaseBatch_txns [DecidableEq C] (lease : L) (maxCount : ℕ) :
    (s.leaseBatch lease maxCount).1.txns = s.txns := by
  have htxns := leaseLoop_txns s lease maxCount ⟨[], [], []⟩ s.pool
  unfold leaseBatch
  split
  · rename_i hloop
    rwa [hloop] at htxns
  · rename_i hloop
    rwa [hloop] at htxns

/-- A batch moves keys from the pool to the lease. -/
theorem leaseBatch_moves [DecidableEq C] (lease : L) (maxCount : ℕ) (txns : List (K × V))
    (hbatch : (s.leaseBatch lease maxCount).2 = some txns) :
    Leased lease (txns.map Prod.fst) s (s.leaseBatch lease maxCount).1 ∧
      s.pool.Perm (txns.map Prod.fst ++ (s.leaseBatch lease maxCount).1.pool) := by
  unfold leaseBatch at hbatch ⊢
  cases hloop : leaseLoop lease maxCount s ⟨[], [], []⟩ s.pool with
  | mk s' taken =>
    cases taken with
    | none => simp [hloop] at hbatch
    | some taken =>
      obtain ⟨keys, hleased, htxns, hperm⟩ := leaseLoop_spec s lease maxCount _ _ _ _ hloop
      have hkeys : taken.txns.map Prod.fst = keys := by simpa using htxns
      obtain rfl : taken.txns = txns := by simpa [hloop] using hbatch
      rw [hkeys]
      exact ⟨⟨hleased.txns, hleased.held⟩, hperm⟩

theorem leaseBatch_spec [DecidableEq C] (lease : L) (maxCount : ℕ)
    (hknown : ∀ k ∈ s.pool, k ∈ s.txns) :
    ∃ txns, (s.leaseBatch lease maxCount).2 = some txns ∧
      Leased lease (txns.map Prod.fst) s (s.leaseBatch lease maxCount).1 ∧
      s.pool.Perm (txns.map Prod.fst ++ (s.leaseBatch lease maxCount).1.pool) := by
  obtain ⟨s', taken, hloop⟩ := leaseLoop_known s lease maxCount ⟨[], [], []⟩ s.pool hknown
  have hbatch : (s.leaseBatch lease maxCount).2 = some taken.txns := by rw [leaseBatch, hloop]
  exact ⟨taken.txns, hbatch, leaseBatch_moves s lease maxCount taken.txns hbatch⟩

theorem mem_held_commitKey (lease : L) (key : K) (result : R) (l : L) (k : K) :
    k ∈ (commitKey lease s key result).1.held l ↔ k ∈ s.held l ∧ ¬(l = lease ∧ k = key) := by
  cases hlease : s.leased.lookup lease with
  | none =>
    have hsame : (commitKey lease s key result).1.held l = s.held l := by
      simp only [commitKey, hlease, held]
    rw [hsame]
    refine ⟨fun hk => ⟨hk, ?_⟩, fun hk => hk.1⟩
    rintro ⟨rfl, rfl⟩
    simp [held, hlease] at hk
  | some keys =>
    have hheld : (commitKey lease s key result).1.held l =
        if l = lease then keys.erase key else s.held l := by
      simp only [commitKey, hlease]
      exact held_insert ⟨s.txns.erase key, s.pool.erase key, s.leased⟩ lease l _
    rw [hheld]
    by_cases hl : l = lease
    · subst hl
      rw [if_pos rfl, Finset.mem_erase, held, hlease, Option.getD_some]
      tauto
    · simp [hl]

/-- A commit first takes its keys out of all three collections. -/
theorem commitKeys_spec (lease : L) (keysWithResults : List (K × R)) :
    (∀ k, (commitKeys lease s keysWithResults).1.txns.lookup k =
        if k ∈ keysWithResults.map Prod.fst then none else s.txns.lookup k) ∧
      (commitKeys lease s keysWithResults).1.pool =
        s.pool.diff (keysWithResults.map Prod.fst) ∧
      ∀ l k, k ∈ (commitKeys lease s keysWithResults).1.held l ↔
        k ∈ s.held l ∧ ¬(l = lease ∧ k ∈ keysWithResults.map Prod.fst) := by
  induction keysWithResults generalizing s with
  | nil => exact ⟨by simp [commitKeys], rfl, by simp [commitKeys]⟩
  | cons entry rest ih =>
    obtain ⟨key, result⟩ := entry
    obtain ⟨htxns, hpool, hheld⟩ := ih (commitKey lease s key result).1
    refine ⟨?_, ?_, ?_⟩
    · intro k
      change (commitKeys lease (commitKey lease s key result).1 rest).1.txns.lookup k = _
      rw [htxns]
      simp only [List.map_cons, List.mem_cons]
      by_cases hk : k = key
      · subst hk
        simp [commitKey]
      · simp only [commitKey, Finmap.lookup_erase_ne hk, hk, false_or]
    · change (commitKeys lease (commitKey lease s key result).1 rest).1.pool = _
      rw [hpool, List.map_cons, List.diff_cons]
      rfl
    · intro l k
      change k ∈ (commitKeys lease (commitKey lease s key result).1 rest).1.held l ↔ _
      rw [hheld, mem_held_commitKey, List.map_cons, List.mem_cons]
      tauto

omit [DecidableEq K] in
theorem free_pool (lease : L) (order : Iteration K) :
    (s.free lease order).pool = (order.list (s.held lease)).reverse ++ s.pool := by
  have hpush : ∀ (keys pool : List K),
      keys.foldl (fun pool k => k :: pool) pool = keys.reverse ++ pool := by
    intro keys
    induction keys with
    | nil => simp
    | cons key keys ih => simp [ih]
  exact hpush _ _

omit [DecidableEq K] in
theorem held_free (lease l : L) (order : Iteration K) :
    (s.free lease order).held l = if l = lease then ∅ else s.held l := by
  unfold free held
  by_cases h : l = lease
  · subst h
    rw [Finmap.lookup_erase, if_pos rfl]
    rfl
  · rw [Finmap.lookup_erase_ne h, if_neg h]

end Effects

/-- Where a key can be. -/
inductive Place (L : Type)
  | pool
  | lease (lease : L)

def At (k : K) : Place L → Prop
  | .pool => k ∈ s.pool
  | .lease lease => k ∈ s.held lease

/-- Every transaction is in one place, and the pool holds distinct keys of transactions. -/
structure Partition : Prop where
  one_place : ∀ k ∈ s.txns, ∃! place, s.At k place
  pool_nodup : s.pool.Nodup
  pool_known : ∀ k ∈ s.pool, k ∈ s.txns

/-- The steps that keep every transaction in one place. -/
def Careful : Section K V L C S R → Prop
  | .add key _ => key ∈ s.txns ∨ ∀ lease, key ∉ s.held lease
  | .leaseTxns lease keys => ∀ key ∈ keys, key ∈ s.txns → ∀ l, key ∈ s.held l → l = lease
  | .leaseBatch _ _ => True
  | .commitKeys _ _ => True
  | .free lease _ => ∀ key ∈ s.held lease, key ∈ s.txns

variable {s}

section Places

omit [DecidableEq K] in
theorem one_place_iff (k : K) :
    (∃! place, s.At k place) ↔ (k ∈ s.pool ∧ ∀ l, k ∉ s.held l) ∨
      (k ∉ s.pool ∧ ∃ lease, k ∈ s.held lease ∧ ∀ l, k ∈ s.held l → l = lease) := by
  constructor
  · rintro ⟨place, hat, hunique⟩
    cases place with
    | pool =>
      refine Or.inl ⟨hat, fun l hl => ?_⟩
      cases hunique (.lease l) hl
    | lease lease =>
      refine Or.inr ⟨fun hpool => ?_, lease, hat, fun l hl => ?_⟩
      · cases hunique .pool hpool
      · cases hunique (.lease l) hl
        rfl
  · rintro (⟨hpool, hfree⟩ | ⟨hpool, lease, hheld, hunique⟩)
    · refine ⟨.pool, hpool, fun place hat => ?_⟩
      cases place with
      | pool => rfl
      | lease l => exact absurd hat (hfree l)
    · refine ⟨.lease lease, hheld, fun place hat => ?_⟩
      cases place with
      | pool => exact absurd hat hpool
      | lease l => rw [hunique l hat]

omit [DecidableEq K] in
theorem Partition.not_held (h : s.Partition) (k : K) (hk : k ∈ s.pool) (l : L) :
    k ∉ s.held l := by
  intro hl
  have hsame : Place.pool = Place.lease l := (h.one_place k (h.pool_known k hk)).unique hk hl
  cases hsame

omit [DecidableEq K] in
theorem Partition.lease_unique (h : s.Partition) (k : K) (hk : k ∈ s.txns) (l l' : L)
    (hl : k ∈ s.held l) (hl' : k ∈ s.held l') : l = l' := by
  have hsame : Place.lease l = Place.lease l' := (h.one_place k hk).unique hl hl'
  cases hsame
  rfl

end Places

omit [DecidableEq K] in
theorem default_partition : (default : MempoolState K V L C S).Partition := by
  refine ⟨fun k hk => absurd hk Finmap.notMem_empty, List.nodup_nil, fun k hk => ?_⟩
  cases hk

section Steps

variable (h : s.Partition)

include h

theorem Partition.add (key : K) (txn : MempoolTxn V C S) :
    (s.add key txn).Partition ↔ (key ∈ s.txns ∨ ∀ lease, key ∉ s.held lease) := by
  unfold MempoolState.add
  by_cases hkey : key ∈ s.txns
  · rw [if_pos hkey]
    exact iff_of_true h (Or.inl hkey)
  · rw [if_neg hkey]
    have hpool : key ∉ s.pool := fun hin => hkey (h.pool_known key hin)
    constructor
    · intro hnext
      exact Or.inr fun l => hnext.not_held key (by simp) l
    · intro hfree
      have hfree := hfree.resolve_left hkey
      refine ⟨fun k hk => ?_, ?_, fun k hk => ?_⟩
      · rw [one_place_iff]
        rcases (Finmap.mem_insert).mp hk with rfl | hk
        · exact Or.inl ⟨by simp, hfree⟩
        · have hne : k ≠ key := fun heq => hkey (heq ▸ hk)
          have hin : k ∈ s.pool ++ [key] ↔ k ∈ s.pool := by simp [hne]
          have hold := (one_place_iff k).mp (h.one_place k hk)
          exact hold.imp (And.imp_left hin.mpr) (And.imp_left (mt hin.mp))
      · rw [← List.concat_eq_append]
        exact h.pool_nodup.concat hpool
      · rcases List.mem_append.mp hk with hk | hk
        · exact Finmap.mem_insert.mpr (Or.inr (h.pool_known k hk))
        · exact Finmap.mem_insert.mpr (Or.inl (List.mem_singleton.mp hk))

theorem Partition.leaseTxns (lease : L) (keys : List K) :
    (s.leaseTxns lease keys).Partition ↔
      ∀ key ∈ keys, key ∈ s.txns → ∀ l, key ∈ s.held l → l = lease := by
  have hpool : ∀ k, k ∈ (s.leaseTxns lease keys).pool ↔ k ∈ s.pool ∧ k ∉ keys := by
    intro k
    rw [leaseTxns_pool, h.pool_nodup.mem_sdiff_iff]
  constructor
  · intro hnext key hkey htxn l hl
    refine hnext.lease_unique key (by rwa [leaseTxns_txns]) l lease ?_ ?_
    · exact (mem_held_leaseTxns s lease keys l key).mpr (Or.inl hl)
    · exact (mem_held_leaseTxns s lease keys lease key).mpr (Or.inr ⟨rfl, hkey⟩)
  · intro hcareful
    refine ⟨fun k hk => ?_, ?_, fun k hk => ?_⟩
    · rw [leaseTxns_txns] at hk
      have hold := (one_place_iff k).mp (h.one_place k hk)
      simp only [one_place_iff, hpool, mem_held_leaseTxns]
      by_cases hin : k ∈ keys
      · refine Or.inr ⟨by tauto, lease, Or.inr ⟨rfl, hin⟩, ?_⟩
        rintro l (hl | ⟨rfl, -⟩)
        · exact hcareful k hin hk l hl
        · rfl
      · simpa [hin] using hold
    · rw [leaseTxns_pool]
      exact h.pool_nodup.diff
    · rw [leaseTxns_txns]
      exact h.pool_known k ((hpool k).mp hk).1

theorem Partition.leaseBatch [DecidableEq C] (lease : L) (maxCount : ℕ) :
    (s.leaseBatch lease maxCount).1.Partition := by
  obtain ⟨txns, -, hleased, hperm⟩ := leaseBatch_spec s lease maxCount h.pool_known
  have hnodup := hperm.nodup_iff.mp h.pool_nodup
  have hmem : ∀ k, k ∈ s.pool ↔
      k ∈ txns.map Prod.fst ∨ k ∈ (s.leaseBatch lease maxCount).1.pool := by
    intro k
    rw [hperm.mem_iff, List.mem_append]
  have hdisjoint := List.disjoint_of_nodup_append hnodup
  refine ⟨fun k hk => ?_, hnodup.of_append_right, fun k hk => ?_⟩
  · rw [hleased.txns] at hk
    have hold := (one_place_iff k).mp (h.one_place k hk)
    have happart := @hdisjoint k
    simp only [one_place_iff, hleased.held]
    rw [hmem] at hold
    by_cases hin : k ∈ txns.map Prod.fst
    · have hfree : ∀ l, k ∉ s.held l := fun l => h.not_held k ((hmem k).mpr (Or.inl hin)) l
      refine Or.inr ⟨happart hin, lease, Or.inr ⟨rfl, hin⟩, ?_⟩
      rintro l (hl | ⟨rfl, -⟩)
      · exact absurd hl (hfree l)
      · rfl
    · simpa [hin] using hold
  · rw [hleased.txns]
    exact h.pool_known k ((hmem k).mpr (Or.inr hk))

theorem Partition.commitKeys (lease : L) (keysWithResults : List (K × R)) :
    (MempoolState.commitKeys lease s keysWithResults).1.Partition := by
  obtain ⟨htxns, hpool, hheld⟩ := commitKeys_spec s lease keysWithResults
  have hmem : ∀ k, k ∈ (MempoolState.commitKeys lease s keysWithResults).1.txns ↔
      k ∈ s.txns ∧ k ∉ keysWithResults.map Prod.fst := by
    intro k
    rw [← Finmap.lookup_isSome, htxns, ← Finmap.lookup_isSome]
    split
    · simp_all
    · simp_all
  have hinPool : ∀ k, k ∈ (MempoolState.commitKeys lease s keysWithResults).1.pool ↔
      k ∈ s.pool ∧ k ∉ keysWithResults.map Prod.fst := by
    intro k
    rw [hpool, h.pool_nodup.mem_sdiff_iff]
  refine ⟨fun k hk => ?_, ?_, fun k hk => ?_⟩
  · obtain ⟨hk, hkept⟩ := (hmem k).mp hk
    have hold := (one_place_iff k).mp (h.one_place k hk)
    simpa only [one_place_iff, hinPool, hheld, hkept, not_false_eq_true, and_true, and_false]
      using hold
  · rw [hpool]
    exact h.pool_nodup.diff
  · obtain ⟨hk, hkept⟩ := (hinPool k).mp hk
    exact (hmem k).mpr ⟨h.pool_known k hk, hkept⟩

omit [DecidableEq K] in
theorem Partition.free (lease : L) (order : Iteration K) :
    (s.free lease order).Partition ↔ ∀ key ∈ s.held lease, key ∈ s.txns := by
  have hpool : ∀ k, k ∈ (s.free lease order).pool ↔ k ∈ s.held lease ∨ k ∈ s.pool := by
    intro k
    rw [free_pool, List.mem_append, List.mem_reverse, order.mem]
  have hheld : ∀ l k, k ∈ (s.free lease order).held l ↔ l ≠ lease ∧ k ∈ s.held l := by
    intro l k
    rw [held_free]
    by_cases hl : l = lease <;> simp [hl]
  constructor
  · intro hnext key hkey
    exact hnext.pool_known key ((hpool key).mpr (Or.inl hkey))
  · intro hknown
    refine ⟨fun k hk => ?_, ?_, fun k hk => ?_⟩
    · have hold := (one_place_iff k).mp (h.one_place k hk)
      simp only [one_place_iff, hpool, hheld]
      rcases hold with ⟨hin, hfree⟩ | ⟨hnot, place, hplace, hunique⟩
      · exact Or.inl ⟨Or.inr hin, fun l hl => hfree l hl.2⟩
      · by_cases hsame : place = lease
        · subst hsame
          exact Or.inl ⟨Or.inl hplace, fun l hl => hl.1 (hunique l hl.2)⟩
        · refine Or.inr ⟨?_, place, ⟨hsame, hplace⟩, fun l hl => hunique l hl.2⟩
          rintro (hin | hin)
          · exact hsame (hunique lease hin).symm
          · exact hnot hin
    · rw [free_pool, List.nodup_append]
      refine ⟨List.nodup_reverse.mpr (order.nodup _), h.pool_nodup, ?_⟩
      rintro a ha b hb rfl
      rw [List.mem_reverse, order.mem] at ha
      exact h.not_held a hb lease ha
    · rcases (hpool k).mp hk with hk | hk
      · exact hknown k hk
      · exact h.pool_known k hk

end Steps

/-- A step keeps every transaction in one place exactly when it is careful. -/
theorem Partition.step [DecidableEq C] (h : s.Partition) (action : Section K V L C S R) :
    (s.step action).Partition ↔ s.Careful action := by
  cases action with
  | add key txn => exact h.add key txn
  | leaseTxns lease keys => exact h.leaseTxns lease keys
  | leaseBatch lease maxCount => exact iff_of_true (h.leaseBatch lease maxCount) trivial
  | commitKeys lease keysWithResults =>
    exact iff_of_true (h.commitKeys lease keysWithResults) trivial
  | free lease order => exact h.free lease order

/-- What callers rely on: transactions are in one place, a batch is always found and takes
only what is not leased, and a commit removes its keys and gives back the rest of its lease. -/
structure Orderly [DecidableEq C] (s : MempoolState K V L C S) : Prop where
  partition : s.Partition
  batch_found : ∀ lease maxCount, ∃ txns, (s.leaseBatch lease maxCount).2 = some txns ∧
    (txns.map Prod.fst).Nodup ∧ ∀ k ∈ txns.map Prod.fst, ∀ l, k ∉ s.held l
  leased_once : ∀ k ∈ s.txns, ∀ l l', k ∈ s.held l → k ∈ s.held l' → l = l'
  commit_removes : ∀ (R : Type) (lease : L) (keysWithResults : List (K × R)) (order : Iteration K),
    (∀ k, (s.commit lease keysWithResults order).1.txns.lookup k =
      if k ∈ keysWithResults.map Prod.fst then none else s.txns.lookup k) ∧
    ∀ k ∈ s.held lease, k ∉ keysWithResults.map Prod.fst →
      k ∈ (s.commit lease keysWithResults order).1.pool

theorem Partition.orderly [DecidableEq C] (h : s.Partition) : s.Orderly := by
  refine ⟨h, fun lease maxCount => ?_, h.lease_unique, fun R lease keysWithResults order => ?_⟩
  · obtain ⟨txns, hbatch, -, hperm⟩ := leaseBatch_spec s lease maxCount h.pool_known
    have hnodup := hperm.nodup_iff.mp h.pool_nodup
    refine ⟨txns, hbatch, hnodup.of_append_left, fun k hk l => ?_⟩
    exact h.not_held k (hperm.mem_iff.mpr (List.mem_append_left _ hk)) l
  · obtain ⟨htxns, -, hheld⟩ := commitKeys_spec s lease keysWithResults
    refine ⟨htxns, fun k hk hkept => ?_⟩
    change k ∈ ((MempoolState.commitKeys lease s keysWithResults).1.free lease order).pool
    rw [free_pool, List.mem_append, List.mem_reverse, order.mem]
    exact Or.inl ((hheld lease k).mpr ⟨hk, fun hin => hkept hin.2⟩)

end MempoolState

open MempoolState

def run [DecidableEq C] (s : MempoolState K V L C S) (steps : List (Section K V L C S R)) :
    MempoolState K V L C S := steps.foldl step s

/-- The mempool is orderly all along a run exactly when every step is careful. -/
theorem run_orderly_iff [DecidableEq C] (steps : List (Section K V L C S R)) :
    (∀ before, before <+: steps → (run default before).Orderly) ↔
      ∀ before action, before ++ [action] <+: steps → (run default before).Careful action := by
  have hcriterion : Criterion (step (R := R)) (fun _ => True)
      (Partition (K := K) (V := V) (L := L) (C := C) (S := S)) Orderly Careful :=
    ⟨fun _ h => h.orderly, fun _ action _ _ h hnext => (h.step action).mp hnext.partition,
      fun _ action _ _ h hcareful => (h.step action).mpr hcareful⟩
  exact forall_prefix_iff hcriterion default_partition fun _ _ => trivial

def ascending : Iteration ℕ where
  list := fun s => s.sort (· ≤ ·)
  nodup := fun s => s.sort_nodup (· ≤ ·)
  mem := fun s _ => s.mem_sort (· ≤ ·)

/-- A proposal with an unknown transaction, and a commit of another block at its height. -/
def unknownFreed : List (Section ℕ Unit ℕ Unit Unit Unit) :=
  [.leaseTxns 1 [7], .commitKeys 1 [], .free 1 ascending]

/-- The unknown key is in the pool, and the next batch panics. -/
theorem run_unknownFreed : ((run default unknownFreed).leaseBatch 2 1).2 = none ∧
    ¬∀ before, before <+: unknownFreed → (run default before).Orderly := by
  have hpanics : ((run default unknownFreed).leaseBatch 2 1).2 = none := by decide +kernel
  refine ⟨hpanics, fun horderly => ?_⟩
  obtain ⟨txns, hbatch, -⟩ := (horderly _ (List.prefix_refl _)).batch_found 2 1
  rw [hpanics] at hbatch
  cases hbatch

end PayyRollup.Mempool
