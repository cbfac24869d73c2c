import PayyRollup.Mempool
import PayyRollup.NodeBlocks

/-!
What a batch takes from the pool. A transaction waits with all of its leaves as its changes,
and a leaf that stands for no note is the zero element, so two transactions that both have an
empty place share a change without sharing a note. A batch takes the transactions one after
the other and sets aside what shares a change with a taken one. The transactions it returns
never share a note and the pool loses nothing else. It is maximal, and takes what a selection
by notes alone would take, exactly when that selection has at most one transaction with an
empty place.
-/
namespace PayyRollup.Mempool

open KeyValueStore ScalarField NodeBlocks

variable {K V L C S R : Type} [DecidableEq K] [DecidableEq L] [DecidableEq C]

namespace MempoolState

/-- Every transaction was added in this way. -/
def Added (P : K → MempoolTxn V C S → Prop) (known : Store K (MempoolTxn V C S)) : Prop :=
  ∀ k txn, known.lookup k = some txn → P k txn

section Taking

variable (changes : V → List C)

/-- Every transaction was added with its own changes. -/
def AddedWith (known : Store K (MempoolTxn V C S)) : Prop :=
  Added (fun _ txn => txn.changes = changes txn.txn) known

/-- What holds of the taken transactions while a batch grows. -/
structure Taking (known : Store K (MempoolTxn V C S)) (taken : Taken K V C) : Prop where
  claimed : taken.conflictCheck = taken.txns.flatMap fun entry => changes entry.2
  apart : taken.txns.Pairwise fun a b => ∀ c ∈ changes b.2, c ∉ changes a.2
  theirs : ∀ entry ∈ taken.txns, ∃ txn, known.lookup entry.1 = some txn ∧ txn.txn = entry.2

variable {changes}

omit [DecidableEq L] [DecidableEq C] in
theorem taking_nil {known : Store K (MempoolTxn V C S)} : Taking changes known ⟨[], [], []⟩ :=
  ⟨rfl, List.Pairwise.nil, by simp⟩

omit [DecidableEq L] [DecidableEq C] in
theorem Taking.mem_claimed {known : Store K (MempoolTxn V C S)} {taken : Taken K V C}
    (h : Taking changes known taken) (c : C) :
    c ∈ taken.conflictCheck ↔ ∃ entry ∈ taken.txns, c ∈ changes entry.2 := by
  rw [h.claimed, List.mem_flatMap]

omit [DecidableEq L] [DecidableEq C] in
theorem Taking.take {known : Store K (MempoolTxn V C S)} {taken : Taken K V C}
    (h : Taking changes known taken) (key : K) (txn : MempoolTxn V C S)
    (htxn : known.lookup key = some txn) (hchanges : txn.changes = changes txn.txn)
    (hfree : ∀ c ∈ txn.changes, c ∉ taken.conflictCheck) :
    Taking changes known { taken with
      conflictCheck := taken.conflictCheck ++ txn.changes
      txns := taken.txns ++ [(key, txn.txn)] } := by
  refine ⟨?_, ?_, ?_⟩
  · rw [h.claimed, List.flatMap_append, hchanges]
    simp
  · rw [List.pairwise_append]
    refine ⟨h.apart, List.pairwise_singleton _ _, fun a ha b hb c hc hin => ?_⟩
    obtain rfl := List.mem_singleton.mp hb
    refine hfree c (by rwa [hchanges]) ?_
    exact (h.mem_claimed c).mpr ⟨a, ha, hin⟩
  · intro entry hentry
    rcases List.mem_append.mp hentry with hold | hnew
    · exact h.theirs entry hold
    · obtain rfl := List.mem_singleton.mp hnew
      exact ⟨txn, htxn, rfl⟩

/-- A batch takes transactions without a common change, and stops short of its size only at
the end of the pool. -/
theorem leaseLoop_taking (lease : L) (maxCount : ℕ) (known : Store K (MempoolTxn V C S))
    (hadded : AddedWith changes known) (s s' : MempoolState K V L C S) (hs : s.txns = known)
    (taken taken' : Taken K V C) (pool : List K) (h : Taking changes known taken)
    (hloop : leaseLoop lease maxCount s taken pool = (s', some taken')) :
    Taking changes known taken' ∧ (taken.txns.length < maxCount →
      taken'.txns.length ≤ maxCount ∧ (taken'.txns.length < maxCount → s'.pool = [])) := by
  induction pool generalizing s taken with
  | nil =>
    obtain ⟨rfl, rfl⟩ : { s with pool := [] } = s' ∧ taken = taken' := by
      simpa [leaseLoop] using hloop
    exact ⟨h, fun hroom => ⟨hroom.le, fun _ => rfl⟩⟩
  | cons key rest ih =>
    unfold leaseLoop at hloop
    rw [hs] at hloop
    cases htxn : known.lookup key with
    | none => simp [htxn] at hloop
    | some txn =>
      simp only [htxn] at hloop
      split at hloop
      · exact ih s hs { taken with discard := taken.discard ++ [key] }
          ⟨h.claimed, h.apart, h.theirs⟩ hloop
      · rename_i hfree
        have htaking := h.take key txn htxn (hadded key txn htxn) (by simpa using hfree)
        split at hloop
        · rename_i hfull
          obtain ⟨rfl, htaken⟩ := Prod.mk.inj hloop
          obtain rfl := Option.some.inj htaken
          refine ⟨htaking, fun hroom => ⟨by simpa using hroom, fun hshort => ?_⟩⟩
          exact absurd hfull (Nat.not_le_of_lt hshort)
        · rename_i hmore
          obtain ⟨hlast, hcount⟩ := ih _ rfl _ htaking hloop
          exact ⟨hlast, fun _ => hcount (Nat.lt_of_not_le hmore)⟩

theorem leaseBatch_eq (s s' : MempoolState K V L C S) (lease : L) (maxCount : ℕ)
    (taken : Taken K V C)
    (hloop : leaseLoop lease maxCount s ⟨[], [], []⟩ s.pool = (s', some taken)) :
    s.leaseBatch lease maxCount =
      ({ s' with pool := s'.pool ++ taken.discard }, some taken.txns) := by
  rw [leaseBatch, hloop]

theorem leaseBatch_loop (s : MempoolState K V L C S) (lease : L) (maxCount : ℕ)
    (txns : List (K × V)) (hbatch : (s.leaseBatch lease maxCount).2 = some txns) :
    ∃ s' taken, leaseLoop lease maxCount s ⟨[], [], []⟩ s.pool = (s', some taken) ∧
      taken.txns = txns := by
  unfold leaseBatch at hbatch
  cases hloop : leaseLoop lease maxCount s ⟨[], [], []⟩ s.pool with
  | mk s' taken =>
    cases taken with
    | none => simp [hloop] at hbatch
    | some taken => exact ⟨s', taken, rfl, by simpa [hloop] using hbatch⟩

/-- The transactions of a batch are those of the mempool, and no two have a common change. -/
theorem leaseBatch_taking (s : MempoolState K V L C S) (hadded : AddedWith changes s.txns)
    (lease : L) (maxCount : ℕ) (txns : List (K × V))
    (h : (s.leaseBatch lease maxCount).2 = some txns) :
    (txns.Pairwise fun a b => ∀ c ∈ changes b.2, c ∉ changes a.2) ∧
      ∀ entry ∈ txns, ∃ txn, s.txns.lookup entry.1 = some txn ∧ txn.txn = entry.2 := by
  obtain ⟨s', taken, hloop, rfl⟩ := leaseBatch_loop s lease maxCount txns h
  obtain ⟨htaking, -⟩ := leaseLoop_taking lease maxCount s.txns hadded s s' rfl _ _ _
    taking_nil hloop
  exact ⟨htaking.apart, htaking.theirs⟩

end Taking

section Notes

/-- The leaves of a transaction that stand for notes. -/
def realLeaves (txn : UtxoProof) : List Element := txn.leaves.filter (· ≠ 0#256)

def sharesNote (a b : UtxoProof) : Bool := (realLeaves a).any (· ∈ realLeaves b)

/-- Whether a place for a note is empty. -/
def padded (txn : UtxoProof) : Bool := 0#256 ∈ txn.leaves

theorem sharesNote_iff (a b : UtxoProof) :
    sharesNote a b ↔ ∃ leaf ∈ realLeaves a, leaf ∈ realLeaves b := by
  simp [sharesNote]

theorem mem_realLeaves (txn : UtxoProof) (leaf : Element) :
    leaf ∈ realLeaves txn ↔ leaf ∈ txn.leaves ∧ leaf ≠ 0#256 := by
  simp [realLeaves]

/-- A common leaf is a common note or an empty place on both sides. -/
theorem shares_or_padded (a b : UtxoProof) (leaf : Element) (ha : leaf ∈ a.leaves)
    (hb : leaf ∈ b.leaves) : sharesNote a b ∨ padded a ∧ padded b := by
  by_cases hzero : leaf = 0#256
  · subst hzero
    exact Or.inr ⟨by simpa [padded] using ha, by simpa [padded] using hb⟩
  · refine Or.inl ((sharesNote_iff a b).mpr ⟨leaf, ?_, ?_⟩)
    · exact (mem_realLeaves a leaf).mpr ⟨ha, hzero⟩
    · exact (mem_realLeaves b leaf).mpr ⟨hb, hzero⟩

/-- The transactions that are taken in the order of the pool when only notes conflict. -/
def selectLoop (known : Store K (MempoolTxn UtxoProof Element S)) (maxCount : ℕ)
    (chosen : List UtxoProof) : List K → Option (List UtxoProof)
  | [] => some chosen
  | key :: rest =>
      match known.lookup key with
      | none => none
      | some txn =>
          if chosen.any (sharesNote txn.txn) then selectLoop known maxCount chosen rest
          else if maxCount ≤ chosen.length + 1 then some (chosen ++ [txn.txn])
          else selectLoop known maxCount (chosen ++ [txn.txn]) rest

def selection (s : MempoolState K UtxoProof L Element S) (maxCount : ℕ) :
    Option (List UtxoProof) := selectLoop s.txns maxCount [] s.pool

theorem selectLoop_extends (known : Store K (MempoolTxn UtxoProof Element S)) (maxCount : ℕ)
    (chosen last : List UtxoProof) (pool : List K)
    (hselect : selectLoop known maxCount chosen pool = some last) : chosen <+: last := by
  induction pool generalizing chosen with
  | nil =>
    obtain rfl := Option.some.inj hselect
    exact List.prefix_refl _
  | cons key rest ih =>
    unfold selectLoop at hselect
    split at hselect
    · cases hselect
    · split at hselect
      · exact ih chosen hselect
      · split at hselect
        · obtain rfl := Option.some.inj hselect
          exact List.prefix_append _ _
        · exact (List.prefix_append _ _).trans (ih _ hselect)

variable (known : Store K (MempoolTxn UtxoProof Element S))

omit [DecidableEq K] in
/-- Transactions without a common leaf have an empty place once among them. -/
theorem one_padded (txns : List (K × UtxoProof))
    (hapart : txns.Pairwise fun a b => ∀ c ∈ b.2.leaves, c ∉ a.2.leaves) :
    (txns.map Prod.snd).countP padded ≤ 1 := by
  induction txns with
  | nil => simp
  | cons entry rest ih =>
    obtain ⟨hfirst, hrest⟩ := List.pairwise_cons.mp hapart
    rw [List.map_cons, List.countP_cons]
    split
    · rename_i hpadded
      have hnone : (rest.map Prod.snd).countP padded = 0 := by
        rw [List.countP_eq_zero]
        intro txn htxn hother
        obtain ⟨b, hb, rfl⟩ := List.mem_map.mp htxn
        exact hfirst b hb _ (of_decide_eq_true hother) (of_decide_eq_true hpadded)
      rw [hnone]
    · exact ih hrest

/-- While the selection has one transaction with an empty place, a batch follows it and sets
aside only what shares a note. -/
theorem leaseLoop_selects (lease : L) (maxCount : ℕ) (hadded : AddedWith UtxoProof.leaves known)
    (s : MempoolState K UtxoProof L Element S) (hs : s.txns = known)
    (taken : Taken K UtxoProof Element) (pool : List K) (chosen : List UtxoProof)
    (h : Taking UtxoProof.leaves known taken)
    (hselect : selectLoop known maxCount (taken.txns.map Prod.snd) pool = some chosen)
    (hpadded : chosen.countP padded ≤ 1) :
    ∃ s' taken', leaseLoop lease maxCount s taken pool = (s', some taken') ∧
      taken'.txns.map Prod.snd = chosen ∧
      ∀ k ∈ taken'.discard, k ∈ taken.discard ∨
        ∃ txn, known.lookup k = some txn ∧ ∃ other ∈ chosen, sharesNote txn.txn other := by
  induction pool generalizing s taken with
  | nil =>
    obtain rfl := Option.some.inj hselect
    exact ⟨_, _, rfl, rfl, fun k hk => Or.inl hk⟩
  | cons key rest ih =>
    unfold selectLoop at hselect
    unfold leaseLoop
    rw [hs]
    cases htxn : known.lookup key with
    | none => simp [htxn] at hselect
    | some txn =>
      simp only [htxn] at hselect ⊢
      have hchanges := hadded key txn htxn
      by_cases hshares : (taken.txns.map Prod.snd).any (sharesNote txn.txn) = true
      · rw [if_pos hshares] at hselect
        obtain ⟨other, hother, hnote⟩ := List.any_eq_true.mp hshares
        have hin := (selectLoop_extends known maxCount _ _ _ hselect).subset hother
        have hconflict : txn.changes.any (· ∈ taken.conflictCheck) = true := by
          obtain ⟨entry, hentry, rfl⟩ := List.mem_map.mp hother
          obtain ⟨leaf, hleaf, hleaf'⟩ := (sharesNote_iff _ _).mp hnote
          rw [List.any_eq_true]
          refine ⟨leaf, ?_, decide_eq_true ((h.mem_claimed leaf).mpr ⟨entry, hentry, ?_⟩)⟩
          · rw [hchanges]
            exact ((mem_realLeaves _ _).mp hleaf).1
          · exact ((mem_realLeaves _ _).mp hleaf').1
        rw [if_pos hconflict]
        obtain ⟨s', taken', hloop, htxns, haside⟩ := ih s hs
          { taken with discard := taken.discard ++ [key] } ⟨h.claimed, h.apart, h.theirs⟩ hselect
        refine ⟨s', taken', hloop, htxns, fun k hk => ?_⟩
        rcases haside k hk with hold | hnew
        · rcases List.mem_append.mp hold with hold | hlast
          · exact Or.inl hold
          · obtain rfl := List.mem_singleton.mp hlast
            exact Or.inr ⟨txn, htxn, other, hin, hnote⟩
        · exact Or.inr hnew
      · rw [if_neg hshares] at hselect
        have hpre : taken.txns.map Prod.snd ++ [txn.txn] <+: chosen := by
          split at hselect
          · exact Option.some.inj hselect ▸ List.prefix_refl _
          · exact selectLoop_extends known maxCount _ _ _ hselect
        have hfree : ∀ leaf ∈ txn.changes, leaf ∉ taken.conflictCheck := by
          intro leaf hleaf htaken
          obtain ⟨entry, hentry, hin⟩ := (h.mem_claimed leaf).mp htaken
          rw [hchanges] at hleaf
          have hentry := List.mem_map_of_mem (f := Prod.snd) hentry
          rcases shares_or_padded txn.txn entry.2 leaf hleaf hin with hnote | ⟨hlast, hold⟩
          · exact hshares (List.any_eq_true.mpr ⟨entry.2, hentry, hnote⟩)
          · have hone : 1 ≤ (taken.txns.map Prod.snd).countP padded :=
              List.countP_pos_iff.mpr ⟨entry.2, hentry, hold⟩
            have htwo := hpre.sublist.countP_le.trans hpadded
            rw [List.countP_append, List.countP_singleton, if_pos hlast] at htwo
            omega
        have hapart : ¬txn.changes.any (· ∈ taken.conflictCheck) = true := by
          simpa using hfree
        rw [if_neg hapart]
        have htaking := h.take key txn htxn hchanges hfree
        have hlength : (taken.txns ++ [(key, txn.txn)]).length =
            (taken.txns.map Prod.snd).length + 1 := by simp
        simp only [hlength]
        split at hselect
        · rename_i hfull
          rw [if_pos hfull]
          refine ⟨_, _, rfl, ?_, fun k hk => Or.inl hk⟩
          rw [List.map_append, ← Option.some.inj hselect]
          rfl
        · rename_i hmore
          rw [if_neg hmore]
          refine ih _ ?_ _ htaking ?_
          · rfl
          · rw [List.map_append]
            exact hselect

/-- A batch that takes all it can: it moves some of the pool to the lease, no two of its
transactions share a note, what it leaves shares a note with it, and it is the selection in
which only notes conflict. -/
structure Selects (s : MempoolState K UtxoProof L Element S) (lease : L) (maxCount : ℕ)
    (txns : List (K × UtxoProof)) : Prop where
  returned : (s.leaseBatch lease maxCount).2 = some txns
  few : txns.length ≤ maxCount
  theirs : ∀ entry ∈ txns, ∃ txn, s.txns.lookup entry.1 = some txn ∧ txn.txn = entry.2
  apart : txns.Pairwise fun a b => ∀ leaf ∈ realLeaves a.2, leaf ∉ realLeaves b.2
  leased : Leased lease (txns.map Prod.fst) s (s.leaseBatch lease maxCount).1
  moved : s.pool.Perm (txns.map Prod.fst ++ (s.leaseBatch lease maxCount).1.pool)
  maximal : txns.length < maxCount → ∀ k ∈ (s.leaseBatch lease maxCount).1.pool,
    ∃ txn, s.txns.lookup k = some txn ∧ ∃ entry ∈ txns, sharesNote txn.txn entry.2
  padding_ignored : s.selection maxCount = some (txns.map Prod.snd)

/-- A batch takes all it can exactly when the selection in which only notes conflict has at
most one transaction with an empty place. -/
theorem leaseBatch_selects_iff (s : MempoolState K UtxoProof L Element S)
    (hadded : AddedWith UtxoProof.leaves s.txns) (lease : L) (maxCount : ℕ)
    (hmax : 1 ≤ maxCount) :
    (∃ txns, s.Selects lease maxCount txns) ↔
      ∃ chosen, s.selection maxCount = some chosen ∧ chosen.countP padded ≤ 1 := by
  constructor
  · rintro ⟨txns, h⟩
    obtain ⟨hapart, -⟩ := leaseBatch_taking s hadded lease maxCount txns h.returned
    exact ⟨_, h.padding_ignored, one_padded txns hapart⟩
  · rintro ⟨chosen, hselect, hpadded⟩
    obtain ⟨s', taken, hloop, rfl, haside⟩ :=
      leaseLoop_selects s.txns lease maxCount hadded s rfl _ _ chosen taking_nil hselect hpadded
    obtain ⟨htaking, hcount⟩ :=
      leaseLoop_taking lease maxCount s.txns hadded s s' rfl _ _ _ taking_nil hloop
    obtain ⟨hfew, hend⟩ := hcount hmax
    have hbatch := leaseBatch_eq s s' lease maxCount taken hloop
    have hreturned : (s.leaseBatch lease maxCount).2 = some taken.txns := by rw [hbatch]
    obtain ⟨hleased, hmoved⟩ := leaseBatch_moves s lease maxCount taken.txns hreturned
    refine ⟨taken.txns, hreturned, hfew, htaking.theirs, ?_, hleased, hmoved, ?_, hselect⟩
    · refine htaking.apart.imp fun hapart leaf ha hb => ?_
      exact hapart leaf ((mem_realLeaves _ _).mp hb).1 ((mem_realLeaves _ _).mp ha).1
    · intro hshort k hk
      rw [hbatch, hend hshort, List.nil_append] at hk
      obtain ⟨txn, htxn, other, hother, hnote⟩ := (haside k hk).resolve_left (by simp)
      obtain ⟨entry, hentry, rfl⟩ := List.mem_map.mp hother
      exact ⟨txn, htxn, entry, hentry, hnote⟩

end Notes

end MempoolState

open MempoolState

section Runs

variable (P : K → MempoolTxn V C S → Prop)

/-- A step that adds a transaction adds it in this way. -/
def Adds : Section K V L C S R → Prop
  | .add key txn => P key txn
  | _ => True

theorem added_step (s : MempoolState K V L C S) (action : Section K V L C S R)
    (h : Added P s.txns) (hadds : Adds P action) : Added P (s.step action).txns := by
  cases action with
  | add key txn =>
    change Added P (s.add key txn).txns
    unfold MempoolState.add
    split
    · exact h
    · intro k t hlookup
      by_cases hk : k = key
      · subst hk
        rw [Finmap.lookup_insert] at hlookup
        exact Option.some.inj hlookup ▸ hadds
      · rw [Finmap.lookup_insert_of_ne _ hk] at hlookup
        exact h k t hlookup
  | leaseTxns lease keys =>
    change Added P (s.leaseTxns lease keys).txns
    rwa [leaseTxns_txns]
  | leaseBatch lease maxCount =>
    change Added P (s.leaseBatch lease maxCount).1.txns
    rwa [leaseBatch_txns]
  | commitKeys lease keysWithResults =>
    intro k t hlookup
    change (MempoolState.commitKeys lease s keysWithResults).1.txns.lookup k = some t at hlookup
    rw [(commitKeys_spec s lease keysWithResults).1] at hlookup
    split at hlookup
    · cases hlookup
    · exact h k t hlookup
  | free lease order => exact h

/-- A mempool into which every transaction was added in this way. -/
theorem run_added (steps : List (Section K V L C S R)) (hadds : ∀ action ∈ steps, Adds P action) :
    Added P (run (default : MempoolState K V L C S) steps).txns := by
  have hrun : ∀ s : MempoolState K V L C S, Added P s.txns → Added P (run s steps).txns := by
    induction steps with
    | nil => exact fun s h => h
    | cons action rest ih =>
      obtain ⟨hfirst, hrest⟩ := List.forall_mem_cons.mp hadds
      exact fun s h => ih hrest _ (added_step P s action h hfirst)
  refine hrun default fun k txn hlookup => ?_
  cases hlookup

end Runs

/-- A transaction that turns one note into another. -/
def oneToOne (input output : Element) : UtxoProof :=
  ⟨0#256, 0#256, 0#256, (input, 0#256), (output, 0#256), []⟩

/-- A transaction without an empty place. -/
def twoToTwo (inputs outputs : Element × Element) : UtxoProof :=
  ⟨0#256, 0#256, 0#256, inputs, outputs, []⟩

def addTxn (key : ℕ) (txn : UtxoProof) : Section ℕ UtxoProof ℕ Element Unit Unit :=
  .add key ⟨txn, none, txn.leaves⟩

/-- The second transaction has no empty place, and the third spends a note of the first. -/
def onePadded : MempoolState ℕ UtxoProof ℕ Element Unit :=
  run default [addTxn 1 (oneToOne 1#256 2#256),
    addTxn 2 (twoToTwo (3#256, 4#256) (5#256, 6#256)), addTxn 3 (oneToOne 2#256 7#256)]

theorem onePadded_added : AddedWith UtxoProof.leaves onePadded.txns := by
  refine run_added _ _ fun action hin => ?_
  fin_cases hin <;> rfl

theorem leaseBatch_onePadded : 1 ≤ 2 ∧ AddedWith UtxoProof.leaves onePadded.txns ∧
    ∃ txns, onePadded.Selects 1 2 txns := by
  refine ⟨by decide, onePadded_added, ?_⟩
  refine (leaseBatch_selects_iff onePadded onePadded_added 1 2 (by decide)).mpr ⟨
    [oneToOne 1#256 2#256, twoToTwo (3#256, 4#256) (5#256, 6#256)], ?_, ?_⟩
  · decide
  · decide

/-- Two transactions that share no note. -/
def twoPadded : MempoolState ℕ UtxoProof ℕ Element Unit :=
  run default [addTxn 1 (oneToOne 1#256 2#256), addTxn 2 (oneToOne 3#256 4#256)]

/-- The second transaction stays in the pool, though there is room and it shares no note with
the first. -/
theorem leaseBatch_twoPadded : AddedWith UtxoProof.leaves twoPadded.txns ∧
    (twoPadded.leaseBatch 1 2).2 = some [(1, oneToOne 1#256 2#256)] ∧
    (twoPadded.leaseBatch 1 2).1.pool = [2] ∧ ¬∃ txns, twoPadded.Selects 1 2 txns := by
  have hreturned : (twoPadded.leaseBatch 1 2).2 = some [(1, oneToOne 1#256 2#256)] := by
    decide
  have hpool : (twoPadded.leaseBatch 1 2).1.pool = [2] := by decide
  have hlookup : (twoPadded.txns.lookup 2).map MempoolTxn.txn = some (oneToOne 3#256 4#256) := by
    decide
  refine ⟨run_added _ _ fun action hin => ?_, hreturned, hpool, ?_⟩
  · fin_cases hin <;> rfl
  · rintro ⟨txns, h⟩
    obtain rfl := Option.some.inj (hreturned.symm.trans h.returned)
    obtain ⟨txn, htxn, entry, hentry, hshares⟩ := h.maximal (by decide) 2 (by simp [hpool])
    obtain rfl := List.mem_singleton.mp hentry
    rw [htxn, Option.map_some, Option.some.injEq] at hlookup
    rw [hlookup] at hshares
    exact absurd hshares (by decide)

end PayyRollup.Mempool
