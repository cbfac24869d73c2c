import PayyRollup.UtxoCompleteness

/-!
The circuits of points and of compliance. Points add up the values of an account's notes,
and compliance proves that a leaf of a tree is empty for a commitment. Both leave to the
adversary what the name of the circuit promises: the notes of the points are in no tree, and
the empty leaf of the compliance is not tied to the source of the note.
-/
namespace PayyRollup.AccountCircuits

open BitLists ScalarField ConstraintProgram Layouter Chips Gadgets SparseMerkle ElementHash
  Notes UtxoCompleteness

def numNotes : ℕ := 112

/-- The notes of an account with its key. `new` asserts the number of notes. -/
structure Points where
  secretKey : Element
  notes : List Note
  notes_length : notes.length = numNotes

/-- `recentRoot` enters no constraint: the instance has the root. -/
structure Compliance (N : ℕ) where
  note : Note
  recentRoot : Fr
  merklePath : MerklePath N

variable (hash : List Fr → Fr)

namespace Points

def address (self : Points) : Fr :=
  (hashMerge hash [self.secretKey, Element.zero]).toBase

def totalValue (self : Points) : Element :=
  self.notes.foldl (fun total note => total + note.value) Element.zero

/-- The address of a padding note gives way to the unverified address. -/
def enforceNote (unverifiedAddress : Fr) (note : Note) : Layouter Fr Fr := do
  let cells ← note.enforceConstraints hash
  let pair ← CondSwapChip.swapAssigned (cells.address, unverifiedAddress) cells.isPadding
  constrainInstance pair.1 0
  return cells.value

def enforceConstraints (self : Points) : Layouter Fr Unit := do
  let unverifiedAddress ← assignAdvice (self.address hash)
  let values ← forEach (enforceNote hash unverifiedAddress) self.notes
  let total ← AddCulmChip.assign values
  constrainInstance total 1

/-- Only the first two rows are constrained. -/
def publicInputs (self : Points) : List Fr :=
  [self.address hash, self.totalValue.toBase] ++ self.notes.flatMap fun note =>
    [(note.commitment hash).toBase, (note.nullifier hash self.secretKey).toBase]

end Points

/-- The path starts at the null leaf, on the sides that the prover takes from the source. -/
def Compliance.enforceConstraints {N : ℕ} (self : Compliance N) : Layouter Fr Unit := do
  let cells ← self.note.enforceConstraints hash
  let nullLeaf : Fr := 0
  let root ← self.merklePath.enforceInclusionConstraints self.note.source.toBase nullLeaf
  constrainInstance root 0
  constrainInstance cells.cm 1

section Adversary

variable (O : HashOracle Fr) (inst : List Fr)

/-- What a row of the points forces: the value is that of an opening, and the address is
bound only beside a value that is not zero. -/
def Owned (address value : Fr) : Prop :=
  ∃ cells version, Opens O cells version ∧ cells.value = value ∧
    (value ≠ 0 → cells.address = address)

theorem sat_enforceNote (unverifiedAddress : Fr) (note : Note) (value : Fr) :
    Sat O inst (Points.enforceNote hash unverifiedAddress note) value ↔
      ∃ cells version, Opens O cells version ∧ cells.value = value ∧
        inst[0]? = some (if value = 0 then unverifiedAddress else cells.address) := by
  simp only [Points.enforceNote, sat_bind, sat_note, sat_swapAssigned, sat_constrainInstance,
    sat_pure]
  constructor
  · rintro ⟨cells, ⟨version, hopens⟩, pair, ⟨swap, hswap, rfl⟩, -, hinst, rfl⟩
    have hsame := hopens.is_padding.symm.trans hswap
    rw [bitCell_inj] at hsame
    subst hsame
    refine ⟨cells, version, hopens, rfl, ?_⟩
    by_cases h : cells.value = 0
    · simpa [h, swapped] using hinst
    · simpa [h, swapped] using hinst
  · rintro ⟨cells, version, hopens, rfl, hinst⟩
    refine ⟨cells, ⟨version, hopens⟩, _, ⟨_, hopens.is_padding, rfl⟩, (), ?_, rfl⟩
    by_cases h : cells.value = 0
    · simpa [h, swapped] using hinst
    · simpa [h, swapped] using hinst

/-- The points of an address are any sum of as many openings as the circuit has notes. -/
theorem sat_points (self : Points) (u : Unit) :
    Sat O inst (self.enforceConstraints hash) u ↔
      ∃ address, inst[0]? = some address ∧ ∃ values : List Fr,
        values.length = numNotes ∧ (∀ value ∈ values, Owned O address value) ∧
          inst[1]? = some values.sum := by
  simp only [Points.enforceConstraints, sat_bind, sat_assignAdvice, true_and, sat_addCulm,
    sat_constrainInstance]
  constructor
  · rintro ⟨unverified, values, hvalues, total, rfl, htotal⟩
    rw [sat_forEach_const O inst _ _ (sat_enforceNote hash O inst unverified),
      self.notes_length] at hvalues
    obtain ⟨hlength, hrows⟩ := hvalues
    cases hfirst : inst[0]? with
    | none =>
      have hpos : 0 < values.length := by
        rw [hlength]
        decide
      obtain ⟨value, hvalue⟩ := List.exists_mem_of_length_pos hpos
      obtain ⟨cells, version, -, -, hinst⟩ := hrows value hvalue
      exact absurd (hfirst.symm.trans hinst) (by simp)
    | some address =>
      refine ⟨address, rfl, values, hlength, fun value hvalue => ?_, htotal⟩
      obtain ⟨cells, version, hopens, heq, hinst⟩ := hrows value hvalue
      refine ⟨cells, version, hopens, heq, fun hne => ?_⟩
      rw [hfirst, if_neg hne, Option.some.injEq] at hinst
      exact hinst.symm
  · rintro ⟨address, hfirst, values, hlength, howned, htotal⟩
    refine ⟨address, values, ?_, _, rfl, htotal⟩
    rw [sat_forEach_const O inst _ _ (sat_enforceNote hash O inst address), self.notes_length]
    refine ⟨hlength, fun value hvalue => ?_⟩
    obtain ⟨cells, version, hopens, heq, haddress⟩ := howned value hvalue
    refine ⟨cells, version, hopens, heq, ?_⟩
    rw [hfirst]
    by_cases hzero : value = 0
    · rw [if_pos hzero]
    · rw [if_neg hzero, haddress hzero]

/-- Some opening has the commitment. -/
def Opened (cm : Fr) : Prop := ∃ cells version, Opens O cells version ∧ cells.cm = cm

theorem sat_compliance {N : ℕ} (self : Compliance N) (u : Unit) :
    Sat O inst (self.enforceConstraints hash) u ↔
      (∃ path : List (Bool × Fr), path.length = N - 1 ∧ PathHashedUp (pairHash O) 0 path ∧
        inst[0]? = some (climbUp (pairHash O).node 0 path)) ∧
      ∃ cm, inst[1]? = some cm ∧ Opened O cm := by
  simp only [Compliance.enforceConstraints, sat_bind, sat_note,
    MerklePath.sat_enforceInclusion, sat_constrainInstance]
  constructor
  · rintro ⟨cells, ⟨version, hopens⟩, root, ⟨path, hlength, hhashed, rfl⟩, -, hroot, hcm⟩
    exact ⟨⟨path, hlength, hhashed, hroot⟩, cells.cm, hcm, cells, version, hopens, rfl⟩
  · rintro ⟨⟨path, hlength, hhashed, hroot⟩, cm, hcm, cells, version, hopens, rfl⟩
    exact ⟨cells, ⟨version, hopens⟩, _, ⟨path, hlength, hhashed, rfl⟩, (), hroot, hcm⟩

/-- The path of any leaf of a hashed tree is hashed. -/
theorem pathHashed_siblings (N : NodeHash Fr) (σ : List Bool → Fr) (p : List Bool)
    (h : RootHashed N p.length σ) : PathHashed N (p.zip (siblings N.node σ p)) (σ p) := by
  induction p generalizing σ with
  | nil => trivial
  | cons right rest ih =>
    obtain ⟨hpair, hleft, hright⟩ := h
    cases right with
    | false =>
      refine ⟨?_, ih (child σ false) hleft⟩
      change N.hashed (climb N.node (rest.zip (siblings N.node (child σ false) rest))
        (child σ false rest)) (root N.node rest.length (child σ true))
      rw [← root_eq_climb]
      exact hpair
    | true =>
      refine ⟨?_, ih (child σ true) hright⟩
      change N.hashed (root N.node rest.length (child σ false)) (climb N.node
        (rest.zip (siblings N.node (child σ true) rest)) (child σ true rest))
      rw [← root_eq_climb]
      exact hpair

/-- The rows of the commitments and of the nullifiers bind nothing: an address and a total are
accepted when the total is a sum of as many openings as the circuit has notes. -/
theorem points_accept (self : Points) (address total : Fr) (rest : List Fr) :
    Sat O (address :: total :: rest) (self.enforceConstraints hash) () ↔
      ∃ values : List Fr, values.length = numNotes ∧
        (∀ value ∈ values, Owned O address value) ∧ total = values.sum := by
  rw [sat_points]
  constructor
  · rintro ⟨address', haddress, values, hlength, howned, htotal⟩
    obtain rfl : address = address' := Option.some.inj haddress
    exact ⟨values, hlength, howned, Option.some.inj htotal⟩
  · rintro ⟨values, hlength, howned, rfl⟩
    exact ⟨address, rfl, values, hlength, howned, rfl⟩

/-- Against the root of a compliance tree the circuit accepts every commitment that opens, as
soon as some leaf of the tree is empty, whatever the source of the note. -/
theorem compliance_accepts (hO : O.CollisionFree) {N : ℕ} (self : Compliance N)
    (σ : List Bool → Fr) (hσ : RootHashed (pairHash O) (N - 1) σ) (cm : Fr) (rest : List Fr) :
    Sat O (root (pairHash O).node (N - 1) σ :: cm :: rest) (self.enforceConstraints hash) () ↔
      (∃ p : List Bool, p.length = N - 1 ∧ σ p = 0) ∧ Opened O cm := by
  rw [sat_compliance]
  constructor
  · rintro ⟨⟨path, hlength, hhashed, hroot⟩, cm', hcm, hopened⟩
    have hlen : path.reverse.length = N - 1 := path.length_reverse.trans hlength
    rw [pathHashedUp_iff] at hhashed
    rw [List.getElem?_cons_zero, Option.some.injEq, climbUp_eq_climb, ← hlen] at hroot
    rw [← hlen] at hσ
    obtain ⟨hleaf, -⟩ := climb_eq_root (pairHash O) (pairHash_injective O hO) σ path.reverse 0
      hσ hhashed hroot.symm
    obtain rfl : cm = cm' := Option.some.inj hcm
    exact ⟨⟨path.reverse.map Prod.fst, by rw [List.length_map, hlen], hleaf.symm⟩, hopened⟩
  · rintro ⟨⟨p, hlength, hnull⟩, hopened⟩
    rw [← hlength] at hσ ⊢
    have hzip : (p.zip (siblings (pairHash O).node σ p)).length = p.length := by
      rw [List.length_zip, siblings_length, Nat.min_self]
    refine ⟨⟨(p.zip (siblings (pairHash O).node σ p)).reverse, ?_, ?_, ?_⟩, cm, rfl, hopened⟩
    · rw [List.length_reverse, hzip]
    · rw [pathHashedUp_iff, List.reverse_reverse, ← hnull]
      exact pathHashed_siblings (pairHash O) σ p hσ
    · rw [climbUp_eq_climb, List.reverse_reverse, ← hnull, ← root_eq_climb]
      rfl

end Adversary

section Listed

/-- The number of cells of a message, for the two messages that are hashed below. -/
def lengthOracle : HashOracle Fr := ⟨fun m => m.length, {[0, 5], [7, 3, 2, 5, 1, 1]}⟩

theorem lengthOracle_collisionFree : lengthOracle.CollisionFree := by
  intro m hm n hn h
  have hne : ((2 : ℕ) : Fr) ≠ ((6 : ℕ) : Fr) := by decide
  rcases hm with rfl | rfl <;> rcases hn with rfl | rfl
  · rfl
  · exact absurd h hne
  · exact absurd h.symm hne
  · rfl

/-- The compliance tree of depth 2 that lists the source 5. -/
def listsFive (p : List Bool) : Fr := if p = [true] then 5 else 0

theorem listsFive_hashed : RootHashed (pairHash lengthOracle) 1 listsFive := by
  refine ⟨?_, trivial, trivial⟩
  exact Or.inl rfl

/-- A note of seven from the listed source. -/
def noteFromFive : Compliance 2 where
  note := ⟨3#256, 2#256, 7#256, 5#256⟩
  recentRoot := 2
  merklePath := MerklePath.default lengthOracle.hash 2

theorem compliance_accepts_listed :
    Sat lengthOracle [2, 6] (noteFromFive.enforceConstraints lengthOracle.hash) () := by
  have hne : (7 : Fr) ≠ 0 := by decide
  refine (compliance_accepts lengthOracle.hash lengthOracle lengthOracle_collisionFree noteFromFive
    listsFive listsFive_hashed 6 []).mpr ⟨⟨[false], rfl, rfl⟩, ?_⟩
  refine ⟨⟨7, 3, 6, 0, 5, 2⟩, 1, ⟨Or.inr rfl, ?_, ?_⟩, rfl⟩
  · rw [decide_eq_false hne]
    rfl
  · rw [if_neg hne]
    rfl

end Listed

end PayyRollup.AccountCircuits
