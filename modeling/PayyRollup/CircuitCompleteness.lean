import PayyRollup.BridgeCircuits
import PayyRollup.UtxoCompleteness

/-!
The honest provers of the circuits of the bridge. A mint always meets its own public inputs.
A burn exposes the null nullifier for padding where its circuit hashes one, so it meets them
exactly when the hash of the nullifier of each padding note is null as well. All three hold for
any number of notes, by what the honest prover's run does at a single row of the table.
-/
namespace PayyRollup.CircuitCompleteness

open BitLists ScalarField ConstraintProgram Layouter Chips Gadgets ElementHash Notes UtxoCircuit
  UtxoCompleteness BridgeCircuits

section Rows

variable {α β : Type}

/-- The rows of the element at `i` in a table of `width` rows an element. -/
theorem getElem?_flatMap_rows (rows : α → List β) (width : ℕ)
    (hwidth : ∀ x, (rows x).length = width) (xs : List α) (x : α) (i j : ℕ)
    (hx : xs[i]? = some x) (hj : j < width) :
    (xs.flatMap rows)[i * width + j]? = (rows x)[j]? := by
  induction xs generalizing i with
  | nil => exact absurd hx (by simp)
  | cons first rest ih =>
    rw [List.flatMap_cons]
    cases i with
    | zero =>
      obtain rfl : first = x := Option.some.inj hx
      rw [Nat.zero_mul, Nat.zero_add, List.getElem?_append_left (by rw [hwidth]; exact hj)]
    | succ i =>
      have hindex : (i + 1) * width + j - width = i * width + j := by
        rw [Nat.succ_mul]
        omega
      rw [List.getElem?_append_right (by rw [hwidth, Nat.succ_mul]; omega), hwidth, hindex]
      exact ih i hx

end Rows

/-- A hash of the honest prover is passed on. -/
theorem run_hashGadget_bind {α : Type} (hash : List Fr → Fr) (inst message : List Fr)
    (f : Fr → Layouter Fr α) :
    run hash inst (hashGadget message >>= f) = run hash inst (f (hash message)) := by
  rw [run_bind, run_hashGadget, Option.bind_some]

section Bridge

variable {L : ℕ} (hash : List Fr → Fr)

/-- The honest prover of a mint meets its public inputs. -/
theorem run_mint (self : Mint L) (hvalue : ∀ note ∈ self.notes.toList, note.value.toNat < modulus) :
    (run hash (self.publicInputs hash) (self.enforceConstraints hash)).isSome := by
  rw [Mint.enforceConstraints, run_forAll_isSome]
  rintro ⟨note, i⟩ hmem
  have hget : self.notes.toList[i]? = some note := List.mk_mem_zipIdx_iff_getElem?.mp hmem
  have hrow := fun j => getElem?_flatMap_rows (fun note : Note =>
    [(note.commitment hash).toBase, note.value.toBase, note.source.toBase]) 3 (fun _ => rfl)
    self.notes.toList note i j hget
  rw [Mint.enforceNote, run_bind, run_note hash _ note (hvalue note (List.mem_of_getElem? hget)),
    Option.bind_some, run_check_isSome, run_check_isSome, run_constrainInstance_isSome,
    run_constrainInstance_isSome, run_constrainInstance_isSome]
  exact ⟨hrow 0 (by decide), hrow 1 (by decide), hrow 2 (by decide)⟩

/-- The nullifier that the burn circuits hash for a note. -/
def burnNullifier (secretKey : Element) (note : Note) : Fr :=
  hash [(note.commitment hash).toBase, secretKey.toBase, note.psi.toBase, 0]

/-- Outside the circuit the nullifier of padding is null. -/
theorem nullifier_eq_iff (secretKey : Element) (note : Note) :
    (note.nullifier hash secretKey).toBase = burnNullifier hash secretKey note ↔
      (note.isPadding hash = true → burnNullifier hash secretKey note = 0) := by
  rw [Note.nullifier]
  cases hpad : note.isPadding hash with
  | false =>
    rw [if_neg Bool.false_ne_true, toBase_hashMerge]
    simp [burnNullifier]
  | true =>
    rw [if_pos rfl, Note.paddingNote_commitment, Element.toBase_zero, eq_comm]
    simp

theorem run_enforceBurnNote (inst : List Fr) (base : ℕ) (secretKey : Element) (toAddress tail : Fr)
    (note : Note) (i : ℕ) (hvalue : note.value.toNat < modulus) :
    (run hash inst (enforceBurnNote hash base secretKey.toBase toAddress 0 tail (note, i))).isSome ↔
      inst[i * 4 + base]? = some (burnNullifier hash secretKey note) ∧
      inst[i * 4 + base + 1]? = some note.value.toBase ∧
      inst[i * 4 + base + 2]? = some note.source.toBase ∧
      inst[i * 4 + base + 3]? =
        some (hash [burnNullifier hash secretKey note, secretKey.toBase, toAddress, tail]) := by
  rw [enforceBurnNote, run_bind, run_note hash inst note hvalue, Option.bind_some]
  simp only [poseidonHashGadget, noteCells, run_check_isSome, run_constrainInstance_isSome,
    run_hashGadget_bind, burnNullifier]

/-- A burned note meets the rows that the code lists for it exactly when it is no padding. -/
theorem run_burnRow (inst : List Fr) (base : ℕ) (secretKey : Element) (toAddress tail : Element)
    (note : Note) (i : ℕ) (hvalue : note.value.toNat < modulus)
    (hrow : ∀ j < 4, inst[i * 4 + base + j]? = [(note.nullifier hash secretKey).toBase,
      note.value.toBase, note.source.toBase, (hashMerge hash [note.nullifier hash secretKey,
        secretKey, toAddress, tail]).toBase][j]?) :
    (run hash inst (enforceBurnNote hash base secretKey.toBase toAddress.toBase 0 tail.toBase
        (note, i))).isSome ↔
      (note.isPadding hash = true → burnNullifier hash secretKey note = 0) := by
  have hnullifier := hrow 0 (by decide)
  have hvalueRow := hrow 1 (by decide)
  have hsource := hrow 2 (by decide)
  have hsig := hrow 3 (by decide)
  rw [Nat.add_zero] at hnullifier
  rw [run_enforceBurnNote hash inst base secretKey toAddress.toBase tail.toBase note i hvalue,
    hnullifier, hvalueRow, hsource, hsig, ← nullifier_eq_iff, toBase_hashMerge]
  constructor
  · rintro ⟨hsame, -, -, -⟩
    exact Option.some.inj hsame
  · intro hsame
    refine ⟨congrArg some hsame, rfl, rfl, ?_⟩
    rw [← hsame]
    rfl

theorem forall_mem_zipIdx {α : Type} (xs : List α) (P : α × ℕ → Prop) (Q : α → Prop)
    (h : ∀ x i, xs[i]? = some x → (P (x, i) ↔ Q x)) :
    (∀ x ∈ xs.zipIdx, P x) ↔ ∀ x ∈ xs, Q x := by
  constructor
  · intro hall x hx
    obtain ⟨i, hi⟩ := List.getElem?_of_mem hx
    exact (h x i hi).mp (hall (x, i) (List.mk_mem_zipIdx_iff_getElem?.mpr hi))
  · rintro hall ⟨x, i⟩ hx
    have hi : xs[i]? = some x := List.mk_mem_zipIdx_iff_getElem?.mp hx
    exact (h x i hi).mpr (hall x (List.mem_of_getElem? hi))

theorem run_burn (self : Burn L)
    (hvalue : ∀ note ∈ self.notes.toList, note.value.toNat < modulus) :
    (run hash (self.publicInputs hash) (self.enforceConstraints hash)).isSome ↔
      ∀ note ∈ self.notes.toList, note.isPadding hash = true →
        burnNullifier hash self.secretKey note = 0 := by
  rw [Burn.enforceConstraints, run_bind, run_assignAdvice, Option.bind_some, run_check_isSome,
    run_constrainInstance_isSome, run_bind, run_assignAdvice, Option.bind_some,
    run_forAll_isSome, forall_mem_zipIdx]
  · exact and_iff_right rfl
  · intro note i hget
    have htail : (0 : Fr) = Element.zero.toBase := Element.toBase_zero.symm
    nth_rewrite 2 [htail]
    refine run_burnRow hash _ 1 self.secretKey self.toAddress Element.zero note i
      (hvalue note (List.mem_of_getElem? hget)) fun j hj => ?_
    have hshift : i * 4 + 1 + j = (i * 4 + j) + 1 := by omega
    rw [hshift]
    exact getElem?_flatMap_rows (fun note : Note =>
      [(note.nullifier hash self.secretKey).toBase, note.value.toBase, note.source.toBase,
        (self.signature hash note).toBase]) 4 (fun _ => rfl) self.notes.toList note i j hget hj

theorem run_burnTo (self : BurnTo L)
    (hvalue : ∀ note ∈ self.notes.toList, note.value.toNat < modulus) :
    (run hash (self.publicInputs hash) (self.enforceConstraints hash)).isSome ↔
      ∀ note ∈ self.notes.toList, note.isPadding hash = true →
        burnNullifier hash self.secretKey note = 0 := by
  rw [BurnTo.enforceConstraints, run_bind, run_assignAdvice, Option.bind_some, run_bind,
    run_assignAdvice, Option.bind_some, run_check_isSome, run_constrainInstance_isSome,
    run_check_isSome, run_constrainInstance_isSome, run_bind, run_assignAdvice,
    Option.bind_some, run_forAll_isSome, forall_mem_zipIdx]
  · exact (and_iff_right rfl).trans (and_iff_right rfl)
  · intro note i hget
    refine run_burnRow hash _ 2 self.secretKey self.toAddress self.kind note i
      (hvalue note (List.mem_of_getElem? hget)) fun j hj => ?_
    have hshift : i * 4 + 2 + j = (i * 4 + j) + 1 + 1 := by omega
    rw [hshift]
    exact getElem?_flatMap_rows (fun note : Note =>
      [(note.nullifier hash self.secretKey).toBase, note.value.toBase, note.source.toBase,
        (self.signature hash note).toBase]) 4 (fun _ => rfl) self.notes.toList note i j hget hj

/-- The proofs for the contract: a mint always meets its own public inputs, and either burn
meets them exactly when the circuit hashes the nullifier of each padding note to null. -/
theorem bridge_proofs_met (mint : Mint L) (burn : Burn L) (burnTo : BurnTo L)
    (hmint : ∀ note ∈ mint.notes.toList, note.value.toNat < modulus)
    (hburn : ∀ note ∈ burn.notes.toList, note.value.toNat < modulus)
    (hburnTo : ∀ note ∈ burnTo.notes.toList, note.value.toNat < modulus) :
    (run hash (mint.publicInputs hash) (mint.enforceConstraints hash)).isSome ∧
    ((run hash (burn.publicInputs hash) (burn.enforceConstraints hash)).isSome ↔
      ∀ note ∈ burn.notes.toList, note.isPadding hash = true →
        burnNullifier hash burn.secretKey note = 0) ∧
    ((run hash (burnTo.publicInputs hash) (burnTo.enforceConstraints hash)).isSome ↔
      ∀ note ∈ burnTo.notes.toList, note.isPadding hash = true →
        burnNullifier hash burnTo.secretKey note = 0) :=
  ⟨run_mint hash mint hmint, run_burn hash burn hburn, run_burnTo hash burnTo hburnTo⟩

theorem forall_mem_singleton {α : Type} (p : α → Prop) (a : α) (ha : p a) :
    ∀ x ∈ (#v[a] : Vector α 1).toList, p x := by
  intro x hx
  rw [List.mem_singleton.mp hx]
  exact ha

/-- Five coins are burned, and padding is minted but not burned. -/
theorem bridge_proofs_met_five :
    (run sevenOracle.hash ((⟨#v[Note.default]⟩ : Mint 1).publicInputs sevenOracle.hash)
      ((⟨#v[Note.default]⟩ : Mint 1).enforceConstraints sevenOracle.hash)).isSome ∧
    ¬(run sevenOracle.hash ((⟨1#256, #v[Note.default], 2#256⟩ : Burn 1).publicInputs
        sevenOracle.hash)
      ((⟨1#256, #v[Note.default], 2#256⟩ : Burn 1).enforceConstraints sevenOracle.hash)).isSome ∧
    (run sevenOracle.hash ((⟨1#256, #v[fiveCoins.note], 0#256, 2#256⟩ : BurnTo 1).publicInputs
        sevenOracle.hash)
      ((⟨1#256, #v[fiveCoins.note], 0#256, 2#256⟩ : BurnTo 1).enforceConstraints
        sevenOracle.hash)).isSome := by
  have hdefault : ∀ note ∈ (#v[Note.default] : Vector Note 1).toList,
      note.value.toNat < modulus := forall_mem_singleton _ _ (by decide)
  have hfive : ∀ note ∈ (#v[fiveCoins.note] : Vector Note 1).toList,
      note.value.toNat < modulus := forall_mem_singleton _ _ (by decide)
  obtain ⟨hmint, hburn, hburnTo⟩ := bridge_proofs_met sevenOracle.hash ⟨#v[Note.default]⟩
    ⟨1#256, #v[Note.default], 2#256⟩ ⟨1#256, #v[fiveCoins.note], 0#256, 2#256⟩ hdefault hdefault
    hfive
  have hne : (7 : Fr) ≠ 0 := by decide
  refine ⟨hmint, fun hrun => ?_, hburnTo.mpr (forall_mem_singleton _ _ fun hpad => ?_)⟩
  · exact hne (hburn.mp hrun Note.default (List.mem_singleton_self _) (by decide))
  · exact absurd hpad (by decide)

end Bridge

end PayyRollup.CircuitCompleteness
