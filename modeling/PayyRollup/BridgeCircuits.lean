import PayyRollup.UtxoCircuit

/-!
The circuits that register deposits and withdrawals. A mint exposes the commitment, the
value and the source of each note; a burn exposes the nullifier in place of the
commitment, with a signature over the destination. The burns do not compare the note's
address with the secret key.
-/
namespace PayyRollup.BridgeCircuits

open ScalarField ConstraintProgram Layouter Chips Gadgets ElementHash Notes UtxoCircuit

structure Mint (L : ℕ) where
  notes : Vector Note L

structure Burn (L : ℕ) where
  secretKey : Element
  notes : Vector Note L
  toAddress : Element

structure BurnTo (L : ℕ) where
  secretKey : Element
  notes : Vector Note L
  kind : Element
  toAddress : Element

variable {L : ℕ} (hash : List Fr → Fr)

namespace Mint

def enforceNote (note : Note × ℕ) : Layouter Fr Unit := do
  let cells ← note.1.enforceConstraints hash
  constrainInstance cells.cm (note.2 * 3)
  constrainInstance cells.value (note.2 * 3 + 1)
  constrainInstance cells.source (note.2 * 3 + 2)

def enforceConstraints (self : Mint L) : Layouter Fr Unit :=
  forAll (enforceNote hash) self.notes.toList.zipIdx

def publicInputs (self : Mint L) : List Fr :=
  self.notes.toList.flatMap fun note =>
    [(note.commitment hash).toBase, note.value.toBase, note.source.toBase]

end Mint

/-- The rows of one burned note: its nullifier, value, source and signature follow the
`base` rows of the request, and `tail` ends the signed message. -/
def enforceBurnNote (base : ℕ) (secretKey toAddress zero tail : Fr) (note : Note × ℕ) :
    Layouter Fr Unit := do
  let cells ← note.1.enforceConstraints hash
  let nullifier ← poseidonHashGadget [cells.cm, secretKey, cells.psi, zero]
  constrainInstance nullifier (note.2 * 4 + base)
  constrainInstance cells.value (note.2 * 4 + base + 1)
  constrainInstance cells.source (note.2 * 4 + base + 2)
  let sig ← poseidonHashGadget [nullifier, secretKey, toAddress, tail]
  constrainInstance sig (note.2 * 4 + base + 3)

namespace Burn

def enforceConstraints (self : Burn L) : Layouter Fr Unit := do
  let toAddress ← assignAdvice self.toAddress.toBase
  let zero : Fr := 0
  constrainInstance toAddress 0
  let secretKey ← assignAdvice self.secretKey.toBase
  forAll (enforceBurnNote hash 1 secretKey toAddress zero zero) self.notes.toList.zipIdx

def signature (self : Burn L) (note : Note) : Element :=
  hashMerge hash [note.nullifier hash self.secretKey, self.secretKey, self.toAddress,
    Element.zero]

def publicInputs (self : Burn L) : List Fr :=
  self.toAddress.toBase :: self.notes.toList.flatMap fun note =>
    [(note.nullifier hash self.secretKey).toBase, note.value.toBase, note.source.toBase,
      (self.signature hash note).toBase]

end Burn

namespace BurnTo

def enforceConstraints (self : BurnTo L) : Layouter Fr Unit := do
  let kind ← assignAdvice self.kind.toBase
  let toAddress ← assignAdvice self.toAddress.toBase
  let zero : Fr := 0
  constrainInstance kind 0
  constrainInstance toAddress 1
  let secretKey ← assignAdvice self.secretKey.toBase
  forAll (enforceBurnNote hash 2 secretKey toAddress zero kind) self.notes.toList.zipIdx

def signature (self : BurnTo L) (note : Note) : Element :=
  hashMerge hash [note.nullifier hash self.secretKey, self.secretKey, self.toAddress,
    self.kind]

def publicInputs (self : BurnTo L) : List Fr :=
  self.kind.toBase :: self.toAddress.toBase :: self.notes.toList.flatMap fun note =>
    [(note.nullifier hash self.secretKey).toBase, note.value.toBase, note.source.toBase,
      (self.signature hash note).toBase]

end BurnTo

section Laws

variable (O : HashOracle Fr) (inst : List Fr)

/-- What a mint row forces: an opening of the exposed commitment to the exposed value. -/
structure MintRow (i : ℕ) (cells : NoteConstraintCells) (version : Fr) : Prop where
  opens : Opens O cells version
  commitment : inst[i * 3]? = some cells.cm
  value : inst[i * 3 + 1]? = some cells.value
  source : inst[i * 3 + 2]? = some cells.source

/-- What a burn row forces. -/
structure BurnRow (base i : ℕ) (secretKey toAddress tail : Fr) (cells : NoteConstraintCells)
    (version : Fr) : Prop where
  opens : Opens O cells version
  nullifier_hashed : [cells.cm, secretKey, cells.psi, 0] ∈ O.messages
  nullifier : inst[i * 4 + base]? = some (O.hash [cells.cm, secretKey, cells.psi, 0])
  value : inst[i * 4 + base + 1]? = some cells.value
  source : inst[i * 4 + base + 2]? = some cells.source
  sig_hashed :
    [O.hash [cells.cm, secretKey, cells.psi, 0], secretKey, toAddress, tail] ∈ O.messages
  sig : inst[i * 4 + base + 3]? =
    some (O.hash [O.hash [cells.cm, secretKey, cells.psi, 0], secretKey, toAddress, tail])

theorem forall_zipIdx {α : Type} (xs : List α) (P : ℕ → Prop) :
    (∀ x ∈ xs.zipIdx, P x.2) ↔ ∀ i < xs.length, P i := by
  constructor
  · intro h i hi
    exact h (xs[i], i) (List.mk_mem_zipIdx_iff_getElem?.mpr (by simp [hi]))
  · intro h x hx
    obtain ⟨a, i⟩ := x
    have hget := List.mk_mem_zipIdx_iff_getElem?.mp hx
    exact h i (List.getElem?_eq_some_iff.mp hget).1

theorem sat_mint (self : Mint L) (u : Unit) :
    Sat O inst (self.enforceConstraints hash) u ↔
      ∀ i < L, ∃ cells version, MintRow O inst i cells version := by
  have hnote : ∀ x : Note × ℕ, Sat O inst (Mint.enforceNote hash x) () ↔
      ∃ cells version, MintRow O inst x.2 cells version := by
    intro x
    simp only [Mint.enforceNote, sat_bind, sat_note, sat_constrainInstance]
    constructor
    · rintro ⟨cells, ⟨version, hopens⟩, -, hcm, -, hvalue, hsource⟩
      exact ⟨cells, version, hopens, hcm, hvalue, hsource⟩
    · rintro ⟨cells, version, hrow⟩
      exact ⟨cells, ⟨version, hrow.opens⟩, (), hrow.commitment, (), hrow.value, hrow.source⟩
  rw [Mint.enforceConstraints, sat_forAll]
  simp only [hnote]
  rw [forall_zipIdx self.notes.toList fun i => ∃ cells version, MintRow O inst i cells version,
    Vector.length_toList]

theorem sat_enforceBurnNote (base : ℕ) (secretKey toAddress tail : Fr) (x : Note × ℕ) :
    Sat O inst (enforceBurnNote hash base secretKey toAddress 0 tail x) () ↔
      ∃ cells version, BurnRow O inst base x.2 secretKey toAddress tail cells version := by
  simp only [enforceBurnNote, poseidonHashGadget, sat_bind, sat_note, sat_hashGadget,
    sat_constrainInstance]
  constructor
  · rintro ⟨cells, ⟨version, hopens⟩, nullifier, ⟨hnm, rfl⟩, -, hnull, -, hvalue, -, hsource,
      sig, ⟨hsm, rfl⟩, hsig⟩
    exact ⟨cells, version, hopens, hnm, hnull, hvalue, hsource, hsm, hsig⟩
  · rintro ⟨cells, version, hrow⟩
    exact ⟨cells, ⟨version, hrow.opens⟩, _, ⟨hrow.nullifier_hashed, rfl⟩, (), hrow.nullifier,
      (), hrow.value, (), hrow.source, _, ⟨hrow.sig_hashed, rfl⟩, hrow.sig⟩

theorem sat_burnNotes (base : ℕ) (secretKey toAddress tail : Fr) (notes : Vector Note L)
    (u : Unit) :
    Sat O inst (forAll (enforceBurnNote hash base secretKey toAddress 0 tail)
        notes.toList.zipIdx) u ↔
      ∀ i < L, ∃ cells version,
        BurnRow O inst base i secretKey toAddress tail cells version := by
  rw [sat_forAll]
  simp only [sat_enforceBurnNote]
  rw [forall_zipIdx notes.toList fun i => ∃ cells version,
    BurnRow O inst base i secretKey toAddress tail cells version, Vector.length_toList]

theorem sat_burn (self : Burn L) (u : Unit) :
    Sat O inst (self.enforceConstraints hash) u ↔
      ∃ secretKey toAddress, inst[0]? = some toAddress ∧ ∀ i < L, ∃ cells version,
        BurnRow O inst 1 i secretKey toAddress 0 cells version := by
  simp only [Burn.enforceConstraints, sat_bind, sat_assignAdvice, sat_constrainInstance,
    sat_burnNotes, true_and]
  constructor
  · rintro ⟨toAddress, -, hto, secretKey, hrows⟩
    exact ⟨secretKey, toAddress, hto, hrows⟩
  · rintro ⟨secretKey, toAddress, hto, hrows⟩
    exact ⟨toAddress, (), hto, secretKey, hrows⟩

theorem sat_burnTo (self : BurnTo L) (u : Unit) :
    Sat O inst (self.enforceConstraints hash) u ↔
      ∃ secretKey kind toAddress, inst[0]? = some kind ∧ inst[1]? = some toAddress ∧
        ∀ i < L, ∃ cells version,
          BurnRow O inst 2 i secretKey toAddress kind cells version := by
  simp only [BurnTo.enforceConstraints, sat_bind, sat_assignAdvice, sat_constrainInstance,
    sat_burnNotes, true_and]
  constructor
  · rintro ⟨kind, toAddress, -, hkind, -, hto, secretKey, hrows⟩
    exact ⟨secretKey, kind, toAddress, hkind, hto, hrows⟩
  · rintro ⟨secretKey, kind, toAddress, hkind, hto, hrows⟩
    exact ⟨kind, toAddress, (), hkind, (), hto, secretKey, hrows⟩

end Laws

section Acceptance

variable (O : HashOracle Fr)

/-- Some prover's witness satisfies the mint circuit with these public inputs. -/
def MintAccepts (L : ℕ) (inst : List Fr) : Prop :=
  ∃ self : Mint L, Sat O inst (self.enforceConstraints O.hash) ()

def BurnAccepts (L : ℕ) (inst : List Fr) : Prop :=
  ∃ self : Burn L, Sat O inst (self.enforceConstraints O.hash) ()

def BurnToAccepts (L : ℕ) (inst : List Fr) : Prop :=
  ∃ self : BurnTo L, Sat O inst (self.enforceConstraints O.hash) ()

def UtxoAccepts (D : ℕ) (inst : List Fr) : Prop :=
  ∃ (self : Utxo D) (cells : UtxoCells), Sat O inst (self.enforceConstraints O.hash) cells

/-- The UTXO circuit accepts the public inputs of constrained cells. -/
theorem utxoAccepts_iff (D : ℕ) (inst : List Fr) :
    UtxoAccepts O D inst ↔ ∃ cells, Constrained O D inst cells := by
  constructor
  · rintro ⟨self, cells, hsat⟩
    exact ⟨cells, (sat_utxo O inst O.hash self cells).mp hsat⟩
  · rintro ⟨cells, hcells⟩
    exact ⟨Utxo.default O.hash D, cells, (sat_utxo O inst O.hash _ cells).mpr hcells⟩

end Acceptance
end PayyRollup.BridgeCircuits
