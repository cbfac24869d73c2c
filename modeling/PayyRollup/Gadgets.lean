import PayyRollup.Chips
import PayyRollup.ScalarField
import PayyRollup.SparseMerkle

/-!
Gadgets over the scalar field: the running-sum decomposition into one-bit windows, the
Poseidon hash gadget and the Merkle root computed from a leaf upwards. The adversary
may decompose a field element into any bits of a number in its residue class.
-/
namespace PayyRollup.Gadgets

open BitLists ScalarField ConstraintProgram Layouter Chips SparseMerkle

namespace BinaryDecomposition

/-- The words the honest prover decomposes an element into. -/
def decomposeWord (word : Fr) (wordNumBits : ℕ) : List Fr :=
  ((toBits 256 word.val).take wordNumBits).map bitCell

/-- The running sum over the honest words; the last sum is constrained to zero. -/
def decompose (z : Fr) : List Fr → Layouter Fr (List Fr)
  | [] => do
      constrainEqual z 0
      return []
  | word :: words => do
      let zNext ← assignAdvice ((z - word) * 2⁻¹)
      let b ← assignAdvice word
      constrainZero (rangeCheck (z - zNext * 2) 2)
      constrainZero (b - (z - zNext * 2))
      let bits ← decompose zNext words
      return b :: bits

def copyDecompose (alpha : Fr) (wordNumBits numWindows : ℕ) : Layouter Fr (List Fr) :=
  decompose alpha ((decomposeWord alpha wordNumBits).take numWindows)

end BinaryDecomposition

def poseidonHashGadget (messages : List Fr) : Layouter Fr Fr := hashGadget messages

/-- The root over assigned siblings and swap bits, from the leaf upwards. -/
def merkleRoot (leaf : Fr) : List (Fr × Fr) → Layouter Fr Fr
  | [] => return leaf
  | (sibling, swap) :: siblings => do
      let pair ← CondSwapChip.swapAssigned (leaf, sibling) swap
      let cur ← poseidonHashGadget [pair.1, pair.2]
      merkleRoot cur siblings

/-- The root over witnessed siblings and swap bits, from the leaf upwards. -/
def merkleRootValue (leaf : Fr) : List (Fr × Fr) → Layouter Fr Fr
  | [] => return leaf
  | (sibling, swap) :: siblings => do
      let pair ← CondSwapChip.swap (leaf, sibling) swap
      let cur ← poseidonHashGadget [pair.1, pair.2]
      merkleRootValue cur siblings

/-- The hash of two children, with the pairs the oracle hashes. -/
def pairHash (O : HashOracle Fr) : NodeHash Fr where
  node := fun a b => O.hash [a, b]
  hashed := fun a b => [a, b] ∈ O.messages

theorem pairHash_injective (O : HashOracle Fr) (hO : O.CollisionFree) :
    (pairHash O).Injective := by
  intro a b c d hab hcd h
  have hlist := hO.eq hab hcd h
  simpa using hlist

@[simp] theorem pairHash_node (O : HashOracle Fr) (a b : Fr) :
    (pairHash O).node a b = O.hash [a, b] := rfl

@[simp] theorem pairHash_hashed (O : HashOracle Fr) (a b : Fr) :
    (pairHash O).hashed a b ↔ [a, b] ∈ O.messages := Iff.rfl

section Laws

variable (O : HashOracle Fr) (hash : List Fr → Fr) (inst : List Fr)

/-- The field element of a bit list. -/
def bitsValue (bits : List Bool) : Fr := (ofBits bits : Fr)

theorem bitsValue_cons (b : Bool) (bits : List Bool) :
    bitsValue (b :: bits) = bitCell b + 2 * bitsValue bits := by
  cases b <;> simp [bitsValue, ofBits]

theorem two_ne_zero : (2 : Fr) ≠ 0 := by decide

/-- The adversary can decompose into any bits of a number congruent to the element. -/
theorem sat_decompose (z : Fr) (words : List Fr) (out : List Fr) :
    Sat O inst (BinaryDecomposition.decompose z words) out ↔
      ∃ bits : List Bool, bits.length = words.length ∧ out = bits.map bitCell ∧
        z = bitsValue bits := by
  induction words generalizing z out with
  | nil =>
    simp only [BinaryDecomposition.decompose, sat_bind, sat_constrainEqual, sat_pure]
    constructor
    · rintro ⟨-, hz, rfl⟩
      exact ⟨[], rfl, rfl, by simpa [bitsValue, ofBits] using hz⟩
    · rintro ⟨bits, hlen, rfl, hz⟩
      obtain rfl : bits = [] := List.length_eq_zero_iff.mp hlen
      exact ⟨(), by simpa [bitsValue, ofBits] using hz, rfl⟩
  | cons word words ih =>
    simp only [BinaryDecomposition.decompose, sat_bind, sat_assignAdvice, sat_constrainZero,
      sat_pure, true_and, sub_eq_zero]
    constructor
    · rintro ⟨zNext, b, -, hrange, -, hb, rest, hrest, rfl⟩
      obtain ⟨bit, hbit⟩ := (boolCheck_eq_zero _).mp hrange
      obtain ⟨bits, hlen, hout, hz⟩ := (ih zNext rest).mp hrest
      refine ⟨bit :: bits, by simp [hlen], ?_, ?_⟩
      · rw [List.map_cons, hb, hbit, hout]
      · rw [bitsValue_cons, ← hz, ← hbit]
        ring
    · rintro ⟨bits, hlen, rfl, hz⟩
      cases bits with
      | nil => simp at hlen
      | cons bit bits =>
        have hword : z - bitsValue bits * 2 = bitCell bit := by
          rw [hz, bitsValue_cons]
          ring
        have hrest := (ih (bitsValue bits) (bits.map bitCell)).mpr
          ⟨bits, by simpa using hlen, rfl, rfl⟩
        refine ⟨bitsValue bits, bitCell bit, (), ?_, (), hword.symm, bits.map bitCell,
          hrest, rfl⟩
        rw [hword]
        exact (boolCheck_eq_zero _).mpr ⟨bit, rfl⟩

theorem sat_copyDecompose (alpha : Fr) (out : List Fr) :
    Sat O inst (BinaryDecomposition.copyDecompose alpha 256 256) out ↔
      ∃ bits : List Bool, bits.length = 256 ∧ out = bits.map bitCell ∧
        alpha = bitsValue bits := by
  rw [BinaryDecomposition.copyDecompose, sat_decompose]
  simp [BinaryDecomposition.decomposeWord]

theorem run_decompose (bits : List Bool) :
    run hash inst (BinaryDecomposition.decompose (bitsValue bits) (bits.map bitCell)) =
      some (bits.map bitCell) := by
  induction bits with
  | nil => simp [BinaryDecomposition.decompose, bitsValue, ofBits]
  | cons bit bits ih =>
    have hnext : (bitsValue (bit :: bits) - bitCell bit) * 2⁻¹ = bitsValue bits := by
      have htwo := two_ne_zero
      rw [bitsValue_cons]
      field_simp
      ring
    have hword : bitsValue (bit :: bits) - bitsValue bits * 2 = bitCell bit := by
      rw [bitsValue_cons]
      ring
    have hcheck : rangeCheck (bitCell bit : Fr) 2 = 0 :=
      (boolCheck_eq_zero _).mpr ⟨bit, rfl⟩
    simp [BinaryDecomposition.decompose, hnext, hword, hcheck, ih]

theorem bitsValue_toBits (alpha : Fr) : bitsValue (toBits 256 alpha.val) = alpha := by
  rw [bitsValue, ofBits_toBits_of_lt 256 _ (val_lt alpha), ZMod.natCast_zmod_val]

/-- The honest bits of an element are those of its canonical value. -/
@[simp] theorem run_copyDecompose (alpha : Fr) :
    run hash inst (BinaryDecomposition.copyDecompose alpha 256 256) =
      some ((toBits 256 alpha.val).map bitCell) := by
  have htake : (toBits 256 alpha.val).take 256 = toBits 256 alpha.val :=
    List.take_of_length_le (by simp)
  have hrun := run_decompose hash inst (toBits 256 alpha.val)
  rw [bitsValue_toBits] at hrun
  rw [BinaryDecomposition.copyDecompose, BinaryDecomposition.decomposeWord, htake,
    List.take_of_length_le (by simp), hrun]

/-- The cells of a path: its siblings with their swap bits. -/
def pathCells (path : List (Bool × Fr)) : List (Fr × Fr) :=
  path.map fun step => (step.2, bitCell step.1)

@[simp] theorem sat_merkleRoot (leaf : Fr) (path : List (Bool × Fr)) (out : Fr) :
    Sat O inst (merkleRoot leaf (pathCells path)) out ↔
      PathHashedUp (pairHash O) leaf path ∧ out = climbUp (pairHash O).node leaf path := by
  induction path generalizing leaf with
  | nil => simp [pathCells, merkleRoot, PathHashedUp, climbUp, eq_comm]
  | cons step path ih =>
    obtain ⟨right, sibling⟩ := step
    have ih' := fun cur => ih cur
    simp only [pathCells] at ih'
    simp only [pathCells, List.map_cons, merkleRoot, poseidonHashGadget, sat_bind,
      sat_swapAssigned, sat_hashGadget, bitCell_inj, ih', PathHashedUp, climbUp]
    cases right <;> simp [swapped, and_assoc]

@[simp] theorem run_merkleRoot (leaf : Fr) (path : List (Bool × Fr)) :
    run hash inst (merkleRoot leaf (pathCells path)) =
      some (climbUp (fun a b => hash [a, b]) leaf path) := by
  induction path generalizing leaf with
  | nil => rfl
  | cons step path ih =>
    obtain ⟨right, sibling⟩ := step
    have ih' := fun cur => ih cur
    simp only [pathCells] at ih'
    simp only [pathCells, List.map_cons, merkleRoot, poseidonHashGadget, run_bind,
      run_swapAssigned, run_hashGadget, Option.bind_some, ih', climbUp]
    cases right <;> rfl

@[simp] theorem run_merkleRootValue (leaf : Fr) (path : List (Bool × Fr)) :
    run hash inst (merkleRootValue leaf (pathCells path)) =
      some (climbUp (fun a b => hash [a, b]) leaf path) := by
  induction path generalizing leaf with
  | nil => rfl
  | cons step path ih =>
    obtain ⟨right, sibling⟩ := step
    have ih' := fun cur => ih cur
    have hswap : ∀ pair : Fr × Fr, run hash inst (CondSwapChip.swap pair (bitCell right)) =
        some (swapped pair right) := fun pair => run_swapAssigned hash inst pair right
    simp only [pathCells] at ih'
    simp only [pathCells, List.map_cons, merkleRootValue, poseidonHashGadget, run_bind,
      hswap, run_hashGadget, Option.bind_some, ih', climbUp]
    cases right <;> rfl

/-- With witnessed siblings and bits the adversary climbs any path of that length. -/
theorem sat_merkleRootValue (leaf : Fr) (witness : List (Fr × Fr)) (out : Fr) :
    Sat O inst (merkleRootValue leaf witness) out ↔
      ∃ path : List (Bool × Fr), path.length = witness.length ∧
        PathHashedUp (pairHash O) leaf path ∧
          out = climbUp (pairHash O).node leaf path := by
  induction witness generalizing leaf with
  | nil =>
    simp only [merkleRootValue, sat_pure, List.length_nil, List.length_eq_zero_iff]
    constructor
    · rintro rfl
      exact ⟨[], rfl, trivial, rfl⟩
    · rintro ⟨path, rfl, -, hout⟩
      exact hout.symm
  | cons step witness ih =>
    obtain ⟨s, w⟩ := step
    simp only [merkleRootValue, poseidonHashGadget, sat_bind, sat_swap, sat_hashGadget, ih]
    constructor
    · rintro ⟨pair, ⟨sibling, right, rfl⟩, cur, ⟨hmsg, rfl⟩, path, hlen, hhashed, hout⟩
      refine ⟨(right, sibling) :: path, by simp [hlen], ?_, ?_⟩
      · cases right <;> exact ⟨hmsg, hhashed⟩
      · cases right <;> exact hout
    · rintro ⟨path, hlen, hhashed, hout⟩
      cases path with
      | nil => simp at hlen
      | cons first path =>
        obtain ⟨right, sibling⟩ := first
        obtain ⟨hmsg, hrest⟩ := hhashed
        refine ⟨swapped (leaf, sibling) right, ⟨sibling, right, rfl⟩,
          _, ⟨?_, rfl⟩, path, by simpa using hlen, ?_, ?_⟩
        · cases right <;> exact hmsg
        · cases right <;> exact hrest
        · cases right <;> exact hout

end Laws
end PayyRollup.Gadgets
