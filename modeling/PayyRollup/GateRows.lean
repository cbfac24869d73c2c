import Mathlib.Data.List.Chain
import PayyRollup.InsertCircuit
import PayyRollup.SmirkNode
import PayyRollup.UtxoCircuit

/-!
The regions of two chips, row by row. A region is a list of rows; the gate of a row queries its
own cells and those of the row before it or after it, and the rows at the ends carry constants.
The programs of the chips are satisfied exactly when such a region exists. The comparison has one
region when the number of `alpha` is smaller and none otherwise. The running sum has one region
for each list of bits of a number in the residue class, and the checks that the circuits add to
it leave one list or bound the element.
-/
namespace PayyRollup.GateRows

open BitLists ScalarField ConstraintProgram Layouter Chips Gadgets ElementHash
open InsertCircuit (modulusBits sat_canonicalBits)
open UtxoCircuit (sat_rangeCheck)

/-- The number of a list of bits, the most significant bit first. -/
def bigEndian (bits : List Bool) : ℕ := ofBits bits.reverse

section LessThan

variable {F : Type} [Field F]

/-- A row of the comparison. -/
structure LessRow (F : Type) where
  max : F
  alpha : F
  isLess : F
  canSet : F

/-- The gate of a row, which queries the two flags of the row before it. -/
def isLessGate (last cur : LessRow F) : Prop :=
  last.isLess - cur.max * (1 - cur.alpha) * last.canSet - cur.isLess = 0 ∧
    (cur.max * cur.alpha + (1 - cur.max) * (1 - cur.alpha)) * last.canSet - cur.canSet = 0

/-- The first row: both flags are the constant one and no gate queries its bits. -/
def firstRow : LessRow F := ⟨0, 0, 1, 1⟩

/-- The rows below the first one; the last flag is constrained to zero. -/
structure LessRegion (maxBits alphaBits : List F) (rows : List (LessRow F)) : Prop where
  max_bits : rows.map LessRow.max = maxBits
  alpha_bits : rows.map LessRow.alpha = alphaBits
  gates : List.IsChain isLessGate (firstRow :: rows)
  last_is_less : (rows.getLastD firstRow).isLess = 0

/-- A row is determined by its bits and the row before it. -/
theorem isLessGate_unique (last row other : LessRow F) (hmax : row.max = other.max)
    (halpha : row.alpha = other.alpha) (hrow : isLessGate last row)
    (hother : isLessGate last other) : row = other := by
  obtain ⟨hless, hset⟩ := hrow
  obtain ⟨hless', hset'⟩ := hother
  rw [sub_eq_zero, hmax, halpha] at hless hset
  rw [sub_eq_zero] at hless' hset'
  have hisLess : row.isLess = other.isLess := hless.symm.trans hless'
  have hcanSet : row.canSet = other.canSet := hset.symm.trans hset'
  cases row
  cases other
  simp_all

theorem rows_unique (first : LessRow F) (rows others : List (LessRow F))
    (hmax : rows.map LessRow.max = others.map LessRow.max)
    (halpha : rows.map LessRow.alpha = others.map LessRow.alpha)
    (hrows : List.IsChain isLessGate (first :: rows))
    (hothers : List.IsChain isLessGate (first :: others)) : rows = others := by
  induction rows generalizing first others with
  | nil =>
    have hnil : others.map LessRow.max = [] := hmax.symm
    exact (List.map_eq_nil_iff.mp hnil).symm
  | cons row rows ih =>
    cases others with
    | nil => simp at hmax
    | cons other others =>
      rw [List.map_cons, List.map_cons, List.cons.injEq] at hmax halpha
      rw [List.isChain_cons_cons] at hrows hothers
      have hsame := isLessGate_unique first row other hmax.1 halpha.1 hrows.1 hothers.1
      subst hsame
      rw [ih row others hmax.2 halpha.2 hrows.2 hothers.2]

theorem LessRegion.unique (maxBits alphaBits : List F) (rows others : List (LessRow F))
    (hrows : LessRegion maxBits alphaBits rows) (hothers : LessRegion maxBits alphaBits others) :
    rows = others :=
  rows_unique firstRow rows others (hrows.max_bits.trans hothers.max_bits.symm)
    (hrows.alpha_bits.trans hothers.alpha_bits.symm) hrows.gates hothers.gates

variable (O : HashOracle F) (inst : List F)

/-- The rows of the program are the rows of a region, from any first row on. -/
theorem sat_assignRows_iff (first : LessRow F) (maxBits alphaBits : List F)
    (hlength : maxBits.length = alphaBits.length) (out : F) :
    Sat O inst (IsLessThanChip.assignRows first.isLess first.canSet (maxBits.zip alphaBits)) out ↔
      ∃ rows : List (LessRow F), rows.map LessRow.max = maxBits ∧
        rows.map LessRow.alpha = alphaBits ∧ List.IsChain isLessGate (first :: rows) ∧
          (rows.getLastD first).isLess = out := by
  induction maxBits generalizing first alphaBits with
  | nil =>
    have hnil : alphaBits = [] := List.length_eq_zero_iff.mp hlength.symm
    subst hnil
    simp only [List.zip_nil_left, IsLessThanChip.assignRows, sat_pure]
    constructor
    · intro h
      exact ⟨[], rfl, rfl, List.isChain_singleton first, h⟩
    · rintro ⟨rows, hmax, -, -, hlast⟩
      rw [List.map_eq_nil_iff.mp hmax] at hlast
      exact hlast
  | cons max maxBits ih =>
    cases alphaBits with
    | nil => simp at hlength
    | cons alpha alphaBits =>
      have hlength' : maxBits.length = alphaBits.length := by simpa using hlength
      simp only [List.zip_cons_cons, IsLessThanChip.assignRows, sat_bind, sat_assignAdvice,
        sat_constrainZero, true_and]
      constructor
      · rintro ⟨isLess, canSet, -, hless, -, hset, hrest⟩
        obtain ⟨rows, hmax, halpha, hchain, hlast⟩ :=
          (ih ⟨max, alpha, isLess, canSet⟩ alphaBits hlength').mp hrest
        refine ⟨⟨max, alpha, isLess, canSet⟩ :: rows, ?_, ?_, ?_, ?_⟩
        · rw [List.map_cons, hmax]
        · rw [List.map_cons, halpha]
        · exact List.isChain_cons_cons.mpr ⟨⟨hless, hset⟩, hchain⟩
        · rw [List.getLastD_cons, hlast]
      · rintro ⟨rows, hmax, halpha, hchain, hlast⟩
        cases rows with
        | nil => simp at hmax
        | cons row rows =>
          rw [List.map_cons, List.cons.injEq] at hmax halpha
          obtain ⟨hgate, hrest⟩ := List.isChain_cons_cons.mp hchain
          obtain ⟨hless, hset⟩ := hgate
          rw [hmax.1, halpha.1] at hless hset
          rw [List.getLastD_cons] at hlast
          have hsat := (ih row alphaBits hlength').mpr
            ⟨rows, hmax.2, halpha.2, hrest, hlast⟩
          exact ⟨row.isLess, row.canSet, (), hless, (), hset, hsat⟩

/-- The program of the chip is satisfied exactly when a region is. -/
theorem sat_assign_iff (maxBits alphaBits : List F) (hlength : maxBits.length = alphaBits.length) :
    Sat O inst (IsLessThanChip.assign maxBits alphaBits) () ↔
      ∃ rows, LessRegion maxBits alphaBits rows := by
  have hrows := sat_assignRows_iff O inst firstRow maxBits alphaBits hlength
  simp only [IsLessThanChip.assign, sat_bind, sat_constrainEqual]
  constructor
  · rintro ⟨isLess, hsat, hzero⟩
    obtain ⟨rows, hmax, halpha, hchain, hlast⟩ := (hrows isLess).mp hsat
    exact ⟨rows, hmax, halpha, hchain, hlast.trans hzero⟩
  · rintro ⟨rows, hregion⟩
    exact ⟨0, (hrows 0).mpr ⟨rows, hregion.max_bits, hregion.alpha_bits, hregion.gates,
      hregion.last_is_less⟩, rfl⟩

/-- The comparison has a region exactly when the number of `alpha` is smaller, and one only; the
program is satisfied when there is one. -/
theorem lessRegion_iff (maxBits alphaBits : List Bool) (hlength : maxBits.length = alphaBits.length) :
    ((∃ rows, LessRegion (maxBits.map bitCell : List F) (alphaBits.map bitCell) rows) ↔
        bigEndian alphaBits < bigEndian maxBits) ∧
      (∀ rows others, LessRegion (maxBits.map bitCell : List F) (alphaBits.map bitCell) rows →
        LessRegion (maxBits.map bitCell) (alphaBits.map bitCell) others → rows = others) ∧
      ∀ (O : HashOracle F) (inst : List F),
        Sat O inst (IsLessThanChip.assign (maxBits.map bitCell) (alphaBits.map bitCell)) () ↔
          ∃ rows, LessRegion (maxBits.map bitCell : List F) (alphaBits.map bitCell) rows := by
  have hcells : (maxBits.map bitCell : List F).length =
      (alphaBits.map bitCell : List F).length := by
    rw [List.length_map, List.length_map, hlength]
  refine ⟨?_, LessRegion.unique _ _, fun O inst => sat_assign_iff O inst _ _ hcells⟩
  rw [← sat_assign_iff ⟨fun _ => 0, ∅⟩ [] _ _ hcells, sat_isLessThan,
    lexLt_reverse alphaBits maxBits hlength.symm]
  rfl

/-- Three below six, over the scalar field. -/
theorem lessRegion_iff_three :
    (∃ rows, LessRegion ([true, true, false].map bitCell : List Fr)
      ([false, true, true].map bitCell) rows) ↔
        bigEndian [false, true, true] < bigEndian [true, true, false] :=
  (lessRegion_iff [true, true, false] [false, true, true] rfl).1

end LessThan

section RunningSum

/-- A row of the running sum. -/
structure WindowRow where
  z : Fr
  b : Fr

/-- The gate of a row, which queries the sum of the next row. -/
def windowGate (cur next : WindowRow) : Prop :=
  rangeCheck (cur.z - next.z * 2) 2 = 0 ∧ cur.b - (cur.z - next.z * 2) = 0

/-- The row below the windows: its sum is constrained to zero and no gate queries its window. -/
def lastRow : WindowRow := ⟨0, 0⟩

/-- The rows of the windows; the first sum is a copy of the element. -/
structure WindowRegion (x : Fr) (windows : List Fr) (rows : List WindowRow) : Prop where
  windows_eq : rows.map WindowRow.b = windows
  first_sum : (rows.headD lastRow).z = x
  gates : List.IsChain windowGate (rows ++ [lastRow])

/-- The cells that some region of `numWindows` windows gives for an element. -/
def Decomposed (numWindows : ℕ) (x : Fr) (windows : List Fr) : Prop :=
  windows.length = numWindows ∧ ∃ rows, WindowRegion x windows rows

theorem isChain_cons_rows (row : WindowRow) (rows : List WindowRow) :
    List.IsChain windowGate (row :: rows ++ [lastRow]) ↔
      windowGate row (rows.headD lastRow) ∧ List.IsChain windowGate (rows ++ [lastRow]) := by
  cases rows <;> simp

variable (O : HashOracle Fr) (inst : List Fr)

/-- The program of the running sum is satisfied exactly when a region is. -/
theorem sat_decompose_iff (x : Fr) (words out : List Fr) :
    Sat O inst (BinaryDecomposition.decompose x words) out ↔ Decomposed words.length x out := by
  induction words generalizing x out with
  | nil =>
    simp only [BinaryDecomposition.decompose, sat_bind, sat_constrainEqual, sat_pure]
    constructor
    · rintro ⟨-, hx, rfl⟩
      exact ⟨rfl, [], rfl, hx.symm, List.isChain_singleton lastRow⟩
    · rintro ⟨hlength, rows, hregion⟩
      have hout : out = [] := List.length_eq_zero_iff.mp hlength
      have hrows : rows = [] := List.map_eq_nil_iff.mp (hregion.windows_eq.trans hout)
      have hx := hregion.first_sum
      rw [hrows] at hx
      exact ⟨(), hx.symm, hout.symm⟩
  | cons word words ih =>
    simp only [BinaryDecomposition.decompose, sat_bind, sat_assignAdvice, sat_constrainZero,
      sat_pure, true_and]
    constructor
    · rintro ⟨zNext, b, -, hrange, -, hb, rest, hrest, rfl⟩
      obtain ⟨hlength, rows, hregion⟩ := (ih zNext rest).mp hrest
      refine ⟨by simp [hlength], ⟨x, b⟩ :: rows, ?_, rfl, ?_⟩
      · rw [List.map_cons, hregion.windows_eq]
      · rw [isChain_cons_rows]
        refine ⟨?_, hregion.gates⟩
        unfold windowGate
        rw [hregion.first_sum]
        exact ⟨hrange, hb⟩
    · rintro ⟨hlength, rows, hregion⟩
      cases rows with
      | nil =>
        rw [← hregion.windows_eq] at hlength
        simp at hlength
      | cons row rows =>
        have hx : row.z = x := hregion.first_sum
        have hout := hregion.windows_eq
        obtain ⟨hgate, hchain⟩ := (isChain_cons_rows row rows).mp hregion.gates
        obtain ⟨hrange, hb⟩ := hgate
        rw [hx] at hrange hb
        have hsat := (ih (rows.headD lastRow).z (rows.map WindowRow.b)).mpr
          ⟨by rw [← hout] at hlength; simpa using hlength, rows, rfl, rfl, hchain⟩
        exact ⟨(rows.headD lastRow).z, row.b, (), hrange, (), hb, rows.map WindowRow.b, hsat, hout⟩

theorem decomposed_iff (numWindows : ℕ) (x : Fr) (windows : List Fr) :
    Decomposed numWindows x windows ↔
      ∃ bits : List Bool, bits.length = numWindows ∧ windows = bits.map bitCell ∧
        ofBits bits ≡ x.val [MOD modulus] := by
  have hlength : (List.replicate numWindows (0 : Fr)).length = numWindows := List.length_replicate
  have hsat := sat_decompose_iff ⟨fun _ => 0, ∅⟩ [] x (List.replicate numWindows 0) windows
  rw [hlength] at hsat
  rw [← hsat, sat_decompose, hlength]
  have hvalue : ∀ bits : List Bool, x = bitsValue bits ↔ ofBits bits ≡ x.val [MOD modulus] := by
    intro bits
    rw [← ZMod.natCast_eq_natCast_iff, ZMod.natCast_zmod_val]
    exact eq_comm
  simp only [hvalue]

/-- Fewer windows than the modulus has bits leave one list, for the elements that fit. -/
theorem decomposed_small (numWindows : ℕ) (x : Fr) (windows : List Fr)
    (hsmall : 2 ^ numWindows ≤ modulus) :
    Decomposed numWindows x windows ↔
      x.val < 2 ^ numWindows ∧ windows = (toBits numWindows x.val).map bitCell := by
  rw [decomposed_iff]
  constructor
  · rintro ⟨bits, hlength, rfl, hmod⟩
    have hlt := ofBits_lt bits
    rw [hlength] at hlt
    have hvalue : ofBits bits = x.val :=
      Nat.ModEq.eq_of_lt_of_lt hmod (hlt.trans_le hsmall) (ZMod.val_lt x)
    rw [← hvalue, ← eq_toBits bits numWindows hlength]
    exact ⟨hlt, rfl⟩
  · rintro ⟨hlt, rfl⟩
    refine ⟨toBits numWindows x.val, toBits_length _ _, rfl, ?_⟩
    rw [ofBits_toBits_of_lt _ _ hlt]

/-- The 256 windows of the copied element are those of the program. -/
theorem sat_copyDecompose_iff (x : Fr) (windows : List Fr) :
    Sat O inst (BinaryDecomposition.copyDecompose x 256 256) windows ↔
      Decomposed 256 x windows := by
  rw [BinaryDecomposition.copyDecompose, sat_decompose_iff]
  simp [BinaryDecomposition.decomposeWord]

/-- The comparison with the modulus leaves the bits of the canonical value. -/
theorem decomposed_canonical (x : Fr) (windows : List Fr) :
    (Decomposed 256 x windows ∧
        ∃ rows, LessRegion (modulusBits.map bitCell) windows.reverse rows) ↔
      windows = (toBits 256 x.val).map bitCell := by
  let O : HashOracle Fr := ⟨fun _ => 0, ∅⟩
  rw [← sat_canonicalBits O [] x windows, sat_copyDecompose_iff]
  have hcompare : windows.length = 256 →
      (Sat O [] (IsLessThanChip.assign (modulusBits.map bitCell) windows.reverse) () ↔
        ∃ rows, LessRegion (modulusBits.map bitCell) windows.reverse rows) := by
    intro hlength
    exact sat_assign_iff O [] _ _ (by simp [modulusBits, hlength])
  constructor
  · rintro ⟨hwindows, hregion⟩
    exact ⟨hwindows, (hcompare hwindows.1).mpr hregion⟩
  · rintro ⟨hwindows, hsat⟩
    exact ⟨hwindows, (hcompare hwindows.1).mp hsat⟩

/-- The sixteen upper windows at zero bound the element. -/
theorem decomposed_value (x : Fr) :
    (∃ windows, Decomposed 256 x windows ∧
        ∀ bit ∈ windows.reverse.take (256 - 240), bit = 0) ↔ x.val < 2 ^ 240 := by
  rw [← sat_rangeCheck ⟨fun _ => 0, ∅⟩ [] x]
  simp only [sat_copyDecompose_iff]

/-- A path takes the low bits from the deepest one up, a tree from the root down. -/
theorem take_canonical (x : Fr) (D : ℕ) (hD : D ≤ 257) :
    (toBits 256 x.val).take (D - 1) = MerklePath.leastSignificantBits D (Element.fromBase x) ∧
      ((toBits 256 x.val).take (D - 1)).reverse = SmirkNode.bits D (Element.fromBase x) := by
  rw [take_toBits 256 (D - 1) x.val (by omega), MerklePath.leastSignificantBits_eq, SmirkNode.bits,
    Element.lsb, Element.fromBase_toNat]
  exact ⟨rfl, rfl⟩

/-- What the running sum leaves to the prover, alone and with the checks that the circuits add. -/
theorem decomposition (x : Fr) :
    (∀ numWindows windows, Decomposed numWindows x windows ↔
      ∃ bits : List Bool, bits.length = numWindows ∧ windows = bits.map bitCell ∧
        ofBits bits ≡ x.val [MOD modulus]) ∧
    (∀ numWindows, 2 ^ numWindows ≤ modulus →
      ((∃ windows, Decomposed numWindows x windows) ↔ x.val < 2 ^ numWindows) ∧
        ∀ windows others, Decomposed numWindows x windows → Decomposed numWindows x others →
          windows = others) ∧
    (∀ windows, (Decomposed 256 x windows ∧
        ∃ rows, LessRegion (modulusBits.map bitCell) windows.reverse rows) ↔
      windows = (toBits 256 x.val).map bitCell) ∧
    (∀ D, D ≤ 257 →
      (toBits 256 x.val).take (D - 1) = MerklePath.leastSignificantBits D (Element.fromBase x) ∧
        ((toBits 256 x.val).take (D - 1)).reverse = SmirkNode.bits D (Element.fromBase x)) ∧
    ((∃ windows, Decomposed 256 x windows ∧
        ∀ bit ∈ windows.reverse.take (256 - 240), bit = 0) ↔ x.val < 2 ^ 240) := by
  refine ⟨fun numWindows windows => decomposed_iff numWindows x windows, ?_,
    decomposed_canonical x, take_canonical x, decomposed_value x⟩
  intro numWindows hsmall
  have hone := fun windows => decomposed_small numWindows x windows hsmall
  constructor
  · constructor
    · rintro ⟨windows, hwindows⟩
      exact ((hone windows).mp hwindows).1
    · intro hlt
      exact ⟨_, (hone _).mpr ⟨hlt, rfl⟩⟩
  · intro windows others hwindows hothers
    rw [((hone windows).mp hwindows).2, ((hone others).mp hothers).2]

end RunningSum
end PayyRollup.GateRows
