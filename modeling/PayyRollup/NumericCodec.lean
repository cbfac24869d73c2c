import Mathlib.Data.List.GetD
import PayyRollup.SmirkTree

/-!
The column type of an element. A numeric is written as digits of base 10000 with the weight of
the first one, and the server drops trailing zero digits without touching the weight. The
encoder cuts the decimal string into digits and never drops one, so what the server returns of
a multiple of 10000 is read by the branch that multiplies by the missing power. Arithmetic that
overflows is a panic here, as it is in a checked build.
-/
namespace PayyRollup.NumericCodec

open ScalarField SmirkTree

abbrev Bytes := List UInt8

/-- Two bytes, the high one first. -/
def toBeBytes (n : UInt16) : Bytes := [UInt8.ofNat (n.toNat / 256), UInt8.ofNat n.toNat]

def fromBeBytes (high low : UInt8) : UInt16 := UInt16.ofNat (high.toNat * 256 + low.toNat)

section Encoder

def parseDigits (chunk : List Char) : Option UInt16 :=
  if chunk.isEmpty || !chunk.all Char.isDigit then none
  else if Nat.ofDigitChars 10 chunk 0 < 2 ^ 16 then
    some (UInt16.ofNat (Nat.ofDigitChars 10 chunk 0))
  else none

/-- The parser of the standard library, which also takes a leading plus sign. -/
def parseU16 : List Char → Outcome String UInt16
  | '+' :: rest => ((parseDigits rest).map Except.ok).getD (.error (.err conversion))
  | chunk => ((parseDigits chunk).map Except.ok).getD (.error (.err conversion))
where
  conversion := "Invalid numeric conversion"

/-- Cut four characters at a time off the end of the string. -/
def splitChunks (remaining : List Char) (digits : List UInt16) : Outcome String (List UInt16) :=
  if 4 < remaining.length then do
    let digit ← parseU16 (remaining.drop (remaining.length - 4))
    splitChunks (remaining.take (remaining.length - 4)) (digits ++ [digit])
  else if remaining.isEmpty then return digits
  else do
    let digit ← parseU16 remaining
    return digits ++ [digit]
termination_by remaining.length
decreasing_by
  rw [List.length_take]
  omega

def checkedSub (a b : UInt16) : Outcome String UInt16 :=
  if b ≤ a then .ok (a - b) else .error .panic

def toSql (self : Element) : Outcome String Bytes := do
  let digits ← splitChunks (Nat.toDigits 10 self.toNat) []
  let digits := digits.reverse
  if 2 ^ 16 ≤ digits.length then
    .error (.err "Number too large for PostgreSQL numeric format")
  else do
    let digitCount := UInt16.ofNat digits.length
    let weight ← checkedSub digitCount 1
    return toBeBytes digitCount ++ toBeBytes weight ++ [0x00, 0x00] ++ [0x00, 0x00] ++
      digits.flatMap toBeBytes

end Encoder

section Decoder

def checkedU256 (value : ℕ) : Outcome String ℕ :=
  if value < 2 ^ 256 then .ok value else .error .panic

def checkedI32 (value : ℤ) : Option ℤ :=
  if -2147483648 ≤ value ∧ value ≤ 2147483647 then some value else none

/-- Read digits from the `i`th on. -/
def readDigits (bytes : Bytes) : (count i result : ℕ) → Outcome String ℕ
  | 0, _, result => .ok result
  | count + 1, i, result =>
      let start := 8 + i * 2
      if bytes.length < start + 2 then .error (.err "Invalid numeric format: truncated digits")
      else do
        let digit := fromBeBytes (bytes.getD start 0) (bytes.getD (start + 1) 0)
        let result ← checkedU256 (result * 10000)
        let result ← checkedU256 (result + digit.toNat)
        readDigits bytes count (i + 1) result

/-- The power of the base that the missing digits stand for. -/
def weightAdjustment (weight : Int16) (ndigits : ℕ) : Outcome String ℤ :=
  match checkedI32 ndigits with
  | none => .error (.err "Number too large")
  | some ndigits =>
    match checkedI32 (ndigits - 1) with
    | none => .error (.err "Arithmetic overflow")
    | some last =>
      match checkedI32 (weight.toInt - last) with
      | none => .error .panic
      | some adjustment => .ok adjustment

def adjust (result : ℕ) (adjustment : ℤ) : Outcome String ℕ :=
  if 0 < adjustment then do
    let power ← checkedU256 (10000 ^ adjustment.toNat)
    checkedU256 (result * power)
  else return result

def fromSql (bytes : Bytes) : Outcome String Element :=
  if bytes.length < 8 then .error (.err "Invalid numeric format: too short")
  else
    let ndigits := (fromBeBytes (bytes.getD 0 0) (bytes.getD 1 0)).toNat
    let weight := (fromBeBytes (bytes.getD 2 0) (bytes.getD 3 0)).toInt16
    let sign := fromBeBytes (bytes.getD 4 0) (bytes.getD 5 0)
    if sign ≠ 0x0000 then .error (.err "Expected positive number")
    else do
      let result ← readDigits bytes ndigits 0 0
      let adjustment ← weightAdjustment weight ndigits
      let result ← adjust result adjustment
      return BitVec.ofNat 256 result

end Decoder

/-- A numeric on the wire. -/
structure Numeric where
  digits : List UInt16
  weight : UInt16
  dscale : UInt16

/-- The bytes of a numeric that is not negative. -/
def Numeric.bytes (numeric : Numeric) : Bytes :=
  toBeBytes (UInt16.ofNat numeric.digits.length) ++ toBeBytes numeric.weight ++ [0x00, 0x00] ++
    toBeBytes numeric.dscale ++ numeric.digits.flatMap toBeBytes

/-- Digits of base 10000 read as one number, the first digit first. -/
def digitsValue (digits : List UInt16) : ℕ :=
  digits.foldl (fun value digit => value * 10000 + digit.toNat) 0

/-- The numeric stands for an integer: no digit is behind the point, and the missing ones are
zero. -/
structure Represents (numeric : Numeric) (value : ℕ) : Prop where
  digit_lt : ∀ digit ∈ numeric.digits, digit.toNat < 10000
  length_le : numeric.digits.length ≤ numeric.weight.toNat + 1
  value_eq : value = digitsValue numeric.digits *
    10000 ^ (numeric.weight.toNat + 1 - numeric.digits.length)

/-- The server's form of an integer: no digit is zero at either end, and zero has no digit and
no weight. -/
structure Canonical (numeric : Numeric) (value : ℕ) : Prop where
  represents : Represents numeric value
  head_ne : numeric.digits.head? ≠ some 0
  last_ne : numeric.digits.getLast? ≠ some 0
  weight_zero : numeric.digits = [] → numeric.weight = 0

section Bytes

theorem toBeBytes_zero : toBeBytes 0 = [0x00, 0x00] := by decide

theorem fromBeBytes_toBeBytes (n : UInt16) :
    fromBeBytes (UInt8.ofNat (n.toNat / 256)) (UInt8.ofNat n.toNat) = n := by
  have hlt : n.toNat < 65536 := n.toNat_lt
  apply UInt16.toNat_inj.mp
  rw [fromBeBytes, UInt16.toNat_ofNat', UInt8.toNat_ofNat', UInt8.toNat_ofNat']
  omega

theorem flatMap_length (digits : List UInt16) :
    (digits.flatMap toBeBytes).length = 2 * digits.length := by
  induction digits with
  | nil => rfl
  | cons digit rest ih =>
    rw [List.flatMap_cons, List.length_append, ih, List.length_cons]
    change 2 + _ = _
    omega

/-- A number is read back wherever its two bytes stand. -/
theorem fromBeBytes_at (front back : Bytes) (n : UInt16) (start : ℕ)
    (h : front.length = start) :
    fromBeBytes ((front ++ (toBeBytes n ++ back)).getD start 0)
      ((front ++ (toBeBytes n ++ back)).getD (start + 1) 0) = n := by
  rw [List.getD_append_right _ _ _ start h.le,
    List.getD_append_right _ _ _ (start + 1) (by omega), h, Nat.sub_self,
    Nat.add_sub_cancel_left]
  exact fromBeBytes_toBeBytes n

end Bytes

section Digits

theorem digitsValue_concat (done : List UInt16) (digit : UInt16) :
    digitsValue (done ++ [digit]) = digitsValue done * 10000 + digit.toNat :=
  List.foldl_concat ..

theorem digitsValue_append (done rest : List UInt16) :
    digitsValue (done ++ rest) =
      digitsValue done * 10000 ^ rest.length + digitsValue rest := by
  induction rest using List.reverseRecOn with
  | nil => simp [digitsValue]
  | append_singleton rest digit ih =>
    rw [← List.append_assoc, digitsValue_concat, digitsValue_concat, ih, List.length_append,
      List.length_singleton, pow_succ]
    ring

theorem digitsValue_le_append (done rest : List UInt16) :
    digitsValue done ≤ digitsValue (done ++ rest) := by
  rw [digitsValue_append]
  exact le_add_right (Nat.le_mul_of_pos_right _ (by positivity))

/-- A number whose first digit is not zero fills its weight. -/
theorem pow_le_digitsValue (digit : UInt16) (rest : List UInt16) (h : digit ≠ 0) :
    10000 ^ rest.length ≤ digitsValue (digit :: rest) := by
  have hpos : 0 < digitsValue [digit] := by
    have hne : digit.toNat ≠ 0 := fun hzero => h (UInt16.toNat_inj.mp hzero)
    change 0 < 0 * 10000 + digit.toNat
    omega
  have happend := digitsValue_append [digit] rest
  rw [List.singleton_append] at happend
  rw [happend]
  exact le_add_right (Nat.le_mul_of_pos_left _ hpos)

end Digits

section Reading

theorem checkedU256_ok {value : ℕ} (h : value < 2 ^ 256) : checkedU256 value = .ok value :=
  if_pos h

/-- The loop reads the digits that are left, as long as the number they end at fits. -/
theorem readDigits_append (header : Bytes) (hheader : header.length = 8)
    (done rest : List UInt16) (hlt : digitsValue (done ++ rest) < 2 ^ 256) :
    readDigits (header ++ (done ++ rest).flatMap toBeBytes) rest.length done.length
      (digitsValue done) = .ok (digitsValue (done ++ rest)) := by
  induction rest generalizing done with
  | nil => rw [List.append_nil]; rfl
  | cons digit rest ih =>
    have hlist : done ++ digit :: rest = done ++ [digit] ++ rest := by simp
    have hnext := ih (done ++ [digit]) (by rwa [← hlist])
    have hfits : digitsValue done * 10000 + digit.toNat < 2 ^ 256 := by
      rw [← digitsValue_concat]
      exact (digitsValue_le_append _ rest).trans_lt (by rwa [← hlist])
    have hbytes : header ++ (done ++ digit :: rest).flatMap toBeBytes =
        (header ++ done.flatMap toBeBytes) ++ (toBeBytes digit ++ rest.flatMap toBeBytes) := by
      rw [List.flatMap_append, List.flatMap_cons, List.append_assoc]
    have hfront : (header ++ done.flatMap toBeBytes).length = 8 + done.length * 2 := by
      rw [List.length_append, hheader, flatMap_length]
      omega
    have hlength : ¬ (header ++ (done ++ digit :: rest).flatMap toBeBytes).length <
        8 + done.length * 2 + 2 := by
      rw [List.length_append, hheader, flatMap_length, List.length_append, List.length_cons]
      omega
    have hdigit := fromBeBytes_at (header ++ done.flatMap toBeBytes) (rest.flatMap toBeBytes)
      digit (8 + done.length * 2) hfront
    rw [← hbytes] at hdigit
    rw [hlist] at hlength hdigit ⊢
    have hscaled : digitsValue done * 10000 < 2 ^ 256 :=
      (Nat.le_add_right _ digit.toNat).trans_lt hfits
    rw [List.length_cons, readDigits, if_neg hlength, hdigit, checkedU256_ok hscaled]
    change (checkedU256 (digitsValue done * 10000 + digit.toNat) >>= _) = _
    rw [checkedU256_ok hfits, ← digitsValue_concat]
    rw [List.length_append, List.length_singleton] at hnext
    exact hnext

theorem checkedI32_ok (value : ℤ) (hlow : -2147483648 ≤ value) (hhigh : value ≤ 2147483647) :
    checkedI32 value = some value := if_pos ⟨hlow, hhigh⟩

theorem toInt16_toInt (weight : UInt16) (h : weight.toNat < 2 ^ 15) :
    weight.toInt16.toInt = weight.toNat := by
  change weight.toBitVec.toInt = _
  rw [BitVec.toInt_eq_toNat_of_lt]
  · rfl
  · change 2 * weight.toNat < 2 ^ 16
    omega

theorem weightAdjustment_ok (weight : UInt16) (ndigits : ℕ) (hweight : weight.toNat < 2 ^ 15)
    (hndigits : ndigits < 2 ^ 16) :
    weightAdjustment weight.toInt16 ndigits = .ok ((weight.toNat : ℤ) + 1 - ndigits) := by
  have hlast : (weight.toNat : ℤ) - (ndigits - 1) = weight.toNat + 1 - ndigits := by omega
  rw [weightAdjustment, checkedI32_ok ndigits (by omega) (by omega)]
  dsimp only
  rw [checkedI32_ok (ndigits - 1) (by omega) (by omega)]
  dsimp only
  rw [toInt16_toInt weight hweight, hlast, checkedI32_ok _ (by omega) (by omega)]

theorem adjust_ok (result missing : ℕ) (hpower : 10000 ^ missing < 2 ^ 256)
    (h : result * 10000 ^ missing < 2 ^ 256) :
    adjust result missing = .ok (result * 10000 ^ missing) := by
  unfold adjust
  by_cases hzero : missing = 0
  · subst hzero
    rw [Nat.cast_zero, if_neg (lt_irrefl _), pow_zero, mul_one]
    rfl
  · rw [if_pos (by omega), Int.toNat_natCast, checkedU256_ok hpower]
    exact checkedU256_ok h

theorem fromSql_bytes (numeric : Numeric) (x : Element) (h : Represents numeric x.toNat)
    (hweight : numeric.weight.toNat < 2 ^ 15)
    (hpower : 10000 ^ (numeric.weight.toNat + 1 - numeric.digits.length) < 2 ^ 256) :
    fromSql numeric.bytes = .ok x := by
  obtain ⟨digits, weight, dscale⟩ := numeric
  obtain ⟨-, hlength, hvalue⟩ := h
  dsimp only at hlength hvalue hweight hpower
  have hcount : digits.length < 2 ^ 16 := by omega
  let header := toBeBytes (UInt16.ofNat digits.length) ++ toBeBytes weight ++ [0x00, 0x00] ++
    toBeBytes dscale
  have hfits : digitsValue digits * 10000 ^ (weight.toNat + 1 - digits.length) < 2 ^ 256 := by
    rw [← hvalue]
    exact x.isLt
  have hdigits : digitsValue digits < 2 ^ 256 :=
    (Nat.le_mul_of_pos_right _ (by positivity)).trans_lt hfits
  have hread : readDigits (header ++ digits.flatMap toBeBytes) digits.length 0 0 =
      .ok (digitsValue digits) := readDigits_append header rfl [] digits hdigits
  have hndigits : (fromBeBytes ((header ++ digits.flatMap toBeBytes).getD 0 0)
      ((header ++ digits.flatMap toBeBytes).getD 1 0)).toNat = digits.length := by
    change (fromBeBytes (UInt8.ofNat ((UInt16.ofNat digits.length).toNat / 256))
      (UInt8.ofNat (UInt16.ofNat digits.length).toNat)).toNat = _
    rw [fromBeBytes_toBeBytes, UInt16.toNat_ofNat', Nat.mod_eq_of_lt hcount]
  have hweightRead : fromBeBytes ((header ++ digits.flatMap toBeBytes).getD 2 0)
      ((header ++ digits.flatMap toBeBytes).getD 3 0) = weight := fromBeBytes_toBeBytes weight
  have hsign : fromBeBytes ((header ++ digits.flatMap toBeBytes).getD 4 0)
      ((header ++ digits.flatMap toBeBytes).getD 5 0) = 0 := fromBeBytes_toBeBytes 0
  have hlong : ¬ (header ++ digits.flatMap toBeBytes).length < 8 := by
    rw [List.length_append]
    exact Nat.not_lt.mpr (Nat.le_add_right 8 _)
  have hmissing : (weight.toNat : ℤ) + 1 - digits.length =
      ((weight.toNat + 1 - digits.length : ℕ) : ℤ) := by omega
  change fromSql (header ++ digits.flatMap toBeBytes) = .ok x
  rw [fromSql, if_neg hlong]
  dsimp only
  rw [hndigits, hweightRead, hsign, if_neg (not_not_intro rfl), hread]
  change (weightAdjustment weight.toInt16 digits.length >>= _) = _
  rw [weightAdjustment_ok weight digits.length hweight hcount, hmissing]
  change (adjust (digitsValue digits) _ >>= _) = _
  rw [adjust_ok _ _ hpower hfits, ← hvalue]
  change Except.ok (BitVec.ofNat 256 x.toNat) = _
  rw [BitVec.ofNat_toNat, BitVec.setWidth_eq]

/-- The weight of an element is small, since its first digit is not zero. -/
theorem Canonical.bounds {numeric : Numeric} {x : Element} (h : Canonical numeric x.toNat) :
    numeric.weight.toNat < 2 ^ 15 ∧
      10000 ^ (numeric.weight.toNat + 1 - numeric.digits.length) < 2 ^ 256 := by
  obtain ⟨digits, weight, dscale⟩ := numeric
  obtain ⟨⟨-, hlength, hvalue⟩, hhead, -, hzero⟩ := h
  dsimp only at hlength hvalue hhead hzero ⊢
  cases digits with
  | nil =>
    rw [hzero rfl]
    decide
  | cons digit rest =>
    have hne : digit ≠ 0 := fun heq => hhead (congrArg some heq)
    rw [List.length_cons] at hlength hvalue ⊢
    have hpow : 10000 ^ weight.toNat ≤ x.toNat := by
      calc
        10000 ^ weight.toNat =
            10000 ^ rest.length * 10000 ^ (weight.toNat + 1 - (rest.length + 1)) := by
          rw [← pow_add]
          congr 1
          omega
        _ ≤ x.toNat := by
          rw [hvalue]
          exact Nat.mul_le_mul_right _ (pow_le_digitsValue digit rest hne)
    have hlt : 10000 ^ weight.toNat < 2 ^ 256 := hpow.trans_lt x.isLt
    have hsmall : weight.toNat < 20 := by
      have hbound : 2 ^ 256 < 10000 ^ 20 := by decide
      exact (Nat.pow_lt_pow_iff_right (by omega)).mp (hlt.trans hbound)
    refine ⟨by omega, lt_of_le_of_lt ?_ hlt⟩
    exact Nat.pow_le_pow_right (by omega) (by omega)

end Reading

section Writing

theorem ofDigitChars_lt (chars : List Char) (h : ∀ c ∈ chars, c.isDigit = true) :
    Nat.ofDigitChars 10 chars 0 < 10 ^ chars.length := by
  induction chars using List.reverseRecOn with
  | nil => decide
  | append_singleton chars c ih =>
    have hchars := ih fun c hc => h c (List.mem_append_left _ hc)
    have hc : c.toNat - '0'.toNat < 10 := by
      have hdigit := h c (List.mem_append_right _ (List.mem_singleton_self c))
      rw [Char.isDigit, Bool.and_eq_true, decide_eq_true_eq, decide_eq_true_eq] at hdigit
      have hle : c.toNat ≤ 57 := UInt32.le_iff_toNat_le.mp hdigit.2
      change c.toNat - 48 < 10
      omega
    rw [Nat.ofDigitChars_append, Nat.ofDigitChars_cons, Nat.ofDigitChars_nil,
      List.length_append, List.length_singleton, pow_succ]
    omega

theorem parseU16_digits (chunk : List Char) (hne : chunk ≠ [])
    (h : ∀ c ∈ chunk, c.isDigit = true) (hlength : chunk.length ≤ 4) :
    ∃ digit : UInt16, parseU16 chunk = .ok digit ∧ digit.toNat < 10000 ∧
      digit.toNat = Nat.ofDigitChars 10 chunk 0 := by
  have hlt : Nat.ofDigitChars 10 chunk 0 < 10000 :=
    (ofDigitChars_lt chunk h).trans_le (Nat.pow_le_pow_right (by omega) hlength)
  have hparse : parseDigits chunk = some (UInt16.ofNat (Nat.ofDigitChars 10 chunk 0)) := by
    have hall : chunk.all Char.isDigit = true := List.all_eq_true.mpr h
    have hempty : chunk.isEmpty = false := by simpa using hne
    rw [parseDigits, hall, hempty, if_neg (by decide), if_pos (by omega)]
  have hnat : (UInt16.ofNat (Nat.ofDigitChars 10 chunk 0)).toNat =
      Nat.ofDigitChars 10 chunk 0 := by
    rw [UInt16.toNat_ofNat', Nat.mod_eq_of_lt (by omega)]
  refine ⟨UInt16.ofNat (Nat.ofDigitChars 10 chunk 0), ?_, by omega, hnat⟩
  unfold parseU16
  split
  · have hplus := h '+' (List.mem_cons_self ..)
    exact absurd hplus (by decide)
  · rw [hparse]
    rfl

/-- What the chunks of a decimal string are: its number in base 10000, the last digit first. -/
structure Chunks (chars : List Char) (chunks : List UInt16) : Prop where
  nonempty : chunks ≠ []
  digit_lt : ∀ digit ∈ chunks, digit.toNat < 10000
  length_le : chunks.length ≤ chars.length
  value_eq : digitsValue chunks.reverse = Nat.ofDigitChars 10 chars 0

theorem splitChunks_digits (count : ℕ) (chars : List Char) (digits : List UInt16)
    (hcount : chars.length = count) (hne : chars ≠ [])
    (h : ∀ c ∈ chars, c.isDigit = true) :
    ∃ chunks, splitChunks chars digits = .ok (digits ++ chunks) ∧ Chunks chars chunks := by
  induction count using Nat.strong_induction_on generalizing chars digits with
  | _ count ih =>
    rw [splitChunks]
    by_cases hlong : 4 < chars.length
    · have hlast : (chars.drop (chars.length - 4)).length = 4 := by
        rw [List.length_drop]
        omega
      have hfront : (chars.take (chars.length - 4)).length = chars.length - 4 := by
        rw [List.length_take]
        omega
      obtain ⟨digit, hparse, hlt, hdigit⟩ := parseU16_digits (chars.drop (chars.length - 4))
        (List.ne_nil_of_length_pos (by omega)) (fun c hc => h c (List.mem_of_mem_drop hc)) hlast.le
      obtain ⟨chunks, hsplit, hchunks⟩ := ih (chars.length - 4) (by omega)
        (chars.take (chars.length - 4)) (digits ++ [digit]) hfront
        (List.ne_nil_of_length_pos (by omega)) (fun c hc => h c (List.mem_of_mem_take hc))
      refine ⟨digit :: chunks, ?_, List.cons_ne_nil _ _, ?_, ?_, ?_⟩
      · rw [if_pos hlong, hparse]
        change splitChunks _ _ = _
        rw [hsplit, List.append_assoc, List.singleton_append]
      · exact List.forall_mem_cons.mpr ⟨hlt, hchunks.digit_lt⟩
      · have hle := hchunks.length_le
        rw [List.length_cons]
        omega
      · have hsplitValue : Nat.ofDigitChars 10 chars 0 =
            10 ^ 4 * Nat.ofDigitChars 10 (chars.take (chars.length - 4)) 0 +
              Nat.ofDigitChars 10 (chars.drop (chars.length - 4)) 0 := by
          calc
            Nat.ofDigitChars 10 chars 0 = Nat.ofDigitChars 10 (chars.drop (chars.length - 4))
                (Nat.ofDigitChars 10 (chars.take (chars.length - 4)) 0) := by
              rw [← Nat.ofDigitChars_append, List.take_append_drop]
            _ = _ := Nat.ofDigitChars_eq_ofDigitChars_zero
            _ = _ := by rw [hlast]
        rw [List.reverse_cons, digitsValue_concat, hchunks.value_eq, hdigit, hsplitValue]
        omega
    · obtain ⟨digit, hparse, hlt, hdigit⟩ := parseU16_digits chars hne h (by omega)
      have hempty : chars.isEmpty = false := by simpa using hne
      refine ⟨[digit], ?_, List.cons_ne_nil _ _, ?_, ?_, ?_⟩
      · rw [if_neg hlong, hempty, if_neg Bool.false_ne_true, hparse]
        rfl
      · exact List.forall_mem_singleton.mpr hlt
      · exact List.length_pos_iff.mpr hne
      · rw [← hdigit]
        exact Nat.zero_add _

/-- The encoder writes the element with one digit for each weight. -/
theorem toSql_ok (x : Element) :
    ∃ numeric : Numeric, toSql x = .ok numeric.bytes ∧ Represents numeric x.toNat ∧
      numeric.digits.length = numeric.weight.toNat + 1 ∧ numeric.weight.toNat < 2 ^ 15 := by
  obtain ⟨chunks, hsplit, hne, hlt, hlength, hvalue⟩ := splitChunks_digits _
    (Nat.toDigits 10 x.toNat) [] rfl Nat.toDigits_ne_nil fun c hc =>
      Nat.isDigit_of_mem_toDigits (by omega) (by omega) hc
  have hchars : (Nat.toDigits 10 x.toNat).length ≤ 78 := by
    rw [Nat.length_toDigits_le_iff (by omega) (by omega)]
    exact x.isLt.trans (by decide)
  have hpos : 0 < chunks.length := List.length_pos_iff.mpr hne
  have hcount : (UInt16.ofNat chunks.length).toNat = chunks.length := by
    rw [UInt16.toNat_ofNat', Nat.mod_eq_of_lt (by omega)]
  have hone : (1 : UInt16) ≤ UInt16.ofNat chunks.length := by
    rw [UInt16.le_iff_toNat_le, hcount]
    exact hpos
  have hweight : (UInt16.ofNat chunks.length - 1).toNat = chunks.length - 1 := by
    rw [UInt16.toNat_sub_of_le _ _ hone, hcount]
    rfl
  refine ⟨⟨chunks.reverse, UInt16.ofNat chunks.length - 1, 0⟩, ?_, ⟨?_, ?_, ?_⟩, ?_, ?_⟩
  · rw [toSql, hsplit, List.nil_append]
    change (if 2 ^ 16 ≤ chunks.reverse.length then _ else _) = _
    rw [List.length_reverse, if_neg (by omega), checkedSub, if_pos hone]
    change _ = Except.ok (toBeBytes (UInt16.ofNat chunks.reverse.length) ++ _ ++ _ ++ _ ++ _)
    rw [List.length_reverse, toBeBytes_zero]
    rfl
  · intro digit hdigit
    exact hlt digit (List.mem_reverse.mp hdigit)
  · dsimp only
    rw [List.length_reverse, hweight]
    omega
  · dsimp only
    rw [hvalue, Nat.ofDigitChars_ten_toDigits, List.length_reverse, hweight,
      Nat.sub_add_cancel hpos, Nat.sub_self, pow_zero, mul_one]
  · dsimp only
    rw [List.length_reverse, hweight]
    omega
  · dsimp only
    rw [hweight]
    omega

/-- An element is read back from what the encoder writes and from the server's own form of it,
and no arithmetic overflows on the way. -/
theorem fromSql_toSql (x : Element) :
    (∃ bytes, toSql x = .ok bytes ∧ fromSql bytes = .ok x) ∧
      ∀ numeric, Canonical numeric x.toNat → fromSql numeric.bytes = .ok x := by
  constructor
  · obtain ⟨numeric, hbytes, hrepresents, hlength, hweight⟩ := toSql_ok x
    refine ⟨numeric.bytes, hbytes, fromSql_bytes numeric x hrepresents hweight ?_⟩
    rw [hlength, Nat.sub_self]
    decide
  · intro numeric h
    exact fromSql_bytes numeric x h.represents h.bounds.1 h.bounds.2

/-- The third power of the base, of which the server keeps one digit. -/
def strippedCube : Numeric := ⟨[1], 3, 0⟩

theorem strippedCube_canonical : Canonical strippedCube 1000000000000 := by
  refine ⟨⟨?_, by decide, by decide⟩, by decide, by decide, by decide⟩
  exact List.forall_mem_singleton.mpr (by decide)

theorem fromSql_toSql_stripped :
    Canonical strippedCube (1000000000000#256).toNat ∧
      fromSql strippedCube.bytes = .ok 1000000000000#256 :=
  ⟨strippedCube_canonical,
    (fromSql_toSql 1000000000000#256).2 strippedCube strippedCube_canonical⟩

end Writing

end PayyRollup.NumericCodec
