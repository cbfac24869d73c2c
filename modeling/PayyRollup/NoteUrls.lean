import Mathlib.Data.UInt
import PayyRollup.NodeBlocks
import PayyRollup.RadixConversion

/-!
The payload of a note link. It is a version, a secret key, the psi of the note in version 0, the
value without its leading zero bytes and after their number, and a referral code that takes what is
left. The decoder panics on bytes that are too short. It recovers exactly the payloads that have a
psi in version 0 and no psi otherwise; the encoder drops a psi of another version.
-/
namespace PayyRollup.NoteUrls

open ScalarField VerifierContracts NodeBlocks RadixConversion

structure NoteURLPayload where
  version : UInt8
  privateKey : Element
  psi : Option Element
  value : Element
  referralCode : String

def elementBytes (e : Element) : Bytes := beBytes 32 e.toNat

def elementOfBytes (bytes : Bytes) : Element := BitVec.ofNat 256 (fromBeBytes bytes)

/-- The first bytes of a slice and the rest; a slice that is too short panics. -/
def splitFirst (count : ℕ) (rest : Bytes) : Option (Bytes × Bytes) :=
  if count ≤ rest.length then some (rest.splitAt count) else none

def referralBytes (code : String) : Bytes := code.toUTF8.data.toList

def referralOfBytes (bytes : Bytes) : Option String := String.fromUTF8? ⟨bytes.toArray⟩

section Payload

variable (bs58Encode : Bytes → String) (bs58Decode : String → Option Bytes)

def payloadBytes (payload : NoteURLPayload) : Bytes :=
  let valueBytes := elementBytes payload.value
  let zeros := leadingZeros valueBytes
  [payload.version] ++ elementBytes payload.privateKey ++
    (match payload.psi with
      | some psi => if payload.version = 0 then elementBytes psi else []
      | none => []) ++
    [UInt8.ofNat zeros] ++ valueBytes.drop zeros ++ referralBytes payload.referralCode

def encodeActivityUrlPayload (payload : NoteURLPayload) : String :=
  bs58Encode (payloadBytes payload)

/-- The psi and what follows it. -/
def decodePsi (version : UInt8) (rest : Bytes) : Option (Option Element × Bytes) :=
  if version = 0 then
    (splitFirst 32 rest).map fun split => (some (elementOfBytes split.1), split.2)
  else some (none, rest)

/-- The value after the number of its leading zeros, which is at most 32, and what follows it. -/
def decodeValue : Bytes → Option (Element × Bytes)
  | [] => none
  | zeros :: rest =>
      if zeros.toNat ≤ 32 then
        (splitFirst (32 - zeros.toNat) rest).map fun split =>
          (elementOfBytes (List.replicate zeros.toNat 0 ++ split.1), split.2)
      else none

def decodeBytes : Bytes → Option NoteURLPayload
  | [] => none
  | version :: rest => do
      let (privateKeyBytes, rest) ← splitFirst 32 rest
      let (psi, rest) ← decodePsi version rest
      let (value, rest) ← decodeValue rest
      let referralCode ← referralOfBytes rest
      return ⟨version, elementOfBytes privateKeyBytes, psi, value, referralCode⟩

/-- `none` stands for a panic. -/
def decodeActivityUrlPayload (payload : String) : Option NoteURLPayload :=
  (bs58Decode payload).bind decodeBytes

end Payload

section Fields

theorem elementOfBytes_elementBytes (e : Element) : elementOfBytes (elementBytes e) = e := by
  have hlt : e.toNat < 256 ^ 32 := e.isLt
  rw [elementOfBytes, elementBytes, fromBeBytes_beBytes 32 _ hlt, BitVec.ofNat_toNat,
    BitVec.setWidth_eq]

@[simp] theorem elementBytes_length (e : Element) : (elementBytes e).length = 32 :=
  beBytes_length 32 _

theorem splitFirst_append (front rest : Bytes) :
    splitFirst front.length (front ++ rest) = some (front, rest) := by
  rw [splitFirst, if_pos (by simp), List.splitAt_eq]
  simp

theorem splitFirst_element (e : Element) (rest : Bytes) :
    splitFirst 32 (elementBytes e ++ rest) = some (elementBytes e, rest) := by
  have hsplit := splitFirst_append (elementBytes e) rest
  rwa [elementBytes_length] at hsplit

theorem referralOfBytes_referralBytes (code : String) :
    referralOfBytes (referralBytes code) = some code := by
  have hbytes : ByteArray.mk (referralBytes code).toArray = code.toByteArray := rfl
  rw [referralOfBytes, hbytes, String.fromUTF8?, dif_pos code.isValidUTF8]
  rfl

theorem decodeValue_encoded (value : Element) (rest : Bytes) :
    decodeValue ([UInt8.ofNat (leadingZeros (elementBytes value))] ++
      (elementBytes value).drop (leadingZeros (elementBytes value)) ++ rest) =
        some (value, rest) := by
  have hle := leadingZeros_le (elementBytes value)
  rw [elementBytes_length] at hle
  have hcount : (UInt8.ofNat (leadingZeros (elementBytes value))).toNat =
      leadingZeros (elementBytes value) := by
    rw [UInt8.toNat_ofNat']
    omega
  have hlen : ((elementBytes value).drop (leadingZeros (elementBytes value))).length =
      32 - leadingZeros (elementBytes value) := by
    rw [List.length_drop, elementBytes_length]
  have hsplit := splitFirst_append
    ((elementBytes value).drop (leadingZeros (elementBytes value))) rest
  rw [hlen] at hsplit
  rw [List.append_assoc, List.singleton_append, decodeValue, hcount, if_pos hle, hsplit,
    Option.map_some, replicate_leadingZeros, elementOfBytes_elementBytes]

end Fields

section RoundTrip

/-- Payloads have a psi in version 0, and only there. -/
def WellFormed (payload : NoteURLPayload) : Prop := payload.psi.isSome = true ↔ payload.version = 0

theorem decodePsi_isSome (version : UInt8) (rest : Bytes) (r : Option Element × Bytes)
    (h : decodePsi version rest = some r) : r.1.isSome = true ↔ version = 0 := by
  unfold decodePsi at h
  by_cases hversion : version = 0
  · rw [if_pos hversion] at h
    obtain ⟨split, -, rfl⟩ := Option.map_eq_some_iff.mp h
    simp [hversion]
  · rw [if_neg hversion, Option.some.injEq] at h
    rw [← h]
    simp [hversion]

/-- The decoder returns well-formed payloads only. -/
theorem decodeBytes_wellFormed (bytes : Bytes) (payload : NoteURLPayload)
    (h : decodeBytes bytes = some payload) : WellFormed payload := by
  cases bytes with
  | nil => cases h
  | cons version rest =>
    simp only [decodeBytes, bind, Option.bind_eq_some_iff] at h
    obtain ⟨key, -, psi, hpsi, value, -, code, -, hpayload⟩ := h
    cases hpayload
    exact decodePsi_isSome version _ psi hpsi

theorem decodePsi_encoded (payload : NoteURLPayload) (h : WellFormed payload) (rest : Bytes) :
    decodePsi payload.version ((match payload.psi with
      | some psi => if payload.version = 0 then elementBytes psi else []
      | none => []) ++ rest) = some (payload.psi, rest) := by
  cases hpsi : payload.psi with
  | none =>
    have hversion : payload.version ≠ 0 := by
      intro hzero
      have hsome := h.mpr hzero
      rw [hpsi] at hsome
      cases hsome
    simp [decodePsi, hversion]
  | some psi =>
    have hversion : payload.version = 0 := h.mp (by rw [hpsi]; rfl)
    simp only [hversion, if_true, decodePsi, splitFirst_element, Option.map_some,
      elementOfBytes_elementBytes]

theorem decodeBytes_payloadBytes (payload : NoteURLPayload) (h : WellFormed payload) :
    decodeBytes (payloadBytes payload) = some payload := by
  have hbytes : payloadBytes payload = payload.version :: (elementBytes payload.privateKey ++
      ((match payload.psi with
        | some psi => if payload.version = 0 then elementBytes psi else []
        | none => []) ++
      ([UInt8.ofNat (leadingZeros (elementBytes payload.value))] ++
        (elementBytes payload.value).drop (leadingZeros (elementBytes payload.value)) ++
          referralBytes payload.referralCode))) := by
    simp [payloadBytes]
  rw [hbytes, decodeBytes, splitFirst_element]
  simp only [bind, Option.bind_some, decodePsi_encoded payload h, decodeValue_encoded,
    referralOfBytes_referralBytes, elementOfBytes_elementBytes]
  rfl

end RoundTrip

/-- A payload is decoded from its link if and only if it is well-formed; so no two well-formed
payloads share a link. -/
theorem note_url_round_trip (bs58Encode : Bytes → String) (bs58Decode : String → Option Bytes)
    (hbs58 : ∀ bytes, bs58Decode (bs58Encode bytes) = some bytes) :
    (∀ payload, decodeActivityUrlPayload bs58Decode (encodeActivityUrlPayload bs58Encode payload) =
      some payload ↔ WellFormed payload) ∧
    ∀ payload payload', WellFormed payload → WellFormed payload' →
      encodeActivityUrlPayload bs58Encode payload = encodeActivityUrlPayload bs58Encode payload' →
        payload = payload' := by
  have hdecode : ∀ payload, decodeActivityUrlPayload bs58Decode
      (encodeActivityUrlPayload bs58Encode payload) = decodeBytes (payloadBytes payload) := by
    intro payload
    rw [decodeActivityUrlPayload, encodeActivityUrlPayload, hbs58, Option.bind_some]
  refine ⟨fun payload => ?_, fun payload payload' h h' heq => ?_⟩
  · rw [hdecode]
    exact ⟨decodeBytes_wellFormed _ payload, decodeBytes_payloadBytes payload⟩
  · have hsame := hdecode payload
    rw [heq, hdecode, decodeBytes_payloadBytes payload h, decodeBytes_payloadBytes payload' h',
      Option.some.injEq] at hsame
    exact hsame.symm

section Base58

def alphabet : List Char := "123456789ABCDEFGHJKLMNPQRSTUVWXYZabcdefghijkmnopqrstuvwxyz".toList

def base58Encode (bytes : Bytes) : String :=
  String.ofList ((convert 256 58 (bytes.map UInt8.toNat)).map fun d => alphabet.getD d '1')

def base58Decode (s : String) : Option Bytes :=
  if s.toList.all alphabet.contains then
    some ((convert 58 256 (s.toList.map alphabet.idxOf)).map UInt8.ofNat)
  else none

theorem alphabet_nodup : alphabet.Nodup := by
  have hsorted : (alphabet.map Char.toNat).IsChain (· < ·) := by decide
  exact List.Nodup.of_map Char.toNat ((List.isChain_iff_pairwise.mp hsorted).imp Nat.ne_of_lt)

theorem alphabet_idxOf (d : ℕ) (hd : d < 58) :
    alphabet.getD d '1' ∈ alphabet ∧ alphabet.idxOf (alphabet.getD d '1') = d := by
  have hlen : d < alphabet.length := hd
  rw [List.getD, List.getElem?_eq_getElem hlen, Option.getD_some]
  exact ⟨List.getElem_mem hlen, alphabet_nodup.idxOf_getElem d hlen⟩

theorem base58Decode_base58Encode (bytes : Bytes) :
    base58Decode (base58Encode bytes) = some bytes := by
  have hlt := convert_lt 256 58 (by norm_num) (bytes.map UInt8.toNat)
  have hdigits : ((convert 256 58 (bytes.map UInt8.toNat)).map fun d =>
      alphabet.getD d '1').map alphabet.idxOf = convert 256 58 (bytes.map UInt8.toNat) := by
    rw [List.map_map]
    conv_rhs => rw [← List.map_id (convert 256 58 (bytes.map UInt8.toNat))]
    exact List.map_congr_left fun d hd => (alphabet_idxOf d (hlt d hd)).2
  have hbytes : ∀ d ∈ bytes.map UInt8.toNat, d < 256 := by
    intro d hd
    obtain ⟨b, -, rfl⟩ := List.mem_map.mp hd
    exact b.toNat_lt
  rw [base58Decode, base58Encode, String.toList_ofList, if_pos, hdigits,
    convert_convert 256 58 (by norm_num) _ hbytes, List.map_map]
  · congr 1
    conv_rhs => rw [← List.map_id bytes]
    exact List.map_congr_left fun b _ => UInt8.ofNat_toNat
  · rw [List.all_eq_true]
    intro c hc
    obtain ⟨d, hd, rfl⟩ := List.mem_map.mp hc
    exact List.contains_iff_mem.mpr (alphabet_idxOf d (hlt d hd)).1

/-- Links of version 0 whose value is zero. -/
theorem note_url_round_trip_base58 :
    let payload : NoteURLPayload := ⟨0, 7#256, some 3#256, 0#256, "friend"⟩
    decodeActivityUrlPayload base58Decode (encodeActivityUrlPayload base58Encode payload) =
      some payload := by
  intro payload
  exact ((note_url_round_trip base58Encode base58Decode base58Decode_base58Encode).1 payload).mpr
    ⟨fun _ => rfl, fun _ => rfl⟩

end Base58

end PayyRollup.NoteUrls
