import LightningOnion.Crypto.Transparent
import LightningOnion.Packet.Construct

/-! The onion packet on the wire: a version byte, the compressed ephemeral key, the
routing info and its MAC.

`decode_cases` says what becomes of any stream, however its bytes arrive: a packet,
or the first thing found wrong with it. -/
namespace LightningOnion
open Lib

namespace OnionPacket
variable (P : Primitives)

/-- Serializes the raw bytes of the onion packet. -/
def encode (f : OnionPacket) : List UInt8 :=
  f.version :: (P.serializeCompressed f.ephemeralKey ++ (f.routingInfo.toList ++ f.headerMAC.toList))

/-- Populates a packet from the raw bytes. -/
def decode : Decoder OnionPacket := do
  let buf ← readArray 1
  let version := buf.head
  if version ≠ baseVersion then
    throw .errInvalidOnionVersion
  let ephemeral ← readArray 33
  match P.parsePubKey ephemeral.toList with
  | none => throw .errInvalidOnionKey
  | some ephemeralKey =>
    let routingInfo ← readArray routingInfoSize
    let headerMAC ← readArray hmacSize
    return ⟨version, ephemeralKey, routingInfo, headerMAC⟩

/-- A packet of the supported version whose key survives compression decodes to
itself, however its bytes arrive, and nothing after it is read. -/
theorem decode_encode (f : OnionPacket) (hv : f.version = baseVersion)
    (hlen : (P.serializeCompressed f.ephemeralKey).length = 33)
    (hparse : P.parsePubKey (P.serializeCompressed f.ephemeralKey) = some f.ephemeralKey)
    (rest : List UInt8) (cuts : List Nat) :
    ∃ cuts', decode P ⟨f.encode P ++ rest, cuts⟩ = .ok (f, ⟨rest, cuts'⟩) := by
  let version : Bytes 1 := ⟨[f.version], rfl⟩
  let ephemeral : Bytes 33 := ⟨P.serializeCompressed f.ephemeralKey, hlen⟩
  have hbytes : f.encode P ++ rest = version.toList ++ (ephemeral.toList ++
      (f.routingInfo.toList ++ (f.headerMAC.toList ++ rest))) := by
    show f.version :: (P.serializeCompressed f.ephemeralKey ++
      (f.routingInfo.toList ++ f.headerMAC.toList)) ++ rest = f.version :: (P.serializeCompressed
      f.ephemeralKey ++ (f.routingInfo.toList ++ (f.headerMAC.toList ++ rest)))
    simp
  rw [hbytes]
  obtain ⟨cuts₁, h₁⟩ := readArray_append version _ cuts
  obtain ⟨cuts₂, h₂⟩ := readArray_append ephemeral _ cuts₁
  obtain ⟨cuts₃, h₃⟩ := readArray_append f.routingInfo _ cuts₂
  obtain ⟨cuts₄, h₄⟩ := readArray_append f.headerMAC rest cuts₃
  refine ⟨cuts₄, ?_⟩
  have hhead : version.head = f.version := rfl
  have heph : ephemeral.toList = P.serializeCompressed f.ephemeralKey := rfl
  rw [decode, Decoder.bind_ok h₁, hhead, if_neg (by simpa using hv)]
  simp only
  rw [Decoder.bind_ok h₂, heph, hparse]
  simp only
  rw [Decoder.bind_ok h₃, Decoder.bind_ok h₄]
  rfl

/-! ### What is accepted -/

/-- The bytes of a packet on the wire. -/
def packetSize : Nat := 1 + 33 + routingInfoSize + hmacSize

example : packetSize = 1366 := rfl

/-- The stream begins with a packet. -/
structure Begins (data : List UInt8) : Prop where
  length : packetSize ≤ data.length
  version : data.head? = some baseVersion
  key : ∃ k, P.parsePubKey ((data.drop 1).take 33) = some k

/-- The stream begins with the version of something else. -/
def BadVersion (data : List UInt8) : Prop := ∃ v, data.head? = some v ∧ v ≠ baseVersion

/-- The stream holds a whole ephemeral key, and the key is rejected. -/
structure BadKey (data : List UInt8) : Prop where
  length : 1 + 33 ≤ data.length
  version : data.head? = some baseVersion
  key : P.parsePubKey ((data.drop 1).take 33) = none

theorem not_badVersion {data : List UInt8} (h : data.head? = some baseVersion) :
    ¬ BadVersion data := by
  intro ⟨v, hv, hne⟩
  rw [h] at hv
  exact hne (Option.some.inj hv).symm

theorem Begins.not_badKey {P : Primitives} {data : List UInt8} (h : Begins P data) :
    ¬ BadKey P data := by
  intro hbad
  obtain ⟨k, hk⟩ := h.key
  rw [hbad.key] at hk
  cases hk

theorem begins_cons {v : UInt8} {rest : List UInt8} : Begins P (v :: rest) ↔
    33 + (routingInfoSize + hmacSize) ≤ rest.length ∧ v = baseVersion ∧
      ∃ k, P.parsePubKey (rest.take 33) = some k := by
  have hsize : packetSize = 33 + (routingInfoSize + hmacSize) + 1 := rfl
  constructor
  · intro ⟨hlen, hv, hkey⟩
    exact ⟨by rw [hsize, List.length_cons] at hlen; omega, Option.some.inj hv, hkey⟩
  · intro ⟨hlen, hv, hkey⟩
    exact ⟨by rw [hsize, List.length_cons]; omega, congrArg some hv, hkey⟩

theorem badVersion_cons {v : UInt8} {rest : List UInt8} :
    BadVersion (v :: rest) ↔ v ≠ baseVersion := by
  simp [BadVersion]

theorem badKey_cons {v : UInt8} {rest : List UInt8} : BadKey P (v :: rest) ↔
    33 ≤ rest.length ∧ v = baseVersion ∧ P.parsePubKey (rest.take 33) = none := by
  constructor
  · intro ⟨hlen, hv, hkey⟩
    exact ⟨by rw [List.length_cons] at hlen; omega, Option.some.inj hv, hkey⟩
  · intro ⟨hlen, hv, hkey⟩
    exact ⟨by rw [List.length_cons]; omega, congrArg some hv, hkey⟩

/-- What is read after the key. -/
def decodeFields (ephemeralKey : PublicKey) : Decoder OnionPacket := do
  let routingInfo ← readArray routingInfoSize
  let headerMAC ← readArray hmacSize
  return ⟨baseVersion, ephemeralKey, routingInfo, headerMAC⟩

/-- What is read after the version byte. -/
def decodeBody : Decoder OnionPacket := do
  let ephemeral ← readArray 33
  match P.parsePubKey ephemeral.toList with
  | none => throw .errInvalidOnionKey
  | some ephemeralKey => decodeFields ephemeralKey

theorem decodeFields_of_lt (k : PublicKey) (data : List UInt8) (cuts : List Nat)
    (h : data.length < routingInfoSize + hmacSize) :
    ∃ e, decodeFields k ⟨data, cuts⟩ = .error (.read e) := by
  by_cases hinfo : data.length < routingInfoSize
  · obtain ⟨e, h₁⟩ := readArray_of_lt hinfo cuts
    exact ⟨e, Decoder.bind_error h₁⟩
  · obtain ⟨info, cuts₁, -, h₁⟩ := readArray_of_le (Nat.le_of_not_lt hinfo) cuts
    have hmac : (data.drop routingInfoSize).length < hmacSize := by
      rw [List.length_drop]
      omega
    obtain ⟨e, h₂⟩ := readArray_of_lt hmac cuts₁
    refine ⟨e, ?_⟩
    rw [decodeFields, Decoder.bind_ok h₁, Decoder.bind_error h₂]

theorem decodeFields_of_le (k : PublicKey) (data : List UInt8) (cuts : List Nat)
    (h : routingInfoSize + hmacSize ≤ data.length) :
    ∃ info mac cuts', info.toList ++ mac.toList = data.take (routingInfoSize + hmacSize) ∧
      decodeFields k ⟨data, cuts⟩ =
        .ok (⟨baseVersion, k, info, mac⟩, ⟨data.drop (routingInfoSize + hmacSize), cuts'⟩) := by
  obtain ⟨info, cuts₁, hinfo, h₁⟩ := readArray_of_le (Nat.le_of_add_right_le h) cuts
  have hrest : hmacSize ≤ (data.drop routingInfoSize).length := by
    rw [List.length_drop]
    omega
  obtain ⟨mac, cuts₂, hmac, h₂⟩ := readArray_of_le hrest cuts₁
  refine ⟨info, mac, cuts₂, ?_, ?_⟩
  · rw [hinfo, hmac, ← List.take_add]
  · rw [decodeFields, Decoder.bind_ok h₁, Decoder.bind_ok h₂, List.drop_drop]
    rfl

theorem decode_cons (v : UInt8) (rest : List UInt8) (cuts : List Nat) :
    ∃ cuts', decode P ⟨v :: rest, cuts⟩ =
      if v = baseVersion then decodeBody P ⟨rest, cuts'⟩ else .error .errInvalidOnionVersion := by
  let version : Bytes 1 := ⟨[v], rfl⟩
  obtain ⟨cuts', h⟩ := readArray_append version rest cuts
  have hread : readArray 1 ⟨v :: rest, cuts⟩ = .ok (version, ⟨rest, cuts'⟩) := h
  have hhead : version.head = v := rfl
  refine ⟨cuts', ?_⟩
  rw [decode, Decoder.bind_ok hread, hhead]
  by_cases hv : v = baseVersion
  · rw [if_pos hv, if_neg (not_not_intro hv), hv]
    rfl
  · rw [if_neg hv, if_pos hv]
    rfl

theorem decodeBody_of_le (data : List UInt8) (cuts : List Nat) (h : 33 ≤ data.length) :
    ∃ cuts', decodeBody P ⟨data, cuts⟩ =
      match P.parsePubKey (data.take 33) with
      | none => .error .errInvalidOnionKey
      | some k => decodeFields k ⟨data.drop 33, cuts'⟩ := by
  obtain ⟨ephemeral, cuts', heph, h₁⟩ := readArray_of_le h cuts
  refine ⟨cuts', ?_⟩
  rw [decodeBody, Decoder.bind_ok h₁, heph]
  cases P.parsePubKey (data.take 33) <;> rfl

/-- **What becomes of a stream**, however it is cut: the packet it begins with, the
first of version and key that is wrong, or a read error. -/
theorem decode_cases (hkeys : KeyCodec P) (data : List UInt8) (cuts : List Nat) :
    (Begins P data ∧ ∃ f cuts', decode P ⟨data, cuts⟩ = .ok (f, ⟨data.drop packetSize, cuts'⟩) ∧
      f.encode P = data.take packetSize) ∨
    (BadVersion data ∧ decode P ⟨data, cuts⟩ = .error .errInvalidOnionVersion) ∨
    (BadKey P data ∧ decode P ⟨data, cuts⟩ = .error .errInvalidOnionKey) ∨
    (¬ Begins P data ∧ ¬ BadVersion data ∧ ¬ BadKey P data ∧
      ∃ e, decode P ⟨data, cuts⟩ = .error (.read e)) := by
  cases data with
  | nil =>
    obtain ⟨e, h⟩ := readArray_of_lt (show ([] : List UInt8).length < 1 from Nat.one_pos) cuts
    exact .inr (.inr (.inr ⟨(nomatch ·.version), (nomatch ·), (nomatch ·.version), e,
      Decoder.bind_error h⟩))
  | cons v rest =>
    simp only [begins_cons, badVersion_cons, badKey_cons]
    obtain ⟨cuts₁, hdec⟩ := decode_cons P v rest cuts
    by_cases hv : v = baseVersion
    case neg =>
      rw [if_neg hv] at hdec
      exact .inr (.inl ⟨hv, hdec⟩)
    rw [if_pos hv] at hdec
    by_cases hlen : 33 ≤ rest.length
    case neg =>
      obtain ⟨e, h⟩ := readArray_of_lt (Nat.lt_of_not_le hlen) cuts₁
      exact .inr (.inr (.inr ⟨fun hb => by omega, fun hne => hne hv, fun hk => hlen hk.1, e,
        hdec.trans (Decoder.bind_error h)⟩))
    obtain ⟨cuts₂, hbody⟩ := decodeBody_of_le P rest cuts₁ hlen
    rw [hbody] at hdec
    cases hparse : P.parsePubKey (rest.take 33) with
    | none =>
      rw [hparse] at hdec
      exact .inr (.inr (.inl ⟨⟨hlen, hv, rfl⟩, hdec⟩))
    | some k =>
      rw [hparse] at hdec
      by_cases hall : routingInfoSize + hmacSize ≤ (rest.drop 33).length
      · obtain ⟨info, mac, cuts₃, hbytes, hfields⟩ := decodeFields_of_le k (rest.drop 33) cuts₂ hall
        have hser := hkeys.serialize_parse _ k (by rw [List.length_take]; omega) hparse
        have hsize : packetSize = 33 + (routingInfoSize + hmacSize) + 1 := rfl
        rw [List.length_drop] at hall
        rw [List.drop_drop] at hfields
        refine .inl ⟨⟨by omega, hv, k, rfl⟩, ⟨baseVersion, k, info, mac⟩, cuts₃,
          hdec.trans hfields, ?_⟩
        have hsplit : rest.take (33 + (routingInfoSize + hmacSize)) =
            rest.take 33 ++ (rest.drop 33).take (routingInfoSize + hmacSize) := List.take_add
        rw [encode, hser, hbytes, hsize, List.take_succ_cons, hsplit, hv]
      · obtain ⟨e, hfields⟩ := decodeFields_of_lt k (rest.drop 33) cuts₂ (Nat.lt_of_not_le hall)
        rw [List.length_drop] at hall
        exact .inr (.inr (.inr ⟨fun hb => by omega, fun hne => hne hv, fun hk => (nomatch hk.2.2), e,
          hdec.trans hfields⟩))

/-- **The wire format is the one `Encode` writes.** A packet decodes from its
encoding and leaves what follows; a stream decodes exactly if it begins with a
packet, whose encoding is then what was read, and is otherwise rejected for its
version, for its key or for its length. -/
theorem decode_exact (hkeys : KeyCodec P) :
    (∀ (f : OnionPacket) (rest : List UInt8) (cuts : List Nat), f.version = baseVersion →
      P.isOnCurve f.ephemeralKey = true →
      ∃ cuts', decode P ⟨f.encode P ++ rest, cuts⟩ = .ok (f, ⟨rest, cuts'⟩)) ∧
    ∀ (data : List UInt8) (cuts : List Nat),
      ((∃ f r, decode P ⟨data, cuts⟩ = .ok (f, r)) ↔ Begins P data) ∧
      (∀ f r, decode P ⟨data, cuts⟩ = .ok (f, r) →
        f.encode P = data.take packetSize ∧ r.data = data.drop packetSize) ∧
      (decode P ⟨data, cuts⟩ = .error .errInvalidOnionVersion ↔ BadVersion data) ∧
      (decode P ⟨data, cuts⟩ = .error .errInvalidOnionKey ↔ BadKey P data) ∧
      ((∃ e, decode P ⟨data, cuts⟩ = .error (.read e)) ↔
        ¬ Begins P data ∧ ¬ BadVersion data ∧ ¬ BadKey P data) := by
  refine ⟨fun f rest cuts hv hcurve => decode_encode P f hv (hkeys.length_serialize _ hcurve)
    (hkeys.parse_serialize _ hcurve) rest cuts, fun data cuts => ?_⟩
  rcases decode_cases P hkeys data cuts with ⟨hb, f, cuts', hdec, henc⟩ | ⟨hv, hdec⟩ | ⟨hk, hdec⟩ |
    ⟨hb, hv, hk, e, hdec⟩
  · have hv : ¬ BadVersion data := not_badVersion hb.version
    have hk : ¬ BadKey P data := hb.not_badKey
    simp only [hdec, hb, hv, hk]
    refine ⟨by simp, fun f' r h => ?_, by simp, by simp, by simp⟩
    cases h
    exact ⟨henc, rfl⟩
  · have hb : ¬ Begins P data := fun hb => not_badVersion hb.version hv
    have hk : ¬ BadKey P data := fun hk => not_badVersion hk.version hv
    simp [hdec, hb, hv, hk]
  · have hb : ¬ Begins P data := fun hb => hb.not_badKey hk
    have hv : ¬ BadVersion data := not_badVersion hk.version
    simp [hdec, hb, hv, hk]
  · simp [hdec, hb, hv, hk]

/-- A packet for the key with residue 3, next to a stray byte, read byte by byte
and then at once; and the same bytes with the version changed. -/
theorem decode_exact_strict : ∃ f : OnionPacket, f.ephemeralKey = residuePoint 3 ∧
    (∃ cuts', decode strictPrimitives ⟨f.encode strictPrimitives ++ [7], [1, 1]⟩ =
      .ok (f, ⟨[7], cuts'⟩)) ∧
    decode strictPrimitives ⟨1 :: (f.encode strictPrimitives).tail, []⟩ =
      .error .errInvalidOnionVersion := by
  obtain ⟨hround, hstream⟩ := decode_exact strictPrimitives strict_keyCodec
  refine ⟨⟨baseVersion, residuePoint 3, zeroBytes _, zeroBytes _⟩, rfl, hround _ [7] [1, 1] rfl ?_, ?_⟩
  · show strictPrimitives.isOnCurve (residuePoint 3) = true
    decide
  · exact (hstream _ []).2.2.1.mpr ⟨1, rfl, by decide⟩

end OnionPacket

end LightningOnion
