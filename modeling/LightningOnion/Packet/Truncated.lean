import LightningOnion.Lib.Fields
import LightningOnion.Packet.Codec

/-! Streams that end too early.

`Decode` reads a packet, and a hop its data, field by field, and hands the reader's error
on. A caller that takes end of file for the end of the packets, rather than for a packet
cut short, is wrong at as many places as there are fields. -/
namespace LightningOnion
open Lib

theorem readArray_fields (n : Nat) (hn : 0 < n) : ReadsFields Error.read [0] n (readArray n) where
  start_lt := fun s hs => by
    rw [List.mem_singleton.mp hs]
    exact hn
  enough := fun data cuts hle => by
    obtain ⟨a, cuts', -, hread⟩ := readArray_of_le hle cuts
    exact ⟨a, cuts', hread⟩
  short := fun data cuts hlt => by
    rw [readArray_short hlt]
    simp only [List.mem_singleton, List.length_eq_zero_iff]

theorem readBigEndian_fields (n : Nat) (hn : 0 < n) :
    ReadsFields Error.read [0] n (readBigEndian n) :=
  (readArray_fields n hn).bind fun bs => .pure (beNat bs.toList)

theorem HopData.decode_fields : ReadsFields Error.read [0, 1, 9, 17, 21, 33] hopDataSize HopData.decode :=
  (readArray_fields realmByteSize (by decide)).bind fun _ =>
  (readArray_fields addressSize (by decide)).bind fun _ =>
  (readBigEndian_fields amtForwardSize (by decide)).bind fun _ =>
  (readBigEndian_fields outgoingCLTVSize (by decide)).bind fun _ =>
  (readArray_fields numPaddingBytes (by decide)).bind fun _ =>
  (readArray_fields hmacSize (by decide)).bind fun _ => .pure _

/-- **A hop's data that ends too early** is all that decoding fails on, however the bytes
arrive; if it ends where a field begins, the error is that of an empty stream. -/
theorem HopData.decode_error_iff (data : List UInt8) (cuts : List Nat) (e : Error) :
    HopData.decode ⟨data, cuts⟩ = .error e ↔ data.length < hopDataSize ∧
      e = .read (if data.length ∈ [0, 1, 9, 17, 21, 33] then .eof else .unexpectedEOF) := by
  by_cases hlt : data.length < hopDataSize
  · rw [HopData.decode_fields.short data cuts hlt]
    simp only [hlt, true_and, Except.error.injEq, eq_comm]
  · obtain ⟨hd, cuts', hdec⟩ := HopData.decode_fields.enough data cuts (Nat.le_of_not_lt hlt)
    simp [hdec, hlt]

namespace OnionPacket
variable (P : Primitives)

theorem decodeFields_fields (k : PublicKey) :
    ReadsFields Error.read [0, routingInfoSize] (routingInfoSize + hmacSize) (decodeFields k) :=
  (readArray_fields routingInfoSize (by decide)).bind fun _ =>
  (readArray_fields hmacSize (by decide)).bind fun _ => .pure _

/-- A stream that holds neither a packet nor a wrong version or key ends too early. -/
structure Truncated (data : List UInt8) : Prop where
  not_begins : ¬Begins P data
  not_badVersion : ¬BadVersion data
  not_badKey : ¬BadKey P data

/-- What is read after the version byte, when it ends too early. -/
theorem decodeBody_short {data : List UInt8} (cuts : List Nat)
    (hkey : 33 ≤ data.length → ∃ k, P.parsePubKey (data.take 33) = some k)
    (h : data.length < 33 + (routingInfoSize + hmacSize)) :
    decodeBody P ⟨data, cuts⟩ = .error (.read
      (if data.length ∈ [0, 33, 33 + routingInfoSize] then .eof else .unexpectedEOF)) := by
  by_cases hle : 33 ≤ data.length
  · obtain ⟨cuts', hbody⟩ := decodeBody_of_le P data cuts hle
    obtain ⟨k, hk⟩ := hkey hle
    have hlen : (data.drop 33).length = data.length - 33 := List.length_drop ..
    have hstarts : data.length - 33 ∈ [0, routingInfoSize] ↔
        data.length ∈ [0, 33, 33 + routingInfoSize] := by
      simp only [List.mem_cons, List.not_mem_nil, or_false]
      omega
    rw [hbody, hk]
    simp only [(decodeFields_fields k).short _ cuts' (by rw [hlen]; omega), hlen, hstarts]
  · have hstarts : data = [] ↔ data.length ∈ [0, 33, 33 + routingInfoSize] := by
      simp only [List.mem_cons, List.not_mem_nil, or_false, ← List.length_eq_zero_iff]
      omega
    rw [decodeBody, Decoder.bind_error (readArray_short (by omega) cuts)]
    simp only [hstarts]

/-- **A stream that ends too early**, however its bytes arrive: reading fails on it, and on
no other, with end of file if it ends where a field begins and unexpectedly otherwise. -/
theorem decode_read_iff (data : List UInt8) (cuts : List Nat) (e : ReadError) :
    decode P ⟨data, cuts⟩ = .error (.read e) ↔ Truncated P data ∧
      e = if data.length ∈ [0, 1, 34, 34 + routingInfoSize] then .eof else .unexpectedEOF := by
  cases data with
  | nil =>
    have hdec : decode P ⟨[], cuts⟩ = .error (.read .eof) :=
      Decoder.bind_error (readArray_short Nat.one_pos cuts)
    have htrunc : Truncated P [] := ⟨(nomatch ·.version), (nomatch ·), (nomatch ·.version)⟩
    simp [hdec, htrunc, eq_comm]
  | cons v rest =>
    obtain ⟨cuts₁, hdec⟩ := decode_cons P v rest cuts
    by_cases hv : v = baseVersion
    case neg =>
      rw [if_neg hv] at hdec
      simp [hdec, show ¬Truncated P (v :: rest) from fun h => h.not_badVersion (badVersion_cons.mpr hv)]
    rw [if_pos hv] at hdec
    by_cases hbad : 33 ≤ rest.length ∧ P.parsePubKey (rest.take 33) = none
    · have hkey : BadKey P (v :: rest) := (badKey_cons P).mpr ⟨hbad.1, hv, hbad.2⟩
      obtain ⟨cuts₂, hbody⟩ := decodeBody_of_le P rest cuts₁ hbad.1
      simp [hdec, hbody, hbad.2, show ¬Truncated P (v :: rest) from fun h => h.not_badKey hkey]
    have hkey : 33 ≤ rest.length → ∃ k, P.parsePubKey (rest.take 33) = some k :=
      fun hle => Option.ne_none_iff_exists'.mp fun hnone => hbad ⟨hle, hnone⟩
    by_cases hall : 33 + (routingInfoSize + hmacSize) ≤ rest.length
    · obtain ⟨k, hk⟩ := hkey (by omega)
      have hbegins : Begins P (v :: rest) := (begins_cons P).mpr ⟨hall, hv, k, hk⟩
      obtain ⟨cuts₂, hbody⟩ := decodeBody_of_le P rest cuts₁ (by omega)
      obtain ⟨f, cuts₃, hfields⟩ := (decodeFields_fields k).enough (rest.drop 33) cuts₂
        (by rw [List.length_drop]; omega)
      simp [hdec, hbody, hk, hfields, show ¬Truncated P (v :: rest) from fun h => h.not_begins hbegins]
    · have htrunc : Truncated P (v :: rest) :=
        ⟨fun h => hall ((begins_cons P).mp h).1, not_badVersion (congrArg some hv),
          fun h => hbad ⟨((badKey_cons P).mp h).1, ((badKey_cons P).mp h).2.2⟩⟩
      have hstarts : rest.length ∈ [0, 33, 33 + routingInfoSize] ↔
          (v :: rest).length ∈ [0, 1, 34, 34 + routingInfoSize] := by
        simp only [List.mem_cons, List.not_mem_nil, or_false, List.length_cons]
        omega
      rw [hdec, decodeBody_short P cuts₁ hkey (Nat.lt_of_not_le hall)]
      simp only [hstarts, htrunc, true_and, Except.error.injEq, Error.read.injEq, eq_comm]

end OnionPacket

end LightningOnion
