import LightningOnion.Crypto.Transparent
import LightningOnion.Lib.Reader

/-! Circuits on the wire.

A record is a length byte and the session key, a count byte and the keys of the path.
`decode` reads each field with a single `Read` and never looks at how many bytes that
delivered: what is missing of a field is taken to be zero, and the next field is read
from wherever the stream is. From a reader that delivers every field whole, an encoded
circuit comes back as long as its path fits the count byte (`roundTrip_iff`). -/
namespace LightningOnion
open Lib

/-- How the curve package turns private keys of type `K` into bytes and back. The key
is abstract: read from up to 255 bytes, it need not be a reduced scalar. -/
structure PrivateKeyFormat (K : Type) where
  /-- `btcec.PrivKeyFromBytes`. -/
  privKeyFromBytes : List UInt8 → K
  /-- `PrivateKey.Serialize`. -/
  serialize : K → List UInt8

/-- A key with scalar `d k` is written in 32 bytes, padded on the left, and read back
from them. -/
structure PrivateKeyFormat.Padded {K : Type} (F : PrivateKeyFormat K) (d : K → Nat) : Prop where
  serialize_eq : ∀ k, d k < 2 ^ 256 → F.serialize k = beBytes 32 (d k)
  fromBytes_serialize : ∀ k, d k < 2 ^ 256 → F.privKeyFromBytes (F.serialize k) = k

/-- What is needed to decrypt a failure. -/
structure Circuit (K : Type) where
  sessionKey : K
  paymentPath : List PublicKey

/-- Why a circuit is not decoded. -/
inductive CircuitError where
  | read (e : ReadError)
  /-- The error of `btcec.ParsePubKey`. -/
  | pubKey
  deriving DecidableEq, Repr

namespace Circuit
variable (P : Primitives) {K : Type} (F : PrivateKeyFormat K)

/-- Writes the circuit. The two lengths are cut to a byte. -/
def encode (c : Circuit K) : List UInt8 :=
  UInt8.ofNat (F.serialize c.sessionKey).length :: (F.serialize c.sessionKey ++
    (UInt8.ofNat c.paymentPath.length :: c.paymentPath.flatMap P.serializeCompressed))

/-- Reads `n` keys, one `Read` each. -/
def readPath : (n : Nat) → Reader → Except CircuitError (List PublicKey × Reader)
  | 0, r => .ok ([], r)
  | n + 1, r =>
    match r.readOnce 33 with
    | none => .error (.read .eof)
    | some (pubKeyData, r') =>
      match P.parsePubKey pubKeyData with
      | none => .error .pubKey
      | some pubKey =>
        match readPath n r' with
        | .error e => .error e
        | .ok (path, r'') => .ok (pubKey :: path, r'')

/-- Initializes a circuit from the stream. -/
def decode (r : Reader) : Except CircuitError (Circuit K × Reader) :=
  match r.readOnce 1 with
  | none => .error (.read .eof)
  | some (keyLength, r₁) =>
    match r₁.readOnce (keyLength.headD 0).toNat with
    | none => .error (.read .eof)
    | some (sessionKeyData, r₂) =>
      let sessionKey := F.privKeyFromBytes sessionKeyData
      match r₂.readOnce 1 with
      | none => .error (.read .eof)
      | some (pathLength, r₃) =>
        match readPath P (pathLength.headD 0).toNat r₃ with
        | .error e => .error e
        | .ok (paymentPath, r₄) => .ok (⟨sessionKey, paymentPath⟩, r₄)

/-! ### The round trip -/

/-- Keys that are read back from what is written of them. -/
def Readable (keys : List PublicKey) : Prop :=
  ∀ k ∈ keys, (P.serializeCompressed k).length = 33 ∧ P.parsePubKey (P.serializeCompressed k) = some k

section Written
variable {P} {F}

/-- Written keys are read back, and what follows is left alone. -/
theorem readPath_append {keys : List PublicKey} (hkeys : Readable P keys) (rest : List UInt8) :
    readPath P keys.length (.ofBytes (keys.flatMap P.serializeCompressed ++ rest)) =
      .ok (keys, .ofBytes rest) := by
  induction keys with
  | nil => rfl
  | cons k keys ih =>
    obtain ⟨hlen, hparse⟩ := hkeys k (List.mem_cons_self ..)
    rw [List.length_cons, readPath, List.flatMap_cons, List.append_assoc,
      Reader.readOnce_append hlen]
    simp only [hparse, ih fun k' hk' => hkeys k' (List.mem_cons_of_mem k hk')]

/-- With the session key and the count there, decoding is reading the keys. -/
theorem decode_append {keyLength count : UInt8} {key : List UInt8}
    (hkey : key.length = keyLength.toNat) {rest rest' : List UInt8} {path : List PublicKey}
    (hpath : readPath P count.toNat (.ofBytes rest) = .ok (path, .ofBytes rest')) :
    decode P F (.ofBytes (keyLength :: (key ++ count :: rest))) =
      .ok (⟨F.privKeyFromBytes key, path⟩, .ofBytes rest') := by
  simp only [decode, Reader.readOnce_cons, Reader.readOnce_append hkey, List.headD_cons, hpath]

/-- What an encoded circuit decodes to: the count byte says how many keys are read. -/
theorem decode_readable {c : Circuit K}
    (hlen : (F.serialize c.sessionKey).length = 32)
    (hinv : F.privKeyFromBytes (F.serialize c.sessionKey) = c.sessionKey)
    (hkeys : Readable P c.paymentPath) (rest : List UInt8) :
    decode P F (.ofBytes (encode P F c ++ rest)) =
      .ok (⟨c.sessionKey, c.paymentPath.take (c.paymentPath.length % 256)⟩,
        .ofBytes ((c.paymentPath.drop (c.paymentPath.length % 256)).flatMap P.serializeCompressed ++
          rest)) := by
  generalize hm : c.paymentPath.length % 256 = m
  have hcount : (UInt8.ofNat c.paymentPath.length).toNat = m := by
    rw [UInt8.toNat_ofNat']
    exact hm
  have htake : (c.paymentPath.take m).length = m := by
    rw [List.length_take, ← hm]
    exact Nat.min_eq_left (Nat.mod_le _ _)
  have hkeyLength : (F.serialize c.sessionKey).length =
      (UInt8.ofNat (F.serialize c.sessionKey).length).toNat := by
    rw [hlen]
    rfl
  have hbytes : encode P F c ++ rest = UInt8.ofNat (F.serialize c.sessionKey).length ::
      (F.serialize c.sessionKey ++ UInt8.ofNat c.paymentPath.length ::
        ((c.paymentPath.take m).flatMap P.serializeCompressed ++
          ((c.paymentPath.drop m).flatMap P.serializeCompressed ++ rest))) := by
    rw [← List.append_assoc, ← List.flatMap_append, List.take_append_drop, encode]
    simp
  have hfront : Readable P (c.paymentPath.take m) := fun k hk => hkeys k (List.mem_of_mem_take hk)
  have hread := readPath_append hfront
    ((c.paymentPath.drop m).flatMap P.serializeCompressed ++ rest)
  rw [htake] at hread
  rw [hbytes, decode_append hkeyLength (by rw [hcount]; exact hread), hinv]

end Written

section RoundTrip
variable {P} {F} (hkeys : KeyCodec P)
include hkeys

theorem decode_encode {c : Circuit K}
    (hlen : (F.serialize c.sessionKey).length = 32)
    (hinv : F.privKeyFromBytes (F.serialize c.sessionKey) = c.sessionKey)
    (hcurve : ∀ k ∈ c.paymentPath, P.isOnCurve k = true) (rest : List UInt8) :
    decode P F (.ofBytes (encode P F c ++ rest)) =
      .ok (⟨c.sessionKey, c.paymentPath.take (c.paymentPath.length % 256)⟩,
        .ofBytes ((c.paymentPath.drop (c.paymentPath.length % 256)).flatMap P.serializeCompressed ++
          rest)) :=
  decode_readable hlen hinv
    (fun k hk => ⟨hkeys.length_serialize k (hcurve k hk), hkeys.parse_serialize k (hcurve k hk)⟩) rest

/-- **An encoded circuit decodes to itself exactly if its path fits the count byte.**
Then what follows it is left unread; a longer path comes back cut to its length
modulo 256. -/
theorem roundTrip_iff {d : K → Nat} (hF : F.Padded d) (c : Circuit K)
    (hd : d c.sessionKey < 2 ^ 256) (hcurve : ∀ k ∈ c.paymentPath, P.isOnCurve k = true)
    (rest : List UInt8) :
    (decode P F (.ofBytes (encode P F c ++ rest)) = .ok (c, .ofBytes rest) ↔
      c.paymentPath.length ≤ 255) ∧
    ∃ r, decode P F (.ofBytes (encode P F c ++ rest)) =
      .ok (⟨c.sessionKey, c.paymentPath.take (c.paymentPath.length % 256)⟩, r) := by
  have hlen : (F.serialize c.sessionKey).length = 32 := by
    rw [hF.serialize_eq _ hd, length_beBytes]
  have hdecode := decode_encode hkeys hlen (hF.fromBytes_serialize _ hd) hcurve rest
  refine ⟨⟨fun h => ?_, fun h => ?_⟩, _, hdecode⟩
  · rw [hdecode] at h
    have hpath : c.paymentPath.take (c.paymentPath.length % 256) = c.paymentPath :=
      congrArg (fun out => out.1.paymentPath) (Except.ok.inj h)
    have hmod := congrArg List.length hpath
    rw [List.length_take] at hmod
    omega
  · have hmod : c.paymentPath.length % 256 = c.paymentPath.length := Nat.mod_eq_of_lt (by omega)
    rw [hdecode, hmod, List.take_length, List.drop_length]
    rfl

end RoundTrip

/-- Scalars as keys, in 32 bytes. -/
def scalarFormat : PrivateKeyFormat Nat := ⟨beNat, beBytes 32⟩

theorem scalarFormat_padded : scalarFormat.Padded id where
  serialize_eq := fun _ _ => rfl
  fromBytes_serialize := fun _ hk => beNat_beBytes_of_lt (Nat.lt_of_lt_of_eq hk (by decide))

def sampleCircuit : Circuit Nat := ⟨5, [residuePoint 3]⟩

/-- As many keys as make the count byte zero. -/
def longCircuit : Circuit Nat := ⟨5, List.replicate 256 (residuePoint 3)⟩

/-- The sample circuit comes back; the long one without a key. -/
theorem sampleCircuit_roundTrip :
    decode strictPrimitives scalarFormat
      (.ofBytes (encode strictPrimitives scalarFormat sampleCircuit ++ [9])) =
        .ok (sampleCircuit, .ofBytes [9]) ∧
    ∃ r, decode strictPrimitives scalarFormat
      (.ofBytes (encode strictPrimitives scalarFormat longCircuit ++ [9])) = .ok (⟨5, []⟩, r) := by
  have hcurve : ∀ n, ∀ k ∈ List.replicate n (residuePoint 3), strictPrimitives.isOnCurve k = true := by
    intro n k hk
    rw [List.eq_of_mem_replicate hk]
    decide
  have hlength : longCircuit.paymentPath.length = 256 := List.length_replicate
  have hlong := (roundTrip_iff strict_keyCodec scalarFormat_padded longCircuit (by decide)
    (hcurve 256) [9]).2
  rw [hlength] at hlong
  exact ⟨(roundTrip_iff strict_keyCodec scalarFormat_padded sampleCircuit (by decide) (hcurve 1)
    [9]).1.mpr (by decide), hlong⟩

end Circuit

end LightningOnion
