import LightningOnion.Crypto.Primitives
import LightningOnion.Errors

/-! Key derivation: the functions of `crypto.go` every layer is built from. -/
namespace LightningOnion
open Lib

/-- The number of bytes of an HMAC. -/
def hmacSize : Nat := 32

/-- The MAC that tells the final node it is the destination. -/
def zeroHMAC : Bytes hmacSize := zeroBytes hmacSize

/-- What a derived key is for. -/
inductive KeyType where
  | rho | mu | um | ammag
  deriving DecidableEq, Repr

/-- The key type's name in ASCII, as it is hashed. -/
def KeyType.bytes : KeyType → List UInt8
  | rho => [0x72, 0x68, 0x6f]
  | mu => [0x6d, 0x75]
  | um => [0x75, 0x6d]
  | ammag => [0x61, 0x6d, 0x6d, 0x61, 0x67]

section
variable (P : Primitives)

/-- HMAC-SHA-256 over the message. -/
def calcMac (key : Bytes 32) (msg : List UInt8) : Bytes hmacSize := P.hmac key.toList msg

/-- The key of the given type for a shared secret. -/
def generateKey (keyType : KeyType) (sharedKey : Hash256) : Bytes 32 :=
  P.hmac keyType.bytes sharedKey.toList

/-- `numBytes` of the keystream: the cipher applied to zeroes. -/
def generateCipherStream (key : Bytes 32) (numBytes : Nat) : List UInt8 :=
  (List.range numBytes).map fun i => 0 ^^^ P.chacha20 key i

@[simp] theorem length_generateCipherStream (key : Bytes 32) (numBytes : Nat) :
    (generateCipherStream P key numBytes).length = numBytes := by
  simp [generateCipherStream]

/-- SHA-256 of the hop's ephemeral key and its shared secret. -/
def computeBlindingFactor (hopPubKey : PublicKey) (hopSharedSecret : List UInt8) : Hash256 :=
  P.sha256 (P.serializeCompressed hopPubKey ++ hopSharedSecret)

/-- `blindingFactor * P`. -/
def blindGroupElement (hopPubKey : PublicKey) (blindingFactor : List UInt8) : PublicKey :=
  P.scalarMult hopPubKey blindingFactor

/-- `blindingFactor * G`. -/
def blindBaseElement (blindingFactor : List UInt8) : PublicKey := P.scalarBaseMult blindingFactor

/-- The whole ECDH point, compressed and hashed. -/
def generateSharedSecret (pub : PublicKey) (priv : PrivateKey P) : Hash256 :=
  P.sha256 (P.serializeCompressed (P.scalarMult pub (natBytes priv.d)))

/-- `HashPrefix`: the first 20 bytes of a hash, which a replay log stores. -/
abbrev HashPrefix := Bytes 20

/-- The prefix of the shared secret's hash, by which replays are detected. -/
def hashSharedSecret (sharedSecret : Hash256) : HashPrefix :=
  ⟨(P.sha256 sharedSecret.toList).toList.take 20, by
    rw [List.length_take, List.Vector.toList_length]; rfl⟩

/-- An onion router: its onion key. The replay log is passed alongside. -/
structure Router where
  onionKey : PrivateKey P

variable {P}

/-- The router's side of the exchange; a key off the curve is refused. -/
def Router.generateSharedSecret (r : Router P) (dhKey : PublicKey) : Except Error Hash256 :=
  if P.isOnCurve dhKey then .ok (LightningOnion.generateSharedSecret P dhKey r.onionKey)
  else .error .errInvalidOnionKey

end

end LightningOnion
