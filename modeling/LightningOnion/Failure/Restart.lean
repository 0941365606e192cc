import LightningOnion.Failure.CircuitCodec
import LightningOnion.Failure.Return

/-! Failures that come back after a restart.

Between forwarding a payment and hearing of its failure a hop may be restarted, and so
may the sender. A hop writes its encrypter out and reads it back with `io.ReadFull`,
which does not mind how its storage cuts the record. The sender does so with its
circuit, but by single reads, which do mind; its storage has to deliver the record
whole. With everything read back, the failure is decrypted as if nobody had been
restarted. -/
namespace LightningOnion
open Lib

/-- `io.ReadFull(r, buf[:])`: what arrives goes straight into the buffer, and stays
there when too little does. -/
def readInto {n : Nat} (buf : Bytes n) (r : Reader) : Bytes n × Reader × Option Error :=
  let got := (r.fill n n).1
  have hle : got.length ≤ n := by
    show (r.fill n n).1.length ≤ n
    rw [(r.fill_eq n n (Nat.le_refl n)).1, List.length_take]
    exact Nat.min_le_left ..
  let err := match r.readFull n with
    | .ok _ => none
    | .error e => some (.read e)
  (⟨got ++ buf.toList.drop got.length, by simp; omega⟩, (r.fill n n).2, err)

/-- A full buffer: nothing of the old one is left, and what follows is still to come. -/
theorem readInto_append {n : Nat} (buf new : Bytes n) (rest : List UInt8) (cuts : List Nat) :
    ∃ cuts', readInto buf ⟨new.toList ++ rest, cuts⟩ = (new, ⟨rest, cuts'⟩, none) := by
  obtain ⟨cuts', hread⟩ := Reader.readFull_append new.toList rest cuts
  rw [List.Vector.toList_length] at hread
  obtain ⟨hfill, hlen⟩ := Reader.fill_of_readFull hread
  refine ⟨cuts', Prod.ext (List.Vector.eq _ _ ?_) (Prod.ext ?_ ?_)⟩
  · show (Reader.fill n n _).1 ++ buf.toList.drop (Reader.fill n n _).1.length = new.toList
    rw [hfill, List.drop_eq_nil_of_le (by simp), List.append_nil]
  · show (Reader.fill n n _).2 = _
    rw [hfill]
  · simp only [readInto, hread]

namespace OnionErrorEncrypter

/-- Writes the encrypter's shared secret. -/
def encode (o : OnionErrorEncrypter) : List UInt8 := o.sharedSecret.toList

/-- Restores the encrypter's shared secret. -/
def decode (o : OnionErrorEncrypter) (r : Reader) : OnionErrorEncrypter × Reader × Option Error :=
  let (sharedSecret, r', err) := readInto o.sharedSecret r
  (⟨sharedSecret⟩, r', err)

/-- An encrypter comes back from its record, however that is cut and whatever follows. -/
theorem decode_encode (o receiver : OnionErrorEncrypter) (rest : List UInt8) (cuts : List Nat) :
    ∃ cuts', receiver.decode ⟨o.encode ++ rest, cuts⟩ = (o, ⟨rest, cuts'⟩, none) := by
  obtain ⟨cuts', hread⟩ := readInto_append receiver.sharedSecret o.sharedSecret rest cuts
  exact ⟨cuts', by rw [decode, encode, hread]⟩

end OnionErrorEncrypter

/-! ### The way back after restarts -/

section Restored
variable {P : Primitives} {E : Type} [AddCommGroup E] (C : CurveModel P E)
include C

theorem decode_circuit {F : PrivateKeyFormat (PrivateKey P)} (hF : F.Padded PrivateKey.d)
    (sessionKey : PrivateKey P) (node : Nat → PrivateKey P) {n : Nat} (hmax : n ≤ numMaxHops)
    (hnode : ∀ i, i < n → (node i).d % P.order ≠ 0) (rest : List UInt8) :
    Circuit.decode P F (.ofBytes (Circuit.encode P F
        ⟨sessionKey, (List.range n).map fun i => (node i).pubKey⟩ ++ rest)) =
      .ok (⟨sessionKey, (List.range n).map fun i => (node i).pubKey⟩, .ofBytes rest) := by
  have hlen : (F.serialize sessionKey).length = 32 := by
    rw [hF.serialize_eq _ sessionKey.d_lt, length_beBytes]
  have hpath : ((List.range n).map fun i => (node i).pubKey).length = n := by
    rw [List.length_map, List.length_range]
  have hmod : n % 256 = n := Nat.mod_eq_of_lt (Nat.lt_of_le_of_lt hmax (by decide))
  have hkeys : Circuit.Readable P ((List.range n).map fun i => (node i).pubKey) := by
    intro k hk
    obtain ⟨i, hi, rfl⟩ := List.mem_map.mp hk
    exact parse_serialize_pubKey C (node i) (hnode i (List.mem_range.mp hi))
  rw [Circuit.decode_readable (c := ⟨sessionKey, _⟩) hlen
    (hF.fromBytes_serialize _ sessionKey.d_lt) hkeys rest, hpath, hmod,
    List.take_of_length_le (Nat.le_of_eq hpath), List.drop_eq_nil_of_le (Nat.le_of_eq hpath)]
  rfl

/-- **Failures survive restarts.** Let every hop up to the erring one write its encrypter
out and restore it, from storage that cuts the record as it likes, into whatever it has
at hand; and let the sender restore its circuit from a record that is not cut. Nothing
fails, and the failure that the restored hops send back decrypts, with the restored
circuit, to the key of hop `k` and its message, unless the MAC of an earlier hop verifies
by accident. -/
theorem decryptError_restored {F : PrivateKeyFormat (PrivateKey P)} (hF : F.Padded PrivateKey.d)
    (sessionKey : PrivateKey P) (node : Nat → PrivateKey P) {n : Nat} (hmax : n ≤ numMaxHops)
    (hnode : ∀ i, i < n → (node i).d % P.order ≠ 0) {k : Nat} (hk : k < n) (message : List UInt8)
    (hlen : message.length = 260) (pkt : Nat → OnionPacket) (hpkt : Unwrapped sessionKey node k pkt)
    (enc : Nat → OnionErrorEncrypter)
    (henc : ∀ i, i ≤ k → newOnionErrorEncrypter ⟨node i⟩ (pkt i).ephemeralKey = .ok (enc i))
    (hno : ∀ j, j < k → ¬Verifies P ((List.range n).map (hopSecret sessionKey node))
      (returnedFailure P enc k message) j)
    (receiver : Nat → OnionErrorEncrypter) (rest : Nat → List UInt8) (cuts : Nat → List Nat)
    (after : List UInt8) :
    let restored := fun i => (receiver i).decode ⟨(enc i).encode ++ rest i, cuts i⟩
    (∀ i, (restored i).2.2 = none ∧ (restored i).2.1.data = rest i) ∧
    ∃ circuit : Circuit (PrivateKey P),
      Circuit.decode P F (.ofBytes (Circuit.encode P F
        ⟨sessionKey, (List.range n).map fun i => (node i).pubKey⟩ ++ after)) =
          .ok (circuit, .ofBytes after) ∧
      OnionErrorDecrypter.decryptError ⟨circuit⟩
        (returnedFailure P (fun i => (restored i).1) k message) =
          some (.ok ((node k).pubKey, message)) := by
  intro restored
  have hrestored : ∀ i, (restored i).2.2 = none ∧ (restored i).2.1.data = rest i ∧
      (restored i).1 = enc i := by
    intro i
    obtain ⟨cuts', hdecode⟩ := (enc i).decode_encode (receiver i) (rest i) (cuts i)
    simp only [restored, hdecode, and_self]
  have hsame : (fun i => (restored i).1) = enc := funext fun i => (hrestored i).2.2
  refine ⟨fun i => ⟨(hrestored i).1, (hrestored i).2.1⟩, _,
    decode_circuit C hF sessionKey node hmax hnode after, ?_⟩
  rw [hsame]
  exact decryptError_of_secrets C sessionKey node hmax hk hlen
    (fun i hi => sharedSecret_of_ok hpkt hi (henc i hi)) hno

end Restored

/-- Keys as 32 bytes; what is too large for one is read as the smallest. -/
def openFormat : PrivateKeyFormat (PrivateKey openPrimitives) where
  privKeyFromBytes := fun bytes =>
    if h : beNat bytes < 2 ^ 256 then .ofScalar _ (beNat bytes) h else .ofScalar _ 1 one_lt_scalars
  serialize := fun k => beBytes 32 k.d

theorem openFormat_padded : openFormat.Padded PrivateKey.d where
  serialize_eq := fun _ _ => rfl
  fromBytes_serialize := fun k hk => by
    have hd : beNat (beBytes 32 k.d) = k.d := beNat_beBytes_of_lt (Nat.lt_of_lt_of_eq hk (by decide))
    obtain ⟨d, pubKey, hlt, rfl⟩ := k
    simp only [openFormat, hd, dif_pos hk]
    rfl

/-- The second of two hops fails after all three parties were restarted, the hops from
storage that delivers a byte at a time. -/
theorem openRoute_restored :
    let restored := fun i =>
      (openEncrypter 0).decode ⟨(openEncrypter i).encode ++ [7], List.replicate 32 1⟩
    ∃ circuit : Circuit (PrivateKey openPrimitives),
      Circuit.decode openPrimitives openFormat (.ofBytes (Circuit.encode openPrimitives openFormat
        ⟨openRoute.sessionKey, (List.range 2).map fun i => (openRoute.node i).pubKey⟩ ++ [9])) =
          .ok (circuit, .ofBytes [9]) ∧
      OnionErrorDecrypter.decryptError ⟨circuit⟩
        (returnedFailure openPrimitives (fun i => (restored i).1) 1
          (List.replicate 260 7)) = some (.ok (residuePoint 1, List.replicate 260 7)) := by
  have hpkt := openRoute.unwrapped (show 1 < openRoute.length by decide)
  have hcurve : ∀ i ≤ 1, openPrimitives.isOnCurve
      (hopEphemeral openRoute.sessionKey openRoute.node i) = true := by
    decide +kernel
  have henc : ∀ i, i ≤ 1 →
      newOnionErrorEncrypter ⟨openRoute.node i⟩ (openRoute.packetAt i).ephemeralKey =
        .ok (openEncrypter i) := by
    intro i hi
    rw [newOnionErrorEncrypter, Router.generateSharedSecret, hpkt.ephemeralKey_eq hi,
      if_pos (hcurve i hi)]
    rfl
  exact (decryptError_restored openCurve openFormat_padded
    openRoute.sessionKey openRoute.node (by decide) (show ∀ i, i < 2 → 1 % 5 ≠ 0 by decide)
    (show 1 < 2 by decide) _ List.length_replicate openRoute.packetAt hpkt openEncrypter henc
    (by decide +kernel) (fun _ => openEncrypter 0) (fun _ => [7]) (fun _ => List.replicate 32 1) [9]).2

end LightningOnion
