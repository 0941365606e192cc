import LightningOnion.Crypto.Keys

/-! The data destined for one hop, and its fixed 65-byte wire form. -/
namespace LightningOnion
open Lib

def addressSize : Nat := 8
def realmByteSize : Nat := 1
def amtForwardSize : Nat := 8
def outgoingCLTVSize : Nat := 4
def numPaddingBytes : Nat := 12
def hopDataSize : Nat :=
  realmByteSize + addressSize + amtForwardSize + outgoingCLTVSize + numPaddingBytes + hmacSize

structure HopData where
  realm : Bytes realmByteSize
  nextAddress : Bytes addressSize
  forwardAmount : UInt64
  outgoingCltv : UInt32
  extraBytes : Bytes numPaddingBytes
  /-- The MAC to pass to the next hop; zero for the last. -/
  hmac : Bytes hmacSize
  deriving DecidableEq

/-- A freshly declared `HopData`. -/
def HopData.empty : HopData :=
  ⟨zeroBytes _, zeroBytes _, 0, 0, zeroBytes _, zeroBytes _⟩

/-! ### Decoding -/

/-- A computation that reads a byte stream. -/
abbrev Decoder := StateT Reader (Except Error)

/-- `io.ReadFull(r, buf[:])` into an array of `n` bytes. -/
def readArray (n : Nat) : Decoder (Bytes n) := fun r =>
  match h : r.readFull n with
  | .ok (bs, r') => .ok (⟨bs, Reader.length_of_readFull h⟩, r')
  | .error e => .error (.read e)

/-- `binary.Read(r, binary.BigEndian, &v)` for a number of `n` bytes. -/
def readBigEndian (n : Nat) : Decoder Nat := do
  let bs ← readArray n
  return beNat bs.toList

theorem Decoder.bind_ok {α β : Type} {x : Decoder α} {f : α → Decoder β} {r r' : Reader} {a : α}
    (h : x r = .ok (a, r')) : (x >>= f) r = f a r' := by
  show (x r >>= fun p => f p.1 p.2) = f a r'
  rw [h]
  rfl

theorem Decoder.bind_error {α β : Type} {x : Decoder α} {f : α → Decoder β} {r : Reader} {e : Error}
    (h : x r = .error e) : (x >>= f) r = .error e := by
  show (x r >>= fun p => f p.1 p.2) = .error e
  rw [h]
  rfl

theorem readArray_append {n : Nat} (a : Bytes n) (rest : List UInt8) (cuts : List Nat) :
    ∃ cuts', readArray n ⟨a.toList ++ rest, cuts⟩ = .ok (a, ⟨rest, cuts'⟩) := by
  obtain ⟨cuts', h⟩ := Reader.readFull_append a.toList rest cuts
  rw [List.Vector.toList_length] at h
  refine ⟨cuts', ?_⟩
  unfold readArray
  split
  · rename_i bs r' h'
    rw [h] at h'
    cases h'
    rfl
  · rename_i e h'
    rw [h] at h'
    cases h'

theorem readArray_of_le {n : Nat} {data : List UInt8} (h : n ≤ data.length) (cuts : List Nat) :
    ∃ (a : Bytes n) (cuts' : List Nat), a.toList = data.take n ∧
      readArray n ⟨data, cuts⟩ = .ok (a, ⟨data.drop n, cuts'⟩) := by
  let a : Bytes n := ⟨data.take n, by rw [List.length_take]; omega⟩
  obtain ⟨cuts', hread⟩ := readArray_append a (data.drop n) cuts
  have hdata : a.toList ++ data.drop n = data := List.take_append_drop n data
  rw [hdata] at hread
  exact ⟨a, cuts', rfl, hread⟩

theorem readArray_short {n : Nat} {data : List UInt8} (h : data.length < n) (cuts : List Nat) :
    readArray n ⟨data, cuts⟩ = .error (.read (if data = [] then .eof else .unexpectedEOF)) := by
  have hfull := Reader.readFull_of_lt ⟨data, cuts⟩ n h
  unfold readArray
  split
  · rename_i h'
    rw [hfull] at h'
    cases h'
  · rename_i h'
    rw [hfull] at h'
    cases h'
    rfl

theorem readArray_of_lt {n : Nat} {data : List UInt8} (h : data.length < n) (cuts : List Nat) :
    ∃ e, readArray n ⟨data, cuts⟩ = .error (.read e) :=
  ⟨_, readArray_short h cuts⟩

theorem readBigEndian_append (n v : Nat) (hv : v < 256 ^ n) (rest : List UInt8) (cuts : List Nat) :
    ∃ cuts', readBigEndian n ⟨beBytes n v ++ rest, cuts⟩ = .ok (v, ⟨rest, cuts'⟩) := by
  let bs : Bytes n := ⟨beBytes n v, length_beBytes n v⟩
  obtain ⟨cuts', h⟩ := readArray_append bs rest cuts
  have hread : readArray n ⟨beBytes n v ++ rest, cuts⟩ = .ok (bs, ⟨rest, cuts'⟩) := h
  refine ⟨cuts', ?_⟩
  rw [readBigEndian, Decoder.bind_ok hread]
  show Except.ok (beNat (beBytes n v), _) = _
  rw [beNat_beBytes_of_lt hv]

namespace HopData

/-- Writes the serialized hop data. -/
def encode (hd : HopData) : List UInt8 :=
  hd.realm.toList ++ (hd.nextAddress.toList ++ (beBytes amtForwardSize hd.forwardAmount.toNat ++
    (beBytes outgoingCLTVSize hd.outgoingCltv.toNat ++ (hd.extraBytes.toList ++ hd.hmac.toList))))

/-- Reads hop data back. -/
def decode : Decoder HopData := do
  let realm ← readArray realmByteSize
  let nextAddress ← readArray addressSize
  let forwardAmount ← readBigEndian amtForwardSize
  let outgoingCltv ← readBigEndian outgoingCLTVSize
  let extraBytes ← readArray numPaddingBytes
  let hmac ← readArray hmacSize
  return ⟨realm, nextAddress, UInt64.ofNat forwardAmount, UInt32.ofNat outgoingCltv, extraBytes, hmac⟩

@[simp] theorem length_encode (hd : HopData) : hd.encode.length = hopDataSize := by
  simp [encode, hopDataSize]
  omega

/-- What was encoded decodes, and what follows is left alone. -/
theorem decode_encode (hd : HopData) (rest : List UInt8) (cuts : List Nat) :
    ∃ cuts', decode ⟨hd.encode ++ rest, cuts⟩ = .ok (hd, ⟨rest, cuts'⟩) := by
  simp only [encode, List.append_assoc]
  obtain ⟨cuts₁, h₁⟩ := readArray_append hd.realm _ cuts
  obtain ⟨cuts₂, h₂⟩ := readArray_append hd.nextAddress _ cuts₁
  obtain ⟨cuts₃, h₃⟩ := readBigEndian_append amtForwardSize hd.forwardAmount.toNat
    hd.forwardAmount.toNat_lt _ cuts₂
  obtain ⟨cuts₄, h₄⟩ := readBigEndian_append outgoingCLTVSize hd.outgoingCltv.toNat
    hd.outgoingCltv.toNat_lt _ cuts₃
  obtain ⟨cuts₅, h₅⟩ := readArray_append hd.extraBytes _ cuts₄
  obtain ⟨cuts₆, h₆⟩ := readArray_append hd.hmac rest cuts₅
  refine ⟨cuts₆, ?_⟩
  rw [decode, Decoder.bind_ok h₁, Decoder.bind_ok h₂, Decoder.bind_ok h₃, Decoder.bind_ok h₄,
    Decoder.bind_ok h₅, Decoder.bind_ok h₆]
  show Except.ok _ = _
  rw [UInt64.ofNat_toNat, UInt32.ofNat_toNat]

theorem encode_injective {a b : HopData} (h : a.encode = b.encode) : a = b := by
  obtain ⟨_, ha⟩ := decode_encode a [] []
  obtain ⟨_, hb⟩ := decode_encode b [] []
  rw [h, hb] at ha
  cases ha
  rfl

/-- Every string of the right length is some hop's data. -/
theorem exists_encode (bs : List UInt8) (h : bs.length = hopDataSize) :
    ∃ hd : HopData, hd.encode = bs := by
  have hlen : bs.length = 65 := h
  refine ⟨⟨⟨bs.take 1, ?_⟩, ⟨(bs.drop 1).take 8, ?_⟩, UInt64.ofNat (beNat ((bs.drop 9).take 8)),
    UInt32.ofNat (beNat ((bs.drop 17).take 4)), ⟨(bs.drop 21).take 12, ?_⟩, ⟨bs.drop 33, ?_⟩⟩, ?_⟩
  · simp [hlen, realmByteSize]
  · simp [hlen, addressSize]
  · simp [hlen, numPaddingBytes]
  · simp [hlen, hmacSize]
  · have hamt : beBytes amtForwardSize (UInt64.ofNat (beNat ((bs.drop 9).take 8))).toNat =
        (bs.drop 9).take 8 := by
      have hw : ((bs.drop 9).take 8).length = amtForwardSize := by simp [hlen, amtForwardSize]
      have hlt := beNat_lt ((bs.drop 9).take 8)
      rw [hw] at hlt
      rw [UInt64.toNat_ofNat_of_lt' hlt, ← hw, beBytes_beNat]
    have hcltv : beBytes outgoingCLTVSize (UInt32.ofNat (beNat ((bs.drop 17).take 4))).toNat =
        (bs.drop 17).take 4 := by
      have hw : ((bs.drop 17).take 4).length = outgoingCLTVSize := by simp [hlen, outgoingCLTVSize]
      have hlt := beNat_lt ((bs.drop 17).take 4)
      rw [hw] at hlt
      rw [UInt32.toNat_ofNat_of_lt' hlt, ← hw, beBytes_beNat]
    have hjoin : ∀ k m l : Nat, k + m = l → (bs.drop k).take m ++ bs.drop l = bs.drop k := by
      rintro k m _ rfl
      rw [← List.drop_drop, List.take_append_drop]
    simp only [encode, hamt, hcltv]
    show bs.take 1 ++ ((bs.drop 1).take 8 ++ ((bs.drop 9).take 8 ++ ((bs.drop 17).take 4 ++
      ((bs.drop 21).take 12 ++ bs.drop 33)))) = bs
    rw [hjoin 21 12 33 rfl, hjoin 17 4 21 rfl, hjoin 9 8 17 rfl, hjoin 1 8 9 rfl,
      List.take_append_drop]

/-- **Parsing never fails on enough bytes**: the front decodes, whatever it holds. -/
theorem decode_of_le (data : List UInt8) (cuts : List Nat) (h : hopDataSize ≤ data.length) :
    ∃ hd cuts', hd.encode = data.take hopDataSize ∧
      decode ⟨data, cuts⟩ = .ok (hd, ⟨data.drop hopDataSize, cuts'⟩) := by
  obtain ⟨hd, hhd⟩ := exists_encode (data.take hopDataSize) (by rw [List.length_take]; omega)
  obtain ⟨cuts', hdec⟩ := decode_encode hd (data.drop hopDataSize) cuts
  refine ⟨hd, cuts', hhd, ?_⟩
  rw [hhd, List.take_append_drop] at hdec
  exact hdec

end HopData

end LightningOnion
