import LightningOnion.Failure.CircuitBuffers

/-! Circuits that arrive in pieces.

A read of the session key or of a path key may deliver less than the field. As long as
it does so only where the stream ends, the buffers are those of a reader that fills them
(`delivered_unbroken`). A complete record that is cut elsewhere is decoded right only by
accident: what the read left out were zeroes, and nothing is read behind them
(`decode_complete`). -/
namespace LightningOnion
open Lib

namespace Circuit
variable (P : Primitives) {K : Type} (F : PrivateKeyFormat K)

/-! ### A reader that cuts the stream -/

/-- The number of the read that the first key of the path comes from: for an empty
session key none is made. -/
def firstKeyRead (keyLength : UInt8) : Nat := if keyLength = 0 then 2 else 3

/-- Every read of the session key or of a path key delivers all of the field, or all that
is left of the stream. -/
def Unbroken (cuts : List Nat) : List UInt8 → Prop
  | [] => True
  | keyLength :: rest =>
    min keyLength.toNat rest.length ≤ Reader.quota cuts 1 keyLength.toNat ∧
    ∀ i, i < (rest.getD keyLength.toNat 0).toNat →
      min 33 (rest.length - (keyLength.toNat + 1) - 33 * i) ≤
        Reader.quota cuts (firstKeyRead keyLength + i) 33

theorem deliveredPath_unbroken {n : Nat} {data : List UInt8} {cuts : List Nat}
    (h : ∀ i, i < n → min 33 (data.length - 33 * i) ≤ Reader.quota cuts i 33) :
    deliveredPath n ⟨data, cuts⟩ = deliveredPath n (.ofBytes data) := by
  induction n generalizing data cuts with
  | zero => rfl
  | succ n ih =>
    rw [deliveredPath, deliveredPath, Reader.readOnce_uncut cuts (by decide) (h 0 (Nat.succ_pos n))]
    by_cases hd : data = []
    · subst hd
      rfl
    · have hread := Reader.readOnce_eq (r := .ofBytes data) (n := 33) (by decide) hd
      rw [hread]
      show _ ++ deliveredPath n ⟨data.drop (min 33 data.length), cuts.tail⟩ =
        _ ++ deliveredPath n (.ofBytes (data.drop (min 33 data.length)))
      rw [ih fun i hi => ?_]
      have hnext := h (i + 1) (Nat.succ_lt_succ hi)
      rw [Reader.quota_tail, List.length_drop]
      omega

/-- A session key that is read whole, and what is left of the cuts for the path. -/
theorem readOnce_sessionKey {keyLength : UInt8} {key : List UInt8} (hkey : key.length = keyLength.toNat)
    (rest : List UInt8) (cuts : List Nat) (hquota : Reader.quota cuts 1 keyLength.toNat = keyLength.toNat) :
    ∃ cuts', Reader.readOnce ⟨key ++ rest, cuts.tail⟩ keyLength.toNat = some (key, ⟨rest, cuts'⟩) ∧
      ∀ i, Reader.quota cuts'.tail i 33 = Reader.quota cuts (firstKeyRead keyLength + i) 33 := by
  by_cases hzero : keyLength = 0
  · subst hzero
    obtain rfl := List.eq_nil_of_length_eq_zero hkey
    refine ⟨cuts.tail, rfl, fun i => ?_⟩
    rw [Reader.quota_tail, Reader.quota_tail, firstKeyRead, if_pos rfl, Nat.add_comm 2]
  · have hne : key ≠ [] := by
      rintro rfl
      exact hzero (UInt8.toNat_inj.mp hkey.symm)
    rw [← hkey, ← Reader.quota_tail] at hquota
    refine ⟨cuts.tail.tail, hkey ▸ Reader.readOnce_front hne hquota rest, fun i => ?_⟩
    rw [Reader.quota_tail, Reader.quota_tail, Reader.quota_tail, firstKeyRead, if_neg hzero,
      Nat.add_comm 3]

/-- Then the buffers are those of a reader that fills them. -/
theorem delivered_unbroken {data : List UInt8} {cuts : List Nat} (h : Unbroken cuts data) :
    delivered ⟨data, cuts⟩ = delivered (.ofBytes data) := by
  cases data with
  | nil => rfl
  | cons keyLength rest =>
    obtain ⟨hquota, hpath⟩ := h
    have hle := Reader.quota_le cuts 1 keyLength.toNat
    by_cases hhead : keyLength.toNat < rest.length
    · obtain ⟨key, count, path, rfl, hkey⟩ := split_record hhead
      obtain ⟨cuts', hread, hcuts⟩ := readOnce_sessionKey hkey (count :: path) cuts (by omega)
      rw [getD_count hkey] at hpath
      have hbuffers : deliveredPath count.toNat ⟨path, cuts'.tail⟩ =
          deliveredPath count.toNat (.ofBytes path) := by
        refine deliveredPath_unbroken fun i hi => ?_
        have := hpath i hi
        rw [hcuts]
        rw [List.length_append, List.length_cons] at this
        omega
      rw [delivered_append hkey]
      simp only [delivered, Reader.readOnce_one, hread, List.headD_cons, List.cons_append,
        List.nil_append, hbuffers]
    · -- The count is not there, however the stream is cut.
      have hnil : ∀ cuts, Reader.readOnce ⟨[], cuts⟩ 1 = none := fun cuts =>
        Reader.readOnce_nil cuts Nat.one_ne_zero
      by_cases hzero : keyLength.toNat = 0
      · obtain rfl : rest = [] := List.eq_nil_of_length_eq_zero (by omega)
        have hnone : ∀ r : Reader, r.readOnce keyLength.toNat = some ([], r) := fun r => hzero ▸ rfl
        simp only [delivered, Reader.readOnce_one, Reader.readOnce_cons, List.headD_cons, hnone, hnil]
        rfl
      · by_cases hempty : rest = []
        · subst hempty
          simp only [delivered, Reader.readOnce_one, List.headD_cons, Reader.readOnce_nil _ hzero,
            Reader.ofBytes]
        · have hfill := Reader.readOnce_of_ge hempty (Nat.le_of_not_lt hhead)
          have huncut := Reader.readOnce_uncut cuts.tail hzero
            (by rw [Reader.quota_tail]; exact hquota)
          rw [hfill] at huncut
          have hnil' : Reader.readOnce (.ofBytes []) 1 = none := hnil []
          simp only [delivered, Reader.readOnce_one, Reader.readOnce_cons, List.headD_cons, huncut,
            hfill, Option.map_some, hnil']
          rfl

/-! ### A complete record, cut anywhere -/

/-- What is known of the curve package: no two strings of one length are one private key,
and of 33 bytes no two are one public key, nor any that begin with a zero. -/
structure Strict : Prop where
  privKey : ∀ a b, a.length = b.length → F.privKeyFromBytes a = F.privKeyFromBytes b → a = b
  pubKey : ∀ a b k, a.length = 33 → b.length = 33 → P.parsePubKey a = some k →
    P.parsePubKey b = some k → a = b
  zero : ∀ bytes, P.parsePubKey (0 :: bytes) = none

/-- The bytes of `field` that a read leaves out are zeroes. -/
def LeavesZeroes (field : List UInt8) (delivers : Nat) : Prop := ∀ b ∈ field.drop delivers, b = 0

theorem leavesZeroes_iff (field : List UInt8) (d : Nat) :
    LeavesZeroes field d ↔ field.take d ++ List.replicate (field.length - d) 0 = field := by
  constructor
  · intro h
    have hzeroes : List.replicate (field.length - d) 0 = field.drop d := by
      rw [← List.length_drop]
      exact (List.eq_replicate_of_mem h).symm
    rw [hzeroes, List.take_append_drop]
  · intro h b hb
    have htail : List.replicate (field.length - d) 0 = field.drop d :=
      List.append_cancel_left (h.trans (List.take_append_drop d field).symm)
    rw [← htail] at hb
    exact List.eq_of_mem_replicate hb

/-- The cuts change nothing: what they leave out of a field are zeroes, and behind it no
further field is read. -/
structure Harmless (cuts : List Nat) (keyLength : UInt8) (key : List UInt8) (count : UInt8)
    (path : List UInt8) : Prop where
  sessionKey : LeavesZeroes key (Reader.quota cuts 1 keyLength.toNat)
  noPath : Reader.quota cuts 1 keyLength.toNat < keyLength.toNat → count = 0
  pathKey : ∀ i, i < count.toNat → LeavesZeroes ((path.drop (33 * i)).take 33)
    (Reader.quota cuts (firstKeyRead keyLength + i) 33)
  last : ∀ i, i < count.toNat → Reader.quota cuts (firstKeyRead keyLength + i) 33 < 33 →
    i + 1 = count.toNat

section Complete
variable {P F}

theorem decode_reads {r r₁ r₂ r₃ : Reader} {keyLength count : UInt8} {key : List UInt8}
    (h₁ : r.readOnce 1 = some ([keyLength], r₁)) (h₂ : r₁.readOnce keyLength.toNat = some (key, r₂))
    (h₃ : r₂.readOnce 1 = some ([count], r₃)) {sessionKey : K} {path : List PublicKey} :
    (∃ r', decode P F r = .ok (⟨sessionKey, path⟩, r')) ↔
      F.privKeyFromBytes key = sessionKey ∧ ∃ r', readPath P count.toNat r₃ = .ok (path, r') := by
  rw [decode, h₁]
  simp only [List.headD_cons, h₂, h₃]
  cases readPath P count.toNat r₃ with
  | error e => simp
  | ok out =>
    obtain ⟨path', r'⟩ := out
    simp

theorem spellPath_succ {n : Nat} {path : List UInt8} {keys : List PublicKey} :
    spellPath P (n + 1) path = some keys ↔ 33 ≤ path.length ∧ ∃ pubKey keys',
      P.parsePubKey (path.take 33) = some pubKey ∧ spellPath P n (path.drop 33) = some keys' ∧
        pubKey :: keys' = keys := by
  rw [spellPath]
  by_cases hlen : 33 ≤ path.length
  · rw [if_pos hlen]
    cases P.parsePubKey (path.take 33) <;> simp [hlen]
  · rw [if_neg hlen]
    simp [hlen]

theorem readPath_succ_iff {n : Nat} {r r' : Reader} {buf : List UInt8}
    (hread : r.readOnce 33 = some (buf, r')) {pubKey : PublicKey} {keys : List PublicKey} :
    (∃ r'', readPath P (n + 1) r = .ok (pubKey :: keys, r'')) ↔
      P.parsePubKey buf = some pubKey ∧ ∃ r'', readPath P n r' = .ok (keys, r'') := by
  rw [readPath, hread]
  simp only
  cases P.parsePubKey buf with
  | none => simp
  | some k =>
    cases readPath P n r' with
    | error e => simp
    | ok out =>
      obtain ⟨path, r''⟩ := out
      simp

/-- What the read left out is what the stream goes on with. -/
theorem drop_of_leavesZeroes {path : List UInt8} {n d : Nat} (hlen : n ≤ path.length) (hd : d < n)
    (h : LeavesZeroes (path.take n) d) : ∃ more, path.drop d = 0 :: more := by
  have hlt : d < path.length := by omega
  obtain ⟨k, hk⟩ : ∃ k, n - d = k + 1 := ⟨n - d - 1, by omega⟩
  have hsplit := List.drop_eq_getElem_cons hlt
  have hfirst : path[d] = 0 := by
    refine h _ ?_
    rw [List.drop_take, hsplit, hk, List.take_succ_cons]
    exact List.mem_cons_self ..
  exact ⟨path.drop (d + 1), by rw [hsplit, hfirst]⟩

variable (hS : Strict P F)
include hS

theorem readPath_zero (n : Nat) (more : List UInt8) (cuts : List Nat) (keys : List PublicKey)
    (r : Reader) : readPath P (n + 1) ⟨0 :: more, cuts⟩ ≠ .ok (keys, r) := by
  obtain ⟨buf, hread⟩ : ∃ buf, ∃ r', Reader.readOnce ⟨0 :: more, cuts⟩ 33 = some (0 :: buf, r') := by
    have hne : (0 :: more : List UInt8) ≠ [] := List.cons_ne_nil 0 more
    have hpos := Reader.delivers_pos ⟨0 :: more, cuts⟩ 33 (by decide) hne
    obtain ⟨d, hd⟩ := Nat.exists_eq_succ_of_ne_zero (Nat.ne_of_gt hpos)
    rw [Reader.readOnce_eq (by decide) hne, hd]
    exact ⟨_, _, rfl⟩
  obtain ⟨r', hread⟩ := hread
  rw [readPath, hread]
  simp [hS.zero]

/-- A complete path is read right exactly if the cuts leave out zeroes, of its last key. -/
theorem readPath_complete {n : Nat} {path : List UInt8} {keys : List PublicKey}
    (hspell : spellPath P n path = some keys) (cuts : List Nat) :
    (∃ r, readPath P n ⟨path, cuts⟩ = .ok (keys, r)) ↔
      ∀ i, i < n → LeavesZeroes ((path.drop (33 * i)).take 33) (Reader.quota cuts i 33) ∧
        (Reader.quota cuts i 33 < 33 → i + 1 = n) := by
  induction n generalizing path keys cuts with
  | zero =>
    cases hspell
    exact ⟨fun _ i hi => absurd hi (Nat.not_lt_zero i), fun _ => ⟨_, rfl⟩⟩
  | succ n ih =>
    obtain ⟨hlen, pubKey, keys', hparse, hrest, rfl⟩ := spellPath_succ.mp hspell
    have htake : (path.take 33).length = 33 := List.length_take_of_le hlen
    have hle := Reader.quota_le cuts 0 33
    have hread := Reader.readOnce_cut cuts (by decide) hlen
    have hbuffer : path.take (Reader.quota cuts 0 33) =
        (path.take 33).take (Reader.quota cuts 0 33) := by
      rw [List.take_take, Nat.min_eq_left hle]
    rw [readPath_succ_iff hread, Nat.forall_lt_succ_left, Nat.mul_zero, List.drop_zero, hbuffer]
    have hzeroes := leavesZeroes_iff (path.take 33) (Reader.quota cuts 0 33)
    rw [htake] at hzeroes
    by_cases hcut : Reader.quota cuts 0 33 < 33
    · constructor
      · rintro ⟨hbuf, r, hpath⟩
        have hfield := hS.pubKey _ _ pubKey (by simp; omega) htake hbuf hparse
        have hleft := hzeroes.mpr hfield
        -- The next key would be read from the zeroes on.
        have hn : n = 0 := by
          by_contra hpos
          obtain ⟨m, rfl⟩ := Nat.exists_eq_succ_of_ne_zero hpos
          obtain ⟨more, hmore⟩ := drop_of_leavesZeroes hlen hcut hleft
          rw [hmore] at hpath
          exact readPath_zero hS m more cuts.tail keys' r hpath
        subst hn
        exact ⟨⟨hleft, fun _ => rfl⟩, fun m hm => absurd hm (Nat.not_lt_zero m)⟩
      · rintro ⟨⟨hleft, hlast⟩, -⟩
        obtain rfl : n = 0 := by
          have := hlast hcut
          omega
        rw [hzeroes.mp hleft]
        cases hrest
        exact ⟨hparse, _, rfl⟩
    · have hall : Reader.quota cuts 0 33 = 33 := by omega
      have hleft : LeavesZeroes (path.take 33) (Reader.quota cuts 0 33) := by
        intro b hb
        rw [hall, List.drop_eq_nil_of_le (Nat.le_of_eq htake)] at hb
        cases hb
      rw [hzeroes.mp hleft, and_iff_right hparse, and_iff_right ⟨hleft, fun h => absurd h hcut⟩, hall,
        ih hrest cuts.tail]
      refine forall_congr' fun m => forall_congr' fun _ => ?_
      rw [Reader.quota_tail, List.drop_drop, Nat.mul_succ, Nat.add_comm (33 * m), Nat.succ_inj]

theorem decode_complete {keyLength count : UInt8} {key path : List UInt8} {keys : List PublicKey}
    (hkey : key.length = keyLength.toNat) (hspell : spellPath P count.toNat path = some keys)
    (cuts : List Nat) :
    (∃ r, decode P F ⟨keyLength :: (key ++ count :: path), cuts⟩ =
        .ok (⟨F.privKeyFromBytes key, keys⟩, r)) ↔ Harmless cuts keyLength key count path := by
  have h₁ := Reader.readOnce_one keyLength (key ++ count :: path) cuts
  have hle := Reader.quota_le cuts 1 keyLength.toNat
  by_cases hcut : Reader.quota cuts 1 keyLength.toNat < keyLength.toNat
  · have hlen : keyLength.toNat ≤ (key ++ count :: path).length := by
      rw [List.length_append]
      omega
    have h₂ := Reader.readOnce_cut cuts.tail (by omega) hlen
    have hquota : Reader.quota cuts.tail 0 keyLength.toNat = Reader.quota cuts 1 keyLength.toNat :=
      Reader.quota_tail cuts 0 _
    rw [hquota, List.take_append_of_le_length (by omega)] at h₂
    have hzeroes := leavesZeroes_iff key (Reader.quota cuts 1 keyLength.toNat)
    rw [hkey] at hzeroes
    obtain ⟨b, more, hdrop⟩ : ∃ b more,
        (key ++ count :: path).drop (Reader.quota cuts 1 keyLength.toNat) = b :: more :=
      ⟨_, _, List.drop_eq_getElem_cons (by omega)⟩
    -- The count is read from the zeroes on.
    have hzero : LeavesZeroes key (Reader.quota cuts 1 keyLength.toNat) → b = 0 := by
      intro hleft
      have hfront : (key ++ count :: path).take keyLength.toNat = key := List.take_left' hkey
      rw [← hfront] at hleft
      obtain ⟨more', hmore⟩ := drop_of_leavesZeroes hlen hcut hleft
      exact (List.cons.inj (hdrop.symm.trans hmore)).1
    rw [hdrop] at h₂
    rw [decode_reads h₁ h₂ (Reader.readOnce_one b more _)]
    constructor
    · rintro ⟨hF, r, hpath⟩
      have hleft := hzeroes.mpr (hS.privKey _ key (by simp; omega) hF)
      rw [hzero hleft] at hpath
      cases hpath
      have hcount : count.toNat = 0 := by
        by_contra hpos
        obtain ⟨n, hn⟩ := Nat.exists_eq_succ_of_ne_zero hpos
        rw [hn] at hspell
        obtain ⟨-, _, _, -, -, hcons⟩ := spellPath_succ.mp hspell
        cases hcons
      exact ⟨hleft, fun _ => UInt8.toNat_inj.mp hcount, fun i hi => absurd hi (by omega),
        fun i hi => absurd hi (by omega)⟩
    · intro h
      obtain rfl := h.noPath hcut
      cases hspell
      rw [hzeroes.mp h.sessionKey, hzero h.sessionKey]
      exact ⟨rfl, _, rfl⟩
  · obtain ⟨cuts', h₂, hcuts⟩ := readOnce_sessionKey hkey (count :: path) cuts (by omega)
    rw [decode_reads h₁ h₂ (Reader.readOnce_one count path cuts'), and_iff_right rfl,
      readPath_complete hS hspell]
    simp only [hcuts]
    constructor
    · intro h
      refine ⟨fun b hb => ?_, fun hlt => absurd hlt hcut, fun i hi => (h i hi).1, fun i hi => (h i hi).2⟩
      rw [List.drop_eq_nil_of_le (by omega)] at hb
      cases hb
    · exact fun h i hi => ⟨h.pathKey i hi, h.last i hi⟩

end Complete

theorem meets_of_spells {data : List UInt8} {c : Circuit K} (h : spells P F data = some c)
    (cuts : List Nat) : Meets P F data cuts ↔ ∃ r, decode P F ⟨data, cuts⟩ = .ok (c, r) := by
  constructor
  · exact fun hmeets => (hmeets c).mpr h
  · rintro ⟨r, hdecode⟩ c'
    rw [h, hdecode]
    simp

theorem scalarFormat_strict : Strict strictPrimitives scalarFormat where
  privKey := fun a b hlen heq => by
    have heq : beNat a = beNat b := heq
    rw [← beBytes_beNat a, ← beBytes_beNat b, hlen, heq]
  pubKey := fun a b k ha hb hka hkb => by
    rw [← strict_keyCodec.serialize_parse a k ha hka, strict_keyCodec.serialize_parse b k hb hkb]
  zero := fun bytes => if_neg fun h => by cases h.2

/-- A session key that ends in a zero, and no path. -/
def emptyCircuit : Circuit Nat := ⟨256, []⟩

end Circuit

end LightningOnion
