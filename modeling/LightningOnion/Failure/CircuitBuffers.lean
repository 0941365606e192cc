import LightningOnion.Failure.CircuitCodec

/-! What decoding a circuit makes of a stream.

`spells` is the record format: the circuit that a byte string begins with, if it is
complete. `delivered` are the buffers as the reads of `decode` leave them, with zeroes
for what a read left out. A circuit is decoded exactly if the buffers spell one
(`decode_iff`), which need not be what the stream spells. From a reader that fills its
buffers as far as the stream goes, they differ in one case only: the stream ends inside
the last key (`spells_delivered_ofBytes`). -/
namespace LightningOnion
open Lib

namespace Circuit
variable (P : Primitives) {K : Type} (F : PrivateKeyFormat K)

/-! ### The record format -/

/-- The keys that the first `33 * n` bytes spell. -/
def spellPath : (n : Nat) → List UInt8 → Option (List PublicKey)
  | 0, _ => some []
  | n + 1, data =>
    if 33 ≤ data.length then
      match P.parsePubKey (data.take 33) with
      | none => none
      | some pubKey => (spellPath n (data.drop 33)).map (pubKey :: ·)
    else none

/-- The circuit a byte string begins with, if that is complete. -/
def spells : List UInt8 → Option (Circuit K)
  | [] => none
  | keyLength :: rest =>
    if keyLength.toNat < rest.length then
      (spellPath P (rest.getD keyLength.toNat 0).toNat (rest.drop (keyLength.toNat + 1))).map
        fun path => ⟨F.privKeyFromBytes (rest.take keyLength.toNat), path⟩
    else none

theorem spellPath_append (n : Nat) {key : List UInt8} (hkey : key.length = 33) (rest : List UInt8) :
    spellPath P (n + 1) (key ++ rest) =
      match P.parsePubKey key with
      | none => none
      | some pubKey => (spellPath P n rest).map (pubKey :: ·) := by
  rw [spellPath, if_pos (by rw [List.length_append]; omega), List.take_left' hkey,
    List.drop_left' hkey]

theorem getD_count {key : List UInt8} {n : Nat} (hkey : key.length = n) {count : UInt8}
    {rest : List UInt8} : (key ++ count :: rest).getD n 0 = count := by
  rw [← hkey, List.getD_eq_getElem?_getD, List.getElem?_append_right (Nat.le_refl _), Nat.sub_self]
  rfl

/-- The bytes behind the length byte, if there are enough for a count. -/
theorem split_record {rest : List UInt8} {n : Nat} (h : n < rest.length) :
    ∃ key count path, rest = key ++ count :: path ∧ key.length = n := by
  refine ⟨rest.take n, rest.get ⟨n, h⟩, rest.drop (n + 1), ?_, by rw [List.length_take]; omega⟩
  rw [List.get_eq_getElem, ← List.drop_eq_getElem_cons h, List.take_append_drop]

theorem spells_append {keyLength : UInt8} {key : List UInt8}
    (hkey : key.length = keyLength.toNat) (count : UInt8) (rest : List UInt8) :
    spells P F (keyLength :: (key ++ count :: rest)) =
      (spellPath P count.toNat rest).map fun path => ⟨F.privKeyFromBytes key, path⟩ := by
  have hrest : (key ++ count :: rest).drop (keyLength.toNat + 1) = rest := by
    rw [← hkey, List.drop_length_add_append]
    rfl
  rw [spells, if_pos (by rw [List.length_append, List.length_cons]; omega), getD_count hkey, hrest,
    List.take_left' hkey]

theorem spells_short {keyLength : UInt8} {rest : List UInt8} (h : rest.length ≤ keyLength.toNat) :
    spells P F (keyLength :: rest) = none := by
  rw [spells, if_neg (by omega)]

/-! ### The buffers -/

/-- The buffers of `n` reads of a key, one after the other, as far as there are any. -/
def deliveredPath : (n : Nat) → Reader → List UInt8
  | 0, _ => []
  | n + 1, r =>
    match r.readOnce 33 with
    | none => []
    | some (pubKeyData, r') => pubKeyData ++ deliveredPath n r'

/-- The buffers of all reads of a record: the bytes that were delivered, with zeroes
for what each read left out. -/
def delivered (r : Reader) : List UInt8 :=
  match r.readOnce 1 with
  | none => []
  | some (keyLength, r₁) =>
    keyLength ++ match r₁.readOnce (keyLength.headD 0).toNat with
      | none => []
      | some (sessionKeyData, r₂) =>
        sessionKeyData ++ match r₂.readOnce 1 with
          | none => []
          | some (pathLength, r₃) => pathLength ++ deliveredPath (pathLength.headD 0).toNat r₃

theorem readPath_iff (n : Nat) (r : Reader) (path : List PublicKey) :
    (∃ r', readPath P n r = .ok (path, r')) ↔ spellPath P n (deliveredPath n r) = some path := by
  induction n generalizing r path with
  | zero => simp [readPath, spellPath, eq_comm]
  | succ n ih =>
    rw [readPath, deliveredPath]
    cases hread : r.readOnce 33 with
    | none => simp [spellPath]
    | some out =>
      obtain ⟨pubKeyData, r'⟩ := out
      simp only
      rw [spellPath_append P n (Reader.length_of_readOnce hread).1]
      cases P.parsePubKey pubKeyData with
      | none => simp
      | some pubKey =>
        simp only [Option.map_eq_some_iff]
        constructor
        · rintro ⟨r'', h⟩
          split at h
          · cases h
          · rename_i path' r₁ hrest
            cases h
            exact ⟨path', (ih r' path').mp ⟨r'', hrest⟩, rfl⟩
        · rintro ⟨path', hpath, rfl⟩
          obtain ⟨r'', hrest⟩ := (ih r' path').mpr hpath
          exact ⟨r'', by rw [hrest]⟩

/-- **A circuit is decoded exactly if the buffers spell one**, and is then that one. -/
theorem decode_iff (r : Reader) (c : Circuit K) :
    (∃ r', decode P F r = .ok (c, r')) ↔ spells P F (delivered r) = some c := by
  rw [decode, delivered]
  cases h₁ : r.readOnce 1 with
  | none => simp [spells]
  | some out =>
    obtain ⟨buf₁, r₁⟩ := out
    obtain ⟨keyLength, rfl⟩ := List.length_eq_one_iff.mp (Reader.length_of_readOnce h₁).1
    simp only [List.headD_cons, List.cons_append, List.nil_append]
    cases h₂ : r₁.readOnce keyLength.toNat with
    | none => simp [spells]
    | some out =>
      obtain ⟨sessionKeyData, r₂⟩ := out
      have hkey := (Reader.length_of_readOnce h₂).1
      simp only
      cases h₃ : r₂.readOnce 1 with
      | none =>
        simp only
        rw [List.append_nil, spells_short P F (Nat.le_of_eq hkey)]
        simp
      | some out =>
        obtain ⟨buf₃, r₃⟩ := out
        obtain ⟨count, rfl⟩ := List.length_eq_one_iff.mp (Reader.length_of_readOnce h₃).1
        simp only [List.headD_cons, List.cons_append, List.nil_append]
        rw [spells_append P F hkey, Option.map_eq_some_iff]
        constructor
        · intro ⟨r', h⟩
          split at h
          · cases h
          · rename_i path r₄ hpath
            cases h
            exact ⟨path, (readPath_iff P _ r₃ path).mp ⟨_, hpath⟩, rfl⟩
        · intro ⟨path, hpath, hc⟩
          obtain ⟨r', hread⟩ := (readPath_iff P _ r₃ path).mpr hpath
          exact ⟨r', by rw [hread, ← hc]⟩

/-! ### When the buffers spell what the stream does -/

/-- Decoding does what it should on this stream, delivered in this way: it succeeds
exactly if the stream begins with a complete record, with the circuit that spells. -/
def Meets (data : List UInt8) (cuts : List Nat) : Prop :=
  ∀ c, (∃ r, decode P F ⟨data, cuts⟩ = .ok (c, r)) ↔ spells P F data = some c

theorem meets_iff (data : List UInt8) (cuts : List Nat) :
    Meets P F data cuts ↔ spells P F (delivered ⟨data, cuts⟩) = spells P F data := by
  simp only [Meets, decode_iff]
  exact ⟨fun h => Option.ext h, fun h c => by rw [h]⟩

theorem spellPath_short {n : Nat} {data : List UInt8} (h : data.length < 33 * n) :
    spellPath P n data = none := by
  induction n generalizing data with
  | zero => omega
  | succ n ih =>
    rw [spellPath]
    split
    · rw [ih (by rw [List.length_drop]; omega)]
      split <;> rfl
    · rfl

theorem spellPath_take {n : Nat} {data : List UInt8} (h : 33 * n ≤ data.length) (more : List UInt8) :
    spellPath P n (data ++ more) = spellPath P n data := by
  induction n generalizing data with
  | zero => rfl
  | succ n ih =>
    rw [spellPath, spellPath, if_pos (by rw [List.length_append]; omega), if_pos (by omega),
      List.take_append_of_le_length (by omega), List.drop_append_of_le_length (by omega),
      ih (by rw [List.length_drop]; omega)]

/-! ### A reader that fills every buffer it can -/

theorem deliveredPath_of_le {n : Nat} {data : List UInt8} (h : 33 * n ≤ data.length) :
    deliveredPath n (.ofBytes data) = data.take (33 * n) := by
  induction n generalizing data with
  | zero => rfl
  | succ n ih =>
    rw [deliveredPath, Reader.readOnce_of_le data (by omega)]
    simp only
    rw [ih (by rw [List.length_drop]; omega), ← List.take_add]
    congr 1
    omega

/-- Cut inside the last key, the buffers are the stream and zeroes. -/
theorem deliveredPath_cut {n : Nat} {data : List UInt8} (h : data.length < 33 * n)
    (hlast : 33 * n < data.length + 33) :
    deliveredPath n (.ofBytes data) = data ++ List.replicate (33 * n - data.length) 0 := by
  induction n generalizing data with
  | zero => omega
  | succ n ih =>
    rw [deliveredPath]
    by_cases hfull : 33 ≤ data.length
    · rw [Reader.readOnce_of_le data hfull]
      simp only
      rw [ih (by rw [List.length_drop]; omega) (by rw [List.length_drop]; omega), ← List.append_assoc,
        List.take_append_drop, List.length_drop]
      congr 2
      omega
    · obtain rfl : n = 0 := by omega
      have hne : data ≠ [] := List.ne_nil_of_length_pos (by omega)
      rw [Reader.readOnce_of_ge hne (by omega)]
      simp only [deliveredPath, List.append_nil]

/-- Cut before it, there are too few of them. -/
theorem deliveredPath_short {n : Nat} {data : List UInt8} (h : data.length + 33 ≤ 33 * n) :
    (deliveredPath n (.ofBytes data)).length < 33 * n := by
  induction n generalizing data with
  | zero => omega
  | succ n ih =>
    rw [deliveredPath]
    by_cases hfull : 33 ≤ data.length
    · rw [Reader.readOnce_of_le data hfull]
      have hdrop : (data.drop 33).length + 33 ≤ 33 * n := by
        rw [List.length_drop]
        omega
      have hrest := ih hdrop
      simp only [List.length_append, List.length_take]
      omega
    · by_cases hnil : data = []
      · subst hnil
        rw [show Reader.readOnce (.ofBytes []) 33 = none from rfl]
        simp
      · have hpos : 0 < data.length := List.length_pos_iff.mpr hnil
        rw [Reader.readOnce_of_ge hnil (by omega)]
        obtain ⟨m, rfl⟩ : ∃ m, n = m + 1 := ⟨n - 1, by omega⟩
        have hend : deliveredPath (m + 1) (.ofBytes []) = [] := rfl
        simp only [hend, List.append_nil, List.length_append, List.length_replicate]
        omega

/-- The stream ends inside the last key of the record, after at least one byte of it,
and completed by zeroes all keys are accepted. -/
def CutInLastKey (data : List UInt8) : Prop :=
  ∃ (keyLength count : UInt8) (key path : List UInt8),
    data = keyLength :: (key ++ count :: path) ∧ key.length = keyLength.toNat ∧
    path.length < 33 * count.toNat ∧ 33 * count.toNat < path.length + 33 ∧
    ∃ keys, spellPath P count.toNat (path ++ List.replicate (33 * count.toNat - path.length) 0) =
      some keys

theorem delivered_append {keyLength count : UInt8} {key : List UInt8}
    (hkey : key.length = keyLength.toNat) (path : List UInt8) :
    delivered (.ofBytes (keyLength :: (key ++ count :: path))) =
      keyLength :: (key ++ count :: deliveredPath count.toNat (.ofBytes path)) := by
  simp only [delivered, Reader.readOnce_cons, Reader.readOnce_append hkey, List.headD_cons,
    List.cons_append, List.nil_append]

/-- Where it is not there, neither the buffers nor the stream spell a circuit. -/
theorem delivered_headless {keyLength : UInt8} {rest : List UInt8}
    (h : rest.length ≤ keyLength.toNat) :
    spells P F (delivered (.ofBytes (keyLength :: rest))) = none := by
  have h₁ := Reader.readOnce_cons keyLength rest
  have hnil : Reader.readOnce (.ofBytes []) 1 = none := rfl
  by_cases hempty : rest = []
  · subst hempty
    by_cases hzero : keyLength.toNat = 0
    · have h₂ : Reader.readOnce (.ofBytes []) keyLength.toNat = some ([], .ofBytes []) := hzero ▸ rfl
      simp only [delivered, h₁, List.headD_cons, h₂, hnil, List.append_nil]
      exact spells_short P F (Nat.zero_le _)
    · have h₂ : Reader.readOnce (.ofBytes []) keyLength.toNat = none := Reader.readOnce_nil [] hzero
      simp only [delivered, h₁, List.headD_cons, h₂, List.append_nil]
      exact spells_short P F (Nat.zero_le _)
  · have h₂ := Reader.readOnce_of_ge hempty h
    simp only [delivered, h₁, List.headD_cons, h₂, hnil, List.append_nil, List.cons_append,
      List.nil_append]
    refine spells_short P F ?_
    rw [List.length_append, List.length_replicate]
    omega

/-- A path is cut inside its last key, and completed by zeroes all keys are accepted. -/
theorem cutInLastKey_append {keyLength count : UInt8} {key : List UInt8}
    (hkey : key.length = keyLength.toNat) (path : List UInt8) :
    CutInLastKey P (keyLength :: (key ++ count :: path)) ↔
      path.length < 33 * count.toNat ∧ 33 * count.toNat < path.length + 33 ∧ ∃ keys,
        spellPath P count.toNat (path ++ List.replicate (33 * count.toNat - path.length) 0) =
          some keys := by
  constructor
  · intro ⟨keyLength', count', key', path', hdata, hkey', h⟩
    obtain ⟨rfl, hrest⟩ := List.cons.inj hdata
    obtain ⟨rfl, htail⟩ := List.append_inj hrest (hkey.trans hkey'.symm)
    cases htail
    exact h
  · intro h
    exact ⟨keyLength, count, key, path, rfl, hkey, h⟩

theorem not_cutInLastKey_headless {keyLength : UInt8} {rest : List UInt8}
    (h : rest.length ≤ keyLength.toNat) : ¬ CutInLastKey P (keyLength :: rest) := by
  intro ⟨keyLength', count, key, path, hdata, hkey, _⟩
  cases hdata
  simp only [List.length_append, List.length_cons] at h
  omega

/-- The buffers of the path spell what the path does, unless it is cut inside its last
key and the zeroes go unnoticed. -/
theorem spellPath_deliveredPath (n : Nat) (path : List UInt8) :
    spellPath P n (deliveredPath n (.ofBytes path)) = spellPath P n path ↔
      ¬ (path.length < 33 * n ∧ 33 * n < path.length + 33 ∧
        ∃ keys, spellPath P n (path ++ List.replicate (33 * n - path.length) 0) = some keys) := by
  by_cases hall : 33 * n ≤ path.length
  · have hlen : 33 * n ≤ (path.take (33 * n)).length := by
      rw [List.length_take]
      omega
    have hsame := spellPath_take P hlen (path.drop (33 * n))
    rw [List.take_append_drop] at hsame
    rw [deliveredPath_of_le hall, hsame]
    exact ⟨fun _ h => by omega, fun _ => rfl⟩
  · have hshort : path.length < 33 * n := Nat.lt_of_not_le hall
    rw [spellPath_short P hshort]
    by_cases hlast : 33 * n < path.length + 33
    · rw [deliveredPath_cut hshort hlast]
      simp [hshort, hlast, Option.eq_none_iff_forall_ne_some]
    · rw [spellPath_short P (deliveredPath_short (Nat.le_of_not_lt hlast))]
      exact ⟨fun _ h => hlast h.2.1, fun _ => rfl⟩

/-- Read that way, only a stream cut inside the last key is misread. -/
theorem spells_delivered_ofBytes (data : List UInt8) :
    spells P F (delivered (.ofBytes data)) = spells P F data ↔ ¬ CutInLastKey P data := by
  cases data with
  | nil =>
    refine ⟨fun _ hcut => ?_, fun _ => rfl⟩
    obtain ⟨keyLength, count, key, path, hdata, -⟩ := hcut
    cases hdata
  | cons keyLength rest =>
    by_cases hhead : rest.length ≤ keyLength.toNat
    · rw [delivered_headless P F hhead, spells_short P F hhead]
      exact ⟨fun _ => not_cutInLastKey_headless P hhead, fun _ => rfl⟩
    · have hlt : keyLength.toNat < rest.length := Nat.lt_of_not_le hhead
      obtain ⟨key, count, path, rfl, hkey⟩ := split_record hlt
      rw [delivered_append hkey, spells_append P F hkey, spells_append P F hkey,
        cutInLastKey_append P hkey, ← spellPath_deliveredPath]
      have hinj : Function.Injective fun keys : List PublicKey =>
          (⟨F.privKeyFromBytes key, keys⟩ : Circuit K) :=
        fun _ _ h => congrArg paymentPath h
      exact (Option.map_injective hinj).eq_iff

end Circuit

end LightningOnion
