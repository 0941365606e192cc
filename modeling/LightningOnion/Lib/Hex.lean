import Mathlib.Data.List.Basic

/-! Text as bytes: hexadecimal, and white space.

A byte is written as two lower-case digits. Reading takes either case, and gives what it
could read together with the first thing wrong: a byte that is no digit, or a digit that
is left over. White space is Unicode's, in UTF-8. -/
namespace LightningOnion.Lib

/-- The bytes of a text in ASCII. -/
def ascii (text : String) : List UInt8 := text.toList.map fun c => UInt8.ofNat c.toNat

/-! ### Hexadecimal -/

def hexDigit (n : Nat) : UInt8 := UInt8.ofNat (if n < 10 then 48 + n else 87 + n)

def hexEncode (bs : List UInt8) : List UInt8 :=
  bs.flatMap fun b => [hexDigit (b.toNat / 16), hexDigit (b.toNat % 16)]

/-- The value of a digit. -/
def hexValue (c : UInt8) : Option Nat :=
  if 48 ≤ c ∧ c ≤ 57 then some (c.toNat - 48)
  else if 97 ≤ c ∧ c ≤ 102 then some (c.toNat - 87)
  else if 65 ≤ c ∧ c ≤ 70 then some (c.toNat - 55)
  else none

inductive HexError where
  | invalidByte (c : UInt8)
  | oddLength
  deriving DecidableEq, Repr

/-- The bytes before the first error, and the error. -/
def hexDecode : List UInt8 → List UInt8 × Option HexError
  | [] => ([], none)
  | [p] =>
    match hexValue p with
    | none => ([], some (.invalidByte p))
    | some _ => ([], some .oddLength)
  | p :: q :: rest =>
    match hexValue p, hexValue q with
    | none, _ => ([], some (.invalidByte p))
    | some _, none => ([], some (.invalidByte q))
    | some a, some b =>
      let (bs, err) := hexDecode rest
      (UInt8.ofNat (16 * a + b) :: bs, err)

/-- A byte as the code point of its value, quoted if that can be printed. -/
def quoteByte (c : UInt8) : List UInt8 :=
  let upper (n : Nat) := UInt8.ofNat (if n < 10 then 48 + n else 55 + n)
  let twoBytes := [(0xC0 : UInt8) ||| (c >>> 6), (0x80 : UInt8) ||| (c &&& 0x3F)]
  let quoted :=
    if 0x20 ≤ c ∧ c < 0x7F then ascii " '" ++ [c] ++ ascii "'"
    -- A code point above ASCII takes two bytes.
    else if 0xA1 ≤ c ∧ c ≠ 0xAD then ascii " '" ++ twoBytes ++ ascii "'"
    else []
  ascii "U+00" ++ [upper (c.toNat / 16), upper (c.toNat % 16)] ++ quoted

def HexError.text : HexError → List UInt8
  | invalidByte c => ascii "encoding/hex: invalid byte: " ++ quoteByte c
  | oddLength => ascii "encoding/hex: odd length hex string"

theorem hexValue_hexDigit : ∀ n, n < 16 → hexValue (hexDigit n) = some n := by
  decide

theorem hexDecode_hexEncode (bs : List UInt8) : hexDecode (hexEncode bs) = (bs, none) := by
  induction bs with
  | nil => rfl
  | cons b bs ih =>
    have hlt := b.toNat_lt
    have hhigh := hexValue_hexDigit (b.toNat / 16) (by omega)
    have hlow := hexValue_hexDigit (b.toNat % 16) (by omega)
    have hbyte : UInt8.ofNat (16 * (b.toNat / 16) + b.toNat % 16) = b := by
      rw [Nat.div_add_mod, UInt8.ofNat_toNat]
    have hcons : hexEncode (b :: bs) =
        hexDigit (b.toNat / 16) :: hexDigit (b.toNat % 16) :: hexEncode bs := rfl
    rw [hcons, hexDecode, hhigh, hlow, ih]
    simp only [hbyte]

/-! ### White space -/

/-- The characters of `unicode.IsSpace`. -/
def spaces : List (List UInt8) :=
  [[0x09], [0x0A], [0x0B], [0x0C], [0x0D], [0x20], [0xC2, 0x85], [0xC2, 0xA0], [0xE1, 0x9A, 0x80]] ++
  (List.range 11).map (fun i => [0xE2, 0x80, UInt8.ofNat (0x80 + i)]) ++
  [[0xE2, 0x80, 0xA8], [0xE2, 0x80, 0xA9], [0xE2, 0x80, 0xAF], [0xE2, 0x81, 0x9F], [0xE3, 0x80, 0x80]]

section
variable (chars : List (List UInt8))

/-- The length of the first of the characters that `text` begins with; zero if with none. -/
def leading (text : List UInt8) : Nat :=
  ((chars.find? fun char => char.isPrefixOf text).map List.length).getD 0

/-- The text without the characters at its front, after `skip` bytes of one of them. -/
def dropChars : (skip : Nat) → List UInt8 → List UInt8
  | _, [] => []
  | skip + 1, _ :: text => dropChars skip text
  | 0, c :: text =>
    match leading chars (c :: text) with
    | 0 => c :: text
    | skip + 1 => dropChars skip text

variable {chars}

theorem dropChars_of_head {c : UInt8} (h : ∀ char ∈ chars, char.head? ≠ some c) (text : List UInt8) :
    dropChars chars 0 (c :: text) = c :: text := by
  have hnone : leading chars (c :: text) = 0 := by
    unfold leading
    cases hfind : chars.find? fun char => char.isPrefixOf (c :: text) with
    | none => rfl
    | some char =>
      cases char with
      | nil => rfl
      | cons a char =>
        have hmem := h _ (List.mem_of_find?_eq_some hfind)
        have hfits := List.find?_some hfind
        simp only [List.isPrefixOf, Bool.and_eq_true, beq_iff_eq] at hfits
        rw [hfits.1] at hmem
        exact absurd rfl hmem
  rw [dropChars, hnone]

end

/-- The text without white space at either end. -/
def trimSpace (text : List UInt8) : List UInt8 :=
  (dropChars (spaces.map List.reverse) 0 (dropChars spaces 0 text).reverse).reverse

/-- No character of white space begins or ends with a hexadecimal digit. -/
theorem hexDigit_ne_space : ∀ n, n < 16 →
    (∀ char ∈ spaces, char.head? ≠ some (hexDigit n)) ∧
    ∀ char ∈ spaces.map List.reverse, char.head? ≠ some (hexDigit n) := by
  decide

theorem dropChars_hexEncode {bs : List UInt8} (h : bs ≠ []) (text : List UInt8) :
    dropChars spaces 0 (hexEncode bs ++ text) = hexEncode bs ++ text := by
  cases bs with
  | nil => exact absurd rfl h
  | cons b bs =>
    have hlt := b.toNat_lt
    exact dropChars_of_head (hexDigit_ne_space (b.toNat / 16) (by omega)).1 _

theorem dropChars_reverse_hexEncode (bs : List UInt8) :
    dropChars (spaces.map List.reverse) 0 (hexEncode bs).reverse = (hexEncode bs).reverse := by
  rcases List.eq_nil_or_concat bs with rfl | ⟨init, b, rfl⟩
  · rfl
  · have hlt := b.toNat_lt
    have hlast : (hexEncode (init.concat b)).reverse =
        hexDigit (b.toNat % 16) :: hexDigit (b.toNat / 16) :: (hexEncode init).reverse := by
      rw [List.concat_eq_append, hexEncode, List.flatMap_append, List.reverse_append]
      rfl
    rw [hlast]
    exact dropChars_of_head (hexDigit_ne_space (b.toNat % 16) (by omega)).2 _

/-- Hexadecimal text on a line of its own. -/
theorem trimSpace_hexEncode (bs : List UInt8) : trimSpace (hexEncode bs ++ ascii "\n") = hexEncode bs := by
  by_cases hnil : bs = []
  · subst hnil
    decide
  · have hline : dropChars (spaces.map List.reverse) 0 (0x0A :: (hexEncode bs).reverse) =
        dropChars (spaces.map List.reverse) 0 (hexEncode bs).reverse := rfl
    have hreverse : (hexEncode bs ++ ascii "\n").reverse = 0x0A :: (hexEncode bs).reverse :=
      List.reverse_append
    rw [trimSpace, dropChars_hexEncode hnil, hreverse, hline, dropChars_reverse_hexEncode,
      List.reverse_reverse]

end LightningOnion.Lib
