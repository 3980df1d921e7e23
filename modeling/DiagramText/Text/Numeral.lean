import DiagramText.Text.Basic

/-!
# Numerals

A whole number as a user may write it: at most 4300 decimal digits of any script, perhaps with single underscores
between them, a sign in front and blanks around.
-/

namespace DiagramText.Text

/-- The code points of the digits zero; each is followed by the other nine digits of its script. -/
def zeros : List Nat :=
  [0x30, 0x660, 0x6F0, 0x7C0, 0x966, 0x9E6, 0xA66, 0xAE6, 0xB66, 0xBE6, 0xC66, 0xCE6, 0xD66, 0xDE6, 0xE50, 0xED0,
    0xF20, 0x1040, 0x1090, 0x17E0, 0x1810, 0x1946, 0x19D0, 0x1A80, 0x1A90, 0x1B50, 0x1BB0, 0x1C40, 0x1C50, 0xA620,
    0xA8D0, 0xA900, 0xA9D0, 0xA9F0, 0xAA50, 0xABF0, 0xFF10, 0x104A0, 0x10D30, 0x11066, 0x110F0, 0x11136, 0x111D0,
    0x112F0, 0x11450, 0x114D0, 0x11650, 0x116C0, 0x11730, 0x118E0, 0x11950, 0x11C50, 0x11D50, 0x11DA0, 0x16A60,
    0x16AC0, 0x16B50, 0x1D7CE, 0x1D7D8, 0x1D7E2, 0x1D7EC, 0x1D7F6, 0x1E140, 0x1E2F0, 0x1E950, 0x1FBF0]

/-- The value of a decimal digit. -/
def digit? (c : Char) : Option Nat :=
  (zeros.find? fun z => z ≤ c.toNat && c.toNat ≤ z + 9).map (c.toNat - ·)

/-- The number that digits stand for behind those that stand for `n`; a single underscore may come before a digit. -/
def digits? (n : Nat) : Text → Option Nat
  | [] => some n
  | '_' :: c :: r => (digit? c).bind fun d => digits? (10 * n + d) r
  | c :: r => (digit? c).bind fun d => digits? (10 * n + d) r

/-- The number that a numeral without a sign stands for. -/
def natural? : Text → Option Nat
  | [] => none
  | c :: r => (digit? c).bind fun d => digits? d r

/-- The blanks that may stand around a numeral: all but the four information separators of ASCII. -/
def isMargin (c : Char) : Bool := isBlank c && !(0x1C ≤ c.toNat && c.toNat ≤ 0x1F)

/-- The most digits that a numeral may have, leading zeros included. -/
def maxDigits : Nat := 4300

/-- The number that a text stands for. -/
def integer? (s : Text) : Option Int :=
  let numeral := trim isMargin s
  if maxDigits < numeral.countP fun c => (digit? c).isSome then none
  else match numeral with
    | '-' :: r => (natural? r).map fun n => -(n : Int)
    | '+' :: r => (natural? r).map Int.ofNat
    | r => (natural? r).map Int.ofNat

end DiagramText.Text
