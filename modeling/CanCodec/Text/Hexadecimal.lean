/-! # Hexadecimal text

Numbers are written with lower-case digits. A byte string is read as pairs of
digits of either case. -/

namespace CanCodec

/-- Eight bits of a payload; bit 0 is the least significant. -/
abbrev Byte := BitVec 8

namespace Text

def hex (value : Nat) : String := String.ofList (Nat.toDigits 16 value)

def hexPair (value : Nat) : String := if value < 16 then "0" ++ hex value else hex value

example : hex 0x1f0 = "1f0" := by decide
example : hexPair 5 = "05" := by decide

def hexBytes (bytes : List Byte) : String :=
  String.join (bytes.map fun byte => hexPair byte.toNat)

inductive HexProblem
  | oddLength
  /-- The first encoded byte of the text that is no digit, and where it stands. -/
  | badDigit (byte position : Nat)
  deriving Repr, DecidableEq

/-- Whether the character of a code below 256 can be seen. The space counts, the
no-break space and the soft hyphen do not. -/
def isVisible (code : Nat) : Bool :=
  (0x20 ≤ code && code < 0x7f) || (0xa1 ≤ code && code != 0xad)

/-- The character of a code below 256 as it stands between single quotes: the quote,
the backslash and what cannot be seen are escaped. -/
def quotedCharacter (code : Nat) : String :=
  match Char.ofNat code with
  | '\x00' => "\\0"
  | '\t' => "\\t"
  | '\n' => "\\n"
  | '\r' => "\\r"
  | '\x27' => "\\'"
  | '\\' => "\\\\"
  | character =>
      if isVisible code then String.singleton character
      else "\\u\x7b" ++ hex code ++ "\x7d"

example : quotedCharacter 0x27 = "\\'" := by decide
example : quotedCharacter 0x22 = "\"" := by decide
example : quotedCharacter 0x1b = "\\u\x7b1b\x7d" := by decide
example : quotedCharacter 0xef = "\u00ef" := by decide

/-- The wording of a byte string's defect. An offending byte is shown as the
character of that number. -/
def HexProblem.message : HexProblem → String
  | .oddLength => "Odd number of digits"
  | .badDigit byte position =>
      "Invalid character '" ++ quotedCharacter byte ++ "' at position " ++ toString position

def hexValue? (byte : Nat) : Option Nat :=
  if 48 ≤ byte && byte ≤ 57 then some (byte - 48)
  else if 97 ≤ byte && byte ≤ 102 then some (byte - 87)
  else if 65 ≤ byte && byte ≤ 70 then some (byte - 55)
  else none

def readPairs (position : Nat) : List Nat → Except HexProblem (List Byte)
  | [] => .ok []
  | [_] => .error .oddLength
  | high :: low :: rest =>
      match hexValue? high, hexValue? low with
      | none, _ => .error (.badDigit high position)
      | some _, none => .error (.badDigit low (position + 1))
      | some upper, some lower =>
          (readPairs (position + 2) rest).map (BitVec.ofNat 8 (16 * upper + lower) :: ·)

/-- Read a byte string. A text of odd encoded length is refused before its digits
are looked at. -/
def readHexBytes (characters : List Char) : Except HexProblem (List Byte) :=
  let encoded := (String.ofList characters).toUTF8.toList.map UInt8.toNat
  if encoded.length % 2 = 1 then .error .oddLength else readPairs 0 encoded

end Text

end CanCodec
