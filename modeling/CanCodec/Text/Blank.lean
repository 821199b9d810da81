/-! # White space at the ends of a text

White space means the characters with the Unicode property `White_Space`. -/

namespace CanCodec.Text

/-- The code points with the property `White_Space`, as closed ranges in ascending order. -/
def blankRanges : List (Nat × Nat) :=
  [(0x9, 0xd), (0x20, 0x20), (0x85, 0x85), (0xa0, 0xa0), (0x1680, 0x1680), (0x2000, 0x200a),
    (0x2028, 0x2029), (0x202f, 0x202f), (0x205f, 0x205f), (0x3000, 0x3000)]

def isBlank (character : Char) : Bool :=
  blankRanges.any fun range => range.1 ≤ character.toNat && character.toNat ≤ range.2

example : (blankRanges.map fun range => range.2 + 1 - range.1).sum = 25 := by decide

def dropBlanks (characters : List Char) : List Char := characters.dropWhile isBlank

def trim (characters : List Char) : List Char :=
  (dropBlanks (dropBlanks characters).reverse).reverse

example : trim " a b\t\n".toList = "a b".toList := by decide

end CanCodec.Text
