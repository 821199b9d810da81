/-! # Lines of a free text

A line ends at a line feed, together with one carriage return right before it.
A carriage return elsewhere is an ordinary character, and a text that ends with
a line feed has no empty line after it. -/

namespace CanCodec.Text

def extendFirst (character : Char) : List (List Char) → List (List Char)
  | [] => [[character]]
  | line :: rest => (character :: line) :: rest

def lineList : List Char → List (List Char)
  | [] => []
  | '\r' :: '\n' :: rest => [] :: lineList rest
  | character :: rest =>
      if character = '\n' then [] :: lineList rest else extendFirst character (lineList rest)

def lines (text : String) : List String := (lineList text.toList).map String.ofList

example : lines "a\r\nb\rc\n\nd\r" = ["a", "b\rc", "", "d\r"] := by decide
example : lines "" = [] := by decide
example : lines "a\n" = ["a"] := by decide

end CanCodec.Text
