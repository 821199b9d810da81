/-! # Splitting at a separator -/

namespace CanCodec.Text

def split (separator : Char) : List Char → List (List Char)
  | [] => [[]]
  | character :: rest =>
      if character = separator then [] :: split separator rest
      else
        match split separator rest with
        | [] => [[character]]
        | part :: others => (character :: part) :: others

example : split '_' "GEAR__ON".toList = ["GEAR".toList, [], "ON".toList] := by decide

end CanCodec.Text
