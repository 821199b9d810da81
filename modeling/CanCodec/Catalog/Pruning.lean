import CanCodec.Signal
import CanCodec.Text.Split

/-! # Pruning of choice names

Choice names of one signal often start with the same words, set apart by underscores.
Pruning drops the words that all names share, as many as leave every name at least one
word, provided that every shortened name is still fit to be an identifier. -/

namespace CanCodec.Pruning

def words (name : List Char) : List (List Char) := Text.split '_' name

def unwords (parts : List (List Char)) : List Char := ['_'].intercalate parts

def commonLength : List (List Char) → List (List Char) → Nat
  | first :: firsts, second :: seconds =>
      if first = second then commonLength firsts seconds + 1 else 0
  | _, _ => 0

def droppable : List (List (List Char)) → Nat
  | [] => 0
  | first :: others =>
      others.foldl
        (fun count other => min count (min (commonLength first other) (other.length - 1)))
        (first.length - 1)

def isUsable : List Char → Bool
  | [] => false
  | first :: _ => !first.isDigit

def shorten (count : Nat) (name : List Char) : List Char := unwords ((words name).drop count)

def prune (choices : Choices) : Choices :=
  let names := choices.values.map String.toList
  let count := droppable (names.map words)
  if choices.size < 2 ∨ count = 0 then choices
  else if names.all fun name => isUsable (shorten count name) then
    choices.mapValues fun name => String.ofList (shorten count name.toList)
  else choices

end CanCodec.Pruning
