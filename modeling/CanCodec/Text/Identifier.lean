/-! # Identifiers made from free names

Names in a catalog are arbitrary text. The functions here turn them into the
identifiers of generated code: ASCII letters and digits are kept, every run of
other characters separates two words. -/

namespace CanCodec.Identifier

/-- Keep letters and digits under `fold` and write one underscore for each run of
other characters that a letter or digit follows. `pending` tells whether such a
run has just been read. -/
def joinWords (fold : Char → Char) : (pending : Bool) → List Char → List Char
  | _, [] => []
  | pending, character :: rest =>
      if character.isAlphanum then
        if pending then '_' :: fold character :: joinWords fold false rest
        else fold character :: joinWords fold false rest
      else joinWords fold true rest

/-- Complete a joined name: an empty one becomes `fallback`, and an underscore
goes before a leading digit. -/
def complete (fallback : List Char) : List Char → List Char
  | [] => fallback
  | first :: rest => if first.isDigit then '_' :: first :: rest else first :: rest

def snakeList (characters : List Char) : List Char :=
  complete ['c', 'a', 'n'] (joinWords Char.toLower false characters)

def macroList (characters : List Char) : List Char :=
  complete ['C', 'A', 'N'] (joinWords Char.toUpper false characters)

/-- Whether a word of a camel-case name starts at `current`: at an upper-case letter
after a lower-case letter or a digit, or at the last capital of a row when a
lower-case letter follows. -/
def startsWord (previous : Option Char) (current : Char) (following : Option Char) : Bool :=
  current.isUpper && previous.any fun before =>
    before.isLower || before.isDigit || (before.isUpper && following.any Char.isLower)

def splitWords : (previous : Option Char) → List Char → List Char
  | _, [] => []
  | previous, current :: rest =>
      if startsWord previous current rest.head? then
        '_' :: current :: splitWords (some current) rest
      else current :: splitWords (some current) rest

def camelList (characters : List Char) : List Char := snakeList (splitWords none characters)

/-- Drop everything but letters and digits and raise the first character of each
word. `raised` tells whether a word starts here. -/
def raiseWords : (raised : Bool) → List Char → List Char
  | _, [] => []
  | raised, character :: rest =>
      if character.isAlphanum then
        (if raised then character.toUpper else character) :: raiseWords false rest
      else raiseWords true rest

/-- Words with a raised first character, run together. A name that would start with
a digit gets an `M` before it, and an empty one is `Msg`. -/
def pascalList (characters : List Char) : List Char :=
  match raiseWords true characters with
  | [] => ['M', 's', 'g']
  | first :: rest => if first.isDigit then 'M' :: first :: rest else first :: rest

def snake (name : String) : String := String.ofList (snakeList name.toList)

def ofCamel (name : String) : String := String.ofList (camelList name.toList)

def upper (name : String) : String := String.ofList (macroList name.toList)

def pascal (name : String) : String := String.ofList (pascalList name.toList)

example : ofCamel "ExampleMessage" = "example_message" := by decide
example : ofCamel "ABCValue" = "abc_value" := by decide
example : ofCamel "Signal1Low" = "signal1_low" := by decide
example : snake "motohawk-db" = "motohawk_db" := by decide
example : snake "9lives_" = "_9lives" := by decide
example : upper "--" = "CAN" := by decide
example : pascal "wheel_speed" = "WheelSpeed" := by decide
example : pascal "2nd gear" = "M2ndGear" := by decide

end CanCodec.Identifier
