/-! # Words of a command line

A word that starts with a dash sets something by its name; every other word is an
operand, whose place says what it sets. -/

namespace CanCodec.CommandLine

inductive Word
  /-- The word after which every word is an operand. -/
  | separator
  /-- A name after two dashes, and what an equals sign attaches to it. -/
  | long (name : String) (attached : Option String)
  /-- A letter after one dash, and what follows it. -/
  | short (letter : Char) (rest : List Char)
  | operand (text : String)
  deriving Repr, DecidableEq

def splitAtEquals (characters : List Char) : String × Option String :=
  let name := String.ofList (characters.takeWhile (· ≠ '='))
  match characters.dropWhile (· ≠ '=') with
  | [] => (name, none)
  | _ :: value => (name, some (String.ofList value))

/-- What a letter's rest attaches to it: all of it, less an equals sign at its start. -/
def attachedTo : (rest : List Char) → Option String
  | [] => none
  | '=' :: value => some (String.ofList value)
  | value => some (String.ofList value)

def Word.ofText (text : String) : Word :=
  match text.toList with
  | ['-', '-'] => .separator
  | '-' :: '-' :: rest => .long (splitAtEquals rest).1 (splitAtEquals rest).2
  | '-' :: letter :: rest => .short letter rest
  | _ => .operand text

example : Word.ofText "--a=b=c" = .long "a" (some "b=c") := by decide
example : Word.ofText "-ox" = .short 'o' ['x'] := by decide
example : Word.ofText "-" = .operand "-" := by decide

end CanCodec.CommandLine
