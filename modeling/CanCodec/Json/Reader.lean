import CanCodec.Json.Number

/-! # Reading JSON

The grammar is that of RFC 8259 without extensions. A repeated key keeps its first
place and its last value. Arrays and objects nest at most 127 deep, and nothing but
white space may follow the value. -/

namespace CanCodec.Json

def isSpace (character : Char) : Bool :=
  character = ' ' || character = '\n' || character = '\t' || character = '\r'

def dropSpace (characters : List Char) : List Char := characters.dropWhile isSpace

/-! ## Strings -/

def hexDigit? (character : Char) : Option Nat :=
  if character.isDigit then some (character.toNat - '0'.toNat)
  else if 'a' ≤ character ∧ character ≤ 'f' then some (character.toNat - 'a'.toNat + 10)
  else if 'A' ≤ character ∧ character ≤ 'F' then some (character.toNat - 'A'.toNat + 10)
  else none

def unit? (first second third fourth : Char) : Option Nat := do
  let first ← hexDigit? first
  let second ← hexDigit? second
  let third ← hexDigit? third
  let fourth ← hexDigit? fourth
  return ((first * 16 + second) * 16 + third) * 16 + fourth

def isHighSurrogate (unit : Nat) : Bool := 0xd800 ≤ unit && unit < 0xdc00

def isLowSurrogate (unit : Nat) : Bool := 0xdc00 ≤ unit && unit < 0xe000

def ofSurrogates (high low : Nat) : Char :=
  Char.ofNat (0x10000 + (high - 0xd800) * 0x400 + (low - 0xdc00))

def shortEscape? : Char → Option Char
  | '"' => some '"'
  | '\\' => some '\\'
  | '/' => some '/'
  | 'b' => some '\x08'
  | 'f' => some '\x0c'
  | 'n' => some '\n'
  | 'r' => some '\r'
  | 't' => some '\t'
  | _ => none

def prepend (character : Char) (result : Option (List Char × List Char)) :
    Option (List Char × List Char) :=
  result.map fun (characters, rest) => (character :: characters, rest)

/-- Read a string after its opening quote. A surrogate must be half of a pair, and a
control character must be escaped. -/
def readText : List Char → Option (List Char × List Char)
  | [] => none
  | '"' :: rest => some ([], rest)
  | '\\' :: 'u' :: a :: b :: c :: d :: rest =>
      match unit? a b c d with
      | none => none
      | some unit =>
          if isLowSurrogate unit then none
          else if isHighSurrogate unit then
            match rest with
            | '\\' :: 'u' :: e :: f :: g :: h :: rest =>
                match unit? e f g h with
                | none => none
                | some low =>
                    if isLowSurrogate low then prepend (ofSurrogates unit low) (readText rest)
                    else none
            | _ => none
          else prepend (Char.ofNat unit) (readText rest)
  | '\\' :: mark :: rest =>
      match shortEscape? mark with
      | none => none
      | some character => prepend character (readText rest)
  | character :: rest =>
      if character = '\\' ∨ character.toNat < 0x20 then none
      else prepend character (readText rest)

/-! ## Values -/

abbrev Reader (α : Type) := List Char → Option (α × List Char)

/-- Read the elements of an array after its opening bracket, where at least one element
has to follow. `fuel` bounds the number of elements. -/
def readElements (readValue : Reader Json) : (fuel : Nat) → Reader (List Json)
  | 0, _ => none
  | fuel + 1, characters => do
      let (element, rest) ← readValue (dropSpace characters)
      match dropSpace rest with
      | ']' :: rest => return ([element], rest)
      | ',' :: rest =>
          let (elements, rest) ← readElements readValue fuel rest
          return (element :: elements, rest)
      | _ => none

def readArray (readValue : Reader Json) : Reader Json := fun characters =>
  match dropSpace characters with
  | ']' :: rest => some (.array [], rest)
  | _ => (readElements readValue characters.length characters).map
      fun (elements, rest) => (.array elements, rest)

/-- Read the entries of an object, where at least one entry has to follow, into
`entries`. `fuel` bounds the number of entries. -/
def readEntries (readValue : Reader Json) :
    (fuel : Nat) → (entries : List (String × Json)) → Reader (List (String × Json))
  | 0, _, _ => none
  | fuel + 1, entries, characters =>
      match dropSpace characters with
      | '"' :: rest => do
          let (key, rest) ← readText rest
          match dropSpace rest with
          | ':' :: rest =>
              let (value, rest) ← readValue (dropSpace rest)
              let entries := upsert (String.ofList key) value entries
              match dropSpace rest with
              | '}' :: rest => return (entries, rest)
              | ',' :: rest => readEntries readValue fuel entries rest
              | _ => none
          | _ => none
      | _ => none

def readObject (readValue : Reader Json) : Reader Json := fun characters =>
  match dropSpace characters with
  | '}' :: rest => some (.object [], rest)
  | _ => (readEntries readValue characters.length [] characters).map
      fun (entries, rest) => (.object entries, rest)

/-- Read a value whose arrays and objects nest at most `depth` deep. -/
def readValue : (depth : Nat) → Reader Json
  | _, [] => none
  | _, 'n' :: 'u' :: 'l' :: 'l' :: rest => some (.null, rest)
  | _, 't' :: 'r' :: 'u' :: 'e' :: rest => some (.bool true, rest)
  | _, 'f' :: 'a' :: 'l' :: 's' :: 'e' :: rest => some (.bool false, rest)
  | _, '"' :: rest =>
      (readText rest).map fun (characters, rest) => (.text (String.ofList characters), rest)
  | depth + 1, '[' :: rest => readArray (readValue depth) rest
  | depth + 1, '{' :: rest => readObject (readValue depth) rest
  | _, characters => readNumber characters

def maxDepth : Nat := 127

def parse? (source : String) : Option Json := do
  let (value, rest) ← readValue maxDepth (dropSpace source.toList)
  if (dropSpace rest).isEmpty then return value else none

end CanCodec.Json
