import CanCodec.Json.Basic
import CanCodec.Decimal.Style

/-! # Writing JSON

The compact form has no white space. The indented form puts every entry on a line of
its own, two spaces deeper than its object. Characters are escaped only where the
grammar demands it, and a double that is not finite is written as `null`. -/

namespace CanCodec.Json

def escapeControl (code : Nat) : String :=
  "\\u00" ++ (if code < 16 then "0" else "1") ++
    String.singleton (Nat.digitChar (code % 16))

def escape : Char → String
  | '"' => "\\\""
  | '\\' => "\\\\"
  | '\x08' => "\\b"
  | '\x0c' => "\\f"
  | '\n' => "\\n"
  | '\r' => "\\r"
  | '\t' => "\\t"
  | character =>
      if character.toNat < 0x20 then escapeControl character.toNat
      else String.singleton character

def quote (value : String) : String :=
  "\"" ++ String.join (value.toList.map escape) ++ "\""

def writeReal (value : Float) : String :=
  if value.isFinite then FloatStyle.json.write value else "null"

/-! ## Compact form -/

mutual
def compact : Json → String
  | .null => "null"
  | .bool value => if value then "true" else "false"
  | .whole value => toString value
  | .real value => writeReal value
  | .text value => quote value
  | .array elements => "[" ++ ",".intercalate (compactElements elements) ++ "]"
  | .object entries => "\x7b" ++ ",".intercalate (compactEntries entries) ++ "\x7d"

def compactElements : List Json → List String
  | [] => []
  | element :: rest => compact element :: compactElements rest

def compactEntries : List (String × Json) → List String
  | [] => []
  | (key, value) :: rest => (quote key ++ ":" ++ compact value) :: compactEntries rest
end

/-! ## Indented form -/

def breakLine (depth : Nat) : String := "\n" ++ String.ofList (List.replicate (2 * depth) ' ')

def indentItems (opening closing : String) (depth : Nat) (items : List String) : String :=
  if items.isEmpty then opening ++ closing
  else
    opening ++ breakLine (depth + 1) ++ ("," ++ breakLine (depth + 1)).intercalate items ++
      breakLine depth ++ closing

mutual
def indentedAt (depth : Nat) : Json → String
  | .array elements => indentItems "[" "]" depth (indentedElements (depth + 1) elements)
  | .object entries => indentItems "\x7b" "\x7d" depth (indentedEntries (depth + 1) entries)
  | value => compact value

def indentedElements (depth : Nat) : List Json → List String
  | [] => []
  | element :: rest => indentedAt depth element :: indentedElements depth rest

def indentedEntries (depth : Nat) : List (String × Json) → List String
  | [] => []
  | (key, value) :: rest =>
      (quote key ++ ": " ++ indentedAt depth value) :: indentedEntries depth rest
end

def indented (value : Json) : String := indentedAt 0 value

end CanCodec.Json
