/-! # C documents

A document is a list of items that tell code from comments. Text that a catalog's
author wrote freely stands in comments only. -/

namespace CanCodec.C

inductive Item
  | code (text : String)
  /-- A block comment over several lines, each indented alike. -/
  | comment (indent opening : String) (lines : List String)
  | remark (text : String)
  deriving Repr, DecidableEq

namespace Item

def text : Item → String
  | .code text => text ++ "\n"
  | .comment indent opening lines =>
      indent ++ opening ++ "\n" ++ String.join (lines.map fun line => indent ++ line ++ "\n") ++
        indent ++ " */\n"
  | .remark text => "/* " ++ text ++ " */\n"

def blank : Item := .code ""

def doc (indent : String) (lines : List String) : Item := .comment indent "/**" lines

end Item

def docLine (text : String) : String := " * " ++ text

def docBreak : String := " *"

abbrev Document := List Item

def Document.text (document : Document) : String := String.join (document.map Item.text)

end CanCodec.C
