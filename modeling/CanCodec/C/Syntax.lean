import CanCodec.Storage

/-! # C code for integers

The part of C in which generated functions move bits, with its text. -/

namespace CanCodec.C

/-! ## Constants and objects -/

inductive Digits
  | decimal
  | hexadecimal
  /-- Hexadecimal, at least two digits. -/
  | hexadecimalByte
  deriving Repr, DecidableEq

def Digits.text : Digits → Nat → String
  | .decimal, value => toString value
  | .hexadecimal, value => "0x" ++ Text.hex value
  | .hexadecimalByte, value => "0x" ++ Text.hexPair value

structure Constant where
  value : Nat
  digits : Digits := .decimal
  long : Bool := false
  deriving Repr, DecidableEq

def Constant.text (constant : Constant) : String :=
  constant.digits.text constant.value ++ if constant.long then "ull" else "u"

structure ConstantMacro where
  name : String
  constant : Constant
  deriving Repr, DecidableEq

inductive Object
  | named (name : String)
  | element (pointer : String) (index : Nat)
  /-- A member of the record that a pointer points to. -/
  | member (pointer name : String)
  deriving Repr, DecidableEq

def Object.text : Object → String
  | .named name => name
  | .element pointer index => s!"{pointer}[{index}]"
  | .member pointer name => s!"{pointer}->{name}"

/-! ## Expressions -/

inductive Direction
  | left
  | right
  deriving Repr, DecidableEq

def Direction.name : Direction → String
  | .left => "left"
  | .right => "right"

inductive Operator
  | shift (direction : Direction)
  | and
  | or
  | notEqual
  deriving Repr, DecidableEq

def Operator.text : Operator → String
  | .shift .left => "<<"
  | .shift .right => ">>"
  | .and => "&"
  | .or => "|"
  | .notEqual => "!="

inductive Expression
  | read (object : Object)
  | literal (constant : Constant)
  | cast (type : Primitive) (operand : Expression)
  | binary (operator : Operator) (left right : Expression)
  deriving Repr, DecidableEq

namespace Expression

def grouped (operand : Expression) (text : String) : String :=
  match operand with
  | .binary _ _ _ => "(" ++ text ++ ")"
  | _ => text

def text : Expression → String
  | .read object => object.text
  | .literal constant => constant.text
  | .cast type operand => "(" ++ type.cName ++ ")" ++ operand.grouped operand.text
  | .binary operator left right =>
      left.grouped left.text ++ " " ++ operator.text ++ " " ++ right.grouped right.text

end Expression

/-! ## Functions -/

structure Parameter where
  type : Primitive
  name : String
  deriving Repr, DecidableEq

def Parameter.text (parameter : Parameter) : String := s!"{parameter.type.cName} {parameter.name}"

structure Function where
  result : Primitive
  name : String
  parameters : List Parameter
  body : Expression
  deriving Repr, DecidableEq

def Function.text (function : Function) : String :=
  s!"static inline {function.result.cName} {function.name}(" ++
    ", ".intercalate (function.parameters.map Parameter.text) ++
    s!")\n\x7b\n    return {function.body.text};\n\x7d\n"

structure Call where
  function : String
  arguments : List Expression
  deriving Repr, DecidableEq

def Call.text (call : Call) : String :=
  call.function ++ "(" ++ ", ".intercalate (call.arguments.map Expression.text) ++ ")"

/-! ## Statements -/

inductive Source
  | value (expression : Expression)
  | result (call : Call)
  deriving Repr, DecidableEq

def Source.text : Source → String
  | .value expression => expression.text
  | .result call => call.text

/-- A plain assignment, or one that first combines the target with the source. -/
structure Assignment where
  target : Object
  operator : Option Operator := none
  source : Source
  deriving Repr, DecidableEq

def Assignment.text (assignment : Assignment) : String :=
  assignment.target.text ++ " " ++ (assignment.operator.map Operator.text).getD "" ++ "= " ++
    assignment.source.text ++ ";"

inductive Statement
  | assign (assignment : Assignment)
  /-- An assignment made when a condition is not zero. -/
  | test (condition : Expression) (assignment : Assignment)
  deriving Repr, DecidableEq

def Statement.text : Statement → String
  | .assign assignment => "    " ++ assignment.text
  | .test condition assignment =>
      "    if (" ++ condition.text ++ ") \x7b\n        " ++ assignment.text ++ "\n    \x7d"

end CanCodec.C
