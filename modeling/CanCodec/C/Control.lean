import CanCodec.C.Document
import CanCodec.C.Syntax

/-! # Control flow in generated C

The part of C in which generated functions test sizes, search the codec table and call
one another, with its text. -/

namespace CanCodec.C

/-! ## Types -/

inductive DataType
  | int
  | uint32
  | size
  | pointer (target : String)
  deriving Repr, DecidableEq

def DataType.text : DataType → String
  | .int => "int "
  | .uint32 => "uint32_t "
  | .size => "size_t "
  | .pointer target => target ++ " *"

inductive Column
  | frameId
  | length
  deriving Repr, DecidableEq

def Column.type : Column → DataType
  | .frameId => .uint32
  | .length => .size

def Column.name : Column → String
  | .frameId => "frame_id"
  | .length => "length"

inductive Operation
  | pack
  | unpack
  deriving Repr, DecidableEq

def Operation.name : Operation → String
  | .pack => "pack"
  | .unpack => "unpack"

/-! ## Terms -/

/-- An error number, of which functions return the negative. -/
inductive ErrorNumber
  | noEntry
  | invalid
  deriving Repr, DecidableEq

def ErrorNumber.text : ErrorNumber → String
  | .noEntry => "ENOENT"
  | .invalid => "EINVAL"

inductive Arithmetic
  | add
  | subtract
  | divide
  deriving Repr, DecidableEq

def Arithmetic.text : Arithmetic → String
  | .add => "+"
  | .subtract => "-"
  | .divide => "/"

def Arithmetic.strength : Arithmetic → Nat
  | .add | .subtract => 1
  | .divide => 2

/-- A variable that is passed to a function, cast to the type of its parameter if the
types differ. -/
structure Argument where
  name : String
  cast : Option DataType := none
  deriving Repr, DecidableEq

def Argument.text (argument : Argument) : String :=
  (argument.cast.map fun type => "(" ++ type.text ++ ")").getD "" ++ argument.name

def callText (function : String) (arguments : List Argument) : String :=
  function ++ "(" ++ ", ".intercalate (arguments.map Argument.text) ++ ")"

inductive Term
  | variable (name : String)
  | literal (constant : Constant)
  | symbol (definition : ConstantMacro)
  | zero
  | failure (error : ErrorNumber)
  | null
  | arithmetic (operation : Arithmetic) (left right : Term)
  /-- An integer in a row of a table. -/
  | cell (table : String) (index : Term) (column : Column)
  /-- The address of a row of a table. -/
  | row (table : String) (index : Term)
  /-- An integer in the row that a pointer points to. -/
  | member (pointer : String) (column : Column)
  | call (function : String) (arguments : List Argument)
  /-- A call of a function in the row that a pointer points to. -/
  | callMember (pointer : String) (operation : Operation) (arguments : List Argument)
  deriving Repr, DecidableEq

namespace Term

def strength : Term → Nat
  | .arithmetic operation _ _ => operation.strength
  | _ => 3

def grouped (limit : Nat) (operand : Term) (text : String) : String :=
  if operand.strength < limit then "(" ++ text ++ ")" else text

def text : Term → String
  | .variable name => name
  | .literal constant => constant.text
  | .symbol definition => definition.name
  | .zero => "0"
  | .failure error => "-" ++ error.text
  | .null => "NULL"
  | .arithmetic operation left right =>
      left.grouped operation.strength left.text ++ " " ++ operation.text ++ " " ++
        right.grouped (operation.strength + 1) right.text
  | .cell table index column => s!"{table}[{index.text}].{column.name}"
  | .row table index => s!"&{table}[{index.text}]"
  | .member pointer column => s!"{pointer}->{column.name}"
  | .call function arguments => callText function arguments
  | .callMember pointer operation arguments =>
      callText s!"{pointer}->{operation.name}" arguments

/-- The text of a returned term. Integers stand in parentheses. -/
def returned : Term → String
  | .null => text .null
  | .row table index => text (.row table index)
  | .call function arguments => text (.call function arguments)
  | term => "(" ++ term.text ++ ")"

example : (Term.arithmetic .add (.variable "low") (.arithmetic .divide
    (.arithmetic .subtract (.variable "high") (.variable "low")) (.literal { value := 2 }))).text =
      "low + (high - low) / 2u" := by decide

end Term

inductive Condition
  | less (left right : Term)
  | equal (left right : Term)
  deriving Repr, DecidableEq

def Condition.text : Condition → String
  | .less left right => left.text ++ " < " ++ right.text
  | .equal left right => left.text ++ " == " ++ right.text

/-! ## Blocks -/

/-- A sequence of statements. Each but the last has the statements after it as its last
argument. -/
inductive Block
  | stop
  | blank (rest : Block)
  /-- Declarations and assignments that change no variable of a test. -/
  | plain (items : Document) (rest : Block)
  | declare (type : DataType) (name : String) (value : Term) (rest : Block)
  | assign (name : String) (value : Term) (rest : Block)
  | test (condition : Condition) (body rest : Block)
  | choose (condition : Condition) (first second rest : Block)
  | loop (condition : Condition) (body rest : Block)
  | give (value : Term)
  deriving Repr, DecidableEq

def Block.document (indent : String) : Block → Document
  | .stop => []
  | .blank rest => .blank :: rest.document indent
  | .plain items rest => items ++ rest.document indent
  | .declare type name value rest =>
      .code (indent ++ type.text ++ name ++ " = " ++ value.text ++ ";") :: rest.document indent
  | .assign name value rest =>
      .code (indent ++ name ++ " = " ++ value.text ++ ";") :: rest.document indent
  | .test condition body rest =>
      .code (indent ++ "if (" ++ condition.text ++ ") \x7b") ::
        body.document (indent ++ "    ") ++ .code (indent ++ "\x7d") :: rest.document indent
  | .choose condition first second rest =>
      .code (indent ++ "if (" ++ condition.text ++ ") \x7b") ::
        first.document (indent ++ "    ") ++ .code (indent ++ "\x7d else \x7b") ::
        second.document (indent ++ "    ") ++ .code (indent ++ "\x7d") :: rest.document indent
  | .loop condition body rest =>
      .code (indent ++ "while (" ++ condition.text ++ ") \x7b") ::
        body.document (indent ++ "    ") ++ .code (indent ++ "\x7d") :: rest.document indent
  | .give value => [.code (indent ++ "return " ++ value.returned ++ ";")]

/-! ## Procedures -/

structure Declaration where
  type : DataType
  name : String
  deriving Repr, DecidableEq

def Declaration.text (declaration : Declaration) : String :=
  declaration.type.text ++ declaration.name

structure Signature where
  result : DataType
  name : String
  parameters : List Declaration
  deriving Repr, DecidableEq

namespace Signature

def text (signature : Signature) : String :=
  signature.result.text ++ signature.name ++ "(" ++
    ", ".intercalate (signature.parameters.map Declaration.text) ++ ")"

def tallText (signature : Signature) : String :=
  signature.result.text ++ signature.name ++ "(\n    " ++
    ",\n    ".intercalate (signature.parameters.map Declaration.text) ++ ")"

end Signature

structure Procedure where
  signature : Signature
  body : Block
  deriving Repr, DecidableEq

def Procedure.document (procedure : Procedure) (heading : String) : Document :=
  .code (heading ++ "\n\x7b") :: procedure.body.document "    " ++ [.code "\x7d"]

end CanCodec.C
