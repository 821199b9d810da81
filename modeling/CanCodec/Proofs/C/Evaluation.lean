import CanCodec.C.Transfer
import CanCodec.Proofs.TwosComplement

/-! # What C code for integers does

An `int` has 32 bits, a `long long` 64, and a conversion to a signed type wraps around.
What C leaves undefined has no value here. -/

namespace CanCodec

namespace Primitive

def valueBits (type : Primitive) : Nat := if type.signed then type.bits - 1 else type.bits

def common (left right : Primitive) : Primitive :=
  if left.width = right.width then ⟨left.width, left.signed && right.signed⟩
  else if left.bits < right.bits then right
  else left

end Primitive

namespace C

def intType : Primitive := ⟨.w32, true⟩

/-! ## Values -/

structure Value where
  type : Primitive
  bits : BitVec type.bits

namespace Value

def toInt (value : Value) : Int :=
  if value.type.signed then value.bits.toInt else value.bits.toNat

/-- The value of a type that an integer becomes by reduction modulo the type's size. -/
def ofInt (type : Primitive) (integer : Int) : Value := ⟨type, BitVec.ofInt type.bits integer⟩

def unsigned (width : Width) (bits : BitVec width.bits) : Value := ⟨unsignedType width, bits⟩

def bitsAs (value : Value) (type : Primitive) : BitVec type.bits :=
  BitVec.ofInt type.bits value.toInt

def convert (value : Value) (type : Primitive) : Value := ⟨type, value.bitsAs type⟩

/-- Integers narrower than an `int` are combined as `int`. -/
def promote (value : Value) : Value :=
  if value.type.bits < 32 then value.convert intType else value

def combinedType (left right : Value) : Primitive := left.promote.type.common right.promote.type

/-- The amount of a shift must be below the width of the shifted operand, and a shift of a
signed operand to the left must neither start from nor leave the nonnegative integers. -/
def shift (value : Value) (direction : Direction) (amount : Int) : Option Value :=
  if amount < 0 ∨ value.type.bits ≤ amount then none
  else
    match direction with
    | .right => some (ofInt value.type (value.toInt / 2 ^ amount.toNat))
    | .left =>
        let product := value.toInt * 2 ^ amount.toNat
        if value.type.signed ∧ (value.toInt < 0 ∨ 2 ^ value.type.valueBits ≤ product) then none
        else some (ofInt value.type product)

end Value

def Constant.value? (constant : Constant) : Option Value :=
  if constant.value < 2 ^ 32 ∧ constant.long = false then
    some (.ofInt (unsignedType .w32) constant.value)
  else if constant.value < 2 ^ 64 then some (.ofInt (unsignedType .w64) constant.value)
  else none

def Operator.apply (operator : Operator) (left right : Value) : Option Value :=
  let type := left.combinedType right
  let leftBits := left.promote.bitsAs type
  let rightBits := right.promote.bitsAs type
  match operator with
  | .shift direction => left.promote.shift direction right.promote.toInt
  | .and => some ⟨type, leftBits &&& rightBits⟩
  | .or => some ⟨type, leftBits ||| rightBits⟩
  | .notEqual => some (.ofInt intType (if leftBits = rightBits then 0 else 1))

/-! ## Memory -/

/-- A declared object. It has no bits until it is assigned. -/
structure Cell where
  type : Primitive
  bits : Option (BitVec type.bits)

abbrev Memory := Object → Option Cell

namespace Memory

def value? (memory : Memory) (object : Object) : Option Value :=
  (memory object).bind fun cell => cell.bits.map (Value.mk cell.type)

def declare (memory : Memory) (object : Object) (value : Value) : Memory := fun other =>
  if other = object then some ⟨value.type, some value.bits⟩ else memory other

def assign (memory : Memory) (object : Object) (value : Value) : Option Memory :=
  (memory object).map fun cell => memory.declare object (value.convert cell.type)

def ofArguments : List Parameter → List Value → Option Memory
  | [], [] => some fun _ => none
  | parameter :: parameters, argument :: arguments =>
      (ofArguments parameters arguments).map fun memory =>
        memory.declare (.named parameter.name) (argument.convert parameter.type)
  | _, _ => none

end Memory

/-! ## Evaluation -/

def Expression.eval (memory : Memory) : Expression → Option Value
  | .read object => memory.value? object
  | .literal constant => constant.value?
  | .cast type operand => (operand.eval memory).map fun value => value.convert type
  | .binary operator left right => do
      operator.apply (← left.eval memory) (← right.eval memory)

def Function.apply (function : Function) (arguments : List Value) : Option Value := do
  let memory ← Memory.ofArguments function.parameters arguments
  let value ← function.body.eval memory
  return value.convert function.result

def Call.eval (functions : List Function) (memory : Memory) (call : Call) : Option Value := do
  let function ← functions.find? fun function => function.name = call.function
  function.apply (← call.arguments.mapM (Expression.eval memory))

def Source.eval (functions : List Function) (memory : Memory) : Source → Option Value
  | .value expression => expression.eval memory
  | .result call => call.eval functions memory

def Assignment.run (functions : List Function) (memory : Memory) (assignment : Assignment) :
    Option Memory := do
  let value ← assignment.source.eval functions memory
  match assignment.operator with
  | none => memory.assign assignment.target value
  | some operator =>
      memory.assign assignment.target
        (← operator.apply (← memory.value? assignment.target) value)

def Statement.run (functions : List Function) (memory : Memory) : Statement → Option Memory
  | .assign assignment => assignment.run functions memory
  | .test condition assignment => do
      let value ← condition.eval memory
      if value.toInt = 0 then return memory else assignment.run functions memory

def run (functions : List Function) : Memory → List Statement → Option Memory
  | memory, [] => some memory
  | memory, statement :: rest => do run functions (← statement.run functions memory) rest

end C

end CanCodec
