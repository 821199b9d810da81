import CanCodec.C.Control
import CanCodec.Proofs.C.Arithmetic

/-! # What control flow does

Functions run on integers and on pointers to rows of the codec table. A step that C leaves
undefined has no result: a row outside the table, an overflow of a signed type, the end of a
function that returns nothing. A loop that needs more passes than it is granted has no
result either. -/

namespace CanCodec.C

/-- What C leaves to the platform. -/
structure Platform where
  sizeWidth : Width
  wide : 32 ≤ sizeWidth.bits
  error : ErrorNumber → Nat
  positive : ∀ number, 0 < error number
  small : ∀ number, error number < 2 ^ 31
  distinct : error .noEntry ≠ error .invalid

def Platform.sizeType (platform : Platform) : Primitive := unsignedType platform.sizeWidth

theorem Platform.valueBits_sizeType (platform : Platform) :
    32 ≤ platform.sizeType.valueBits := platform.wide

theorem Platform.lt_sizeType {platform : Platform} {natural : Nat} (small : natural < 2 ^ 31) :
    natural < 2 ^ platform.sizeType.valueBits :=
  Nat.lt_of_lt_of_le small
    (Nat.pow_le_pow_right (by decide) (Nat.le_trans (by decide) platform.valueBits_sizeType))

/-! ## Data -/

inductive Datum
  | integer (value : Value)
  /-- A pointer to a row of a table. -/
  | row (table : String) (index : Nat)
  | null
  /-- A pointer to a record or to a payload. -/
  | buffer

def Datum.integer? : Datum → Option Value
  | .integer value => some value
  | _ => none

def DataType.primitive? (platform : Platform) : DataType → Option Primitive
  | .int => some intType
  | .uint32 => some (unsignedType .w32)
  | .size => some platform.sizeType
  | .pointer _ => none

def Datum.convert (platform : Platform) (type : DataType) : Datum → Option Datum
  | .integer value => (type.primitive? platform).map fun primitive => .integer (value.convert primitive)
  | pointer => if (type.primitive? platform).isSome then none else some pointer

abbrev Scope := String → Option Datum

def Scope.set (scope : Scope) (name : String) (datum : Datum) : Scope := fun other =>
  if other = name then some datum else scope other

def Scope.ofArguments (platform : Platform) : List Declaration → List Datum → Option Scope
  | [], [] => some fun _ => none
  | parameter :: parameters, argument :: arguments => do
      let scope ← ofArguments platform parameters arguments
      return scope.set parameter.name (← argument.convert platform parameter.type)
  | _, _ => none

structure Entry where
  column : Column → Option Value
  operation : Operation → List Datum → Option Datum

structure Context where
  platform : Platform
  table : String → Option (List Entry)
  function : String → Option (List Datum → Option Datum)

def Context.rowAt? (context : Context) : Datum → Option Entry
  | .row table index => do (← context.table table)[index]?
  | _ => none

/-! ## Arithmetic -/

def Value.shared (left right : Value) : Int × Int :=
  let type := left.combinedType right
  ((left.promote.convert type).toInt, (right.promote.convert type).toInt)

def Arithmetic.compute (operation : Arithmetic) (left right : Int) : Option Int :=
  match operation with
  | .add => some (left + right)
  | .subtract => some (left - right)
  | .divide => if right = 0 then none else some (left.tdiv right)

/-- An unsigned result is reduced, and a signed one must have a place in its type. -/
def Arithmetic.apply (operation : Arithmetic) (left right : Value) : Option Value := do
  let type := left.combinedType right
  let operands := left.shared right
  let result ← operation.compute operands.1 operands.2
  if type.signed ∧ (Value.ofInt type result).toInt ≠ result then none
  else some (.ofInt type result)

/-! ## Terms and conditions -/

@[simp] def Term.eval (context : Context) (scope : Scope) : Term → Option Datum
  | .variable name => scope name
  | .literal constant => constant.value?.map .integer
  | .symbol definition => definition.constant.value?.map .integer
  | .zero => some (.integer (.ofInt intType 0))
  | .failure error => some (.integer (.ofInt intType (-(context.platform.error error : Int))))
  | .null => some .null
  | .arithmetic operation left right => do
      let first ← (← left.eval context scope).integer?
      let second ← (← right.eval context scope).integer?
      return .integer (← operation.apply first second)
  | .cell table index column => do
      let position ← (← index.eval context scope).integer?
      let entry ← context.rowAt? (.row table (← position.toInt.toNat?))
      return .integer (← entry.column column)
  | .row table index => do
      let position ← (← index.eval context scope).integer?
      let place ← position.toInt.toNat?
      let _ ← context.rowAt? (.row table place)
      return .row table place
  | .member pointer column => do
      let entry ← context.rowAt? (← scope pointer)
      return .integer (← entry.column column)
  | .call function arguments => do
      (← context.function function) (← arguments.mapM fun argument => scope argument.name)
  | .callMember pointer operation arguments => do
      let entry ← context.rowAt? (← scope pointer)
      entry.operation operation (← arguments.mapM fun argument => scope argument.name)

def Datum.equal? : Datum → Datum → Option Bool
  | .integer left, .integer right =>
      let operands := left.shared right
      some (operands.1 = operands.2)
  | .row table index, .row other place => some (table = other ∧ index = place)
  | .row _ _, .null | .null, .row _ _ => some false
  | .null, .null => some true
  | _, _ => none

def Condition.eval (context : Context) (scope : Scope) : Condition → Option Bool
  | .less left right => do
      let first ← (← left.eval context scope).integer?
      let second ← (← right.eval context scope).integer?
      let operands := first.shared second
      return operands.1 < operands.2
  | .equal left right => do
      (← left.eval context scope).equal? (← right.eval context scope)

/-! ## Blocks and procedures -/

inductive Outcome
  | fell (scope : Scope)
  | gave (datum : Datum)

def Outcome.proceed (next : Scope → Option Outcome) : Outcome → Option Outcome
  | .fell scope => next scope
  | .gave datum => some (.gave datum)

/-- Repeat a step while a condition holds, testing it `passes` times at most. -/
def iterate (condition : Scope → Option Bool) (step : Scope → Option Outcome) :
    Nat → Scope → Option Outcome
  | 0, _ => none
  | passes + 1, scope => do
      if ← condition scope then (← step scope).proceed (iterate condition step passes)
      else return .fell scope

@[simp] def Block.run (context : Context) (passes : Nat) : Block → Scope → Option Outcome
  | .stop, scope => some (.fell scope)
  | .blank rest, scope => rest.run context passes scope
  | .plain _ rest, scope => rest.run context passes scope
  | .declare type name value rest, scope => do
      let datum ← (← value.eval context scope).convert context.platform type
      rest.run context passes (scope.set name datum)
  | .assign name value rest, scope => do
      let datum ← value.eval context scope
      let current ← (← scope name).integer?
      let assigned := (← datum.integer?).convert current.type
      rest.run context passes (scope.set name (.integer assigned))
  | .test condition body rest, scope => do
      if ← condition.eval context scope then
        (← body.run context passes scope).proceed (rest.run context passes)
      else rest.run context passes scope
  | .choose condition first second rest, scope => do
      if ← condition.eval context scope then
        (← first.run context passes scope).proceed (rest.run context passes)
      else (← second.run context passes scope).proceed (rest.run context passes)
  | .loop condition body rest, scope => do
      (← iterate (condition.eval context) (body.run context passes) passes scope).proceed
        (rest.run context passes)
  | .give value, scope => (value.eval context scope).map .gave

def Procedure.apply (context : Context) (passes : Nat) (procedure : Procedure)
    (arguments : List Datum) : Option Datum := do
  let scope ← Scope.ofArguments context.platform procedure.signature.parameters arguments
  match ← procedure.body.run context passes scope with
  | .fell _ => none
  | .gave datum => datum.convert context.platform procedure.signature.result

/-! ## Nonnegative integers -/

namespace Value

variable {left right : Value} {first second : Nat}

theorem shared_of_toInt_eq (leftDenotes : left.toInt = first) (rightDenotes : right.toInt = second) :
    left.shared right = ((first : Int), (second : Int)) := by
  have leftSmall := lt_combinedType_left leftDenotes right
  have rightSmall := lt_combinedType_right left rightDenotes
  simp only [shared, convert, bitsAs, promote_of_toInt_eq leftDenotes,
    promote_of_toInt_eq rightDenotes]
  exact Prod.ext (toInt_ofInt leftSmall) (toInt_ofInt rightSmall)

theorem convert_of_toInt_eq {value : Value} {integer : Int} (denotes : value.toInt = integer)
    (type : Primitive) : value.convert type = ofInt type integer := by
  rw [convert, bitsAs, denotes]
  rfl

theorem thirty_one_le_combinedType (left right : Value) :
    31 ≤ (left.combinedType right).valueBits := by
  have promoted : 31 ≤ left.promote.type.valueBits := by
    rw [promote]
    split
    next => exact Nat.le_refl 31
    next =>
      rw [Primitive.valueBits]
      split <;> omega
  exact Nat.le_trans promoted (Primitive.valueBits_le_common_left _ _)

end Value

/-- Nonnegative integers are combined without overflow when the result is below `2 ^ 31`. -/
theorem Arithmetic.apply_of_compute {operation : Arithmetic} {left right : Value}
    {first second result : Nat} (leftDenotes : left.toInt = first)
    (rightDenotes : right.toInt = second)
    (computed : operation.compute first second = some (result : Int)) (small : result < 2 ^ 31) :
    ∃ value, operation.apply left right = some value ∧ value.toInt = result := by
  have power := Nat.pow_le_pow_right (n := 2) (by decide) (left.thirty_one_le_combinedType right)
  have represented : (Value.ofInt (left.combinedType right) result).toInt = result :=
    Value.toInt_ofInt (by omega)
  refine ⟨.ofInt (left.combinedType right) result, ?_, represented⟩
  rw [apply, Value.shared_of_toInt_eq leftDenotes rightDenotes]
  simp only [computed, Option.bind_eq_bind, Option.bind_some, represented, ne_eq,
    not_true_eq_false, and_false, if_false]

/-! ## Terms that denote natural numbers -/

def Term.Denotes (context : Context) (scope : Scope) (term : Term) (natural : Nat) : Prop :=
  ∃ value, term.eval context scope = some (.integer value) ∧ value.toInt = natural

section

variable {context : Context} {passes : Nat} {scope : Scope}

namespace Term.Denotes

variable {left right : Term} {first second : Nat}

theorem of_variable {name : String} (type : Primitive) {natural : Nat}
    (held : scope name = some (.integer (.ofInt type natural)))
    (small : natural < 2 ^ type.valueBits) :
    (Term.variable name).Denotes context scope natural :=
  ⟨_, held, Value.toInt_ofInt small⟩

theorem of_literal (constant : Constant) (small : constant.value < 2 ^ 32)
    (short : constant.long = false) : (literal constant).Denotes context scope constant.value := by
  rcases value?_literal constant small short with ⟨value, isValue, denotes⟩
  exact ⟨value, by simp [eval, isValue], denotes⟩

theorem of_symbol (definition : ConstantMacro) (small : definition.constant.value < 2 ^ 32)
    (short : definition.constant.long = false) :
    (symbol definition).Denotes context scope definition.constant.value := by
  rcases value?_literal definition.constant small short with ⟨value, isValue, denotes⟩
  exact ⟨value, by simp [eval, isValue], denotes⟩

theorem arithmetic {operation : Arithmetic} {result : Nat}
    (leftDenotes : left.Denotes context scope first)
    (rightDenotes : right.Denotes context scope second)
    (computed : operation.compute first second = some (result : Int)) (small : result < 2 ^ 31) :
    (Term.arithmetic operation left right).Denotes context scope result := by
  rcases leftDenotes with ⟨leftValue, leftEvaluated, leftDenotes⟩
  rcases rightDenotes with ⟨rightValue, rightEvaluated, rightDenotes⟩
  rcases Arithmetic.apply_of_compute leftDenotes rightDenotes computed small with
    ⟨value, applied, denotes⟩
  refine ⟨value, ?_, denotes⟩
  simp only [eval, leftEvaluated, rightEvaluated, Datum.integer?, applied, Option.bind_eq_bind,
    Option.bind_some, Option.pure_def]

theorem cell {table : String} {index : Term} {column : Column} {place natural : Nat}
    {entry : Entry} {value : Value} (indexDenotes : index.Denotes context scope place)
    (isEntry : context.rowAt? (.row table place) = some entry)
    (isValue : entry.column column = some value) (denotes : value.toInt = natural) :
    (Term.cell table index column).Denotes context scope natural := by
  rcases indexDenotes with ⟨position, evaluated, atPlace⟩
  refine ⟨value, ?_, denotes⟩
  simp only [eval, evaluated, Datum.integer?, Int.mem_toNat?.mpr atPlace, isEntry, isValue,
    Option.bind_eq_bind, Option.bind_some, Option.pure_def]

theorem member {pointer : String} {column : Column} {datum : Datum} {entry : Entry}
    {value : Value} {natural : Nat} (held : scope pointer = some datum)
    (isEntry : context.rowAt? datum = some entry) (isValue : entry.column column = some value)
    (denotes : value.toInt = natural) :
    (Term.member pointer column).Denotes context scope natural := by
  refine ⟨value, ?_, denotes⟩
  simp only [eval, held, isEntry, isValue, Option.bind_eq_bind, Option.bind_some, Option.pure_def]

theorem eval_row {table : String} {index : Term} {place : Nat} {entry : Entry}
    (indexDenotes : index.Denotes context scope place)
    (isEntry : context.rowAt? (.row table place) = some entry) :
    (Term.row table index).eval context scope = some (.row table place) := by
  rcases indexDenotes with ⟨position, evaluated, atPlace⟩
  simp only [eval, evaluated, Datum.integer?, Int.mem_toNat?.mpr atPlace, isEntry,
    Option.bind_eq_bind, Option.bind_some, Option.pure_def]

theorem eval_less (leftDenotes : left.Denotes context scope first)
    (rightDenotes : right.Denotes context scope second) :
    (Condition.less left right).eval context scope = some (decide (first < second)) := by
  rcases leftDenotes with ⟨leftValue, leftEvaluated, leftDenotes⟩
  rcases rightDenotes with ⟨rightValue, rightEvaluated, rightDenotes⟩
  simp only [Condition.eval, leftEvaluated, rightEvaluated, Datum.integer?, Option.bind_eq_bind,
    Option.bind_some, Option.pure_def, Value.shared_of_toInt_eq leftDenotes rightDenotes,
    Int.ofNat_lt]

theorem eval_equal (leftDenotes : left.Denotes context scope first)
    (rightDenotes : right.Denotes context scope second) :
    (Condition.equal left right).eval context scope = some (decide (first = second)) := by
  rcases leftDenotes with ⟨leftValue, leftEvaluated, leftDenotes⟩
  rcases rightDenotes with ⟨rightValue, rightEvaluated, rightDenotes⟩
  simp only [Condition.eval, leftEvaluated, rightEvaluated, Datum.equal?, Option.bind_eq_bind,
    Option.bind_some, Value.shared_of_toInt_eq leftDenotes rightDenotes, Int.natCast_inj]

end Term.Denotes

/-! ## Running blocks -/

namespace Block

variable {name : String} {value : Term} {natural : Nat}

theorem run_declare {type : DataType} {primitive : Primitive} (rest : Block)
    (isInteger : type.primitive? context.platform = some primitive)
    (denotes : value.Denotes context scope natural) :
    (declare type name value rest).run context passes scope =
      rest.run context passes (scope.set name (.integer (.ofInt primitive natural))) := by
  rcases denotes with ⟨integer, evaluated, denotes⟩
  simp only [run, evaluated, Datum.convert, isInteger, Option.map_some,
    Value.convert_of_toInt_eq denotes, Option.bind_eq_bind, Option.bind_some]

theorem run_declare_pointer {type : DataType} {datum : Datum} (rest : Block)
    (evaluated : value.eval context scope = some datum)
    (kept : datum.convert context.platform type = some datum) :
    (declare type name value rest).run context passes scope =
      rest.run context passes (scope.set name datum) := by
  simp only [run, evaluated, kept, Option.bind_eq_bind, Option.bind_some]

theorem run_assign {current : Value} (rest : Block)
    (held : scope name = some (.integer current))
    (denotes : value.Denotes context scope natural) :
    (assign name value rest).run context passes scope =
      rest.run context passes (scope.set name (.integer (.ofInt current.type natural))) := by
  rcases denotes with ⟨integer, evaluated, denotes⟩
  simp only [run, evaluated, held, Datum.integer?, Value.convert_of_toInt_eq denotes,
    Option.bind_eq_bind, Option.bind_some]

theorem run_test_true {condition : Condition} (body rest : Block)
    (isTrue : condition.eval context scope = some true) :
    (test condition body rest).run context passes scope =
      (body.run context passes scope).bind (Outcome.proceed (rest.run context passes)) := by
  simp only [run, isTrue, Option.bind_eq_bind, Option.bind_some, if_true]

theorem run_test_false {condition : Condition} (body rest : Block)
    (isFalse : condition.eval context scope = some false) :
    (test condition body rest).run context passes scope = rest.run context passes scope := by
  simp only [run, isFalse, Option.bind_eq_bind, Option.bind_some, Bool.false_eq_true, if_false]

theorem run_choose_true {condition : Condition} (first second rest : Block)
    (isTrue : condition.eval context scope = some true) :
    (choose condition first second rest).run context passes scope =
      (first.run context passes scope).bind (Outcome.proceed (rest.run context passes)) := by
  simp only [run, isTrue, Option.bind_eq_bind, Option.bind_some, if_true]

theorem run_choose_false {condition : Condition} (first second rest : Block)
    (isFalse : condition.eval context scope = some false) :
    (choose condition first second rest).run context passes scope =
      (second.run context passes scope).bind (Outcome.proceed (rest.run context passes)) := by
  simp only [run, isFalse, Option.bind_eq_bind, Option.bind_some, Bool.false_eq_true, if_false]

end Block

theorem Procedure.apply_of_run {procedure : Procedure} {arguments : List Datum} {given result : Datum}
    (bound : Scope.ofArguments context.platform procedure.signature.parameters arguments =
      some scope)
    (ran : procedure.body.run context passes scope = some (.gave given))
    (converted : given.convert context.platform procedure.signature.result = some result) :
    procedure.apply context passes arguments = some result := by
  simp only [apply, bound, ran, converted, Option.bind_eq_bind, Option.bind_some]

end

end CanCodec.C
