import CanCodec.Proofs.C.Transfer

/-! # Running C statements -/

namespace CanCodec.C

/-! ## Memory -/

namespace Memory

def Declares (memory : Memory) (object : Object) (type : Primitive) : Prop :=
  ∃ bits, memory object = some ⟨type, bits⟩

def Holds (memory : Memory) (pointer : String) (payload : Payload) : Prop :=
  ∀ index < payload.length,
    memory.value? (.element pointer index) = some (.unsigned .w8 (payload.getD index 0))

theorem value?_declare_self (memory : Memory) (object : Object) (value : Value) :
    (memory.declare object value).value? object = some value := by
  simp [value?, declare]

theorem value?_declare_of_ne {object other : Object} (memory : Memory) (value : Value)
    (different : other ≠ object) :
    (memory.declare object value).value? other = memory.value? other := by
  simp [value?, declare, different]

theorem declare_declare (memory : Memory) (object : Object) (first second : Value) :
    (memory.declare object first).declare object second = memory.declare object second := by
  funext other
  by_cases same : other = object
  · simp [declare, same]
  · simp [declare, same]

theorem Declares.of_value? {memory : Memory} {object : Object} {value : Value}
    (held : memory.value? object = some value) : memory.Declares object value.type := by
  rcases Option.bind_eq_some_iff.mp held with ⟨⟨type, bits⟩, found, stored⟩
  rcases Option.map_eq_some_iff.mp stored with ⟨_, _, rfl⟩
  exact ⟨bits, found⟩

theorem Declares.assign {memory : Memory} {object : Object} {type : Primitive}
    (declared : memory.Declares object type) (value : Value) :
    memory.assign object value = some (memory.declare object (value.convert type)) := by
  rcases declared with ⟨bits, found⟩
  rw [Memory.assign, found]
  rfl

theorem Holds.declare_named {memory : Memory} {pointer : String} {payload : Payload}
    (held : memory.Holds pointer payload) (name : String) (value : Value) :
    (memory.declare (.named name) value).Holds pointer payload := by
  intro index within
  rw [value?_declare_of_ne memory value (by simp)]
  exact held index within

end Memory

/-! ## Statements -/

theorem run_append (functions : List Function) (memory : Memory)
    (first second : List Statement) :
    run functions memory (first ++ second) =
      (run functions memory first).bind fun next => run functions next second := by
  induction first generalizing memory with
  | nil => rfl
  | cons statement rest induction =>
      simp only [List.cons_append, run]
      cases statement.run functions memory with
      | none => rfl
      | some next => exact induction next

theorem run_assign_cons {functions : List Function} {memory next : Memory}
    {assignment : Assignment} (ran : assignment.run functions memory = some next)
    (rest : List Statement) :
    run functions memory (.assign assignment :: rest) = run functions next rest := by
  rw [run, Statement.run, ran]
  rfl

section

variable {functions : List Function} {memory : Memory} {target : Object} {value : Value}

theorem run_assign {type : Primitive} (source : Source) (declared : memory.Declares target type)
    (evaluated : source.eval functions memory = some value) :
    Assignment.run functions memory { target := target, source := source } =
      some (memory.declare target (value.convert type)) := by
  simp only [Assignment.run, evaluated, Option.bind_eq_bind, Option.bind_some]
  exact declared.assign value

theorem run_addBits {width : Width} {bits added : BitVec width.bits} (source : Source)
    (held : memory.value? target = some (.unsigned width bits))
    (evaluated : source.eval functions memory = some value) (denotes : value.toInt = added.toNat) :
    Assignment.run functions memory
        { target := target, operator := some .or, source := source } =
      some (memory.declare target (.unsigned width (bits ||| added))) := by
  rcases Operator.apply_or (Value.toInt_unsigned width bits) denotes with
    ⟨combined, isCombined, result⟩
  have converted : combined.convert (unsignedType width) = .unsigned width (bits ||| added) :=
    Value.convert_unsigned result
  have declared : memory.Declares target (unsignedType width) := Memory.Declares.of_value? held
  simp only [Assignment.run, evaluated, held, isCombined, Option.bind_eq_bind, Option.bind_some]
  rw [declared.assign, converted]

end

end CanCodec.C
