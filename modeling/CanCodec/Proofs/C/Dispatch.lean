import CanCodec.Proofs.C.Search
import CanCodec.Proofs.Registry
import Mathlib.Data.List.Perm.Subperm

/-! # Generated dispatch and the registry

The generated table lists the codecs by ascending frame id. Its search finds what a registry
finds, and the functions that send and receive fail where the registry does. -/

namespace CanCodec.C

/-! ## The table -/

theorem dispatchOrder_perm (codecs : List Codec) : (dispatchOrder codecs).Perm codecs :=
  List.mergeSort_perm codecs _

theorem dispatchOrder_ascending {codecs : List Codec}
    (distinct : (codecs.map Codec.frameId).Nodup) :
    ((dispatchOrder codecs).map Codec.frameId).Pairwise (· < ·) := by
  have sorted : (dispatchOrder codecs).Pairwise fun first second =>
      decide (first.frameId ≤ second.frameId) = true := by
    apply List.pairwise_mergeSort
    · intro first second third
      simp only [decide_eq_true_eq]
      exact Nat.le_trans
    · intro first second
      simp only [Bool.or_eq_true, decide_eq_true_eq]
      exact Nat.le_total _ _
  have apart : ((dispatchOrder codecs).map Codec.frameId).Nodup :=
    ((dispatchOrder_perm codecs).map Codec.frameId).nodup_iff.mpr distinct
  rw [List.pairwise_map]
  rw [List.Nodup, List.pairwise_map] at apart
  exact (sorted.and apart).imp fun both => Nat.lt_of_le_of_ne (of_decide_eq_true both.1) both.2

theorem length_le_of_nodup {ids : List Nat} {limit : Nat} (distinct : ids.Nodup)
    (bounded : ∀ id ∈ ids, id ≤ limit) : ids.length ≤ limit + 1 := by
  have inRange : ids ⊆ List.range (limit + 1) := fun id member =>
    List.mem_range.mpr (Nat.lt_succ_of_le (bounded id member))
  have le := (List.subperm_of_subset distinct inRange).length_le
  rwa [List.length_range] at le

/-! ## What the generated functions do -/

def idDatum (frameId : Nat) : Datum := .integer (.ofInt (unsignedType .w32) frameId)

def Platform.sizeDatum (platform : Platform) (size : Nat) : Datum :=
  .integer (.ofInt platform.sizeType size)

def intDatum (integer : Int) : Datum := .integer (.ofInt intType integer)

def operationProcedure (options : Options) (codec : Codec) : Operation → Procedure
  | .pack => packProcedure options codec
  | .unpack => unpackProcedure options codec

def TableRow.column (row : TableRow) : Column → ConstantMacro
  | .frameId => row.frameId
  | .length => row.length

section

variable (platform : Platform) (options : Options) (passes : Nat)

def codingContext : Context where
  platform := platform
  table _ := none
  function _ := none

def runOperation (codec : Codec) (operation : Operation) : List Datum → Option Datum :=
  (erasedProcedure options codec.message operation).apply
    { codingContext platform with
      function := fun name =>
        if name = operationName options codec.message operation then
          some ((operationProcedure options codec operation).apply (codingContext platform) passes)
        else none }
    passes

def entryOf (codec : Codec) : Entry where
  column column := do
    let value ← ((tableRow options codec.message).column column).constant.value?
    (← (Datum.integer value).convert platform column.type).integer?
  operation := runOperation platform options passes codec

variable (codecs : List Codec)

def tableContext : Context where
  platform := platform
  table name :=
    if name = tableName options.database then
      some ((dispatchOrder codecs).map (entryOf platform options passes))
    else none
  function _ := none

def lookup : List Datum → Option Datum :=
  (lookupProcedure options codecs).apply (tableContext platform options passes codecs) passes

def dispatchContext : Context :=
  { tableContext platform options passes codecs with
    function := fun name =>
      if name = (lookupSignature options.database).name then
        some (lookup platform options passes codecs)
      else none }

def send : List Datum → Option Datum :=
  (sendProcedure options.database).apply (dispatchContext platform options passes codecs) passes

def receive : List Datum → Option Datum :=
  (receiveProcedure options.database).apply (dispatchContext platform options passes codecs)
    passes

end

/-! ## Packing and unpacking one message -/

theorem convert_intDatum (platform : Platform) (integer : Int) :
    (intDatum integer).convert platform .int = some (intDatum integer) := by
  simp only [Datum.convert, intDatum, DataType.primitive?, Option.map_some]
  rw [Value.convert_ofInt (Nat.le_refl _)]

theorem convert_sizeDatum (platform : Platform) (size : Nat) :
    (platform.sizeDatum size).convert platform .size = some (platform.sizeDatum size) := by
  simp only [Datum.convert, Platform.sizeDatum, DataType.primitive?, Option.map_some]
  rw [Value.convert_ofInt (Nat.le_refl _)]

def codingScope (platform : Platform) (size : Nat) : Scope :=
  ((Scope.set (fun _ => none) "size" (platform.sizeDatum size)).set "src_p" .buffer).set "dst_p"
    .buffer

theorem ofArguments_coding (platform : Platform) (target source : String) (size : Nat) :
    Scope.ofArguments platform
        [⟨.pointer target, "dst_p"⟩, ⟨.pointer source, "src_p"⟩, ⟨.size, "size"⟩]
        [.buffer, .buffer, platform.sizeDatum size] =
      some (codingScope platform size) := by
  simp only [Scope.ofArguments, convert_sizeDatum, Option.bind_eq_bind, Option.bind_some,
    Option.pure_def]
  rfl

def successResult (codec : Codec) : Operation → Nat
  | .pack => codec.wireLength
  | .unpack => 0

theorem successResult_le (codec : Codec) (operation : Operation) :
    successResult codec operation ≤ codec.wireLength := by
  cases operation with
  | pack => exact Nat.le_refl _
  | unpack => exact Nat.zero_le _

def operationResult (platform : Platform) (codec : Codec) (operation : Operation) (size : Nat) :
    Int :=
  if size < codec.wireLength then -(platform.error .invalid : Int)
  else successResult codec operation

section

variable {platform : Platform} {options : Options} {passes size : Nat} {codec : Codec}

theorem run_sizeTest {context : Context} {scope : Scope} {message : Message} (rest : Block)
    (held : scope "size" = some (context.platform.sizeDatum size))
    (sized : size < 2 ^ context.platform.sizeType.valueBits)
    (short : message.length ≤ Message.maxLength) :
    (sizeTest options message rest).run context passes scope =
      if size < message.length then some (.gave (intDatum (-(context.platform.error .invalid : Int))))
      else rest.run context passes scope := by
  have lengthDenotes : (Term.symbol (lengthMacro options message)).Denotes context scope
      message.length :=
    .of_symbol (lengthMacro options message) (Nat.lt_of_le_of_lt short (by decide)) rfl
  have tested := Term.Denotes.eval_less (.of_variable _ held sized) lengthDenotes
  by_cases below : size < message.length
  · rw [decide_eq_true below] at tested
    rw [sizeTest, Block.run_test_true _ _ tested, if_pos below]
    rfl
  · rw [decide_eq_false below] at tested
    rw [sizeTest, Block.run_test_false _ _ tested, if_neg below]

theorem apply_operationProcedure (options : Options) (passes : Nat) (operation : Operation)
    (sized : size < 2 ^ platform.sizeType.valueBits)
    (short : codec.wireLength ≤ Message.maxLength) :
    (operationProcedure options codec operation).apply (codingContext platform) passes
        [.buffer, .buffer, platform.sizeDatum size] =
      some (intDatum (operationResult platform codec operation size)) := by
  have tested : ∀ rest, (sizeTest options codec.message rest).run (codingContext platform) passes
      (codingScope platform size) =
        if size < codec.wireLength then some (.gave (intDatum (-(platform.error .invalid : Int))))
        else rest.run (codingContext platform) passes (codingScope platform size) :=
    fun rest => run_sizeTest rest rfl sized short
  rw [operationResult]
  by_cases below : size < codec.wireLength
  · rw [if_pos below]
    cases operation with
    | pack =>
        apply Procedure.apply_of_run (ofArguments_coding platform _ _ size) _
          (convert_intDatum platform _)
        simp only [operationProcedure, packProcedure, Block.run, tested, if_pos below]
    | unpack =>
        apply Procedure.apply_of_run (ofArguments_coding platform _ _ size) _
          (convert_intDatum platform _)
        simp only [operationProcedure, unpackProcedure, Block.run, tested, if_pos below]
  · rw [if_neg below]
    cases operation with
    | pack =>
        have lengthDenotes : (Term.symbol (lengthMacro options codec.message)).Denotes
            (codingContext platform) (codingScope platform size) codec.wireLength :=
          .of_symbol _ (Nat.lt_of_le_of_lt short (by decide)) rfl
        rcases lengthDenotes with ⟨value, evaluated, denotes⟩
        refine Procedure.apply_of_run (ofArguments_coding platform _ _ size)
          (?_ : _ = some (Outcome.gave (.integer value))) ?_
        · simp only [operationProcedure, packProcedure, Block.run, tested, if_neg below, evaluated]
          rfl
        · simp only [operationProcedure, packProcedure, Datum.convert, DataType.primitive?,
            Option.map_some, Value.convert_of_toInt_eq denotes]
          rfl
    | unpack =>
        apply Procedure.apply_of_run (ofArguments_coding platform _ _ size) _
          (convert_intDatum platform _)
        simp only [operationProcedure, unpackProcedure, Block.run, tested, if_neg below]
        rfl

theorem runOperation_eq (options : Options) (passes : Nat) (operation : Operation)
    (sized : size < 2 ^ platform.sizeType.valueBits)
    (short : codec.wireLength ≤ Message.maxLength) :
    runOperation platform options passes codec operation
        [.buffer, .buffer, platform.sizeDatum size] =
      some (intDatum (operationResult platform codec operation size)) := by
  have applied := apply_operationProcedure options passes operation sized short
  cases operation with
  | pack =>
      apply Procedure.apply_of_run (ofArguments_coding platform _ _ size) _
        (convert_intDatum platform _)
      simp only [erasedProcedure, Block.run, Term.eval, if_true, Option.bind_eq_bind,
        Option.bind_some]
      exact congrArg (Option.map Outcome.gave) applied
  | unpack =>
      apply Procedure.apply_of_run (ofArguments_coding platform _ _ size) _
        (convert_intDatum platform _)
      simp only [erasedProcedure, Block.run, Term.eval, if_true, Option.bind_eq_bind,
        Option.bind_some]
      exact congrArg (Option.map Outcome.gave) applied

end

/-! ## Functions that work on the row of a frame id -/

structure RowArguments (platform : Platform) (frameId size : Nat) (scope : Scope) : Prop where
  id : scope "frame_id" = some (idDatum frameId)
  size : scope "size" = some (platform.sizeDatum size)
  target : scope "dst_p" = some .buffer
  source : scope "src_p" = some .buffer

section

variable {context : Context} {scope : Scope} {frameId size passes : Nat} {database : String}
  {find : List Datum → Option Datum}

theorem run_rowProcedure (signature : Signature) (operation : Operation) {datum : Datum}
    (arguments : RowArguments context.platform frameId size scope)
    (linked : context.function (lookupSignature database).name = some find)
    (found : find [idDatum frameId] = some datum) (pointer : datum.integer? = none) :
    (rowProcedure database signature operation).body.run context passes scope =
      (rowBody operation).run context passes (scope.set "entry_p" datum) := by
  have called : (Term.call (lookupSignature database).name [⟨"frame_id", none⟩]).eval context
      scope = some datum := by
    simp only [Term.eval, linked, List.mapM_cons, List.mapM_nil, arguments.id, found,
      Option.bind_eq_bind, Option.bind_some, Option.pure_def]
  have kept : datum.convert context.platform (.pointer ("const " ++ entryTag database)) =
      some datum := by
    cases datum with
    | integer => cases pointer
    | row | null | buffer => rfl
  rw [rowProcedure, Block.run_declare_pointer _ called kept, Block.run]

theorem run_rowBody_null (operation : Operation) (atEntry : scope "entry_p" = some .null) :
    (rowBody operation).run context passes scope =
      some (.gave (intDatum (-(context.platform.error .noEntry : Int)))) := by
  have absent : (Condition.equal (.variable "entry_p") .null).eval context scope = some true := by
    simp only [Condition.eval, Term.eval, atEntry, Datum.equal?, Option.bind_eq_bind,
      Option.bind_some]
  rw [rowBody, Block.run_test_true _ _ absent]
  rfl

theorem run_rowBody_row (operation : Operation) {table : String} {index length : Nat}
    {entry : Entry} {value : Value} {result : Int}
    (arguments : RowArguments context.platform frameId size scope)
    (atEntry : scope "entry_p" = some (.row table index))
    (isEntry : context.rowAt? (.row table index) = some entry)
    (isLength : entry.column .length = some value) (denotes : value.toInt = length)
    (sized : size < 2 ^ context.platform.sizeType.valueBits)
    (operated : entry.operation operation
      [.buffer, .buffer, context.platform.sizeDatum size] = some (intDatum result)) :
    (rowBody operation).run context passes scope =
      some (.gave (intDatum
        (if size < length then -(context.platform.error .invalid : Int) else result))) := by
  have present : (Condition.equal (.variable "entry_p") .null).eval context scope = some false := by
    simp only [Condition.eval, Term.eval, atEntry, Datum.equal?, Option.bind_eq_bind,
      Option.bind_some]
  have tested := Term.Denotes.eval_less (.of_variable _ arguments.size sized)
    (Term.Denotes.member atEntry isEntry isLength denotes)
  rw [rowBody, Block.run_test_false _ _ present, Block.run]
  by_cases below : size < length
  · rw [decide_eq_true below] at tested
    rw [Block.run_test_true _ _ tested, if_pos below]
    rfl
  · rw [decide_eq_false below] at tested
    rw [Block.run_test_false _ _ tested, if_neg below]
    simp only [Block.run, Term.eval, atEntry, isEntry, List.mapM_cons, List.mapM_nil,
      arguments.target, arguments.source, arguments.size, operated, Option.bind_eq_bind,
      Option.bind_some, Option.pure_def, Option.map_some]

end

/-! ## The rows of a plan -/

structure Dispatchable (codecs : List Codec) : Prop where
  distinct : (codecs.map Codec.frameId).Nodup
  ids : ∀ codec ∈ codecs, codec.frameId ≤ Message.maxExtendedId
  lengths : ∀ codec ∈ codecs, codec.wireLength ≤ Message.maxLength

theorem Dispatchable.of_plan {schema : Schema} {options : Options} {codebook : Codebook}
    (planned : Codebook.plan schema options = .ok codebook) : Dispatchable codebook.codecs where
  distinct := Codebook.nodup_frameIds planned
  ids _ member := (schema.message_bounds (Codebook.message_mem planned member)).1
  lengths _ member := (schema.message_bounds (Codebook.message_mem planned member)).2

section

variable {platform : Platform} {options : Options} {passes frameId size : Nat} {codec : Codec}
  {codecs : List Codec}

theorem Dispatchable.length_le (dispatchable : Dispatchable codecs) :
    codecs.length ≤ Message.maxExtendedId + 1 := by
  have le := length_le_of_nodup dispatchable.distinct fun id member => by
    rcases List.mem_map.mp member with ⟨codec, codecMember, same⟩
    rw [← same]
    exact dispatchable.ids codec codecMember
  rwa [List.length_map] at le

variable (platform options passes) in
theorem entryOf_frameId (small : codec.frameId < 2 ^ 32) :
    ∃ value, (entryOf platform options passes codec).column .frameId = some value ∧
      value.toInt = codec.frameId := by
  rcases value?_literal (frameIdMacro options codec.message).constant small rfl with
    ⟨value, isValue, denotes⟩
  refine ⟨.ofInt (unsignedType .w32) codec.frameId, ?_, Value.toInt_ofInt small⟩
  simp only [entryOf, TableRow.column, tableRow, isValue, Datum.convert, Column.type,
    DataType.primitive?, Value.convert_of_toInt_eq denotes, Datum.integer?, Option.bind_eq_bind,
    Option.bind_some, Option.map_some]
  rfl

variable (platform options passes) in
theorem entryOf_length (short : codec.wireLength ≤ Message.maxLength) :
    ∃ value, (entryOf platform options passes codec).column .length = some value ∧
      value.toInt = codec.wireLength := by
  rcases value?_literal (lengthMacro options codec.message).constant
    (Nat.lt_of_le_of_lt short (by decide)) rfl with ⟨value, isValue, denotes⟩
  refine ⟨.ofInt platform.sizeType codec.wireLength, ?_,
    Value.toInt_ofInt (Platform.lt_sizeType (Nat.lt_of_le_of_lt short (by decide)))⟩
  simp only [entryOf, TableRow.column, tableRow, isValue, Datum.convert, Column.type,
    DataType.primitive?, Value.convert_of_toInt_eq denotes, Datum.integer?, Option.bind_eq_bind,
    Option.bind_some, Option.map_some]
  rfl

theorem rowAt?_tableContext (index : Nat) :
    (tableContext platform options passes codecs).rowAt? (.row (tableName options.database) index) =
      ((dispatchOrder codecs)[index]?).map (entryOf platform options passes) := by
  simp only [Context.rowAt?, tableContext, if_true, Option.bind_eq_bind, Option.bind_some,
    List.getElem?_map]

theorem Dispatchable.lists (dispatchable : Dispatchable codecs) :
    (tableContext platform options passes codecs).Lists (tableName options.database)
      ((dispatchOrder codecs).map Codec.frameId) := by
  have order := dispatchOrder_perm codecs
  have small : ∀ codec ∈ dispatchOrder codecs, codec.frameId < 2 ^ 32 := fun codec member =>
    Nat.lt_of_le_of_lt (dispatchable.ids codec (order.mem_iff.mp member)) (by decide)
  constructor
  · intro index id atIndex
    rw [List.getElem?_map] at atIndex
    rcases Option.map_eq_some_iff.mp atIndex with ⟨codec, atRow, same⟩
    rcases entryOf_frameId platform options passes
      (small codec (List.mem_of_getElem? atRow)) with ⟨value, isValue, denotes⟩
    exact ⟨_, value, by rw [rowAt?_tableContext, atRow]; rfl, isValue, by rw [denotes, same]⟩
  · exact dispatchOrder_ascending dispatchable.distinct
  · intro id member
    rcases List.mem_map.mp member with ⟨codec, codecMember, same⟩
    rw [← same]
    exact small codec codecMember
  · have le := dispatchable.length_le
    rw [List.length_map, order.length_eq]
    exact Nat.lt_of_le_of_lt le (by decide)

theorem convert_idDatum (platform : Platform) (frameId : Nat) :
    (idDatum frameId).convert platform .uint32 = some (idDatum frameId) := by
  simp only [Datum.convert, idDatum, DataType.primitive?, Option.map_some]
  rw [Value.convert_ofInt (Nat.le_refl _)]

def searchScope (platform : Platform) (count frameId : Nat) : Scope :=
  ((Scope.set (fun _ => none) "frame_id" (idDatum frameId)).set "low"
    (platform.sizeDatum 0)).set "high" (platform.sizeDatum count)

theorem searching_searchScope (platform : Platform) (ids : List Nat) (frameId : Nat) :
    Searching platform ids frameId 0 ids.length (searchScope platform ids.length frameId) := by
  refine ⟨rfl, rfl, rfl, Nat.zero_le _, Nat.le_refl _, fun index id _ below => ?_,
    fun index id atIndex above => ?_⟩
  · cases below
  · rw [List.getElem?_eq_none above] at atIndex
    cases atIndex

theorem apply_lookupProcedure {context : Context} {outcome : Outcome} {result : Datum}
    (small : codecs.length < 2 ^ 32)
    (searched : iterate ((Condition.less (.variable "low") (.variable "high")).eval context)
      ((searchPass (tableName options.database)).run context passes) passes
      (searchScope context.platform codecs.length frameId) = some outcome)
    (ended : outcome.proceed (fun _ => some (.gave .null)) = some (.gave result))
    (pointer : result.integer? = none) :
    (lookupProcedure options codecs).apply context passes [idDatum frameId] = some result := by
  have bound : Scope.ofArguments context.platform (lookupSignature options.database).parameters
      [idDatum frameId] = some (Scope.set (fun _ => none) "frame_id" (idDatum frameId)) := by
    simp only [lookupSignature, Scope.ofArguments, convert_idDatum, Option.bind_eq_bind,
      Option.bind_some, Option.pure_def]
  refine Procedure.apply_of_run bound ?_ (?_ : result.convert _ _ = some result)
  · have zeroDenotes : ∀ scope, (Term.literal { value := 0 }).Denotes context scope 0 :=
      fun scope => .of_literal { value := 0 } (by decide) rfl
    have countDenotes : ∀ scope, (Term.symbol (messageCount options codecs)).Denotes context scope
        codecs.length := fun scope => .of_symbol (messageCount options codecs) small rfl
    rw [lookupProcedure, Block.run_declare _ rfl (zeroDenotes _),
      Block.run_declare _ rfl (countDenotes _), Block.run, Block.run]
    simp only [searchScope, Platform.sizeDatum] at searched
    rw [searched]
    exact ended
  · cases result with
    | integer => cases pointer
    | row | null | buffer => rfl

theorem lookup_cases (dispatchable : Dispatchable codecs) (platform : Platform)
    (options : Options) (enough : codecs.length < passes) (small : frameId < 2 ^ 32) :
    (∃ index codec, (dispatchOrder codecs)[index]? = some codec ∧ codec.frameId = frameId ∧
      lookup platform options passes codecs [idDatum frameId] =
        some (.row (tableName options.database) index)) ∨
    (∀ codec ∈ codecs, codec.frameId ≠ frameId) ∧
      lookup platform options passes codecs [idDatum frameId] = some .null := by
  have lists : (tableContext platform options passes codecs).Lists _ _ := dispatchable.lists
  have order := dispatchOrder_perm codecs
  have length : ((dispatchOrder codecs).map Codec.frameId).length = codecs.length := by
    rw [List.length_map, order.length_eq]
  have searching := searching_searchScope platform ((dispatchOrder codecs).map Codec.frameId) frameId
  rw [length] at searching
  have few : codecs.length < 2 ^ 32 := Nat.lt_of_le_of_lt dispatchable.length_le (by decide)
  rcases Searching.run searching lists small passes passes (by omega) with
    ⟨index, atIndex, gave⟩ | ⟨absent, last, fell⟩
  · left
    rw [List.getElem?_map] at atIndex
    rcases Option.map_eq_some_iff.mp atIndex with ⟨codec, atRow, same⟩
    exact ⟨index, codec, atRow, same, apply_lookupProcedure few gave rfl rfl⟩
  · right
    refine ⟨fun codec member same => ?_, apply_lookupProcedure few fell rfl rfl⟩
    exact absent (List.mem_map.mpr ⟨codec, order.mem_iff.mpr member, same⟩)

/-! ## Sending and receiving -/

theorem RowArguments.set_entry {scope : Scope}
    (arguments : RowArguments platform frameId size scope) (datum : Datum) :
    RowArguments platform frameId size (scope.set "entry_p" datum) :=
  ⟨arguments.id, arguments.size, arguments.target, arguments.source⟩

theorem exists_sendScope (platform : Platform) (database : String) (frameId size : Nat) :
    ∃ scope, Scope.ofArguments platform (sendSignature database).parameters
        [idDatum frameId, .buffer, .buffer, platform.sizeDatum size] = some scope ∧
      RowArguments platform frameId size scope := by
  have bound : Scope.ofArguments platform (sendSignature database).parameters
      [idDatum frameId, .buffer, .buffer, platform.sizeDatum size] =
        some ((((Scope.set (fun _ => none) "size" (platform.sizeDatum size)).set "dst_p"
          .buffer).set "src_p" .buffer).set "frame_id" (idDatum frameId)) := by
    simp only [sendSignature, Scope.ofArguments, convert_idDatum, convert_sizeDatum,
      Option.bind_eq_bind, Option.bind_some, Option.pure_def]
    rfl
  exact ⟨_, bound, rfl, rfl, rfl, rfl⟩

theorem exists_receiveScope (platform : Platform) (database : String) (frameId size : Nat) :
    ∃ scope, Scope.ofArguments platform (receiveSignature database).parameters
        [idDatum frameId, .buffer, platform.sizeDatum size, .buffer] = some scope ∧
      RowArguments platform frameId size scope := by
  have bound : Scope.ofArguments platform (receiveSignature database).parameters
      [idDatum frameId, .buffer, platform.sizeDatum size, .buffer] =
        some ((((Scope.set (fun _ => none) "dst_p" .buffer).set "size"
          (platform.sizeDatum size)).set "src_p" .buffer).set "frame_id" (idDatum frameId)) := by
    simp only [receiveSignature, Scope.ofArguments, convert_idDatum, convert_sizeDatum,
      Option.bind_eq_bind, Option.bind_some, Option.pure_def]
    rfl
  exact ⟨_, bound, rfl, rfl, rfl, rfl⟩

section

variable {signature : Signature} {arguments : List Datum} {scope : Scope}

theorem apply_rowProcedure_null (operation : Operation) (isInt : signature.result = .int)
    (bound : Scope.ofArguments platform signature.parameters arguments = some scope)
    (given : RowArguments platform frameId size scope)
    (absent : lookup platform options passes codecs [idDatum frameId] = some .null) :
    (rowProcedure options.database signature operation).apply
        (dispatchContext platform options passes codecs) passes arguments =
      some (intDatum (-(platform.error .noEntry : Int))) := by
  have linked : (dispatchContext platform options passes codecs).function
      (lookupSignature options.database).name = some (lookup platform options passes codecs) :=
    if_pos rfl
  apply Procedure.apply_of_run bound
  · rw [run_rowProcedure signature operation given linked absent rfl]
    exact run_rowBody_null operation rfl
  · rw [rowProcedure, isInt]
    exact convert_intDatum platform _

theorem apply_rowProcedure_row (operation : Operation) {index : Nat}
    (isInt : signature.result = .int)
    (bound : Scope.ofArguments platform signature.parameters arguments = some scope)
    (given : RowArguments platform frameId size scope)
    (sized : size < 2 ^ platform.sizeType.valueBits)
    (short : codec.wireLength ≤ Message.maxLength)
    (atRow : (dispatchOrder codecs)[index]? = some codec)
    (found : lookup platform options passes codecs [idDatum frameId] =
      some (.row (tableName options.database) index)) :
    (rowProcedure options.database signature operation).apply
        (dispatchContext platform options passes codecs) passes arguments =
      some (intDatum (operationResult platform codec operation size)) := by
  have linked : (dispatchContext platform options passes codecs).function
      (lookupSignature options.database).name = some (lookup platform options passes codecs) :=
    if_pos rfl
  have isEntry : (dispatchContext platform options passes codecs).rowAt?
      (.row (tableName options.database) index) = some (entryOf platform options passes codec) :=
    (rowAt?_tableContext index).trans (by rw [atRow]; rfl)
  rcases entryOf_length platform options passes short with ⟨value, isLength, denotes⟩
  have operated := runOperation_eq options passes operation sized short
  -- The function of the row makes the same test again.
  have sameTest : (if size < codec.wireLength then -(platform.error .invalid : Int)
      else operationResult platform codec operation size) =
        operationResult platform codec operation size := by
    rw [operationResult]
    split <;> rfl
  refine Procedure.apply_of_run bound
    (?_ : _ = some (Outcome.gave (intDatum (operationResult platform codec operation size)))) ?_
  · rw [run_rowProcedure signature operation given linked found rfl,
      run_rowBody_row operation (given.set_entry _) rfl isEntry isLength denotes sized operated]
    exact congrArg (fun result => some (Outcome.gave (intDatum result))) sameTest
  · rw [rowProcedure, isInt]
    exact convert_intDatum platform _

end

end

/-! ## The registry -/

theorem toInt_ofInt_intType {integer : Int} (low : -2 ^ 31 ≤ integer) (high : integer < 2 ^ 31) :
    (Value.ofInt intType integer).toInt = integer :=
  BitVec.toInt_ofInt_eq_self (w := 32) (by decide) low high

theorem toInt_error (platform : Platform) (number : ErrorNumber) :
    (Value.ofInt intType (-(platform.error number : Int))).toInt = -(platform.error number : Int) := by
  have small := platform.small number
  apply toInt_ofInt_intType <;> omega

theorem toInt_operationResult (platform : Platform) {codec : Codec} (operation : Operation)
    (size : Nat) (short : codec.wireLength ≤ Message.maxLength) :
    (Value.ofInt intType (operationResult platform codec operation size)).toInt =
      operationResult platform codec operation size := by
  have small := platform.small .invalid
  have limit : Message.maxLength = 64 := rfl
  have success := successResult_le codec operation
  have bounds : -2 ^ 31 ≤ operationResult platform codec operation size ∧
      operationResult platform codec operation size < 2 ^ 31 := by
    rw [operationResult]
    split <;> omega
  exact toInt_ofInt_intType bounds.1 bounds.2

theorem operationResult_ne_noEntry (platform : Platform) (codec : Codec) (operation : Operation)
    (size : Nat) :
    operationResult platform codec operation size ≠ -(platform.error .noEntry : Int) := by
  have distinct := platform.distinct
  have positive := platform.positive .noEntry
  rw [operationResult]
  split <;> omega

theorem operationResult_eq_invalid_iff (platform : Platform) (codec : Codec)
    (operation : Operation) (size : Nat) :
    operationResult platform codec operation size = -(platform.error .invalid : Int) ↔
      size < codec.wireLength := by
  have positive := platform.positive .invalid
  rw [operationResult]
  split <;> omega

section

variable {platform : Platform} {schema : Schema} {options : Options} {codebook : Codebook}
  {passes frameId size : Nat}

theorem lookup_agrees (planned : Codebook.plan schema options = .ok codebook)
    (platform : Platform) (enough : codebook.codecs.length < passes) (small : frameId < 2 ^ 32) :
    (∃ index codec, (dispatchOrder codebook.codecs)[index]? = some codec ∧
      (Registry.ofCodebook codebook).codec frameId = .ok codec ∧
      lookup platform options passes codebook.codecs [idDatum frameId] =
        some (.row (tableName options.database) index)) ∨
    (Registry.ofCodebook codebook).codec frameId = .error (.unknownFrame frameId) ∧
      lookup platform options passes codebook.codecs [idDatum frameId] = some .null := by
  have dispatchable := Dispatchable.of_plan planned
  rcases lookup_cases dispatchable platform options enough small with
    ⟨index, codec, atRow, same, found⟩ | ⟨absent, found⟩
  · left
    have member := (dispatchOrder_perm codebook.codecs).mem_iff.mp (List.mem_of_getElem? atRow)
    exact ⟨index, codec, atRow,
      (Registry.codec_ok_iff dispatchable.distinct).mpr ⟨member, same⟩, found⟩
  · right
    exact ⟨Registry.codec_error_iff.mpr ⟨rfl, absent⟩, found⟩

theorem rowProcedure_agrees (planned : Codebook.plan schema options = .ok codebook)
    (enough : codebook.codecs.length < passes) (small : frameId < 2 ^ 32)
    {signature : Signature} {arguments : List Datum} {scope : Scope} (operation : Operation)
    (isInt : signature.result = .int)
    (bound : Scope.ofArguments platform signature.parameters arguments = some scope)
    (given : RowArguments platform frameId size scope)
    (sized : size < 2 ^ platform.sizeType.valueBits) :
    (∃ codec, (Registry.ofCodebook codebook).codec frameId = .ok codec ∧
      (rowProcedure options.database signature operation).apply
          (dispatchContext platform options passes codebook.codecs) passes arguments =
        some (intDatum (operationResult platform codec operation size))) ∨
    (Registry.ofCodebook codebook).codec frameId = .error (.unknownFrame frameId) ∧
      (rowProcedure options.database signature operation).apply
          (dispatchContext platform options passes codebook.codecs) passes arguments =
        some (intDatum (-(platform.error .noEntry : Int))) := by
  rcases lookup_agrees planned platform enough small with
    ⟨index, codec, atRow, known, found⟩ | ⟨unknown, found⟩
  · left
    have short := (Dispatchable.of_plan planned).lengths codec (Registry.of_codec_ok known).1
    exact ⟨codec, known,
      apply_rowProcedure_row operation isInt bound given sized short atRow found⟩
  · right
    exact ⟨unknown, apply_rowProcedure_null operation isInt bound given found⟩

end

def alerts : Schema where
  version := none
  messages :=
    [{ frameId := 0x321, name := "Horn", length := 1
       signals := [{ name := "Tone", start := 0, length := 4, byteOrder := .littleEndian }] },
      { frameId := 0x64, name := "Wiper", length := 2, signals := [] },
      { frameId := 0x1abcdef0, extended := true, name := "Alarm", length := 8, signals := [] }]
  sound := by decide

def alertCodecs : List Codec :=
  alerts.messages.map fun message =>
    ⟨message, .ofPlan message.name false (message.signals.map Frame.placing)⟩

def platform64 : Platform where
  sizeWidth := .w64
  wide := by decide
  error
    | .noEntry => 2
    | .invalid => 22
  positive number := by cases number <;> decide
  small number := by cases number <;> decide
  distinct := by decide

end CanCodec.C
