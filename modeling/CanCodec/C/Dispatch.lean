import CanCodec.C.Header

/-! # Dispatch by frame id

A table sorted by frame id, a binary search over it, and functions that send and
receive by frame id. -/

namespace CanCodec.C

/-! ## Declarations -/

def messageCountName (options : Options) : String := databaseMacro options ++ "_MESSAGE_COUNT"

def messageCount (options : Options) (codecs : List Codec) : ConstantMacro where
  name := messageCountName options
  constant := { value := codecs.length }

def entryTag (database : String) : String := s!"struct {database}_codec_entry_t"

def erasedParameters : Operation → List Declaration
  | .pack =>
      [⟨.pointer "uint8_t", "dst_p"⟩, ⟨.pointer "const void", "src_p"⟩, ⟨.size, "size"⟩]
  | .unpack =>
      [⟨.pointer "void", "dst_p"⟩, ⟨.pointer "const uint8_t", "src_p"⟩, ⟨.size, "size"⟩]

def functionType (database : String) (operation : Operation) : Item :=
  let parameters := ", ".intercalate ((erasedParameters operation).map Declaration.text)
  .code s!"typedef int (*{database}_{operation.name}_fn_t)({parameters});"

def columnItem (column : Column) : Item :=
  .code ("    " ++ (Declaration.mk column.type column.name).text ++ ";")

def functionItem (database : String) (operation : Operation) : Item :=
  .code s!"    {database}_{operation.name}_fn_t {operation.name};"

def entryTypes (database : String) : Document :=
  [functionType database .pack, functionType database .unpack, .blank,
    .code (entryTag database ++ " \x7b"),
    columnItem .frameId, columnItem .length, .code "    size_t record_size;",
    functionItem database .pack, functionItem database .unpack,
    .code "\x7d;", .blank]

def lookupSignature (database : String) : Signature where
  result := .pointer ("const " ++ entryTag database)
  name := s!"{database}_transceiver_lookup"
  parameters := [⟨.uint32, "frame_id"⟩]

def sendSignature (database : String) : Signature where
  result := .int
  name := s!"{database}_transceiver_send"
  parameters :=
    [⟨.uint32, "frame_id"⟩, ⟨.pointer "const void", "src_p"⟩, ⟨.pointer "uint8_t", "dst_p"⟩,
      ⟨.size, "size"⟩]

def receiveSignature (database : String) : Signature where
  result := .int
  name := s!"{database}_transceiver_receive"
  parameters :=
    [⟨.uint32, "frame_id"⟩, ⟨.pointer "const uint8_t", "src_p"⟩, ⟨.size, "size"⟩,
      ⟨.pointer "void", "dst_p"⟩]

def prototypes (database : String) : Document :=
  [.doc "" [docLine "Find the codec of given frame id.", docBreak,
      docLine "@return Table entry, or NULL if the frame id is unknown."],
    .code ((lookupSignature database).text ++ ";"), .blank,
    .doc "" [docLine "Pack a record into the payload of given frame id.", docBreak,
      docLine "@return Payload size, -ENOENT for unknown frame ids or -EINVAL",
      docLine "        if dst_p is too small."],
    .code ((sendSignature database).text ++ ";"), .blank,
    .doc "" [docLine "Unpack the payload of given frame id into a record.", docBreak,
      docLine "@return zero(0), -ENOENT for unknown frame ids or -EINVAL if the",
      docLine "        payload is shorter than the message length."],
    .code ((receiveSignature database).text ++ ";"), .blank]

def dispatchClass (options : Options) : Document :=
  let database := options.database
  [.code "#ifdef __cplusplus\n\x7d", .blank,
    .code s!"class {Identifier.pascal database}Transceiver \x7b", .code "public:",
    .code s!"    int send(uint32_t frame_id, const void *record_p, uint8_t *dst_p, size_t size) const\n    \x7b\n        return {database}_transceiver_send(frame_id, record_p, dst_p, size);\n    \x7d",
    .blank,
    .code s!"    int receive(uint32_t frame_id, const uint8_t *src_p, size_t size, void *record_p) const\n    \x7b\n        return {database}_transceiver_receive(frame_id, src_p, size, record_p);\n    \x7d",
    .blank,
    .code s!"    bool knows(uint32_t frame_id) const\n    \x7b\n        return {database}_transceiver_lookup(frame_id) != NULL;\n    \x7d",
    .blank,
    .code s!"    static size_t message_count()\n    \x7b\n        return {messageCountName options};\n    \x7d",
    .code "\x7d;\n#endif", .blank]

def dispatchHeader (options : Options) (version : Option String) (fileName recordFile : String)
    (codecs : List Codec) : Document :=
  let guard := guardName options fileName
  banner options version "Transceiver declarations" ++ guardStart guard ++
  [.code "#include <stddef.h>\n#include <stdint.h>", .blank,
    .code s!"#include \"{recordFile}\"", .blank, linkageStart, .blank,
    .code (messageCount options codecs).definition.text, .blank] ++
  entryTypes options.database ++ prototypes options.database ++ dispatchClass options ++
  [guardEnd guard]

/-! ## Table -/

def dispatchOrder (codecs : List Codec) : List Codec :=
  codecs.mergeSort fun first second => first.frameId ≤ second.frameId

def operationName (options : Options) (message : Message) : Operation → String
  | .pack => packName options message
  | .unpack => unpackName options message

def erasedProcedure (options : Options) (message : Message) (operation : Operation) :
    Procedure where
  signature :=
    { result := .int
      name := operationName options message operation ++ "_erased"
      parameters := erasedParameters operation }
  body :=
    let tag := recordTag options message
    .give (.call (operationName options message operation)
      (match operation with
        | .pack => [⟨"dst_p", none⟩, ⟨"src_p", some (.pointer s!"const struct {tag}")⟩, ⟨"size", none⟩]
        | .unpack => [⟨"dst_p", some (.pointer s!"struct {tag}")⟩, ⟨"src_p", none⟩, ⟨"size", none⟩]))

def erasedFunction (options : Options) (message : Message) (operation : Operation) : Document :=
  let procedure := erasedProcedure options message operation
  procedure.document ("static " ++ procedure.signature.text) ++ [.blank]

def erasedFunctions (options : Options) (codec : Codec) : Document :=
  erasedFunction options codec.message .pack ++ erasedFunction options codec.message .unpack

structure TableRow where
  frameId : ConstantMacro
  length : ConstantMacro
  /-- The tag of the record that the functions work on. -/
  tag : String
  pack : String
  unpack : String
  deriving Repr, DecidableEq

def TableRow.text (row : TableRow) : String :=
  s!"    \x7b {row.frameId.name}, {row.length.name}, sizeof(struct {row.tag}), {row.pack}, {row.unpack} \x7d,"

def tableRow (options : Options) (message : Message) : TableRow where
  frameId := frameIdMacro options message
  length := lengthMacro options message
  tag := recordTag options message
  pack := (erasedProcedure options message .pack).signature.name
  unpack := (erasedProcedure options message .unpack).signature.name

def tableName (database : String) : String := s!"{database}_codec_table"

/-- The table. Without messages it is a null pointer. -/
def dispatchTable (options : Options) (rows : List Codec) : Document :=
  let type := "static const " ++ entryTag options.database
  let name := tableName options.database
  if rows.isEmpty then [.code s!"{type} *const {name} = NULL;", .blank]
  else
    [.remark "Sorted by frame id.",
      .code s!"{type} {name}[{messageCountName options}] = \x7b"] ++
    rows.map (fun codec => .code (tableRow options codec.message).text) ++
      [.code "\x7d;", .blank]

/-! ## Functions -/

def searchPass (table : String) : Block :=
  .declare .size "mid"
    (.arithmetic .add (.variable "low")
      (.arithmetic .divide (.arithmetic .subtract (.variable "high") (.variable "low"))
        (.literal { value := 2 }))) <|
  .declare .uint32 "mid_id" (.cell table (.variable "mid") .frameId) <|
  .blank <|
  .test (.equal (.variable "mid_id") (.variable "frame_id"))
    (.give (.row table (.variable "mid"))) <|
  .choose (.less (.variable "mid_id") (.variable "frame_id"))
    (.assign "low" (.arithmetic .add (.variable "mid") (.literal { value := 1 })) .stop)
    (.assign "high" (.variable "mid") .stop)
    .stop

def lookupProcedure (options : Options) (codecs : List Codec) : Procedure where
  signature := lookupSignature options.database
  body :=
    .declare .size "low" (.literal { value := 0 }) <|
    .declare .size "high" (.symbol (messageCount options codecs)) <|
    .blank <|
    .loop (.less (.variable "low") (.variable "high"))
      (searchPass (tableName options.database)) <|
    .blank <|
    .give .null

/-- Fail without a row or with too small a buffer, else call a function of the row. -/
def rowBody (operation : Operation) : Block :=
  .test (.equal (.variable "entry_p") .null) (.give (.failure .noEntry)) <|
  .blank <|
  .test (.less (.variable "size") (.member "entry_p" .length)) (.give (.failure .invalid)) <|
  .blank <|
  .give (.callMember "entry_p" operation [⟨"dst_p", none⟩, ⟨"src_p", none⟩, ⟨"size", none⟩])

def rowProcedure (database : String) (signature : Signature) (operation : Operation) :
    Procedure where
  signature := signature
  body :=
    .declare (.pointer ("const " ++ entryTag database)) "entry_p"
      (.call (lookupSignature database).name [⟨"frame_id", none⟩]) <|
    .blank <|
    rowBody operation

def sendProcedure (database : String) : Procedure :=
  rowProcedure database (sendSignature database) .pack

def receiveProcedure (database : String) : Procedure :=
  rowProcedure database (receiveSignature database) .unpack

def procedureItems (procedure : Procedure) : Document :=
  procedure.document procedure.signature.text

def dispatchSource (options : Options) (version : Option String) (headerPath : String)
    (codecs : List Codec) : Document :=
  let rows := dispatchOrder codecs
  banner options version "Transceiver implementation" ++
  [.code "#include <errno.h>\n#include <stddef.h>", .blank,
    .code s!"#include \"{headerPath}\"", .blank] ++
  rows.flatMap (erasedFunctions options) ++ dispatchTable options rows ++
  procedureItems (lookupProcedure options codecs) ++ .blank ::
  procedureItems (sendProcedure options.database) ++ .blank ::
  procedureItems (receiveProcedure options.database)

end CanCodec.C
