import CanCodec.C.Literal
import CanCodec.C.Naming

/-! # Functions that convert a signal's values

The function that encodes a physical value is a sequence of steps on two double
variables, `value` and `raw`; the last one casts `raw` to the signal's type. -/

namespace CanCodec.C

inductive EncoderStep
  | raise (bound : Float)
  | lower (bound : Float)
  | round (linear : Linear Float)
  /-- Step down from a raw value that converts to more than a bound. -/
  | stepDown (linear : Linear Float) (bound : Float)
  /-- Step up from a raw value that converts to less than a bound. -/
  | stepUp (linear : Linear Float) (bound : Float)
  /-- Return a result for a raw value at or below a limit. -/
  | floor (limit : Float) (result : IntegerLiteral)
  /-- Return a result for a raw value at or above a limit. -/
  | ceiling (limit : Float) (result : IntegerLiteral)

def stepText (linear : Linear Float) : String := if 0 < linear.scale then "1.0" else "-1.0"

def physicalText (linear : Linear Float) : String :=
  s!"(raw * {floatLiteral linear.scale} + {floatLiteral linear.offset})"

def guarded (condition statement : String) : String :=
  s!"    if ({condition}) \x7b\n        {statement}\n    \x7d"

def EncoderStep.text : EncoderStep → String
  | .raise bound =>
      guarded s!"value < {floatLiteral bound}" s!"value = {floatLiteral bound};"
  | .lower bound =>
      guarded s!"value > {floatLiteral bound}" s!"value = {floatLiteral bound};"
  | .round linear =>
      s!"    raw = round((value - {floatLiteral linear.offset}) / {floatLiteral linear.scale});"
  | .stepDown linear bound =>
      guarded s!"{physicalText linear} > {floatLiteral bound}" s!"raw -= {stepText linear};"
  | .stepUp linear bound =>
      guarded s!"{physicalText linear} < {floatLiteral bound}" s!"raw += {stepText linear};"
  | .floor limit result => guarded s!"raw <= {floatLiteral limit}" s!"return ({result.text});"
  | .ceiling limit result => guarded s!"raw >= {floatLiteral limit}" s!"return ({result.text});"

/-- The steps that encode a physical value of a signal. Bounds that exclude every value
correct nothing. -/
def encoderSteps (signal : Signal) : List EncoderStep :=
  let primitive := Primitive.ofBits signal.length signal.signed
  let range := signal.range
  let corrects := CanCodec.Conversion.isConsistent signal.bounds
  signal.bounds.minimum.toList.map .raise ++
  signal.bounds.maximum.toList.map .lower ++
  [.round signal.linear] ++
  (if corrects then
    signal.bounds.maximum.toList.map (.stepDown signal.linear) ++
      signal.bounds.minimum.toList.map (.stepUp signal.linear)
  else []) ++
  [.floor (Float.ofInt range.low) (.ofValue primitive range.low),
    .ceiling (Float.ofInt range.high) (.ofValue primitive range.high)]

def encodeFunction (options : Options) (message : Message) (field : Field) : Document :=
  let signal := field.signal
  let type := field.primitive.cName
  [.doc "" [docLine s!"Encode given physical value of signal {signal.name}.", docBreak,
      docLine "Out of range values saturate."],
    .code s!"static inline {type} {encodeName options message signal}(double value)\n\x7b",
    .code "    double raw;", .blank] ++
  (encoderSteps signal).map (fun step => .code step.text) ++
  [.blank, .code s!"    return ({type})raw;", .code "\x7d", .blank]

def decodeFunction (options : Options) (message : Message) (field : Field) : Document :=
  let signal := field.signal
  let scale := floatLiteral signal.linear.scale
  let offset := floatLiteral signal.linear.offset
  [.doc "" [docLine s!"Decode given raw value of signal {signal.name}."],
    .code s!"static inline double {decodeName options message signal}({field.primitive.cName} value)\n\x7b",
    .code s!"    return ((double)value * {scale} + {offset});", .code "\x7d", .blank]

def rangeTests (bounds : Bounds Float) : List String :=
  bounds.minimum.toList.map (fun bound => s!"(physical >= {floatLiteral bound})") ++
    bounds.maximum.toList.map (fun bound => s!"(physical <= {floatLiteral bound})")

def rangeFunction (options : Options) (message : Message) (field : Field) : Document :=
  let signal := field.signal
  let tests := rangeTests signal.bounds
  [.doc "" [docLine s!"Check that given raw value of signal {signal.name} is in range."],
    .code s!"static inline bool {rangeName options message signal}({field.primitive.cName} value)\n\x7b"] ++
  (if tests.isEmpty then [.code "    (void)value;\n\n    return (true);"]
    else
      [.code s!"    double physical = {decodeName options message signal}(value);", .blank,
        .code ("    return (" ++ " && ".intercalate tests ++ ");")]) ++
  [.code "\x7d", .blank]

def conversionFunctions (options : Options) (message : Message) (field : Field) : Document :=
  encodeFunction options message field ++ decodeFunction options message field ++
    rangeFunction options message field

end CanCodec.C
