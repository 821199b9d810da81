import CanCodec.Fault
import CanCodec.Text.Numeral

/-! # Problems of a catalog

A problem is explained by a chain of sentences, the outermost first. -/

namespace CanCodec

inductive SignalProblem
  | missingName
  | missingStart (signal : String)
  | startOutOfRange (signal : String) (start : Nat)
  | missingLength (signal : String)
  | lengthOutOfRange (signal : String) (length : Nat)
  | byteOrderNotText (signal : String)
  | unknownByteOrder (name : String)
  | choicesNotObject (signal : String)
  | choiceKey (signal key : String) (problem : Text.NumeralProblem)
  | choiceLabel (signal key : String)
  deriving Repr, DecidableEq

inductive MessageProblem
  | missingName
  | missingFrameId (message : String)
  | frameIdOutOfRange (message : String)
  | missingLength (message : String)
  | signalsNotArray (message : String)
  | signalNotObject (message : String)
  | signal (message : String) (problem : SignalProblem)
  | cycleTimeOutOfRange (message : String)
  deriving Repr, DecidableEq

inductive CatalogProblem
  | malformed
  | notObject
  | missingMessages
  | messageNotObject (index : Nat)
  | message (problem : MessageProblem)
  /-- The messages break a rule of schemas. -/
  | rejected (fault : Fault)
  deriving Repr, DecidableEq

def outOfRangeText : String := Text.NumeralProblem.tooLarge.message

def SignalProblem.explanation : SignalProblem → List String
  | .missingName => ["signal is missing 'name'"]
  | .missingStart signal => [s!"signal '{signal}' is missing 'start'"]
  | .startOutOfRange signal start =>
      [s!"start bit {start} of signal '{signal}' is out of range", outOfRangeText]
  | .missingLength signal => [s!"signal '{signal}' is missing 'length'"]
  | .lengthOutOfRange signal length =>
      [s!"bit length {length} of signal '{signal}' is out of range", outOfRangeText]
  | .byteOrderNotText signal => [s!"'byte_order' of signal '{signal}' must be a string"]
  | .unknownByteOrder name => [s!"unsupported byte order '{name}'"]
  | .choicesNotObject signal => [s!"'choices' of signal '{signal}' must be an object"]
  | .choiceKey signal key problem =>
      [s!"choice key '{key}' of signal '{signal}' is not an integer", problem.message]
  | .choiceLabel signal key => [s!"choice {key} of signal '{signal}' must be a string"]

def MessageProblem.explanation : MessageProblem → List String
  | .missingName => ["message is missing 'name'"]
  | .missingFrameId message => [s!"message '{message}' is missing 'frame_id'"]
  | .frameIdOutOfRange message =>
      [s!"frame id of message '{message}' does not fit 32 bits", outOfRangeText]
  | .missingLength message => [s!"message '{message}' is missing 'length'"]
  | .signalsNotArray message => [s!"'signals' of message '{message}' must be an array"]
  | .signalNotObject message => [s!"signal in message '{message}' must be an object"]
  | .signal message problem =>
      s!"invalid signal in message '{message}'" :: problem.explanation
  | .cycleTimeOutOfRange message =>
      [s!"cycle time of message '{message}' does not fit 32 bits", outOfRangeText]

def CatalogProblem.explanation : CatalogProblem → List String
  | .malformed => ["failed to parse catalog JSON"]
  | .notObject => ["top-level JSON must be an object"]
  | .missingMessages => ["catalog requires a 'messages' array"]
  | .messageNotObject index => [s!"message #{index} must be an object"]
  | .message problem => problem.explanation
  | .rejected fault => [fault.text]

end CanCodec
