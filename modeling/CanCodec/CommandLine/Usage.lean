import CanCodec.Text.Numeral

/-! # What a command line can set

A verb names the task of a command. What may be set depends on the verb: flags and
options by name, operands by place. -/

namespace CanCodec.CommandLine

inductive Verb
  | records
  | dispatch
  | definitions
  | decode
  deriving Repr, DecidableEq

inductive Flag
  | help
  | packed
  | prune
  | lenient
  deriving Repr, DecidableEq

inductive Setting
  | catalog
  | database
  | output
  | frameId
  | payload
  deriving Repr, DecidableEq

inductive Parameter
  | flag (flag : Flag)
  | setting (setting : Setting)
  deriving Repr, DecidableEq

namespace Verb

def all : List Verb := [.records, .dispatch, .definitions, .decode]

def name : Verb → String
  | .records => "endec"
  | .dispatch => "transceiver"
  | .definitions => "ros2-msgs"
  | .decode => "decode"

def ofName? (name : String) : Option Verb := all.find? fun verb => verb.name = name

def option : Verb → String × Setting
  | .records => ("output-headers", .output)
  | .dispatch | .definitions => ("output-directory", .output)
  | .decode => ("frame-id", .frameId)

def long? (verb : Verb) (name : String) : Option Parameter :=
  match name with
  | "help" => some (.flag .help)
  | "bit-fields" => some (.flag .packed)
  | "prune" => some (.flag .prune)
  | "no-strict" => some (.flag .lenient)
  | "database-name" => some (.setting .database)
  | _ => if name = verb.option.1 then some (.setting verb.option.2) else none

def short? : Verb → Char → Option Parameter
  | _, 'h' => some (.flag .help)
  | .dispatch, 'o' | .definitions, 'o' => some (.setting .output)
  | _, _ => none

def operands : Verb → List Setting
  | .decode => [.catalog, .payload]
  | _ => [.catalog]

end Verb

inductive UsageProblem
  | nothingGiven
  | helpWanted
  | versionWanted
  | unknownVerb (name : String)
  | unknownArgument (text : String)
  /-- A value attached to what takes none. -/
  | surplusValue (name : String)
  /-- No value where one belongs, or an empty path. -/
  | missingValue (setting : Setting)
  | repeatedFlag (flag : Flag)
  | repeatedSetting (setting : Setting)
  | badFrameId (text : String) (problem : Text.NumeralProblem)
  | unset (setting : Setting)
  deriving Repr, DecidableEq

def Flag.title : Flag → String
  | .help => "help"
  | .packed => "bit fields"
  | .prune => "pruning"
  | .lenient => "leniency"

def Setting.title : Setting → String
  | .catalog => "catalog"
  | .database => "database name"
  | .output => "output directory"
  | .frameId => "frame id"
  | .payload => "payload"

def usageText : String :=
  "Usage: can_endec_gen <" ++ "|".intercalate (Verb.all.map Verb.name) ++
    "> [OPTIONS] <CATALOG> [PAYLOAD]"

def versionText : String := "can_endec_gen 0.1.0"

def UsageProblem.message : UsageProblem → String
  | .nothingGiven | .helpWanted => usageText
  | .versionWanted => versionText
  | .unknownVerb name => s!"unknown command '{name}'"
  | .unknownArgument text => s!"unknown argument '{text}'"
  | .surplusValue name => s!"'{name}' takes no value"
  | .missingValue setting => s!"the {setting.title} has no value"
  | .repeatedFlag flag => s!"{flag.title} is set twice"
  | .repeatedSetting setting => s!"the {setting.title} is set twice"
  | .badFrameId text problem => s!"invalid frame id '{text}': {problem.message}"
  | .unset setting => s!"the {setting.title} is not set"

end CanCodec.CommandLine
