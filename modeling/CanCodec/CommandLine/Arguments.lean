import CanCodec.CommandLine.Command
import CanCodec.CommandLine.Usage
import CanCodec.CommandLine.Word

/-! # Reading command lines

The first word is the verb. The words after it are read from the left. The value of an
option is checked only when the next word has shown that it is known, or when the words
have come to an end. -/

namespace CanCodec.CommandLine

/-! ## Values -/

def frameIdLimit : Nat := 0xffffffff

/-- Read a frame id: decimal, or hexadecimal after `0x`. -/
def readFrameId (text : String) : Except UsageProblem Nat :=
  let number := match text.toList with
    | '0' :: 'x' :: digits | '0' :: 'X' :: digits => Text.readNatural 16 frameIdLimit digits
    | digits => Text.readNatural 10 frameIdLimit digits
  number.mapError (.badFrameId text)

def readPath (setting : Setting) (text : String) : Except UsageProblem String :=
  if text.isEmpty then .error (.missingValue setting) else .ok text

/-! ## What has been set -/

structure Given where
  packed : Bool := false
  prune : Bool := false
  lenient : Bool := false
  catalog : Option String := none
  database : Option String := none
  output : Option String := none
  frameId : Option Nat := none
  payload : Option String := none
  deriving Repr, DecidableEq

namespace Given

def raised (flag : Flag) : (current : Bool) → Except UsageProblem Bool
  | true => .error (.repeatedFlag flag)
  | false => .ok true

def raise (given : Given) : Flag → Except UsageProblem Given
  | .help => .error .helpWanted
  | .packed => do return { given with packed := ← raised .packed given.packed }
  | .prune => do return { given with prune := ← raised .prune given.prune }
  | .lenient => do return { given with lenient := ← raised .lenient given.lenient }

def assigned {α : Type} (setting : Setting) (value : Except UsageProblem α) :
    (current : Option α) → Except UsageProblem (Option α)
  | some _ => .error (.repeatedSetting setting)
  | none => value.map some

def assign (given : Given) (setting : Setting) (text : String) : Except UsageProblem Given :=
  match setting with
  | .catalog => do
      return { given with catalog := ← assigned .catalog (readPath .catalog text) given.catalog }
  | .database => do
      return { given with database := ← assigned .database (.ok text) given.database }
  | .output => do
      return { given with output := ← assigned .output (readPath .output text) given.output }
  | .frameId => do
      return { given with frameId := ← assigned .frameId (readFrameId text) given.frameId }
  | .payload => do
      return { given with payload := ← assigned .payload (.ok text) given.payload }

def required {α : Type} (setting : Setting) : Option α → Except UsageProblem α
  | some value => .ok value
  | none => .error (.unset setting)

def directory (given : Given) : String := given.output.getD "."

def task (given : Given) : Verb → Except UsageProblem Task
  | .records => .ok (.records given.directory)
  | .dispatch => .ok (.dispatch given.directory)
  | .definitions => .ok (.definitions given.directory)
  | .decode => do
      return .decode (← required .frameId given.frameId) (← required .payload given.payload)

def command (given : Given) (verb : Verb) : Except UsageProblem Command := do
  let path ← required .catalog given.catalog
  return {
    source := { given with path }
    task := ← given.task verb }

end Given

/-! ## Reading words -/

structure Progress where
  given : Given := {}
  /-- What is set next, and to what if that has been read. -/
  pending : Option (Setting × Option String) := none
  /-- What operands still to come set. -/
  operands : List Setting

namespace Progress

def settle (progress : Progress) : Except UsageProblem Progress :=
  match progress.pending with
  | none => .ok progress
  | some (setting, none) => .error (.missingValue setting)
  | some (setting, some text) => do
      return { progress with given := ← progress.given.assign setting text, pending := none }

def readOperand (progress : Progress) (text : String) : Except UsageProblem Progress :=
  match progress.operands with
  | [] => .error (.unknownArgument text)
  | setting :: rest => do
      let progress ← progress.settle
      return { progress with pending := some (setting, some text), operands := rest }

def readParameter (progress : Progress) (name : String) :
    Parameter → (attached : Option String) → Except UsageProblem Progress
  | .flag _, some _ => .error (.surplusValue name)
  | .flag flag, none => do
      let progress ← progress.settle
      return { progress with given := ← progress.given.raise flag }
  | .setting setting, some text => do
      let progress ← progress.settle
      return { progress with given := ← progress.given.assign setting text }
  | .setting setting, none => do
      return { ← progress.settle with pending := some (setting, none) }

def readText (progress : Progress) (text : String) : Except UsageProblem Progress :=
  match progress.pending with
  | some (setting, none) => .ok { progress with pending := some (setting, some text) }
  | _ => progress.readOperand text

def readWords (verb : Verb) (progress : Progress) : List String → Except UsageProblem Progress
  | [] => progress.settle
  | text :: rest =>
      match Word.ofText text with
      | .separator => do (← rest.foldlM readOperand progress).settle
      | .operand text => do (← progress.readText text).readWords verb rest
      | .long name attached =>
          match verb.long? name with
          | none => .error (.unknownArgument text)
          | some parameter => do
              (← progress.readParameter name parameter attached).readWords verb rest
      | .short letter more =>
          match verb.short? letter with
          | none => .error (.unknownArgument text)
          | some (.flag flag) => do
              (← progress.readParameter text (.flag flag) none).readWords verb rest
          | some (.setting setting) => do
              (← progress.readParameter text (.setting setting) (attachedTo more)).readWords
                verb rest

end Progress

def readCommand (verb : Verb) (words : List String) : Except UsageProblem Command := do
  let progress ← Progress.readWords verb { operands := verb.operands } words
  progress.given.command verb

/-! ## The whole line -/

def isVerb (text : String) : Bool := text = "help" || (Verb.ofName? text).isSome

/-- What follows from asking for help on verbs. Verbs have no verbs of their own. -/
def helpProblem : List String → UsageProblem
  | [] => .helpWanted
  | [text] => if isVerb text then .helpWanted else .unknownVerb text
  | text :: next :: _ => .unknownVerb (if isVerb text then next else text)

def separatorProblem : List String → UsageProblem
  | [] => .nothingGiven
  | text :: _ => if isVerb text then .unknownArgument text else .unknownVerb text

def leadingProblem (text : String) (rest : List String) : UsageProblem :=
  match Word.ofText text with
  | .separator => separatorProblem rest
  | .long "help" none | .short 'h' _ => .helpWanted
  | .long "version" none | .short 'V' _ => .versionWanted
  | .long "help" (some _) | .long "version" (some _) => .surplusValue text
  | .long .. | .short .. => .unknownArgument text
  | .operand "help" => helpProblem rest
  | .operand _ => .unknownVerb text

def parse : List String → Except UsageProblem Command
  | [] => .error .nothingGiven
  | first :: rest =>
      match Verb.ofName? first with
      | some verb => readCommand verb rest
      | none => .error (leadingProblem first rest)

end CanCodec.CommandLine
