import CanCodec.Artifact
import CanCodec.Catalog.Reader
import CanCodec.CommandLine.Command
import CanCodec.FileTree
import CanCodec.Json.Writer
import CanCodec.Registry

/-! # Carrying out commands

A command turns the text of its catalog into files, a printed text and events. Files are
written only after everything has been generated, so a command that fails before that
changes nothing. -/

namespace CanCodec

inductive CommandProblem
  | unreadable (path : String)
  | catalog (path : String) (problem : CatalogProblem)
  | noMessages (path : String)
  | fault (fault : Fault)
  | payload (text : String) (problem : Text.HexProblem)
  | directory (path : String)
  | file (path : String)
  deriving Repr, DecidableEq

namespace CommandProblem

def explanation : CommandProblem → List String
  | .unreadable path => [s!"failed to read catalog JSON: {path}"]
  | .catalog path problem => s!"invalid catalog {path}" :: problem.explanation
  | .noMessages path => [s!"no message definitions found in {path}"]
  | .fault cause => [cause.text]
  | .payload text problem => [s!"payload '{text}' is not valid hex", problem.message]
  | .directory path => [s!"failed to create output directory {path}"]
  | .file path => [s!"failed to write output to {path}"]

def message (problem : CommandProblem) : String := ": ".intercalate problem.explanation

def fault? : CommandProblem → Option Fault
  | .fault cause | .catalog _ (.rejected cause) => some cause
  | _ => none

def isStorage : CommandProblem → Bool
  | .directory _ | .file _ => true
  | _ => false

end CommandProblem

structure Product where
  /-- Paths and contents in the order in which they are written. -/
  files : List (String × String) := []
  output : String := ""
  /-- What is reported once all files are written. -/
  report : List Event := []

/-! ## The catalog -/

namespace Source

def databaseName (source : Source) : String :=
  match source.database, FilePath.stem? source.path with
  | some name, _ => Identifier.snake name
  | none, some stem => Identifier.snake stem
  | none, none => ({} : Options).database

def options (source : Source) : Options where
  database := source.databaseName
  packed := source.packed
  strict := !source.lenient

def load (source : Source) : Option String → Except CommandProblem Schema
  | none => .error (.unreadable source.path)
  | some text =>
      match Catalog.parse source.prune text with
      | .error problem => .error (.catalog source.path problem)
      | .ok schema =>
          if schema.messages.isEmpty then .error (.noMessages source.path) else .ok schema

end Source

/-! ## Tasks -/

namespace Product

def place (pathOf : Artifact → String) (generated : Generated) (report : Event) : Product where
  files := generated.artifacts.map fun artifact => (pathOf artifact, artifact.content)
  report := [report]

def treePart : Role → String
  | .dispatchImplementation => "src"
  | _ => "include/can_lib"

def kept (schema : Schema) (generated : Generated) : Nat :=
  schema.messages.length - generated.skipped.length

def records (schema : Schema) (options : Options) (directory : String) (codebook : Codebook) :
    Product :=
  let generated := Generated.records schema options codebook
  place (fun artifact => FilePath.join directory artifact.name) generated
    (.wroteRecords ({} : ArtifactNames).records directory (kept schema generated)
      generated.skipped.length)

def dispatch (schema : Schema) (options : Options) (directory : String) (codebook : Codebook) :
    Product :=
  let generated := Generated.dispatch schema options .tree codebook
  place
    (fun artifact =>
      FilePath.join (FilePath.join directory (treePart artifact.role)) artifact.name)
    generated
    (.wroteTransceiver directory (kept schema generated) generated.skipped.length)

def definitions (directory : String) (codebook : Codebook) : Product :=
  let generated := Generated.interchange codebook
  place (fun artifact => FilePath.join directory artifact.name) generated
    (.wroteDefinitions directory generated.artifacts.length)

def decodedJson (name : String) (record : Record) : Json :=
  .object [("name", .text name), ("signals", recordJson record)]

def decoded (registry : Registry) (frameId : Nat) (payload : Payload) : Except Fault Product := do
  let record ← registry.receive frameId payload
  let codec ← registry.codec frameId
  return { output := (decodedJson codec.name record).indented ++ "\n" }

end Product

abbrev Attempt := List Event × Except CommandProblem Product

def withCodebook (schema : Schema) (options : Options)
    (use : Codebook → Except Fault Product) : Attempt :=
  match Codebook.plan schema options with
  | .error fault => ([], .error (.fault fault))
  | .ok codebook => (codebook.events, (use codebook).mapError .fault)

def readPayload (text : String) : Except CommandProblem Payload :=
  (Text.readHexBytes (Text.trim text.toList)).mapError (.payload text)

def Task.perform (schema : Schema) (options : Options) : Task → Attempt
  | .records directory =>
      withCodebook schema options fun codebook =>
        .ok (.records schema options directory codebook)
  | .dispatch directory =>
      withCodebook schema options fun codebook =>
        .ok (.dispatch schema options directory codebook)
  | .definitions directory =>
      withCodebook schema options fun codebook => .ok (.definitions directory codebook)
  | .decode frameId text =>
      match readPayload text with
      | .error problem => ([], .error problem)
      | .ok payload =>
          withCodebook schema options fun codebook =>
            Product.decoded (.ofCodebook codebook) frameId payload

namespace Command

def perform (command : Command) (catalog : Option String) : Attempt :=
  match command.source.load catalog with
  | .error problem => ([], .error problem)
  | .ok schema => command.task.perform schema command.source.options

/-! ## Runs on a file tree -/

structure Outcome where
  tree : FileTree
  events : List Event
  output : String := ""
  problem? : Option CommandProblem := none

def writeFile (tree : FileTree) (path content : String) : FileTree × Option CommandProblem :=
  match tree.makeDirectory (FilePath.parent path) with
  | none => (tree, some (.directory (FilePath.parent path)))
  | some prepared =>
      match prepared.write path content with
      | none => (prepared, some (.file path))
      | some written => (written, none)

def writeFiles (tree : FileTree) : List (String × String) → FileTree × Option CommandProblem
  | [] => (tree, none)
  | (path, content) :: rest =>
      match writeFile tree path content with
      | (written, none) => writeFiles written rest
      | stopped => stopped

def run (command : Command) (tree : FileTree) : Outcome :=
  match command.perform (tree.read? command.source.path) with
  | (events, .error problem) => { tree, events, problem? := some problem }
  | (events, .ok product) =>
      match writeFiles tree product.files with
      | (written, some problem) => { tree := written, events, problem? := some problem }
      | (written, none) =>
          { tree := written, events := events ++ product.report, output := product.output }

end Command

end CanCodec
