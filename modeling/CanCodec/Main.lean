import CanCodec.CommandLine.Arguments
import CanCodec.CommandLine.Run

/-! # The program

Reads the catalog, writes the files and prints; what is written and printed is decided
by `Command.perform`. -/

namespace CanCodec.Main

def eventLine (event : Event) : String :=
  let severity := match event.severity with
    | .info => "INFO"
    | .warning => "WARN"
  " ".intercalate
    (severity :: event.headline :: event.details.map fun detail => s!"{detail.1}={detail.2}")

def report (events : List Event) : IO Unit :=
  events.forM fun event => IO.eprintln (eventLine event)

def readCatalog (path : String) : IO (Option String) := do
  try
    return some (← IO.FS.readFile path)
  catch _ => return none

def succeeds (action : IO Unit) : IO Bool := do
  try
    action
    return true
  catch _ => return false

def writeFiles : List (String × String) → IO (Option CommandProblem)
  | [] => return none
  | (path, content) :: rest => do
      let directory := FilePath.parent path
      if !(← succeeds (IO.FS.createDirAll directory)) then
        return some (.directory directory)
      else if !(← succeeds (IO.FS.writeFile path content)) then
        return some (.file path)
      else writeFiles rest

def fail (problem : CommandProblem) : IO UInt32 := do
  IO.eprintln s!"Error: {problem.message}"
  return 1

def carryOut (command : Command) : IO UInt32 := do
  let (events, result) := command.perform (← readCatalog command.source.path)
  report events
  match result with
  | .error problem => fail problem
  | .ok product =>
      match ← writeFiles product.files with
      | some problem => fail problem
      | none =>
          report product.report
          IO.print product.output
          return 0

end CanCodec.Main

open CanCodec in
def main (arguments : List String) : IO UInt32 := do
  match CommandLine.parse arguments with
  | .ok command => Main.carryOut command
  | .error .helpWanted => do
      IO.println CommandLine.UsageProblem.helpWanted.message
      return 0
  | .error .versionWanted => do
      IO.println CommandLine.UsageProblem.versionWanted.message
      return 0
  | .error problem => do
      IO.eprintln problem.message
      return 2
