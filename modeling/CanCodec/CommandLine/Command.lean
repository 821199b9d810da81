/-! # Commands

A command reads one catalog and does one task with it. -/

namespace CanCodec

structure Source where
  path : String
  database : Option String := none
  packed : Bool := false
  prune : Bool := false
  /-- Leave out messages that cannot be planned. -/
  lenient : Bool := false
  deriving Repr, DecidableEq

inductive Task
  | records (directory : String)
  | dispatch (directory : String)
  | definitions (directory : String)
  /-- Print the record that a hexadecimal payload carries. -/
  | decode (frameId : Nat) (payload : String)
  deriving Repr, DecidableEq

structure Command where
  source : Source
  task : Task
  deriving Repr, DecidableEq

end CanCodec
