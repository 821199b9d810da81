import CanCodec.CommandLine.Run
import CanCodec.Proofs.Catalog.Reader

/-! # Runs that are refused

A command generates everything before it writes anything. What stops a run is therefore of
two kinds: a problem before the first write, which leaves the tree as it was, or a problem of
storing one file, with the files before it written. -/

namespace CanCodec

/-! ## Before the first write -/

theorem Source.isStorage_of_load {source : Source} {catalog : Option String}
    {problem : CommandProblem} (refused : source.load catalog = .error problem) :
    problem.isStorage = false := by
  cases catalog with
  | none =>
      cases refused
      rfl
  | some text =>
      rw [load] at refused
      split at refused
      · cases refused
        rfl
      · split at refused
        · cases refused
          rfl
        · cases refused

theorem isStorage_of_withCodebook {schema : Schema} {options : Options}
    {use : Codebook → Except Fault Product} {problem : CommandProblem}
    (refused : (withCodebook schema options use).2 = .error problem) :
    problem.isStorage = false := by
  rw [withCodebook] at refused
  split at refused
  · cases refused
    rfl
  · rcases mapError_error_iff.mp refused with ⟨fault, -, rfl⟩
    rfl

theorem isStorage_of_readPayload {text : String} {problem : CommandProblem}
    (refused : readPayload text = .error problem) : problem.isStorage = false := by
  rcases mapError_error_iff.mp refused with ⟨cause, -, rfl⟩
  rfl

theorem Task.isStorage_of_perform {schema : Schema} {options : Options} {task : Task}
    {problem : CommandProblem} (refused : (task.perform schema options).2 = .error problem) :
    problem.isStorage = false := by
  cases task with
  | records directory => exact isStorage_of_withCodebook refused
  | dispatch directory => exact isStorage_of_withCodebook refused
  | definitions directory => exact isStorage_of_withCodebook refused
  | decode frameId text =>
      rw [perform] at refused
      split at refused
      next unread =>
        cases refused
        exact isStorage_of_readPayload unread
      · exact isStorage_of_withCodebook refused

theorem Command.isStorage_of_perform {command : Command} {catalog : Option String}
    {problem : CommandProblem} (refused : (command.perform catalog).2 = .error problem) :
    problem.isStorage = false := by
  rw [perform] at refused
  split at refused
  next unloaded =>
    cases refused
    exact Source.isStorage_of_load unloaded
  · exact Task.isStorage_of_perform refused

theorem Product.files_of_decoded {registry : Registry} {frameId : Nat} {payload : Payload}
    {product : Product} (decoded : Product.decoded registry frameId payload = .ok product) :
    product.files = [] := by
  rcases bind_ok_iff.mp decoded with ⟨record, -, named⟩
  rcases bind_ok_iff.mp named with ⟨codec, -, made⟩
  cases made
  rfl

theorem files_of_withCodebook {schema : Schema} {options : Options}
    {use : Codebook → Except Fault Product} {product : Product}
    (fileless : ∀ codebook product, use codebook = .ok product → product.files = [])
    (performed : (withCodebook schema options use).2 = .ok product) : product.files = [] := by
  rw [withCodebook] at performed
  split at performed
  · cases performed
  next codebook _ => exact fileless codebook product (mapError_ok_iff.mp performed)

theorem Command.files_of_decode {command : Command} {catalog : Option String} {frameId : Nat}
    {text : String} {product : Product} (task : command.task = .decode frameId text)
    (performed : (command.perform catalog).2 = .ok product) : product.files = [] := by
  rw [perform] at performed
  split at performed
  · cases performed
  · rw [task, Task.perform] at performed
    split at performed
    · cases performed
    · exact files_of_withCodebook (fun _ _ => Product.files_of_decoded) performed

/-! ## Writing -/

namespace Command

theorem isStorage_of_writeFile {tree stopped : FileTree} {path content : String}
    {problem : CommandProblem} (failed : writeFile tree path content = (stopped, some problem)) :
    problem.isStorage = true := by
  rw [writeFile] at failed
  split at failed
  · cases failed
    rfl
  · split at failed
    · cases failed
      rfl
    · cases failed

/-- Writing stops at the first file that cannot be stored, after those before it. -/
theorem writeFiles_stopped {tree stopped : FileTree} {files : List (String × String)}
    {problem : CommandProblem} (failed : writeFiles tree files = (stopped, some problem)) :
    ∃ before file after reached, files = before ++ file :: after ∧
      writeFiles tree before = (reached, none) ∧
      writeFile reached file.1 file.2 = (stopped, some problem) := by
  induction files generalizing tree with
  | nil => cases failed
  | cons file rest induction =>
      rw [writeFiles] at failed
      split at failed
      next written here =>
        rcases induction failed with ⟨before, other, after, reached, split, writes, stops⟩
        refine ⟨file :: before, other, after, reached, by rw [split, List.cons_append], ?_, stops⟩
        rw [writeFiles, here]
        exact writes
      · exact ⟨[], file, rest, tree, rfl, rfl, failed⟩

/-! ## Runs -/

/-- A run changes the tree only after everything has been generated: where it is refused for
another reason than a file or a directory that cannot be stored, the tree is as before. A run
that decodes changes no tree at all. -/
theorem refused_run_keeps_tree (command : Command) (tree : FileTree) :
    (∀ problem, (command.run tree).problem? = some problem → problem.isStorage = false →
      (command.run tree).tree = tree) ∧
    (∀ frameId text, command.task = .decode frameId text → (command.run tree).tree = tree) ∧
    ((command.run tree).tree ≠ tree → ∃ product : Product,
      (command.perform (tree.read? command.source.path)).2 = .ok product ∧ product.files ≠ []) := by
  rw [run]
  rcases performed : command.perform (tree.read? command.source.path) with ⟨events, result⟩
  cases result with
  | error problem => exact ⟨fun _ _ _ => rfl, fun _ _ _ => rfl, fun changed => absurd rfl changed⟩
  | ok product =>
      cases wrote : writeFiles tree product.files with
      | mk written failure =>
          -- Without files to write the tree stays.
          have unwritten : product.files = [] → written = tree := by
            intro fileless
            rw [fileless] at wrote
            exact (Prod.mk.inj wrote).1.symm
          have decoding : ∀ frameId text, command.task = .decode frameId text →
              written = tree := fun _ _ task =>
            unwritten (files_of_decode task (by rw [performed]))
          cases failure with
          | none =>
              simp only [wrote]
              refine ⟨fun problem failed => ?_, decoding, fun changed => ?_⟩
              · cases failed
              · exact ⟨product, rfl, fun fileless => changed (unwritten fileless)⟩
          | some problem =>
              simp only [wrote]
              refine ⟨fun other same outside => ?_, decoding, fun changed => ?_⟩
              · rcases writeFiles_stopped wrote with ⟨before, file, after, reached, -, -, stops⟩
                rw [← Option.some.inj same, isStorage_of_writeFile stops] at outside
                cases outside
              · exact ⟨product, rfl, fun fileless => changed (unwritten fileless)⟩

def overflowTree : FileTree :=
  .ofFiles
    [("can.json", "\x7b\"messages\":[\x7b\"name\":\"Wide\",\"frame_id\":1,\"length\":1,\"signals\":[\x7b\"name\":\"Speed\",\"start\":4,\"length\":8\x7d]\x7d]\x7d"),
      ("out/Wide.msg", "# an older definition\n")]

def overflowCommand (task : Task) : Command where
  source := { path := "can.json" }
  task := task

theorem refused_run_keeps_tree_overflow :
    ((overflowCommand (.definitions "out")).run overflowTree).problem? =
        some (.fault (.layout ⟨"Wide", "Speed", .exceeds 4 12 8⟩)) ∧
      ((overflowCommand (.definitions "out")).run overflowTree).tree = overflowTree ∧
      ((overflowCommand (.decode 1 "00")).run overflowTree).tree = overflowTree := by
  have refused : ((overflowCommand (.definitions "out")).run overflowTree).problem? =
      some (.fault (.layout ⟨"Wide", "Speed", .exceeds 4 12 8⟩)) := by decide +kernel
  exact ⟨refused, (refused_run_keeps_tree _ _).1 _ refused rfl,
    (refused_run_keeps_tree _ _).2.1 1 "00" rfl⟩

end Command

end CanCodec
