import CanCodec.Text.Split

/-! # Paths

A path is a text of components set apart by slashes. Empty components and single dots
mean nothing; two dots lead to the parent. -/

namespace CanCodec.FilePath

def components (path : String) : List String :=
  ((Text.split '/' path.toList).filter fun part => !part.isEmpty && part != ['.']).map
    String.ofList

def isAbsolute (path : String) : Bool := path.toList.head? = some '/'

def namesDirectory (path : String) : Bool :=
  match (Text.split '/' path.toList).getLast? with
  | some last => last = [] || last = ['.'] || last = ['.', '.']
  | none => true

def join (directory name : String) : String :=
  match directory.toList.getLast? with
  | none => name
  | some '/' => directory ++ name
  | some _ => directory ++ "/" ++ name

def dropEmptyEnd : List Char → List Char
  | ['/'] => ['/']
  | '/' :: rest => dropEmptyEnd rest
  | '.' :: '/' :: rest => dropEmptyEnd ('/' :: rest)
  | rest => rest

def parent (path : String) : String :=
  String.ofList (dropEmptyEnd (path.toList.reverse.dropWhile (· ≠ '/'))).reverse

example : parent "./endec.hpp" = "." := by decide
example : parent "f.txt/sub/A.msg" = "f.txt/sub" := by decide
example : parent "a/./b//c" = "a/./b" := by decide

/-- The characters before the last dot of a name, unless nothing stands before it. -/
def stemOfName (name : List Char) : List Char :=
  let before := (name.reverse.dropWhile (· ≠ '.')).drop 1
  if before.isEmpty then name else before.reverse

def stem? (path : String) : Option String :=
  match (components path).getLast? with
  | none => none
  | some name => if name = ".." then none else some (String.ofList (stemOfName name.toList))

example : stem? "in/Deep.Name.json" = some "Deep.Name" := by decide
example : stem? ".json" = some ".json" := by decide

end CanCodec.FilePath
