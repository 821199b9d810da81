import CanCodec.FilePath
import CanCodec.OrderedMap

/-! # File trees

The files below a working directory. A location is a list of components; two dots at
its start lead out of the working directory. -/

namespace CanCodec

abbrev Location := List String

structure FileTree where
  files : OrderedMap Location String := .empty
  /-- Directories beside those that hold a file. -/
  directories : List Location := []

namespace FileTree

def ofFiles (files : List (String × String)) : FileTree where
  files := .ofList (files.map fun file => (FilePath.components file.1, file.2))

def isOutside (location : Location) : Bool :=
  location = ["/"] || location.all (· = "..")

def isDirectory (tree : FileTree) (location : Location) : Bool :=
  isOutside location || tree.directories.contains location ||
    tree.files.keys.any fun file => location.isPrefixOf file && location != file

def enter (location : Location) (component : String) : Location :=
  if component = ".." then
    match location.getLast? with
    | none | some ".." => location ++ [".."]
    | some "/" => location
    | some _ => location.dropLast
  else location ++ [component]

def origin (path : String) : Location := if FilePath.isAbsolute path then ["/"] else []

/-- Follow components through directories. The last one need not exist. -/
def follow (tree : FileTree) : Location → List String → Option Location
  | location, [] => some location
  | location, component :: rest =>
      if tree.isDirectory location then tree.follow (enter location component) rest else none

def resolve (tree : FileTree) (path : String) : Option Location :=
  tree.follow (origin path) (FilePath.components path)

def read? (tree : FileTree) (path : String) : Option String := do
  let location ← tree.resolve path
  if FilePath.namesDirectory path then none else tree.files.get? location

def makeAlong (tree : FileTree) : Location → List String → Option FileTree
  | _, [] => some tree
  | location, component :: rest =>
      let next := enter location component
      if (tree.files.get? next).isSome then none
      else if tree.isDirectory next then tree.makeAlong next rest
      else { tree with directories := next :: tree.directories }.makeAlong next rest

def makeDirectory (tree : FileTree) (path : String) : Option FileTree :=
  tree.makeAlong (origin path) (FilePath.components path)

def write (tree : FileTree) (path content : String) : Option FileTree := do
  let location ← tree.resolve path
  if tree.isDirectory location then none
  else some { tree with files := tree.files.insert location content }

end FileTree

end CanCodec
