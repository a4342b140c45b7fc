import FlowCompletion.Files.Path
import FlowCompletion.Names

namespace FlowCompletion

/-- A directory has its entries in the order of their names. -/
inductive FileTree where
  | file (content : String)
  | directory (entries : List (String × FileTree))
deriving Inhabited

inductive FileError where
  | missing
  | notDirectory
  | isDirectory
  | nameTooLong
  | nulInPath
deriving DecidableEq, Inhabited

def FileError.message : FileError → String
  | .missing => "No such file or directory (os error 2)"
  | .notDirectory => "Not a directory (os error 20)"
  | .isDirectory => "Is a directory (os error 21)"
  | .nameTooLong => "File name too long (os error 36)"
  | .nulInPath => "file name contained an unexpected NUL byte"

namespace FileTree

def empty : FileTree := .directory []

def entries : FileTree → Fields FileTree
  | .file _ => []
  | .directory entries => entries

def isDirectory : FileTree → Bool
  | .file _ => false
  | .directory _ => true

def put (content : Option String) : List String → FileTree → FileTree
  | [], tree =>
    match content with
    | some text => .file text
    | none => .directory tree.entries
  | name :: rest, tree =>
    let known := (Fields.get? tree.entries name).getD empty
    .directory (Fields.insert name (put content rest known) tree.entries)

def ofFiles (files : List (String × Option String)) : FileTree :=
  files.foldl
    (fun tree (path, content) => tree.put content ((Path.pieces path).filter (!Path.isIdle ·)))
    empty

end FileTree

/-- All files there are, with the directory that relative paths begin at. -/
structure FileSystem where
  top : FileTree
  workingDirectory : List String := []
  /-- How long paths and names can be, in bytes. -/
  pathLimit : Option Nat := none
  nameLimit : Option Nat := none
deriving Inhabited

namespace FileSystem

def exceeds (limit : Option Nat) (text : String) : Bool := limit.any (· < text.utf8ByteSize)

def isTooLong (files : FileSystem) (path : String) : Bool := exceeds files.pathLimit path

/-- Follows the pieces of a path from a tree that lies below `above`, innermost first. Every piece
but the last must lead to a directory. Above the top there is only the top. -/
def walk (files : FileSystem) (tree : FileTree) (above : List FileTree) :
    List String → Except FileError FileTree
  | [] => .ok tree
  | piece :: rest =>
    match tree with
    | .file _ => .error .notDirectory
    | .directory entries =>
      if Path.isIdle piece then files.walk tree above rest
      else if piece = ".." then
        match above with
        | [] => files.walk tree [] rest
        | outer :: above => files.walk outer above rest
      else
        match Fields.get? entries piece with
        | none => .error (if exceeds files.nameLimit piece then .nameTooLong else .missing)
        | some inner => files.walk inner (tree :: above) rest

def start (files : FileSystem) (path : String) : List String :=
  if Path.isAbsolute path then [] else files.workingDirectory

def at? (files : FileSystem) (path : String) : Except FileError FileTree :=
  if path.toList.any (·.toNat = 0) then .error .nulInPath
  else if files.isTooLong path then .error .nameTooLong
  else if path = "" then .error .missing
  else files.walk files.top [] (files.start path ++ Path.pieces path)

def read? (files : FileSystem) (path : String) : Except FileError String :=
  match files.at? path with
  | .ok (.file content) => .ok content
  | .ok (.directory _) => .error .isDirectory
  | .error e => .error e

end FileSystem

end FlowCompletion
