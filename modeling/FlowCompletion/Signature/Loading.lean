import FlowCompletion.Files.Tree
import FlowCompletion.Signature.Decoding

namespace FlowCompletion

inductive LoadError where
  | unreadable (path : String) (cause : FileError)
  | invalid (path : Option String) (detail : String)
deriving DecidableEq, Inhabited

def LoadError.message : LoadError → String
  | .unreadable path cause => "cannot read signature file " ++ path ++ ": " ++ cause.message
  | .invalid (some path) detail => "invalid signature file " ++ path ++ ": " ++ detail
  | .invalid none detail => "invalid signature document: " ++ detail

mutual

/-- The documents at a path in the order in which they are loaded: of a directory those whose names
end in `.json`. There are none to be read at a path that is too long. -/
def FileSystem.documents (files : FileSystem) (path : String) :
    FileTree → List (String × Except FileError String)
  | .file content => [(path, if files.isTooLong path then .error .nameTooLong else .ok content)]
  | .directory entries =>
    if files.isTooLong path then [(path, .error .nameTooLong)]
    else files.documentsIn path entries

def FileSystem.documentsIn (files : FileSystem) (path : String) :
    List (String × FileTree) → List (String × Except FileError String)
  | [] => []
  | (name, entry) :: rest =>
    (if Path.extension? name = some "json" then files.documents (Path.join path name) entry
      else []) ++ files.documentsIn path rest

end

namespace Database

def read (db : Database) (path : Option String) (text : String) : Except LoadError Database :=
  match Document.read? text with
  | some doc => .ok (db.extend doc)
  | none => .error (.invalid path "not a list of declarations")

def readAll (db : Database) (texts : List String) : Except LoadError Database :=
  texts.foldlM (fun db text => db.read none text) db

def addFile (db : Database) (path : String) : Except FileError String → Except LoadError Database
  | .error cause => .error (.unreadable path cause)
  | .ok text => db.read (some path) text

def readPath (files : FileSystem) (db : Database) (path : String) : Except LoadError Database :=
  match files.at? path with
  | .error cause => .error (.unreadable path cause)
  | .ok tree => (files.documents path tree).foldlM (fun db (path, text) => db.addFile path text) db

def load (files : FileSystem) (paths : List String) : Except LoadError Database :=
  paths.foldlM (readPath files) {}

end Database

end FlowCompletion
