import FlowCompletion.Files.Tree
import FlowCompletion.Text.Quoted
import FlowCompletion.Toml.Reading

namespace FlowCompletion

structure Settings where
  signaturePaths : List String := []
  loadPaths : List String := []
  preload : Bool := false
  maxDepth : Nat := 256
deriving DecidableEq, Inhabited

inductive SettingsError where
  | unreadable (path : String) (cause : FileError)
  | invalid
deriving DecidableEq, Inhabited

def SettingsError.message : SettingsError → String
  | .unreadable path cause => "Failed to read " ++ path ++ ": " ++ cause.message
  | .invalid => "Failed to parse analyzer config: not a list of settings"

namespace Settings

def inspect (s : Settings) : String :=
  let paths := fun (l : List String) => "[" ++ ", ".intercalate (l.map quotedText) ++ "]"
  "AnalyzerConfig \x7b signature_paths: " ++ paths s.signaturePaths ++ ", load_paths: " ++
    paths s.loadPaths ++ ", preload: " ++ (if s.preload then "true" else "false") ++
    ", max_depth: " ++ toString s.maxDepth ++ " \x7d"

/-- Every key may be given once, and no other keys. -/
def set? (s : Settings) (entry : String × Toml) : Option Settings :=
  match entry with
  | ("signature_paths", value) => value.strings?.map fun paths => { s with signaturePaths := paths }
  | ("load_paths", value) => value.strings?.map fun paths => { s with loadPaths := paths }
  | ("preload", value) => value.boolean?.map fun b => { s with preload := b }
  | ("max_depth", value) => value.nat?.map fun n => { s with maxDepth := n }
  | _ => none

def ofEntries? (entries : List (String × Toml)) : Option Settings :=
  if (entries.map Prod.fst).Nodup then entries.foldlM set? {} else none

def read (text : String) : Except SettingsError Settings :=
  match (Toml.read? text).bind ofEntries? with
  | some s => .ok s
  | none => .error .invalid

def anchor (base : String) (s : Settings) : Settings :=
  { s with
    signaturePaths := s.signaturePaths.map (Path.join base)
    loadPaths := s.loadPaths.map (Path.join base) }

def ofPath (files : FileSystem) (path : String) : Except SettingsError Settings :=
  match files.read? path with
  | .error cause => .error (.unreadable path cause)
  | .ok text => (read text).map fun s => ((Path.parent? path).elim s (anchor · s))

end Settings

end FlowCompletion
