import FlowCompletion.Files.Tree

namespace FlowCompletion

def featureExtensions : List String := ["rb", "so", "bundle"]

def listingDepth : Nat := 2

def featureName? (fileName : String) : Option String :=
  match Path.splitName fileName with
  | (stem, some extension) => if extension ∈ featureExtensions then some stem else none
  | _ => none

def isHidden (name : String) : Bool := name.toList.head? == some '.'

namespace FileSystem

/-- Everything to be offered to the given depth from the directory at `path`, after the part already
typed. What cannot be looked up for the length of its path is taken for a file. -/
def features (files : FileSystem) : Nat → String → String → FileTree → List String
  | 0, _, _, _ => []
  | depth + 1, path, typed, tree =>
    tree.entries.flatMap fun (name, entry) =>
      let place := Path.join path name
      if isHidden name then []
      else if entry.isDirectory && !files.isTooLong place then
        let inside := typed ++ name ++ "/"
        files.features depth place inside entry ++ [inside]
      else (featureName? name).toList.map (typed ++ ·)

def completions (files : FileSystem) (roots : List String) (typed : String) : List String :=
  let directory := Path.directoryPart typed
  let found := roots.flatMap fun root =>
    let place := Path.join root directory
    match files.at? place with
    | .ok entry => files.features listingDepth place directory entry
    | .error _ => []
  sortedNames (found.filter fun name => typed.toList.isPrefixOf name.toList)

end FileSystem

/-- The directory that relative features are searched in: that of the source file, or else the
working directory, for which there is `none`. -/
def relativeRoot (sourceFile : Option String) : Option String :=
  sourceFile.bind Path.parent?

end FlowCompletion
