import FlowCompletion.Live.Ancestry
import FlowCompletion.Names

namespace FlowCompletion

def firstDefinition {α : Type} (tables : List (Table String α)) (name : String) : Option α :=
  tables.findSome? fun t => Table.get? t name

/-- What is known on the way along the tables: the names met so far, and those of them that are
listed. -/
structure Listing where
  met : List String := []
  listed : List String := []

/-- Looks at a definition. Only the first one of a name decides whether the name is listed. -/
def Listing.meet {α : Type} (keep : α → Bool) (l : Listing) (entry : String × α) : Listing :=
  if entry.1 ∈ l.met then l
  else
    { met := entry.1 :: l.met
      listed := if keep entry.2 then entry.1 :: l.listed else l.listed }

def namesWhere {α : Type} (tables : List (Table String α)) (keep : α → Bool) : List String :=
  sortedNames (tables.foldl (List.foldl (Listing.meet keep)) {}).listed

namespace World

def methodTables (w : World) (m : ModuleId) : List (Table String Visibility) :=
  (w.ancestors m).map fun a => (w.module a).methods

def singletonTables (w : World) (m : ModuleId) : List (Table String Visibility) :=
  (w.superclassChain m).map fun a => (w.module a).singletonMethods

def methodVisibility? (w : World) (m : ModuleId) (name : String) : Option Visibility :=
  firstDefinition (w.methodTables m) name

def instanceMethods (w : World) (m : ModuleId) : List String :=
  namesWhere (w.methodTables m) fun v => !v.isPrivate

def privateInstanceMethods (w : World) (m : ModuleId) : List String :=
  namesWhere (w.methodTables m) Visibility.isPrivate

def ownMethods (w : World) (m : ModuleId) : List (String × Visibility) :=
  let table := (w.module m).methods
  (sortedNames (Table.keys table)).filterMap fun name =>
    (Table.get? table name).map fun v => (name, v)

def classOf (w : World) : Obj → ModuleId
  | .ofModule m => if w.isClass m then .classClass else .moduleClass
  | .ofInstance i => ((w.instance? i).map (·.cls)).getD .object

def ownSingletonTables (w : World) : Obj → List (Table String Visibility)
  | .ofModule m => w.singletonTables m
  | .ofInstance i => [((w.instance? i).map (·.singletonMethods)).getD []]

def singletonMethods (w : World) (o : Obj) : List String :=
  namesWhere (w.ownSingletonTables o) fun v => !v.isPrivate

def privateSingletonMethods (w : World) (o : Obj) : List String :=
  namesWhere (w.ownSingletonTables o) Visibility.isPrivate

def methods (w : World) (o : Obj) : List String :=
  sortedNames (w.singletonMethods o ++ w.instanceMethods (w.classOf o))

def privateMethods (w : World) (o : Obj) : List String :=
  sortedNames (w.privateSingletonMethods o ++ w.privateInstanceMethods (w.classOf o))

def constant? (w : World) (m : ModuleId) (name : String) : Option Obj :=
  Table.get? (w.module m).constants name

def constants (w : World) (m : ModuleId) : List String :=
  sortedNames (Table.keys (w.module m).constants)

def classVariableTables (w : World) (m : ModuleId) : List (Table String Obj) :=
  (w.ancestors m).map fun a => (w.module a).classVariables

def classVariable? (w : World) (m : ModuleId) (name : String) : Option Obj :=
  firstDefinition (w.classVariableTables m) name

def classVariables (w : World) (m : ModuleId) : List String :=
  sortedNames ((w.classVariableTables m).flatMap Table.keys)

def instanceVariable? (w : World) (o : Obj) (name : String) : Option Obj :=
  Table.get? (w.ivars o) name

def variableNames (w : World) (o : Obj) : List String :=
  sortedNames (Table.keys (w.ivars o))

end World

end FlowCompletion
