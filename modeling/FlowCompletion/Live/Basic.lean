import FlowCompletion.Binary64.Basic
import FlowCompletion.Table
import FlowCompletion.Visibility

namespace FlowCompletion

structure ModuleId where
  index : Nat
deriving DecidableEq, Inhabited

structure InstanceId where
  index : Nat
deriving DecidableEq, Inhabited

/-- A live object: a class or module as a value, or an instance. -/
inductive Obj where
  | ofModule (id : ModuleId)
  | ofInstance (id : InstanceId)
deriving DecidableEq, Inhabited

inductive Payload where
  | nil
  | bool (value : Bool)
  | integer (value : Int)
  | float (value : Binary64)
  | string (value : String)
  | symbol (value : String)
  | array (items : List Obj)
  | hash (pairs : List (Obj × Obj))
  | range (first last : Obj)
  | plain
deriving Inhabited

structure Instance where
  cls : ModuleId
  payload : Payload
  singletonMethods : Table String Visibility := []
  ivars : Table String Obj := []
deriving Inhabited

/-- A class has a superclass unless it is a root; a mixin has none. -/
inductive ModuleKind where
  | mixin
  | cls (superclass : Option ModuleId)
deriving DecidableEq, Inhabited

structure Module where
  name : Option String := none
  kind : ModuleKind := .mixin
  includes : List ModuleId := []
  methods : Table String Visibility := []
  singletonMethods : Table String Visibility := []
  constants : Table String Obj := []
  classVariables : Table String Obj := []
  ivars : Table String Obj := []
deriving Inhabited

structure World where
  modules : Array Module := #[]
  instances : Array Instance := #[]
  /-- Where the modules begin; each has an address of its own. -/
  base : Nat := 0
deriving Inhabited

namespace World

def address (w : World) (m : ModuleId) : Nat := w.base + m.index

def module (w : World) (m : ModuleId) : Module :=
  w.modules.getD m.index {}

def instance? (w : World) (i : InstanceId) : Option Instance :=
  w.instances[i.index]?

def isClass (w : World) (m : ModuleId) : Bool :=
  match (w.module m).kind with
  | .cls _ => true
  | .mixin => false

def superclass? (w : World) (m : ModuleId) : Option ModuleId :=
  match (w.module m).kind with
  | .cls superclass => superclass
  | .mixin => none

def payload (w : World) : Obj → Payload
  | .ofModule _ => .plain
  | .ofInstance i => ((w.instance? i).map (·.payload)).getD .plain

def arrayItems? (w : World) (o : Obj) : Option (List Obj) :=
  match w.payload o with
  | .array items => some items
  | _ => none

def hashPairs? (w : World) (o : Obj) : Option (List (Obj × Obj)) :=
  match w.payload o with
  | .hash pairs => some pairs
  | _ => none

def rangeBounds? (w : World) (o : Obj) : Option (Obj × Obj) :=
  match w.payload o with
  | .range first last => some (first, last)
  | _ => none

def isNil (w : World) (o : Obj) : Bool :=
  match w.payload o with
  | .nil => true
  | _ => false

def ivars (w : World) : Obj → Table String Obj
  | .ofModule m => (w.module m).ivars
  | .ofInstance i => ((w.instance? i).map (·.ivars)).getD []

end World

end FlowCompletion
