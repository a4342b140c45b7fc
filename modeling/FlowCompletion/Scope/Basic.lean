import FlowCompletion.Live.Binding
import FlowCompletion.Resolution.Fit
import FlowCompletion.Scope.Name

namespace FlowCompletion

/-- What an entry stands under: variables and labels under their names, constants under their names
behind the address of their module. -/
structure Key where
  text : String
deriving DecidableEq, Inhabited

namespace Key

def named (name : String) : Key := ⟨name⟩

def constantStart (address : Nat) : String := toString address ++ "::"

def constant (address : Nat) (name : String) : Key := ⟨constantStart address ++ name⟩

def constantName? (address : Nat) (key : Key) : Option String :=
  stripPrefix? (constantStart address) key.text

def kind (key : Key) : NameKind := NameKind.ofName key.text

end Key

def World.constantKey (w : World) (m : ModuleId) (name : String) : Key :=
  .constant (w.address m) name

/-- The level of the owner, and the type. A name that is only declared has none yet. -/
structure Entry where
  level : Nat
  value : Option Ty
deriving Inhabited

abbrev Changes := Table Key Entry

structure Frame where
  table : Changes := []
  /-- What counts of the table after control has left the frame. -/
  frozen : Option Changes := none
  /-- What the branches that jump to a label of this frame have changed. -/
  jumps : List Changes := []
  terminated : Bool := false
  tracesLocals : Bool := true
  /-- Whether instance variables are those further out, rather than those of `selfType`. -/
  tracesIvars : Bool := true
  selfType : Option Ty := none
  nesting : Option ModuleId := none
deriving Inhabited

def Frame.changes (f : Frame) : Changes := f.frozen.getD f.table

def Frame.has (f : Frame) (key : Key) : Bool := Table.contains f.table key

/-- The live binding, and the locals that the code declares beside those it has. -/
structure Root where
  binding : Binding
  declared : List String := []

structure Scope where
  root : Root
  frames : List Frame := []

namespace Label

def toBreak : String := "%break"
def toNext : String := "%next"
def toReturn : String := "%return"

end Label

namespace Root

def boundLocals (r : Root) : List String := Table.keys r.binding.locals

def locals (r : Root) : List String := firsts (r.declared ++ r.boundLocals)

def classVariableOwner (r : Root) (w : World) : ModuleId :=
  match r.binding.nesting.getLast?, r.binding.receiver with
  | some m, _ => m
  | none, .ofModule m => m
  | none, o => w.classOf o

def live? (r : Root) (w : World) (name : String) : Option Obj :=
  match NameKind.ofName name with
  | .lvar => Table.get? r.binding.locals name
  | .ivar => w.instanceVariable? r.binding.receiver name
  | .cvar => w.classVariable? (r.classVariableOwner w) name
  | .gvar => Table.get? r.binding.globals name
  | _ => none

/-- A variable without a value is `nil`; other keys are not known here. -/
def lookup (r : Root) (w : World) (key : Key) : Option Ty :=
  match key.kind with
  | .const | .label => none
  | _ => some ((r.live? w key.text).elim Ty.nil (Ty.ofObject w))

def constant? (r : Root) (w : World) (m : ModuleId) (name : String) : Option Ty :=
  (if m = .object then r.binding.constant? w name else w.constant? m name).map (Ty.ofObject w)

def constantsOf (r : Root) (w : World) (m : ModuleId) : List String :=
  if m = .object then r.binding.constantNames w else w.constants m

def nesting (r : Root) : List ModuleId := r.binding.nesting.reverse ++ [.object]

end Root

end FlowCompletion
