import FlowCompletion.Live.Builtins

namespace FlowCompletion

/-- Tells instances that were made apart from each other, also when nothing else does. Params that
are worked out from a watched instance are watched too. -/
inductive Cell where
  | made (serial : Nat)
  | derived (parent : Cell) (param : String) (cls : ModuleId)
deriving DecidableEq, Inhabited

mutual

/-- A type has at least one member, and members hold no types but in their params. -/
inductive Ty where
  | of (first : Member) (rest : List Member)

inductive Member where
  | itself (m : ModuleId)
  /-- Only watched instances have a cell. -/
  | instanceOf (cls : ModuleId) (params : List (String × Ty)) (samples : List Obj)
      (cell : Option Cell)

end

namespace Member

def plain (cls : ModuleId) : Member := .instanceOf cls [] [] none

def module? : Member → Option ModuleId
  | .itself m => some m
  | .instanceOf .. => none

def class? : Member → Option ModuleId
  | .itself _ => none
  | .instanceOf cls .. => some cls

def rawParams : Member → List (String × Ty)
  | .itself _ => []
  | .instanceOf _ params _ _ => params

def samples : Member → List Obj
  | .itself _ => []
  | .instanceOf _ _ samples _ => samples

def cell? : Member → Option Cell
  | .itself _ => none
  | .instanceOf _ _ _ cell => cell

def isNil (m : Member) : Bool := m.class? == some .nilClass

end Member

instance : Inhabited Member := ⟨.plain .object⟩
instance : Inhabited Ty := ⟨.of (.plain .object) []⟩

namespace Ty

def members : Ty → List Member
  | .of first rest => first :: rest

def ofMember (m : Member) : Ty := .of m []

def ofMembers : List Member → Ty
  | [] => ofMember (.plain .object)
  | first :: rest => .of first rest

def singleton (m : ModuleId) : Ty := ofMember (.itself m)

def inst (cls : ModuleId) : Ty := ofMember (.plain cls)

def instWith (cls : ModuleId) (params : List (String × Ty)) : Ty :=
  ofMember (.instanceOf cls params [] none)

def seen (cls : ModuleId) (samples : List Obj) : Ty :=
  ofMember (.instanceOf cls [] samples none)

def instance? : Ty → Option Member
  | .of (.instanceOf cls params samples cell) [] => some (.instanceOf cls params samples cell)
  | _ => none

def singleton? : Ty → Option ModuleId
  | .of (.itself m) [] => some m
  | _ => none

def isInstanceOf (t : Ty) (cls : ModuleId) : Bool :=
  t.instance?.any fun m => m.class? == some cls

def nillable (t : Ty) : Bool := t.members.any Member.isNil

def nil : Ty := inst .nilClass
def object : Ty := inst .object
def symbol : Ty := inst .symbol
def string : Ty := inst .string
def integer : Ty := inst .integer
def float : Ty := inst .float
def rational : Ty := inst .rational
def complex : Ty := inst .complex
def range : Ty := inst .range
def regexp : Ty := inst .regexp
def array : Ty := inst .array
def hash : Ty := inst .hash
def cls : Ty := inst .classClass
def module : Ty := inst .moduleClass
def proc : Ty := inst .procClass

def boolean : Ty := .of (.plain .trueClass) [.plain .falseClass]

end Ty

mutual

def Ty.height : Ty → Nat
  | .of first rest => max first.height (Member.heights rest)

def Member.height : Member → Nat
  | .itself _ => 0
  | .instanceOf _ params _ _ => Ty.paramHeights params

def Member.heights : List Member → Nat
  | [] => 0
  | m :: rest => max m.height (Member.heights rest)

def Ty.paramHeights : List (String × Ty) → Nat
  | [] => 0
  | (_, t) :: rest => max (t.height + 1) (Ty.paramHeights rest)

end

end FlowCompletion
