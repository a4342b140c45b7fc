import FlowCompletion.Scope.Basic

namespace FlowCompletion

namespace Scope

def level (s : Scope) : Nat := s.frames.length

def selfType (s : Scope) (w : World) : Ty :=
  (s.frames.findSome? Frame.selfType).getD (Ty.ofObject w s.root.binding.receiver)

def nesting (s : Scope) : List ModuleId := s.frames.filterMap Frame.nesting ++ s.root.nesting

def innermostModule (s : Scope) : ModuleId := s.nesting.headD .object

def variableOf (w : World) (t : Ty) (name : String) : Ty :=
  let values := (t.members.flatMap Ty.objectsOf).filterMap fun o => w.instanceVariable? o name
  if values.isEmpty then Ty.nil else Ty.ofObjects w values

def outer (s : Scope) : Scope := { s with frames := s.frames.tail }

def levelIn (key : Key) : List Frame → Nat
  | [] => 0
  | f :: rest =>
    let here := rest.length + 1
    match key.kind with
    | .gvar => 0
    | kind =>
      if kind = .ivar && !f.tracesIvars then here
      else match Table.get? f.table key with
        | some entry => entry.level
        | none => if kind = .lvar && !f.tracesLocals then here else levelIn key rest

def levelOf (s : Scope) (key : Key) : Nat := levelIn key s.frames

/-- The type of a name; reading stops at the first frame that has it. -/
def lookupIn (w : World) (root : Root) (key : Key) : List Frame → Option Ty
  | [] => root.lookup w key
  | f :: rest =>
    match Table.get? f.table key with
    | some entry => entry.value
    | none =>
      if key.kind = .ivar && !f.tracesIvars then
        some (variableOf w (selfType ⟨root, f :: rest⟩ w) key.text)
      else lookupIn w root key rest

def lookup (s : Scope) (w : World) (key : Key) : Option Ty := lookupIn w s.root key s.frames

def get? (s : Scope) (w : World) (name : String) : Option Ty := s.lookup w (.named name)

/-- A constant as written by the code, or else as it is live. -/
def constant? (s : Scope) (w : World) (m : ModuleId) (name : String) : Option Ty :=
  match s.frames.findSome? fun f => Table.get? f.table (w.constantKey m name) with
  | some entry => entry.value
  | none => s.root.constant? w m name

def resolveConstant (s : Scope) (w : World) (name : String) : Option Ty :=
  s.nesting.findSome? fun m => s.constant? w m name

def hasOwn (s : Scope) (name : String) : Bool := s.frames.head?.any (·.has (.named name))

def isTerminated (s : Scope) : Bool := s.frames.head?.any Frame.terminated

def ownNames (f : Frame) (kind : NameKind) : List String :=
  ((Table.keys f.table).filter (·.kind = kind)).map Key.text

def localsIn (root : Root) : List Frame → List String
  | [] => root.locals
  | f :: rest => ownNames f .lvar ++ if f.tracesLocals then localsIn root rest else []

def locals (s : Scope) : List String := sortedNames (localsIn s.root s.frames)

def ivarsIn (w : World) (root : Root) : List Frame → List String
  | [] => w.variableNames root.binding.receiver
  | f :: rest =>
    ownNames f .ivar ++
      if f.tracesIvars then ivarsIn w root rest
      else ((selfType ⟨root, f :: rest⟩ w).members.flatMap Ty.objectsOf).flatMap w.variableNames

def ivars (s : Scope) (w : World) : List String := sortedNames (ivarsIn w s.root s.frames)

def cvars (s : Scope) (w : World) : List String :=
  sortedNames (s.frames.flatMap (ownNames · .cvar) ++
    w.classVariables (s.root.classVariableOwner w))

def gvars (s : Scope) : List String :=
  sortedNames (s.frames.flatMap (ownNames · .gvar) ++ Table.keys s.root.binding.globals)

def constantsOf (s : Scope) (w : World) (m : ModuleId) : List String :=
  (s.frames.flatMap fun f => (Table.keys f.table).filterMap (Key.constantName? (w.address m))) ++
    s.root.constantsOf w m

def constants (s : Scope) (w : World) : List String :=
  sortedNames (s.nesting.flatMap (s.constantsOf w))

end Scope

structure Snapshot where
  selfType : Ty
  nesting : List ModuleId
  locals : List String
  ivars : List String
  cvars : List String
  gvars : List String
  constants : List String
  types : Table String Ty

namespace Snapshot

def variableNames (s : Snapshot) : List String := s.locals ++ s.ivars ++ s.cvars ++ s.gvars

def get? (s : Snapshot) (name : String) : Option Ty := Table.get? s.types name

end Snapshot

def Scope.snapshot (s : Scope) (w : World) : Snapshot :=
  let names := s.locals ++ s.ivars w ++ s.cvars w ++ s.gvars
  { selfType := s.selfType w
    nesting := s.nesting
    locals := s.locals
    ivars := s.ivars w
    cvars := s.cvars w
    gvars := s.gvars
    constants := s.constants w
    types := names.filterMap fun name => (s.get? w name).map (name, ·) }

end FlowCompletion
