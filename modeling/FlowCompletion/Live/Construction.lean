import FlowCompletion.Live.Builtins

namespace FlowCompletion

namespace World

def addModule (w : World) (m : Module) : World × ModuleId :=
  ({ w with modules := w.modules.push m }, ⟨w.modules.size⟩)

def addClass (w : World) (name : Option String) (superclass : Option ModuleId) :
    World × ModuleId :=
  w.addModule { name, kind := .cls superclass }

def addMixin (w : World) (name : Option String) : World × ModuleId :=
  w.addModule { name }

def addInstance (w : World) (cls : ModuleId) (payload : Payload) : World × Obj :=
  ({ w with instances := w.instances.push { cls, payload } }, .ofInstance ⟨w.instances.size⟩)

def modifyModule (w : World) (m : ModuleId) (f : Module → Module) : World :=
  { w with modules := w.modules.modify m.index f }

def modifyInstance (w : World) (i : InstanceId) (f : Instance → Instance) : World :=
  { w with instances := w.instances.modify i.index f }

def mixIn (w : World) (m other : ModuleId) : World :=
  w.modifyModule m fun d =>
    if other ∈ d.includes then d else { d with includes := d.includes ++ [other] }

def defineMethods (w : World) (m : ModuleId) (names : List String) (v : Visibility) : World :=
  w.modifyModule m fun d =>
    { d with methods := names.foldl (fun t name => Table.insert t name v) d.methods }

def defineSingletonMethod (w : World) (o : Obj) (name : String) (v : Visibility) : World :=
  match o with
  | .ofModule m => w.modifyModule m fun d =>
      { d with singletonMethods := Table.insert d.singletonMethods name v }
  | .ofInstance i => w.modifyInstance i fun d =>
      { d with singletonMethods := Table.insert d.singletonMethods name v }

def setConstant (w : World) (m : ModuleId) (name : String) (value : Obj) : World :=
  w.modifyModule m fun d => { d with constants := Table.insert d.constants name value }

def setClassVariable (w : World) (m : ModuleId) (name : String) (value : Obj) : World :=
  w.modifyModule m fun d => { d with classVariables := Table.insert d.classVariables name value }

def setVariable (w : World) (o : Obj) (name : String) (value : Obj) : World :=
  match o with
  | .ofModule m => w.modifyModule m fun d =>
      { d with ivars := Table.insert d.ivars name value }
  | .ofInstance i => w.modifyInstance i fun d =>
      { d with ivars := Table.insert d.ivars name value }

def push (w : World) (o item : Obj) : World :=
  match o with
  | .ofModule _ => w
  | .ofInstance i => w.modifyInstance i fun d =>
      match d.payload with
      | .array items => { d with payload := .array (items ++ [item]) }
      | _ => d

def insert (w : World) (o key value : Obj) : World :=
  match o with
  | .ofModule _ => w
  | .ofInstance i => w.modifyInstance i fun d =>
      match d.payload with
      | .hash pairs => { d with payload := .hash (pairs ++ [(key, value)]) }
      | _ => d

end World

end FlowCompletion
