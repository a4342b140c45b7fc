import FlowCompletion.Proofs.Flow.Evolution
import FlowCompletion.Proofs.Scope.Growth
import FlowCompletion.Proofs.Scope.Unwritten

namespace FlowCompletion

def Flow.Grows (f g : Flow) : Prop := f.world.Grows g.world

instance : IsPreorder Flow Flow.Grows where
  refl f := .refl f.world
  trans _ _ _ := .trans

namespace Eval

variable {α : Type} {task : Task} {V : Node → Prop} {H : Halt → Prop}
  {own : List String} {merging : Bool}

theorem grows_change (op : Scope → Scope) : Obeys Flow.Grows (change op) :=
  obeys_change fun f ↦ .refl f.world

theorem grows_inFrame {body : Eval α} (hbody : Obeys Flow.Grows body) (frame : Frame)
    (declared : List (String × Option Ty)) : Obeys Flow.Grows (inFrame frame declared body) := by
  intro f r g hgives
  obtain ⟨h, hrun, -, rfl⟩ := gives_inFrame.mp hgives
  have hgrows := hbody hrun
  exact hgrows

theorem grows_defineModule (owner : ModuleId) (name : String) (isClass : Bool)
    (superclass : Option ModuleId) :
    Obeys Flow.Grows (defineModule owner name isClass superclass) := by
  intro f m g hgives
  obtain ⟨⟨fullName, hadded⟩, -⟩ := hgives.defineModule
  have hworld := congrArg Prod.fst hadded
  rw [Flow.Grows, show g.world = _ from hworld]
  cases isClass <;> exact World.grows_addModule _ ⟨rfl, rfl⟩

/-- All that following code does to the live world is to define modules. -/
theorem Steps.grows {m : Eval α} (h : Steps task V H own merging m) :
    Obeys Flow.Grows m := by
  induction h with
  | pure a => exact obeys_pure a
  | bind _ _ hm hk => exact hm.bind hk
  | world => exact obeys_world
  | scope _ _ hk => exact obeys_scope.bind hk
  | found | tooDeep => exact obeys_throw _
  | probe t =>
    intro f _ g hgives
    rw [gives_modify.mp hgives]
    exact World.Grows.refl _
  | write | setAll | setConstant | terminate | jump => exact grows_change _
  | defineModule owner name isClass superclass =>
    exact grows_defineModule owner name isClass superclass
  | mergeJumps => exact obeys_world.bind fun w ↦ grows_change _
  | branches _ _ hbodies =>
    have hruns := Obeys.mapM fun body hbody ↦ grows_inFrame (hbodies body hbody) {} []
    refine hruns.bind fun runs ↦ obeys_world.bind fun w ↦ ?_
    exact (grows_change _).bind fun _ ↦ obeys_pure _
  | nested frame declared _ _ hbody =>
    refine (grows_inFrame hbody frame declared).bind fun r ↦ ?_
    exact (grows_change _).bind fun _ ↦ obeys_pure _

open Scope

/-- A name that the nodes do not write; a global is not the name of a parameter either. -/
structure Unwritten (V : Node → Prop) (name : String) : Prop where
  written : ∀ c, V c → c.writtenVariable? ≠ some name
  parameter : NameKind.ofName name = .gvar → ∀ c, V c → name ∉ c.parameterNames
  implicit : name ∉ Node.implicitNames
  constant : ¬ (Key.named name).IsConstant
  label : ∀ jump : JumpKind, jump.label ≠ name

variable {name : String} {base : Nat}

theorem Unwritten.kind_of_declared (h : Unwritten V name) {declared : List (String × Option Ty)}
    (hdeclared : ∀ d ∈ declared, Declarable V d.1) (hname : name ∈ declared.map Prod.fst) :
    NameKind.ofName name ≠ .gvar := by
  obtain ⟨d, hd, rfl⟩ := List.mem_map.mp hname
  intro hkind
  rcases hdeclared d hd with ⟨jump, hjump⟩ | ⟨c, hc, hparameter | hwritten⟩
  · exact h.label jump hjump.symm
  · exact h.parameter hkind c hc hparameter
  · exact h.written c hc hwritten

/-- The frames when a computation starts: jumps are merged only above the base, and names that were
declared on the way belong to frames above the base. -/
structure Ready (name : String) (base : Nat) (own : List String) (merging : Bool) (s : Scope) :
    Prop where
  apart : ApartIn name base s.frames
  level : base ≤ s.level
  merging : merging = true → base < s.level
  own : name ∈ own → Held name base s.frames

theorem Ready.after {s t : Scope} (hs : Ready name base own merging s)
    (h : Leaves name base s t) : Ready name base own merging t :=
  ⟨h.apart, h.level ▸ hs.level, h.level ▸ hs.merging, fun hname ↦ h.held (hs.own hname)⟩

theorem Ready.enter {s : Scope} (hs : Ready name base own merging s) (frame : Frame)
    {declared : List (String × Option Ty)}
    (hkind : name ∈ declared.map Prod.fst → NameKind.ofName name ≠ .gvar) (inner : Bool) :
    Ready name base (declared.map Prod.fst ++ own) inner (s.enter frame declared) where
  apart := apartIn_enter hs.apart hs.level hkind
  level := Nat.le_succ_of_le hs.level
  merging _ := Nat.lt_succ_of_le hs.level
  own hname := held_enter hs.level ((List.mem_append.mp hname).imp_right hs.own)

def Leaving (name : String) (base : Nat) (own : List String) (merging : Bool) (m : Eval α) : Prop :=
  ∀ ⦃f a g⦄, m.Gives f a g → Ready name base own merging f.scope →
    Leaves name base f.scope g.scope

theorem leaving_of_scope_eq {m : Eval α} (h : ∀ ⦃f a g⦄, m.Gives f a g → g.scope = f.scope) :
    Leaving name base own merging m := by
  intro f a g hgives hf
  rw [h hgives]
  exact .refl hf.apart

theorem leaving_world : Leaving name base own merging world :=
  leaving_of_scope_eq fun f w g hgives ↦ by rw [(gives_world.mp hgives).2]

theorem leaving_change {op : Scope → Scope}
    (h : ∀ s, Ready name base own merging s → Leaves name base s (op s)) :
    Leaving name base own merging (change op) := by
  intro f a g hgives hf
  rw [gives_change.mp hgives]
  exact h f.scope hf

theorem Leaving.bind {β : Type} {m : Eval α} {k : α → Eval β}
    (hm : Leaving name base own merging m) (hk : ∀ a, Leaving name base own merging (k a)) :
    Leaving name base own merging (m >>= k) := by
  intro f b h hgives hf
  obtain ⟨a, g, hfg, hgh⟩ := gives_bind.mp hgives
  have hleaves := hm hfg hf
  exact hleaves.trans (hk a hgh (hf.after hleaves))

theorem Leaving.inFrame {body : Eval α} {frame : Frame} {declared : List (String × Option Ty)}
    {inner : Bool} (hbody : Leaving name base (declared.map Prod.fst ++ own) inner body)
    (hsteady : Steady body) (hkind : name ∈ declared.map Prod.fst → NameKind.ofName name ≠ .gvar)
    {f g : Flow} {r : α × Frame} (hgives : Gives (inFrame frame declared body) f r g)
    (hf : Ready name base own merging f.scope) :
    Leaves name base f.scope g.scope ∧ Above name base f.scope.frames r.2.changes := by
  obtain ⟨h, hrun, hleft, rfl⟩ := gives_inFrame.mp hgives
  have hleaves := hbody hrun (hf.enter frame hkind inner)
  rw [hleft]
  exact leaves_outer hf.level (hsteady hrun) hleaves.apart

theorem Leaving.nested {body : Eval α} {declared : List (String × Option Ty)}
    {inner : Bool} (hbody : Leaving name base (declared.map Prod.fst ++ own) inner body)
    (hsteady : Steady body) (hkind : name ∈ declared.map Prod.fst → NameKind.ofName name ≠ .gvar)
    (frame : Frame) : Leaving name base own merging (nested frame declared body) := by
  intro f r g hgives hf
  obtain ⟨h, hrun, -, rfl⟩ := gives_nested.mp hgives
  have hleaves := hbody hrun (hf.enter frame hkind inner)
  exact leaves_nested hf.level (hsteady hrun) hleaves.apart

theorem leaving_setAll {types : List (String × Ty)}
    (htypes : ∀ p ∈ types, p.1 = name → name ∈ own) :
    Leaving name base own merging (setAll types) := by
  refine leaving_change fun s hs ↦ ?_
  induction types generalizing s with
  | nil => exact .refl hs.apart
  | cons p types ih =>
    obtain ⟨hfirst, hrest⟩ := List.forall_mem_cons.mp htypes
    have hset : Leaves name base s (s.set p.1 p.2) :=
      leaves_setKey hs.apart (fun hkey ↦ hs.own (hfirst (Key.named_inj.mp hkey))) (some p.2)
    exact hset.trans (ih hrest _ (hs.after hset))

theorem leaves_setConstant {s : Scope} (hs : ApartIn name base s.frames)
    (hname : ¬ (Key.named name).IsConstant) (w : World) (m : ModuleId) (other : String) (t : Ty) :
    Leaves name base s (s.setConstant w m other t) :=
  leaves_setEntry hs (Key.ne_of_isConstant (Key.isConstant_constantKey w m other) hname) _

theorem leaving_defineModule (hname : ¬ (Key.named name).IsConstant) (owner : ModuleId)
    (other : String) (isClass : Bool) (superclass : Option ModuleId) :
    Leaving name base own merging (defineModule owner other isClass superclass) := by
  intro f m g hgives hf
  rw [hgives.defineModule.2]
  exact leaves_setConstant hf.apart hname _ _ _ _

theorem leaves_mapM_inFrame {bodies : List (Eval α)}
    (hbodies : ∀ body ∈ bodies, Leaving name base own false body ∧ Steady body) {f g : Flow}
    {runs : List (α × Frame)} (hgives : Gives (bodies.mapM (Eval.inFrame {} [])) f runs g)
    (hf : Ready name base own merging f.scope) :
    Leaves name base f.scope g.scope ∧
      ∀ run ∈ runs, Above name base f.scope.frames run.2.changes := by
  induction bodies generalizing f runs with
  | nil =>
    obtain ⟨rfl, rfl⟩ := gives_pure.mp hgives
    exact ⟨.refl hf.apart, nofun⟩
  | cons body bodies ih =>
    obtain ⟨⟨hbody, hsteady⟩, hrest⟩ := List.forall_mem_cons.mp hbodies
    rw [List.mapM_cons] at hgives
    obtain ⟨run, h, hrun, hgives⟩ := gives_bind.mp hgives
    obtain ⟨others, _, hothers, hpure⟩ := gives_bind.mp hgives
    obtain ⟨rfl, rfl⟩ := gives_pure.mp hpure
    obtain ⟨hfirst, hchanges⟩ := Leaving.inFrame hbody hsteady (fun h ↦ by cases h) hrun hf
    obtain ⟨hleaves, hmore⟩ := ih hrest hothers (hf.after hfirst)
    refine ⟨hfirst.trans hleaves, List.forall_mem_cons.mpr ⟨hchanges, fun r hr ↦ ?_⟩⟩
    exact (hmore r hr).congr hfirst.floor.symm

theorem leaving_branches {bodies : List (Eval α)}
    (hbodies : ∀ body ∈ bodies, Leaving name base own false body ∧ Steady body) :
    Leaving name base own merging (branches bodies) := by
  intro f a g hgives hf
  rw [branches] at hgives
  obtain ⟨runs, h, hruns, hgives⟩ := gives_bind.mp hgives
  obtain ⟨w, _, hworld, hgives⟩ := gives_bind.mp hgives
  obtain ⟨rfl, rfl⟩ := gives_world.mp hworld
  obtain ⟨_, _, hchange, hpure⟩ := gives_bind.mp hgives
  obtain ⟨-, rfl⟩ := gives_pure.mp hpure
  obtain ⟨hleaves, hchanges⟩ := leaves_mapM_inFrame hbodies hruns hf
  rw [gives_change.mp hchange]
  refine hleaves.trans (leaves_joinBranches hleaves.apart (fun frame hframe ↦ ?_) _)
  obtain ⟨run, hrun, rfl⟩ := List.mem_map.mp hframe
  exact (hchanges run hrun).congr hleaves.floor

theorem Steps.leaving {m : Eval α} (h : Steps task V H own merging m)
    (hname : Unwritten V name) : Leaving name base own merging m := by
  induction h with
  | pure a => exact leaving_of_scope_eq fun f b g hgives ↦ by rw [(gives_pure.mp hgives).2]
  | bind _ _ hm hk => exact hm.bind hk
  | world => exact leaving_world
  | scope _ _ hk =>
    exact (leaving_of_scope_eq fun f s g hgives ↦ by rw [(gives_scope.mp hgives).2]).bind hk
  | found | tooDeep => exact fun f a g hgives ↦ absurd hgives not_gives_throw
  | probe t => exact leaving_of_scope_eq fun f _ g hgives ↦ by rw [gives_modify.mp hgives]
  | write c hc other hother t =>
    refine leaving_change fun s hs ↦ leaves_setEntry hs.apart (fun hkey ↦ ?_) _
    exact hname.written c hc (Key.named_inj.mp hkey ▸ hother)
  | setAll types htypes =>
    refine leaving_setAll fun p hp heq ↦ ?_
    exact heq ▸ (htypes p hp).resolve_right fun himplicit ↦ hname.implicit (heq ▸ himplicit)
  | setConstant w m other t =>
    exact leaving_change fun s hs ↦ leaves_setConstant hs.apart hname.constant w m other t
  | defineModule owner other isClass superclass =>
    exact leaving_defineModule hname.constant owner other isClass superclass
  | terminate => exact leaving_change fun s hs ↦ leaves_terminate hs.apart
  | jump _ _ jump _ _ t => exact leaving_change fun s hs ↦ leaves_jump (hname.label jump) t hs.apart
  | mergeJumps =>
    exact leaving_world.bind fun w ↦ leaving_change fun s hs ↦
      leaves_mergeJumps hs.apart (hs.merging rfl) w
  | branches _ hbodies ih =>
    exact leaving_branches fun body hbody ↦ ⟨ih body hbody, (hbodies body hbody).steady⟩
  | nested frame declared hdeclared hbody ih =>
    exact ih.nested hbody.steady (hname.kind_of_declared hdeclared) frame

theorem ofName_label (jump : JumpKind) : NameKind.ofName jump.label = .label := by
  cases jump <;> decide

/-- Evaluation leaves every variable that no node writes, be it local, of an instance, of a class or
global, unless it is a global that a block, lambda or method has as a parameter. No variable is a
label or the key of a constant. -/
theorem evaluate_leaves_unwritten {task : Task} {depth : Nat} {n : Node} {name : String}
    {f g : Flow} {t : Ty} (hkind : NameKind.ofName name ≠ .label)
    (hconstant : ¬ (Key.named name).IsConstant) (himplicit : name ∉ Node.implicitNames)
    (hwritten : ∀ c ∈ n.preorder, c.writtenVariable? ≠ some name)
    (hglobal : NameKind.ofName name = .gvar → ∀ c ∈ n.preorder, name ∉ c.parameterNames)
    (hgives : Gives (evaluate task depth n) f t g) :
    (∀ w, g.scope.get? w name = f.scope.get? w name) ∧
      ((NameKind.ofName name = .cvar →
        f.world.Ends f.world.modules.size (f.scope.root.classVariableOwner f.world)) →
          g.scope.get? g.world name = f.scope.get? f.world name) := by
  have hname : Unwritten (· ∈ n.preorder) name :=
    ⟨hwritten, hglobal, himplicit, hconstant, fun jump h ↦ hkind (h ▸ ofName_label jump)⟩
  have hcomposed : Composed task (· ∈ n.preorder) [] false (evaluate task depth n) :=
    composed_evaluate n.descends_preorder depth n n.mem_preorder_self [] false
  have hready : Ready name f.scope.level [] false f.scope :=
    ⟨apartIn_of_le (Nat.le_refl _), Nat.le_refl _, nofun, fun h ↦ by cases h⟩
  have hlookup := (hcomposed.leaving hname hgives hready).lookup rfl
  refine ⟨hlookup, fun hclass ↦ ?_⟩
  have hgrows : f.world.Grows g.world := hcomposed.grows hgives
  exact (hlookup g.world).trans (lookup_of_grows hgrows f.scope hclass)

/-- `[].each { |name| break }` -/
def breakingBlock (name : String) : Node :=
  .mk {} 5 (.call (some (.mk {} 6 (.array []))) (some .dot) "each" none
    (some (.mk {} 7 (.block { required := [name] } (some (.mk {} 8 (.jump .toBreak none)))))) false)

/-- `class A; end` and then the block. -/
def classThenBlock (name : String) : Node :=
  .mk {} 1 (.statements [.mk {} 2 (.classDef (.mk {} 3 (.constRead "A")) none none),
    breakingBlock name])

def passingTask : Task := { target := 0, maxDepth := 5 }

def classFlow : Flow where
  world := { modules := #[{ kind := .cls none, classVariables := [("@@a", .ofModule ⟨0⟩)] }] }
  scope := ⟨{ binding := { receiver := .ofModule ⟨0⟩ } }, [{}]⟩

theorem evaluate_leaves_unwritten_class :
    ∃ t after, Gives (evaluate passingTask 5 (classThenBlock "@@a")) classFlow t after ∧
      after.world.modules.size = 2 ∧
      after.scope.get? after.world "@@a" = some (Ty.singleton ⟨0⟩) := by
  obtain ⟨t, after, hgives⟩ := exists_gives (f := classFlow)
    (m := evaluate passingTask 5 (classThenBlock "@@a")) (by decide +kernel)
  have hsize : ((evaluate passingTask 5 (classThenBlock "@@a")).run.run
      classFlow).2.world.modules.size = 2 := by decide +kernel
  rw [hgives] at hsize
  have hends : classFlow.world.Ends 1 ⟨0⟩ := ⟨by decide, nofun, nofun⟩
  refine ⟨t, after, hgives, hsize, ?_⟩
  have hconstant : ¬ (Key.named "@@a").IsConstant := Key.not_isConstant_named (by decide)
  refine ((evaluate_leaves_unwritten (by decide) hconstant (by decide) (by decide +kernel) ?_
    hgives).2 fun _ ↦ hends).trans rfl
  exact fun h ↦ absurd h (by decide)

def globalFlow : Flow where
  world := {}
  scope := ⟨{ binding := { receiver := .ofModule .object } }, [{}]⟩

/-- A parameter may be spelt like a global, and then its types are those of the global. -/
theorem parameter_writes_global :
    (∀ c ∈ (breakingBlock "$g").preorder, c.writtenVariable? ≠ some "$g") ∧
      ∃ t after, Gives (evaluate passingTask 5 (breakingBlock "$g")) globalFlow t after ∧
        (globalFlow.scope.get? globalFlow.world "$g").map Ty.kinds =
          some [.instanceOf .nilClass] ∧
        (after.scope.get? after.world "$g").map Ty.kinds =
          some [.instanceOf .object, .instanceOf .nilClass] := by
  obtain ⟨t, after, hgives⟩ := exists_gives (f := globalFlow)
    (m := evaluate passingTask 5 (breakingBlock "$g")) (by decide +kernel)
  have hafter : (((evaluate passingTask 5 (breakingBlock "$g")).run.run globalFlow).2.scope.get?
      ((evaluate passingTask 5 (breakingBlock "$g")).run.run globalFlow).2.world "$g").map
        Ty.kinds = some [.instanceOf .object, .instanceOf .nilClass] := by decide +kernel
  rw [hgives] at hafter
  exact ⟨by decide +kernel, t, after, hgives, by decide, hafter⟩

end Eval

end FlowCompletion
