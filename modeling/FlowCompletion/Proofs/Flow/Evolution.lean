import FlowCompletion.Proofs.Flow.Composition
import FlowCompletion.Proofs.Flow.Laws
import FlowCompletion.Proofs.Scope.Branches

namespace FlowCompletion

def Flow.Evolves (f g : Flow) : Prop := f.scope.Evolves g.scope

instance : IsPreorder Flow Flow.Evolves where
  refl _ := .refl
  trans _ _ _ := .trans

def Flow.Awaits (f g : Flow) : Prop := List.Forall₂ Frame.Awaits f.scope.frames g.scope.frames

instance : IsPreorder Flow Flow.Awaits where
  refl _ := Scope.awaits_refl _
  trans _ _ _ := Scope.awaits_trans

namespace Eval

variable {α : Type}

abbrev Steady (m : Eval α) : Prop := Obeys Flow.Evolves m

theorem steady_change {op : Scope → Scope} (h : ∀ s : Scope, s.Evolves (op s)) :
    Steady (change op) :=
  obeys_change fun f ↦ h f.scope

theorem steady_set (name : String) (t : Ty) : Steady (change (·.set name t)) :=
  steady_change fun s ↦ s.evolves_set name t

theorem steady_setConstant (w : World) (m : ModuleId) (name : String) (t : Ty) :
    Steady (change (·.setConstant w m name t)) :=
  steady_change fun s ↦ s.evolves_setConstant w m name t

theorem steady_mergeJumps : Steady mergeJumps :=
  obeys_world.bind fun w ↦ steady_change fun s ↦ s.evolves_mergeJumps w

theorem Steady.inFrame {body : Eval α} (hbody : Steady body) (frame : Frame)
    (declared : List (String × Option Ty)) : Steady (inFrame frame declared body) := by
  intro f r g hgives
  obtain ⟨h, hrun, -, rfl⟩ := gives_inFrame.mp hgives
  exact (hbody hrun).outer

theorem Steady.awaits_inFrame {body : Eval α} (hbody : Steady body) (frame : Frame)
    (declared : List (String × Option Ty)) :
    Obeys Flow.Awaits (Eval.inFrame frame declared body) := by
  intro f r g hgives
  obtain ⟨h, hrun, -, rfl⟩ := gives_inFrame.mp hgives
  exact Scope.Evolves.awaits_outer (hbody hrun)

theorem awaits_mapM_inFrame {bodies : List (Eval α)} (hbodies : ∀ body ∈ bodies, Steady body) :
    Obeys Flow.Awaits (bodies.mapM (inFrame {} [])) :=
  Obeys.mapM fun body hbody ↦ (hbodies body hbody).awaits_inFrame {} []

theorem Steady.nested {body : Eval α} (hbody : Steady body) (frame : Frame)
    (declared : List (String × Option Ty)) : Steady (nested frame declared body) := by
  intro f r g hgives
  obtain ⟨h, hrun, -, rfl⟩ := gives_nested.mp hgives
  exact Scope.Evolves.nested (hbody hrun)

theorem steady_branches {bodies : List (Eval α)} (hbodies : ∀ body ∈ bodies, Steady body) :
    Steady (branches bodies) := by
  have hruns : Steady (bodies.mapM (inFrame {} [])) :=
    Obeys.mapM fun body hbody ↦ (hbodies body hbody).inFrame {} []
  rw [branches]
  refine hruns.bind fun runs ↦ obeys_world.bind fun w ↦ ?_
  exact (steady_change fun s ↦ s.evolves_joinBranches w _).bind fun _ ↦ obeys_pure _

theorem Gives.forks {first second : Eval α} (hfirst : Steady first) (hsecond : Steady second)
    {f g : Flow} {rs : List α} (hgives : Gives (Eval.branches [first, second]) f rs g) :
    ∃ a h b h', first.Gives { f with scope := f.scope.enter {} [] } a h ∧
      second.Gives { h with scope := h.scope.outer.enter {} [] } b h' ∧
      Scope.Forks h'.world f.scope h.scope h'.scope g.scope ∧ g.world = h'.world := by
  obtain ⟨a, h, b, h', hrun, hrun', rfl⟩ := hgives.pair
  exact ⟨a, h, b, h', hrun, hrun', ⟨hfirst hrun, hsecond hrun', rfl⟩, rfl⟩

theorem Gives.forks_passing {body : Eval α} (hbody : Steady body) {f g : Flow} {r : Option α}
    (hgives : Gives (Eval.conditional body) f r g) :
    ∃ a h, body.Gives { f with scope := f.scope.enter {} [] } a h ∧
      Scope.Forks h.world f.scope h.scope (h.scope.outer.enter {} []) g.scope ∧
      g.world = h.world := by
  obtain ⟨_, _, hbranches, hpure⟩ := gives_bind.mp hgives
  obtain ⟨-, rfl⟩ := gives_pure.mp hpure
  obtain ⟨_, h, _, _, hrun, hpass, hforks, hworld⟩ :=
    hbranches.forks (hbody.map some) (obeys_pure none)
  obtain ⟨a, hrun, -⟩ := gives_map.mp hrun
  obtain ⟨-, rfl⟩ := gives_pure.mp hpass
  exact ⟨a, h, hrun, hforks, hworld⟩

theorem Gives.forks_conditional {body : Eval α} (hbody : Steady body) {f g : Flow} {r : Option α}
    (hgives : Gives (Eval.conditional body) f r g) :
    ∃ a h w, body.Gives { f with scope := f.scope.enter {} [] } a h ∧
      Scope.Forks w f.scope h.scope (h.scope.outer.enter {} []) g.scope := by
  obtain ⟨a, h, hrun, hforks, -⟩ := hgives.forks_passing hbody
  exact ⟨a, h, h.world, hrun, hforks⟩

theorem steady_setAll (types : List (String × Ty)) : Steady (setAll types) :=
  steady_change fun s ↦ Scope.rel_foldl (fun _ ↦ .refl) .trans
    (fun s d ↦ s.evolves_set d.1 d.2) types s

theorem steady_defineModule (owner : ModuleId) (name : String) (isClass : Bool)
    (superclass : Option ModuleId) : Steady (defineModule owner name isClass superclass) := by
  intro f m g hgives
  rw [Flow.Evolves, hgives.defineModule.2]
  exact Scope.evolves_setConstant _ _ owner name _

variable {task : Task} {V : Node → Prop} {H : Halt → Prop} {own : List String} {merging : Bool}

/-- All that following code does to a scope are steps of its innermost frame and jumps recorded
further out. -/
theorem Steps.steady {m : Eval α} (h : Steps task V H own merging m) : Steady m := by
  induction h with
  | pure a => exact obeys_pure a
  | bind _ _ hm hk => exact hm.bind hk
  | world => exact obeys_world
  | scope _ _ hk => exact obeys_scope.bind hk
  | found | tooDeep => exact obeys_throw _
  | probe t =>
    intro f _ g hgives
    rw [gives_modify.mp hgives]
    exact Relation.ReflTransGen.refl
  | write _ _ name _ t => exact steady_set name t
  | setAll types => exact steady_setAll types
  | setConstant w m name t => exact steady_setConstant w m name t
  | defineModule owner name isClass superclass =>
    exact steady_defineModule owner name isClass superclass
  | terminate => exact steady_change Scope.evolves_terminate
  | jump _ _ jump _ _ t => exact steady_change fun s ↦ s.evolves_jump jump.label t
  | mergeJumps => exact steady_mergeJumps
  | branches _ _ hbodies => exact steady_branches hbodies
  | nested frame declared _ _ hbody => exact hbody.nested frame declared

theorem descends_all :
    Traverses task (fun _ ↦ True) (fun _ ↦ True) (Halt.ComesFrom task fun _ ↦ True) :=
  traverses_all fun _ _ _ _ ↦ trivial

theorem follows_evaluate (depth : Nat) :
    Composed.Follows task (fun _ ↦ True) (evaluate task depth) :=
  composed_evaluate (fun _ _ _ _ ↦ trivial) depth

theorem steady_evaluate (depth : Nat) (n : Node) : Steady (evaluate task depth n) :=
  (follows_evaluate depth n trivial [] false).steady

theorem steady_optional {ev : Node → Eval Ty} (hev : ∀ n, Steady (ev n)) (n : Option Node) :
    Steady (optional ev n) := by
  cases n with
  | none => exact obeys_pure _
  | some n => exact hev n

theorem steady_insideBlock {ev : Node → Eval Ty} (hev : ∀ n, Steady (ev n)) (params : Parameters)
    (body : Option Node) (args : List Ty) : Steady (insideBlock task ev params body args) := by
  have hassign : Composed task (fun _ ↦ True) params.names true
      (assignParameters task params args) :=
    .assignParameters (fun _ hname ↦ hname) args
  have hbody : Steady (blockBody task ev params body args) := by
    rw [blockBody]
    split
    · exact (steady_setAll _).bind fun _ ↦ steady_optional hev body
    · exact hassign.steady.bind fun _ ↦ steady_optional hev body
  refine hbody.bind fun result ↦ steady_mergeJumps.bind fun _ ↦ ?_
  exact obeys_scope.bind fun s ↦ obeys_world.bind fun w ↦ obeys_pure _

end Eval

end FlowCompletion
