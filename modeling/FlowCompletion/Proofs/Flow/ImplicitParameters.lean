import FlowCompletion.Proofs.Flow.Evolution
import FlowCompletion.Proofs.Scope.Shared

namespace FlowCompletion

def Flow.KeepsShared (name : String) (level : Nat) (f g : Flow) : Prop :=
  f.scope.Inner (Frame.Shares name level) → g.scope.Inner (Frame.Shares name level)

instance (name : String) (level : Nat) : IsPreorder Flow (Flow.KeepsShared name level) where
  refl _ h := h
  trans _ _ _ hfg hgh h := hgh (hfg h)

def Flow.KeepsOwn (name : String) (f g : Flow) : Prop :=
  f.scope.Evolves g.scope ∧
    (f.scope.Valid → f.scope.frames ≠ [] → f.scope.hasOwn name = true → g.scope.hasOwn name = true)

instance (name : String) : IsPreorder Flow (Flow.KeepsOwn name) where
  refl _ := ⟨.refl, fun _ _ h ↦ h⟩
  trans _ _ _ hfg hgh := by
    refine ⟨hfg.1.trans hgh.1, fun hf hne h ↦ ?_⟩
    exact hgh.2 (hfg.1.valid hf) (hfg.1.frames_ne_nil hne) (hfg.2 hf hne h)

namespace Eval

open Scope

variable {α : Type} {task : Task} {V : Node → Prop} {H : Halt → Prop}
  {own : List String} {merging : Bool}
  {name : String} {level : Nat}

theorem label_ne_of_local (hlocal : NameKind.ofName name = .lvar) (jump : JumpKind) :
    jump.label ≠ name := by
  rintro rfl
  cases jump <;> exact absurd hlocal (by decide)

/-- No code that is followed in a frame makes the frame the owner of a local that it shares. -/
theorem Steps.keepsShared {m : Eval α} (h : Steps task V H own merging m)
    (hlocal : NameKind.ofName name = .lvar) : Obeys (Flow.KeepsShared name level) m := by
  have hconstant (address : Nat) (other : String) : Key.constant address other ≠ .named name :=
    Key.ne_of_isConstant ⟨_, _, rfl⟩ (Key.not_isConstant_named (hlocal ▸ by decide))
  induction h with
  | pure a => exact obeys_pure a
  | bind _ _ hm hk => exact hm.bind hk
  | world => exact obeys_world
  | scope _ _ hk => exact obeys_scope.bind hk
  | found | tooDeep => exact obeys_throw _
  | probe t =>
    intro f _ g hgives hf
    rwa [gives_modify.mp hgives]
  | write _ _ other _ t => exact obeys_change fun f hf ↦ shares_setKey hlocal hf _ _
  | setAll types => exact obeys_change fun f hf ↦ shares_setAll hlocal (.inl hf)
  | setConstant w m other t =>
    exact obeys_change fun f hf ↦ shares_setEntry hf fun hkey ↦ absurd hkey (hconstant _ _)
  | defineModule owner other isClass superclass =>
    intro f m g hgives hf
    rw [hgives.defineModule.2]
    exact shares_setEntry hf fun hkey ↦ absurd hkey (hconstant _ _)
  | terminate => exact obeys_change fun f hf ↦ shares_terminate hf
  | jump _ _ jump _ _ t =>
    exact obeys_change fun f hf ↦ shares_jump hf (label_ne_of_local hlocal jump) t
  | mergeJumps =>
    exact obeys_world.bind fun w ↦ obeys_change fun f hf ↦ shares_mergeJumps hlocal hf w
  | branches _ hbodies =>
    intro f a g hgives hf
    obtain ⟨runs, h, hruns, hscope⟩ := hgives.branches
    have hawaits := awaits_mapM_inFrame (fun body hbody ↦ (hbodies body hbody).steady) hruns
    rw [hscope]
    exact shares_joinBranches hlocal (shares_of_awaits hf hawaits) _ _
  | nested frame declared _ hbody =>
    intro f r g hgives hf
    obtain ⟨h, hrun, -, rfl⟩ := gives_nested.mp hgives
    have hawaits := Evolves.awaits_outer (hbody.steady hrun)
    exact shares_update hlocal (shares_of_awaits hf hawaits) _

variable {depth : Nat} {block body : Node} {params : Parameters}

theorem not_mem_declared (hblock : block.kind = .block params (some body))
    (hparams : params.isEmpty = true) (hlocal : NameKind.ofName name = .lvar)
    (hwrites : name ∉ body.localWrites) :
    name ∉ (unwritten block.declaredLocals ++ loopLabels).map Prod.fst := by
  intro hname
  obtain ⟨d, hd, rfl⟩ := List.mem_map.mp hname
  rcases List.mem_append.mp hd with hd | hd
  · obtain ⟨other, hother, rfl⟩ := List.mem_map.mp hd
    have hnames : params.names = [] := List.isEmpty_iff.mp hparams
    simp only [Node.declaredLocals, hblock, hnames, mem_firsts, List.nil_append] at hother
    exact hwrites hother
  · obtain ⟨jump, hjump⟩ := Steps.labels_loopLabels d hd
    exact label_ne_of_local hlocal jump hjump.symm

theorem shares_insideBlock (hparams : params.isEmpty = true)
    (hlocal : NameKind.ofName name = .lvar) {args : List Ty}
    (hname : name ∈ (Node.implicitArguments (some body) args).map Prod.fst) {f g : Flow}
    {r : Ty × Option Ty × Option Ty}
    (hgives : Gives (insideBlock task (evaluate task depth) params (some body) args) f r g)
    (hf : f.scope.Passes name level) : g.scope.Inner (Frame.Shares name level) := by
  have hcomposed : Composed task (fun _ ↦ True) [] false (evaluate task depth body) :=
    follows_evaluate depth body trivial [] false
  rw [insideBlock] at hgives
  obtain ⟨_, h, hbody, hgives⟩ := gives_bind.mp hgives
  rw [blockBody, if_pos hparams] at hbody
  obtain ⟨_, _, hset, hfollow⟩ := gives_bind.mp hbody
  obtain rfl := gives_change.mp hset
  have hshares := hcomposed.keepsShared hlocal hfollow (shares_setAll hlocal (.inr ⟨hname, hf⟩))
  simp only [mergeJumps, gives_bind, gives_world, gives_change, gives_scope, gives_pure] at hgives
  obtain ⟨_, _, ⟨_, _, ⟨rfl, rfl⟩, rfl⟩, _, _, ⟨-, rfl⟩, _, _, ⟨-, rfl⟩, -, rfl⟩ := hgives
  exact shares_mergeJumps hlocal hshares _

theorem hasOwn_runLiteral (hblock : block.kind = .block params (some body))
    (hparams : params.isEmpty = true) (hlocal : NameKind.ofName name = .lvar)
    (hwrites : name ∉ body.localWrites) {args : List Ty}
    (hname : name ∈ (Node.implicitArguments (some body) args).map Prod.fst) {self : Option Ty}
    {f g : Flow} {r : Ty × Option Ty} (hf : f.scope.Valid) (hne : f.scope.frames ≠ [])
    (hgives : Gives (runLiteral task (evaluate task depth) block params (some body) args self)
      f r g) : g.scope.hasOwn name = true := by
  have hsteady : Steady (insideBlock task (evaluate task depth) params (some body) args) :=
    steady_insideBlock (steady_evaluate depth) params (some body) args
  rw [runLiteral] at hgives
  obtain ⟨_, _, hran, hpure⟩ := gives_bind.mp hgives
  obtain ⟨-, rfl⟩ := gives_pure.mp hpure
  obtain ⟨_, _, w, hbody, hforks⟩ :=
    hran.forks_conditional ((hsteady.nested _ _).bind fun _ ↦ obeys_pure _)
  obtain ⟨_, _, hnested, hpure⟩ := gives_bind.mp hbody
  obtain ⟨-, rfl⟩ := gives_pure.mp hpure
  obtain ⟨h, hinside, -, rfl⟩ := gives_nested.mp hnested
  have hshares := shares_insideBlock hparams hlocal hname hinside
    (passes_enter (valid_enter hf {} []) rfl (not_mem_declared hblock hparams hlocal hwrites))
  have hevolves := hsteady hinside
  refine hforks.hasOwn hf hne List.mem_cons_self ?_
    (Evolves.hasOwn_nested hevolves (List.cons_ne_nil _ _) hshares)
  exact (isTerminated_update _ _).trans (isTerminated_of_awaits (Evolves.awaits_outer hevolves))

/-- Wherever the block is run, the name is in the innermost frame afterwards. -/
def Brings (name : String) (run : BlockRun) : Prop :=
  ∀ ⦃args self f r g⦄, Gives (run args self) f r g → f.scope.Evolves g.scope ∧
    (f.scope.Valid → f.scope.frames ≠ [] → g.scope.hasOwn name = true)

variable {run : BlockRun} {f g : Flow}

theorem Brings.keepsOwn (hrun : Brings name run) :
    ∀ r ∈ some run, ∀ args self, Obeys (Flow.KeepsOwn name) (r args self) := by
  rintro r hr args self f a g hgives
  obtain rfl := Option.mem_some.mp hr
  obtain ⟨hevolves, hown⟩ := hrun hgives
  exact ⟨hevolves, fun hf hne _ ↦ hown hf hne⟩

theorem Brings.hasOwn_callMatch (hrun : Brings name run) {m : MethodMatch} {c : CallResult}
    (hgives : Gives (callMatch task (some run) m) f c g) (hf : f.scope.Valid)
    (hne : f.scope.frames ≠ []) (hran : c.ranBlock = true) : g.scope.hasOwn name = true := by
  rw [callMatch] at hgives
  obtain ⟨_, _, hresolver, hgives⟩ := gives_bind.mp hgives
  obtain rfl := obeys_resolver (R := Eq) task hresolver
  dsimp only at hgives
  split at hgives
  next hsome _ =>
    obtain ⟨_, _, hblock, hgives⟩ := gives_bind.mp hgives
    obtain ⟨_, _, hresolver, hpure⟩ := gives_bind.mp hgives
    obtain rfl := obeys_resolver (R := Eq) task hresolver
    obtain ⟨-, rfl⟩ := gives_pure.mp hpure
    cases hsome
    exact (hrun hblock).2 hf hne
  next =>
    obtain ⟨rfl, -⟩ := gives_pure.mp hgives
    cases hran

theorem Brings.hasOwn_mapM_callMatch (hrun : Brings name run) {found : List MethodMatch}
    {calls : List CallResult} (hgives : Gives (found.mapM (callMatch task (some run))) f calls g)
    (hf : f.scope.Valid) (hne : f.scope.frames ≠ [])
    (hran : calls.any CallResult.ranBlock = true) : g.scope.hasOwn name = true := by
  induction found generalizing f calls with
  | nil =>
    obtain ⟨rfl, -⟩ := gives_pure.mp hgives
    cases hran
  | cons m found ih =>
    rw [List.mapM_cons] at hgives
    obtain ⟨c, h, hmatch, hgives⟩ := gives_bind.mp hgives
    obtain ⟨cs, _, hrest, hpure⟩ := gives_bind.mp hgives
    obtain ⟨rfl, rfl⟩ := gives_pure.mp hpure
    have hevolves := (obeys_callMatch hrun.keepsOwn m hmatch).1
    have hvalid := hevolves.valid hf
    have hframes := hevolves.frames_ne_nil hne
    rw [List.any_cons, Bool.or_eq_true] at hran
    rcases hran with hran | hran
    · have hown := hrun.hasOwn_callMatch hmatch hf hne hran
      have hkeeps := Obeys.mapM (fun m _ ↦ obeys_callMatch hrun.keepsOwn m) hrest
      exact hkeeps.2 hvalid hframes hown
    · exact ih hrest hvalid hframes hran

theorem Brings.hasOwn_call (hrun : Brings name run) {receiver t : Ty} {method : String}
    {args : CallArguments} {guesses : Bool}
    (hgives : Gives (call task receiver method args (some run) guesses) f t g)
    (hf : f.scope.Valid) (hne : f.scope.frames ≠ []) : g.scope.hasOwn name = true := by
  rw [call] at hgives
  obtain ⟨_, _, hresolver, hgives⟩ := gives_bind.mp hgives
  obtain rfl := obeys_resolver (R := Eq) task hresolver
  obtain ⟨calls, h, hcalls, hgives⟩ := gives_bind.mp hgives
  have hevolves := (Obeys.mapM (fun m _ ↦ obeys_callMatch hrun.keepsOwn m) hcalls).1
  obtain ⟨_, h', hunselected, hgives⟩ := gives_bind.mp hgives
  have hown : h'.scope.hasOwn name = true := by
    rw [runUnselected] at hunselected
    split at hunselected
    next hran =>
      obtain ⟨-, rfl⟩ := gives_pure.mp hunselected
      exact hrun.hasOwn_mapM_callMatch hcalls hf hne hran
    next =>
      obtain ⟨_, hblock, -⟩ := gives_map.mp hunselected
      exact (hrun hblock).2 (hevolves.valid hf) (hevolves.frames_ne_nil hne)
  obtain ⟨_, _, hworld, hend⟩ := gives_bind.mp hgives
  obtain ⟨-, rfl⟩ := gives_world.mp hworld
  dsimp only at hend
  split at hend
  next =>
    obtain ⟨_, _, hchange, hpure⟩ := gives_bind.mp hend
    obtain ⟨-, rfl⟩ := gives_pure.mp hpure
    rw [gives_change.mp hchange]
    exact hasOwn_terminate hown
  next =>
    obtain ⟨-, rfl⟩ := gives_pure.mp hend
    exact hown

theorem evaluateCall_eq (ev : Node → Eval Ty) (n : Node) (receiver : Option Node)
    (operator : Option CallOperator) (method : String) (arguments block : Option Node) :
    evaluateCall task ev n receiver operator method arguments block = (do
      let self ← receiver.elim selfType ev
      if operator = some .safeNav then
        let result ← conditional (callNode task ev n method arguments block self.nonnillable)
        return Ty.union (result.toList ++ if self.nillable then [Ty.nil] else [])
      callNode task ev n method arguments block self) := by
  cases receiver <;> rfl

theorem steady_receiver (depth : Nat) (receiver : Option Node) :
    Steady (receiver.elim selfType (evaluate task depth)) := by
  cases receiver with
  | none => exact obeys_scope.bind fun s ↦ obeys_world.bind fun w ↦ obeys_pure _
  | some n => exact steady_evaluate depth n

theorem hasOwn_callNode {depth : Nat} {n block body : Node} {params : Parameters}
    (hblock : block.kind = .block params (some body)) (hparams : params.isEmpty = true)
    (hlocal : NameKind.ofName name = .lvar) (hwrites : name ∉ body.localWrites)
    (hname : ∀ args, name ∈ (Node.implicitArguments (some body) args).map Prod.fst)
    {method : String} {arguments : Option Node} {receiver t : Ty}
    (hgives : Gives (callNode task (evaluate task depth) n method arguments (some block) receiver)
      f t g) (hf : f.scope.Valid) (hne : f.scope.frames ≠ []) : g.scope.hasOwn name = true := by
  have hrun : Brings name (runLiteral task (evaluate task depth) block params (some body)) := by
    intro args self f r g hgives
    have hcomposed : Composed task (fun _ ↦ True) [] false
        (runLiteral task (evaluate task depth) block params (some body) args self) :=
      .runLiteral (follows_evaluate depth) descends_all trivial hblock args self
    refine ⟨hcomposed.steady hgives, fun hf hne ↦ ?_⟩
    exact hasOwn_runLiteral hblock hparams hlocal hwrites (hname args) hf hne hgives
  rw [callNode] at hgives
  obtain ⟨args, h, hargs, hgives⟩ := gives_bind.mp hgives
  have hcomposed : Composed task (fun _ ↦ True) [] false
      (callArguments (evaluate task depth) arguments) :=
    .callArguments (follows_evaluate depth) descends_all fun _ _ ↦ trivial
  have hevolves := hcomposed.steady hargs
  simp only [blockOf, hblock, pure_bind] at hgives
  obtain ⟨_, _, hcall, hresult⟩ := gives_bind.mp hgives
  have hown := hrun.hasOwn_call hcall (hevolves.valid hf) (hevolves.frames_ne_nil hne)
  split at hresult <;> obtain ⟨-, rfl⟩ := gives_pure.mp hresult <;> exact hown

/-- An implicit parameter that a block uses and does not write is a local of the scope around the
call once the call has been evaluated. With safe navigation this takes that control gets through the
call; otherwise the parameter is a local exactly if it was one before the call. -/
theorem implicit_parameters_leak {task : Task} {depth : Nat} {n block body c : Node}
    {receiver arguments : Option Node} {operator : Option CallOperator} {method x : String}
    {parenthesized : Bool} {params : Parameters}
    (hcall : n.kind = .call receiver operator method arguments (some block) parenthesized)
    (hblock : block.kind = .block params (some body)) (hparams : params.isEmpty = true)
    (hx : x ∈ Node.implicitNames) (hc : c ∈ body.localNodes) (huses : c.implicitName? = some x)
    (hwrites : x ∉ body.localWrites) {f g : Flow} (hf : f.scope.Valid) (hne : f.scope.frames ≠ [])
    {t : Ty} (hgives : Gives (evaluate task (depth + 1) n) f t g) :
    ∃ self before, Gives (receiver.elim selfType (evaluate task depth)) f self before ∧
      (operator ≠ some .safeNav → x ∈ g.scope.locals) ∧
      (operator = some .safeNav → ∃ result inside,
        Gives (callNode task (evaluate task depth) n method arguments (some block)
          self.nonnillable) { before with scope := before.scope.enter {} [] } result inside ∧
        (x ∈ g.scope.locals ↔ inside.scope.isTerminated = false ∨ x ∈ before.scope.locals)) := by
  have hlocal : NameKind.ofName x = .lvar :=
    (show ∀ x ∈ Node.implicitNames, NameKind.ofName x = .lvar by decide) x hx
  have hname := Node.mem_implicitArguments hx hc huses
  obtain ⟨d, h, hdepth, hkind, hscope, -⟩ := hgives.evaluateKind
  obtain rfl : depth = d := by omega
  simp only [evaluateKind, hcall, evaluateCall_eq] at hkind
  obtain ⟨self, before, hreceiver, hend⟩ := gives_bind.mp hkind
  have hevolves : f.scope.Evolves before.scope := steady_receiver depth receiver hreceiver
  have hbefore := hevolves.valid hf
  have hbeforene := hevolves.frames_ne_nil hne
  rw [hscope]
  refine ⟨self, before, hreceiver, fun hoperator ↦ ?_, fun hoperator ↦ ?_⟩
  · rw [if_neg hoperator] at hend
    exact mem_locals_of_hasOwn hlocal
      (hasOwn_callNode hblock hparams hlocal hwrites hname hend hbefore hbeforene)
  · rw [if_pos hoperator] at hend
    obtain ⟨_, _, hconditional, hpure⟩ := gives_bind.mp hend
    obtain ⟨-, rfl⟩ := gives_pure.mp hpure
    have hcomposed : Composed task (fun _ ↦ True) [] false
        (callNode task (evaluate task depth) n method arguments (some block) self.nonnillable) :=
      .callNode (follows_evaluate depth) descends_all (fun _ _ ↦ trivial) (fun _ _ ↦ trivial) n
        (.inr ⟨n, trivial, by rw [Node.calledName?, hcall]⟩) _
    obtain ⟨result, inside, w, hinside, hforks⟩ := hconditional.forks_conditional hcomposed.steady
    have hown := hasOwn_callNode hblock hparams hlocal hwrites hname hinside
      (valid_enter hbefore {} []) (List.cons_ne_nil _ _)
    exact ⟨result, inside, hinside, hforks.mem_locals_iff hbefore hbeforene hlocal hown⟩

def itRead : Node := .ofKind (.varRead .lvar "it")

/-- `[].each { it }` -/
def eachCall : Node :=
  .ofKind (.call (some (.ofKind (.array []))) none "each" none
    (some (.ofKind (.block {} (some itRead)))) false)

def eachTask : Task := { target := 1, maxDepth := 3 }

def eachFlow : Flow := { world := {}, scope := .bare [] }

theorem implicit_parameters_leak_each :
    ∃ t g, eachFlow.scope.Valid ∧ Gives (evaluate eachTask 3 eachCall) eachFlow t g ∧
      "it" ∉ eachFlow.scope.locals ∧ "it" ∈ g.scope.locals := by
  have hvalid : eachFlow.scope.Valid := (reachable_bare []).valid
  have hread : itRead ∈ itRead.localNodes := by
    rw [Node.localNodes]
    exact List.mem_cons_self
  obtain ⟨t, g, hgives⟩ := exists_gives (f := eachFlow) (m := evaluate eachTask 3 eachCall)
    (by decide +kernel)
  obtain ⟨_, _, -, hleaks, -⟩ := implicit_parameters_leak (x := "it") rfl rfl rfl (by decide) hread
    rfl (by decide +kernel) hvalid (List.cons_ne_nil _ _) hgives
  exact ⟨t, g, hvalid, hgives, by decide +kernel, hleaks (by decide)⟩

end Eval

end FlowCompletion
