import FlowCompletion.Proofs.Flow.Evolution
import FlowCompletion.Proofs.Scope.Ownership
import FlowCompletion.Proofs.Scope.Reachable

namespace FlowCompletion

/-- The name is the same before and after. -/
def Flow.Spares (name : String) (f g : Flow) : Prop :=
  ∀ w, g.scope.get? w name = f.scope.get? w name

instance (name : String) : IsPreorder Flow (Flow.Spares name) where
  refl _ _ := rfl
  trans _ _ _ hfg hgh w := (hgh w).trans (hfg w)

theorem Node.mem_declaredLocals {n body : Node} {params : Parameters} {name : String}
    (hkind : n.kind = .block params (some body)) (hname : name ∈ body.localWrites) :
    name ∈ n.declaredLocals := by
  rw [declaredLocals, hkind, mem_firsts]
  exact List.mem_append_right _ hname

namespace Eval

variable {task : Task} {ev : Node → Eval Ty} {name : String}

theorem spares_terminate (f : Flow) : f.Spares name { f with scope := f.scope.terminate } :=
  fun w ↦ f.scope.lookup_terminate w (.named name)

theorem mem_unwritten {names : List String} (hname : name ∈ names)
    (others : List (String × Option Ty)) : name ∈ (unwritten names ++ others).map Prod.fst := by
  refine List.mem_map.mpr ⟨(name, some .nil), List.mem_append_left _ ?_, rfl⟩
  exact List.mem_map.mpr ⟨name, hname, rfl⟩

theorem spares_runLiteral (hev : ∀ n, Steady (ev n)) {n : Node} (hname : name ∈ n.declaredLocals)
    (hown : Ownable name) (params : Parameters) (body : Option Node)
    (args : List Ty) (self : Option Ty) :
    Obeys (Flow.Spares name) (runLiteral task ev n params body args self) := by
  intro f r g hgives
  rw [runLiteral] at hgives
  obtain ⟨ran, _, hran, hresult⟩ := gives_bind.mp hgives
  obtain ⟨-, rfl⟩ := gives_pure.mp hresult
  obtain ⟨_, _, hbody, hscope⟩ := hran.conditional
  obtain ⟨left, _, hnested, hresult⟩ := gives_bind.mp hbody
  obtain ⟨-, rfl⟩ := gives_pure.mp hresult
  obtain ⟨h, hinside, -, rfl⟩ := gives_nested.mp hnested
  have hsteady := steady_insideBlock hev params body args hinside
  intro w
  rw [hscope]
  exact Scope.lookup_conditional_of_declared hown (mem_unwritten hname _) hsteady

/-- Whatever the body of a block makes of a local that it writes is seen after the call exactly if
the local might have been that before, once the arguments had been evaluated. -/
theorem block_writes_stay_inside {task : Task} {depth : Nat} {n block body : Node}
    {params : Parameters} {method x : String} {arguments : Option Node} {receiver t : Ty}
    {flow after : Flow} (hblock : block.kind = .block params (some body))
    (hx : x ∈ body.localWrites) (hlocal : NameKind.ofName x = .lvar)
    (hcall : Gives (callNode task (evaluate task depth) n method arguments (some block) receiver)
      flow t after) :
    ∃ args before, Gives (callArguments (evaluate task depth) arguments) flow args before ∧
      (∀ w, after.scope.get? w x = before.scope.get? w x) ∧
      ∀ w types start result stop,
        Gives (blockBody task (evaluate task depth) params (some body) types) start result stop →
          ((∀ k ∈ kindsOf (stop.scope.get? w x), k ∈ kindsOf (after.scope.get? w x)) ∧
              (∀ k ∈ kindsOf (before.scope.get? w x), k ∈ kindsOf (after.scope.get? w x)) ↔
            ∀ k ∈ kindsOf (stop.scope.get? w x), k ∈ kindsOf (before.scope.get? w x)) := by
  have hown : Ownable x := ownable_of_kind hlocal (by decide)
  have hrun : ∀ r ∈ some (runLiteral task (evaluate task depth) block params (some body)),
      ∀ args self, Obeys (Flow.Spares x) (r args self) := by
    intro r hr args self
    obtain rfl := Option.mem_some.mp hr
    have hdeclared := Node.mem_declaredLocals hblock hx
    exact spares_runLiteral (steady_evaluate depth) hdeclared hown _ _ _ _
  rw [callNode] at hcall
  obtain ⟨args, before, hargs, hcall⟩ := gives_bind.mp hcall
  simp only [blockOf, hblock, pure_bind] at hcall
  obtain ⟨result, _, hcall, hresult⟩ := gives_bind.mp hcall
  have hsame : ∀ w, after.scope.get? w x = before.scope.get? w x := by
    have hafter := obeys_call spares_terminate hrun receiver method args true hcall
    split at hresult <;> obtain ⟨-, rfl⟩ := gives_pure.mp hresult <;> exact hafter
  refine ⟨args, before, hargs, hsame, fun w types start result stop _ ↦ ?_⟩
  rw [hsame w]
  exact ⟨fun h ↦ h.1, fun h ↦ ⟨h, fun _ hk ↦ hk⟩⟩

def stringWrite : Node := .ofKind (.varWrite .lvar "a" (.ofKind (.string "s" true)))

def farTask : Task := { target := 1, maxDepth := 3 }

def integerFlow : Flow := { world := {}, scope := .bare [("a", some .integer)] }

theorem block_writes_stay_inside_string :
    ∃ t after result stop,
      Gives (callNode farTask (evaluate farTask 2) (.ofKind .nil) "each" none
        (some (.ofKind (.block { required := ["x"] } (some stringWrite)))) .array)
          integerFlow t after ∧
      Gives (blockBody farTask (evaluate farTask 2) { required := ["x"] } (some stringWrite) [])
        integerFlow result stop ∧
      .instanceOf .string ∈ kindsOf (stop.scope.get? {} "a") ∧
      .instanceOf .string ∉ kindsOf (after.scope.get? {} "a") := by
  obtain ⟨t, after, hcall⟩ := exists_gives (f := integerFlow)
    (m := callNode farTask (evaluate farTask 2) (.ofKind .nil) "each" none
      (some (.ofKind (.block { required := ["x"] } (some stringWrite)))) .array) (by decide +kernel)
  have hbody : Gives (blockBody farTask (evaluate farTask 2) { required := ["x"] }
    (some stringWrite) []) integerFlow .string _ := rfl
  obtain ⟨args, before, hargs, hsame, -⟩ := block_writes_stay_inside (x := "a") rfl
    (by decide +kernel) (by decide) hcall
  obtain ⟨-, rfl⟩ := gives_pure.mp hargs
  refine ⟨t, after, _, _, hcall, hbody, by decide +kernel, ?_⟩
  rw [hsame {}]
  decide

end Eval

end FlowCompletion
