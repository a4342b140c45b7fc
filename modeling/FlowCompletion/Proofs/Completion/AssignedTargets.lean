import FlowCompletion.Completion.Engine
import FlowCompletion.Proofs.Flow.Composition
import FlowCompletion.Proofs.Source.Positions

namespace FlowCompletion

/-- Code of a tree for which enough depth is left, if there is enough for the tree. -/
structure Node.Followed (root : Node) (limit depth : Nat) (n : Node) : Prop where
  mem : n ∈ root.preorder
  code : ¬ root.Assigned n
  shallow : root.nesting < limit → n.nesting < depth

def Node.isNameTarget (n : Node) : Bool :=
  match n.kind with
  | .varTarget .. | .constTarget _ => true
  | _ => false

/-- The tree nests too deep for the limit, and evaluation stops for no other reason. -/
def Halt.OnlyForDepth (root : Node) (limit : Nat) : Halt → Prop
  | .found _ => False
  | .tooDeep _ => limit ≤ root.nesting

variable {root n : Node}

theorem Node.Followed.operand {limit depth depth' : Nat} {c : Node} (hroot : root.Distinct)
    (h : root.Followed limit depth n) (hdepth : n.nesting < depth → n.nesting ≤ depth')
    (hc : c ∈ n.kind.operands) : root.Followed limit depth' c where
  mem := root.descends_preorder.operands (root.descends_preorder n h.mem) c hc
  code := hroot.not_assigned_operand h.mem h.code hc
  shallow := fun hlimit ↦ by
    have hlt := nesting_lt_of_mem_operands hc
    have hle := hdepth (h.shallow hlimit)
    omega

namespace Eval

variable {task : Task}

theorem traverses_followed (hroot : root.Distinct) (hn : root.Assigned n)
    (htarget : task.target = n.index) (depth : Nat) :
    Traverses task (· ∈ root.preorder) (root.Followed task.maxDepth depth)
      (Halt.OnlyForDepth root task.maxDepth) where
  descends := root.descends_preorder
  within := fun _ h ↦ h.mem
  operands := fun _ h _ hc ↦ h.operand hroot Nat.le_of_lt hc
  found := fun m h hindex _ ↦ by
    have heq := hroot.eq_of_index_eq h.mem hn.mem_preorder (hindex.symm.trans htarget)
    exact h.code (heq ▸ hn)

theorem haltsWithin_of_assigned (hroot : root.Distinct) (hn : root.Assigned n)
    (htarget : task.target = n.index) :
    HaltsWithin (Halt.OnlyForDepth root task.maxDepth) (evaluate task task.maxDepth root) := by
  have hfollowed : root.Followed task.maxDepth task.maxDepth root :=
    ⟨root.mem_preorder_self, hroot.not_assigned_root, fun h ↦ h⟩
  refine (steps_evaluate (traverses_followed hroot hn htarget) (fun depth m h c hc ↦ ?_)
    (fun m h ↦ ?_) task.maxDepth root hfollowed [] false).haltsWithin
  · exact h.operand hroot Nat.le_of_lt_succ hc
  · -- with no depth left there would be nothing to follow in a tree that is shallow enough
    refine Nat.le_of_not_lt fun hlimit ↦ ?_
    exact Nat.not_lt_zero _ (h.shallow hlimit)

end Eval

/-- There is no answer, and an error only under the condition `P`. -/
def Fails (P : Prop) {α ε : Type} (m : Except ε (Option α)) : Prop :=
  m = .ok none ∨ P ∧ ∃ e, m = .error e

theorem Fails.mapError {P : Prop} {α ε ε' : Type} {m : Except ε (Option α)} (h : Fails P m)
    (f : ε → ε') : Fails P (m.mapError f) := by
  rcases h with rfl | ⟨hp, e, rfl⟩
  · exact .inl rfl
  · exact .inr ⟨hp, f e, rfl⟩

theorem Fails.bind {P : Prop} {α β : Type} {m : Answer α} (h : Fails P m.run) (k : α → Answer β) :
    Fails P (m >>= k).run := by
  rcases h with h | ⟨hp, e, h⟩
  · left
    rw [OptionT.run_bind, h]
    rfl
  · refine .inr ⟨hp, e, ?_⟩
    rw [OptionT.run_bind, h]
    rfl

theorem findTarget_fails {task : Task} (w : World) (binding : Binding) (hroot : root.Distinct)
    (hn : root.Assigned n) (htarget : task.target = n.index) :
    Fails (task.maxDepth ≤ root.nesting) (findTarget task w binding root) := by
  have hhalts := Eval.haltsWithin_of_assigned hroot hn htarget
  rw [findTarget]
  split
  next outcome flow hrun =>
    cases outcome with
    | ok t => exact .inl rfl
    | error reason =>
      obtain ⟨-, hreason⟩ := hhalts.stops trivial hrun
      cases reason with
      | found t => cases hreason
      | tooDeep span => exact .inr ⟨hreason, _, rfl⟩

namespace Request

variable {r : Request}

theorem evaluate_fails (hroot : r.root.Distinct) (hn : r.root.Assigned n) (path : List Node)
    (probe : Option Node) :
    Fails (r.settings.maxDepth ≤ r.root.nesting) (r.evaluate path n probe).run :=
  (findTarget_fails r.world r.binding hroot hn rfl).mapError _

theorem complete_fails (hroot : r.root.Distinct) (hn : r.root.Assigned n)
    (hname : n.isNameTarget = true) (path parents : List Node) :
    Fails (r.settings.maxDepth ≤ r.root.nesting) (r.complete path n parents).run := by
  have hfails := evaluate_fails hroot hn path
  unfold Node.isNameTarget at hname
  split at hname
  case h_1 var name hkind =>
    simp only [complete, hkind, completeVariable]
    cases var with
    | lvar => exact (hfails _).bind _
    | ivar | cvar | gvar => exact (hfails none).bind _
  case h_2 name hkind =>
    simp only [complete, hkind, completeConstant, pure_bind]
    exact (hfails none).bind _
  case h_3 => cases hname

theorem answer_fails (hroot : r.root.Distinct) {above : List Node}
    (hlocate : r.root.locate r.offset = some (above ++ [n])) (hn : r.root.Assigned n)
    (hname : n.isNameTarget = true) :
    Fails (r.root.span.stop < r.offset ∨ r.settings.maxDepth ≤ r.root.nesting) r.answer := by
  rw [answer]
  split
  case isTrue h => exact .inr ⟨.inl h, _, rfl⟩
  case isFalse =>
    rw [hlocate]
    simp only [List.reverse_append, List.reverse_singleton, List.singleton_append]
    rcases complete_fails hroot hn hname (above ++ [n]) above.reverse with h | ⟨hdeep, he⟩
    · exact .inl h
    · exact .inr ⟨.inr hdeep, he⟩

end Request

/-- There is no answer for a variable or constant that is assigned to by a multiple assignment, a
loop or a rescue clause, and no error either if the tree is not too deep. -/
theorem analyze_assigned_target {e : Engine} {w : World} {binding : Binding} {offset first : Nat}
    {tree : Node} {above : List Node} (hroot : (tree.numbered first).1 = root)
    (hlocate : root.locate offset = some (above ++ [n])) (hassigned : root.Assigned n)
    (hname : n.isNameTarget = true) :
    (e.analyze w binding root offset).1 = none ∧
      (offset ≤ root.span.stop → root.nesting < e.settings.maxDepth →
        (e.analyze w binding root offset).2 = e) := by
  rw [Engine.analyze]
  generalize hr : Request.mk w binding e.store.database e.settings root offset = r
  have hdistinct : root.Distinct := hroot ▸ tree.distinct_numbered first
  have hfails : Fails (root.span.stop < offset ∨ e.settings.maxDepth ≤ root.nesting) r.answer := by
    subst hr
    exact Request.answer_fails hdistinct hlocate hassigned hname
  rcases hfails with h | ⟨hcause, error, h⟩
  · rw [h]
    exact ⟨rfl, fun _ _ ↦ rfl⟩
  · rw [h]
    refine ⟨rfl, fun hrange hshallow ↦ ?_⟩
    omega

/-- The `b` of `a, b = [1, 2]`. -/
def secondTarget : Node := .mk ⟨3, 4⟩ 4 (.varTarget .lvar "b")

def pairAssignment : Node :=
  .mk ⟨0, 13⟩ 2 (.multiWrite [.mk ⟨0, 1⟩ 3 (.varTarget .lvar "a"), secondTarget]
    (.mk ⟨7, 13⟩ 5 (.array [.mk ⟨8, 9⟩ 6 (.integer 1), .mk ⟨11, 12⟩ 7 (.integer 2)])))

def pairProgram : Node :=
  .mk ⟨0, 13⟩ 0 (.program (.mk ⟨0, 13⟩ 1 (.statements [pairAssignment])))

theorem analyze_assigned_target_second :
    ({} : Engine).analyze World.initial { receiver := .ofModule .object } pairProgram 4 =
      (none, {}) := by
  have hroot : (pairProgram.numbered 0).1 = pairProgram := by
    simp [pairProgram, pairAssignment, secondTarget, Node.numbered_eq, Node.numberAll,
      Node.children_eq_subnodes, Node.kind, Node.span, NodeKind.withChildren, NodeKind.refill,
      nextChildren]
    rfl
  have hlocate : pairProgram.locate 4 =
      some ([pairProgram, .mk ⟨0, 13⟩ 1 (.statements [pairAssignment]), pairAssignment] ++
        [secondTarget]) := by
    simp [pairProgram, pairAssignment, secondTarget, Node.locate_eq, Node.children_eq_subnodes,
      Node.kind, Node.span]
  have hassigned : pairProgram.Assigned secondTarget := by
    have hbelow := pairProgram.descends_preorder
    have hlist := hbelow pairProgram pairProgram.mem_preorder_self _ List.mem_cons_self
    exact .target (hbelow _ hlist pairAssignment List.mem_cons_self)
      (List.mem_cons_of_mem _ List.mem_cons_self)
  have hnesting : pairProgram.nesting < 256 := by decide +kernel
  obtain ⟨hanswer, hengine⟩ := analyze_assigned_target hroot hlocate hassigned rfl
  exact Prod.ext hanswer (hengine (by decide) hnesting)

end FlowCompletion
