import FlowCompletion.Proofs.Flow.Composition
import FlowCompletion.Proofs.Flow.NormalForm

namespace FlowCompletion

def Flow.declaring (f : Flow) (names : List String) : Flow :=
  { f with scope := f.scope.declaring names }

namespace Eval

variable {α β : Type} {task : Task} {V : Node → Prop} {own : List String} {merging : Bool}

/-- The computation does the same whatever locals the program declares. -/
def Blind (m : Eval α) : Prop :=
  ∀ f names, m.run.run (f.declaring names) = (m.run.run f).map id (·.declaring names)

theorem Blind.bind {m : Eval α} {k : α → Eval β} (hm : Blind m) (hk : ∀ a, Blind (k a)) :
    Blind (m >>= k) := by
  intro f names
  rw [run_bind, run_bind, hm f names]
  obtain ⟨e | a, g⟩ := m.run.run f
  · rfl
  · exact hk a g names

theorem Blind.mapM {k : α → Eval β} {l : List α} (hk : ∀ a ∈ l, Blind (k a)) :
    Blind (l.mapM k) := by
  induction l with
  | nil => exact fun f names ↦ rfl
  | cons a l ih =>
    obtain ⟨ha, hl⟩ := List.forall_mem_cons.mp hk
    rw [List.mapM_cons]
    exact ha.bind fun b ↦ (ih hl).bind fun bs f names ↦ rfl

theorem blind_change {op : Scope → Scope}
    (h : ∀ s names, op (s.declaring names) = (op s).declaring names) : Blind (change op) := by
  intro f names
  refine Prod.ext rfl ?_
  exact congrArg (Flow.mk _ · _) (h f.scope names)

theorem run_inFrame (frame : Frame) (declared : List (String × Option Ty)) (body : Eval α)
    (f : Flow) :
    (inFrame frame declared body).run.run f =
      match body.run.run { f with scope := f.scope.enter frame declared } with
      | (.ok a, g) => (.ok (a, g.scope.leave.1), { g with scope := g.scope.outer })
      | (.error e, g) => (.error e, g) := by
  rw [inFrame, run_bind]
  change (body >>= _).run.run { f with scope := f.scope.enter frame declared } = _
  rw [run_bind]
  rfl

theorem Blind.inFrame {body : Eval α} (hbody : Blind body) (frame : Frame)
    (declared : List (String × Option Ty)) : Blind (inFrame frame declared body) := by
  intro f names
  have hrun := hbody { f with scope := f.scope.enter frame declared } names
  rw [run_inFrame, run_inFrame]
  change (match body.run.run (Flow.declaring { f with scope := f.scope.enter frame declared } names)
    with | (.ok a, g) => _ | (.error e, g) => _) = _
  rw [hrun]
  obtain ⟨e | a, g⟩ := body.run.run { f with scope := f.scope.enter frame declared } <;> rfl

/-- Nothing that following code does depends on the locals that the program declares. -/
theorem Steps.blind {m : Eval α} (h : Steps task V H own merging m) : Blind m := by
  induction h with
  | pure | world | found | tooDeep | probe => exact fun f names ↦ rfl
  | bind _ _ hm hk => exact hm.bind hk
  | @scope _ _ _ k _ hdeclared hk =>
    intro f names
    change (k (f.scope.declaring names)).run.run (f.declaring names) = _
    rw [hdeclared]
    exact hk f.scope f names
  | write _ _ name _ t => exact blind_change fun s names ↦ s.set_declaring names name t
  | setAll types =>
    exact blind_change fun s names ↦
      s.foldl_declaring names (fun s p ↦ s.set_declaring names p.1 p.2) types
  | setConstant w m name t =>
    exact blind_change fun s names ↦ s.setConstant_declaring names w m name t
  | defineModule owner name isClass superclass =>
    intro f names
    refine Prod.ext rfl ?_
    exact congrArg (Flow.mk _ · _) (f.scope.setConstant_declaring names _ owner name _)
  | terminate => exact blind_change fun s names ↦ s.terminate_declaring names
  | jump _ _ jump _ _ t => exact blind_change fun s names ↦ s.jump_declaring names jump.label t
  | mergeJumps =>
    have hworld : Blind Eval.world := fun f names ↦ rfl
    exact hworld.bind fun w ↦ blind_change fun s names ↦ s.mergeJumps_declaring names w
  | branches _ _ hbodies =>
    have hworld : Blind Eval.world := fun f names ↦ rfl
    refine (Blind.mapM fun body hbody ↦ (hbodies body hbody).inFrame {} []).bind fun runs ↦ ?_
    refine hworld.bind fun w ↦ (blind_change fun s names ↦ ?_).bind fun _ f names ↦ rfl
    exact s.joinBranches_declaring names w _
  | nested frame declared _ _ hbody =>
    refine (hbody.inFrame frame declared).bind fun r ↦ ?_
    exact (blind_change fun s names ↦ s.update_declaring names _).bind fun _ f names ↦ rfl

end Eval

namespace Eval

variable {α : Type} {task : Task} {V : Node → Prop} {H : Halt → Prop}
  {own : List String} {merging : Bool}

abbrev StopsWithin (task : Task) (V : Node → Prop) (m : Eval α) : Prop :=
  HaltsWithin (Halt.ComesFrom task V) m

theorem Composed.stopsWithin {m : Eval α} (h : Composed task V own merging m) :
    StopsWithin task V m :=
  Steps.haltsWithin h

def finish (task : Task) (n : Node) (t : Ty) : Eval Ty := do
  if task.probe = some n.index then
    modify fun flow => { flow with probed := some t }
  stopAt task n.index t
  return t

theorem evaluate_succ (depth : Nat) (n : Node) :
    evaluate task (depth + 1) n = evaluateKind task (evaluate task depth) n >>= finish task n :=
  rfl

theorem stopsWithin_finish {n : Node} (h : n.index ≠ task.target) (t : Ty) :
    StopsWithin task V (finish task n t) := by
  have hstop : StopsWithin task V (do
      stopAt task n.index t
      return t) := by
    rw [stopAt, if_neg h.symm]
    exact ensures_pure trivial
  rw [finish]
  split
  · exact (ensures_modify fun _ _ ↦ trivial).bind fun _ _ ↦ hstop
  · exact hstop

end Eval

namespace Node

def Within (items : List Node) (c : Node) : Prop := ∃ n ∈ items, c ∈ n.preorder

theorem descends_within (items : List Node) : Descends (Within items) := by
  rintro n ⟨item, hitem, hn⟩ c hc
  exact ⟨item, hitem, descends_preorder item n hn c hc⟩

/-- A list of statements as the root of a program, as it stands or with a program node around it.
The target lies in none of the later statements, and it is not the list itself. -/
inductive Lists (target : Nat) (first later : List Node) : Bool → Node → Prop
  | bare {list : Node} (hkind : list.kind = .statements (first ++ later))
      (hindex : list.index ≠ target) (hlater : ∀ c, Within later c → c.index ≠ target) :
      Lists target first later false list
  | program {root list : Node} (hkind : root.kind = .program list) (hindex : root.index ≠ target)
      (hlist : Lists target first later false list) :
      Lists target first later true root

theorem Lists.index_ne {target : Nat} {first later : List Node} {wrapped : Bool} {root : Node}
    (h : Lists target first later wrapped root) : ∀ c, Within later c → c.index ≠ target := by
  induction h with
  | bare _ _ hlater => exact hlater
  | program _ _ _ ih => exact ih

end Node

namespace Eval

variable {task : Task} {first later : List Node}

theorem evaluateKind_program {ev : Node → Eval Ty} {root list : Node}
    (hkind : root.kind = .program list) : evaluateKind task ev root = ev list := by
  rw [evaluateKind, hkind]

theorem evaluate_statements {list : Node} (h : Node.Lists task.target first later false list)
    (depth : Nat) :
    ∃ k : Ty → Eval Ty,
      evaluate task (depth + 1) list = sequence (evaluate task depth) first >>= k ∧
        ∀ t, StopsWithin task (Node.Within later) (k t) := by
  cases h with
  | bare hkind hindex _ =>
    have hlist : evaluateKind task (evaluate task depth) list =
        sequence (evaluate task depth) (first ++ later) := by
      rw [evaluateKind, hkind]
    refine ⟨fun t ↦ later.foldlM (fun _ n ↦ evaluate task depth n) t >>= finish task list, ?_, ?_⟩
    · rw [evaluate_succ, hlist, sequence, List.foldlM_append, bind_assoc]
      rfl
    · intro t
      have hlater : Composed task (Node.Within later) [] false
          (later.foldlM (fun _ n ↦ evaluate task depth n) t) :=
        .foldlM (fun n hn _ ↦ composed_evaluate (Node.descends_within later) depth n
          ⟨n, hn, n.mem_preorder_self⟩ [] false) t
      exact hlater.stopsWithin.bind fun t _ ↦ stopsWithin_finish hindex t

theorem evaluate_program {wrapped : Bool} {root : Node}
    (h : Node.Lists task.target first later wrapped root) (depth : Nat) :
    ∃ k : Ty → Eval Ty,
      evaluate task (depth + 1 + wrapped.toNat) root = sequence (evaluate task depth) first >>= k ∧
        ∀ t, StopsWithin task (Node.Within later) (k t) := by
  cases h with
  | bare hkind hindex hlater => exact evaluate_statements (.bare hkind hindex hlater) depth
  | @program _ list hkind hindex hlist =>
    obtain ⟨k, heq, hk⟩ := evaluate_statements hlist depth
    refine ⟨fun t ↦ k t >>= finish task root, ?_, fun t ↦ ?_⟩
    · rw [Bool.toNat_true, evaluate_succ, evaluateKind_program hkind, heq, bind_assoc]
    · exact (hk t).bind fun t _ ↦ stopsWithin_finish hindex t

end Eval

theorem Scope.get?_snapshot {s : Scope} {w : World} {name : String}
    (h : name ∈ (s.snapshot w).variableNames) : (s.snapshot w).get? name = s.get? w name :=
  (Table.get?_filterMap (s.get? w) _ name).trans (if_pos h)

/-- The same is known at the target, but for the list of locals. -/
structure Found.Agrees (a b : Found) : Prop where
  type : a.type = b.type
  probed : a.probed = b.probed
  world : a.world = b.world
  selfType : a.scope.selfType = b.scope.selfType
  nesting : a.scope.nesting = b.scope.nesting
  ivars : a.scope.ivars = b.scope.ivars
  cvars : a.scope.cvars = b.scope.cvars
  gvars : a.scope.gvars = b.scope.gvars
  constants : a.scope.constants = b.scope.constants
  types : ∀ name ∈ a.scope.variableNames, name ∈ b.scope.variableNames →
    a.scope.get? name = b.scope.get? name

inductive SameOutcome : Except DepthError (Option Found) → Except DepthError (Option Found) → Prop
  | found {a b : Found} (h : a.Agrees b) : SameOutcome (.ok (some a)) (.ok (some b))
  | tooDeep (e : DepthError) : SameOutcome (.error e) (.error e)

/-- The target is not found: evaluation gets to the end, or one of these statements nests too
deep. -/
def Unreached (task : Task) (items : List Node)
    (outcome : Except DepthError (Option Found)) : Prop :=
  outcome = .ok none ∨ ∃ c, Node.Within items c ∧ outcome = .error ⟨task.maxDepth, c.span⟩

def Task.outcome (task : Task) : Except Halt Ty × Flow → Except DepthError (Option Found)
  | (.ok _, _) => .ok none
  | (.error (.found type), f) => .ok (some ⟨type, f.scope.snapshot f.world, f.probed, f.world⟩)
  | (.error (.tooDeep span), _) => .error ⟨task.maxDepth, span⟩

variable {task : Task} {w : World} {binding : Binding}

theorem findTarget_eq (root : Node) :
    findTarget task w binding root =
      task.outcome ((Eval.evaluate task task.maxDepth root).run.run (.start w binding root)) := by
  rw [findTarget, Flow.start]
  generalize (Eval.evaluate task task.maxDepth root).run.run _ = run
  obtain ⟨(_ | _) | _, _⟩ := run <;> rfl

def Flow.bare (w : World) (binding : Binding) : Flow where
  world := w
  scope := Scope.enter ⟨{ binding }, []⟩ {} Eval.allLabels

theorem sameOutcome_declaring (e : Halt) (f : Flow) (names names' : List String) :
    SameOutcome (task.outcome (.error e, f.declaring names))
      (task.outcome (.error e, f.declaring names')) := by
  cases e with
  | tooDeep span => exact .tooDeep _
  | found t =>
    refine .found ⟨rfl, rfl, rfl, rfl, rfl, ?_, rfl, rfl, rfl, fun name hname hname' ↦ ?_⟩
    · exact (f.scope.ivars_declaring names f.world).trans
        (f.scope.ivars_declaring names' f.world).symm
    · refine (Scope.get?_snapshot hname).trans (.trans ?_ (Scope.get?_snapshot hname').symm)
      exact (f.scope.get?_declaring names f.world name).trans
        (f.scope.get?_declaring names' f.world name).symm

section outcomes

variable {first later : List Node} {wrapped : Bool} {root : Node} {depth : Nat}

theorem run_first (root : Node) :
    (Eval.sequence (Eval.evaluate task depth) first).run.run (.start w binding root) =
      ((Eval.sequence (Eval.evaluate task depth) first).run.run (.bare w binding)).map id
        (·.declaring root.declaredLocals) := by
  have hfollows : Eval.Composed.Follows task (fun _ ↦ True) (Eval.evaluate task depth) :=
    Eval.composed_evaluate (fun _ _ _ _ ↦ trivial) depth
  have hfirst : Eval.Composed task (fun _ ↦ True) [] false
      (Eval.sequence (Eval.evaluate task depth) first) :=
    .sequence hfollows fun _ _ ↦ trivial
  exact hfirst.blind (.bare w binding) root.declaredLocals

variable (h : Node.Lists task.target first later wrapped root)
  (hdepth : task.maxDepth = depth + 1 + wrapped.toNat)

include h hdepth

theorem findTarget_of_stops {e : Halt} {g : Flow}
    (hstops : Eval.Stops (Eval.sequence (Eval.evaluate task depth) first) (.bare w binding) e g) :
    findTarget task w binding root = task.outcome (.error e, g.declaring root.declaredLocals) := by
  obtain ⟨k, heq, -⟩ := Eval.evaluate_program h depth
  have hfirst : Eval.Stops (Eval.sequence (Eval.evaluate task depth) first) (.start w binding root)
      e (g.declaring root.declaredLocals) := by
    rw [Eval.Stops, run_first, hstops]
    rfl
  have hroot : Eval.Stops (Eval.evaluate task task.maxDepth root) (.start w binding root)
      e (g.declaring root.declaredLocals) := by
    rw [hdepth, heq]
    exact Eval.stops_bind.mpr (.inl hfirst)
  rw [findTarget_eq, hroot]

theorem unreached_of_gives {t : Ty} {g : Flow}
    (hgives : Eval.Gives (Eval.sequence (Eval.evaluate task depth) first) (.bare w binding) t g) :
    Unreached task later (findTarget task w binding root) := by
  obtain ⟨k, heq, hk⟩ := Eval.evaluate_program h depth
  have hroot : (Eval.evaluate task task.maxDepth root).run.run (.start w binding root) =
      (k t).run.run (g.declaring root.declaredLocals) := by
    rw [hdepth, heq, Eval.run_bind, run_first, hgives]
    rfl
  rw [findTarget_eq, hroot]
  rcases hrun : (k t).run.run (g.declaring root.declaredLocals) with ⟨e | a, g'⟩
  · obtain ⟨-, hfrom⟩ := (hk t).stops trivial hrun
    cases e with
    | found u =>
      obtain ⟨c, hc, hindex⟩ := hfrom
      exact absurd hindex (h.index_ne c hc)
    | tooDeep span =>
      obtain ⟨c, hc, rfl⟩ := hfrom
      exact .inr ⟨c, hc, rfl⟩
  · exact .inl rfl

end outcomes

theorem findTarget_of_shallow {first later : List Node} {wrapped : Bool} {root : Node}
    (h : Node.Lists task.target first later wrapped root) (hdepth : task.maxDepth ≤ wrapped.toNat) :
    ∃ span, findTarget task w binding root = .error ⟨task.maxDepth, span⟩ := by
  have hstops : ∃ span, Eval.Stops (Eval.evaluate task task.maxDepth root) (.start w binding root)
      (.tooDeep span) (.start w binding root) := by
    cases h with
    | bare =>
      rw [Nat.le_zero.mp hdepth]
      exact ⟨root.span, rfl⟩
    | @program _ list hkind _ _ =>
      rcases Nat.le_one_iff_eq_zero_or_eq_one.mp hdepth with hdepth | hdepth <;> rw [hdepth]
      · exact ⟨root.span, rfl⟩
      · refine ⟨list.span, ?_⟩
        rw [Eval.evaluate_succ, Eval.evaluateKind_program hkind]
        exact Eval.stops_bind.mpr (.inl rfl)
  obtain ⟨span, hroot⟩ := hstops
  refine ⟨span, ?_⟩
  rw [findTarget_eq, hroot]
  rfl

/-- Statements after those with the target make no difference to the answer: if the first
statements settle it, nothing but the list of locals depends on what comes after them, and otherwise
the target is not found whatever comes after them. -/
theorem findTarget_ignores_later_statements {task : Task} {w : World} {binding : Binding}
    {first later later' : List Node} {wrapped : Bool} {root root' alone : Node}
    (hroot : Node.Lists task.target first later wrapped root)
    (hroot' : Node.Lists task.target first later' wrapped root')
    (halone : Node.Lists task.target first [] wrapped alone) :
    (task.maxDepth ≤ wrapped.toNat →
      ∃ span span', findTarget task w binding root = .error ⟨task.maxDepth, span⟩ ∧
        findTarget task w binding root' = .error ⟨task.maxDepth, span'⟩) ∧
    (wrapped.toNat < task.maxDepth → findTarget task w binding alone ≠ .ok none →
      SameOutcome (findTarget task w binding root) (findTarget task w binding root')) ∧
    (findTarget task w binding alone = .ok none →
      Unreached task later (findTarget task w binding root) ∧
        Unreached task later' (findTarget task w binding root')) := by
  rcases Nat.lt_or_ge wrapped.toNat task.maxDepth with hlt | hge
  · obtain ⟨depth, hdepth⟩ : ∃ depth, task.maxDepth = depth + 1 + wrapped.toNat :=
      ⟨task.maxDepth - 1 - wrapped.toNat, by omega⟩
    refine ⟨fun hge ↦ absurd hlt (Nat.not_lt.mpr hge), ?_⟩
    rcases hfirst : (Eval.sequence (Eval.evaluate task depth) first).run.run (.bare w binding) with
      ⟨e | t, g⟩
    · refine ⟨fun _ _ ↦ ?_, fun hnone ↦ ?_⟩
      · rw [findTarget_of_stops hroot hdepth hfirst, findTarget_of_stops hroot' hdepth hfirst]
        exact sameOutcome_declaring e g _ _
      · rw [findTarget_of_stops halone hdepth hfirst] at hnone
        cases e <;> cases hnone
    · refine ⟨fun _ hsettled ↦ ?_, fun _ ↦ ?_⟩
      · rcases unreached_of_gives halone hdepth hfirst with hnone | ⟨c, ⟨n, hn, -⟩, -⟩
        · exact absurd hnone hsettled
        · cases hn
      · exact ⟨unreached_of_gives hroot hdepth hfirst, unreached_of_gives hroot' hdepth hfirst⟩
  · obtain ⟨span, hspan⟩ := findTarget_of_shallow hroot hge
    obtain ⟨span', hspan'⟩ := findTarget_of_shallow hroot' hge
    refine ⟨fun _ ↦ ⟨span, span', hspan, hspan'⟩, fun hlt ↦ absurd hlt (Nat.not_lt.mpr hge), ?_⟩
    intro hnone
    obtain ⟨_, hspan⟩ := findTarget_of_shallow halone hge
    cases hnone.symm.trans hspan

def topLevel (items : List Node) : Node := .mk {} 0 (.statements items)

theorem lists_topLevel {target : Nat} {first later : List Node} (htarget : 0 ≠ target)
    (hlater : ∀ n ∈ later, ∀ c ∈ n.preorder, c.index ≠ target) :
    Node.Lists target first later false (topLevel (first ++ later)) :=
  .bare rfl htarget fun c ⟨n, hn, hc⟩ ↦ hlater n hn c hc

def readStatements : List Node :=
  [.mk {} 1 (.varWrite .lvar "a" (.mk {} 2 (.integer 1))), .mk {} 3 (.varRead .lvar "a")]

def writeStatement (name : String) : Node := .mk {} 4 (.varWrite .lvar name (.mk {} 5 .nil))

def readTask : Task := { target := 3, maxDepth := 3 }

theorem exists_found (outcome : Except DepthError (Option Found)) (locals : List String)
    (h : outcome.toOption.join.map (·.scope.locals) = some locals) :
    ∃ found, outcome = .ok (some found) ∧ found.scope.locals = locals := by
  obtain ⟨found, hfound, hlocals⟩ := Option.map_eq_some_iff.mp h
  refine ⟨found, ?_, hlocals⟩
  cases outcome with
  | error e => cases hfound
  | ok result => exact congrArg Except.ok hfound

/-- `a = 1; a` and then another local is written. -/
theorem findTarget_ignores_later_statements_write :
    ∃ found found' : Found,
      findTarget readTask {} { receiver := .ofModule .object }
          (topLevel (readStatements ++ [writeStatement "b"])) = .ok (some found) ∧
        findTarget readTask {} { receiver := .ofModule .object }
          (topLevel (readStatements ++ [writeStatement "c"])) = .ok (some found') ∧
        found.scope.locals = ["a", "b"] ∧ found'.scope.locals = ["a", "c"] ∧
        found.Agrees found' := by
  have hroot : Node.Lists readTask.target readStatements [writeStatement "b"] false _ :=
    lists_topLevel (by decide) (by decide +kernel)
  have hroot' : Node.Lists readTask.target readStatements [writeStatement "c"] false _ :=
    lists_topLevel (by decide) (by decide +kernel)
  have halone : Node.Lists readTask.target readStatements [] false _ :=
    lists_topLevel (by decide) (by decide)
  obtain ⟨found, hfound, hlocals⟩ := exists_found
    (findTarget readTask {} { receiver := .ofModule .object }
      (topLevel (readStatements ++ [writeStatement "b"]))) ["a", "b"] (by decide +kernel)
  obtain ⟨found', hfound', hlocals'⟩ := exists_found
    (findTarget readTask {} { receiver := .ofModule .object }
      (topLevel (readStatements ++ [writeStatement "c"]))) ["a", "c"] (by decide +kernel)
  obtain ⟨_, hsettled, -⟩ := exists_found
    (findTarget readTask {} { receiver := .ofModule .object } (topLevel (readStatements ++ [])))
    ["a"] (by decide +kernel)
  have hsame := (findTarget_ignores_later_statements hroot hroot' halone).2.1 (by decide)
    (by rw [hsettled]; exact nofun)
  rw [hfound, hfound'] at hsame
  cases hsame with
  | found hagrees => exact ⟨found, found', hfound, hfound', hlocals, hlocals', hagrees⟩

/-- `f(1)`, whose arguments have the number 3. -/
def callStatement : Node :=
  .mk ⟨0, 4⟩ 2 (.call none none "f"
    (some (.mk ⟨2, 3⟩ 3 (.arguments [.mk ⟨2, 3⟩ 4 (.integer 1)]))) none true)

/-- `((nil))` -/
def nestedStatement : Node :=
  .mk ⟨5, 12⟩ 5 (.parentheses (some (.mk ⟨6, 11⟩ 6 (.statements [
    .mk ⟨6, 11⟩ 7 (.parentheses (some (.mk ⟨7, 10⟩ 8 (.statements [.mk ⟨7, 10⟩ 9 .nil]))))]))))

def programOf (span : Span) (items : List Node) : Node :=
  .mk span 0 (.program (.mk span 1 (.statements items)))

/-- Arguments have types one by one but none together. A target there is never come upon, and then
a later statement may nest too deep. -/
theorem later_statement_stops_evaluation :
    (∃ c ∈ callStatement.preorder, c.index = 3) ∧ (∀ c ∈ nestedStatement.preorder, c.index ≠ 3) ∧
      findTarget { target := 3, maxDepth := 5 } {} { receiver := .ofModule .object }
        (programOf ⟨0, 4⟩ [callStatement]) = .ok none ∧
      findTarget { target := 3, maxDepth := 5 } {} { receiver := .ofModule .object }
        (programOf ⟨0, 12⟩ [callStatement, nestedStatement]) = .error ⟨5, ⟨7, 10⟩⟩ := by
  refine ⟨by decide +kernel, by decide +kernel, rfl, rfl⟩

end FlowCompletion
