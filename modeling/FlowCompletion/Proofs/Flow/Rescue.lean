import FlowCompletion.Proofs.Flow.Evolution
import FlowCompletion.Proofs.Scope.Branches

namespace FlowCompletion

def Flow.StaysOpen (f g : Flow) : Prop :=
  f.scope.isTerminated = false → g.scope.isTerminated = false

instance : IsPreorder Flow Flow.StaysOpen where
  refl _ h := h
  trans _ _ _ hfg hgh h := hgh (hfg h)

/-- There is nothing in a node but `b`, under so many layers. -/
inductive Node.Wraps (b : Node) : Nat → Node → Prop
  | self : Wraps b 0 b
  | statements {layers : Nat} {n whole : Node} (h : Wraps b layers n)
      (hkind : whole.kind = .statements [n]) : Wraps b (layers + 1) whole
  | parentheses {layers : Nat} {n whole : Node} (h : Wraps b layers n)
      (hkind : whole.kind = .parentheses (some n)) : Wraps b (layers + 1) whole
  | otherwise {layers : Nat} {n whole : Node} (h : Wraps b layers n)
      (hkind : whole.kind = .otherwise (some n)) : Wraps b (layers + 1) whole

def Node.HasArms (n predicate : Node) (yes no : Option Node) : Prop :=
  n.kind = .ifThen predicate yes no ∨ n.kind = .unlessThen predicate yes no

namespace Scope

/-- What comes, after a condition, of an arm that holds nothing but a `begin`. If control gets to
the end of the body, all that the clause writes is seen; if not, nothing of the arm is. -/
def ClauseCounts (v w : World) (mid handled other before after : Scope) : Prop :=
  (mid.isTerminated = false → ∀ name, handled.hasOwn name = true →
    ∀ k ∈ kindsOf (handled.get? v name), k ∈ kindsOf (after.get? w name)) ∧
  (mid.isTerminated = true →
    (other.isTerminated = false → ∀ name k,
      k ∈ kindsOf (after.get? w name) ↔ k ∈ kindsOf (other.get? w name)) ∧
    (other.isTerminated = true → after.isTerminated = true ∧
      ∀ name, after.get? w name = before.get? w name))

theorem Forks.clauseCounts {u v w : World}
    {before first second after mid handled empty e e' : Scope}
    (harms : Forks w before first second after) (hclause : Forks u mid handled empty e)
    (hends : ∀ x, x ∈ [first, second] ↔ x = e ∨ x = e') (hbefore : before.Valid)
    (hne : before.frames ≠ []) (hmid : mid.Valid) (hmidne : mid.frames ≠ [])
    (hopen : handled.isTerminated = false) :
    ClauseCounts v w mid handled e' before after := by
  have he : e ∈ [first, second] := (hends e).mpr (.inl rfl)
  have he' : e' ∈ [first, second] := (hends e').mpr (.inr rfl)
  have hterminated : e.isTerminated = mid.isTerminated :=
    hclause.isTerminated_of_open hmid ⟨handled, List.mem_cons_self, hopen⟩
  refine ⟨fun ht name hown k hk ↦ ?_, fun ht ↦ ⟨fun hother name k ↦ ?_, fun hother ↦ ?_⟩⟩
  · have hend : e.isTerminated = false := hterminated.trans ht
    refine (harms.mem_kindsOf hbefore hne ⟨e, he, hend⟩).mpr ⟨e, he, hend, ?_⟩
    exact hclause.mem_kindsOf_of_hasOwn hmid hmidne List.mem_cons_self hopen hown hk
  · refine (harms.mem_kindsOf hbefore hne ⟨e', he', hother⟩).trans ⟨?_, fun hk ↦ ?_⟩
    · rintro ⟨x, hx, hxopen, hk⟩
      rcases (hends x).mp hx with rfl | rfl
      · simp [hterminated, ht] at hxopen
      · exact hk
    · exact ⟨e', he', hother, hk⟩
  · have hclosed (x : Scope) (hx : x ∈ [first, second]) : x.isTerminated = true := by
      rcases (hends x).mp hx with rfl | rfl
      · exact hterminated.trans ht
      · exact hother
    obtain ⟨hafter, hlookup⟩ := harms.of_closed hbefore hne hclosed
    exact ⟨hafter, fun name ↦ hlookup w (.named name)⟩

end Scope

namespace Eval

open Scope

variable {α : Type} {task : Task} {V : Node → Prop} {H : Halt → Prop}
  {own : List String} {merging : Bool}

theorem staysOpen_change {op : Scope → Scope}
    (h : ∀ s : Scope, (op s).isTerminated = s.isTerminated) :
    Obeys Flow.StaysOpen (change op) :=
  obeys_change fun f hf ↦ (h f.scope).trans hf

theorem open_inFrame {body : Eval α} {frame : Frame} {declared : List (String × Option Ty)}
    (hbody : Obeys Flow.StaysOpen body) {f g : Flow} {r : α × Frame}
    (hgives : Gives (inFrame frame declared body) f r g) : r.2.terminated = false := by
  obtain ⟨h, hrun, hleft, -⟩ := gives_inFrame.mp hgives
  rw [hleft, terminated_leave]
  exact hbody hrun rfl

theorem open_mapM_inFrame {bodies : List (Eval α)}
    (hbodies : ∀ body ∈ bodies, Obeys Flow.StaysOpen body) {f g : Flow}
    {runs : List (α × Frame)} (hgives : Gives (bodies.mapM (inFrame {} [])) f runs g) :
    ∀ run ∈ runs, run.2.terminated = false := by
  have hruns := hgives.forall₂_mapM
  clear hgives
  induction hruns with
  | nil => exact List.forall_mem_nil _
  | cons hrun _ ih =>
    obtain ⟨hbody, hrest⟩ := List.forall_mem_cons.mp hbodies
    obtain ⟨_, _, hrun⟩ := hrun
    exact List.forall_mem_cons.mpr ⟨open_inFrame hbody hrun, ih hrest⟩

theorem staysOpen_branches {bodies : List (Eval α)} (hne : bodies ≠ [])
    (hbodies : ∀ body ∈ bodies, Obeys Flow.StaysOpen body)
    (hsteady : ∀ body ∈ bodies, Steady body) : Obeys Flow.StaysOpen (branches bodies) := by
  intro f a g hgives hf
  obtain ⟨runs, h, hruns, hscope⟩ := hgives.branches
  have hopen := open_mapM_inFrame hbodies hruns
  have hawaits := awaits_mapM_inFrame hsteady hruns
  have hlength := hruns.forall₂_mapM.length_eq
  have hall : (runs.map Prod.snd).filter (fun frame ↦ !frame.terminated) = runs.map Prod.snd := by
    refine List.filter_eq_self.mpr fun frame hframe ↦ ?_
    obtain ⟨run, hrun, rfl⟩ := List.mem_map.mp hframe
    simp [hopen run hrun]
  have hsome : (runs.map Prod.snd).map Frame.changes ≠ [] := by
    simpa [← List.length_eq_zero_iff, hlength] using hne
  rw [hscope, joinBranches, hall, if_neg (by simpa using hsome), isTerminated_merge]
  exact (isTerminated_of_awaits hawaits).trans hf

/-- Control is lost only by jumps and by calls that never return. -/
theorem Steps.staysOpen {m : Eval α} (h : Steps task V H own merging m)
    (hjumps : ∀ c, V c → ∀ jump value, c.kind ≠ .jump jump value)
    (hcalls : ∀ name, Callable V name → ¬ task.NeverReturns name) : Obeys Flow.StaysOpen m := by
  induction h with
  | pure a => exact obeys_pure a
  | bind _ _ hm hk => exact hm.bind hk
  | world => exact obeys_world
  | scope _ _ hk => exact obeys_scope.bind hk
  | found | tooDeep => exact obeys_throw _
  | probe t =>
    intro f _ g hgives hf
    rwa [gives_modify.mp hgives]
  | write _ _ name _ t => exact staysOpen_change fun s ↦ s.isTerminated_setKey _ _
  | setAll types =>
    refine staysOpen_change fun s ↦ ?_
    exact rel_foldl (R := fun s t ↦ t.isTerminated = s.isTerminated) (fun _ ↦ rfl)
      (fun hst htu ↦ htu.trans hst) (fun s d ↦ s.isTerminated_setKey _ _) types s
  | setConstant w m name t => exact staysOpen_change fun s ↦ s.isTerminated_setConstant w m name t
  | defineModule owner name isClass superclass =>
    intro f m g hgives hf
    rwa [hgives.defineModule.2, isTerminated_setConstant]
  | terminate name hname hnever => exact absurd hnever (hcalls name hname)
  | jump c hc jump value hkind t => exact absurd hkind (hjumps c hc jump value)
  | mergeJumps =>
    exact obeys_world.bind fun w ↦ staysOpen_change fun s ↦ s.isTerminated_mergeJumps w
  | branches hne hbodies ih =>
    exact staysOpen_branches hne ih fun body hbody ↦ (hbodies body hbody).steady
  | nested frame declared _ hbody _ =>
    intro f r g hgives hf
    obtain ⟨h, hrun, -, rfl⟩ := gives_nested.mp hgives
    have hawaits := Evolves.awaits_outer (hbody.steady hrun)
    exact (isTerminated_update _ _).trans ((isTerminated_of_awaits hawaits).trans hf)

theorem exists_neverReturns {depth : Nat} {body : Option Node} {f mid : Flow} {t : Ty}
    (hgives : Gives (optional (evaluate task depth) body) f t mid)
    (hf : f.scope.isTerminated = false)
    (hjumps : ∀ c ∈ body.elim [] Node.preorder, ∀ jump value, c.kind ≠ .jump jump value)
    (hmid : mid.scope.isTerminated = true) :
    ∃ name, Callable (· ∈ body.elim [] Node.preorder) name ∧ task.NeverReturns name := by
  by_contra hnone
  have hcalls (name : String) (hname : Callable (· ∈ body.elim [] Node.preorder) name) :
      ¬ task.NeverReturns name := fun hnever ↦ hnone ⟨name, hname, hnever⟩
  cases body with
  | none =>
    obtain ⟨-, rfl⟩ := gives_pure.mp hgives
    simp [hf] at hmid
  | some n =>
    have hcomposed : Composed task (· ∈ n.preorder) [] false (evaluate task depth n) :=
      composed_evaluate n.descends_preorder depth n n.mem_preorder_self [] false
    have hopen := hcomposed.staysOpen hjumps hcalls hgives hf
    simp [hopen] at hmid

/-- A body is followed from `f` to `mid`, and then a rescue clause, as a branch, to `handled`. -/
structure Rescued (task : Task) (depth : Nat) (body : Option Node) (rescue : Node)
    (f mid handled : Flow) : Prop where
  body : ∃ t, Gives (optional (evaluate task depth) body) f t mid
  clause : ∃ t, Gives (evaluate task depth rescue)
    { mid with scope := mid.scope.enter {} [] } t handled

variable {depth : Nat} {b rescue : Node} {body contrary : Option Node} {f g : Flow} {t : Ty}

theorem Gives.rescued (hkind : b.kind = .beginBlock body (some rescue) contrary none)
    (hgives : Gives (evaluate task (depth + 1) b) f t g) :
    ∃ mid handled other w, Rescued task depth body rescue f mid handled ∧
      Forks w mid.scope handled.scope other g.scope := by
  obtain ⟨_, h, hdepth, hgives, hscope, -⟩ := hgives.evaluateKind
  obtain rfl := Nat.succ.inj hdepth
  rw [hscope]
  simp only [Eval.evaluateKind, hkind, evaluateBegin] at hgives
  obtain ⟨_, mid, hbody, hgives⟩ := gives_bind.mp hgives
  have hend {r : Ty} {h' : Flow} (hgives : Gives (do
      let _ ← optional (evaluate task depth) none
      return r) h' t h) : h = h' := by
    obtain ⟨_, _, hnone, hpure⟩ := gives_bind.mp hgives
    obtain ⟨-, rfl⟩ := gives_pure.mp hpure
    exact (gives_pure.mp hnone).2
  cases contrary with
  | none =>
    obtain ⟨_, _, hclause, hgives⟩ := gives_bind.mp hgives
    obtain rfl := hend hgives
    obtain ⟨_, hclause, -⟩ := gives_map.mp hclause
    obtain ⟨_, handled, w, hrun, hforks⟩ :=
      hclause.forks_conditional (steady_evaluate depth rescue)
    exact ⟨mid, handled, _, w, ⟨⟨_, hbody⟩, ⟨_, hrun⟩⟩, hforks⟩
  | some otherwise =>
    obtain ⟨_, _, hclause, hgives⟩ := gives_bind.mp hgives
    obtain rfl := hend hgives
    obtain ⟨_, hclause, -⟩ := gives_map.mp hclause
    obtain ⟨_, handled, _, other, hrun, -, hforks, -⟩ :=
      hclause.forks (steady_evaluate depth rescue) (steady_evaluate depth otherwise)
    exact ⟨mid, handled, other.scope, other.world, ⟨⟨_, hbody⟩, ⟨_, hrun⟩⟩, hforks⟩

theorem Gives.wrapped {layers : Nat} {arm : Node} (h : b.Wraps layers arm)
    (hgives : Gives (evaluate task depth arm) f t g) :
    ∃ d t' g', depth = d + 1 + layers ∧ Gives (evaluate task (d + 1) b) f t' g' ∧
      g'.scope = g.scope := by
  induction h generalizing depth t g with
  | self =>
    obtain ⟨d, _, rfl, -⟩ := hgives.evaluateKind
    exact ⟨d, t, g, rfl, hgives, rfl⟩
  | statements _ hkind ih =>
    obtain ⟨d, h, rfl, hgives, hscope, -⟩ := hgives.evaluateKind
    simp only [Eval.evaluateKind, hkind, sequence, List.foldlM_cons, List.foldlM_nil,
      bind_pure] at hgives
    obtain ⟨d', t', g', rfl, hb, hsame⟩ := ih hgives
    exact ⟨d', t', g', rfl, hb, hsame.trans hscope.symm⟩
  | parentheses _ hkind ih | otherwise _ hkind ih =>
    obtain ⟨d, h, rfl, hgives, hscope, -⟩ := hgives.evaluateKind
    simp only [Eval.evaluateKind, hkind, optional, Option.elim_some] at hgives
    obtain ⟨d', t', g', rfl, hb, hsame⟩ := ih hgives
    exact ⟨d', t', g', rfl, hb, hsame.trans hscope.symm⟩

structure ArmEnds (task : Task) (depth : Nat) (predicate : Node) (yes no : Option Node)
    (f before first second : Flow) : Prop where
  predicate : ∃ t, Gives (evaluate task depth predicate) f t before
  yes : ∃ t, Gives (optional (evaluate task depth) yes)
    { before with scope := before.scope.enter {} [] } t first
  no : ∃ t, Gives (optional (evaluate task depth) no)
    { first with scope := first.scope.outer.enter {} [] } t second

theorem Gives.armEnds {n predicate : Node} {yes no : Option Node} (hn : n.HasArms predicate yes no)
    (hgives : Gives (evaluate task (depth + 1) n) f t g) :
    ∃ before first second, ArmEnds task depth predicate yes no f before first second ∧
      Forks g.world before.scope first.scope second.scope g.scope := by
  obtain ⟨_, h, hdepth, hgives, hscope, hworld⟩ := hgives.evaluateKind
  obtain rfl := Nat.succ.inj hdepth
  have harms : Gives (do
      let _ ← evaluate task depth predicate
      evaluateBranches (evaluate task depth) yes no) f t h := by
    rcases hn with hkind | hkind <;> simpa only [Eval.evaluateKind, hkind] using hgives
  obtain ⟨_, before, hpredicate, hgives⟩ := gives_bind.mp harms
  obtain ⟨_, _, hbranches, hpure⟩ := gives_bind.mp hgives
  obtain ⟨-, rfl⟩ := gives_pure.mp hpure
  have hsteady (n : Option Node) : Steady (optional (evaluate task depth) n) :=
    steady_optional (steady_evaluate depth) n
  obtain ⟨_, first, _, second, hyes, hno, hforks, hsecond⟩ :=
    hbranches.forks (hsteady yes) (hsteady no)
  rw [hscope, hworld, hsecond]
  exact ⟨before, first, second, ⟨⟨_, hpredicate⟩, ⟨_, hyes⟩, ⟨_, hno⟩⟩, hforks⟩

theorem Gives.clauseCounts {w : World} {before first second e' after : Scope} {start e : Flow}
    {layers : Nat} {arm : Node} (hkind : b.kind = .beginBlock body (some rescue) contrary none)
    (harm : b.Wraps layers arm) (hgives : Gives (evaluate task depth arm) start t e)
    (hstart : start.scope.Valid) (hstartne : start.scope.frames ≠ [])
    (harms : Forks w before first second after) (hbefore : before.Valid) (hne : before.frames ≠ [])
    (hends : ∀ x, x ∈ [first, second] ↔ x = e.scope ∨ x = e') :
    ∃ d mid handled, depth = d + 1 + layers ∧ Rescued task d body rescue start mid handled ∧
      (handled.scope.isTerminated = false →
        ClauseCounts handled.world w mid.scope handled.scope e' before after) := by
  obtain ⟨d, _, _, hdepth, hbegin, hscope⟩ := hgives.wrapped harm
  obtain ⟨mid, handled, other, u, hrescued, hforks⟩ := hbegin.rescued hkind
  obtain ⟨_, hbody⟩ := hrescued.body
  have hsteady : start.scope.Evolves mid.scope :=
    steady_optional (steady_evaluate d) body hbody
  rw [hscope] at hforks
  refine ⟨d, mid, handled, hdepth, hrescued, fun hopen ↦ ?_⟩
  exact harms.clauseCounts hforks hends hbefore hne (hsteady.valid hstart)
    (hsteady.frames_ne_nil hstartne) hopen

/-- After a `begin` with a rescue clause that control gets through, control is lost exactly if it is
at the end of the body; where the body holds no jump, that takes a call that never returns. Of an
arm that holds nothing but such a `begin`, a condition keeps what the clause writes, unless control
is lost at the end of the body: then it is as if the arm were not there. -/
theorem rescue_counts_unless_body_closed {task : Task} {b rescue : Node}
    {body contrary : Option Node} (hkind : b.kind = .beginBlock body (some rescue) contrary none)
    (depth : Nat) {f : Flow} (hf : f.scope.Valid) :
    (∀ t g, Gives (evaluate task (depth + 1) b) f t g →
      ∃ mid handled, Rescued task depth body rescue f mid handled ∧
        (handled.scope.isTerminated = false → g.scope.isTerminated = mid.scope.isTerminated) ∧
        (f.scope.isTerminated = false →
          (∀ c ∈ body.elim [] Node.preorder, ∀ jump value, c.kind ≠ .jump jump value) →
          mid.scope.isTerminated = true →
            ∃ name, Callable (· ∈ body.elim [] Node.preorder) name ∧ task.NeverReturns name)) ∧
    ∀ n predicate yes no t g, n.HasArms predicate yes no → f.scope.frames ≠ [] →
      Gives (evaluate task (depth + 1) n) f t g →
      ∃ before first second, ArmEnds task depth predicate yes no f before first second ∧
        (∀ layers, ∀ arm ∈ yes, b.Wraps layers arm → ∃ d mid handled, depth = d + 1 + layers ∧
          Rescued task d body rescue { before with scope := before.scope.enter {} [] } mid handled ∧
          (handled.scope.isTerminated = false → ClauseCounts handled.world g.world mid.scope
            handled.scope second.scope before.scope g.scope)) ∧
        ∀ layers, ∀ arm ∈ no, b.Wraps layers arm → ∃ d mid handled, depth = d + 1 + layers ∧
          Rescued task d body rescue { first with scope := first.scope.outer.enter {} [] } mid
            handled ∧
          (handled.scope.isTerminated = false → ClauseCounts handled.world g.world mid.scope
            handled.scope first.scope before.scope g.scope) := by
  refine ⟨fun t g hgives ↦ ?_, fun n predicate yes no t g hn hne hgives ↦ ?_⟩
  · obtain ⟨mid, handled, other, w, hrescued, hforks⟩ := hgives.rescued hkind
    obtain ⟨_, hbody⟩ := hrescued.body
    have hsteady : f.scope.Evolves mid.scope := steady_optional (steady_evaluate depth) body hbody
    refine ⟨mid, handled, hrescued, fun hopen ↦ ?_, exists_neverReturns hbody⟩
    exact hforks.isTerminated_of_open (hsteady.valid hf) ⟨_, List.mem_cons_self, hopen⟩
  · obtain ⟨before, first, second, hends, hforks⟩ := hgives.armEnds hn
    obtain ⟨_, hpredicate⟩ := hends.predicate
    have hsteady : f.scope.Evolves before.scope := steady_evaluate depth predicate hpredicate
    have hbefore := hsteady.valid hf
    have hbeforene := hsteady.frames_ne_nil hne
    refine ⟨before, first, second, hends, fun layers arm harm hwraps ↦ ?_,
      fun layers arm harm hwraps ↦ ?_⟩
    · obtain ⟨_, hyes⟩ := hends.yes
      obtain rfl := Option.mem_def.mp harm
      refine hyes.clauseCounts hkind hwraps (valid_enter hbefore {} []) (List.cons_ne_nil _ _)
        hforks hbefore hbeforene fun x ↦ ?_
      simp
    · obtain ⟨_, hno⟩ := hends.no
      obtain rfl := Option.mem_def.mp harm
      have houter : before.scope.Evolves first.scope.outer := hforks.evolves_first.outer
      refine hno.clauseCounts hkind hwraps (valid_enter (houter.valid hbefore) {} [])
        (List.cons_ne_nil _ _) hforks hbefore hbeforene fun x ↦ ?_
      simp [or_comm]

def failingTask : Task where
  database := some { classes := [("M", { name := "M", singletonMethods :=
    [("fail", { overloads := [{ function := { result := .bottom } }] })] })] }
  target := 1
  maxDepth := 5

def failingFlow : Flow where
  world := { modules := #[{ name := some "M" }] }
  scope := enter ⟨⟨{ receiver := .ofModule ⟨0⟩ }, []⟩, []⟩ {} [("a", some .integer)]

def failingBody : Node := .ofKind (.call none none "fail" none none false)

def stringClause : Node :=
  .ofKind (.rescue [] none (some (.ofKind (.varWrite .lvar "a" (.ofKind (.string "s" true))))) none)

/-- `begin fail; rescue; a = "s"; end` -/
def failingBegin : Node :=
  .ofKind (.beginBlock (some failingBody) (some stringClause) none none)

def failingCondition : Node :=
  .ofKind (.ifThen (.ofKind (.bool true)) (some failingBegin) none)

theorem rescue_counts_unless_body_closed_failing :
    ∃ t g start mid handled, failingFlow.scope.Valid ∧
      Gives (evaluate failingTask 5 failingCondition) failingFlow t g ∧
      Rescued failingTask 3 (some failingBody) stringClause start mid handled ∧
      handled.scope.isTerminated = false ∧
      .instanceOf .string ∈ kindsOf (handled.scope.get? handled.world "a") ∧
      .instanceOf .string ∉ kindsOf (g.scope.get? g.world "a") := by
  have hvalid : failingFlow.scope.Valid := valid_enter (s := ⟨_, []⟩) trivial {} _
  obtain ⟨t, g, hgives⟩ := exists_gives (f := failingFlow)
    (m := evaluate failingTask 5 failingCondition) (by decide +kernel)
  obtain ⟨before, first, second, hends, hyes, -⟩ :=
    (rescue_counts_unless_body_closed (b := failingBegin) rfl 4 hvalid).2 failingCondition _ _ _ t g
      (.inl rfl) (List.cons_ne_nil _ _) hgives
  obtain ⟨d, mid, handled, hdepth, hrescued, hcounts⟩ := hyes 0 _ rfl .self
  obtain rfl : d = 3 := by omega
  obtain ⟨_, hpredicate⟩ := hends.predicate
  obtain ⟨_, hfirst⟩ := hends.yes
  obtain ⟨_, hsecond⟩ := hends.no
  obtain ⟨_, hbody⟩ := hrescued.body
  obtain ⟨_, hclause⟩ := hrescued.clause
  obtain rfl := hpredicate.eq_run
  obtain rfl := hfirst.eq_run
  obtain rfl := hsecond.eq_run
  obtain rfl := hbody.eq_run
  obtain rfl := hclause.eq_run
  obtain rfl := hgives.eq_run
  refine ⟨t, _, _, _, _, hvalid, hgives, hrescued, by decide +kernel, by decide +kernel, ?_⟩
  rw [((hcounts (by decide +kernel)).2 (by decide +kernel)).1 (by decide +kernel)]
  decide +kernel

end Eval

end FlowCompletion
