import FlowCompletion.Proofs.Flow.Unwritten
import FlowCompletion.Proofs.Scope.WriteBack

namespace FlowCompletion

namespace Scope

variable {w : World} {s : Scope}

theorem mem_kindsOf_mergeJumps (hne : s.frames ≠ []) (hopen : s.isTerminated = false) {key : Key}
    {k : MemberKind} (hk : k ∈ kindsOf (s.lookup w key)) :
    k ∈ kindsOf ((s.mergeJumps w).lookup w key) := by
  obtain ⟨root, _ | ⟨f, outer⟩⟩ := s
  · exact absurd rfl hne
  rw [mergeJumps_of_not_terminated hopen]
  refine mem_kindsOf_merge_of_missing (List.cons_ne_nil _ _)
    (List.mem_append_right _ List.mem_cons_self) rfl ?_
  exact hk

/-- Beside an empty branch nothing is lost, neither what was known before nor what is known at the
end of the other branch, if control gets there. -/
theorem Forks.mem_kindsOf_passing {body joined : Scope}
    (h : Forks w s body (body.outer.enter {} []) joined) (hs : s.Valid) (hne : s.frames ≠ [])
    {key : Key} {k : MemberKind} (hk : k ∈ kindsOf (s.lookup w key) ∨
      body.isTerminated = false ∧ k ∈ kindsOf (body.lookup w key)) :
    k ∈ kindsOf (joined.lookup w key) := by
  have hpassed : (body.outer.enter {} []).isTerminated = false := rfl
  refine (h.mem_kindsOf hs hne ⟨_, by simp, hpassed⟩).mpr ?_
  rcases hk with hk | ⟨hopen, hk⟩
  · refine ⟨_, by simp, hpassed, ?_⟩
    rw [(h.branchEnd hs _ (by simp)).lookup]
    exact hk
  · exact ⟨body, by simp, hopen, hk⟩

end Scope

namespace Eval

open Scope

variable {f g : Flow}

theorem Steady.conditional {α : Type} {body : Eval α} (hbody : Steady body) :
    Steady (conditional body) := by
  have hbranches : Steady (branches [some <$> body, pure none]) :=
    steady_branches (by simpa using ⟨hbody.map some, obeys_pure none⟩)
  exact hbranches.bind fun _ ↦ obeys_pure _

theorem gives_mergeJumps {u : Unit} :
    Gives mergeJumps f u g ↔ g = { f with scope := f.scope.mergeJumps f.world } := by
  simp only [mergeJumps, gives_bind, gives_world, gives_change]
  constructor
  · rintro ⟨_, _, ⟨rfl, rfl⟩, rfl⟩
    rfl
  · intro h
    exact ⟨_, _, ⟨rfl, rfl⟩, h⟩

theorem Gives.loopBody {ev : Node → Eval Ty} {body : Option Node} {breaks : Option Ty}
    (hgives : Gives (loopBody ev body) f breaks g) :
    ∃ h, (∀ n ∈ body, ∃ r, Gives (Eval.conditional (ev n)) f r h) ∧ (body = none → h = f) ∧
      g = { h with scope := h.scope.mergeJumps h.world } := by
  have hrest {h : Flow} (hgives : Gives (do
      mergeJumps
      return (← scope).get? (← world) Label.toBreak) h breaks g) :
      g = { h with scope := h.scope.mergeJumps h.world } := by
    simp only [gives_bind, gives_mergeJumps, gives_scope, gives_world, gives_pure] at hgives
    obtain ⟨_, _, rfl, _, _, ⟨-, rfl⟩, _, _, ⟨-, rfl⟩, -, rfl⟩ := hgives
    rfl
  cases body with
  | none =>
    refine ⟨f, by simp, fun _ ↦ rfl, hrest ?_⟩
    simpa only [Eval.loopBody, pure_bind] using hgives
  | some n =>
    obtain ⟨r, h, hbody, hgives⟩ := gives_bind.mp hgives
    refine ⟨h, ?_, by simp, hrest hgives⟩
    intro c hc
    obtain rfl := Option.some.inj hc
    exact ⟨r, hbody⟩

theorem Gives.mem_kindsOf_loopBody {ev : Node → Eval Ty} {body : Option Node} {breaks : Option Ty}
    (hgives : Gives (Eval.loopBody ev body) f breaks g) (hev : ∀ n, Steady (ev n))
    (hvalid : f.scope.Valid) (hne : f.scope.frames ≠ []) (hopen : f.scope.isTerminated = false) :
    g.scope.isTerminated = false ∧
      (∀ key, ∀ k ∈ kindsOf (f.scope.lookup g.world key),
        k ∈ kindsOf (g.scope.lookup g.world key)) ∧
      ∀ n ∈ body, ∃ t stop, Gives (ev n) { f with scope := f.scope.enter {} [] } t stop ∧
        stop.world = g.world ∧ (stop.scope.isTerminated = false →
          ∀ key, ∀ k ∈ kindsOf (stop.scope.lookup stop.world key),
            k ∈ kindsOf (g.scope.lookup g.world key)) := by
  obtain ⟨h, hbody, hnone, rfl⟩ := hgives.loopBody
  rw [isTerminated_mergeJumps]
  cases body with
  | none =>
    obtain rfl := hnone rfl
    refine ⟨hopen, fun key k hk ↦ mem_kindsOf_mergeJumps hne hopen hk, ?_⟩
    intro n hn
    cases hn
  | some n =>
    obtain ⟨_, hpassed⟩ := hbody n rfl
    obtain ⟨t, stop, hrun, hforks, hworld⟩ := hpassed.forks_passing (hev n)
    have hjoined : h.scope.isTerminated = false :=
      (hforks.isTerminated_of_open hvalid ⟨_, List.mem_cons_of_mem _ List.mem_cons_self, rfl⟩).trans
        hopen
    have hframes : h.scope.frames ≠ [] := ((hev n).conditional hpassed).frames_ne_nil hne
    have hkept {key : Key} {k : MemberKind} (hk : k ∈ kindsOf (f.scope.lookup h.world key) ∨
        stop.scope.isTerminated = false ∧ k ∈ kindsOf (stop.scope.lookup h.world key)) :
        k ∈ kindsOf (h.scope.lookup h.world key) := by
      rw [hworld] at hk ⊢
      exact hforks.mem_kindsOf_passing hvalid hne hk
    refine ⟨hjoined, fun key k hk ↦ mem_kindsOf_mergeJumps hframes hjoined (hkept (.inl hk)), ?_⟩
    intro c hc
    obtain rfl := Option.some.inj hc
    refine ⟨t, stop, hrun, hworld.symm, fun hend key k hk ↦ ?_⟩
    exact mem_kindsOf_mergeJumps hframes hjoined (hkept (.inr ⟨hend, hworld ▸ hk⟩))

theorem ownable_loopLabels : ∀ d ∈ loopLabels, Ownable d.1 := by
  intro d hd
  obtain ⟨jump, hjump⟩ := Steps.labels_loopLabels d hd
  have hlabel : NameKind.ofName d.1 = .label := hjump ▸ ofName_label jump
  exact ownable_of_kind hlabel (by decide)

theorem not_confines_loopLabels {x : String} (hx : NameKind.ofName x ≠ .label) :
    ¬Frame.Confines {} loopLabels x := by
  rintro (hlabel | ⟨-, htraces⟩ | ⟨-, htraces⟩)
  · obtain ⟨d, hd, rfl⟩ := List.mem_map.mp hlabel
    obtain ⟨jump, hjump⟩ := Steps.labels_loopLabels d hd
    exact hx (hjump ▸ ofName_label jump)
  · cases htraces
  · cases htraces

/-- After a loop a variable may be all that it is once the predicate has been evaluated, and all
that it is at the end of the body if control gets there. -/
theorem loop_runs_zero_or_more {task : Task} {depth : Nat} {n predicate : Node} {body : Option Node}
    {t : Ty} (hkind : n.kind = .whileLoop predicate body ∨ n.kind = .untilLoop predicate body)
    (hvalid : f.scope.Valid) (hne : f.scope.frames ≠ [])
    (hgives : Gives (evaluate task depth n) f t g) :
    ∃ d u mid, depth = d + 1 ∧
      Gives (evaluate task d predicate) { f with scope := f.scope.enter {} loopLabels } u mid ∧
      (mid.scope.isTerminated = false →
        (∀ x, NameKind.ofName x ≠ .label →
          (∀ k ∈ kindsOf (mid.scope.get? g.world x), k ∈ kindsOf (g.scope.get? g.world x)) ∧
          ((NameKind.ofName x = .cvar →
              f.world.Ends f.world.modules.size (f.scope.root.classVariableOwner f.world)) →
            mid.scope.get? g.world x = mid.scope.get? mid.world x)) ∧
        ∀ c ∈ body, ∃ v stop,
          Gives (evaluate task d c) { mid with scope := mid.scope.enter {} [] } v stop ∧
          stop.world = g.world ∧ (stop.scope.isTerminated = false →
            ∀ x, NameKind.ofName x ≠ .label → ∀ k ∈ kindsOf (stop.scope.get? stop.world x),
              k ∈ kindsOf (g.scope.get? g.world x))) := by
  obtain ⟨d, after, rfl, hend, hscope, hworld⟩ := hgives.evaluateKind
  have hloop : Gives (evaluateLoop (evaluate task d) predicate body) f t after := by
    rcases hkind with hkind | hkind <;> rwa [Eval.evaluateKind, hkind] at hend
  obtain ⟨_, _, hnested, hpure⟩ := gives_bind.mp hloop
  obtain ⟨-, rfl⟩ := gives_pure.mp hpure
  obtain ⟨last, hinside, -, rfl⟩ := gives_nested.mp hnested
  obtain ⟨u, mid, hpredicate, hbody⟩ := gives_bind.mp hinside
  refine ⟨d, u, mid, rfl, hpredicate, fun hopen ↦ ?_⟩
  have hcomposed : Composed task (fun _ ↦ True) [] true (Eval.loopBody (evaluate task d) body) :=
    .loopBody (follows_evaluate d) fun _ _ ↦ trivial
  have hentered : (f.scope.enter {} loopLabels).Evolves mid.scope := steady_evaluate d _ hpredicate
  have hevolves : (f.scope.enter {} loopLabels).Evolves last.scope :=
    hentered.trans (hcomposed.steady hbody)
  obtain ⟨hlast, hpassed, hran⟩ := hbody.mem_kindsOf_loopBody (steady_evaluate d)
    (hentered.valid (valid_enter hvalid _ _)) (hentered.frames_ne_nil (List.cons_ne_nil _ _)) hopen
  have hafter (x : String) (hx : NameKind.ofName x ≠ .label) (w : World) :
      g.scope.get? w x = last.scope.get? w x := by
    rw [hscope, hevolves.lookup_nested hvalid hne ownable_loopLabels hlast,
      if_neg (not_confines_loopLabels hx)]
  refine ⟨fun x hx ↦ ⟨?_, fun hclass ↦ ?_⟩, fun c hc ↦ ?_⟩
  · rw [hafter x hx, hworld]
    exact hpassed _
  · have hobeys : Obeys Flow.Grows (evaluate task d predicate) :=
      (follows_evaluate d predicate trivial [] false).grows
    have hgrows := hobeys hpredicate
    have hbefore : f.world.Grows mid.world := hgrows
    have hduring : mid.world.Grows last.world := hcomposed.grows hbody
    have hroot : mid.scope.root = f.scope.root := hentered.root
    rw [← hroot] at hclass
    rw [hworld]
    exact (lookup_of_grows (hbefore.trans hduring) mid.scope hclass).trans
      (lookup_of_grows hbefore mid.scope hclass).symm
  · obtain ⟨v, stop, hstop, hsame, hkept⟩ := hran c hc
    refine ⟨v, stop, hstop, hsame.trans hworld.symm, fun hend x hx ↦ ?_⟩
    rw [hafter x hx, hworld]
    exact hkept hend _

/-- `while b = nil` with a body that may break and otherwise has `a = 2` -/
def breakingLoop : Node :=
  .ofKind (.whileLoop (.ofKind (.varWrite .lvar "b" (.ofKind .nil))) (some (.ofKind (.statements
    [.ofKind (.ifThen (.ofKind .nil) (some (.ofKind (.jump .toBreak none))) none),
      .ofKind (.varWrite .lvar "a" (.ofKind (.integer 2)))]))))

def loopFlow : Flow := { world := {}, scope := .bare [("a", some .nil), ("b", some .symbol)] }

theorem loop_runs_zero_or_more_written :
    ∃ t g, loopFlow.scope.Valid ∧
      Gives (evaluate { target := 1, maxDepth := 4 } 4 breakingLoop) loopFlow t g ∧
      .instanceOf .nilClass ∈ kindsOf (g.scope.get? g.world "a") ∧
      .instanceOf .integer ∈ kindsOf (g.scope.get? g.world "a") ∧
      .instanceOf .nilClass ∈ kindsOf (g.scope.get? g.world "b") := by
  obtain ⟨t, g, hgives⟩ := exists_gives (f := loopFlow)
    (m := evaluate { target := 1, maxDepth := 4 } 4 breakingLoop) (by decide +kernel)
  have hvalid : loopFlow.scope.Valid := (reachable_bare _).valid
  obtain ⟨d, u, mid, hd, hpredicate, hpassed⟩ :=
    loop_runs_zero_or_more (.inl rfl) hvalid (List.cons_ne_nil _ _) hgives
  obtain rfl := Nat.succ.inj hd
  have hmid := hpredicate.eq_run
  have hg := hgives.eq_run
  obtain ⟨hzero, hmore⟩ := hpassed (by rw [hmid]; decide +kernel)
  obtain ⟨v, stop, hbody, -, hend⟩ := hmore _ rfl
  have hstop := hbody.eq_run
  rw [hmid] at hstop
  refine ⟨t, g, hvalid, hgives, (hzero "a" (by decide)).1 _ ?_,
    hend ?_ "a" (by decide) _ ?_, (hzero "b" (by decide)).1 _ ?_⟩
  · rw [hmid, hg]
    decide +kernel
  · rw [hstop]
    decide +kernel
  · rw [hstop]
    decide +kernel
  · rw [hmid, hg]
    decide +kernel

end Eval

end FlowCompletion
