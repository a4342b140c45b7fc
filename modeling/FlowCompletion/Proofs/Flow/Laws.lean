import FlowCompletion.Flow.Evaluation
import Mathlib.Data.List.Forall2
import Mathlib.Order.Defs.Unbundled

namespace FlowCompletion

namespace Eval

variable {α β : Type}

theorem run_bind (m : Eval α) (k : α → Eval β) (f : Flow) :
    (m >>= k).run.run f = match m.run.run f with
      | (.ok a, g) => (k a).run.run g
      | (.error e, g) => (.error e, g) := by
  change (ExceptT.bindCont k (m.run.run f).1).run (m.run.run f).2 = _
  obtain ⟨_ | a, g⟩ := m.run.run f <;> rfl

/-- The computation gives a result and leaves the state so. -/
def Gives (m : Eval α) (f : Flow) (a : α) (g : Flow) : Prop := m.run.run f = (.ok a, g)

section results

variable {f g h : Flow}

theorem Gives.eq_run {m : Eval α} {a : α} (h : m.Gives f a g) : g = (m.run.run f).2 :=
  (congrArg Prod.snd h).symm

theorem exists_gives {m : Eval α} (h : (m.run.run f).1.isOk = true) : ∃ a g, m.Gives f a g := by
  unfold Gives
  generalize m.run.run f = outcome at h
  obtain ⟨_ | a, g⟩ := outcome
  · cases h
  · exact ⟨a, g, rfl⟩

@[simp]
theorem gives_pure {a b : α} : Gives (pure a) f b g ↔ b = a ∧ g = f := by
  constructor
  · intro h
    cases h
    exact ⟨rfl, rfl⟩
  · rintro ⟨rfl, rfl⟩
    rfl

@[simp]
theorem gives_bind {m : Eval α} {k : α → Eval β} {b : β} :
    Gives (m >>= k) f b h ↔ ∃ a g, m.Gives f a g ∧ (k a).Gives g b h := by
  simp only [Gives, run_bind]
  obtain ⟨e | a, g⟩ := m.run.run f
  · constructor
    · intro h
      cases h
    · rintro ⟨a, g, heq, -⟩
      cases heq
  · constructor
    · exact fun h ↦ ⟨a, g, rfl, h⟩
    · rintro ⟨_, _, heq, h⟩
      cases heq
      exact h

@[simp]
theorem gives_map {m : Eval α} {k : α → β} {b : β} :
    Gives (k <$> m) f b g ↔ ∃ a, m.Gives f a g ∧ b = k a := by
  rw [map_eq_pure_bind, gives_bind]
  simp only [gives_pure]
  constructor
  · rintro ⟨a, g, hm, rfl, rfl⟩
    exact ⟨a, hm, rfl⟩
  · rintro ⟨a, hm, rfl⟩
    exact ⟨a, g, hm, rfl, rfl⟩

theorem Gives.forall₂_mapM {k : α → Eval β} {l : List α} {bs : List β}
    (hgives : Gives (l.mapM k) f bs g) :
    List.Forall₂ (fun a b ↦ ∃ f g, (k a).Gives f b g) l bs := by
  induction l generalizing f bs with
  | nil =>
    obtain ⟨rfl, -⟩ := gives_pure.mp hgives
    exact .nil
  | cons a l ih =>
    rw [List.mapM_cons] at hgives
    obtain ⟨b, _, hfirst, hgives⟩ := gives_bind.mp hgives
    obtain ⟨bs, _, hrest, hpure⟩ := gives_bind.mp hgives
    obtain ⟨rfl, rfl⟩ := gives_pure.mp hpure
    exact .cons ⟨_, _, hfirst⟩ (ih hrest)

theorem bind_congr_of_gives {m : Eval α} {k k' : α → Eval β}
    (h : ∀ f a g, m.Gives f a g → k a = k' a) : m >>= k = m >>= k' := by
  funext f
  change (m >>= k).run.run f = (m >>= k').run.run f
  rw [run_bind, run_bind]
  cases hrun : m.run.run f with
  | mk outcome g =>
    cases outcome with
    | error e => rfl
    | ok a =>
      dsimp only
      rw [h f a g hrun]

theorem not_gives_throw {e : Halt} {a : α} : ¬ Gives (throw e) f a g := by
  intro h
  cases h

@[simp]
theorem gives_modify {op : Flow → Flow} {u : Unit} : Gives (modify op) f u g ↔ g = op f := by
  constructor
  · intro h
    cases h
    rfl
  · rintro rfl
    rfl

@[simp]
theorem gives_change {op : Scope → Scope} {u : Unit} :
    Gives (change op) f u g ↔ g = { f with scope := op f.scope } :=
  gives_modify

@[simp]
theorem gives_world {w : World} : Gives world f w g ↔ w = f.world ∧ g = f := by
  constructor
  · intro h
    cases h
    exact ⟨rfl, rfl⟩
  · rintro ⟨rfl, rfl⟩
    rfl

@[simp]
theorem gives_scope {s : Scope} : Gives scope f s g ↔ s = f.scope ∧ g = f := by
  constructor
  · intro h
    cases h
    exact ⟨rfl, rfl⟩
  · rintro ⟨rfl, rfl⟩
    rfl

theorem gives_inFrame {frame : Frame} {declared : List (String × Option Ty)} {body : Eval α}
    {r : α × Frame} :
    Gives (inFrame frame declared body) f r g ↔
      ∃ h, body.Gives { f with scope := f.scope.enter frame declared } r.1 h ∧
        r.2 = h.scope.leave.1 ∧ g = { h with scope := h.scope.outer } := by
  simp only [inFrame, gives_bind, gives_change, gives_scope, gives_pure]
  constructor
  · rintro ⟨_, _, rfl, a, h, hbody, _, _, ⟨rfl, rfl⟩, _, _, rfl, rfl, rfl⟩
    exact ⟨_, hbody, rfl, rfl⟩
  · rintro ⟨h, hbody, hleft, rfl⟩
    exact ⟨(), _, rfl, r.1, h, hbody, _, h, ⟨rfl, rfl⟩, (), _, rfl, Prod.ext rfl hleft, rfl⟩

theorem gives_nested {frame : Frame} {declared : List (String × Option Ty)} {body : Eval α}
    {r : α × Frame} :
    Gives (nested frame declared body) f r g ↔
      ∃ h, body.Gives { f with scope := f.scope.enter frame declared } r.1 h ∧
        r.2 = h.scope.leave.1 ∧
          g = { h with scope := h.scope.outer.update h.scope.leave.1.changes } := by
  simp only [nested, gives_bind, gives_change, gives_inFrame, gives_pure]
  constructor
  · rintro ⟨⟨a, left⟩, _, ⟨h, hbody, rfl, rfl⟩, _, _, rfl, rfl, rfl⟩
    exact ⟨h, hbody, rfl, rfl⟩
  · rintro ⟨h, hbody, hleft, rfl⟩
    exact ⟨(r.1, h.scope.leave.1), _, ⟨h, hbody, rfl, rfl⟩, (), _, rfl, Prod.ext rfl hleft, rfl⟩

theorem Gives.branches {bodies : List (Eval α)} {rs : List α}
    (hgives : Gives (branches bodies) f rs g) :
    ∃ runs h, Gives (bodies.mapM (inFrame {} [])) f runs h ∧
      g.scope = h.scope.joinBranches h.world (runs.map Prod.snd) := by
  obtain ⟨runs, _, hruns, hgives⟩ := gives_bind.mp hgives
  obtain ⟨_, _, hworld, hgives⟩ := gives_bind.mp hgives
  obtain ⟨rfl, rfl⟩ := gives_world.mp hworld
  obtain ⟨_, _, hchange, hpure⟩ := gives_bind.mp hgives
  obtain ⟨-, rfl⟩ := gives_pure.mp hpure
  exact ⟨runs, _, hruns, congrArg Flow.scope (gives_change.mp hchange)⟩

theorem Gives.pair {first second : Eval α} {rs : List α}
    (hgives : Gives (Eval.branches [first, second]) f rs g) :
    ∃ a h b h', first.Gives { f with scope := f.scope.enter {} [] } a h ∧
      second.Gives { h with scope := h.scope.outer.enter {} [] } b h' ∧
      g = { h' with scope :=
        h'.scope.outer.joinBranches h'.world [h.scope.leave.1, h'.scope.leave.1] } := by
  simp only [Eval.branches, List.mapM_cons, List.mapM_nil, bind_assoc, pure_bind, gives_bind,
    gives_inFrame, gives_pure, gives_world, gives_change] at hgives
  obtain ⟨r, _, ⟨h, hfirst, hr, rfl⟩, r', _, ⟨h', hsecond, hr', rfl⟩, _, _, ⟨rfl, rfl⟩,
    _, _, rfl, -, rfl⟩ := hgives
  refine ⟨r.1, h, r'.1, h', hfirst, hsecond, ?_⟩
  simp only [List.map_cons, List.map_nil, hr, hr']

theorem Gives.conditional {body : Eval α} {r : Option α} (hgives : Gives (conditional body) f r g) :
    ∃ a h, body.Gives { f with scope := f.scope.enter {} [] } a h ∧
      g.scope = h.scope.outer.joinBranches h.world [h.scope.leave.1, {}] := by
  obtain ⟨_, _, hpair, hpure⟩ := gives_bind.mp hgives
  obtain ⟨-, rfl⟩ := gives_pure.mp hpure
  obtain ⟨_, h, _, _, hbody, hnone, rfl⟩ := hpair.pair
  obtain ⟨a, hbody, -⟩ := gives_map.mp hbody
  obtain ⟨-, rfl⟩ := gives_pure.mp hnone
  exact ⟨a, h, hbody, rfl⟩

theorem Gives.evaluateKind {task : Task} {depth : Nat} {n : Node} {t : Ty}
    (hgives : Gives (evaluate task depth n) f t g) :
    ∃ d h, depth = d + 1 ∧ Gives (evaluateKind task (evaluate task d) n) f t h ∧
      g.scope = h.scope ∧ g.world = h.world := by
  have hstop {u : Ty} {h : Flow} (hgives : Gives (do
      stopAt task n.index u
      return u) h t g) : t = u ∧ g = h := by
    obtain ⟨_, _, hstop, hpure⟩ := gives_bind.mp hgives
    obtain ⟨rfl, rfl⟩ := gives_pure.mp hpure
    rw [stopAt] at hstop
    split at hstop
    · exact absurd hstop not_gives_throw
    · exact ⟨rfl, (gives_pure.mp hstop).2⟩
  cases depth with
  | zero => exact absurd hgives not_gives_throw
  | succ depth =>
    rw [evaluate] at hgives
    obtain ⟨u, h, hkind, hgives⟩ := gives_bind.mp hgives
    dsimp only at hgives
    split at hgives
    · obtain ⟨_, _, hprobe, hgives⟩ := gives_bind.mp hgives
      obtain ⟨rfl, rfl⟩ := hstop hgives
      rw [gives_modify.mp hprobe]
      exact ⟨depth, h, rfl, hkind, rfl, rfl⟩
    · obtain ⟨rfl, rfl⟩ := hstop hgives
      exact ⟨depth, g, rfl, hkind, rfl, rfl⟩

theorem Gives.defineModule {owner m : ModuleId} {name : String} {isClass : Bool}
    {superclass : Option ModuleId}
    (hgives : Gives (defineModule owner name isClass superclass) f m g) :
    (∃ fullName, (g.world, m) = if isClass
      then f.world.addClass fullName (some (superclass.getD .object))
      else f.world.addMixin fullName) ∧
    g.scope = f.scope.setConstant g.world owner name (Ty.singleton m) := by
  rw [Eval.defineModule] at hgives
  obtain ⟨_, _, hworld, hgives⟩ := gives_bind.mp hgives
  obtain ⟨rfl, rfl⟩ := gives_world.mp hworld
  obtain ⟨_, _, hmodify, hpure⟩ := gives_bind.mp hgives
  obtain ⟨rfl, rfl⟩ := gives_pure.mp hpure
  rw [gives_modify.mp hmodify]
  exact ⟨⟨_, rfl⟩, rfl⟩

end results

/-- The law holds of the states before and after whenever there is a result. -/
def Obeys (R : Flow → Flow → Prop) (m : Eval α) : Prop := ∀ ⦃f a g⦄, m.Gives f a g → R f g

variable {R : Flow → Flow → Prop}

theorem Obeys.map {m : Eval α} (hm : Obeys R m) (k : α → β) : Obeys R (k <$> m) := by
  intro f b g hgives
  obtain ⟨a, hfg, -⟩ := gives_map.mp hgives
  exact hm hfg

theorem obeys_throw (e : Halt) : Obeys R (throw e : Eval α) :=
  fun _ _ _ h ↦ absurd h not_gives_throw

theorem obeys_change {op : Scope → Scope} (h : ∀ f : Flow, R f { f with scope := op f.scope }) :
    Obeys R (change op) := by
  intro f u g hgives
  rw [gives_change.mp hgives]
  exact h f

variable [IsPreorder Flow R]

theorem obeys_pure (a : α) : Obeys R (pure a) := by
  intro f b g h
  obtain ⟨-, rfl⟩ := gives_pure.mp h
  exact refl g

theorem Obeys.bind {m : Eval α} {k : α → Eval β} (hm : Obeys R m) (hk : ∀ a, Obeys R (k a)) :
    Obeys R (m >>= k) := by
  intro f b h hgives
  obtain ⟨a, g, hfg, hgh⟩ := gives_bind.mp hgives
  exact IsTrans.trans _ _ _ (hm hfg) (hk a hgh)

theorem Obeys.mapM {k : α → Eval β} {l : List α} (hk : ∀ a ∈ l, Obeys R (k a)) :
    Obeys R (l.mapM k) := by
  induction l with
  | nil => exact obeys_pure []
  | cons a l ih =>
    have hrest := ih fun a ha ↦ hk a (List.mem_cons_of_mem _ ha)
    rw [List.mapM_cons]
    exact (hk a List.mem_cons_self).bind fun b ↦ hrest.bind fun bs ↦ obeys_pure _

theorem obeys_world : Obeys R world := by
  intro f w g h
  obtain ⟨-, rfl⟩ := gives_world.mp h
  exact refl g

theorem obeys_scope : Obeys R scope := by
  intro f s g h
  obtain ⟨-, rfl⟩ := gives_scope.mp h
  exact refl g

theorem obeys_resolver (task : Task) : Obeys R (resolver task) :=
  obeys_world.bind fun _ ↦ obeys_pure _

variable {task : Task}

theorem obeys_callMatch {run : Option BlockRun}
    (hrun : ∀ r ∈ run, ∀ args self, Obeys R (r args self)) (m : MethodMatch) :
    Obeys R (callMatch task run m) := by
  rw [callMatch]
  refine (obeys_resolver task).bind fun r ↦ ?_
  dsimp only
  split
  next run block hblock =>
    refine (hrun _ rfl _ _).bind fun response ↦ ?_
    exact (obeys_resolver task).bind fun r ↦ obeys_pure _
  next => exact obeys_pure _

theorem obeys_runUnselected {run : Option BlockRun}
    (hrun : ∀ r ∈ run, ∀ args self, Obeys R (r args self)) (calls : List CallResult) :
    Obeys R (runUnselected run calls) := by
  cases run with
  | none => exact obeys_pure _
  | some run =>
    rw [runUnselected]
    split
    · exact obeys_pure _
    · exact (hrun run rfl _ _).map _

theorem obeys_call (hterminate : ∀ f : Flow, R f { f with scope := f.scope.terminate })
    {run : Option BlockRun} (hrun : ∀ r ∈ run, ∀ args self, Obeys R (r args self))
    (receiver : Ty) (name : String) (args : CallArguments) (guesses : Bool) :
    Obeys R (call task receiver name args run guesses) := by
  rw [call]
  refine (obeys_resolver task).bind fun r ↦ ?_
  refine (Obeys.mapM fun m _ ↦ obeys_callMatch hrun m).bind fun calls ↦ ?_
  refine (obeys_runUnselected hrun calls).bind fun more ↦ obeys_world.bind fun w ↦ ?_
  dsimp only
  split
  · exact (obeys_change hterminate).bind fun _ ↦ obeys_pure _
  · exact obeys_pure _

end Eval

end FlowCompletion
