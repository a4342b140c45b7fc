import FlowCompletion.Live.Construction
import FlowCompletion.Proofs.Live.Walk

namespace FlowCompletion

/-- Where all that is added to a relation leads to one place, a way that is new goes there once. -/
theorem transGen_of_added {α : Type} {r r' added : α → α → Prop} {a b : α}
    (hr : ∀ a b, r' a b → r a b ∨ added a b)
    (hone : ∀ a b c d, added a b → added c d → d = b) (h : Relation.TransGen r' a b) :
    Relation.TransGen r a b ∨
      ∃ x y, added x y ∧ Relation.ReflTransGen r a x ∧ Relation.ReflTransGen r y b := by
  induction h with
  | single hstep =>
    rcases hr _ _ hstep with hold | hnew
    · exact .inl (.single hold)
    · exact .inr ⟨_, _, hnew, .refl, .refl⟩
  | tail _ hstep ih =>
    rcases hr _ _ hstep with hold | hnew
    · rcases ih with ih | ⟨x, y, hadded, hto, hfrom⟩
      · exact .inl (ih.tail hold)
      · exact .inr ⟨x, y, hadded, hto, hfrom.tail hold⟩
    · rcases ih with ih | ⟨x, y, hadded, hto, -⟩
      · exact .inr ⟨_, _, hnew, ih.to_reflTransGen, .refl⟩
      · obtain rfl := hone _ _ _ _ hadded hnew
        exact .inr ⟨x, _, hadded, hto, .refl⟩

inductive Making where
  | cls (name : Option String) (superclass : Option ModuleId)
  | mixin (name : Option String)
  | mixIn (m other : ModuleId)

namespace World

variable {w start : World} {m a b : ModuleId} {step : Making} {steps : List Making}

def make (w : World) : Making → World
  | .cls name superclass => (w.addClass name superclass).1
  | .mixin name => (w.addMixin name).1
  | .mixIn m other => w.mixIn m other

def Possible (w : World) : Making → Prop
  | .cls _ superclass => ∀ s ∈ superclass, s.index < w.modules.size
  | .mixin _ => True
  | .mixIn m other => m.index < w.modules.size ∧ other.index < w.modules.size

instance decidablePossible (w : World) : DecidablePred w.Possible
  | .cls _ superclass => inferInstanceAs (Decidable (∀ s ∈ superclass, s.index < w.modules.size))
  | .mixin _ => inferInstanceAs (Decidable True)
  | .mixIn m other =>
    inferInstanceAs (Decidable (m.index < w.modules.size ∧ other.index < w.modules.size))

def Adds (w : World) : Making → ModuleId → ModuleId → Prop
  | .cls _ superclass, m, a => m.index = w.modules.size ∧ superclass = some a
  | .mixin _, _, _ => False
  | .mixIn on other, m, a => m = on ∧ a = other

theorem climbs_iff : w.Climbs m a ↔ a ∈ (w.module m).includes ∨ w.superclass? m = some a := by
  simp [Climbs, supers]

theorem module_addModule (w : World) (d : Module) (m : ModuleId) :
    (w.addModule d).1.module m = if m.index = w.modules.size then d else w.module m := by
  simp only [World.module, addModule, Array.getD_eq_getD_getElem?, Array.getElem?_push]
  split <;> rfl

theorem module_modifyModule {on : ModuleId} (hon : on.index < w.modules.size)
    (f : Module → Module) (m : ModuleId) :
    (w.modifyModule on f).module m = if m = on then f (w.module m) else w.module m := by
  simp only [World.module, modifyModule, Array.getD_eq_getD_getElem?, Array.getElem?_modify]
  by_cases hm : m = on
  · subst hm
    simp [hon]
  · have hindex : ¬ on.index = m.index := fun h ↦ hm (congrArg ModuleId.mk h.symm)
    rw [if_neg hindex, if_neg hm]

theorem climbs_addModule (w : World) {d : Module} (hd : d.includes = []) :
    (w.addModule d).1.Climbs m a ↔
      w.Climbs m a ∨ m.index = w.modules.size ∧ d.kind = .cls (some a) := by
  by_cases hm : m.index = w.modules.size
  · have hnew : ¬ w.Climbs m a := fun h ↦ absurd (index_lt_of_climbs h) (by omega)
    rw [climbs_iff, superclass?, module_addModule, if_pos hm, hd]
    cases hkind : d.kind with
    | mixin => simp [hnew]
    | cls superclass => simp [hnew, hm]
  · have hsupers : (w.addModule d).1.supers m = w.supers m :=
      supers_congr (by rw [module_addModule, if_neg hm])
    rw [Climbs, hsupers, Climbs]
    simp [hm]

theorem climbs_mixIn {on other : ModuleId} (hon : on.index < w.modules.size) :
    (w.mixIn on other).Climbs m a ↔ w.Climbs m a ∨ m = on ∧ a = other := by
  by_cases hm : m = on
  · subst hm
    rw [climbs_iff, climbs_iff, superclass?, superclass?, mixIn, module_modifyModule hon,
      if_pos rfl]
    by_cases hknown : other ∈ (w.module m).includes
    · -- including a module again changes nothing
      rw [if_pos hknown]
      refine (or_iff_left_of_imp ?_).symm
      rintro ⟨-, rfl⟩
      exact .inl hknown
    · rw [if_neg hknown, List.mem_append, List.mem_singleton, or_right_comm]
      simp
  · have hsupers : (w.mixIn on other).supers m = w.supers m :=
      supers_congr (by rw [mixIn, module_modifyModule hon, if_neg hm])
    rw [Climbs, hsupers, Climbs]
    simp [hm]

theorem climbs_make (hstep : w.Possible step) :
    (w.make step).Climbs m a ↔ w.Climbs m a ∨ w.Adds step m a := by
  cases step with
  | cls name superclass =>
    rw [make, addClass, climbs_addModule _ rfl]
    simp [Adds]
  | mixin name =>
    rw [make, addMixin, climbs_addModule _ rfl]
    simp [Adds]
  | mixIn on other => exact climbs_mixIn hstep.1

def Intact (w : World) : Prop := ∀ m a, w.Climbs m a → a.index < w.modules.size

theorem size_le_make (w : World) (step : Making) : w.modules.size ≤ (w.make step).modules.size := by
  cases step with
  | cls | mixin => exact Nat.le_of_lt (Array.size_push _ ▸ Nat.lt_succ_self _)
  | mixIn on other => exact Nat.le_of_eq Array.size_modify.symm

theorem Intact.make (h : w.Intact) (hstep : w.Possible step) : (w.make step).Intact := by
  intro m a ha
  refine Nat.lt_of_lt_of_le ?_ (w.size_le_make step)
  rcases (climbs_make hstep).mp ha with hold | hnew
  · exact h m a hold
  · cases step with
    | cls name superclass => exact hstep a hnew.2
    | mixin name => exact hnew.elim
    | mixIn on other => exact hnew.2 ▸ hstep.2

/-- A cycle that a step closes goes through the include that the step is. -/
theorem cycle_make (hw : w.Intact) (hstep : w.Possible step)
    (h : Relation.TransGen (w.make step).Climbs a a) :
    Relation.TransGen w.Climbs a a ∨
      ∃ on other, step = .mixIn on other ∧ w.Reaches other on ∧ w.Reaches a on := by
  have hone (m a m' a' : ModuleId) (h : w.Adds step m a) (h' : w.Adds step m' a') : a' = a := by
    cases step with
    | cls name superclass => exact Option.some.inj (h'.2.symm.trans h.2)
    | mixin name => exact h.elim
    | mixIn on other => exact h'.2.trans h.2.symm
  rcases transGen_of_added (fun m a ↦ (climbs_make hstep).mp) hone h with hold | hnew
  · exact .inl hold
  · obtain ⟨on, other, hadds, hto, hfrom⟩ := hnew
    have hback : w.Reaches other on := hfrom.trans hto
    right
    cases step with
    | cls name superclass =>
      -- nothing leads to the class that is new
      exfalso
      rcases hback.cases_tail with rfl | ⟨b, -, hlast⟩
      · exact absurd (hstep _ hadds.2) (by have hindex := hadds.1; omega)
      · exact absurd (hw b on hlast) (by have hindex := hadds.1; omega)
    | mixin name => exact hadds.elim
    | mixIn m a =>
      obtain ⟨rfl, rfl⟩ := hadds
      exact ⟨on, other, rfl, hback, hto⟩

def run (w : World) (steps : List Making) : World := steps.foldl make w

def Feasible (w : World) : List Making → Prop
  | [] => True
  | step :: rest => w.Possible step ∧ (w.make step).Feasible rest

instance decidableFeasible : (w : World) → DecidablePred w.Feasible
  | _, [] => inferInstanceAs (Decidable True)
  | w, step :: rest =>
    have := decidableFeasible (w.make step) rest
    inferInstanceAs (Decidable (w.Possible step ∧ (w.make step).Feasible rest))

/-- Some step makes the module include one from which a way up leads to the module already. -/
def Closes (w : World) : List Making → ModuleId → Prop
  | [], _ => False
  | step :: rest, on =>
    (∃ other, step = .mixIn on other ∧ w.Reaches other on) ∨ (w.make step).Closes rest on

theorem run_cons (w : World) (step : Making) (rest : List Making) :
    w.run (step :: rest) = (w.make step).run rest :=
  rfl

theorem climbs_run (hsteps : w.Feasible steps) (h : w.Climbs m a) : (w.run steps).Climbs m a := by
  induction steps generalizing w with
  | nil => exact h
  | cons step rest ih => exact ih hsteps.2 ((climbs_make hsteps.1).mpr (.inl h))

theorem reaches_run (hsteps : w.Feasible steps) (h : w.Reaches m a) :
    (w.run steps).Reaches m a :=
  Relation.ReflTransGen.mono (fun _ _ ↦ climbs_run hsteps) _ _ h

theorem cycle_of_closes {on : ModuleId} (hsteps : w.Feasible steps) (h : w.Closes steps on) :
    Relation.TransGen (w.run steps).Climbs on on := by
  induction steps generalizing w with
  | nil => exact h.elim
  | cons step rest ih =>
    rcases h with ⟨other, rfl, hback⟩ | h
    · have hnew : (w.run (.mixIn on other :: rest)).Climbs on other := by
        rw [run_cons]
        exact climbs_run hsteps.2 ((climbs_make hsteps.1).mpr (.inr ⟨rfl, rfl⟩))
      exact .head' hnew (reaches_run hsteps hback)
    · exact ih hsteps.2 h

theorem cycle_run (hw : w.Intact) (hsteps : w.Feasible steps)
    (h : Relation.TransGen (w.run steps).Climbs a a) :
    (∃ b, (w.run steps).Reaches a b ∧ Relation.TransGen w.Climbs b b) ∨
      ∃ on, w.Closes steps on ∧ (w.run steps).Reaches a on := by
  induction steps generalizing w with
  | nil => exact .inl ⟨a, .refl, h⟩
  | cons step rest ih =>
    obtain ⟨hstep, hrest⟩ := id hsteps
    rcases ih (hw.make hstep) hrest h with ⟨b, hreach, hcycle⟩ | ⟨on, hcloses, hreach⟩
    · -- a cycle of the world after this step: an older one, or closed by the step
      rcases cycle_make hw hstep hcycle with hold | ⟨on, other, rfl, hback, hto⟩
      · exact .inl ⟨b, hreach, hold⟩
      · have hlater : (w.run (.mixIn on other :: rest)).Reaches b on := reaches_run hsteps hto
        exact .inr ⟨on, .inl ⟨other, rfl, hback⟩, hreach.trans hlater⟩
    · exact .inr ⟨on, .inr hcloses, hreach⟩

theorem acyclic_run_iff (hstart : start.Hierarchy {m | m.index < start.modules.size})
    (hsteps : start.Feasible steps) :
    (start.run steps).Acyclic m ↔
      ∀ on, start.Closes steps on → ¬ (start.run steps).Reaches m on := by
  constructor
  · intro h on hcloses hreach
    exact h on hreach (cycle_of_closes hsteps hcloses)
  · intro h a ha hcycle
    have hintact : start.Intact := fun m a hma ↦ hstart.closed m (index_lt_of_climbs hma) a hma
    rcases cycle_run hintact hsteps hcycle with ⟨b, -, hold⟩ | ⟨on, hcloses, hreach⟩
    · obtain ⟨c, hc, -⟩ := Relation.TransGen.head'_iff.mp hold
      exact hstart.acyclic b (index_lt_of_climbs hc) hold
    · exact h on hcloses (ha.trans hreach)

/-- After any sequence of steps the walk to the ancestors of a module makes finitely many calls, and
returns, if and only if no way up from the module leads to one that closed a cycle: that was made to
include a module from which a way up led back to it. What it returns are the ancestors. -/
theorem walk_returns_unless_closed
    (hstart : start.Hierarchy {m | m.index < start.modules.size}) (hsteps : start.Feasible steps)
    (m : ModuleId) :
    ((∃ calls, ∀ height, ((start.run steps).lineage height m).length ≤ calls) ↔
      ∀ on, start.Closes steps on → ¬ (start.run steps).Reaches m on) ∧
    ((∃ all, (start.run steps).Walks [m] [] all) ↔
      ∀ on, start.Closes steps on → ¬ (start.run steps).Reaches m on) ∧
    ∀ all, (start.run steps).Walks [m] [] all → all = (start.run steps).ancestors m := by
  refine ⟨calls_bounded_iff.trans (acyclic_run_iff hstart hsteps), ?_,
    fun all h ↦ (walks_iff.mp h).2⟩
  rw [← acyclic_run_iff hstart hsteps]
  constructor
  · rintro ⟨all, h⟩
    exact (walks_iff.mp h).1
  · exact fun h ↦ ⟨_, walks_iff.mpr ⟨h, rfl⟩⟩

def knotted : List Making :=
  [.mixin (some "Knot"), .cls (some "Rope") (some .object), .mixIn ⟨24⟩ ⟨24⟩, .mixIn ⟨25⟩ ⟨24⟩]

theorem walk_returns_unless_closed_knotted :
    (¬ ∃ all, (World.initial.run knotted).Walks [⟨25⟩] [] all) ∧
      (¬ ∃ calls, ∀ height, ((World.initial.run knotted).lineage height ⟨25⟩).length ≤ calls) ∧
      ∃ all, (World.initial.run knotted).Walks [.object] [] all := by
  have hsize : World.initial.modules.size = 24 := by decide +kernel
  have hclosed : ∀ i < 24, ∀ a ∈ World.initial.supers ⟨i⟩, a.index < 24 := by decide +kernel
  have hacyclic : ∀ i < 24, World.initial.Acyclic ⟨i⟩ := by decide +kernel
  have hstart : World.initial.Hierarchy {m | m.index < World.initial.modules.size} := by
    rw [hsize]
    exact ⟨fun m hm ↦ hsize ▸ hm, fun m hm a ha ↦ hclosed m.index hm a ha,
      fun m hm ↦ hacyclic m.index hm m .refl⟩
  have hsteps : World.initial.Feasible knotted := by decide +kernel
  -- from the mixin to itself it takes no step, so that including it closes a cycle at once
  have hcloses : World.initial.Closes knotted ⟨24⟩ := .inr (.inr (.inl ⟨⟨24⟩, rfl, .refl⟩))
  have hclimbs : ⟨24⟩ ∈ (World.initial.run knotted).supers ⟨25⟩ := by decide +kernel
  have hobject : (World.initial.run knotted).Acyclic .object := by decide +kernel
  obtain ⟨hcalls, hwalks, -⟩ := walk_returns_unless_closed hstart hsteps ⟨25⟩
  refine ⟨fun h ↦ hwalks.mp h ⟨24⟩ hcloses (.single hclimbs),
    fun h ↦ hcalls.mp h ⟨24⟩ hcloses (.single hclimbs), ?_⟩
  exact (walk_returns_unless_closed hstart hsteps .object).2.1.mpr
    ((acyclic_run_iff hstart hsteps).mp hobject)

end World

end FlowCompletion
