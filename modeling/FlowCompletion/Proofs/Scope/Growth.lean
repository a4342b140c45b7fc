import FlowCompletion.Proofs.Live.Ancestry
import FlowCompletion.Proofs.Scope.Keys
import FlowCompletion.Scope.Flow

namespace FlowCompletion

namespace World

/-- The world has gained modules, none of which has variables. -/
def Grows (w v : World) : Prop :=
  v.instances = w.instances ∧ ∃ added : Array Module, v.modules = w.modules ++ added ∧
    ∀ d ∈ added, d.classVariables = [] ∧ d.ivars = []

variable {w v u : World}

theorem Grows.refl (w : World) : w.Grows w := ⟨rfl, #[], by simp, by simp⟩

theorem Grows.trans (hwv : w.Grows v) (hvu : v.Grows u) : w.Grows u := by
  obtain ⟨hv, added, hadded, hempty⟩ := hwv
  obtain ⟨hu, more, hmore, hempty'⟩ := hvu
  refine ⟨hu.trans hv, added ++ more, by rw [hmore, hadded, Array.append_assoc], fun d hd ↦ ?_⟩
  exact (Array.mem_append.mp hd).elim (hempty d) (hempty' d)

theorem grows_addModule (w : World) {d : Module} (hd : d.classVariables = [] ∧ d.ivars = []) :
    w.Grows (w.addModule d).1 := by
  refine ⟨rfl, #[d], rfl, fun d' hd' ↦ ?_⟩
  rwa [Array.mem_singleton.mp hd']

theorem Grows.module_eq (h : w.Grows v) {m : ModuleId} (hm : m.index < w.modules.size) :
    v.module m = w.module m := by
  obtain ⟨-, added, hadded, -⟩ := h
  simp [World.module, hadded, Array.getD_eq_getD_getElem?, Array.getElem?_append_left hm]

theorem Grows.variables_eq (h : w.Grows v) (m : ModuleId) :
    (v.module m).classVariables = (w.module m).classVariables ∧
      (v.module m).ivars = (w.module m).ivars := by
  rcases Nat.lt_or_ge m.index w.modules.size with hlt | hge
  · rw [h.module_eq hlt]
    exact ⟨rfl, rfl⟩
  obtain ⟨-, added, hadded, hempty⟩ := h
  have hw : w.module m = {} := by simp [World.module, Array.getD_eq_getD_getElem?, hge]
  have hv : v.module m = (added[m.index - w.modules.size]?).getD {} := by
    simp [World.module, hadded, Array.getD_eq_getD_getElem?, Array.getElem?_append_right hge]
  rw [hw, hv]
  cases hget : added[m.index - w.modules.size]? with
  | none => exact ⟨rfl, rfl⟩
  | some d => exact hempty d (Array.mem_of_getElem? hget)

theorem Grows.ivars (h : w.Grows v) (o : Obj) : v.ivars o = w.ivars o := by
  cases o with
  | ofModule m => exact (h.variables_eq m).2
  | ofInstance i => rw [World.ivars, World.ivars, instance?, instance?, h.1]

theorem Grows.instanceVariable? (h : w.Grows v) (o : Obj) (name : String) :
    v.instanceVariable? o name = w.instanceVariable? o name := by
  rw [World.instanceVariable?, h.ivars, ← World.instanceVariable?]

theorem Grows.classOf (h : w.Grows v) {o : Obj} (ho : Ty.moduleOf? o = none) :
    v.classOf o = w.classOf o := by
  cases o with
  | ofModule m => cases ho
  | ofInstance i => rw [World.classOf, World.classOf, instance?, instance?, h.1]

theorem Grows.ofObject (h : w.Grows v) (o : Obj) : Ty.ofObject v o = Ty.ofObject w o := by
  cases o with
  | ofModule m => rfl
  | ofInstance i =>
    have hpayload : v.payload (.ofInstance i) = w.payload (.ofInstance i) := by
      rw [payload, payload, instance?, instance?, h.1]
    rw [Ty.ofObject, Ty.ofObject, hpayload, h.classOf rfl]

theorem Grows.ofObjects (h : w.Grows v) (objects : List Obj) :
    Ty.ofObjects v objects = Ty.ofObjects w objects := by
  have hclass : ∀ o ∈ (sample sampleSize objects).filter fun o ↦ (Ty.moduleOf? o).isNone,
      v.classOf o = w.classOf o :=
    fun o ho ↦ h.classOf (Option.isNone_iff_eq_none.mp (List.mem_filter.mp ho).2)
  simp only [Ty.ofObjects, List.map_congr_left hclass]
  refine congrArg (fun types ↦ Ty.union (types ++ _)) (List.map_congr_left fun cls _ ↦ ?_)
  exact congrArg (Ty.seen cls) (List.filter_congr fun o ho ↦ by rw [hclass o ho])

theorem Grows.classVariable? (h : w.Grows v) {m : ModuleId} (hm : w.Ends w.modules.size m)
    (name : String) : v.classVariable? m name = w.classVariable? m name := by
  have hsize : w.modules.size ≤ v.modules.size := by
    obtain ⟨-, added, hadded, -⟩ := h
    rw [hadded, Array.size_append]
    exact Nat.le_add_right _ _
  have htables : v.classVariableTables m = w.classVariableTables m := by
    rw [classVariableTables, classVariableTables, hm.ancestors_eq,
      (hm.congr (fun _ ↦ h.module_eq) hsize hsize).ancestors_eq,
      lineage_congr (fun _ ↦ h.module_eq) hm hsize]
    exact List.map_congr_left fun other _ ↦ (h.variables_eq other).1
  rw [World.classVariable?, htables, ← World.classVariable?]

end World

namespace Scope

variable {w v : World} {name : String}

theorem selfType_of_grows (h : w.Grows v) (s : Scope) : s.selfType v = s.selfType w := by
  rw [selfType, selfType, h.ofObject]

theorem variableOf_of_grows (h : w.Grows v) (t : Ty) :
    variableOf v t name = variableOf w t name := by
  simp only [variableOf, h.instanceVariable?, h.ofObjects]

theorem live?_of_grows (h : w.Grows v) (root : Root)
    (hclass : NameKind.ofName name = .cvar →
      w.Ends w.modules.size (root.classVariableOwner w)) :
    root.live? v name = root.live? w name := by
  have howner : root.classVariableOwner v = root.classVariableOwner w := by
    unfold Root.classVariableOwner
    cases root.binding.nesting.getLast? with
    | some m => rfl
    | none =>
      cases root.binding.receiver with
      | ofModule m => rfl
      | ofInstance i => exact h.classOf rfl
  unfold Root.live?
  cases hkind : NameKind.ofName name with
  | ivar => exact h.instanceVariable? _ name
  | cvar =>
    rw [howner]
    exact h.classVariable? (hclass hkind) name
  | lvar | gvar | const | label => rfl

theorem lookup_of_grows (h : w.Grows v) (s : Scope)
    (hclass : NameKind.ofName name = .cvar →
      w.Ends w.modules.size (s.root.classVariableOwner w)) :
    s.lookup v (.named name) = s.lookup w (.named name) := by
  obtain ⟨root, frames⟩ := s
  have hframes (frames : List Frame) :
      lookupIn v root (.named name) frames = lookupIn w root (.named name) frames := by
    induction frames with
    | nil =>
      have hobject : Ty.ofObject v = Ty.ofObject w := funext h.ofObject
      simp only [lookupIn, Root.lookup, Key.text_named, live?_of_grows h root hclass, hobject]
    | cons f rest ih =>
      simp only [lookupIn, ih, selfType_of_grows h, variableOf_of_grows h]
  exact hframes frames

end Scope

end FlowCompletion
