import FlowCompletion.Live.Construction
import FlowCompletion.Proofs.Live.Methods
import FlowCompletion.Proofs.Live.Walk

namespace FlowCompletion

namespace World

variable {w : World} {m a : ModuleId} {o : Obj} {name : String} {v : Visibility} {height : Nat}

theorem methodVisibility?_eq_some_iff :
    w.methodVisibility? m name = some v ↔
      ∃ before a after, w.ancestors m = before ++ a :: after ∧
        Table.get? (w.module a).methods name = some v ∧
        ∀ b ∈ before, Table.get? (w.module b).methods name = none := by
  rw [methodVisibility?, firstDefinition, methodTables, List.findSome?_map,
    List.findSome?_eq_some_iff]
  rfl

theorem isSome_methodVisibility?_iff (h : w.Acyclic m) :
    (w.methodVisibility? m name).isSome ↔
      ∃ a, w.Reaches m a ∧ name ∈ Table.keys (w.module a).methods := by
  rw [methodVisibility?, firstDefinition, methodTables, List.findSome?_map,
    List.findSome?_isSome_iff]
  refine exists_congr fun a ↦ ?_
  rw [h.mem_ancestors, Table.mem_keys]
  rfl

theorem mem_instanceMethods :
    name ∈ w.instanceMethods m ↔
      w.methodVisibility? m name = some .pub ∨ w.methodVisibility? m name = some .prot := by
  rw [instanceMethods, mem_namesWhere, ← methodVisibility?]
  cases w.methodVisibility? m name with
  | none => simp
  | some v => cases v <;> simp [Visibility.isPrivate]

theorem mem_privateInstanceMethods :
    name ∈ w.privateInstanceMethods m ↔ w.methodVisibility? m name = some .priv := by
  rw [privateInstanceMethods, mem_namesWhere, ← methodVisibility?]
  simp only [Visibility.isPrivate_iff, exists_eq_right]

/-- Where all ways up end, a method is listed as its first definition along the ancestors says. The
two lists are in order, and part the names of all methods that are defined there. -/
theorem methods_listed_by_visibility (h : w.Acyclic m) :
    w.Walks [m] [] (w.ancestors m) ∧
      (∀ name v, w.methodVisibility? m name = some v ↔
        ∃ before a after, w.ancestors m = before ++ a :: after ∧
          Table.get? (w.module a).methods name = some v ∧
          ∀ b ∈ before, Table.get? (w.module b).methods name = none) ∧
      (∀ name, name ∈ w.instanceMethods m ↔
        w.methodVisibility? m name = some .pub ∨ w.methodVisibility? m name = some .prot) ∧
      (∀ name, name ∈ w.privateInstanceMethods m ↔ w.methodVisibility? m name = some .priv) ∧
      (w.instanceMethods m).Pairwise (· < ·) ∧ (w.privateInstanceMethods m).Pairwise (· < ·) ∧
      (w.instanceMethods m).Disjoint (w.privateInstanceMethods m) ∧
      ∀ name, name ∈ w.instanceMethods m ∨ name ∈ w.privateInstanceMethods m ↔
        ∃ a, w.Reaches m a ∧ name ∈ Table.keys (w.module a).methods := by
  refine ⟨walks_iff.mpr ⟨h, rfl⟩, fun name v ↦ methodVisibility?_eq_some_iff,
    fun name ↦ mem_instanceMethods, fun name ↦ mem_privateInstanceMethods,
    pairwise_sortedNames _, pairwise_sortedNames _, ?_, ?_⟩
  · intro name hopen hprivate
    rw [mem_instanceMethods, mem_privateInstanceMethods.mp hprivate] at hopen
    rcases hopen with hopen | hopen <;> cases hopen
  · intro name
    rw [← isSome_methodVisibility?_iff h]
    exact mem_namesWhere_or

def overriding : World :=
  { modules := #[{ name := some "Kernel", methods := [("puts", .priv), ("hash", .pub)] },
      { name := some "Base", kind := .cls none, includes := [⟨0⟩],
        methods := [("size", .pub), ("puts", .pub)] },
      { name := some "Sub", kind := .cls (some ⟨1⟩),
        methods := [("size", .prot), ("hash", .priv)] }] }

theorem methods_listed_by_visibility_overriding :
    overriding.Acyclic ⟨2⟩ ∧ overriding.instanceMethods ⟨2⟩ = ["puts", "size"] ∧
      overriding.privateInstanceMethods ⟨2⟩ = ["hash"] ∧
      (overriding.methodVisibility? ⟨2⟩ "puts" = some .pub ∨
        overriding.methodVisibility? ⟨2⟩ "puts" = some .prot) ∧
      ∃ a, overriding.Reaches ⟨2⟩ a ∧ "puts" ∈ Table.keys (overriding.module a).methods := by
  have h : overriding.Acyclic ⟨2⟩ := by decide +kernel
  have hopen : overriding.instanceMethods ⟨2⟩ = ["puts", "size"] := by decide +kernel
  have hprivate : overriding.privateInstanceMethods ⟨2⟩ = ["hash"] := by decide +kernel
  obtain ⟨-, -, hlisted, -, -, -, -, hall⟩ := methods_listed_by_visibility h
  have hputs : "puts" ∈ overriding.instanceMethods ⟨2⟩ := by
    rw [hopen]
    decide
  exact ⟨h, hopen, hprivate, (hlisted "puts").mp hputs, (hall "puts").mp (.inl hputs)⟩

/-- A module as a value finds a method: its own, or else the one that its superclass finds. -/
inductive Answers (w : World) (name : String) : ModuleId → Visibility → Prop
  | own {m : ModuleId} {v : Visibility} :
      Table.get? (w.module m).singletonMethods name = some v → Answers w name m v
  | inherited {m a : ModuleId} {v : Visibility} :
      Table.get? (w.module m).singletonMethods name = none → w.superclass? m = some a →
      Answers w name a v → Answers w name m v

theorem answers_iff :
    w.Answers name m v ↔
      Table.get? (w.module m).singletonMethods name = some v ∨
        Table.get? (w.module m).singletonMethods name = none ∧
          ∃ a, w.superclass? m = some a ∧ w.Answers name a v := by
  constructor
  · intro h
    cases h with
    | own h => exact .inl h
    | inherited hnone hsuper h => exact .inr ⟨hnone, _, hsuper, h⟩
  · intro h
    rcases h with h | ⟨hnone, a, hsuper, h⟩
    · exact .own h
    · exact .inherited hnone hsuper h

theorem firstDefinition_superclasses (h : w.Acyclic m) (hcard : (w.above m).card ≤ height) :
    firstDefinition ((w.superclasses height m).map fun a ↦ (w.module a).singletonMethods) name =
      some v ↔ w.Answers name m v := by
  induction height generalizing m with
  | zero =>
    -- nothing lies above, not even the module itself, so that there is no such module
    have hm : ¬ m.index < w.modules.size := by
      intro hm
      have hpos := Finset.card_pos.mpr ⟨m, mem_above_iff.mpr ⟨hm, .refl⟩⟩
      omega
    rw [answers_iff, superclass?, module_of_not_lt hm]
    simp [superclasses, firstDefinition, Table.get?]
  | succ height ih =>
    rw [superclasses, List.map_cons, firstDefinition_cons, answers_iff]
    cases hown : Table.get? (w.module m).singletonMethods name with
    | some u => simp
    | none =>
      cases hsuper : w.superclass? m with
      | none => simp [firstDefinition]
      | some a =>
        have ha : w.Climbs m a := List.mem_append_right _ (by simp [hsuper])
        have hlt := card_above_lt_of_climbs (index_lt_of_climbs ha) (h m .refl) ha
        have hrest := ih (h.of_reaches (.single ha)) (by omega)
        simpa using hrest

def OwnDefines (w : World) (name : String) (v : Visibility) : Obj → Prop
  | .ofModule m => w.Answers name m v
  | .ofInstance i => ∃ d, w.instance? i = some d ∧ Table.get? d.singletonMethods name = some v

def FirstDefines (w : World) (name : String) (v : Visibility) (o : Obj) : Prop :=
  w.OwnDefines name v o ∨
    (∀ u, ¬ w.OwnDefines name u o) ∧ w.methodVisibility? (w.classOf o) name = some v

/-- The object has a method of its own that is private where that of its class is not, or the other
way round. -/
def Overrides (w : World) (name : String) (o : Obj) : Prop :=
  ∃ u v, w.OwnDefines name u o ∧ w.methodVisibility? (w.classOf o) name = some v ∧
    (u = .priv ↔ v ≠ .priv)

theorem ownDefines_iff (h : ∀ m, o = .ofModule m → w.Acyclic m) :
    w.OwnDefines name v o ↔ firstDefinition (w.ownSingletonTables o) name = some v := by
  cases o with
  | ofModule m => exact (firstDefinition_superclasses (h m rfl) (w.card_above_le m)).symm
  | ofInstance i =>
    cases hi : w.instance? i with
    | none => simp [OwnDefines, ownSingletonTables, firstDefinition, Table.get?, hi]
    | some d => simp [OwnDefines, ownSingletonTables, firstDefinition, hi]

theorem mem_methods :
    name ∈ w.methods o ↔
      (∃ v, firstDefinition (w.ownSingletonTables o) name = some v ∧ v ≠ .priv) ∨
        ∃ v, w.methodVisibility? (w.classOf o) name = some v ∧ v ≠ .priv := by
  simp only [methods, mem_sortedNames, List.mem_append, singletonMethods, instanceMethods,
    mem_namesWhere, Visibility.not_isPrivate_iff, methodVisibility?]

theorem mem_privateMethods :
    name ∈ w.privateMethods o ↔
      firstDefinition (w.ownSingletonTables o) name = some .priv ∨
        w.methodVisibility? (w.classOf o) name = some .priv := by
  simp only [privateMethods, mem_sortedNames, List.mem_append, privateSingletonMethods,
    privateInstanceMethods, mem_namesWhere, Visibility.isPrivate_iff, exists_eq_right,
    methodVisibility?]

/-- An object lists a method as the first definition that it finds says, if and only if it does not
override the method with one that is open where that of its class is private, or the other way
round. The methods that it overrides so are listed twice, as open and as private. -/
theorem methods_split_unless_overridden (hclass : w.Acyclic (w.classOf o))
    (hself : ∀ m, o = .ofModule m → w.Acyclic m) (name : String) :
    w.Walks [w.classOf o] [] (w.ancestors (w.classOf o)) ∧
      ((name ∈ w.methods o ↔ ∃ v, w.FirstDefines name v o ∧ v ≠ .priv) ∧
          (name ∈ w.privateMethods o ↔ w.FirstDefines name .priv o) ↔
        ¬ w.Overrides name o) ∧
      (name ∈ w.methods o ∧ name ∈ w.privateMethods o ↔ w.Overrides name o) := by
  refine ⟨walks_iff.mpr ⟨hclass, rfl⟩, ?_⟩
  simp only [FirstDefines, Overrides, mem_methods, mem_privateMethods, ownDefines_iff hself]
  -- the object's own definition and that of its class, if there are both, are private or not
  cases firstDefinition (w.ownSingletonTables o) name with
  | none => cases w.methodVisibility? (w.classOf o) name <;> simp
  | some u =>
    cases w.methodVisibility? (w.classOf o) name with
    | none => simp
    | some v => by_cases hu : u = .priv <;> by_cases hv : v = .priv <;> simp [hu, hv]

def sealedClass : World :=
  (World.initial.addClass "Config" ModuleId.object).1.defineSingletonMethod (.ofModule ⟨24⟩) "new"
    .priv

theorem methods_split_unless_overridden_sealedClass :
    sealedClass.Acyclic (sealedClass.classOf (.ofModule ⟨24⟩)) ∧ sealedClass.Acyclic ⟨24⟩ ∧
      (sealedClass.Overrides "new" (.ofModule ⟨24⟩) ∧
        "new" ∈ sealedClass.methods (.ofModule ⟨24⟩) ∧
        "new" ∈ sealedClass.privateMethods (.ofModule ⟨24⟩)) ∧
      ¬ sealedClass.Overrides "allocate" (.ofModule ⟨24⟩) ∧
      ("allocate" ∈ sealedClass.methods (.ofModule ⟨24⟩) ↔
        ∃ v, sealedClass.FirstDefines "allocate" v (.ofModule ⟨24⟩) ∧ v ≠ .priv) := by
  have hclass : sealedClass.Acyclic (sealedClass.classOf (.ofModule ⟨24⟩)) := by decide +kernel
  have hconfig : sealedClass.Acyclic ⟨24⟩ := by decide +kernel
  have hself (m : ModuleId) (hm : Obj.ofModule ⟨24⟩ = .ofModule m) : sealedClass.Acyclic m := by
    cases hm
    exact hconfig
  have hnew : sealedClass.Overrides "new" (.ofModule ⟨24⟩) :=
    ⟨.priv, .pub, .own (by decide +kernel), by decide +kernel, by decide⟩
  have hallocate : ¬ sealedClass.Overrides "allocate" (.ofModule ⟨24⟩) := by
    intro h
    obtain ⟨u, v, hown, -⟩ := h
    have hnone : firstDefinition (sealedClass.ownSingletonTables (.ofModule ⟨24⟩)) "allocate" =
        none := by decide +kernel
    rw [ownDefines_iff hself, hnone] at hown
    cases hown
  have hsplit := methods_split_unless_overridden hclass hself
  exact ⟨hclass, hconfig, ⟨hnew, (hsplit "new").2.2.mpr hnew⟩, hallocate,
    ((hsplit "allocate").2.1.mpr hallocate).1⟩

end World

end FlowCompletion
