import FlowCompletion.Proofs.Resolution.Substitution
import FlowCompletion.Proofs.Ty.SampleCount
import Mathlib.Algebra.Order.BigOperators.Group.List
import Mathlib.Algebra.Order.Group.Nat

namespace FlowCompletion

namespace Ty

theorem sampleCount_instWith (cls : ModuleId) (params : List (String × Ty)) :
    (instWith cls params).sampleCount = paramTotal params := by
  rw [instWith, ofMember, sampleCount, Member.sampleCount_eq]
  simp [Member.sampleCounts, Member.samples, Member.rawParams]

theorem sampleCount_inst (cls : ModuleId) : (inst cls).sampleCount = 0 := rfl

theorem sampleCount_transform {f : Member → Ty} (h : ∀ x, (f x).sampleCount = 0) (t : Ty) :
    (t.transform f).sampleCount = 0 := by
  rw [transform, sampleCount_union, List.map_map]
  apply List.sum_eq_zero
  intro n hn
  obtain ⟨x, -, rfl⟩ := List.mem_map.mp hn
  exact h x

end Ty

namespace Resolver

variable {r : Resolver} {vars : TypeVars}

theorem sampleCount_classOfMember (w : World) (x : Member) :
    (classOfMember w x).sampleCount = 0 := by
  cases x with
  | itself m =>
    rw [classOfMember]
    split <;> rfl
  | instanceOf => rfl

theorem sampleCount_instanceOfMember (w : World) (x : Member) :
    (instanceOfMember w x).sampleCount = 0 := by
  cases x with
  | itself m =>
    rw [instanceOfMember]
    split <;> rfl
  | instanceOf => rfl

theorem sampleCount_readAbbreviation (name : String) : (readAbbreviation name).sampleCount = 0 := by
  unfold readAbbreviation
  split <;> rfl

theorem sampleCount_read_of_isPlain {e : TypeExpr} (h : e.isPlain) :
    (r.read Ty.object vars e).sampleCount = 0 := by
  cases e with
  | union | intersection | optional | tuple | record | var | classInstance | interface => cases h
  | receiverClass => exact Ty.sampleCount_transform (sampleCount_classOfMember r.world) _
  | receiverInstance => exact Ty.sampleCount_transform (sampleCount_instanceOfMember r.world) _
  | literal value => cases value <;> rfl
  | abbreviation name => exact sampleCount_readAbbreviation name
  | classSingleton name =>
    rw [read]
    cases r.class? name <;> rfl
  | _ => rfl

theorem sampleCount_readClass (name : String) (args : List Ty) :
    (r.readClass name args).sampleCount =
      ((args.take (r.arity name)).map Ty.sampleCount).sum := by
  cases hcls : r.class? name with
  | none =>
    have harity : r.arity name = 0 := by rw [arity, hcls]; rfl
    rw [readClass, hcls, harity]
    rfl
  | some cls =>
    by_cases hargs : args = []
    · rw [hargs, readClass, hcls, List.take_nil]
      rfl
    · have hlen : (r.padded name args).length ≤ (r.typeParams name).length := by
        rw [length_padded, arity, hcls]
        exact Nat.le_refl _
      have hsnd := congrArg (List.map Ty.sampleCount) (List.map_snd_zip hlen)
      rw [List.map_map] at hsnd
      rw [readClass_eq hcls hargs, Ty.sampleCount_instWith, paramTotal]
      refine (congrArg List.sum hsnd).trans ?_
      rw [padded, List.map_append, List.sum_append, List.map_replicate]
      simp [Ty.object, Ty.sampleCount_inst]

def samplesGiven (vars : TypeVars) (name : String) : Nat :=
  (Table.get? vars name).elim 0 Ty.sampleCount

theorem sampleCount_read (vars : TypeVars) (e : TypeExpr) :
    (r.read Ty.object vars e).sampleCount = ((r.lookups e).map (samplesGiven vars)).sum := by
  have hall {types : List TypeExpr}
      (ih : ∀ e ∈ types, (r.read Ty.object vars e).sampleCount =
        ((r.lookups e).map (samplesGiven vars)).sum) :
      ((types.map (r.read Ty.object vars)).map Ty.sampleCount).sum =
        ((types.map r.lookups).flatten.map (samplesGiven vars)).sum := by
    rw [List.map_flatten, List.sum_flatten, List.map_map, List.map_map, List.map_map]
    exact congrArg List.sum (List.map_congr_left ih)
  induction e using TypeExpr.induct with
  | plain e h => rw [sampleCount_read_of_isPlain h, lookups_of_isPlain h]; rfl
  | var name =>
    rw [read, lookups, List.map_singleton, List.sum_singleton, samplesGiven]
    cases Table.get? vars name <;> rfl
  | optional inner ih =>
    rw [read, Ty.sampleCount_union, lookups, ← ih]
    rfl
  | record fields | interface name args => rfl
  | union types ih | intersection types ih =>
    simpa only [read, readAll_eq_map, Ty.sampleCount_union, lookups, lookupsEach_eq_map]
      using hall ih
  | tuple types ih =>
    simpa only [read, readAll_eq_map, Ty.arrayOf, Ty.sampleCount_instWith, paramTotal,
      List.map_singleton, List.sum_singleton, Ty.sampleCount_union, lookups, lookupsEach_eq_map]
      using hall ih
  | classInstance name args ih =>
    have hread := hall fun e he ↦ ih e (List.mem_of_mem_take (i := r.arity name) he)
    simpa only [read, readAll_eq_map, sampleCount_readClass, lookups, lookupsEach_eq_map,
      List.map_take] using hread

/-- Some type parameter of the method is looked up in a type that stands in the place of a
variable. -/
def Captures (r : Resolver) (s : Substitution) (m : MethodType) : Prop :=
  ∃ t ∈ m.types, ∃ x ∈ r.lookups t, ∃ d ∈ Table.get? (m.unhidden s) x, ∃ y ∈ r.lookups d,
    y ∈ m.typeParams

instance (r : Resolver) (s : Substitution) (m : MethodType) : Decidable (r.Captures s m) :=
  inferInstanceAs (Decidable (∃ t ∈ m.types, ∃ x ∈ r.lookups t,
    ∃ d ∈ Table.get? (m.unhidden s) x, ∃ y ∈ r.lookups d, y ∈ m.typeParams))

/-- With `own` for the type parameters of the method, every declared type of it reads after the
substitution as it did before, with the replaced variables given the types that their replacements
have outside the method. -/
def ReadsOutside (r : Resolver) (receiver : Ty) (own : TypeVars) (s : Substitution)
    (m : MethodType) : Prop :=
  (m.substitute s).types.map (r.read receiver own) =
    m.types.map (r.read receiver (r.readEach receiver [] (m.unhidden s) ++ own))

variable {s : Substitution} {m : MethodType} {receiver : Ty} {own : TypeVars}

theorem readsOutside_iff :
    r.ReadsOutside receiver own s m ↔ ∀ t ∈ m.types,
      r.read receiver own (t.substitute (m.unhidden s)) =
        r.read receiver (r.readEach receiver [] (m.unhidden s) ++ own) t := by
  rw [ReadsOutside, MethodType.types_substitute, List.map_map]
  exact List.map_inj_left

theorem readsOutside_of_not_captures (h : ¬ r.Captures s m)
    (hown : ∀ v ∈ Table.keys own, v ∈ m.typeParams) : r.ReadsOutside receiver own s m := by
  refine readsOutside_iff.mpr fun t ht ↦ ?_
  rw [read_substitute]
  apply read_congr
  intro x hx
  rw [Table.get?_append, Table.get?_append, get?_readEach, get?_readEach]
  cases hd : Table.get? (m.unhidden s) x with
  | none => rfl
  | some d =>
    rw [Option.map_some, Option.map_some, Option.some_or, Option.some_or]
    refine congrArg some (read_congr fun y hy ↦ ?_)
    refine Table.get?_eq_none_of_not_mem_keys fun hmem ↦ h ?_
    exact ⟨t, ht, x, hx, d, hd, y, hy, hown y hmem⟩

def marked (m : MethodType) : TypeVars :=
  m.typeParams.map fun v ↦ (v, Ty.seen .nilClass [.nil])

theorem keys_marked (m : MethodType) : Table.keys (marked m) = m.typeParams := by
  rw [Table.keys, marked, List.map_map]
  exact List.map_id _

theorem samplesGiven_marked (m : MethodType) (x : String) :
    samplesGiven (marked m) x = if x ∈ m.typeParams then 1 else 0 := by
  rw [samplesGiven, marked]
  induction m.typeParams with
  | nil => rfl
  | cons v rest ih =>
    rw [List.map_cons, Table.get?_cons]
    by_cases hx : x = v
    · simp [hx, Ty.seen, Ty.ofMember, Ty.sampleCount_eq, Ty.members, Member.sampleCount_eq,
        Member.samples, Member.rawParams, paramTotal]
    · simp [hx, ih]

theorem sampleCount_read_substitute (s : Substitution) (e : TypeExpr) :
    (r.read Ty.object vars (e.substitute s)).sampleCount =
      ((r.lookups e).map fun x ↦ (r.read Ty.object vars (.image s x)).sampleCount).sum := by
  simp only [sampleCount_read, lookups_substitute, List.flatMap_def, List.map_flatten,
    List.sum_flatten, List.map_map, Function.comp_def]

theorem sampleCount_read_nil (e : TypeExpr) : (r.read Ty.object [] e).sampleCount = 0 := by
  rw [sampleCount_read]
  exact List.sum_map_zero

theorem one_le_sampleCount_read {e : TypeExpr} {y : String} (hy : y ∈ r.lookups e)
    (hown : y ∈ m.typeParams) : 1 ≤ (r.read Ty.object (marked m) e).sampleCount := by
  rw [sampleCount_read]
  apply List.le_sum_of_mem
  exact List.mem_map.mpr ⟨y, hy, (samplesGiven_marked m y).trans (if_pos hown)⟩

theorem not_readsOutside_of_captures (h : r.Captures s m) :
    ¬ r.ReadsOutside Ty.object (marked m) s m := by
  obtain ⟨t, ht, x, hx, d, hd, y, hy, hown⟩ := h
  intro hreads
  have hcounts := congrArg Ty.sampleCount (readsOutside_iff.mp hreads t ht)
  rw [sampleCount_read_substitute, sampleCount_read] at hcounts
  -- read outside the method, what replaces a variable holds no samples
  have hreplaced {x : String} {d : TypeExpr} (hd : Table.get? (m.unhidden s) x = some d) :
      samplesGiven (r.readEach Ty.object [] (m.unhidden s) ++ marked m) x = 0 := by
    rw [samplesGiven, Table.get?_append, get?_readEach, hd]
    exact sampleCount_read_nil d
  refine absurd hcounts (Nat.ne_of_gt (List.sum_lt_sum _ _ (fun x _ ↦ ?_) ⟨x, hx, ?_⟩))
  · cases hd : Table.get? (m.unhidden s) x with
    | none =>
      rw [TypeExpr.image_of_none hd, sampleCount_read, samplesGiven, Table.get?_append,
        get?_readEach, hd]
      exact Nat.le_of_eq (List.sum_singleton).symm
    | some d =>
      rw [hreplaced hd]
      exact Nat.zero_le _
  · rw [hreplaced hd, TypeExpr.image_of_get? hd]
    exact one_le_sampleCount_read hy hown

/-- Where no type parameter of the method captures a variable, its declared types are read as
outside the method, whatever is given for the type parameters. Otherwise types can be given for all
of them so that some declared type is read differently. -/
theorem hygienic_unless_captures (r : Resolver) (s : Substitution) (m : MethodType) :
    (¬ r.Captures s m → ∀ receiver own, (∀ v ∈ Table.keys own, v ∈ m.typeParams) →
        r.ReadsOutside receiver own s m) ∧
      (r.Captures s m → ∃ receiver own, Table.keys own = m.typeParams ∧
        ¬ r.ReadsOutside receiver own s m) := by
  constructor
  · intro h receiver own hown
    exact readsOutside_of_not_captures h hown
  · intro h
    exact ⟨Ty.object, marked m, keys_marked m, not_readsOutside_of_captures h⟩

/-- `pick` takes anything and returns an element of its receiver. In a class of pairs nothing is
captured, but in one whose elements are called like the argument they are taken for it. -/
theorem hygienic_unless_captures_pick :
    let r : Resolver := { world := {} }
    let pick : MethodType :=
      { typeParams := ["U"], function := { required := [.var "U"], result := .var "Elem" } }
    let pairs : Substitution := [("Elem", .tuple [.var "K", .var "V"])]
    let boxed : Substitution := [("Elem", .var "U")]
    (¬ r.Captures pairs pick ∧ ∀ receiver t, r.ReadsOutside receiver [("U", t)] pairs pick) ∧
      (r.Captures boxed pick ∧ ∃ receiver own, Table.keys own = ["U"] ∧
        ¬ r.ReadsOutside receiver own boxed pick) := by
  intro r pick pairs boxed
  have hpairs : ¬ r.Captures pairs pick := by decide
  have hboxed : r.Captures boxed pick := by decide
  refine ⟨⟨hpairs, fun receiver t ↦ ?_⟩, hboxed, (hygienic_unless_captures r boxed pick).2 hboxed⟩
  exact (hygienic_unless_captures r pairs pick).1 hpairs receiver _ fun v hv ↦ hv

end Resolver

end FlowCompletion
