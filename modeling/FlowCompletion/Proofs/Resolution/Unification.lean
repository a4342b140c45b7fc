import FlowCompletion.Proofs.Signature.Substitution
import FlowCompletion.Proofs.Ty.Flattening
import FlowCompletion.Resolution.Unify
import FlowCompletion.Signature.Database
import FlowCompletion.Live.Builtins

namespace FlowCompletion

def InterfaceDecl.passed (i : InterfaceDecl) (args : List TypeExpr) : List (String × String) :=
  (i.typeParams.zip args).filterMap fun (param, arg) => (genericVar? arg).map (param, ·)

namespace Resolver

/-- Declared types inside a declared type beside the types that they are compared with: arguments
of a class beside the params of an instance, and members of a tuple beside the elements of an
array. -/
inductive Beside (r : Resolver) : TypeExpr → Ty → TypeExpr → Ty → Prop
  | here (e : TypeExpr) (t : Ty) : Beside r e t e t
  | argument {name : String} {args : List TypeExpr} {db : Database} {value : Ty} {m : Member}
      {param : String} {arg : TypeExpr} {t : Ty} {e : TypeExpr} {u : Ty}
      (hdb : r.database = some db) (hvalue : value.instance? = some m)
      (harg : (param, arg) ∈ (db.typeParams name).zip args)
      (hparam : m.param? r.world param = some t) (h : Beside r arg t e u) :
      Beside r (.classInstance name args) value e u
  | element {types : List TypeExpr} {value elem : Ty} {member : TypeExpr} {e : TypeExpr} {u : Ty}
      (hvalue : value.isInstanceOf .array = true) (helem : value.param? r.world "Elem" = some elem)
      (hmember : member ∈ types) (h : Beside r member elem e u) :
      Beside r (.tuple types) value e u

inductive Binds (r : Resolver) : Nat → List String → TypeExpr → Ty → String → Ty → Prop
  | asked {depth : Nat} {vars : List String} {e : TypeExpr} {t : Ty} {name : String} {u : Ty}
      (h : r.Beside e t (.var name) u) (hname : name ∈ vars) : Binds r depth vars e t name u
  | passed {depth : Nat} {vars : List String} {e : TypeExpr} {t : Ty} {interface : String}
      {args : List TypeExpr} {v : Ty} {i : InterfaceDecl} {param name : String}
      {method : String × MethodDef} {m : MethodType} {u : Ty}
      (h : r.Beside e t (.interface interface args) v)
      (hinterface : r.database.bind (·.interface? interface) = some i)
      (hpassed : (param, name) ∈ firstEntries (i.passed args))
      (hmethod : method ∈ i.methods) (hoverload : m ∈ method.2.overloads)
      (hresult : Binds r depth ((i.passed args).map Prod.fst) m.function.result
        (r.methodResult v method.1) param u) :
      Binds r (depth + 1) vars e t name u

/-- A variable is found although none is asked for. -/
def Escapes (r : Resolver) (e : TypeExpr) (t : Ty) (name : String) : Prop :=
  ∃ u, r.Binds interfaceDepth [] e t name u

variable {r : Resolver} {inside : String → List TypeExpr → Ty → List (String × Ty)}
  {vars : List String}

theorem mem_unifyArgs {params : List String} {args : List TypeExpr} {m : Member}
    {found : String × Ty} :
    found ∈ r.unifyArgs inside vars params args m ↔
      ∃ p ∈ params.zip args, ∃ t, m.param? r.world p.1 = some t ∧
        found ∈ r.unifyWith inside vars p.2 t := by
  induction args generalizing params with
  | nil => simp [unifyArgs]
  | cons arg rest ih =>
    cases params with
    | nil => simp [unifyArgs]
    | cons param params =>
      rw [unifyArgs, List.mem_append, ih, List.zip_cons_cons, List.exists_mem_cons_iff]
      refine or_congr_left ?_
      cases m.param? r.world param <;> simp

theorem mem_unifyAll {types : List TypeExpr} {value : Ty} {found : String × Ty} :
    found ∈ r.unifyAll inside vars types value ↔
      ∃ e ∈ types, found ∈ r.unifyWith inside vars e value := by
  induction types with
  | nil => simp [unifyAll]
  | cons e rest ih => rw [unifyAll, List.mem_append, ih, List.exists_mem_cons_iff]

theorem mem_unifyWith_classInstance {name : String} {args : List TypeExpr} {value : Ty}
    {found : String × Ty} :
    found ∈ r.unifyWith inside vars (.classInstance name args) value ↔
      ∃ db m, r.database = some db ∧ value.instance? = some m ∧
        ∃ p ∈ (db.typeParams name).zip args, ∃ t, m.param? r.world p.1 = some t ∧
          found ∈ r.unifyWith inside vars p.2 t := by
  rw [unifyWith]
  split
  next db m hdb hvalue => simp [hdb, hvalue, mem_unifyArgs]
  next hnone =>
    simp only [List.not_mem_nil, false_iff]
    rintro ⟨db, m, hdb, hvalue, -⟩
    exact hnone db m hdb hvalue

theorem mem_unifyWith_tuple {types : List TypeExpr} {value : Ty} {found : String × Ty} :
    found ∈ r.unifyWith inside vars (.tuple types) value ↔
      value.isInstanceOf .array = true ∧ ∃ elem, value.param? r.world "Elem" = some elem ∧
        ∃ e ∈ types, found ∈ r.unifyWith inside vars e elem := by
  rw [unifyWith]
  split
  next h => cases value.param? r.world "Elem" <;> simp [h, mem_unifyAll]
  next h => simp [h]

theorem Beside.mem_unifyWith {e e' : TypeExpr} {t u : Ty} (h : r.Beside e t e' u)
    {found : String × Ty} (hfound : found ∈ r.unifyWith inside vars e' u) :
    found ∈ r.unifyWith inside vars e t := by
  induction h with
  | here => exact hfound
  | argument hdb hvalue harg hparam _ ih =>
    exact mem_unifyWith_classInstance.mpr
      ⟨_, _, hdb, hvalue, _, harg, _, hparam, ih hfound⟩
  | element hvalue helem hmember _ ih =>
    exact mem_unifyWith_tuple.mpr ⟨hvalue, _, helem, _, hmember, ih hfound⟩

theorem mem_unifyWith {e : TypeExpr} {t : Ty} {name : String} {u : Ty} :
    (name, u) ∈ r.unifyWith inside vars e t ↔
      (name ∈ vars ∧ r.Beside e t (.var name) u) ∨
        ∃ interface args v, r.Beside e t (.interface interface args) v ∧
          (name, u) ∈ inside interface args v := by
  constructor
  · intro hfound
    induction e using TypeExpr.induct generalizing t with
    | plain e h =>
      cases e with
      | union | intersection | optional | tuple | record | var | classInstance | interface =>
        cases h
      | _ => cases hfound
    | union | intersection | optional | record => cases hfound
    | var other =>
      rw [unifyWith] at hfound
      split at hfound
      next hother =>
        obtain ⟨rfl, rfl⟩ := Prod.mk.inj (List.mem_singleton.mp hfound)
        exact .inl ⟨hother, .here ..⟩
      next => cases hfound
    | interface other args =>
      rw [unifyWith] at hfound
      exact .inr ⟨other, args, t, .here .., hfound⟩
    | classInstance cls args ih =>
      obtain ⟨db, m, hdb, hvalue, p, hp, s, hs, hfound⟩ := mem_unifyWith_classInstance.mp hfound
      rcases ih p.2 (List.of_mem_zip hp).2 hfound with ⟨hname, h⟩ | ⟨i, args, v, h, hinside⟩
      · exact .inl ⟨hname, .argument hdb hvalue hp hs h⟩
      · exact .inr ⟨i, args, v, .argument hdb hvalue hp hs h, hinside⟩
    | tuple types ih =>
      obtain ⟨hvalue, elem, helem, e, he, hfound⟩ := mem_unifyWith_tuple.mp hfound
      rcases ih e he hfound with ⟨hname, h⟩ | ⟨i, args, v, h, hinside⟩
      · exact .inl ⟨hname, .element hvalue helem he h⟩
      · exact .inr ⟨i, args, v, .element hvalue helem he h, hinside⟩
  · rintro (⟨hname, h⟩ | ⟨i, args, v, h, hinside⟩)
    · refine h.mem_unifyWith ?_
      rw [unifyWith, if_pos hname]
      exact List.mem_singleton_self _
    · refine h.mem_unifyWith ?_
      rwa [unifyWith]

theorem eq_var_of_genericVar? {e : TypeExpr} {name : String} (h : genericVar? e = some name) :
    e = .var name := by
  cases e with
  | var other => exact congrArg TypeExpr.var (Option.some.inj h)
  | _ => cases h

theorem mem_of_mem_firstEntries {α : Type} {l : List (String × α)} {entry : String × α}
    (h : entry ∈ firstEntries l) : entry ∈ l := by
  induction l with
  | nil => cases h
  | cons first rest ih =>
    rw [firstEntries, List.mem_cons, List.mem_filter] at h
    rcases h with rfl | ⟨h, -⟩
    · exact List.mem_cons_self
    · exact List.mem_cons_of_mem _ (ih h)

theorem mem_unifyInterface {unify : List String → TypeExpr → Ty → List (String × Ty)}
    {interface : String} {args : List TypeExpr} {v : Ty} {name : String} {u : Ty} :
    (name, u) ∈ r.unifyInterface unify interface args v ↔
      ∃ i, r.database.bind (·.interface? interface) = some i ∧
        ∃ param, (param, name) ∈ firstEntries (i.passed args) ∧
          ∃ method ∈ i.methods, ∃ m ∈ method.2.overloads,
            (param, u) ∈ unify ((i.passed args).map Prod.fst) m.function.result
              (r.methodResult v method.1) := by
  rw [unifyInterface]
  split
  next hnone => simp [hnone]
  next i hi =>
    simp only [InterfaceDecl.passed, hi, Option.some.injEq, exists_eq_left',
      List.mem_ite_nil_left, List.mem_flatMap, List.mem_map, List.mem_filter, decide_eq_true_eq]
    generalize (i.typeParams.zip args).filterMap _ = passed
    constructor
    · rintro ⟨-, entry, hentry, found, ⟨⟨method, hmethod, m, hm, hfound⟩, hparam⟩, heq⟩
      obtain ⟨rfl, rfl⟩ := Prod.mk.inj heq
      exact ⟨entry.1, hentry, method, hmethod, m, hm, hparam ▸ hfound⟩
    · rintro ⟨param, hparam, method, hmethod, m, hm, hfound⟩
      refine ⟨fun hempty ↦ ?_, (param, name), hparam, (param, u),
        ⟨⟨method, hmethod, m, hm, hfound⟩, rfl⟩, rfl⟩
      rw [List.isEmpty_iff.mp hempty] at hparam
      cases hparam

theorem mem_unifyAt {depth : Nat} {e : TypeExpr} {t : Ty} {name : String} {u : Ty} :
    (name, u) ∈ r.unifyAt depth vars e t ↔ r.Binds depth vars e t name u := by
  induction depth generalizing vars e t name u with
  | zero =>
    rw [unifyAt, mem_unifyWith]
    constructor
    · rintro (⟨hname, h⟩ | ⟨i, args, v, -, hinside⟩)
      · exact .asked h hname
      · cases hinside
    · rintro ⟨h, hname⟩
      exact .inl ⟨hname, h⟩
  | succ depth ih =>
    simp only [unifyAt, mem_unifyWith, mem_unifyInterface, ih]
    constructor
    · rintro (⟨hname, h⟩ |
        ⟨interface, args, v, h, i, hi, param, hparam, method, hmethod, m, hm, hb⟩)
      · exact .asked h hname
      · exact .passed h hi hparam hmethod hm hb
    · intro h
      cases h with
      | asked h hname => exact .inl ⟨hname, h⟩
      | passed h hi hparam hmethod hm hb =>
        exact .inr ⟨_, _, _, h, _, hi, _, hparam, _, hmethod, _, hm, hb⟩

theorem mem_names_unify {exprs : List TypeExpr} {values : List Ty} {name : String} :
    name ∈ (r.unify vars exprs values).map Prod.fst ↔
      ∃ p ∈ exprs.zip values, ∃ u, r.Binds interfaceDepth vars p.1 p.2 name u := by
  simp only [unify, names_mergeParams, mem_firsts, List.map_flatMap, List.mem_flatMap, List.mem_map,
    Prod.exists, exists_and_right, exists_eq_right, mem_unifyAt]

theorem binds_iff {depth : Nat} {e : TypeExpr} {t : Ty} {name : String} {u : Ty} :
    r.Binds depth vars e t name u ↔
      (name ∈ vars ∧ r.Beside e t (.var name) u) ∨ r.Binds depth [] e t name u := by
  constructor
  · intro h
    cases h with
    | asked h hname => exact .inl ⟨hname, h⟩
    | passed h hi hparam hmethod hm hb => exact .inr (.passed h hi hparam hmethod hm hb)
  · rintro (⟨hname, h⟩ | h)
    · exact .asked h hname
    · cases h with
      | asked _ hname => cases hname
      | passed h hi hparam hmethod hm hb => exact .passed h hi hparam hmethod hm hb

theorem Escapes.exists_interface {e : TypeExpr} {t : Ty} {name : String} (h : r.Escapes e t name) :
    ∃ interface args v, r.Beside e t (.interface interface args) v ∧ .var name ∈ args := by
  obtain ⟨u, h⟩ := h
  cases h with
  | asked _ hname => cases hname
  | passed h hi hparam =>
    obtain ⟨p, hp, heq⟩ := List.mem_filterMap.mp (mem_of_mem_firstEntries hparam)
    obtain ⟨var, hvar, heq⟩ := Option.map_eq_some_iff.mp heq
    obtain ⟨-, rfl⟩ := Prod.mk.inj heq
    exact ⟨_, _, _, h, eq_var_of_genericVar? hvar ▸ (List.of_mem_zip hp).2⟩

/-- Variables that escape are found besides those that are asked for, so that the latter alone are
found exactly if they include the former. Nothing escapes but what is given to an interface. -/
theorem unify_beyond_vars (r : Resolver) (vars : List String) (exprs : List TypeExpr)
    (values : List Ty) :
    (∀ name, name ∈ (r.unify vars exprs values).map Prod.fst ↔
      ∃ p ∈ exprs.zip values,
        (name ∈ vars ∧ ∃ u, r.Beside p.1 p.2 (.var name) u) ∨ r.Escapes p.1 p.2 name) ∧
    ((∀ name ∈ (r.unify vars exprs values).map Prod.fst, name ∈ vars) ↔
      ∀ p ∈ exprs.zip values, ∀ name, r.Escapes p.1 p.2 name → name ∈ vars) ∧
    ∀ p ∈ exprs.zip values, ∀ name, r.Escapes p.1 p.2 name →
      ∃ interface args v, r.Beside p.1 p.2 (.interface interface args) v ∧ .var name ∈ args := by
  have hnames (name : String) : name ∈ (r.unify vars exprs values).map Prod.fst ↔
      ∃ p ∈ exprs.zip values,
        (name ∈ vars ∧ ∃ u, r.Beside p.1 p.2 (.var name) u) ∨ r.Escapes p.1 p.2 name := by
    rw [mem_names_unify]
    refine exists_congr fun p ↦ and_congr_right fun _ ↦ ?_
    rw [Escapes, ← exists_and_left, ← exists_or]
    exact exists_congr fun u ↦ binds_iff
  refine ⟨hnames, ⟨fun h p hp name hname ↦ ?_, fun h name hname ↦ ?_⟩, fun p _ name hname ↦ ?_⟩
  · exact h name ((hnames name).mpr ⟨p, hp, .inr hname⟩)
  · obtain ⟨p, hp, ⟨hvars, -⟩ | hescapes⟩ := (hnames name).mp hname
    · exact hvars
    · exact h p hp name hescapes
  · exact hname.exists_interface

/-- `interface _Front[T]` with `first: () -> T`, as `Array[Elem]` has it with its `Elem`. -/
def fronting : Resolver where
  world := World.initial
  database := some (({} : Database).extend {
    classes := [{ name := "Array", typeParams := ["Elem"], instanceMethods :=
      [("first", ⟨[{ function := { result := .var "Elem" } }], .pub⟩)] }]
    interfaces := [{ name := "_Front", typeParams := ["T"], methods :=
      [("first", ⟨[{ function := { result := .var "T" } }], .pub⟩)] }] })

theorem unify_beyond_vars_front :
    "Elem" ∈ (fronting.unify ["U"] [.interface "_Front" [.var "Elem"]]
        [.arrayOf [.integer]]).map Prod.fst ∧
      fronting.Escapes (.interface "_Front" [.var "Elem"]) (.arrayOf [.integer]) "Elem" := by
  obtain ⟨hnames, -, -⟩ := unify_beyond_vars fronting ["U"] [.interface "_Front" [.var "Elem"]]
    [.arrayOf [.integer]]
  have hfound : "Elem" ∈ (fronting.unify ["U"] [.interface "_Front" [.var "Elem"]]
      [.arrayOf [.integer]]).map Prod.fst := by
    decide +kernel
  obtain ⟨p, hp, hescapes⟩ := (hnames "Elem").mp hfound
  obtain rfl := List.mem_singleton.mp hp
  refine ⟨hfound, hescapes.resolve_left fun h ↦ ?_⟩
  exact absurd h.1 (by decide)

end Resolver

end FlowCompletion
