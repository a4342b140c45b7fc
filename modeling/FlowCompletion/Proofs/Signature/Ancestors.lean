import FlowCompletion.Proofs.Signature.Substitution
import FlowCompletion.Signature.Database

namespace FlowCompletion

def ClassDecl.supertypes (decl : ClassDecl) : List TypeRef :=
  decl.includes.reverse ++ decl.superclass.toList

namespace Database

variable {db : Database}

inductive Built : Database → Prop
  | empty : Built {}
  | addClass {db : Database} (h : db.Built) (decl : ClassDecl) : (db.addClass decl).Built
  | addInterface {db : Database} (h : db.Built) (decl : InterfaceDecl) :
      (db.addInterface decl).Built

theorem class?_addClass (db : Database) (decl : ClassDecl) (name : String) :
    (db.addClass decl).class? name =
      if name = decl.name then some ((db.class? decl.name).elim decl (·.merge decl))
      else db.class? name :=
  Table.get?_insert _ _ _ _

theorem Built.name_eq (h : db.Built) {name : String} {decl : ClassDecl}
    (hdecl : db.class? name = some decl) : decl.name = name := by
  induction h generalizing name decl with
  | empty => cases hdecl
  | addInterface _ _ ih => exact ih hdecl
  | @addClass db h new ih =>
    rw [class?_addClass] at hdecl
    split at hdecl
    case isFalse => exact ih hdecl
    case isTrue hname =>
      obtain rfl := Option.some.inj hdecl
      cases hknown : db.class? new.name with
      | none => exact hname.symm
      | some known => exact (ih hknown).trans hname.symm

theorem forall_mem_climb {P : Ancestor → Prop} {Q : TypeRef → Substitution → Prop}
    (hstep : ∀ {ref outer decl}, Q ref outer → db.class? ref.name = some decl →
      P ⟨decl.name, argumentsOf decl ref.args outer⟩ ∧
        ∀ next ∈ decl.supertypes, Q next (argumentsOf decl ref.args outer))
    (height : Nat) {found : List Ancestor} (hfound : ∀ a ∈ found, P a) {ref : TypeRef}
    {outer : Substitution} (hq : Q ref outer) : ∀ a ∈ db.climb height found (ref, outer), P a := by
  induction height generalizing found ref outer with
  | zero => exact hfound
  | succ height ih =>
    rw [climb]
    split
    case h_1 => exact hfound
    case h_2 decl hdecl =>
      split
      case isTrue => exact hfound
      case isFalse =>
        obtain ⟨hp, hnext⟩ := hstep hq hdecl
        refine List.foldlRecOn (motive := fun all ↦ ∀ a ∈ all, P a) _ _ ?_ ?_
        · intro a ha
          rcases List.mem_append.mp ha with ha | ha
          · exact hfound a ha
          · rw [List.mem_singleton.mp ha]
            exact hp
        · intro all hall mention hmention
          obtain ⟨next, hmem, rfl⟩ := List.mem_map.mp hmention
          exact ih hall (hnext next hmem)

end Database

/-- A declaration that gives every class it mentions all its type arguments, in the terms of its own
type parameters, and whose methods mention no variables but these and their own. -/
structure ClassDecl.Closed (db : Database) (decl : ClassDecl) : Prop where
  supplied : ∀ ref ∈ decl.supertypes, ∀ target ∈ db.class? ref.name,
    target.typeParams.length ≤ ref.args.length
  arguments : ∀ ref ∈ decl.supertypes, ∀ e ∈ ref.args, ∀ v ∈ e.mentions, v ∈ decl.typeParams
  methods : ∀ method ∈ decl.instanceMethods, ∀ o ∈ method.2.overloads, ∀ v ∈ o.freeVariables,
    v ∈ decl.typeParams ∨ v ∈ o.typeParams

instance (db : Database) (decl : ClassDecl) : Decidable (decl.Closed db) :=
  decidable_of_iff
    ((∀ ref ∈ decl.supertypes, ∀ target ∈ db.class? ref.name,
        target.typeParams.length ≤ ref.args.length) ∧
      (∀ ref ∈ decl.supertypes, ∀ e ∈ ref.args, ∀ v ∈ e.mentions, v ∈ decl.typeParams) ∧
      ∀ method ∈ decl.instanceMethods, ∀ o ∈ method.2.overloads, ∀ v ∈ o.freeVariables,
        v ∈ decl.typeParams ∨ v ∈ o.typeParams)
    ⟨fun ⟨hsupplied, harguments, hmethods⟩ ↦ ⟨hsupplied, harguments, hmethods⟩,
      fun h ↦ ⟨h.supplied, h.arguments, h.methods⟩⟩

namespace Database

variable {db : Database} {s outer : Substitution} {params typeParams : List String}

def Closed (db : Database) : Prop := ∀ name, ∀ decl ∈ db.class? name, decl.Closed db

theorem closed_of_forall_mem (h : ∀ entry ∈ db.classes, entry.2.Closed db) : db.Closed :=
  fun _ _ hdecl ↦ h _ (Table.mem_of_get? hdecl)

def Expresses (s : Substitution) (typeParams params : List String) : Prop :=
  ∀ v ∈ typeParams, ∀ y ∈ (TypeExpr.image s v).mentions, y ∈ params

theorem expresses_nil (params : List String) : Expresses [] params params := by
  intro v hv y hy
  rw [TypeExpr.image_of_none rfl] at hy
  rwa [List.mem_singleton.mp hy]

theorem Expresses.mentions (h : Expresses s typeParams params) {e : TypeExpr}
    (he : ∀ v ∈ e.mentions, v ∈ typeParams) : ∀ y ∈ (e.substitute s).mentions, y ∈ params := by
  intro y hy
  rw [TypeExpr.mentions_substitute] at hy
  obtain ⟨v, hv, hy⟩ := List.mem_flatMap.mp hy
  exact h v (he v hv) y hy

theorem Expresses.argumentsOf (h : Expresses outer typeParams params) {decl : ClassDecl}
    {args : List TypeExpr} (hlength : decl.typeParams.length ≤ args.length)
    (hargs : ∀ e ∈ args, ∀ v ∈ e.mentions, v ∈ typeParams) :
    Expresses (argumentsOf decl args outer) decl.typeParams params := by
  intro v hv
  have hkeys : v ∈ Table.keys (decl.typeParams.zip (args.map (TypeExpr.substitute outer))) := by
    rw [Table.keys, List.map_fst_zip (by simpa using hlength)]
    exact hv
  obtain ⟨e, he⟩ := Option.isSome_iff_exists.mp (Table.contains_ofList hkeys)
  have hmem := (List.of_mem_zip (Table.mem_of_mem_ofList (Table.mem_of_get? he))).2
  obtain ⟨arg, harg, rfl⟩ := List.mem_map.mp hmem
  rw [Database.argumentsOf, TypeExpr.image_of_get? he]
  exact h.mentions (hargs arg harg)

/-- The type parameters of a class are known in the terms of `params` where it is mentioned. -/
def SuppliedIn (db : Database) (params : List String) (ref : TypeRef) (outer : Substitution) :
    Prop :=
  ∀ decl ∈ db.class? ref.name,
    Expresses (Database.argumentsOf decl ref.args outer) decl.typeParams params

theorem expresses_of_mem_ancestors (hbuilt : db.Built) (h : db.Closed) {name : String} :
    ∀ a ∈ db.ancestors name, ∀ decl ∈ db.class? a.name,
      Expresses a.substitution decl.typeParams (db.typeParams name) := by
  refine forall_mem_climb (Q := db.SuppliedIn (db.typeParams name)) ?_ _ ?_ ?_
  · intro ref outer decl hq hdecl
    have hown := hq decl hdecl
    constructor
    · intro other hother
      have hself : db.class? decl.name = some decl := by rw [hbuilt.name_eq hdecl, hdecl]
      obtain rfl := Option.some.inj (hself.symm.trans hother)
      exact hown
    · intro next hnext target htarget
      have hclosed := h ref.name decl hdecl
      exact hown.argumentsOf (hclosed.supplied next hnext target htarget)
        (hclosed.arguments next hnext)
  · intro a ha
    cases ha
  · -- a class is in its own terms
    intro decl hdecl
    have hparams : db.typeParams name = decl.typeParams := by
      rw [Database.typeParams, Option.mem_def.mp hdecl]
    rw [hparams, Database.argumentsOf, List.map_nil, List.zip_nil_right]
    exact expresses_nil _

theorem Expresses.freeVariables (h : Expresses s typeParams params) {o : MethodType}
    (ho : ∀ v ∈ o.freeVariables, v ∈ typeParams ∨ v ∈ o.typeParams) :
    ∀ v ∈ (o.substitute s).freeVariables, v ∈ params ∨ v ∈ o.typeParams := by
  intro y hy
  obtain ⟨e, he, hy⟩ := MethodType.mem_freeVariables.mp hy
  rw [MethodType.types_substitute] at he
  obtain ⟨t, ht, rfl⟩ := List.mem_map.mp he
  rw [TypeExpr.mentions_substitute] at hy
  obtain ⟨v, hv, hy⟩ := List.mem_flatMap.mp hy
  by_cases hown : v ∈ o.typeParams
  · have hhidden : Table.get? (o.unhidden s) v = none := by
      rw [MethodType.get?_unhidden, if_pos hown]
    rw [TypeExpr.image_of_none hhidden] at hy
    rw [List.mem_singleton.mp hy]
    exact .inr hown
  · have himage : TypeExpr.image (o.unhidden s) v = TypeExpr.image s v := by
      rw [TypeExpr.image, TypeExpr.image, TypeExpr.substitute, TypeExpr.substitute,
        MethodType.get?_unhidden, if_neg hown]
    rw [himage] at hy
    have hmention : v ∈ o.freeVariables := MethodType.mem_freeVariables.mpr ⟨t, ht, hv⟩
    exact .inl (h v ((ho v hmention).resolve_right hown) y hy)

/-- In a closed database a method is found in the terms of the class that it is looked up for,
however far up it is declared: it mentions no variables but type parameters of the class and its
own. -/
theorem lookup_closed (hbuilt : db.Built) (h : db.Closed) {name method : String} {d : MethodDef}
    (hd : db.lookup name method false = some d) :
    ∀ o ∈ d.overloads, ∀ v ∈ o.freeVariables, v ∈ db.typeParams name ∨ v ∈ o.typeParams := by
  obtain ⟨⟨s, table⟩, htable, hfound⟩ := List.exists_of_findSome?_eq_some hd
  obtain ⟨a, ha, htable⟩ := List.mem_filterMap.mp htable
  obtain ⟨decl, hdecl, heq⟩ := Option.map_eq_some_iff.mp htable
  obtain ⟨rfl, rfl⟩ := Prod.mk.inj heq
  obtain ⟨declared, hmethod, rfl⟩ := Option.map_eq_some_iff.mp hfound
  have hexpresses := expresses_of_mem_ancestors hbuilt h a ha decl hdecl
  intro found hfound
  obtain ⟨o, ho, rfl⟩ := List.mem_map.mp hfound
  exact hexpresses.freeVariables
    ((h a.name decl hdecl).methods (method, declared) (Table.mem_of_get? hmethod) o ho)

/-- Hashes are enumerated as pairs. `Each` and `Enumerable` include each other. -/
def pairs : Database :=
  let each : ClassDecl :=
    { name := "Each", typeParams := ["T"], includes := [⟨"Enumerable", [.var "T"]⟩]
      instanceMethods := [("find", { overloads := [
        { typeParams := ["U"]
          function := { required := [.var "U"], result := .optional (.var "T") }
          block := some { function := { required := [.var "T"], result := .bool } } }] })] }
  let enumerable : ClassDecl :=
    { name := "Enumerable", typeParams := ["Elem"], includes := [⟨"Each", [.var "Elem"]⟩] }
  let hash : ClassDecl :=
    { name := "Hash", typeParams := ["K", "V"], superclass := some ⟨"Object", []⟩
      includes := [⟨"Enumerable", [.tuple [.var "K", .var "V"]]⟩] }
  ((({} : Database).addClass each).addClass enumerable).addClass hash

theorem lookup_closed_pairs :
    pairs.Built ∧ pairs.Closed ∧
      (pairs.lookup "Hash" "find" false).map (·.overloads.map MethodType.freeVariables) =
        some [["U", "K", "V"]] ∧
      ∀ d, pairs.lookup "Hash" "find" false = some d → ∀ o ∈ d.overloads, ∀ v ∈ o.freeVariables,
        v ∈ pairs.typeParams "Hash" ∨ v ∈ o.typeParams := by
  have hbuilt : pairs.Built := ((Built.empty.addClass _).addClass _).addClass _
  have hclosed : pairs.Closed := closed_of_forall_mem (by decide +kernel)
  exact ⟨hbuilt, hclosed, by decide +kernel, fun d hd ↦ lookup_closed hbuilt hclosed hd⟩

end Database

end FlowCompletion
