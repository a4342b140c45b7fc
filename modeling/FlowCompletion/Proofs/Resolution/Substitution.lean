import FlowCompletion.Proofs.Signature.Substitution
import FlowCompletion.Resolution.Reading

namespace FlowCompletion

namespace Resolver

variable {r : Resolver} {receiver : Ty} {vars vars' : TypeVars}

def arity (r : Resolver) (name : String) : Nat :=
  (r.class? name).elim 0 fun _ ↦ (r.typeParams name).length

mutual

/-- Every variable that is looked up when the type is read, as often as it is looked up. Records,
interfaces, unknown classes and arguments without a type parameter are not looked into. -/
def lookups (r : Resolver) : TypeExpr → List String
  | .var name => [name]
  | .union types => (lookupsEach r types).flatten
  | .intersection types => (lookupsEach r types).flatten
  | .tuple types => (lookupsEach r types).flatten
  | .optional inner => lookups r inner
  | .classInstance name args => ((lookupsEach r args).take (r.arity name)).flatten
  | _ => []

def lookupsEach (r : Resolver) : List TypeExpr → List (List String)
  | [] => []
  | e :: rest => lookups r e :: lookupsEach r rest

end

@[simp] theorem lookupsEach_eq_map (types : List TypeExpr) :
    lookupsEach r types = types.map (r.lookups) := by
  induction types with
  | nil => rfl
  | cons e rest ih => rw [lookupsEach, ih, List.map_cons]

theorem lookups_of_isPlain {e : TypeExpr} (h : e.isPlain) : r.lookups e = [] := by
  cases e with
  | union | intersection | optional | tuple | record | var | classInstance | interface => cases h
  | _ => rfl

theorem lookups_substitute (s : Substitution) (e : TypeExpr) :
    r.lookups (e.substitute s) = (r.lookups e).flatMap fun name ↦ r.lookups (.image s name) := by
  have hall {types : List TypeExpr} (ih : ∀ e ∈ types, r.lookups (e.substitute s) =
        (r.lookups e).flatMap fun name ↦ r.lookups (.image s name)) :
      (types.map (r.lookups ∘ TypeExpr.substitute s)).flatten =
        (types.map r.lookups).flatten.flatMap fun name ↦ r.lookups (.image s name) := by
    rw [← List.flatMap_def, ← List.flatMap_def, List.flatMap_assoc]
    exact List.flatMap_congr ih
  induction e using TypeExpr.induct with
  | plain e h =>
    rw [TypeExpr.substitute_of_isPlain h, lookups_of_isPlain h, List.flatMap_nil]
  | var name => rw [lookups, List.flatMap_singleton, TypeExpr.image]
  | optional inner ih => rw [TypeExpr.substitute, lookups, ih, lookups]
  | record fields | interface name args => rfl
  | union types ih | intersection types ih | tuple types ih =>
    simpa only [TypeExpr.substitute, lookups, TypeExpr.substituteAll_eq_map, lookupsEach_eq_map,
      List.map_map] using hall ih
  | classInstance name args ih =>
    have hread := hall fun e he ↦ ih e (List.mem_of_mem_take (i := r.arity name) he)
    simpa only [TypeExpr.substitute, lookups, TypeExpr.substituteAll_eq_map, lookupsEach_eq_map,
      List.map_map, List.map_take] using hread

def padded (r : Resolver) (name : String) (args : List Ty) : List Ty :=
  args.take (r.arity name) ++ List.replicate (r.arity name - args.length) Ty.object

theorem length_padded (name : String) (args : List Ty) :
    (r.padded name args).length = r.arity name := by
  simp only [padded, List.length_append, List.length_take, List.length_replicate]
  omega

theorem readClass_eq {name : String} {cls : ModuleId} (hcls : r.class? name = some cls)
    {args : List Ty} (hargs : args ≠ []) :
    r.readClass name args = Ty.instWith cls ((r.typeParams name).zip (r.padded name args)) := by
  have harity : r.arity name = (r.typeParams name).length := by rw [arity, hcls]; rfl
  rw [readClass, hcls]
  dsimp only
  rw [if_neg (by simpa using hargs), padded, harity]
  by_cases h : args.length ≤ (r.typeParams name).length
  · rw [List.take_of_length_le h]
  · have hlen : (r.typeParams name).length - args.length = 0 := by omega
    have hmin : min (r.typeParams name).length args.length = (r.typeParams name).length := by omega
    rw [hlen, List.replicate_zero, List.append_nil, List.append_nil, List.zip_eq_zip_take_min, hmin,
      List.take_length]

theorem readClass_congr {name : String} {args args' : List Ty} (hlen : args.length = args'.length)
    (h : args.take (r.arity name) = args'.take (r.arity name)) :
    r.readClass name args = r.readClass name args' := by
  cases hcls : r.class? name with
  | none => rw [readClass, readClass, hcls]
  | some cls =>
    by_cases hargs : args = []
    · have hargs' : args' = [] := List.length_eq_zero_iff.mp (by rw [← hlen, hargs]; rfl)
      rw [hargs, hargs']
    · have hargs' : args' ≠ [] := by
        rintro rfl
        exact hargs (List.length_eq_zero_iff.mp hlen)
      rw [readClass_eq hcls hargs, readClass_eq hcls hargs', padded, padded, h, hlen]

theorem read_of_isPlain {e : TypeExpr} (h : e.isPlain) (vars vars' : TypeVars) :
    r.read receiver vars e = r.read receiver vars' e := by
  cases e with
  | union | intersection | optional | tuple | record | var | classInstance | interface => cases h
  | _ => rfl

theorem read_congr {e : TypeExpr}
    (h : ∀ x ∈ r.lookups e, Table.get? vars x = Table.get? vars' x) :
    r.read receiver vars e = r.read receiver vars' e := by
  have hall {types : List TypeExpr}
      (ih : ∀ e ∈ types, (∀ x ∈ r.lookups e, Table.get? vars x = Table.get? vars' x) →
        r.read receiver vars e = r.read receiver vars' e)
      (h : ∀ x ∈ (types.map r.lookups).flatten, Table.get? vars x = Table.get? vars' x) :
      types.map (r.read receiver vars) = types.map (r.read receiver vars') := by
    refine List.map_congr_left fun e he ↦ ih e he fun x hx ↦ h x ?_
    exact List.mem_flatten.mpr ⟨_, List.mem_map_of_mem he, hx⟩
  induction e using TypeExpr.induct with
  | plain e hplain => exact read_of_isPlain hplain vars vars'
  | var name => rw [read, read, h name (List.mem_singleton_self name)]
  | optional inner ih => rw [read, read, ih h]
  | record fields | interface name args => rfl
  | union types ih | intersection types ih | tuple types ih =>
    simp only [lookups, lookupsEach_eq_map] at h
    simp only [read, readAll_eq_map, hall ih h]
  | classInstance name args ih =>
    simp only [lookups, lookupsEach_eq_map, ← List.map_take] at h
    simp only [read, readAll_eq_map]
    apply readClass_congr
    · rw [List.length_map, List.length_map]
    · rw [← List.map_take, ← List.map_take]
      exact hall (fun e he ↦ ih e (List.mem_of_mem_take he)) h

def readEach (r : Resolver) (receiver : Ty) (vars : TypeVars) (s : Substitution) : TypeVars :=
  s.map fun entry ↦ (entry.1, r.read receiver vars entry.2)

theorem get?_readEach (s : Substitution) (name : String) :
    Table.get? (r.readEach receiver vars s) name =
      (Table.get? s name).map (r.read receiver vars) := by
  induction s with
  | nil => rfl
  | cons entry s ih =>
    rw [readEach, List.map_cons, Table.get?_cons, Table.get?_cons]
    split
    · rfl
    · exact ih

theorem read_substitute (s : Substitution) (e : TypeExpr) :
    r.read receiver vars (e.substitute s) =
      r.read receiver (r.readEach receiver vars s ++ vars) e := by
  induction e using TypeExpr.induct with
  | plain e h => rw [TypeExpr.substitute_of_isPlain h, read_of_isPlain h]
  | var name =>
    rw [TypeExpr.substitute, read, Table.get?_append, get?_readEach]
    cases Table.get? s name with
    | none => rw [Option.getD_none, read, Option.map_none, Option.none_or]
    | some d => rfl
  | optional inner ih => rw [TypeExpr.substitute, read, ih, read]
  | record fields | interface name args => rfl
  | union types ih | intersection types ih | tuple types ih | classInstance name types ih =>
    simp only [TypeExpr.substitute, read, TypeExpr.substituteAll_eq_map, readAll_eq_map,
      List.map_map, Function.comp_def, List.map_congr_left ih]

/-- Replacing variables and then reading is reading with each of them given the type that its
replacement is read as. -/
theorem substitute_keeps_meaning (r : Resolver) (receiver : Ty) (vars vars' : TypeVars)
    (s : Substitution)
    (hnamed : ∀ x d, Table.get? s x = some d →
      Table.get? vars' x = some (r.read receiver vars d))
    (hothers : ∀ x, Table.get? s x = none → Table.get? vars' x = Table.get? vars x)
    (e : TypeExpr) :
    r.read receiver vars (e.substitute s) = r.read receiver vars' e := by
  rw [read_substitute]
  apply read_congr
  intro x _
  rw [Table.get?_append, get?_readEach]
  cases hx : Table.get? s x with
  | none => rw [hothers x hx, Option.map_none, Option.none_or]
  | some d => rw [hnamed x d hx, Option.map_some, Option.some_or]

theorem substitute_keeps_meaning_pairs :
    let r : Resolver := { world := {} }
    let receiver := Ty.hashOf Ty.symbol Ty.integer
    let s : Substitution := [("Elem", .tuple [.var "K", .var "V"])]
    let e : TypeExpr := .optional (.union [.var "Elem", .var "V"])
    let vars : TypeVars := [("V", Ty.string)]
    let vars' : TypeVars := [("Elem", Ty.arrayOf [Ty.symbol, Ty.string]), ("V", Ty.string)]
    (∀ x d, Table.get? s x = some d → Table.get? vars' x = some (r.read receiver vars d)) ∧
      (∀ x, Table.get? s x = none → Table.get? vars' x = Table.get? vars x) ∧
      r.read receiver vars (e.substitute s) = r.read receiver vars' e := by
  intro r receiver s e vars vars'
  have hnamed : ∀ x d, Table.get? s x = some d →
      Table.get? vars' x = some (r.read receiver vars d) := by
    intro x d hx
    obtain ⟨rfl, rfl⟩ := Prod.mk.inj (List.mem_singleton.mp (Table.mem_of_get? hx))
    rfl
  have hothers : ∀ x, Table.get? s x = none → Table.get? vars' x = Table.get? vars x := by
    intro x hx
    have hne : x ≠ "Elem" := by
      rintro rfl
      cases hx
    exact (Table.get?_cons _ _ _ _).trans (if_neg hne)
  exact ⟨hnamed, hothers, substitute_keeps_meaning r receiver vars vars' s hnamed hothers e⟩

end Resolver

end FlowCompletion
