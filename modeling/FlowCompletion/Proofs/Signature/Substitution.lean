import FlowCompletion.Proofs.Table
import FlowCompletion.Signature.Method

namespace FlowCompletion

namespace TypeExpr

def isPlain : TypeExpr → Bool
  | .union _ | .intersection _ | .optional _ | .tuple _ | .record _ | .var _ | .classInstance _ _
  | .interface _ _ => false
  | _ => true

@[elab_as_elim]
theorem induct {P : TypeExpr → Prop} (plain : ∀ e, e.isPlain → P e) (var : ∀ name, P (.var name))
    (union : ∀ types, (∀ e ∈ types, P e) → P (.union types))
    (intersection : ∀ types, (∀ e ∈ types, P e) → P (.intersection types))
    (optional : ∀ inner, P inner → P (.optional inner))
    (tuple : ∀ types, (∀ e ∈ types, P e) → P (.tuple types))
    (record : ∀ fields, (∀ f ∈ fields, P f.2) → P (.record fields))
    (classInstance : ∀ name args, (∀ e ∈ args, P e) → P (.classInstance name args))
    (interface : ∀ name args, (∀ e ∈ args, P e) → P (.interface name args)) (e : TypeExpr) : P e :=
  @TypeExpr.rec P (fun types ↦ ∀ e ∈ types, P e) (fun fields ↦ ∀ f ∈ fields, P f.2) (fun f ↦ P f.2)
    (plain _ rfl) (plain _ rfl) (plain _ rfl) (plain _ rfl) (plain _ rfl) (plain _ rfl)
    (plain _ rfl) (plain _ rfl) (plain _ rfl) union intersection optional tuple record
    (fun _ ↦ plain _ rfl) var classInstance (fun _ ↦ plain _ rfl) interface (fun _ ↦ plain _ rfl)
    (plain _ rfl) (fun _ he ↦ by cases he) (fun _ _ he hrest ↦ List.forall_mem_cons.mpr ⟨he, hrest⟩)
    (fun _ hf ↦ by cases hf) (fun _ _ hf hrest ↦ List.forall_mem_cons.mpr ⟨hf, hrest⟩)
    (fun _ _ he ↦ he) e

@[simp] theorem mentionsAll_eq_flatMap (types : List TypeExpr) :
    mentionsAll types = types.flatMap mentions := by
  induction types with
  | nil => rfl
  | cons e rest ih => rw [mentionsAll, ih, List.flatMap_cons]

@[simp] theorem mentionsFields_eq_flatMap (fields : List (String × TypeExpr)) :
    mentionsFields fields = fields.flatMap fun field ↦ field.2.mentions := by
  induction fields with
  | nil => rfl
  | cons field rest ih => rw [mentionsFields, ih, List.flatMap_cons]

theorem substitute_of_isPlain {e : TypeExpr} (h : e.isPlain) (s : Substitution) :
    e.substitute s = e := by
  cases e with
  | union | intersection | optional | tuple | record | var | classInstance | interface => cases h
  | _ => rfl

theorem mentions_of_isPlain {e : TypeExpr} (h : e.isPlain) : e.mentions = [] := by
  cases e with
  | union | intersection | optional | tuple | record | var | classInstance | interface => cases h
  | _ => rfl

def image (s : Substitution) (name : String) : TypeExpr := (TypeExpr.var name).substitute s

theorem image_of_get? {s : Substitution} {name : String} {e : TypeExpr}
    (h : Table.get? s name = some e) : image s name = e := by
  rw [image, substitute, h, Option.getD_some]

theorem image_of_none {s : Substitution} {name : String} (h : Table.get? s name = none) :
    image s name = .var name := by
  rw [image, substitute, h, Option.getD_none]

theorem mentions_substitute (s : Substitution) (e : TypeExpr) :
    (e.substitute s).mentions = e.mentions.flatMap fun name ↦ (image s name).mentions := by
  have hall {types : List TypeExpr} (ih : ∀ e ∈ types, (e.substitute s).mentions =
        e.mentions.flatMap fun name ↦ (image s name).mentions) :
      (types.map (substitute s)).flatMap mentions =
        (types.flatMap mentions).flatMap fun name ↦ (image s name).mentions := by
    rw [List.flatMap_map, List.flatMap_assoc]
    exact List.flatMap_congr ih
  induction e using induct with
  | plain e h => rw [substitute_of_isPlain h, mentions_of_isPlain h, List.flatMap_nil]
  | var name => rw [mentions, List.flatMap_singleton, image]
  | optional inner ih => rw [substitute, mentions, ih, mentions]
  | record fields ih =>
    simp only [substitute, mentions, substituteFields_eq_map, mentionsFields_eq_flatMap,
      List.flatMap_map, List.flatMap_assoc]
    exact List.flatMap_congr ih
  | union types ih | intersection types ih | tuple types ih | classInstance name types ih
  | interface name types ih =>
    simpa only [substitute, mentions, substituteAll_eq_map, mentionsAll_eq_flatMap] using hall ih

end TypeExpr

theorem FunctionType.types_substitute (s : Substitution) (f : FunctionType) :
    (f.substitute s).types = f.types.map (TypeExpr.substitute s) := by
  simp only [types, substitute, List.map_append, List.map_map, List.map_cons, List.map_nil,
    Option.toList_map, Function.comp_def]

theorem BlockType.types_substitute (s : Substitution) (b : BlockType) :
    (b.substitute s).types = b.types.map (TypeExpr.substitute s) := by
  simp only [types, substitute, FunctionType.types_substitute, List.map_append, Option.toList_map]

namespace MethodType

/-- The part of a substitution that the method's own type parameters do not hide. -/
def unhidden (m : MethodType) (s : Substitution) : Substitution :=
  s.filter fun entry ↦ entry.1 ∉ m.typeParams

theorem types_substitute (s : Substitution) (m : MethodType) :
    (m.substitute s).types = m.types.map (TypeExpr.substitute (m.unhidden s)) := by
  simp only [types, substitute, FunctionType.types_substitute, List.map_append, Option.toList_map,
    List.flatMap_map, List.map_flatMap, BlockType.types_substitute, unhidden]

theorem get?_unhidden (m : MethodType) (s : Substitution) (name : String) :
    Table.get? (m.unhidden s) name = if name ∈ m.typeParams then none else Table.get? s name := by
  rw [unhidden, Table.get?_filter s fun key ↦ decide (key ∉ m.typeParams)]
  split <;> simp_all

theorem mem_freeVariables {m : MethodType} {name : String} :
    name ∈ m.freeVariables ↔ ∃ e ∈ m.types, name ∈ e.mentions := by
  rw [freeVariables, mem_firsts, List.mem_flatMap]

end MethodType

end FlowCompletion
