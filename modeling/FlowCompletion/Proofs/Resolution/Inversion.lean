import FlowCompletion.Proofs.Resolution.Substitution
import FlowCompletion.Proofs.Ty.Unsampled
import FlowCompletion.Resolution.Unify

namespace FlowCompletion

theorem given_map {l : List String} (f : String → Ty) (name : String) :
    given (l.map fun x ↦ (x, f x)) name = List.replicate (l.count name) (f name) := by
  rw [given, List.filter_map, List.map_map]
  have hfilter : l.filter ((fun p : String × Ty ↦ decide (p.1 = name)) ∘ fun x ↦ (x, f x)) =
      List.replicate (l.count name) name := List.filter_eq name
  rw [hfilter, List.map_replicate]
  rfl

namespace Resolver

/-- Built from variables and known classes, which declare their type params under different names
and no fewer than they are given. -/
inductive Applied (r : Resolver) : TypeExpr → Prop
  | var (name : String) : Applied r (.var name)
  | classInstance {name : String} {args : List TypeExpr} {cls : ModuleId}
      (known : r.class? name = some cls) (distinct : (r.typeParams name).Nodup)
      (enough : args.length ≤ (r.typeParams name).length) (inner : ∀ arg ∈ args, Applied r arg) :
      Applied r (.classInstance name args)

variable {r : Resolver} {inside : String → List TypeExpr → Ty → List (String × Ty)}
  {vars : List String} {receiver : Ty} {s : TypeVars}

theorem unifyArgs_eq_flatMap {params : List String} {args : List TypeExpr} {m : Member}
    {f : TypeExpr → Ty} (hlen : args.length ≤ params.length)
    (h : ∀ p ∈ params.zip args, m.param? r.world p.1 = some (f p.2)) :
    r.unifyArgs inside vars params args m =
      args.flatMap fun arg ↦ r.unifyWith inside vars arg (f arg) := by
  induction args generalizing params with
  | nil => rw [unifyArgs, List.flatMap_nil]
  | cons arg args ih =>
    cases params with
    | nil => cases hlen
    | cons param params =>
      obtain ⟨hfirst, hrest⟩ := List.forall_mem_cons.mp h
      rw [unifyArgs, hfirst, ih (Nat.le_of_succ_le_succ hlen) hrest, List.flatMap_cons]

theorem mem_zip_append {α β : Type} {as : List α} {bs : List β} {p : α × β} (h : p ∈ as.zip bs)
    (cs : List β) : p ∈ as.zip (bs ++ cs) := by
  obtain ⟨i, hi⟩ := List.getElem?_of_mem h
  obtain ⟨ha, hb⟩ := List.getElem?_zip_eq_some.mp hi
  refine List.mem_of_getElem? (List.getElem?_zip_eq_some.mpr ⟨ha, ?_⟩)
  rwa [List.getElem?_append_left (List.getElem?_eq_some_iff.mp hb).1]

theorem param?_zip {names : List String} (hnames : names.Nodup) {types : List Ty}
    (hlen : names.length ≤ types.length) {cls : ModuleId} {p : String × Ty}
    (hp : p ∈ names.zip types) :
    Member.param? r.world (.instanceOf cls (names.zip types) [] none) p.1 = some p.2 := by
  rw [Member.param?, Member.params_of_samples_eq_nil rfl]
  refine Table.get?_of_mem ?_ hp
  rwa [Table.keys, Member.rawParams, List.map_fst_zip hlen]

theorem unifyWith_classInstance {name : String} {args : List TypeExpr} {cls : ModuleId}
    (known : r.class? name = some cls) (distinct : (r.typeParams name).Nodup)
    (enough : args.length ≤ (r.typeParams name).length) :
    r.unifyWith inside vars (.classInstance name args)
        (r.read receiver s (.classInstance name args)) =
      args.flatMap fun arg ↦ r.unifyWith inside vars arg (r.read receiver s arg) := by
  -- without arguments a class is read without params, and there is nothing to lay beside them
  by_cases hargs : args = []
  · subst hargs
    rw [unifyWith]
    split
    · rw [unifyArgs, List.flatMap_nil]
    · rfl
  cases hdb : r.database with
  | none =>
    rw [typeParams, hdb] at enough
    exact absurd (List.length_eq_zero_iff.mp (Nat.le_zero.mp enough)) hargs
  | some db =>
    have hparams : r.typeParams name = db.typeParams name := by
      rw [typeParams, hdb]
      rfl
    have harity : r.arity name = (r.typeParams name).length := by
      rw [arity, known]
      rfl
    rw [read, readAll_eq_map, readClass_eq known (mt List.map_eq_nil_iff.mp hargs), unifyWith, hdb]
    refine unifyArgs_eq_flatMap (hparams ▸ enough) fun p hp ↦ ?_
    refine param?_zip distinct (length_padded _ _ ▸ harity ▸ Nat.le_refl _)
      (p := (p.1, r.read receiver s p.2)) ?_
    rw [padded, List.take_of_length_le (by rwa [List.length_map, harity])]
    apply mem_zip_append
    rw [List.zip_map_right, hparams]
    exact List.mem_map.mpr ⟨p, hp, rfl⟩

theorem unifyWith_read {e : TypeExpr} (h : r.Applied e) (hvars : e.mentions ⊆ vars) :
    r.unifyWith inside vars e (r.read receiver s e) =
      e.mentions.map fun x ↦ (x, r.read receiver s (.var x)) := by
  induction h with
  | var name =>
    rw [unifyWith, if_pos (hvars (List.mem_singleton_self name))]
    rfl
  | classInstance known distinct enough _ ih =>
    rw [TypeExpr.mentions, TypeExpr.mentionsAll_eq_flatMap] at hvars ⊢
    rw [unifyWith_classInstance known distinct enough, List.map_flatMap]
    refine List.flatMap_congr fun arg harg ↦ ih arg harg fun x hx ↦ hvars ?_
    exact List.mem_flatMap.mpr ⟨arg, harg, hx⟩

theorem unify_read {e : TypeExpr} (h : r.Applied e) (hvars : e.mentions ⊆ vars) :
    r.unify vars [e] [r.read receiver s e] =
      mergeParams Ty.union (e.mentions.map fun x ↦ (x, r.read receiver s (.var x))) := by
  rw [unify, List.zip_cons_cons, List.zip_nil_right, List.flatMap_singleton]
  exact congrArg _ (unifyWith_read h hvars)

theorem read_var {x : String} {t : Ty} (h : Table.get? s x = some t) :
    r.read receiver s (.var x) = t := by
  rw [read, h]
  rfl

/-- The variables of a declared type that is read and laid beside the result are found again, and no
others. The type found for a variable is equal to the one that was given for it just if the variable
is mentioned once or the type names the params of its instances apart. -/
theorem unify_undoes_read (r : Resolver) (receiver : Ty) (s : TypeVars) {e : TypeExpr}
    (he : r.Applied e)
    (hs : ∀ x ∈ e.mentions, ∃ t, Table.get? s x = some t ∧ t.WellFormed ∧ t.sampleCount = 0) :
    let found := r.unify e.mentions [e] [r.read receiver s e]
    (∀ x, (Table.get? found x).isSome ↔ x ∈ e.mentions) ∧
      ∀ x t u, Table.get? s x = some t → Table.get? found x = some u →
        (Ty.equal r.world u t = true ↔
          e.mentions.count x = 1 ∨ t.NamedWithin equalityDepth) := by
  intro found
  have hfound : found = mergeParams Ty.union
      (e.mentions.map fun x ↦ (x, r.read receiver s (.var x))) :=
    unify_read he (List.Subset.refl _)
  have hkeys : Table.keys found = firsts e.mentions := by
    rw [hfound, Table.keys, names_mergeParams, List.map_map]
    exact congrArg firsts (List.map_id _)
  have hiff (x : String) : (Table.get? found x).isSome ↔ x ∈ e.mentions := by
    rw [← Table.mem_keys, hkeys, mem_firsts]
  refine ⟨hiff, fun x t u ht hu ↦ ?_⟩
  have hx : x ∈ e.mentions := (hiff x).mp (by rw [hu]; rfl)
  obtain ⟨t', ht', hwf, hcount⟩ := hs x hx
  obtain rfl := Option.some.inj (ht.symm.trans ht')
  have hmem := Table.mem_of_get? hu
  rw [hfound, mem_mergeParams, given_map, read_var ht] at hmem
  rw [hmem.2, Ty.equal]
  exact Ty.equalWithin_union_replicate_iff (mt List.count_eq_zero.mp (not_not.mpr hx)) hwf hcount

def declaring : Resolver where
  world := World.initial
  database := some (({} : Database).extend {
    classes := [{ name := "Hash", typeParams := ["K", "V"] },
      { name := "Array", typeParams := ["Elem"] }] })

/-- `Hash[T, Array[T]]`. -/
def grouping : TypeExpr := .classInstance "Hash" [.var "T", .classInstance "Array" [.var "T"]]

theorem applied_grouping : declaring.Applied grouping := by
  have hhash : declaring.class? "Hash" = some .hash := by decide +kernel
  have harray : declaring.class? "Array" = some .array := by decide +kernel
  refine .classInstance hhash (by decide +kernel) (by decide +kernel) fun arg harg ↦ ?_
  rcases List.mem_pair.mp harg with rfl | rfl
  · exact .var "T"
  · refine .classInstance harray (by decide +kernel) (by decide +kernel) fun arg harg ↦ ?_
    obtain rfl := List.mem_singleton.mp harg
    exact .var "T"

theorem unify_undoes_read_grouping :
    let t := Ty.union [.integer, .arrayOf [.string]]
    let s : TypeVars := [("T", t)]
    declaring.Applied grouping ∧
      (∀ x ∈ grouping.mentions, ∃ t, Table.get? s x = some t ∧ t.WellFormed ∧ t.sampleCount = 0) ∧
      ∃ u, Table.get? (declaring.unify grouping.mentions [grouping]
          [declaring.read .object s grouping]) "T" = some u ∧
        Ty.equal declaring.world u t = true := by
  intro t s
  have hwf : t.WellFormed := Ty.wellFormed_union (Ty.wellFormed_of_mem_pair
    (Ty.wellFormed_inst _) (Ty.wellFormed_arrayOf (List.forall_mem_singleton.mpr
      (Ty.wellFormed_inst _))))
  have hs : ∀ x ∈ grouping.mentions,
      ∃ t, Table.get? s x = some t ∧ t.WellFormed ∧ t.sampleCount = 0 := by
    intro x hx
    have hname : x = "T" := by simpa [grouping, TypeExpr.mentions] using hx
    subst hname
    exact ⟨t, rfl, hwf, by decide +kernel⟩
  obtain ⟨hiff, hequal⟩ := unify_undoes_read declaring .object s applied_grouping hs
  obtain ⟨u, hu⟩ := Option.isSome_iff_exists.mp ((hiff "T").mpr (by decide +kernel))
  exact ⟨applied_grouping, hs, u, hu, (hequal "T" t u rfl hu).mpr (.inr (by decide +kernel))⟩

def givenTwice : Ty := .instWith .array [("Elem", .integer), ("Elem", .string)]

/-- Two params of one name are joined to one where the variable is mentioned again, so that the type
found is not the one given. -/
theorem unify_joins_params_of_one_name :
    (declaring.Applied grouping ∧ givenTwice.WellFormed ∧ givenTwice.sampleCount = 0) ∧
      ∃ u, Table.get? (declaring.unify grouping.mentions [grouping]
          [declaring.read .object [("T", givenTwice)] grouping]) "T" = some u ∧
        Ty.equal declaring.world u givenTwice = false := by
  have hwf : givenTwice.WellFormed := by
    refine Ty.wellFormed_instWith fun p hp ↦ ?_
    rcases List.mem_pair.mp hp with rfl | rfl <;> exact Ty.wellFormed_inst _
  refine ⟨⟨applied_grouping, hwf, by decide +kernel⟩, ?_⟩
  refine ⟨.instWith .array [("Elem", .union [.integer, .string])], ?_, by decide +kernel⟩
  rw [unify_read applied_grouping (List.Subset.refl _)]
  rfl

end Resolver

end FlowCompletion
