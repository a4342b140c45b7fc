import FlowCompletion.Proofs.Signature.Substitution

namespace FlowCompletion

/-- Does in one step what `s` and then `t` do. -/
def Substitution.andThen (s t : Substitution) : Substitution :=
  s.map (fun entry ↦ (entry.1, entry.2.substitute t)) ++ t

theorem Substitution.get?_andThen (s t : Substitution) (name : String) :
    Table.get? (s.andThen t) name =
      ((Table.get? s name).map (TypeExpr.substitute t)).or (Table.get? t name) := by
  rw [andThen, Table.get?_append, Table.get?_map]

namespace TypeExpr

variable {e : TypeExpr} {s t : Substitution}

theorem image_andThen (s t : Substitution) (name : String) :
    image (s.andThen t) name = (image s name).substitute t := by
  cases h : Table.get? s name with
  | none => rw [image_of_none h, image, substitute, substitute, Substitution.get?_andThen, h,
      Option.map_none, Option.none_or]
  | some d => rw [image_of_get? h, image, substitute, Substitution.get?_andThen, h,
      Option.map_some, Option.some_or, Option.getD_some]

theorem substitute_substitute (s t : Substitution) (e : TypeExpr) :
    (e.substitute s).substitute t = e.substitute (s.andThen t) := by
  induction e using induct with
  | plain e h => rw [substitute_of_isPlain h, substitute_of_isPlain h, substitute_of_isPlain h]
  | var name => exact (image_andThen s t name).symm
  | optional inner ih => rw [substitute, substitute, substitute, ih]
  | record fields ih =>
    simp only [substitute, substituteFields_eq_map, List.map_map, record.injEq]
    refine List.map_congr_left fun field hfield ↦ ?_
    exact Prod.ext rfl (ih field hfield)
  | union types ih | intersection types ih | tuple types ih | classInstance name types ih
  | interface name types ih =>
    simp only [substitute, substituteAll_eq_map, List.map_map]
    congr 1
    exact List.map_congr_left ih

theorem substitute_eq_iff :
    e.substitute s = e.substitute t ↔ ∀ name ∈ e.mentions, image s name = image t name := by
  have hall {types : List TypeExpr} (ih : ∀ e ∈ types,
        (e.substitute s = e.substitute t ↔ ∀ name ∈ e.mentions, image s name = image t name)) :
      types.map (substitute s) = types.map (substitute t) ↔
        ∀ name ∈ types.flatMap mentions, image s name = image t name := by
    rw [List.map_inj_left, List.forall_mem_flatMap]
    exact forall₂_congr ih
  induction e using induct with
  | plain e h =>
    rw [substitute_of_isPlain h, substitute_of_isPlain h, mentions_of_isPlain h]
    exact iff_of_true rfl (List.forall_mem_nil _)
  | var name => rw [mentions, List.forall_mem_singleton, image, image]
  | optional inner ih =>
    rw [substitute, substitute, mentions, optional.injEq]
    exact ih
  | record fields ih =>
    simp only [substitute, mentions, substituteFields_eq_map, mentionsFields_eq_flatMap,
      record.injEq, List.map_inj_left, List.forall_mem_flatMap, Prod.mk.injEq, true_and]
    exact forall₂_congr ih
  | union types ih | intersection types ih | tuple types ih | classInstance name types ih
  | interface name types ih =>
    simpa only [substitute, mentions, substituteAll_eq_map, mentionsAll_eq_flatMap, union.injEq,
      intersection.injEq, tuple.injEq, classInstance.injEq, interface.injEq, true_and] using hall ih

theorem mem_mentions_substitute {name : String} :
    name ∈ (e.substitute s).mentions ↔
      name ∈ e.mentions ∧ Table.get? s name = none ∨
        ∃ x ∈ e.mentions, ∃ d, Table.get? s x = some d ∧ name ∈ d.mentions := by
  have himage (x : String) :
      name ∈ (image s x).mentions ↔
        Table.get? s x = none ∧ name = x ∨ ∃ d, Table.get? s x = some d ∧ name ∈ d.mentions := by
    cases h : Table.get? s x with
    | none => simp [image_of_none h, mentions]
    | some d => simp [image_of_get? h]
  rw [mentions_substitute, List.mem_flatMap]
  simp only [himage, and_or_left, exists_or, ← and_assoc, exists_eq_right']

/-- Substitutions one after another are one substitution. It is determined by what it does to the
variables that a type mentions, and these are known after a substitution, too. -/
theorem substitutions_compose (s t : Substitution) (e : TypeExpr) :
    (∀ name, Table.get? (s.andThen t) name =
        ((Table.get? s name).map (substitute t)).or (Table.get? t name)) ∧
      (e.substitute s).substitute t = e.substitute (s.andThen t) ∧
      (∀ u, (e.substitute s).substitute t = e.substitute u ↔
        ∀ name ∈ e.mentions, (image s name).substitute t = image u name) ∧
      ∀ name, name ∈ (e.substitute s).mentions ↔
        name ∈ e.mentions ∧ Table.get? s name = none ∨
          ∃ x ∈ e.mentions, ∃ d, Table.get? s x = some d ∧ name ∈ d.mentions := by
  refine ⟨Substitution.get?_andThen s t, substitute_substitute s t e, fun u ↦ ?_,
    fun name ↦ mem_mentions_substitute⟩
  rw [substitute_substitute, substitute_eq_iff]
  simp only [image_andThen]

end TypeExpr

end FlowCompletion
