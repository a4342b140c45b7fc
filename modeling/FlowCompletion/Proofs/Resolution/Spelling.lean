import FlowCompletion.Proofs.Resolution.Inversion

namespace FlowCompletion

namespace TypeExpr

/-- One class name in a declared type is spelt with colons in front; for a class whose instances are
meant, `allowed` says of the name and its arguments whether it may be. -/
inductive Respelt (allowed : String → List TypeExpr → Prop) : TypeExpr → TypeExpr → Prop
  | classInstance {name : String} {args : List TypeExpr} : allowed name args →
      Respelt allowed (.classInstance name args) (.classInstance ("::" ++ name) args)
  | classSingleton (name : String) :
      Respelt allowed (.classSingleton name) (.classSingleton ("::" ++ name))
  | argument {name : String} {before after : List TypeExpr} {e e' : TypeExpr} :
      Respelt allowed e e' → Respelt allowed (.classInstance name (before ++ e :: after))
        (.classInstance name (before ++ e' :: after))
  | interface {name : String} {before after : List TypeExpr} {e e' : TypeExpr} :
      Respelt allowed e e' → Respelt allowed (.interface name (before ++ e :: after))
        (.interface name (before ++ e' :: after))
  | union {before after : List TypeExpr} {e e' : TypeExpr} : Respelt allowed e e' →
      Respelt allowed (.union (before ++ e :: after)) (.union (before ++ e' :: after))
  | intersection {before after : List TypeExpr} {e e' : TypeExpr} : Respelt allowed e e' →
      Respelt allowed (.intersection (before ++ e :: after)) (.intersection (before ++ e' :: after))
  | tuple {before after : List TypeExpr} {e e' : TypeExpr} : Respelt allowed e e' →
      Respelt allowed (.tuple (before ++ e :: after)) (.tuple (before ++ e' :: after))
  | record {before after : List (String × TypeExpr)} {field : String} {e e' : TypeExpr} :
      Respelt allowed e e' → Respelt allowed (.record (before ++ (field, e) :: after))
        (.record (before ++ (field, e') :: after))
  | optional {e e' : TypeExpr} : Respelt allowed e e' →
      Respelt allowed (.optional e) (.optional e')

end TypeExpr

theorem length_eq_of_sameParams {same : Ty → Ty → Bool} {ps qs : List (String × Ty)}
    (h : sameParams same ps qs = true) : ps.length = qs.length := by
  rw [sameParams, Bool.and_eq_true, beq_iff_eq] at h
  exact h.1

theorem exists_of_sameParams {same : Ty → Ty → Bool} {ps qs : List (String × Ty)}
    (h : sameParams same ps qs = true) {p : String × Ty} (hp : p ∈ ps) :
    ∃ q ∈ qs, p.1 = q.1 ∧ same p.2 q.2 = true := by
  simp only [sameParams, Bool.and_eq_true, List.all_eq_true, List.any_eq_true, beq_iff_eq] at h
  exact h.2 p hp

theorem Ty.equal_instWith (w : World) (cls : ModuleId) (ps qs : List (String × Ty)) :
    (instWith cls ps).equal w (instWith cls qs) =
      sameParams (equalWithin w (equalityDepth - 1)) ps qs := by
  have hparams (ps : List (String × Ty)) : Member.params w (.instanceOf cls ps [] none) = ps :=
    Member.params_of_samples_eq_nil rfl
  rw [equal, equalityDepth, equalWithin, sameMembers]
  simp [instWith, ofMember, members, Member.same, hparams]

namespace Resolver

variable {r : Resolver} {receiver : Ty} {vars : TypeVars} {name : String}

/-- The class is found, but its type parameters are not the same under both spellings. -/
def TellsApart (r : Resolver) (name : String) : Prop :=
  (r.class? name).isSome ∧ r.typeParams ("::" ++ name) ≠ r.typeParams name

instance (r : Resolver) (name : String) : Decidable (r.TellsApart name) :=
  inferInstanceAs (Decidable (_ ∧ _))

def AsWell (r : Resolver) (name : String) (args : List TypeExpr) : Prop :=
  args = [] ∨ ¬ r.TellsApart name

theorem class?_colons (r : Resolver) (name : String) : r.class? ("::" ++ name) = r.class? name := by
  rw [class?, class?, String.toList_append]
  rfl

theorem readClass_colons {args : List Ty} (h : args = [] ∨ ¬ r.TellsApart name) :
    r.readClass ("::" ++ name) args = r.readClass name args := by
  rw [readClass, readClass, class?_colons]
  cases hcls : r.class? name with
  | none => rfl
  | some cls =>
    rcases h with rfl | h
    · rfl
    · have hparams : r.typeParams ("::" ++ name) = r.typeParams name := by
        by_contra hne
        exact h ⟨Option.isSome_iff_exists.mpr ⟨cls, hcls⟩, hne⟩
      rw [hparams]

theorem read_of_respelt {e e' : TypeExpr} (h : TypeExpr.Respelt r.AsWell e e') :
    r.read receiver vars e' = r.read receiver vars e := by
  induction h with
  | classInstance h =>
    rw [read, read, readAll_eq_map]
    exact readClass_colons (h.imp_left fun hargs ↦ List.map_eq_nil_iff.mpr hargs)
  | classSingleton name => rw [read, read, class?_colons]
  | argument _ ih | union _ ih | intersection _ ih | tuple _ ih =>
    simp only [read, readAll_eq_map, List.map_append, List.map_cons, ih]
  | interface | record => rfl
  | optional _ ih => rw [read, read, ih]

theorem arity_of_class? {cls : ModuleId} (hcls : r.class? name = some cls) :
    r.arity name = (r.typeParams name).length := by
  rw [arity, hcls]
  rfl

theorem read_classInstance {cls : ModuleId} (hcls : r.class? name = some cls)
    {args : List TypeExpr} (hargs : args ≠ []) :
    r.read receiver vars (.classInstance name args) = Ty.instWith cls
      ((r.typeParams name).zip (r.padded name (args.map (r.read receiver vars)))) := by
  rw [read, readAll_eq_map]
  exact readClass_eq hcls (mt List.map_eq_nil_iff.mp hargs)

theorem length_params_read {cls : ModuleId} (hcls : r.class? name = some cls) (args : List Ty) :
    ((r.typeParams name).zip (r.padded name args)).length = (r.typeParams name).length := by
  rw [List.length_zip, length_padded, arity_of_class? hcls, Nat.min_self]

theorem read_colons_of_length_ne (hcls : (r.class? name).isSome)
    (h : (r.typeParams ("::" ++ name)).length ≠ (r.typeParams name).length) {args : List TypeExpr}
    (hargs : args ≠ []) :
    (r.read receiver vars (.classInstance ("::" ++ name) args)).equal r.world
      (r.read receiver vars (.classInstance name args)) = false := by
  obtain ⟨cls, hcls⟩ := Option.isSome_iff_exists.mp hcls
  have hcolons : r.class? ("::" ++ name) = some cls := (class?_colons r name).trans hcls
  rw [read_classInstance hcolons hargs, read_classInstance hcls hargs, Ty.equal_instWith]
  refine Bool.eq_false_iff.mpr fun hsame ↦ h ?_
  have hlen := length_eq_of_sameParams hsame
  rwa [length_params_read hcolons, length_params_read hcls] at hlen

theorem params_read_split {cls : ModuleId} (hcls : r.class? name = some cls)
    {before after : List String} {p : String}
    (h : r.typeParams name = before ++ p :: after) :
    (r.typeParams name).zip (r.padded name (before.map (fun _ ↦ Ty.object) ++ [Ty.nil])) =
      before.map (·, Ty.object) ++ (p, Ty.nil) :: after.map (·, Ty.object) := by
  have harity : r.arity name = before.length + 1 + after.length := by
    rw [arity_of_class? hcls, h, List.length_append, List.length_cons]
    omega
  have hlen : (before.map (fun _ ↦ Ty.object) ++ [Ty.nil]).length = before.length + 1 := by simp
  have hpadded : r.padded name (before.map (fun _ ↦ Ty.object) ++ [Ty.nil]) =
      before.map (fun _ ↦ Ty.object) ++ Ty.nil :: after.map (fun _ ↦ Ty.object) := by
    rw [padded, harity, hlen, List.take_of_length_le (by omega), Nat.add_sub_cancel_left,
      List.map_const', List.map_const', List.append_assoc, List.singleton_append]
  have hzip (names : List String) :
      names.zip (names.map fun _ ↦ Ty.object) = names.map (·, Ty.object) := by
    rw [← List.zip_map', List.map_id']
  rw [hpadded, h, List.zip_append (List.length_map _).symm, List.zip_cons_cons, hzip, hzip]

theorem read_colons_of_split (hcls : (r.class? name).isSome) {before after after' : List String}
    {p q : String} (hbare : r.typeParams name = before ++ p :: after)
    (hcolons : r.typeParams ("::" ++ name) = before ++ q :: after') (hne : q ≠ p) :
    let args := before.map (fun _ ↦ TypeExpr.any) ++ [.nil]
    (r.read receiver vars (.classInstance ("::" ++ name) args)).equal r.world
      (r.read receiver vars (.classInstance name args)) = false := by
  intro args
  obtain ⟨cls, hcls⟩ := Option.isSome_iff_exists.mp hcls
  have hcls' : r.class? ("::" ++ name) = some cls := (class?_colons r name).trans hcls
  have hargs : args ≠ [] := List.append_ne_nil_of_right_ne_nil _ (List.cons_ne_nil _ _)
  have hread : args.map (r.read receiver vars) = before.map (fun _ ↦ Ty.object) ++ [Ty.nil] := by
    rw [List.map_append, List.map_map]
    rfl
  rw [read_classInstance hcls' hargs, read_classInstance hcls hargs, hread,
    params_read_split hcls hbare, params_read_split hcls' hcolons, Ty.equal_instWith]
  refine Bool.eq_false_iff.mpr fun hsame ↦ ?_
  obtain ⟨x, hx, hname, hsame⟩ :=
    exists_of_sameParams hsame (List.mem_append_right _ (List.mem_cons_self (a := (q, Ty.nil))))
  -- only what stands in the same place is `nil`, too
  have hother (names : List String) (hx : x ∈ names.map (·, Ty.object)) : False := by
    obtain ⟨other, -, rfl⟩ := List.mem_map.mp hx
    cases hsame
  rcases List.mem_append.mp hx with hx | hx
  · exact hother before hx
  · rcases List.mem_cons.mp hx with rfl | hx
    · exact hne hname
    · exact hother after hx

theorem exists_first_difference {ps qs : List String} (hlen : ps.length = qs.length) (h : ps ≠ qs) :
    ∃ before p q after after', ps = before ++ p :: after ∧ qs = before ++ q :: after' ∧ p ≠ q := by
  induction ps generalizing qs with
  | nil => exact absurd (List.length_eq_zero_iff.mp hlen.symm).symm h
  | cons p ps ih =>
    cases qs with
    | nil => cases hlen
    | cons q qs =>
      by_cases hpq : p = q
      · subst hpq
        obtain ⟨before, p', q', after, after', hps, hqs, hne⟩ :=
          ih (Nat.succ.inj hlen) fun heq ↦ h (congrArg (p :: ·) heq)
        exact ⟨p :: before, p', q', after, after', congrArg (p :: ·) hps, congrArg (p :: ·) hqs,
          hne⟩
      · exact ⟨[], p, q, ps, qs, rfl, rfl, hpq⟩

theorem exists_read_colons_ne (h : r.TellsApart name) :
    ∃ args, ∀ receiver vars, (r.read receiver vars (.classInstance ("::" ++ name) args)).equal
      r.world (r.read receiver vars (.classInstance name args)) = false := by
  obtain ⟨hcls, hne⟩ := h
  by_cases hlen : (r.typeParams ("::" ++ name)).length = (r.typeParams name).length
  · obtain ⟨before, q, p, after', after, hcolons, hbare, hpq⟩ := exists_first_difference hlen hne
    exact ⟨_, fun receiver vars ↦ read_colons_of_split hcls hbare hcolons hpq⟩
  · exact ⟨[.any], fun receiver vars ↦ read_colons_of_length_ne hcls hlen (List.cons_ne_nil _ _)⟩

/-- Names that are not told apart, or have no arguments, may be spelt with colons in front wherever
they stand in a declared type: it is read as the same type. Where the spellings are told apart they
may not: there are arguments with which another type is read, and where no type parameters are
declared under the longer name, as for a class declared under its bare name only, all arguments are
lost. -/
theorem absolute_unless_told_apart (r : Resolver) :
    (∀ e e', Relation.ReflTransGen (TypeExpr.Respelt r.AsWell) e e' → ∀ receiver vars,
      (r.read receiver vars e').equal r.world (r.read receiver vars e) = true) ∧
    (∀ name, r.TellsApart name → ∃ args, ∀ receiver vars,
      (r.read receiver vars (.classInstance ("::" ++ name) args)).equal r.world
        (r.read receiver vars (.classInstance name args)) = false) ∧
    ∀ name, r.TellsApart name → r.typeParams ("::" ++ name) = [] → ∀ args, args ≠ [] →
      ∀ receiver vars, (r.read receiver vars (.classInstance ("::" ++ name) args)).equal r.world
        (r.read receiver vars (.classInstance name args)) = false := by
  refine ⟨fun e e' h receiver vars ↦ ?_, fun name h ↦ exists_read_colons_ne h, ?_⟩
  · have hread : r.read receiver vars e' = r.read receiver vars e := by
      induction h with
      | refl => rfl
      | tail _ hstep ih => rw [read_of_respelt hstep, ih]
    rw [hread]
    exact Ty.equalWithin_self _ _
  · rintro name ⟨hcls, hne⟩ hnone args hargs receiver vars
    refine read_colons_of_length_ne hcls (fun hlen ↦ hne ?_) hargs
    rw [hnone] at hlen ⊢
    exact (List.length_eq_zero_iff.mp hlen.symm).symm

/-- The elements of an array may be spelt either way, but the array itself may not: with colons in
front nothing is known about its elements. -/
theorem absolute_unless_told_apart_array :
    let integers : TypeExpr := .classInstance "Array" [.classInstance "Integer" []]
    (declaring.AsWell "Integer" [] ∧ ∀ receiver vars,
      (declaring.read receiver vars (.classInstance "Array" [.classInstance "::Integer" []])).equal
        declaring.world (declaring.read receiver vars integers) = true) ∧
    declaring.TellsApart "Array" ∧ declaring.typeParams "::Array" = [] ∧ ∀ receiver vars,
      (declaring.read receiver vars (.classInstance "::Array" [.classInstance "Integer" []])).equal
        declaring.world (declaring.read receiver vars integers) = false := by
  intro integers
  obtain ⟨hsame, -, hlost⟩ := absolute_unless_told_apart declaring
  have helement : declaring.AsWell "Integer" [] := .inl rfl
  have happart : declaring.TellsApart "Array" := by decide +kernel
  have hnone : declaring.typeParams "::Array" = [] := by decide +kernel
  refine ⟨⟨helement, hsame integers _ (.single ?_)⟩, happart, hnone,
    hlost "Array" happart hnone _ (List.cons_ne_nil _ _)⟩
  exact @TypeExpr.Respelt.argument _ "Array" [] [] _ _ (.classInstance helement)

end Resolver

end FlowCompletion
