import FlowCompletion.Proofs.Ty.Sampled
import FlowCompletion.Resolution.Overload
import FlowCompletion.Resolution.Unify

namespace FlowCompletion

namespace Resolver

variable {r : Resolver} {receiver t : Ty}

theorem wellFormed_classOfMember (w : World) (x : Member) : (classOfMember w x).WellFormed := by
  cases x with
  | itself m =>
    rw [classOfMember]
    split <;> exact Ty.wellFormed_inst _
  | instanceOf cls _ _ _ => exact Ty.wellFormed_singleton cls

theorem wellFormed_instanceOfMember (w : World) (x : Member) :
    (instanceOfMember w x).WellFormed := by
  cases x with
  | itself m =>
    rw [instanceOfMember]
    split <;> exact Ty.wellFormed_inst _
  | instanceOf cls _ _ _ => exact Ty.wellFormed_inst cls

theorem wellFormed_readLiteral (value : Literal) : (readLiteral value).WellFormed := by
  cases value <;> exact Ty.wellFormed_inst _

theorem wellFormed_readAbbreviation (name : String) : (readAbbreviation name).WellFormed := by
  unfold readAbbreviation
  split
  · exact Ty.wellFormed_inst _
  · exact Ty.wellFormed_boolean
  · exact Ty.wellFormed_inst _
  · exact Ty.wellFormed_inst _

theorem wellFormed_readClass {name : String} {args : List Ty}
    (hargs : ∀ t ∈ args, t.WellFormed) : (r.readClass name args).WellFormed := by
  unfold readClass
  split
  · exact Ty.wellFormed_inst _
  split
  · exact Ty.wellFormed_inst _
  · refine Ty.wellFormed_instWith fun p hp ↦ ?_
    rcases List.mem_append.mp (List.of_mem_zip hp).2 with harg | hrest
    · exact hargs p.2 harg
    · rw [List.eq_of_mem_replicate hrest]
      exact Ty.wellFormed_inst _

mutual

theorem wellFormed_read {vars : TypeVars} (hreceiver : receiver.WellFormed)
    (hvars : ∀ v ∈ vars, v.2.WellFormed) : (e : TypeExpr) → (r.read receiver vars e).WellFormed
  | .self => hreceiver
  | .bottom | .nil | .any | .void | .top | .proc | .interface _ _ => Ty.wellFormed_inst _
  | .receiverClass => Ty.wellFormed_transform fun x _ ↦ wellFormed_classOfMember r.world x
  | .receiverInstance => Ty.wellFormed_transform fun x _ ↦ wellFormed_instanceOfMember r.world x
  | .bool => Ty.wellFormed_boolean
  | .union types | .intersection types =>
    Ty.wellFormed_union (wellFormed_readAll hreceiver hvars types)
  | .tuple types => Ty.wellFormed_arrayOf (wellFormed_readAll hreceiver hvars types)
  | .record _ => Ty.wellFormed_hashOf (Ty.wellFormed_inst _) (Ty.wellFormed_inst _)
  | .literal value => wellFormed_readLiteral value
  | .var name => by
    rw [read]
    refine Ty.WellFormed.getD (fun t ht ↦ ?_) (Ty.wellFormed_inst _)
    cases hget : Table.get? vars name with
    | some u =>
      rw [hget] at ht
      obtain rfl := Option.mem_some.mp ht
      exact hvars _ (Table.mem_of_get? hget)
    | none =>
      rw [hget] at ht
      exact Ty.wellFormed_of_mem_param? hreceiver ht
  | .optional inner => by
    have hinner := wellFormed_read hreceiver hvars inner
    rw [read]
    exact Ty.wellFormed_union (Ty.wellFormed_of_mem_pair hinner (Ty.wellFormed_inst _))
  | .abbreviation name => wellFormed_readAbbreviation name
  | .classInstance name args => wellFormed_readClass (wellFormed_readAll hreceiver hvars args)
  | .classSingleton name => by
    rw [read]
    cases r.class? name with
    | none => exact Ty.wellFormed_inst _
    | some cls => exact Ty.wellFormed_singleton cls

theorem wellFormed_readAll {vars : TypeVars} (hreceiver : receiver.WellFormed)
    (hvars : ∀ v ∈ vars, v.2.WellFormed) : (types : List TypeExpr) →
      ∀ t ∈ readAll r receiver vars types, t.WellFormed
  | [] => fun _ ht ↦ by cases ht
  | e :: rest => List.forall_mem_cons.mpr
    ⟨wellFormed_read hreceiver hvars e, wellFormed_readAll hreceiver hvars rest⟩

end

theorem wellFormed_of_mem_overloads {name : String} (ht : t.WellFormed) {o : Ty × MethodType}
    (ho : o ∈ r.overloads t name) : o.1.WellFormed := by
  obtain ⟨x, hx, ho⟩ := List.mem_flatMap.mp ho
  obtain ⟨m, -, rfl⟩ := List.mem_map.mp ho
  exact ht.ofMember hx

theorem wellFormed_methodResult (ht : t.WellFormed) (name : String) :
    (r.methodResult t name).WellFormed := by
  refine Ty.wellFormed_union fun u hu ↦ ?_
  obtain ⟨o, ho, rfl⟩ := List.mem_map.mp hu
  exact wellFormed_read (wellFormed_of_mem_overloads ht ho) (fun v hv ↦ by cases hv) _

/-- A way to lay declared types beside types finds only types in normal form. -/
def FindsNormal (find : TypeExpr → Ty → List (String × Ty)) : Prop :=
  ∀ e t, t.WellFormed → ∀ v ∈ find e t, v.2.WellFormed

theorem wellFormed_of_mem_unifyInterface
    {unify : List String → TypeExpr → Ty → List (String × Ty)}
    (hunify : ∀ vars, FindsNormal (unify vars)) {name : String} {args : List TypeExpr}
    (ht : t.WellFormed) : ∀ v ∈ r.unifyInterface unify name args t, v.2.WellFormed := by
  intro v hv
  unfold unifyInterface at hv
  split at hv
  · cases hv
  dsimp only at hv
  split at hv
  · cases hv
  obtain ⟨⟨param, var⟩, -, hv⟩ := List.mem_flatMap.mp hv
  obtain ⟨found, hfound, rfl⟩ := List.mem_map.mp hv
  obtain ⟨⟨method, d⟩, -, hfound⟩ := List.mem_flatMap.mp (List.mem_filter.mp hfound).1
  obtain ⟨m, -, hfound⟩ := List.mem_flatMap.mp hfound
  exact hunify _ _ _ (wellFormed_methodResult ht method) found hfound

def LooksNormal (inside : String → List TypeExpr → Ty → List (String × Ty)) : Prop :=
  ∀ name args t, t.WellFormed → ∀ v ∈ inside name args t, v.2.WellFormed

variable {inside : String → List TypeExpr → Ty → List (String × Ty)} {vars : List String}

mutual

theorem wellFormed_of_mem_unifyWith (hinside : LooksNormal inside) : (e : TypeExpr) → {t : Ty} →
    t.WellFormed → ∀ v ∈ r.unifyWith inside vars e t, v.2.WellFormed
  | .var name, t, ht => by
    intro v hv
    rw [unifyWith] at hv
    split at hv
    · rw [List.mem_singleton.mp hv]
      exact ht
    · cases hv
  | .classInstance name args, t, ht => by
    intro v hv
    rw [unifyWith] at hv
    split at hv
    next db x hdb hx =>
      have hmember := ht.ofMember (Ty.mem_members_of_instance? hx)
      exact wellFormed_of_mem_unifyArgs hinside args hmember v hv
    next => cases hv
  | .tuple types, t, ht => by
    intro v hv
    rw [unifyWith] at hv
    split at hv
    · split at hv
      next elem helem =>
        have hparam := Ty.wellFormed_of_mem_param? ht helem
        exact wellFormed_of_mem_unifyAll hinside types hparam v hv
      next => cases hv
    · cases hv
  | .interface name args, t, ht => hinside name args t ht
  | .self, _, _ | .bottom, _, _ | .nil, _, _ | .any, _, _ | .void, _, _ | .top, _, _
  | .receiverClass, _, _ | .receiverInstance, _, _ | .bool, _, _ | .union _, _, _
  | .intersection _, _, _ | .proc, _, _ | .record _, _, _ | .literal _, _, _ | .optional _, _, _
  | .abbreviation _, _, _ | .classSingleton _, _, _ => fun _ hv ↦ by cases hv

theorem wellFormed_of_mem_unifyArgs (hinside : LooksNormal inside) : (args : List TypeExpr) →
    {params : List String} → {x : Member} → (Ty.ofMember x).WellFormed →
      ∀ v ∈ r.unifyArgs inside vars params args x, v.2.WellFormed
  | [], _, _, _ => fun _ hv ↦ by cases hv
  | _ :: _, [], _, _ => fun _ hv ↦ by cases hv
  | arg :: rest, param :: params, x, hx => by
    intro v hv
    rw [unifyArgs] at hv
    rcases List.mem_append.mp hv with hv | hv
    · split at hv
      next u hu =>
        have hparam := Member.wellFormed_of_mem_param? hx hu
        exact wellFormed_of_mem_unifyWith hinside arg hparam v hv
      next => cases hv
    · exact wellFormed_of_mem_unifyArgs hinside rest hx v hv

theorem wellFormed_of_mem_unifyAll (hinside : LooksNormal inside) : (types : List TypeExpr) →
    {t : Ty} → t.WellFormed → ∀ v ∈ r.unifyAll inside vars types t, v.2.WellFormed
  | [], _, _ => fun _ hv ↦ by cases hv
  | e :: rest, t, ht => by
    intro v hv
    rw [unifyAll] at hv
    rcases List.mem_append.mp hv with hv | hv
    · exact wellFormed_of_mem_unifyWith hinside e ht v hv
    · exact wellFormed_of_mem_unifyAll hinside rest ht v hv

end

theorem findsNormal_unifyAt (depth : Nat) (vars : List String) :
    FindsNormal (r.unifyAt depth vars) := by
  induction depth generalizing vars with
  | zero =>
    have hinside : LooksNormal fun _ _ _ ↦ [] := fun _ _ _ _ _ hv ↦ by cases hv
    exact fun e t ht ↦ wellFormed_of_mem_unifyWith hinside e ht
  | succ depth ih =>
    have hinside : LooksNormal (r.unifyInterface (r.unifyAt depth)) :=
      fun _ _ _ ht ↦ wellFormed_of_mem_unifyInterface ih ht
    exact fun e t ht ↦ wellFormed_of_mem_unifyWith hinside e ht

theorem wellFormed_of_mem_unify {vars : List String} {exprs : List TypeExpr} {values : List Ty}
    (hvalues : ∀ t ∈ values, t.WellFormed) : ∀ v ∈ r.unify vars exprs values, v.2.WellFormed := by
  rintro ⟨name, t⟩ hv
  obtain ⟨-, rfl⟩ := mem_mergeParams.mp hv
  refine Ty.wellFormed_union fun u hu ↦ ?_
  obtain ⟨v, hv, rfl⟩ := List.mem_map.mp hu
  obtain ⟨⟨e, t⟩, het, hv⟩ := List.mem_flatMap.mp (List.mem_filter.mp hv).1
  exact findsNormal_unifyAt _ _ e t (hvalues t (List.of_mem_zip het).2) v hv

end Resolver

namespace Ty

variable {w : World} {t u : Ty} {name : String}

theorem wellFormed_of_mem_ofConversion? (h : u ∈ ofConversion? name) : u.WellFormed := by
  unfold ofConversion? at h
  split at h
  case h_12 => cases h
  all_goals
    obtain rfl := Option.mem_some.mp h
    exact wellFormed_inst _

theorem wellFormed_of_mem_ofReader? (h : u ∈ t.ofReader? w name) : u.WellFormed := by
  unfold ofReader? at h
  split at h
  · dsimp only at h
    split at h
    · cases h
    · obtain rfl := Option.mem_some.mp h
      exact wellFormed_ofObjects w _
  · cases h

end Ty

structure CallArguments.WellFormed (args : CallArguments) : Prop where
  positional : ∀ t, some t ∈ args.positional → t.WellFormed
  keywords : ∀ p ∈ args.keywords, p.2.WellFormed

structure MethodMatch.WellFormed (m : MethodMatch) : Prop where
  receiver : m.receiver.WellFormed
  given : ∀ t ∈ m.given, t.WellFormed

theorem FunctionType.wellFormed_of_mem_align (f : FunctionType) {args : List Ty}
    (hargs : ∀ t ∈ args, t.WellFormed) : ∀ t ∈ (f.align args).1, t.WellFormed := by
  intro t ht
  simp only [align, List.mem_append] at ht
  rcases ht with ((ht | ht) | ht) | ht
  · exact hargs t (List.mem_of_mem_take ht)
  · exact hargs t (List.mem_of_mem_take (List.mem_of_mem_drop (List.mem_of_mem_take ht)))
  · exact hargs t (List.mem_of_mem_drop ht)
  · obtain ⟨_, -, rfl⟩ := List.mem_map.mp ht
    refine Ty.wellFormed_union fun u hu ↦ hargs u ?_
    exact List.mem_of_mem_take (List.mem_of_mem_drop (List.mem_of_mem_drop hu))

namespace Resolver

variable {r : Resolver} {receiver t : Ty} {args : CallArguments}

theorem wellFormed_of_mem_positionalFor {f : FunctionType} (hargs : args.WellFormed)
    (ht : some t ∈ positionalFor f args) : t.WellFormed := by
  unfold positionalFor at ht
  split at ht
  · exact hargs.positional t ht
  · rcases List.mem_append.mp ht with ht | ht
    · exact hargs.positional t ht
    · obtain rfl := Option.some.inj (List.mem_singleton.mp ht)
      refine Ty.wellFormed_hashOf (Ty.wellFormed_inst _) (Ty.wellFormed_union fun u hu ↦ ?_)
      obtain ⟨p, hp, rfl⟩ := List.mem_map.mp hu
      exact hargs.keywords p hp

theorem wellFormed_matchOf (hargs : args.WellFormed) (hreceiver : receiver.WellFormed)
    (m : MethodType) : (r.matchOf args receiver m).WellFormed := by
  have hknown : ∀ t ∈ (positionalFor m.function args).filterMap id, t.WellFormed := by
    intro t ht
    obtain ⟨_, hmem, rfl⟩ := List.mem_filterMap.mp ht
    exact wellFormed_of_mem_positionalFor hargs hmem
  simp only [matchOf]
  split
  · exact ⟨hreceiver, fun _ ht ↦ by cases ht⟩
  split
  · exact ⟨hreceiver, m.function.wellFormed_of_mem_align hknown⟩
  · exact ⟨hreceiver, fun _ ht ↦ by cases ht⟩

theorem wellFormed_of_mem_resolveMethod {name : String} (ht : t.WellFormed)
    (hargs : args.WellFormed) : ∀ m ∈ r.resolveMethod t name args, m.WellFormed := by
  intro m hm
  obtain ⟨o, ho, rfl⟩ := List.mem_map.mp (List.mem_filter.mp hm).1
  exact wellFormed_matchOf hargs (wellFormed_of_mem_overloads ht ho) o.2

end Resolver

end FlowCompletion
