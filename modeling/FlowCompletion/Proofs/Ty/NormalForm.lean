import FlowCompletion.Proofs.Ty.Union

namespace FlowCompletion

namespace Ty

/-- One module, the instances of one class, or a union of types. -/
inductive Form where
  | singleton (m : ModuleId)
  | instanceOf (x : Member)
  | union (types : List Ty)

def form : Ty → Form
  | .of (.itself m) [] => .singleton m
  | .of x [] => .instanceOf x
  | .of first rest => .union ((first :: rest).map ofMember)

/-- Taken as a union, the type has at least two members, none of them a union. -/
def IsFlat (t : Ty) : Prop :=
  ∀ us, t.form = .union us → 2 ≤ us.length ∧ ∀ u ∈ us, ∀ vs, u.form ≠ .union vs

theorem form_ofMember_ne_union (x : Member) (us : List Ty) : (ofMember x).form ≠ .union us := by
  cases x <;> exact Form.noConfusion

theorem isFlat (t : Ty) : t.IsFlat := by
  rintro us h
  obtain ⟨first, rest⟩ := t
  cases rest with
  | nil => exact absurd h (form_ofMember_ne_union first us)
  | cons second rest =>
    obtain rfl : (first :: second :: rest).map ofMember = us := by
      cases first <;> exact Form.union.inj h
    refine ⟨by simp, fun u hu vs ↦ ?_⟩
    obtain ⟨x, -, rfl⟩ := List.mem_map.mp hu
    exact form_ofMember_ne_union x vs

inductive WellFormed : Ty → Prop
  | intro {t : Ty} (flat : t.IsFlat) (distinct : t.kinds.Nodup)
      (params : ∀ x ∈ t.members, ∀ p ∈ x.rawParams, p.2.WellFormed) : t.WellFormed

theorem WellFormed.of_mem {t : Ty} (h : t.WellFormed) {x : Member} (hx : x ∈ t.members)
    {p : String × Ty} (hp : p ∈ x.rawParams) : p.2.WellFormed := by
  cases h with
  | intro _ _ params => exact params x hx p hp

theorem wellFormed_ofMember {x : Member} (h : ∀ p ∈ x.rawParams, p.2.WellFormed) :
    (ofMember x).WellFormed := by
  refine .intro (isFlat _) (List.nodup_singleton _) fun y hy p hp ↦ ?_
  obtain rfl := List.mem_singleton.mp hy
  exact h p hp

theorem wellFormed_inst (cls : ModuleId) : (inst cls).WellFormed :=
  wellFormed_ofMember fun _ hp ↦ by cases hp

theorem wellFormed_instWith {cls : ModuleId} {params : List (String × Ty)}
    (h : ∀ p ∈ params, p.2.WellFormed) : (instWith cls params).WellFormed :=
  wellFormed_ofMember h

/-- What a type and all params inside it have is kept by unions, where one of a union follows from
that of its params. -/
theorem union_hereditary {P : Ty → Prop}
    (hparam : ∀ {t x p}, P t → x ∈ t.members → p ∈ x.rawParams → P p.2)
    (hunion : ∀ {ts}, (∀ t ∈ ts, P t) → (∀ x ∈ (union ts).members, ∀ p ∈ x.rawParams, P p.2) →
      P (union ts))
    {ts : List Ty} (h : ∀ t ∈ ts, P t) : P (union ts) := by
  -- By height: a param of the union is one of a type joined, or the union of some of theirs.
  induction hn : heights ts using Nat.strongRecOn generalizing ts with
  | ind n ih =>
    subst hn
    refine hunion h fun x hx p hp ↦ ?_
    by_cases hne : ts = []
    · subst hne
      obtain rfl := List.mem_singleton.mp hx
      cases hp
    have hknown {u : Ty} (hu : u ∈ paramsOf (ts.flatMap members)) : P u := by
      obtain ⟨x, hx, p, hp, rfl⟩ := mem_paramsOf.mp hu
      obtain ⟨t, ht, hx⟩ := List.mem_flatMap.mp hx
      exact hparam (h t ht) hx hp
    rw [members_union hne] at hx
    rcases Member.param_of_mem_union hx hp with ⟨y, hy, hpy⟩ | ⟨us, hus, hsub, heq⟩
    · exact hknown (mem_paramsOf.mpr ⟨y, hy, p, hpy, rfl⟩)
    · rw [heq]
      exact ih _ (heights_lt_of_subset_paramsOf hus hsub) (fun u hu ↦ hknown (hsub u hu)) rfl

theorem nodup_kinds_union (ts : List Ty) : (union ts).kinds.Nodup := by
  by_cases h : ts = []
  · subst h
    exact List.nodup_singleton _
  · rw [kinds, members_union h]
    exact Member.nodup_kinds_union _

theorem wellFormed_union {ts : List Ty} (h : ∀ t ∈ ts, t.WellFormed) : (union ts).WellFormed :=
  union_hereditary (fun ht hx hp ↦ ht.of_mem hx hp)
    (fun _ hparams ↦ .intro (isFlat _) (nodup_kinds_union _) hparams) h

theorem wellFormed_arrayOf {ts : List Ty} (h : ∀ t ∈ ts, t.WellFormed) :
    (arrayOf ts).WellFormed :=
  wellFormed_instWith (List.forall_mem_singleton.mpr (wellFormed_union h))

/-- A union of types in normal form is in normal form. Its members are the modules and the classes
of the types joined; the instances of a class keep all their samples in order and the names of all
their params. -/
theorem union_normal_form (ts : List Ty) (h : ∀ t ∈ ts, t.WellFormed) :
    (union ts).WellFormed ∧
      (ts ≠ [] →
        (∀ m, .itself m ∈ (union ts).members ↔ ∃ t ∈ ts, .itself m ∈ t.members) ∧
        (∀ cls, (∃ x ∈ (union ts).members, x.class? = some cls) ↔
          ∃ t ∈ ts, ∃ x ∈ t.members, x.class? = some cls) ∧
        ∀ x ∈ (union ts).members, ∀ cls, x.class? = some cls →
          x.samples = ((ts.flatMap members).filter fun y ↦ y.class? = some cls).flatMap
            Member.samples ∧
          ∀ name, (∃ u, (name, u) ∈ x.rawParams) ↔
            ∃ t ∈ ts, ∃ y ∈ t.members, y.class? = some cls ∧ ∃ u, (name, u) ∈ y.rawParams) ∧
      union [] = object := by
  refine ⟨wellFormed_union h, fun hne ↦ ⟨fun m ↦ ?_, fun cls ↦ ?_, fun x hx cls hc ↦ ?_⟩, rfl⟩
  · have hk := mem_kinds_union hne (k := .itself m)
    simpa only [kinds, List.mem_map, Member.kind_eq_itself, exists_eq_right] using hk
  · have hk := mem_kinds_union hne (k := .instanceOf cls)
    simpa only [kinds, List.mem_map, Member.kind_eq_instanceOf] using hk
  · rw [members_union hne] at hx
    rw [Member.eq_merge_of_mem_union hx hc]
    refine ⟨Member.samples_merge _ _, fun name ↦ Member.exists_rawParams_merge.trans ?_⟩
    simp only [List.mem_filter, List.mem_flatMap, decide_eq_true_eq]
    constructor
    · rintro ⟨y, ⟨⟨t, ht, hy⟩, hcls⟩, hu⟩
      exact ⟨t, ht, y, hy, hcls, hu⟩
    · rintro ⟨t, ht, y, hy, hcls, hu⟩
      exact ⟨y, ⟨⟨t, ht, hy⟩, hcls⟩, hu⟩

theorem union_normal_form_arrays :
    (∀ t ∈ [arrayOf [integer], arrayOf [string, nil]], t.WellFormed) ∧
      (union [arrayOf [integer], arrayOf [string, nil]]).WellFormed ∧
      ∃ x ∈ (union [arrayOf [integer], arrayOf [string, nil]]).members,
        x.class? = some .array := by
  have hfirst : (arrayOf [integer]).WellFormed :=
    wellFormed_arrayOf (List.forall_mem_singleton.mpr (wellFormed_inst .integer))
  have hsecond : (arrayOf [string, nil]).WellFormed :=
    wellFormed_arrayOf (List.forall_mem_cons.mpr
      ⟨wellFormed_inst .string, List.forall_mem_singleton.mpr (wellFormed_inst .nilClass)⟩)
  have h := List.forall_mem_cons.mpr ⟨hfirst, List.forall_mem_singleton.mpr hsecond⟩
  have hunion := union_normal_form _ h
  refine ⟨h, hunion.1, ((hunion.2.1 (List.cons_ne_nil _ _)).2.1 .array).mpr ?_⟩
  exact ⟨_, List.mem_cons_self, _, List.mem_cons_self, rfl⟩

end Ty

end FlowCompletion
