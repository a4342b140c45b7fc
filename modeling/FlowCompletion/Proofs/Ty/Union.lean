import FlowCompletion.Proofs.Table
import FlowCompletion.Ty.Union

namespace FlowCompletion

/-- A member without its params and samples. -/
inductive MemberKind where
  | itself (m : ModuleId)
  | instanceOf (cls : ModuleId)
deriving DecidableEq

namespace Member

def kind : Member → MemberKind
  | .itself m => .itself m
  | .instanceOf cls .. => .instanceOf cls

theorem kind_eq_itself {x : Member} {m : ModuleId} : x.kind = .itself m ↔ x = .itself m := by
  cases x <;> simp [kind]

theorem kind_eq_instanceOf {x : Member} {cls : ModuleId} :
    x.kind = .instanceOf cls ↔ x.class? = some cls := by
  cases x <;> simp [kind, class?]

theorem module?_eq_some {x : Member} {m : ModuleId} : x.module? = some m ↔ x = .itself m := by
  cases x <;> simp [module?]

end Member

namespace Ty

def kinds (t : Ty) : List MemberKind := t.members.map Member.kind

theorem members_ne_nil (t : Ty) : t.members ≠ [] := by
  cases t
  exact List.cons_ne_nil _ _

theorem members_ofMembers {ms : List Member} (h : ms ≠ []) : (ofMembers ms).members = ms := by
  cases ms with
  | nil => exact absurd rfl h
  | cons first rest => rfl

end Ty

theorem Member.height_le_heights {ms : List Member} {x : Member} (h : x ∈ ms) :
    x.height ≤ heights ms := by
  induction ms with
  | nil => cases h
  | cons y ms ih =>
    rw [heights]
    rcases List.mem_cons.mp h with rfl | h
    · omega
    · have hx := ih h
      omega

namespace Ty

theorem height_lt_paramHeights {params : List (String × Ty)} {p : String × Ty} (h : p ∈ params) :
    p.2.height < paramHeights params := by
  induction params with
  | nil => cases h
  | cons q params ih =>
    rw [paramHeights]
    rcases List.mem_cons.mp h with rfl | h
    · omega
    · have hp := ih h
      omega

theorem height_le_of_mem {t : Ty} {x : Member} (h : x ∈ t.members) : x.height ≤ t.height := by
  cases t with
  | of first rest =>
    rw [height]
    rcases List.mem_cons.mp h with rfl | h
    · omega
    · have hx := Member.height_le_heights h
      omega

theorem height_param_lt {t : Ty} {x : Member} {p : String × Ty} (hx : x ∈ t.members)
    (hp : p ∈ x.rawParams) : p.2.height < t.height := by
  have ht := height_le_of_mem hx
  cases x with
  | itself m => cases hp
  | instanceOf cls params samples cell =>
    have h := height_lt_paramHeights hp
    rw [Member.height] at ht
    exact Nat.lt_of_lt_of_le h ht

theorem heights_le_iff {ts : List Ty} {n : Nat} : heights ts ≤ n ↔ ∀ t ∈ ts, t.height ≤ n := by
  induction ts with
  | nil => simp [heights]
  | cons t ts ih =>
    have hcons : heights (t :: ts) = max t.height (heights ts) := rfl
    rw [hcons, Nat.max_le, ih, List.forall_mem_cons]

def paramsOf (ms : List Member) : List Ty := ms.flatMap fun x ↦ x.rawParams.map Prod.snd

theorem mem_paramsOf {ms : List Member} {u : Ty} :
    u ∈ paramsOf ms ↔ ∃ x ∈ ms, ∃ p ∈ x.rawParams, p.2 = u := by
  simp only [paramsOf, List.mem_flatMap, List.mem_map]

theorem height_lt_of_mem_paramsOf {ts : List Ty} {u : Ty}
    (h : u ∈ paramsOf (ts.flatMap members)) : u.height < heights ts := by
  obtain ⟨x, hx, p, hp, rfl⟩ := mem_paramsOf.mp h
  obtain ⟨t, ht, hx⟩ := List.mem_flatMap.mp hx
  exact Nat.lt_of_lt_of_le (height_param_lt hx hp) (heights_le_iff.mp (Nat.le_refl _) t ht)

theorem heights_lt_of_subset_paramsOf {ts us : List Ty} (hne : us ≠ [])
    (h : ∀ u ∈ us, u ∈ paramsOf (ts.flatMap members)) : heights us < heights ts := by
  obtain ⟨u, hu⟩ := List.exists_mem_of_ne_nil us hne
  have hpos := height_lt_of_mem_paramsOf (h u hu)
  have hle : heights us ≤ heights ts - 1 :=
    heights_le_iff.mpr fun v hv ↦ Nat.le_sub_one_of_lt (height_lt_of_mem_paramsOf (h v hv))
  omega

end Ty

variable {join join' : List Ty → Ty}

def given (params : List (String × Ty)) (name : String) : List Ty :=
  (params.filter fun p ↦ p.1 = name).map Prod.snd

theorem mem_given {params : List (String × Ty)} {name : String} {t : Ty} :
    t ∈ given params name ↔ (name, t) ∈ params := by
  simp [given]

theorem given_append (ps qs : List (String × Ty)) (name : String) :
    given (ps ++ qs) name = given ps name ++ given qs name := by
  rw [given, List.filter_append, List.map_append]
  rfl

theorem given_ne_nil {params : List (String × Ty)} {name : String} :
    given params name ≠ [] ↔ name ∈ params.map Prod.fst := by
  simp only [List.mem_map, Prod.exists, exists_and_right, exists_eq_right, ← mem_given]
  exact ⟨List.exists_mem_of_ne_nil _, fun ⟨_, h⟩ ↦ List.ne_nil_of_mem h⟩

theorem mem_of_mem_given {params : List (String × Ty)} {name : String} {u : Ty}
    (h : u ∈ given params name) : u ∈ params.map Prod.snd :=
  List.mem_map_of_mem (mem_given.mp h)

theorem mem_mergeParams {params : List (String × Ty)} {name : String} {t : Ty} :
    (name, t) ∈ mergeParams join params ↔
      name ∈ params.map Prod.fst ∧ t = join (given params name) := by
  simp only [mergeParams, List.mem_map, mem_firsts, Prod.mk.injEq]
  constructor
  · rintro ⟨_, hname, rfl, rfl⟩
    exact ⟨hname, rfl⟩
  · rintro ⟨hname, rfl⟩
    exact ⟨name, hname, rfl, rfl⟩

theorem mergeParams_congr {params : List (String × Ty)}
    (h : ∀ us, us ≠ [] → (∀ u ∈ us, u ∈ params.map Prod.snd) → join us = join' us) :
    mergeParams join params = mergeParams join' params := by
  refine List.map_congr_left fun name hname ↦ congrArg (Prod.mk name) ?_
  exact h _ (given_ne_nil.mpr (mem_firsts.mp hname)) fun u ↦ mem_of_mem_given

namespace Member

theorem merge_congr {cls : ModuleId} {group : List Member}
    (h : ∀ us, us ≠ [] → (∀ u ∈ us, u ∈ Ty.paramsOf group) → join us = join' us) :
    merge join cls group = merge join' cls group := by
  have hparams : mergeParams join (group.flatMap rawParams) =
      mergeParams join' (group.flatMap rawParams) := by
    apply mergeParams_congr
    intro us hne hus
    refine h us hne fun u hu ↦ ?_
    simpa only [Ty.paramsOf, List.map_flatMap] using hus u hu
  rcases group with _ | ⟨x, _ | ⟨y, group⟩⟩
  · simp only [merge, hparams]
  · rfl
  · simp only [merge, hparams]

theorem union_congr {ms : List Member}
    (h : ∀ us, us ≠ [] → (∀ u ∈ us, u ∈ Ty.paramsOf ms) → join us = join' us) :
    union join ms = union join' ms := by
  refine congrArg _ (List.map_congr_left fun cls _ ↦ merge_congr fun us hne hus ↦ ?_)
  refine h us hne fun u hu ↦ ?_
  obtain ⟨x, hx, p, hp, rfl⟩ := Ty.mem_paramsOf.mp (hus u hu)
  exact Ty.mem_paramsOf.mpr ⟨x, List.mem_of_mem_filter hx, p, hp, rfl⟩

theorem class?_merge {cls : ModuleId} {group : List Member}
    (h : ∀ x ∈ group, x.class? = some cls) : (merge join cls group).class? = some cls := by
  rcases group with _ | ⟨x, _ | ⟨y, group⟩⟩
  · rfl
  · exact h x List.mem_cons_self
  · rfl

theorem samples_merge (cls : ModuleId) (group : List Member) :
    (merge join cls group).samples = group.flatMap samples := by
  rcases group with _ | ⟨x, _ | ⟨y, group⟩⟩
  · rfl
  · simp only [merge, List.flatMap_cons, List.flatMap_nil, List.append_nil]
  · rfl

theorem exists_rawParams_merge {cls : ModuleId} {group : List Member} {name : String} :
    (∃ u, (name, u) ∈ (merge join cls group).rawParams) ↔
      ∃ x ∈ group, ∃ u, (name, u) ∈ x.rawParams := by
  have hmerged : (∃ u, (name, u) ∈ mergeParams join (group.flatMap rawParams)) ↔
      ∃ x ∈ group, ∃ u, (name, u) ∈ x.rawParams := by
    constructor
    · rintro ⟨u, hu⟩
      obtain ⟨⟨_, v⟩, hv, rfl⟩ := List.mem_map.mp (mem_mergeParams.mp hu).1
      obtain ⟨x, hx, hv⟩ := List.mem_flatMap.mp hv
      exact ⟨x, hx, v, hv⟩
    · rintro ⟨x, hx, u, hu⟩
      have hmem : (name, u) ∈ group.flatMap rawParams := List.mem_flatMap.mpr ⟨x, hx, hu⟩
      exact ⟨_, mem_mergeParams.mpr ⟨List.mem_map_of_mem hmem, rfl⟩⟩
  rcases group with _ | ⟨x, _ | ⟨y, group⟩⟩
  · exact hmerged
  · simp only [merge, List.mem_singleton, exists_eq_left]
  · exact hmerged

theorem param_of_mem_merge {cls : ModuleId} {group : List Member} {p : String × Ty}
    (h : p ∈ (merge join cls group).rawParams) :
    (∃ x ∈ group, p ∈ x.rawParams) ∨
      ∃ us, us ≠ [] ∧ (∀ u ∈ us, u ∈ Ty.paramsOf group) ∧ p.2 = join us := by
  have hmerged (hp : p ∈ mergeParams join (group.flatMap rawParams)) :
      ∃ us, us ≠ [] ∧ (∀ u ∈ us, u ∈ Ty.paramsOf group) ∧ p.2 = join us := by
    obtain ⟨hname, ht⟩ := mem_mergeParams.mp hp
    refine ⟨_, given_ne_nil.mpr hname, fun u hu ↦ ?_, ht⟩
    simpa only [Ty.paramsOf, List.map_flatMap] using mem_of_mem_given hu
  rcases group with _ | ⟨x, _ | ⟨y, group⟩⟩
  · exact .inr (hmerged h)
  · exact .inl ⟨x, List.mem_cons_self, h⟩
  · exact .inr (hmerged h)

theorem param_of_mem_union {ms : List Member} {x : Member} {p : String × Ty}
    (hx : x ∈ union join ms) (hp : p ∈ x.rawParams) :
    (∃ y ∈ ms, p ∈ y.rawParams) ∨
      ∃ us, us ≠ [] ∧ (∀ u ∈ us, u ∈ Ty.paramsOf ms) ∧ p.2 = join us := by
  rcases List.mem_append.mp hx with h | h
  · obtain ⟨m, -, rfl⟩ := List.mem_map.mp h
    cases hp
  · obtain ⟨cls, -, rfl⟩ := List.mem_map.mp h
    rcases param_of_mem_merge hp with ⟨y, hy, hpy⟩ | ⟨us, hne, hus, heq⟩
    · exact .inl ⟨y, List.mem_of_mem_filter hy, hpy⟩
    · refine .inr ⟨us, hne, fun u hu ↦ ?_, heq⟩
      obtain ⟨y, hy, q, hq, rfl⟩ := Ty.mem_paramsOf.mp (hus u hu)
      exact Ty.mem_paramsOf.mpr ⟨y, List.mem_of_mem_filter hy, q, hq, rfl⟩

theorem kinds_union (ms : List Member) :
    (union join ms).map kind =
      (firsts (ms.filterMap module?)).map .itself ++
        (firsts (ms.filterMap class?)).map .instanceOf := by
  rw [union, List.map_append, List.map_map, List.map_map]
  refine congrArg _ (List.map_congr_left fun cls _ ↦ ?_)
  refine kind_eq_instanceOf.mpr (class?_merge fun x hx ↦ ?_)
  simpa using List.of_mem_filter hx

theorem nodup_kinds_union (ms : List Member) : ((union join ms).map kind).Nodup := by
  rw [kinds_union]
  refine List.nodup_append'.mpr ⟨?_, ?_, ?_⟩
  · exact (nodup_firsts _).map fun _ _ h ↦ by simpa using h
  · exact (nodup_firsts _).map fun _ _ h ↦ by simpa using h
  · intro k hm hc
    obtain ⟨m, -, rfl⟩ := List.mem_map.mp hm
    obtain ⟨cls, -, h⟩ := List.mem_map.mp hc
    cases h

theorem mem_kinds_union {ms : List Member} {k : MemberKind} :
    k ∈ (union join ms).map kind ↔ k ∈ ms.map kind := by
  rw [kinds_union]
  cases k with
  | itself m =>
    simp only [List.mem_append, List.mem_map, mem_firsts, List.mem_filterMap, module?_eq_some,
      kind_eq_itself, MemberKind.itself.injEq, reduceCtorEq, and_false, exists_const, or_false,
      exists_eq_right]
  | instanceOf cls =>
    simp only [List.mem_append, List.mem_map, mem_firsts, List.mem_filterMap,
      kind_eq_instanceOf, MemberKind.instanceOf.injEq, reduceCtorEq, and_false, exists_const,
      false_or, exists_eq_right]

/-- The instances of a class are one member, made of all of them. -/
theorem eq_merge_of_mem_union {ms : List Member} {x : Member} {cls : ModuleId}
    (hx : x ∈ union join ms) (hc : x.class? = some cls) :
    x = merge join cls (ms.filter fun y ↦ y.class? = some cls) := by
  rcases List.mem_append.mp hx with h | h
  · obtain ⟨m, -, rfl⟩ := List.mem_map.mp h
    cases hc
  · obtain ⟨cls', -, rfl⟩ := List.mem_map.mp h
    have hmerge : (merge join cls' (ms.filter fun y ↦ y.class? = some cls')).class? =
        some cls' := class?_merge fun y hy ↦ by simpa using List.of_mem_filter hy
    rw [hmerge] at hc
    obtain rfl := Option.some.inj hc
    rfl

theorem union_ne_nil {ms : List Member} (h : ms ≠ []) : union join ms ≠ [] := by
  obtain ⟨x, hx⟩ := List.exists_mem_of_ne_nil ms h
  have hk : x.kind ∈ (union join ms).map kind := mem_kinds_union.mpr (List.mem_map_of_mem hx)
  exact fun hnil ↦ by simp [hnil] at hk

end Member

namespace Ty

theorem unionAt_eq {n m : Nat} {ts : List Ty} (hn : heights ts ≤ n) (hm : heights ts ≤ m) :
    unionAt n ts = unionAt m ts := by
  -- one step down on both sides; where a side ends there are no params left to join
  induction n generalizing m ts with
  | zero =>
    cases m with
    | zero => rfl
    | succ m =>
      refine congrArg ofMembers (Member.union_congr fun us hne hus ↦ ?_)
      have h := heights_lt_of_subset_paramsOf hne hus
      omega
  | succ n ih =>
    cases m with
    | zero =>
      refine congrArg ofMembers (Member.union_congr fun us hne hus ↦ ?_)
      have h := heights_lt_of_subset_paramsOf hne hus
      omega
    | succ m =>
      refine congrArg ofMembers (Member.union_congr fun us hne hus ↦ ?_)
      have h := heights_lt_of_subset_paramsOf hne hus
      exact ih (by omega) (by omega)

theorem union_eq (ts : List Ty) :
    union ts = ofMembers (Member.union union (ts.flatMap members)) := by
  have hsucc : union ts = unionAt (heights ts + 1) ts := unionAt_eq (Nat.le_refl _) (Nat.le_succ _)
  rw [hsucc, unionAt]
  refine congrArg ofMembers (Member.union_congr fun us hne hus ↦ ?_)
  have h := heights_lt_of_subset_paramsOf hne hus
  exact unionAt_eq (Nat.le_of_lt h) (Nat.le_refl _)

theorem members_union {ts : List Ty} (h : ts ≠ []) :
    (union ts).members = Member.union union (ts.flatMap members) := by
  rw [union_eq]
  refine members_ofMembers (Member.union_ne_nil ?_)
  obtain ⟨t, ht⟩ := List.exists_mem_of_ne_nil ts h
  obtain ⟨x, hx⟩ := List.exists_mem_of_ne_nil _ t.members_ne_nil
  exact List.ne_nil_of_mem (List.mem_flatMap.mpr ⟨t, ht, hx⟩)

theorem mem_kinds_union {ts : List Ty} (h : ts ≠ []) {k : MemberKind} :
    k ∈ (union ts).kinds ↔ ∃ t ∈ ts, k ∈ t.kinds := by
  rw [kinds, members_union h, Member.mem_kinds_union]
  simp only [kinds, List.map_flatMap, List.mem_flatMap]

end Ty

end FlowCompletion
