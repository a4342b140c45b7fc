import FlowCompletion.Proofs.Ty.Union

namespace FlowCompletion

variable {join : List Ty → Ty} {cls : ModuleId}

/-- These types may be joined in two steps, in any order and number. -/
def Flattens (join : List Ty → Ty) (known : List Ty) : Prop :=
  ∀ us vs ws, vs ≠ [] → (∀ u ∈ us ++ vs ++ ws, u ∈ known) →
    join (us ++ [join vs] ++ ws) = join (us ++ vs ++ ws)

theorem names_mergeParams (params : List (String × Ty)) :
    (mergeParams join params).map Prod.fst = firsts (params.map Prod.fst) := by
  rw [mergeParams, List.map_map]
  exact List.map_id _

theorem given_of_nodup {params : List (String × Ty)} (h : (params.map Prod.fst).Nodup)
    {name : String} {t : Ty} (ht : (name, t) ∈ params) : given params name = [t] := by
  induction params with
  | nil => cases ht
  | cons p params ih =>
    obtain ⟨hp, hrest⟩ := List.nodup_cons.mp h
    rcases List.mem_cons.mp ht with rfl | ht
    · have hnone : given params name = [] := by
        by_contra hne
        exact hp (given_ne_nil.mp hne)
      rw [← List.singleton_append, given_append, hnone]
      simp [given]
    · have hne : p.1 ≠ name := fun heq ↦ hp (heq ▸ List.mem_map_of_mem ht)
      rw [← List.singleton_append, given_append, ih hrest ht]
      simp [given, hne]

theorem given_mergeParams {params : List (String × Ty)} {name : String} :
    given (mergeParams join params) name =
      if given params name = [] then [] else [join (given params name)] := by
  by_cases h : given params name = []
  · rw [if_pos h]
    by_contra hne
    rw [← ne_eq, given_ne_nil, names_mergeParams, mem_firsts, ← given_ne_nil] at hne
    exact hne h
  · rw [if_neg h]
    refine given_of_nodup ?_ (mem_mergeParams.mpr ⟨given_ne_nil.mp h, rfl⟩)
    rw [names_mergeParams]
    exact nodup_firsts _

theorem mergeParams_append_mergeParams {ps qs rs : List (String × Ty)}
    (h : Flattens join ((ps ++ qs ++ rs).map Prod.snd)) :
    mergeParams join (ps ++ mergeParams join qs ++ rs) = mergeParams join (ps ++ qs ++ rs) := by
  have hnames : firsts ((ps ++ mergeParams join qs ++ rs).map Prod.fst) =
      firsts ((ps ++ qs ++ rs).map Prod.fst) := by
    simp only [List.map_append, names_mergeParams, firsts_append_firsts]
  have htypes (name : String) : join (given (ps ++ mergeParams join qs ++ rs) name) =
      join (given (ps ++ qs ++ rs) name) := by
    simp only [given_append, given_mergeParams]
    by_cases hq : given qs name = []
    · rw [if_pos hq, hq]
    · rw [if_neg hq]
      refine h _ _ _ hq fun u hu ↦ ?_
      have hgiven : u ∈ given (ps ++ qs ++ rs) name := by simpa only [given_append] using hu
      exact mem_of_mem_given hgiven
  exact (congrArg _ hnames).trans (List.map_congr_left fun name _ ↦
    congrArg (Prod.mk name) (htypes name))

namespace Member

theorem merge_eq {group : List Member} (h : ∀ x, group ≠ [x]) :
    merge join cls group =
      .instanceOf cls (mergeParams join (group.flatMap rawParams))
        (group.flatMap samples) none := by
  rcases group with _ | ⟨x, _ | ⟨y, group⟩⟩
  · rfl
  · exact absurd rfl (h x)
  · rfl

theorem merge_append_merge {xs ys zs : List Member} (hys : ys ≠ [])
    (h : Flattens join (Ty.paramsOf (xs ++ ys ++ zs))) :
    merge join cls (xs ++ [merge join cls ys] ++ zs) = merge join cls (xs ++ ys ++ zs) := by
  -- a single instance is not taken apart, neither inside nor outside
  by_cases hone : ∃ y, ys = [y]
  · obtain ⟨y, rfl⟩ := hone
    rfl
  by_cases hends : xs = [] ∧ zs = []
  · obtain ⟨rfl, rfl⟩ := hends
    simp only [List.nil_append, List.append_nil]
    rfl
  have hlen : 0 < xs.length + zs.length := by
    rw [← List.length_append]
    exact List.length_pos_of_ne_nil fun h ↦ hends (List.append_eq_nil_iff.mp h)
  have hpos : 0 < ys.length := List.length_pos_of_ne_nil hys
  have hinner : (merge join cls ys).rawParams = mergeParams join (ys.flatMap rawParams) := by
    rw [merge_eq fun x hx ↦ hone ⟨x, hx⟩]
    rfl
  have hflat : Flattens join ((xs.flatMap rawParams ++ ys.flatMap rawParams ++
      zs.flatMap rawParams).map Prod.snd) := by
    simpa only [Ty.paramsOf, List.map_append, List.map_flatMap, List.flatMap_append] using h
  have hsingle {group : List Member} (hlong : xs.length + zs.length + 1 ≤ group.length)
      (x : Member) : group ≠ [x] := by
    rintro rfl
    simp only [List.length_singleton] at hlong
    omega
  have houter : merge join cls (xs ++ [merge join cls ys] ++ zs) =
      .instanceOf cls (mergeParams join (xs.flatMap rawParams ++ ys.flatMap rawParams ++
        zs.flatMap rawParams)) (xs.flatMap samples ++ ys.flatMap samples ++ zs.flatMap samples)
        none := by
    rw [merge_eq (hsingle (by simp only [List.length_append, List.length_singleton]; omega))]
    simp only [List.flatMap_append, List.flatMap_singleton, samples_merge, hinner,
      mergeParams_append_mergeParams hflat]
  rw [houter, merge_eq (hsingle (by simp only [List.length_append]; omega))]
  simp only [List.flatMap_append]

def instancesOf (cls : ModuleId) (ms : List Member) : List Member :=
  ms.filter fun x ↦ x.class? = some cls

theorem instancesOf_append (xs ys : List Member) :
    instancesOf cls (xs ++ ys) = instancesOf cls xs ++ instancesOf cls ys :=
  List.filter_append xs ys

theorem mem_instancesOf {ms : List Member} {x : Member} :
    x ∈ instancesOf cls ms ↔ x ∈ ms ∧ x.class? = some cls := by
  simp [instancesOf]

theorem instancesOf_ne_nil {ms : List Member} :
    instancesOf cls ms ≠ [] ↔ cls ∈ ms.filterMap class? := by
  simp only [List.mem_filterMap, ← mem_instancesOf]
  exact ⟨List.exists_mem_of_ne_nil _, fun ⟨_, h⟩ ↦ List.ne_nil_of_mem h⟩

theorem class?_merge_instancesOf (cls : ModuleId) (ms : List Member) :
    (merge join cls (instancesOf cls ms)).class? = some cls :=
  class?_merge fun _ hx ↦ (mem_instancesOf.mp hx).2

theorem union_eq_instancesOf (ms : List Member) :
    union join ms = (firsts (ms.filterMap module?)).map .itself ++
      (firsts (ms.filterMap class?)).map fun cls ↦ merge join cls (instancesOf cls ms) :=
  rfl

theorem module?_eq_none {x : Member} (h : x.class? = some cls) : x.module? = none := by
  cases x with
  | itself m => cases h
  | instanceOf => rfl

theorem filterMap_module?_union (ms : List Member) :
    (union join ms).filterMap module? = firsts (ms.filterMap module?) := by
  have hclasses : (firsts (ms.filterMap class?)).filterMap
      (module? ∘ fun cls ↦ merge join cls (instancesOf cls ms)) = [] :=
    List.filterMap_eq_nil_iff.mpr fun cls _ ↦ module?_eq_none (class?_merge_instancesOf cls ms)
  rw [union_eq_instancesOf, List.filterMap_append, List.filterMap_map, List.filterMap_map,
    hclasses, List.append_nil]
  exact List.filterMap_some

theorem filterMap_class?_union (ms : List Member) :
    (union join ms).filterMap class? = firsts (ms.filterMap class?) := by
  have hmodules : (firsts (ms.filterMap module?)).filterMap (class? ∘ itself) = [] :=
    List.filterMap_eq_nil_iff.mpr fun m _ ↦ rfl
  rw [union_eq_instancesOf, List.filterMap_append, List.filterMap_map, List.filterMap_map,
    hmodules, List.nil_append]
  exact (List.filterMap_congr fun cls _ ↦ class?_merge_instancesOf cls ms).trans List.filterMap_some

theorem instancesOf_union (ms : List Member) :
    instancesOf cls (union join ms) =
      if instancesOf cls ms = [] then [] else [merge join cls (instancesOf cls ms)] := by
  have hfilter : instancesOf cls (union join ms) =
      ((firsts (ms.filterMap class?)).filter (· = cls)).map fun cls ↦
        merge join cls (instancesOf cls ms) := by
    rw [instancesOf, union_eq_instancesOf, List.filter_append, List.filter_map, List.filter_map]
    rw [List.filter_eq_nil_iff.mpr fun m _ ↦ by simp [class?], List.map_nil, List.nil_append]
    simp [Function.comp_def, class?_merge_instancesOf]
  rw [hfilter, List.filter_eq]
  by_cases h : instancesOf cls ms = []
  · have hnot : cls ∉ firsts (ms.filterMap class?) := by
      rwa [mem_firsts, ← instancesOf_ne_nil, not_not]
    rw [if_pos h, List.count_eq_zero_of_not_mem hnot]
    rfl
  · have hmem : cls ∈ firsts (ms.filterMap class?) := mem_firsts.mpr (instancesOf_ne_nil.mp h)
    rw [if_neg h, List.count_eq_one_of_mem (nodup_firsts _) hmem]
    rfl

theorem union_append_union_of_flattens {xs ys zs : List Member}
    (h : Flattens join (Ty.paramsOf (xs ++ ys ++ zs))) :
    union join (xs ++ union join ys ++ zs) = union join (xs ++ ys ++ zs) := by
  have hmerge (cls : ModuleId) : merge join cls (instancesOf cls (xs ++ union join ys ++ zs)) =
      merge join cls (instancesOf cls (xs ++ ys ++ zs)) := by
    simp only [instancesOf_append, instancesOf_union]
    by_cases hys : instancesOf cls ys = []
    · rw [if_pos hys, hys]
    · rw [if_neg hys]
      refine merge_append_merge hys fun us vs ws hvs hsub ↦ h us vs ws hvs fun u hu ↦ ?_
      obtain ⟨x, hx, hp⟩ := Ty.mem_paramsOf.mp (hsub u hu)
      simp only [← instancesOf_append] at hx
      exact Ty.mem_paramsOf.mpr ⟨x, (mem_instancesOf.mp hx).1, hp⟩
  simp only [union_eq_instancesOf (xs ++ union join ys ++ zs), List.filterMap_append,
    filterMap_module?_union, filterMap_class?_union, firsts_append_firsts, hmerge]
  simp only [union_eq_instancesOf, List.filterMap_append]

theorem union_append_union (xs ys zs : List Member) :
    union Ty.union (xs ++ union Ty.union ys ++ zs) = union Ty.union (xs ++ ys ++ zs) := by
  -- By the height of the params, which are joined by unions in turn.
  have hlt {n : Nat} : (∀ u ∈ Ty.paramsOf (xs ++ ys ++ zs), u.height < n) →
      union Ty.union (xs ++ union Ty.union ys ++ zs) = union Ty.union (xs ++ ys ++ zs) := by
    induction n generalizing xs ys zs with
    | zero =>
      refine fun hn ↦ union_append_union_of_flattens fun us vs ws hvs hsub ↦ ?_
      obtain ⟨v, hv⟩ := List.exists_mem_of_ne_nil vs hvs
      exact absurd (hn v (hsub v (by simp [hv]))) (Nat.not_lt_zero _)
    | succ n ih =>
      refine fun hn ↦ union_append_union_of_flattens fun us vs ws hvs hsub ↦ ?_
      have hinner := ih (us.flatMap Ty.members) (vs.flatMap Ty.members) (ws.flatMap Ty.members)
        fun u hu ↦ ?_
      · simp only [Ty.union_eq (us ++ [Ty.union vs] ++ ws), Ty.union_eq (us ++ vs ++ ws),
          List.flatMap_append, List.flatMap_singleton, Ty.members_union hvs, hinner]
      · rw [← List.flatMap_append, ← List.flatMap_append] at hu
        have hheight := Ty.height_lt_of_mem_paramsOf hu
        have hle : Ty.heights (us ++ vs ++ ws) ≤ n :=
          Ty.heights_le_iff.mpr fun v hv ↦ Nat.le_of_lt_succ (hn v (hsub v hv))
        exact Nat.lt_of_lt_of_le hheight hle
  refine hlt (n := Ty.heights (Ty.paramsOf (xs ++ ys ++ zs)) + 1) fun u hu ↦ ?_
  exact Nat.lt_succ_of_le (Ty.heights_le_iff.mp (Nat.le_refl _) u hu)

end Member

namespace Ty

/-- The members of a union that is joined with other types stand where the union stood. -/
theorem union_flatten (xs zs : List Ty) {ys : List Ty} (h : ys ≠ []) :
    union (xs ++ [union ys] ++ zs) = union (xs ++ ys ++ zs) := by
  rw [union_eq, union_eq (xs ++ ys ++ zs)]
  simp only [List.flatMap_append, List.flatMap_singleton, members_union h,
    Member.union_append_union]

theorem union_flatten_arrays :
    [arrayOf [integer], arrayOf [string]] ≠ [] ∧
      union ([nil] ++ [union [arrayOf [integer], arrayOf [string]]] ++ [arrayOf [nil]]) =
        union ([nil] ++ [arrayOf [integer], arrayOf [string]] ++ [arrayOf [nil]]) :=
  ⟨List.cons_ne_nil _ _, union_flatten _ _ (List.cons_ne_nil _ _)⟩

end Ty

end FlowCompletion
