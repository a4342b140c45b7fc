import FlowCompletion.Proofs.Ty.Flattening
import Mathlib.Algebra.BigOperators.Group.List.Basic
import Mathlib.Algebra.GroupWithZero.Nat

namespace FlowCompletion

theorem sum_map_filter_keys {α κ : Type} [DecidableEq κ] {keys : List κ} (h : keys.Nodup)
    (key : α → Option κ) (f : α → Nat) (l : List α) :
    (keys.map fun k ↦ ((l.filter fun a ↦ key a = some k).map f).sum).sum =
      ((l.filter fun a ↦ ∃ k ∈ keys, key a = some k).map f).sum := by
  induction keys with
  | nil => simp
  | cons k keys ih =>
    obtain ⟨hk, hkeys⟩ := List.nodup_cons.mp h
    have hfirst (a : α) : (decide (key a = some k) &&
        decide (∃ k' ∈ k :: keys, key a = some k')) = decide (key a = some k) := by
      by_cases ha : key a = some k <;> simp [ha]
    have hrest (a : α) : (decide (¬ key a = some k) &&
        decide (∃ k' ∈ k :: keys, key a = some k')) = decide (∃ k' ∈ keys, key a = some k') := by
      by_cases ha : key a = some k
      · simp [ha, hk]
      · simp [ha]
    have hsplit := List.sum_map_filter_add_sum_map_filter_not (fun a ↦ key a = some k) f
      (l.filter fun a ↦ ∃ k' ∈ k :: keys, key a = some k')
    simp only [List.filter_filter, hfirst, hrest] at hsplit
    rw [List.map_cons, List.sum_cons, ih hkeys, hsplit]

theorem sum_map_firsts {α κ : Type} [DecidableEq κ] (key : α → Option κ) {f : α → Nat}
    {l : List α} (h : ∀ a ∈ l, key a = none → f a = 0) :
    ((firsts (l.filterMap key)).map fun k ↦ ((l.filter fun a ↦ key a = some k).map f).sum).sum =
      (l.map f).sum := by
  rw [sum_map_filter_keys (nodup_firsts _) key f l,
    ← List.sum_map_filter_add_sum_map_filter_not
      (fun a ↦ ∃ k ∈ firsts (l.filterMap key), key a = some k) f l]
  refine (Nat.add_zero _).symm.trans (congrArg _ (List.sum_eq_zero ?_).symm)
  intro n hn
  obtain ⟨a, ha, rfl⟩ := List.mem_map.mp hn
  obtain ⟨ha, hnone⟩ := List.mem_filter.mp ha
  apply h a ha
  cases hkey : key a with
  | none => rfl
  | some k =>
    have hmem : k ∈ firsts (l.filterMap key) :=
      mem_firsts.mpr (List.mem_filterMap.mpr ⟨a, ha, hkey⟩)
    exact absurd ⟨k, hmem, hkey⟩ (of_decide_eq_true hnone)

mutual

def Ty.sampleCount : Ty → Nat
  | .of first rest => first.sampleCount + Member.sampleCounts rest

def Member.sampleCount : Member → Nat
  | .itself _ => 0
  | .instanceOf _ params samples _ => samples.length + Ty.paramSampleCounts params

def Member.sampleCounts : List Member → Nat
  | [] => 0
  | x :: rest => x.sampleCount + Member.sampleCounts rest

def Ty.paramSampleCounts : List (String × Ty) → Nat
  | [] => 0
  | (_, t) :: rest => t.sampleCount + Ty.paramSampleCounts rest

end

theorem Ty.sampleCount_eq (t : Ty) : t.sampleCount = (t.members.map Member.sampleCount).sum := by
  have hrest (ms : List Member) : Member.sampleCounts ms = (ms.map Member.sampleCount).sum := by
    induction ms with
    | nil => rfl
    | cons x ms ih => rw [Member.sampleCounts, ih, List.map_cons, List.sum_cons]
  cases t with
  | of first rest => rw [sampleCount, hrest, members, List.map_cons, List.sum_cons]

def paramTotal (params : List (String × Ty)) : Nat :=
  (params.map fun p ↦ p.2.sampleCount).sum

theorem Member.sampleCount_eq (x : Member) :
    x.sampleCount = x.samples.length + paramTotal x.rawParams := by
  have hparams (params : List (String × Ty)) :
      Ty.paramSampleCounts params = paramTotal params := by
    induction params with
    | nil => rfl
    | cons p params ih => rw [Ty.paramSampleCounts, ih, paramTotal, paramTotal, List.map_cons,
        List.sum_cons]
  cases x with
  | itself m => rfl
  | instanceOf cls params samples cell => rw [sampleCount, hparams]; rfl

def KeepsCount (join : List Ty → Ty) (us : List Ty) : Prop :=
  (join us).sampleCount = (us.map Ty.sampleCount).sum

variable {join : List Ty → Ty}

theorem paramTotal_mergeParams {params : List (String × Ty)}
    (h : ∀ us, us ≠ [] → (∀ u ∈ us, u ∈ params.map Prod.snd) → KeepsCount join us) :
    paramTotal (mergeParams join params) = paramTotal params := by
  have hname : ∀ name ∈ firsts (params.map Prod.fst), (join (given params name)).sampleCount =
      ((params.filter fun p ↦ some p.1 = some name).map fun p ↦ p.2.sampleCount).sum := by
    intro name hname
    have hne := given_ne_nil.mpr (mem_firsts.mp hname)
    have hkeeps : KeepsCount join (given params name) := h _ hne fun u ↦ mem_of_mem_given
    simpa only [KeepsCount, given, List.map_map, Function.comp_def, Option.some.injEq] using hkeeps
  have hnames : params.map Prod.fst = params.filterMap fun p ↦ some p.1 :=
    (congrFun List.filterMap_eq_map params).symm
  rw [paramTotal, mergeParams, List.map_map]
  refine (congrArg List.sum (List.map_congr_left hname)).trans ?_
  rw [hnames]
  exact sum_map_firsts (fun p : String × Ty ↦ some p.1) fun p _ hp ↦ by cases hp

namespace Member

theorem sampleCount_merge {cls : ModuleId} {group : List Member}
    (h : ∀ us, us ≠ [] → (∀ u ∈ us, u ∈ Ty.paramsOf group) → KeepsCount join us) :
    (merge join cls group).sampleCount = (group.map sampleCount).sum := by
  by_cases hone : ∃ x, group = [x]
  · obtain ⟨x, rfl⟩ := hone
    simp [merge]
  have hparams : paramTotal (mergeParams join (group.flatMap rawParams)) =
      paramTotal (group.flatMap rawParams) := by
    apply paramTotal_mergeParams
    intro us hne hus
    refine h us hne fun u hu ↦ ?_
    simpa only [Ty.paramsOf, List.map_flatMap] using hus u hu
  rw [merge_eq fun x hx ↦ hone ⟨x, hx⟩, sampleCount_eq]
  simp only [rawParams, samples]
  rw [hparams]
  clear h hone hparams
  induction group with
  | nil => rfl
  | cons x group ih =>
    rw [List.map_cons, List.sum_cons, ← ih, sampleCount_eq]
    simp only [List.flatMap_cons, List.length_append, paramTotal, List.map_append, List.sum_append]
    omega

theorem sampleCount_union {ms : List Member}
    (h : ∀ us, us ≠ [] → (∀ u ∈ us, u ∈ Ty.paramsOf ms) → KeepsCount join us) :
    ((union join ms).map sampleCount).sum = (ms.map sampleCount).sum := by
  have hmodules : ((firsts (ms.filterMap module?)).map (sampleCount ∘ itself)).sum = 0 := by
    apply List.sum_eq_zero
    intro n hn
    obtain ⟨m, -, rfl⟩ := List.mem_map.mp hn
    rfl
  have hclass (cls : ModuleId) :
      (merge join cls (ms.filter fun x ↦ x.class? = some cls)).sampleCount =
        ((ms.filter fun x ↦ x.class? = some cls).map sampleCount).sum := by
    apply sampleCount_merge
    intro us hne hus
    refine h us hne fun u hu ↦ ?_
    obtain ⟨x, hx, p, hp, rfl⟩ := Ty.mem_paramsOf.mp (hus u hu)
    exact Ty.mem_paramsOf.mpr ⟨x, List.mem_of_mem_filter hx, p, hp, rfl⟩
  rw [union, List.map_append, List.sum_append, List.map_map, hmodules, Nat.zero_add, List.map_map]
  simp only [Function.comp_def, hclass]
  apply sum_map_firsts
  intro x _ hx
  cases x with
  | itself m => rfl
  | instanceOf cls params samples cell => cases hx

end Member

namespace Ty

/-- A union holds the samples of all types joined. -/
theorem sampleCount_union (ts : List Ty) : (union ts).sampleCount = (ts.map sampleCount).sum := by
  -- by height: the params of the types joined are lower
  induction hn : heights ts using Nat.strongRecOn generalizing ts with
  | ind n ih =>
    subst hn
    by_cases hne : ts = []
    · subst hne
      rfl
    rw [sampleCount_eq, members_union hne, Member.sampleCount_union fun us hus hsub ↦
      ih _ (heights_lt_of_subset_paramsOf hus hsub) us rfl]
    clear ih hne
    induction ts with
    | nil => rfl
    | cons t ts ih =>
      rw [List.flatMap_cons, List.map_append, List.sum_append, ih, ← sampleCount_eq, List.map_cons,
        List.sum_cons]

end Ty

end FlowCompletion
