import FlowCompletion.Proofs.Ty.Equality
import FlowCompletion.Proofs.Ty.SampleCount

namespace FlowCompletion

theorem firsts_perm {α : Type} [DecidableEq α] {l m : List α} (h : ∀ a, a ∈ l ↔ a ∈ m) :
    (firsts l).Perm (firsts m) := by
  refine (List.perm_ext_iff_of_nodup (nodup_firsts l) (nodup_firsts m)).mpr fun a ↦ ?_
  rw [mem_firsts, mem_firsts, h]

theorem firsts_sublist {α : Type} [DecidableEq α] (l : List α) : (firsts l).Sublist l := by
  induction l with
  | nil => exact .refl _
  | cons a l ih => exact (List.filter_sublist.trans ih).cons_cons a

theorem given_perm {ps qs : List (String × Ty)} (h : ps.Perm qs) (name : String) :
    (given ps name).Perm (given qs name) :=
  (h.filter _).map _

theorem nodup_names_mergeParams {join : List Ty → Ty} (params : List (String × Ty)) :
    ((mergeParams join params).map Prod.fst).Nodup :=
  (names_mergeParams params).symm ▸ nodup_firsts _

namespace Member

variable {w : World}

theorem params_of_samples_eq_nil {x : Member} (h : x.samples = []) : x.params w = x.rawParams := by
  rw [params, sampledParams, h]
  rfl

theorem rawParams_eq_nil {x : Member} (h : x.class? = none) : x.rawParams = [] := by
  cases x with
  | itself m => rfl
  | instanceOf => cases h

end Member

namespace Ty

variable {w : World} {t : Ty} {depth : Nat}

theorem sampleCount_eq_zero_iff : t.sampleCount = 0 ↔
    ∀ x ∈ t.members, x.samples = [] ∧ ∀ p ∈ x.rawParams, p.2.sampleCount = 0 := by
  have hmember (x : Member) : x.sampleCount = 0 ↔
      x.samples = [] ∧ ∀ p ∈ x.rawParams, p.2.sampleCount = 0 := by
    rw [Member.sampleCount_eq, Nat.add_eq_zero_iff, List.length_eq_zero_iff, paramTotal,
      List.sum_eq_zero_iff_forall_eq_nat, List.forall_mem_map]
  rw [sampleCount_eq, List.sum_eq_zero_iff_forall_eq_nat, List.forall_mem_map]
  exact forall₂_congr fun x _ ↦ hmember x

theorem mem_kinds_union_of_perm {ts us : List Ty} (h : ts.Perm us) (k : MemberKind) :
    k ∈ (union ts).kinds ↔ k ∈ (union us).kinds := by
  by_cases hne : ts = []
  · subst hne
    rw [List.nil_perm.mp h]
  · have hne' : us ≠ [] := fun hnil ↦ hne (List.perm_nil.mp (hnil ▸ h))
    simp only [mem_kinds_union hne, mem_kinds_union hne', h.mem_iff]

theorem sameParams_merge_of_perm {cls : ModuleId} {xs ys : List Member} (h : xs.Perm ys)
    (hsamples : ∀ x ∈ xs, x.samples = [])
    (hjoin : ∀ us vs, us.Perm vs → (∀ u ∈ us, u ∈ paramsOf xs) →
      equalWithin w depth (union us) (union vs) = true) :
    sameParams (equalWithin w depth) ((Member.merge union cls xs).params w)
      ((Member.merge union cls ys).params w) = true := by
  by_cases hone : ∃ x, xs = [x]
  · obtain ⟨x, rfl⟩ := hone
    rw [List.singleton_perm.mp h]
    exact sameParams_self (equalWithin_self depth) _
  have hxs : xs.flatMap Member.samples = [] := List.flatMap_eq_nil_iff.mpr hsamples
  have hys : ys.flatMap Member.samples = [] :=
    List.flatMap_eq_nil_iff.mpr fun y hy ↦ hsamples y (h.mem_iff.mpr hy)
  have hraw : (xs.flatMap Member.rawParams).Perm (ys.flatMap Member.rawParams) := h.flatMap_right _
  rw [Member.params_of_samples_eq_nil (by rw [Member.samples_merge, hxs]),
    Member.params_of_samples_eq_nil (by rw [Member.samples_merge, hys]),
    Member.merge_eq fun x hx ↦ hone ⟨x, hx⟩,
    Member.merge_eq fun y hy ↦ hone ⟨y, List.perm_singleton.mp (hy ▸ h)⟩]
  refine (sameParams_iff (nodup_names_mergeParams _) (nodup_names_mergeParams _)).mpr
    ⟨fun name ↦ ?_, ?_⟩
  · simp only [names_mergeParams, mem_firsts, (hraw.map Prod.fst).mem_iff]
  · rintro ⟨name, u⟩ hp ⟨_, v⟩ hq rfl
    obtain ⟨-, rfl⟩ := mem_mergeParams.mp hp
    obtain ⟨-, rfl⟩ := mem_mergeParams.mp hq
    refine hjoin _ _ (given_perm hraw name) fun u hu ↦ ?_
    simpa only [paramsOf, List.map_flatMap] using mem_of_mem_given hu

theorem equalWithin_union_of_perm {ts us : List Ty} (h : ts.Perm us)
    (hts : ∀ t ∈ ts, t.sampleCount = 0) :
    equalWithin w depth (union ts) (union us) = true := by
  -- by depth: the params of the unions are unions of lists in another order again
  induction depth generalizing ts us with
  | zero =>
    rw [equalWithin, sameMembers_iff (nodup_kinds_union ts) (nodup_kinds_union us)]
    exact ⟨mem_kinds_union_of_perm h, fun _ _ _ _ _ _ _ ↦ rfl⟩
  | succ depth ih =>
    by_cases hne : ts = []
    · subst hne
      rw [List.nil_perm.mp h]
      exact equalWithin_self _ _
    have hne' : us ≠ [] := fun hnil ↦ hne (List.perm_nil.mp (hnil ▸ h))
    rw [equalWithin, sameMembers_iff (nodup_kinds_union ts) (nodup_kinds_union us)]
    refine ⟨mem_kinds_union_of_perm h, fun x hx y hy hk cls hc ↦ ?_⟩
    have hcy := Member.kind_eq_instanceOf.mp (hk ▸ Member.kind_eq_instanceOf.mpr hc)
    rw [members_union hne] at hx
    rw [members_union hne'] at hy
    rw [Member.eq_merge_of_mem_union hx hc, Member.eq_merge_of_mem_union hy hcy]
    have hmember {z : Member} (hz : z ∈ Member.instancesOf cls (ts.flatMap members)) :
        z.samples = [] ∧ ∀ p ∈ z.rawParams, p.2.sampleCount = 0 := by
      obtain ⟨t, ht, hz⟩ := List.mem_flatMap.mp (Member.mem_instancesOf.mp hz).1
      exact sampleCount_eq_zero_iff.mp (hts t ht) z hz
    refine sameParams_merge_of_perm ((h.flatMap_right members).filter _) (fun z hz ↦ (hmember hz).1)
      fun us vs huv hus ↦ ih huv fun u hu ↦ ?_
    obtain ⟨z, hz, p, hp, rfl⟩ := mem_paramsOf.mp (hus u hu)
    exact (hmember hz).2 p hp

/-- The order in which types are joined makes no difference if they have no samples. -/
theorem union_perm_equal (w : World) {ts us : List Ty} (h : ts.Perm us)
    (hts : ∀ t ∈ ts, t.sampleCount = 0) : equal w (union ts) (union us) = true :=
  equalWithin_union_of_perm h hts

/-- The string in the first of two arrays is overlooked if the second array comes before it. -/
def orderedWorld : World where
  instances := #[⟨.integer, .integer 1, [], []⟩, ⟨.string, .string "a", [], []⟩,
    ⟨.array, .array (List.replicate 17 (.ofInstance ⟨0⟩) ++ [.ofInstance ⟨1⟩]), [], []⟩,
    ⟨.array, .array (List.replicate 34 (.ofInstance ⟨0⟩)), [], []⟩]

theorem union_perm_equal_reversed :
    let ts := [arrayOf [integer], singleton .string, arrayOf [string, hashOf symbol nil], nil]
    (ts.Perm ts.reverse ∧ ∀ t ∈ ts, t.sampleCount = 0) ∧
      equal World.initial (union ts) (union ts.reverse) = true ∧
      equal orderedWorld (union [seen .array [.ofInstance ⟨2⟩], seen .array [.ofInstance ⟨3⟩]])
        (union [seen .array [.ofInstance ⟨3⟩], seen .array [.ofInstance ⟨2⟩]]) = false := by
  intro ts
  have hperm : ts.Perm ts.reverse := ts.reverse_perm.symm
  have hts : ∀ t ∈ ts, t.sampleCount = 0 := by decide +kernel
  exact ⟨⟨hperm, hts⟩, union_perm_equal _ hperm hts, by decide +kernel⟩

def NamedWithin : Nat → Ty → Prop
  | 0, _ => True
  | depth + 1, t => ∀ x ∈ t.members,
      (x.rawParams.map Prod.fst).Nodup ∧ ∀ p ∈ x.rawParams, NamedWithin depth p.2

instance decidableNamedWithin : (depth : Nat) → (t : Ty) → Decidable (NamedWithin depth t)
  | 0, _ => .isTrue trivial
  | depth + 1, t =>
    have := decidableNamedWithin depth
    inferInstanceAs (Decidable (∀ x ∈ t.members,
      (x.rawParams.map Prod.fst).Nodup ∧ ∀ p ∈ x.rawParams, NamedWithin depth p.2))

theorem given_replicate {params : List (String × Ty)} (h : (params.map Prod.fst).Nodup)
    {p : String × Ty} (hp : p ∈ params) (n : Nat) :
    given (List.replicate n params).flatten p.1 = List.replicate n p.2 := by
  induction n with
  | zero => rfl
  | succ n ih =>
    rw [List.replicate_succ, List.flatten_cons, given_append, ih, given_of_nodup h hp]
    rfl

theorem mem_flatten_replicate {α : Type} {n : Nat} (hn : n ≠ 0) {l : List α} {a : α} :
    a ∈ (List.replicate n l).flatten ↔ a ∈ l := by
  simp [List.mem_flatten, List.mem_replicate, hn]

theorem sameParams_mergeParams_replicate {same : Ty → Ty → Bool} {n : Nat} (hn : n ≠ 0)
    (params : List (String × Ty)) :
    sameParams same (mergeParams union (List.replicate n params).flatten) params = true ↔
      (params.map Prod.fst).Nodup ∧
        ∀ p ∈ params, same (union (List.replicate n p.2)) p.2 = true := by
  have hnames (name : String) :
      name ∈ (List.replicate n params).flatten.map Prod.fst ↔ name ∈ params.map Prod.fst := by
    simp only [List.mem_map, mem_flatten_replicate hn]
  by_cases hnodup : (params.map Prod.fst).Nodup
  case neg =>
    -- fewer params than before: the others were joined to one of their name
    refine iff_of_false (fun h ↦ hnodup ?_) fun h ↦ hnodup h.1
    have hlen : (firsts (params.map Prod.fst)).length = (params.map Prod.fst).length := by
      rw [sameParams, Bool.and_eq_true, beq_iff_eq, mergeParams, List.length_map] at h
      rw [← (firsts_perm hnames).length_eq, h.1, List.length_map]
    rw [← (firsts_sublist _).eq_of_length hlen]
    exact nodup_firsts _
  case pos =>
    rw [sameParams_iff (nodup_names_mergeParams _) hnodup, and_iff_right hnodup]
    have hall : (∀ p ∈ mergeParams union (List.replicate n params).flatten, ∀ q ∈ params,
        p.1 = q.1 → same p.2 q.2 = true) ↔
        ∀ q ∈ params, same (union (List.replicate n q.2)) q.2 = true := by
      constructor
      · intro h q hq
        have hmem : q.1 ∈ (List.replicate n params).flatten.map Prod.fst :=
          (hnames q.1).mpr (List.mem_map_of_mem hq)
        have hsame := h (q.1, _) (mem_mergeParams.mpr ⟨hmem, rfl⟩) q hq rfl
        rwa [given_replicate hnodup hq] at hsame
      · rintro h ⟨name, u⟩ hp q hq rfl
        obtain ⟨-, rfl⟩ := mem_mergeParams.mp hp
        rw [given_replicate hnodup hq]
        exact h q hq
    rw [hall]
    refine and_iff_right fun name ↦ ?_
    rw [names_mergeParams, mem_firsts, hnames]

theorem eq_merge_replicate (ht : t.kinds.Nodup) {n : Nat} {x y : Member}
    (hx : x ∈ Member.union union ((List.replicate n t).flatMap members)) (hy : y ∈ t.members)
    {cls : ModuleId} (hcx : x.class? = some cls) (hcy : y.class? = some cls) :
    x = Member.merge union cls (List.replicate n y) := by
  have hgroup : Member.instancesOf cls ((List.replicate n t).flatMap members) =
      List.replicate n y := by
    have hone : (t.members.filter fun x ↦ x.class? = some cls) = [y] :=
      instancesOf_members ht hy hcy
    rw [Member.instancesOf, List.filter_flatMap, List.flatMap_replicate, hone]
    simp
  rw [← hgroup]
  exact Member.eq_merge_of_mem_union hx hcx

theorem sameParams_merge_replicate {n : Nat} (hn : n ≠ 0) {x : Member} (hsamples : x.samples = [])
    (cls : ModuleId) :
    sameParams (equalWithin w depth) ((Member.merge union cls (List.replicate n x)).params w)
        (x.params w) = true ↔
      n = 1 ∨ (x.rawParams.map Prod.fst).Nodup ∧
        ∀ p ∈ x.rawParams, equalWithin w depth (union (List.replicate n p.2)) p.2 = true := by
  by_cases hone : n = 1
  · subst hone
    exact iff_of_true (sameParams_self (equalWithin_self depth) _) (.inl rfl)
  have hmerge : Member.merge union cls (List.replicate n x) =
      .instanceOf cls (mergeParams union (List.replicate n x.rawParams).flatten) [] none := by
    rw [Member.merge_eq fun y hy ↦ hone (by simpa using congrArg List.length hy),
      List.flatMap_def, List.map_replicate, List.flatMap_def, List.map_replicate, hsamples]
    simp
  rw [hmerge, Member.params_of_samples_eq_nil rfl, Member.params_of_samples_eq_nil hsamples,
    Member.rawParams, sameParams_mergeParams_replicate hn, or_iff_right hone]

/-- A type that is joined with itself is equal to what it was just if its params are named apart. -/
theorem equalWithin_union_replicate_iff {n : Nat} (hn : n ≠ 0) (ht : t.WellFormed)
    (hs : t.sampleCount = 0) :
    equalWithin w depth (union (List.replicate n t)) t = true ↔ n = 1 ∨ t.NamedWithin depth := by
  have hne (t : Ty) : List.replicate n t ≠ [] := by simpa using hn
  have hkinds (t : Ty) (k : MemberKind) :
      k ∈ (union (List.replicate n t)).kinds ↔ k ∈ t.kinds := by
    simp [mem_kinds_union (hne t), List.mem_replicate, hn]
  -- by depth: the params of the repeated instances are repeated types
  induction depth generalizing t with
  | zero =>
    rw [equalWithin, sameMembers_iff (nodup_kinds_union _) ht.distinct]
    exact iff_of_true ⟨hkinds t, fun _ _ _ _ _ _ _ ↦ rfl⟩ (.inr trivial)
  | succ depth ih =>
    have hparams {y : Member} (hy : y ∈ t.members) (cls : ModuleId) :
        sameParams (equalWithin w depth) ((Member.merge union cls (List.replicate n y)).params w)
          (y.params w) = true ↔ n = 1 ∨ (y.rawParams.map Prod.fst).Nodup ∧
            ∀ p ∈ y.rawParams, p.2.NamedWithin depth := by
      obtain ⟨hsamples, hcounts⟩ := sampleCount_eq_zero_iff.mp hs y hy
      rw [sameParams_merge_replicate hn hsamples]
      by_cases hone : n = 1
      · exact iff_of_true (.inl hone) (.inl hone)
      · refine or_congr_right (and_congr_right fun _ ↦ forall₂_congr fun p hp ↦ ?_)
        exact (ih (ht.of_mem hy hp) (hcounts p hp)).trans (or_iff_right hone)
    rw [equalWithin, sameMembers_iff (nodup_kinds_union _) ht.distinct, and_iff_right (hkinds t),
      members_union (hne t)]
    constructor
    · refine fun h ↦ or_iff_not_imp_left.mpr fun hone y hy ↦ ?_
      cases hcy : y.class? with
      | none =>
        rw [Member.rawParams_eq_nil hcy]
        exact ⟨List.nodup_nil, List.forall_mem_nil _⟩
      | some cls =>
        obtain ⟨x, hx, hk⟩ := List.mem_map.mp ((hkinds t y.kind).mpr (List.mem_map_of_mem hy))
        rw [members_union (hne t)] at hx
        have hcx := Member.kind_eq_instanceOf.mp (hk.trans (Member.kind_eq_instanceOf.mpr hcy))
        have hsame := h x hx y hy hk cls hcx
        rw [eq_merge_replicate ht.distinct hx hy hcx hcy] at hsame
        exact ((hparams hy cls).mp hsame).resolve_left hone
    · intro h x hx y hy hk cls hcx
      have hcy := Member.kind_eq_instanceOf.mp (hk ▸ Member.kind_eq_instanceOf.mpr hcx)
      rw [eq_merge_replicate ht.distinct hx hy hcx hcy]
      exact (hparams hy cls).mpr (h.imp_right fun hnamed ↦ hnamed y hy)

end Ty

end FlowCompletion
