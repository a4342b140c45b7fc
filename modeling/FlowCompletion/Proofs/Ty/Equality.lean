import FlowCompletion.Proofs.Ty.Flattening
import FlowCompletion.Proofs.Ty.Sampled
import FlowCompletion.Ty.Equality
import Mathlib.Data.List.Perm.Subperm

namespace FlowCompletion

namespace Member

def unwatched : Member → Member
  | .itself m => .itself m
  | .instanceOf cls params samples _ => .instanceOf cls params samples none

@[simp] theorem class?_unwatched (x : Member) : x.unwatched.class? = x.class? := by cases x <;> rfl

@[simp] theorem module?_unwatched (x : Member) : x.unwatched.module? = x.module? := by
  cases x <;> rfl

@[simp] theorem kind_unwatched (x : Member) : x.unwatched.kind = x.kind := by cases x <;> rfl

@[simp] theorem rawParams_unwatched (x : Member) : x.unwatched.rawParams = x.rawParams := by
  cases x <;> rfl

@[simp] theorem samples_unwatched (x : Member) : x.unwatched.samples = x.samples := by
  cases x <;> rfl

theorem unwatched_watched (x : Member) (parent : Cell) (param : String) :
    (x.watched parent param).unwatched = x.unwatched := by
  rcases x with _ | ⟨cls, params, samples, _ | cell⟩ <;> rfl

def content (ms : List Member) : List Member := union Ty.union (ms.map unwatched)

variable {cls : ModuleId} {join : List Ty → Ty}

theorem instancesOf_map_unwatched (ms : List Member) :
    instancesOf cls (ms.map unwatched) = (instancesOf cls ms).map unwatched := by
  simp only [instancesOf, List.filter_map, Function.comp_def, class?_unwatched]

theorem unwatched_merge (group : List Member) :
    (merge join cls group).unwatched = merge join cls (group.map unwatched) := by
  by_cases h : ∃ x, group = [x]
  · obtain ⟨x, rfl⟩ := h
    rfl
  · rw [merge_eq fun x hx ↦ h ⟨x, hx⟩, merge_eq fun x hx ↦ ?_]
    · simp only [List.flatMap_map, rawParams_unwatched, samples_unwatched]
      rfl
    · obtain ⟨y, rfl, -⟩ := List.map_eq_singleton_iff.mp hx
      exact h ⟨y, rfl⟩

theorem map_unwatched_union (ms : List Member) :
    (union join ms).map unwatched = union join (ms.map unwatched) := by
  simp only [union_eq_instancesOf, List.map_append, List.map_map, List.filterMap_map,
    Function.comp_def, unwatched_merge, instancesOf_map_unwatched, class?_unwatched,
    module?_unwatched]
  rfl

theorem content_append_congr (xs : List Member) {ys ys' : List Member}
    (h : content ys = content ys') (zs : List Member) :
    content (xs ++ ys ++ zs) = content (xs ++ ys' ++ zs) := by
  simp only [content, List.map_append] at h ⊢
  rw [← union_append_union, h, union_append_union]

theorem content_union (ms : List Member) : content (union Ty.union ms) = content ms := by
  have h := union_append_union [] (ms.map unwatched) []
  rw [List.nil_append, List.append_nil, List.nil_append, List.append_nil] at h
  rw [content, map_unwatched_union, h]
  rfl

theorem content_watch (t : Ty) (parent : Cell) (param : String) :
    content (t.watch parent param).members = content t.members := by
  simp only [content, Ty.members_watch, List.map_map, Function.comp_def, unwatched_watched]

theorem mem_kinds_content {ms : List Member} {k : MemberKind} :
    k ∈ (content ms).map kind ↔ k ∈ ms.map kind := by
  simp only [content, mem_kinds_union, List.map_map, Function.comp_def, kind_unwatched]

variable {w : World}

/-- All that the instances of a class may hold under the name of a param: what was given for it, and
what their samples show. -/
def inside (w : World) (cls : ModuleId) (name : String) (ms : List Member) : List Member :=
  let group := instancesOf cls ms
  let shown := Member.instanceOf cls [] (group.flatMap samples) none
  (given (group.flatMap rawParams ++ shown.sampledParams w) name).flatMap Ty.members

theorem inside_map_unwatched (name : String) (ms : List Member) :
    inside w cls name (ms.map unwatched) = inside w cls name ms := by
  simp only [inside, instancesOf_map_unwatched, List.flatMap_map, rawParams_unwatched,
    samples_unwatched]

theorem content_inside_union (name : String) (ms : List Member) :
    content (inside w cls name (union Ty.union ms)) = content (inside w cls name ms) := by
  by_cases hnone : instancesOf cls ms = []
  · simp only [inside, instancesOf_union, hnone, if_pos]
  by_cases hone : ∃ x, instancesOf cls ms = [x]
  · obtain ⟨x, hx⟩ := hone
    simp only [inside, instancesOf_union, hx, merge, List.cons_ne_nil, if_false]
  -- several instances: what was given for the name is joined, and stands where it stood
  simp only [inside, instancesOf_union, if_neg hnone, List.flatMap_singleton, samples_merge]
  rw [merge_eq fun x hx ↦ hone ⟨x, hx⟩]
  simp only [rawParams, given_append, given_mergeParams, List.flatMap_append]
  by_cases hgiven : given ((instancesOf cls ms).flatMap rawParams) name = []
  · rw [if_pos hgiven, hgiven]
  · rw [if_neg hgiven, List.flatMap_singleton, Ty.members_union hgiven]
    exact content_append_congr [] (content_union _) _

theorem content_inside_congr {xs ys : List Member} (h : content xs = content ys) (name : String) :
    content (inside w cls name xs) = content (inside w cls name ys) := by
  have hcontent (ms : List Member) :
      content (inside w cls name ms) = content (inside w cls name (content ms)) := by
    have hunion : content (inside w cls name (content ms)) = _ :=
      content_inside_union name (ms.map unwatched)
    rw [inside_map_unwatched] at hunion
    exact hunion.symm
  rw [hcontent xs, h, ← hcontent ys]

/-- What is found by going from members to their params, and to theirs in turn. -/
def follow (w : World) : List (ModuleId × String) → List Member → List Member
  | [], ms => ms
  | (cls, name) :: path, ms => follow w path (inside w cls name ms)

theorem content_follow_congr {xs ys : List Member} (h : content xs = content ys)
    (path : List (ModuleId × String)) :
    content (follow w path xs) = content (follow w path ys) := by
  induction path generalizing xs ys with
  | nil => exact h
  | cons step path ih => exact ih (content_inside_congr h step.2)

/-- The same kinds of members are found along every path of at most `depth` params. -/
def Alike (w : World) (depth : Nat) (xs ys : List Member) : Prop :=
  ∀ path, path.length ≤ depth →
    ∀ k, k ∈ (follow w path xs).map kind ↔ k ∈ (follow w path ys).map kind

theorem Alike.symm {depth : Nat} {xs ys : List Member} (h : Alike w depth xs ys) :
    Alike w depth ys xs :=
  fun path hpath k ↦ (h path hpath k).symm

theorem Alike.trans {depth : Nat} {xs ys zs : List Member} (h : Alike w depth xs ys)
    (h' : Alike w depth ys zs) : Alike w depth xs zs :=
  fun path hpath k ↦ (h path hpath k).trans (h' path hpath k)

theorem alike_of_content {xs ys : List Member} (h : content xs = content ys) (depth : Nat) :
    Alike w depth xs ys := by
  intro path _ k
  rw [← mem_kinds_content, content_follow_congr h, mem_kinds_content]

theorem Alike.ne_nil_iff {depth : Nat} {xs ys : List Member} (h : Alike w depth xs ys) :
    xs ≠ [] ↔ ys ≠ [] := by
  have hkinds := h [] (Nat.zero_le _)
  constructor
  · rintro hxs rfl
    obtain ⟨x, hx⟩ := List.exists_mem_of_ne_nil xs hxs
    exact List.not_mem_nil ((hkinds x.kind).mp (List.mem_map_of_mem hx))
  · rintro hys rfl
    obtain ⟨y, hy⟩ := List.exists_mem_of_ne_nil ys hys
    exact List.not_mem_nil ((hkinds y.kind).mpr (List.mem_map_of_mem hy))

theorem alike_congr {depth : Nat} {xs xs' ys ys' : List Member} (hx : content xs = content xs')
    (hy : content ys = content ys') : Alike w depth xs ys ↔ Alike w depth xs' ys' := by
  constructor
  · exact fun h ↦ (alike_of_content hx.symm depth).trans (h.trans (alike_of_content hy depth))
  · exact fun h ↦ (alike_of_content hx depth).trans (h.trans (alike_of_content hy.symm depth))

theorem alike_zero {xs ys : List Member} :
    Alike w 0 xs ys ↔ ∀ k, k ∈ xs.map kind ↔ k ∈ ys.map kind := by
  constructor
  · exact fun h ↦ h [] (Nat.le_refl _)
  · intro h path hpath
    obtain rfl := List.eq_nil_of_length_eq_zero (Nat.le_zero.mp hpath)
    exact h

theorem alike_succ {depth : Nat} {xs ys : List Member} :
    Alike w (depth + 1) xs ys ↔ (∀ k, k ∈ xs.map kind ↔ k ∈ ys.map kind) ∧
      ∀ cls name, Alike w depth (inside w cls name xs) (inside w cls name ys) := by
  constructor
  · refine fun h ↦ ⟨h [] (Nat.zero_le _), fun cls name path hpath ↦ ?_⟩
    exact h ((cls, name) :: path) (Nat.succ_le_succ hpath)
  · rintro ⟨hkinds, hinside⟩ path hpath
    cases path with
    | nil => exact hkinds
    | cons step path => exact hinside step.1 step.2 path (Nat.le_of_succ_le_succ hpath)

end Member

namespace Ty

/-- No instance has two params of one name, in the type and in the params inside it. -/
inductive Named : Ty → Prop
  | intro {t : Ty} (distinct : ∀ x ∈ t.members, (x.rawParams.map Prod.fst).Nodup)
      (params : ∀ x ∈ t.members, ∀ p ∈ x.rawParams, p.2.Named) : t.Named

theorem Named.distinct {t : Ty} (h : t.Named) {x : Member} (hx : x ∈ t.members) :
    (x.rawParams.map Prod.fst).Nodup := by
  cases h with
  | intro distinct _ => exact distinct x hx

theorem Named.of_mem {t : Ty} (h : t.Named) {x : Member} (hx : x ∈ t.members) {p : String × Ty}
    (hp : p ∈ x.rawParams) : p.2.Named := by
  cases h with
  | intro _ params => exact params x hx p hp

theorem named_of_no_params {t : Ty} (h : ∀ x ∈ t.members, x.rawParams = []) : t.Named := by
  refine .intro (fun x hx ↦ ?_) fun x hx p hp ↦ ?_
  · rw [h x hx]
    exact List.nodup_nil
  · rw [h x hx] at hp
    cases hp

theorem named_union {ts : List Ty} (h : ∀ t ∈ ts, t.Named) : (union ts).Named := by
  refine union_hereditary (fun ht hx hp ↦ ht.of_mem hx hp) (fun {ts} h hparams ↦ ?_) h
  refine .intro (fun x hx ↦ ?_) hparams
  by_cases hne : ts = []
  · subst hne
    obtain rfl := List.mem_singleton.mp hx
    exact List.nodup_nil
  rw [members_union hne, Member.union_eq_instancesOf] at hx
  rcases List.mem_append.mp hx with hx | hx
  · obtain ⟨m, -, rfl⟩ := List.mem_map.mp hx
    exact List.nodup_nil
  obtain ⟨cls, -, rfl⟩ := List.mem_map.mp hx
  by_cases hone : ∃ y, Member.instancesOf cls (ts.flatMap members) = [y]
  · obtain ⟨y, hy⟩ := hone
    have hmem : y ∈ Member.instancesOf cls (ts.flatMap members) := by simp [hy]
    obtain ⟨t, ht, hyt⟩ := List.mem_flatMap.mp (Member.mem_instancesOf.mp hmem).1
    rw [hy]
    exact (h t ht).distinct hyt
  · rw [Member.merge_eq fun y hy ↦ hone ⟨y, hy⟩]
    simp only [Member.rawParams, names_mergeParams]
    exact nodup_firsts _

theorem named_of_mem_pair {t u : Ty} (ht : t.Named) (hu : u.Named) : ∀ v ∈ [t, u], v.Named :=
  List.forall_mem_cons.mpr ⟨ht, List.forall_mem_singleton.mpr hu⟩

theorem named_ofObjects (w : World) (objects : List Obj) : (ofObjects w objects).Named := by
  refine named_union fun t ht ↦ named_of_no_params fun x hx ↦ ?_
  rcases List.mem_append.mp ht with ht | ht
  · obtain ⟨cls, -, rfl⟩ := List.mem_map.mp ht
    obtain rfl := List.mem_singleton.mp hx
    rfl
  · obtain ⟨m, -, rfl⟩ := List.mem_map.mp ht
    obtain rfl := List.mem_singleton.mp hx
    rfl

theorem Named.watch {t : Ty} (h : t.Named) (parent : Cell) (param : String) :
    (t.watch parent param).Named := by
  refine .intro (fun x hx ↦ ?_) fun x hx p hp ↦ ?_
  all_goals
    rw [members_watch] at hx
    obtain ⟨y, hy, rfl⟩ := List.mem_map.mp hx
  · rw [Member.rawParams_watched]
    exact h.distinct hy
  · rw [Member.rawParams_watched] at hp
    exact h.of_mem hy hp

theorem named_of_mem_params {w : World} {t : Ty} (h : t.Named) {x : Member} (hx : x ∈ t.members) :
    ∀ p ∈ x.params w, p.2.Named :=
  Member.of_mem_params (fun ht hu ↦ named_union (named_of_mem_pair ht hu)) (fun h ↦ h.watch _ _)
    (named_ofObjects w) fun _ hp ↦ h.of_mem hx hp

end Ty

namespace Member

variable {w : World} {x : Member} {params all : List (String × Ty)} {name : String} {t : Ty}

/-- Each name has one entry, which says what all entries of another list say under that name. -/
structure Gathers (params all : List (String × Ty)) : Prop where
  distinct : (params.map Prod.fst).Nodup
  names : ∀ name, name ∈ params.map Prod.fst ↔ name ∈ all.map Prod.fst
  types : ∀ p ∈ params, content p.2.members = content ((given all p.1).flatMap Ty.members)

theorem gathers_self (h : (params.map Prod.fst).Nodup) : Gathers params params := by
  refine ⟨h, fun _ ↦ Iff.rfl, fun p hp ↦ ?_⟩
  rw [given_of_nodup h hp, List.flatMap_singleton]

theorem names_addParam :
    (addParam params name t).map Prod.fst =
      if name ∈ params.map Prod.fst then params.map Prod.fst
      else params.map Prod.fst ++ [name] := by
  induction params with
  | nil => rfl
  | cons first params ih =>
    obtain ⟨other, known⟩ := first
    rw [addParam]
    by_cases h : other = name
    · simp [h]
    · have hne : name ≠ other := fun heq ↦ h heq.symm
      rw [if_neg h, List.map_cons, ih]
      simp only [List.map_cons, List.mem_cons, hne, false_or]
      split <;> rfl

theorem mem_addParam (hparams : (params.map Prod.fst).Nodup) {p : String × Ty}
    (hp : p ∈ addParam params name t) :
    (p.1 ≠ name ∧ p ∈ params) ∨
      (∃ known, (name, known) ∈ params ∧ p = (name, Ty.union [known, t])) ∨
      (name ∉ params.map Prod.fst ∧ p = (name, t)) := by
  induction params with
  | nil => exact .inr (.inr ⟨List.not_mem_nil, List.mem_singleton.mp hp⟩)
  | cons first params ih =>
    obtain ⟨other, known⟩ := first
    obtain ⟨hfirst, hrest⟩ := List.nodup_cons.mp hparams
    rw [addParam] at hp
    split at hp
    case isTrue h =>
      subst h
      rcases List.mem_cons.mp hp with rfl | hp
      · exact .inr (.inl ⟨known, List.mem_cons_self, rfl⟩)
      · have hne : p.1 ≠ other := fun heq ↦ hfirst (List.mem_map.mpr ⟨p, hp, heq⟩)
        exact .inl ⟨hne, List.mem_cons_of_mem _ hp⟩
    case isFalse h =>
      rcases List.mem_cons.mp hp with rfl | hp
      · exact .inl ⟨h, List.mem_cons_self⟩
      rcases ih hrest hp with ⟨hne, hp⟩ | ⟨u, hu, rfl⟩ | ⟨hnew, rfl⟩
      · exact .inl ⟨hne, List.mem_cons_of_mem _ hp⟩
      · exact .inr (.inl ⟨u, List.mem_cons_of_mem _ hu, rfl⟩)
      · refine .inr (.inr ⟨fun hmem ↦ ?_, rfl⟩)
        rcases List.mem_cons.mp hmem with heq | hmem
        · exact h heq.symm
        · exact hnew hmem

theorem Gathers.addParam (h : Gathers params all) (name : String) (t : Ty) :
    Gathers (addParam params name t) (all ++ [(name, t)]) := by
  refine ⟨?_, fun other ↦ ?_, fun p hp ↦ ?_⟩
  · rw [names_addParam]
    split
    case isTrue => exact h.distinct
    case isFalse hnew =>
      exact List.nodup_append'.mpr ⟨h.distinct, List.nodup_singleton _, by simpa using hnew⟩
  · rw [names_addParam, List.map_append, List.mem_append, ← h.names]
    split
    case isTrue hmem =>
      refine ⟨.inl, fun hother ↦ hother.elim id fun heq ↦ ?_⟩
      rwa [List.mem_singleton.mp heq]
    case isFalse => exact List.mem_append
  · rw [given_append, List.flatMap_append]
    rcases mem_addParam h.distinct hp with ⟨hne, hp⟩ | ⟨known, hknown, rfl⟩ | ⟨hnew, rfl⟩
    · rw [h.types p hp]
      have hnone : given [(name, t)] p.1 = [] := by simp [given, Ne.symm hne]
      rw [hnone, List.flatMap_nil, List.append_nil]
    · have hadded : given [(name, t)] name = [t] := by simp [given]
      rw [Ty.members_union (List.cons_ne_nil _ _), content_union, hadded, List.flatMap_cons]
      exact content_append_congr [] (h.types _ hknown) _
    · have hadded : given [(name, t)] name = [t] := by simp [given]
      have hnone : given all name = [] := by
        by_contra hne
        exact hnew ((h.names name).mpr (given_ne_nil.mp hne))
      rw [hnone, hadded]
      simp

theorem Gathers.map {f : String × Ty → String × Ty} (h : Gathers params all)
    (hname : ∀ p, (f p).1 = p.1) (hcontent : ∀ p, content (f p).2.members = content p.2.members) :
    Gathers (params.map f) all := by
  have hnames : (params.map f).map Prod.fst = params.map Prod.fst := by
    rw [List.map_map]
    exact List.map_congr_left fun p _ ↦ hname p
  refine ⟨hnames ▸ h.distinct, fun name ↦ hnames ▸ h.names name, fun p hp ↦ ?_⟩
  obtain ⟨q, hq, rfl⟩ := List.mem_map.mp hp
  rw [hname, hcontent, h.types q hq]

theorem Gathers.foldl {step : List (String × Ty) → String × Ty → List (String × Ty)}
    (hstep : ∀ {params all} (p : String × Ty), Gathers params all →
      Gathers (step params p) (all ++ [p]))
    (h : Gathers params all) (sampled : List (String × Ty)) :
    Gathers (sampled.foldl step params) (all ++ sampled) := by
  induction sampled generalizing params all with
  | nil => simpa using h
  | cons p sampled ih =>
    rw [List.append_cons]
    exact ih (hstep p h)

theorem gathers_params (h : (x.rawParams.map Prod.fst).Nodup) :
    Gathers (x.params w) (x.rawParams ++ x.sampledParams w) := by
  refine (gathers_self h).foldl (fun p hall ↦ ?_) _
  refine (hall.addParam p.1 p.2).map (fun q ↦ ?_) fun q ↦ ?_
  · dsimp only
    split
    · split <;> rfl
    · rfl
  · dsimp only
    split
    · split
      · exact content_watch _ _ _
      · rfl
    · rfl

theorem inside_ne_nil {ms : List Member} {cls : ModuleId} :
    inside w cls name ms ≠ [] ↔ name ∈ ((instancesOf cls ms).flatMap rawParams ++
      sampledParams w (.instanceOf cls [] ((instancesOf cls ms).flatMap samples) none)).map
        Prod.fst := by
  rw [← given_ne_nil]
  refine not_congr ⟨fun h ↦ ?_, fun h ↦ by rw [inside, h, List.flatMap_nil]⟩
  by_contra hne
  obtain ⟨t, ht⟩ := List.exists_mem_of_ne_nil _ hne
  exact t.members_ne_nil (List.flatMap_eq_nil_iff.mp h t ht)

theorem sampledParams_instanceOf {cls : ModuleId} (h : x.class? = some cls) :
    sampledParams w (.instanceOf cls [] x.samples none) = x.sampledParams w := by
  cases x with
  | itself m => cases h
  | instanceOf c params samples cell =>
    obtain rfl := Option.some.inj h
    rfl

end Member

theorem match_iff_of_nodup {α β κ : Type} {as : List α} {bs : List β} {f : α → κ} {g : β → κ}
    (hf : (as.map f).Nodup) (hg : (bs.map g).Nodup) (r : α → β → Prop) :
    (as.length = bs.length ∧ ∀ a ∈ as, ∃ b ∈ bs, f a = g b ∧ r a b) ↔
      (∀ k, k ∈ as.map f ↔ k ∈ bs.map g) ∧ ∀ a ∈ as, ∀ b ∈ bs, f a = g b → r a b := by
  constructor
  · rintro ⟨hlen, hmatch⟩
    have hsub : as.map f ⊆ bs.map g := by
      intro k hk
      obtain ⟨a, ha, rfl⟩ := List.mem_map.mp hk
      obtain ⟨b, hb, heq, -⟩ := hmatch a ha
      exact List.mem_map.mpr ⟨b, hb, heq.symm⟩
    have hperm : (as.map f).Perm (bs.map g) := by
      refine (List.subperm_of_subset hf hsub).perm_of_length_le (Nat.le_of_eq ?_)
      rw [List.length_map, List.length_map, hlen]
    refine ⟨fun k ↦ hperm.mem_iff, fun a ha b hb heq ↦ ?_⟩
    obtain ⟨b', hb', heq', hr⟩ := hmatch a ha
    obtain rfl := List.inj_on_of_nodup_map hg hb hb' (heq.symm.trans heq')
    exact hr
  · rintro ⟨hkeys, hr⟩
    refine ⟨?_, fun a ha ↦ ?_⟩
    · have hlen := ((List.perm_ext_iff_of_nodup hf hg).mpr hkeys).length_eq
      rwa [List.length_map, List.length_map] at hlen
    · obtain ⟨b, hb, heq⟩ := List.mem_map.mp ((hkeys (f a)).mp (List.mem_map_of_mem ha))
      exact ⟨b, hb, heq.symm, hr a ha b hb heq.symm⟩

theorem sameParams_iff {same : Ty → Ty → Bool} {ps qs : List (String × Ty)}
    (hps : (ps.map Prod.fst).Nodup) (hqs : (qs.map Prod.fst).Nodup) :
    sameParams same ps qs = true ↔ (∀ name, name ∈ ps.map Prod.fst ↔ name ∈ qs.map Prod.fst) ∧
      ∀ p ∈ ps, ∀ q ∈ qs, p.1 = q.1 → same p.2 q.2 = true := by
  rw [← match_iff_of_nodup hps hqs fun p q ↦ same p.2 q.2 = true]
  simp only [sameParams, Bool.and_eq_true, beq_iff_eq, List.all_eq_true, List.any_eq_true]

theorem Member.same_iff {same : Member → Member → Bool} {x y : Member} :
    Member.same same x y = true ↔
      x.kind = y.kind ∧ (∀ cls, x.class? = some cls → same x y = true) := by
  cases x <;> cases y <;> simp [Member.same, kind, class?]

namespace Ty

variable {w : World} {t u : Ty}

theorem WellFormed.distinct (h : t.WellFormed) : t.kinds.Nodup := by
  cases h with
  | intro _ distinct _ => exact distinct

theorem sameMembers_iff {same : Member → Member → Bool} (ht : t.kinds.Nodup) (hu : u.kinds.Nodup) :
    sameMembers (Member.same same) t u = true ↔ (∀ k, k ∈ t.kinds ↔ k ∈ u.kinds) ∧
      ∀ x ∈ t.members, ∀ y ∈ u.members, x.kind = y.kind →
        ∀ cls, x.class? = some cls → same x y = true := by
  refine Iff.trans ?_ (match_iff_of_nodup ht hu fun x y ↦
    ∀ cls, x.class? = some cls → same x y = true)
  simp only [sameMembers, Bool.and_eq_true, beq_iff_eq, List.all_eq_true, List.any_eq_true,
    Member.same_iff]

theorem instancesOf_members (h : t.kinds.Nodup) {x : Member} (hx : x ∈ t.members)
    {cls : ModuleId} (hc : x.class? = some cls) : Member.instancesOf cls t.members = [x] := by
  have hkinds : ((Member.instancesOf cls t.members).map Member.kind).Nodup :=
    h.sublist (List.filter_sublist.map _)
  have hmem : x ∈ Member.instancesOf cls t.members := Member.mem_instancesOf.mpr ⟨hx, hc⟩
  have hall : ∀ k ∈ (Member.instancesOf cls t.members).map Member.kind, k = .instanceOf cls := by
    intro k hk
    obtain ⟨y, hy, rfl⟩ := List.mem_map.mp hk
    exact Member.kind_eq_instanceOf.mpr (Member.mem_instancesOf.mp hy).2
  rw [List.eq_replicate_of_mem hall, List.nodup_replicate, List.length_map] at hkinds
  obtain ⟨y, hy⟩ := List.length_eq_one_iff.mp (Nat.le_antisymm hkinds (List.length_pos_of_mem hmem))
  rw [hy] at hmem ⊢
  rw [List.mem_singleton.mp hmem]

theorem gathers_inside (h : t.kinds.Nodup) (hn : t.Named) {x : Member} (hx : x ∈ t.members)
    {cls : ModuleId} (hc : x.class? = some cls) :
    (∀ name, name ∈ (x.params w).map Prod.fst ↔ Member.inside w cls name t.members ≠ []) ∧
      ∀ p ∈ x.params w, Member.content p.2.members =
        Member.content (Member.inside w cls p.1 t.members) := by
  have hparams := Member.gathers_params (w := w) (hn.distinct hx)
  have hinside := instancesOf_members h hx hc
  have hsampled := Member.sampledParams_instanceOf (w := w) hc
  constructor
  · intro name
    rw [Member.inside_ne_nil, hinside, List.flatMap_singleton, List.flatMap_singleton, hsampled]
    exact hparams.names name
  · intro p hp
    rw [Member.inside, hinside, List.flatMap_singleton, List.flatMap_singleton, hsampled]
    exact hparams.types p hp

theorem inside_eq_nil {cls : ModuleId} (h : .instanceOf cls ∉ t.kinds) (name : String) :
    Member.inside w cls name t.members = [] := by
  have hnone : Member.instancesOf cls t.members = [] := by
    by_contra hne
    obtain ⟨x, hx⟩ := List.exists_mem_of_ne_nil _ hne
    obtain ⟨hx, hc⟩ := Member.mem_instancesOf.mp hx
    exact h (List.mem_map.mpr ⟨x, hx, Member.kind_eq_instanceOf.mpr hc⟩)
  simp [Member.inside, hnone, Member.sampledParams, Member.samples, given]

theorem sameParams_iff_inside {depth : Nat} {same : Ty → Ty → Bool} (ht : t.WellFormed)
    (hu : u.WellFormed) (htn : t.Named) (hun : u.Named) {x y : Member} (hx : x ∈ t.members)
    (hy : y ∈ u.members) {cls : ModuleId} (hcx : x.class? = some cls) (hcy : y.class? = some cls)
    (hsame : ∀ p ∈ x.params w, ∀ q ∈ y.params w,
      same p.2 q.2 = true ↔ Member.Alike w depth p.2.members q.2.members) :
    sameParams same (x.params w) (y.params w) = true ↔
      ∀ name, Member.Alike w depth (Member.inside w cls name t.members)
        (Member.inside w cls name u.members) := by
  obtain ⟨hxnames, hxtypes⟩ := gathers_inside (w := w) ht.distinct htn hx hcx
  obtain ⟨hynames, hytypes⟩ := gathers_inside (w := w) hu.distinct hun hy hcy
  rw [sameParams_iff (Member.gathers_params (htn.distinct hx)).distinct
    (Member.gathers_params (hun.distinct hy)).distinct]
  constructor
  · rintro ⟨hnames, hall⟩ name
    by_cases hname : name ∈ (x.params w).map Prod.fst
    · obtain ⟨p, hp, rfl⟩ := List.mem_map.mp hname
      obtain ⟨q, hq, heq⟩ := List.mem_map.mp ((hnames p.1).mp hname)
      have halike := (hsame p hp q hq).mp (hall p hp q hq heq.symm)
      exact (Member.alike_congr (hxtypes p hp) (heq ▸ hytypes q hq)).mp halike
    · have hxnil := not_not.mp (mt (hxnames name).mpr hname)
      have hynil := not_not.mp (mt (hynames name).mpr (mt (hnames name).mpr hname))
      rw [hxnil, hynil]
      exact Member.alike_of_content rfl depth
  · refine fun hall ↦ ⟨fun name ↦ ?_, fun p hp q hq heq ↦ (hsame p hp q hq).mpr ?_⟩
    · rw [hxnames, hynames]
      exact (hall name).ne_nil_iff
    · exact (Member.alike_congr (hxtypes p hp) (heq ▸ hytypes q hq)).mpr (hall p.1)

theorem equalWithin_iff {depth : Nat} (ht : t.WellFormed) (hu : u.WellFormed) (htn : t.Named)
    (hun : u.Named) :
    equalWithin w depth t u = true ↔ Member.Alike w depth t.members u.members := by
  induction depth generalizing t u with
  | zero =>
    rw [equalWithin, sameMembers_iff ht.distinct hu.distinct, Member.alike_zero]
    exact and_iff_left fun _ _ _ _ _ _ _ ↦ rfl
  | succ depth ih =>
    rw [equalWithin, sameMembers_iff ht.distinct hu.distinct, Member.alike_succ]
    refine and_congr_right fun hkinds ↦ ?_
    have hparams {x y : Member} (hx : x ∈ t.members) (hy : y ∈ u.members) {cls : ModuleId}
        (hcx : x.class? = some cls) (hcy : y.class? = some cls) :=
      sameParams_iff_inside ht hu htn hun hx hy hcx hcy fun p hp q hq ↦
        ih (Member.wellFormed_of_mem_params (ht.ofMember hx) p hp)
          (Member.wellFormed_of_mem_params (hu.ofMember hy) q hq)
          (named_of_mem_params htn hx p hp) (named_of_mem_params hun hy q hq)
    constructor
    · intro hall cls name
      by_cases hmem : .instanceOf cls ∈ t.kinds
      · obtain ⟨x, hx, hkx⟩ := List.mem_map.mp hmem
        obtain ⟨y, hy, hky⟩ := List.mem_map.mp ((hkinds _).mp hmem)
        have hcx := Member.kind_eq_instanceOf.mp hkx
        have hsame := hall x hx y hy (hkx.trans hky.symm) cls hcx
        exact (hparams hx hy hcx (Member.kind_eq_instanceOf.mp hky)).mp hsame name
      · rw [inside_eq_nil hmem, inside_eq_nil (mt (hkinds _).mpr hmem)]
        exact Member.alike_of_content rfl depth
    · intro hall x hx y hy hk cls hcx
      have hcy := Member.kind_eq_instanceOf.mp (hk ▸ Member.kind_eq_instanceOf.mpr hcx)
      exact (hparams hx hy hcx hcy).mpr (hall cls)

theorem equal_union_iff {ts us : List Ty} (hts : ts ≠ []) (hus : us ≠ [])
    (ht : ∀ t ∈ ts, t.WellFormed ∧ t.Named) (hu : ∀ u ∈ us, u.WellFormed ∧ u.Named) :
    equal w (union ts) (union us) = true ↔
      Member.Alike w equalityDepth (ts.flatMap members) (us.flatMap members) := by
  rw [equal, equalWithin_iff (wellFormed_union fun t h ↦ (ht t h).1)
    (wellFormed_union fun u h ↦ (hu u h).1) (named_union fun t h ↦ (ht t h).2)
    (named_union fun u h ↦ (hu u h).2), members_union hts, members_union hus]
  exact Member.alike_congr (Member.content_union _) (Member.content_union _)

theorem sameMembers_self {same : Member → Member → Bool} (h : ∀ x, same x x = true) (t : Ty) :
    sameMembers same t t = true := by
  simp only [sameMembers, Bool.and_eq_true, beq_self_eq_true, List.all_eq_true, List.any_eq_true,
    true_and]
  exact fun x hx ↦ ⟨x, hx, h x⟩

theorem sameParams_self {same : Ty → Ty → Bool} (h : ∀ t, same t t = true)
    (params : List (String × Ty)) : sameParams same params params = true := by
  simp only [sameParams, Bool.and_eq_true, beq_self_eq_true, List.all_eq_true, List.any_eq_true,
    true_and]
  exact fun p hp ↦ ⟨p, hp, by simpa using h p.2⟩

theorem equalWithin_self (depth : Nat) (t : Ty) : equalWithin w depth t t = true := by
  induction depth generalizing t with
  | zero => exact sameMembers_self (fun x ↦ Member.same_iff.mpr ⟨rfl, fun _ _ ↦ rfl⟩) t
  | succ depth ih =>
    refine sameMembers_self (fun x ↦ Member.same_iff.mpr ⟨rfl, fun _ _ ↦ ?_⟩) t
    exact sameParams_self ih _

/-- Equality is an equivalence of the types in normal form whose instances name each param once,
whatever the live containers hold: two types are equal just if the same kinds of members are found
along every path of at most eight params. -/
theorem equal_equivalence (w : World) :
    Equivalence (fun t u : {t : Ty // t.WellFormed ∧ t.Named} ↦ equal w t u = true) ∧
      ∀ t u : {t : Ty // t.WellFormed ∧ t.Named},
        equal w t u = true ↔ Member.Alike w equalityDepth t.1.members u.1.members := by
  have hiff (t u : {t : Ty // t.WellFormed ∧ t.Named}) :
      equal w t u = true ↔ Member.Alike w equalityDepth t.1.members u.1.members :=
    equalWithin_iff t.2.1 u.2.1 t.2.2 u.2.2
  refine ⟨⟨fun t ↦ equalWithin_self equalityDepth t.1, fun {t u} h ↦ ?_, fun {t u v} h h' ↦ ?_⟩,
    hiff⟩
  · exact (hiff u t).mpr ((hiff t u).mp h).symm
  · exact (hiff t v).mpr (((hiff t u).mp h).trans ((hiff u v).mp h'))

/-- Two arrays that hold themselves are equal, and differ from an array of such arrays and `nil`. -/
example :
    let w : World := { instances := #[⟨.array, .array [.ofInstance ⟨0⟩], [], []⟩,
      ⟨.array, .array [.ofInstance ⟨1⟩], [], []⟩] }
    equal w (seen .array [.ofInstance ⟨0⟩]) (seen .array [.ofInstance ⟨1⟩]) = true ∧
      equal w (arrayOf [seen .array [.ofInstance ⟨0⟩], nil]) (seen .array [.ofInstance ⟨1⟩]) =
        false := by
  decide +kernel

end Ty

end FlowCompletion
