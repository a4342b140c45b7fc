import FlowCompletion.Proofs.Ty.Equality
import Mathlib.Data.List.Flatten

namespace FlowCompletion

/-- The second list is the first one with some repeated elements left out. -/
structure Repeats {α : Type} (xs ys : List α) : Prop where
  sublist : ys.Sublist xs
  subset : xs ⊆ ys

namespace Repeats

variable {α β : Type} {xs ys : List α}

theorem refl (xs : List α) : Repeats xs xs := ⟨List.Sublist.refl xs, List.Subset.refl xs⟩

theorem twice (xs : List α) : Repeats (xs ++ xs) xs :=
  ⟨List.sublist_append_left xs xs,
    List.append_subset.mpr ⟨List.Subset.refl xs, List.Subset.refl xs⟩⟩

theorem mem_iff (h : Repeats xs ys) {a : α} : a ∈ xs ↔ a ∈ ys :=
  ⟨fun ha ↦ h.subset ha, fun ha ↦ h.sublist.subset ha⟩

theorem eq_nil_iff (h : Repeats xs ys) : xs = [] ↔ ys = [] := by
  simp only [List.eq_nil_iff_forall_not_mem, h.mem_iff]

theorem append {xs' ys' : List α} (h : Repeats xs ys) (h' : Repeats xs' ys') :
    Repeats (xs ++ xs') (ys ++ ys') :=
  ⟨h.sublist.append h'.sublist, List.append_subset.mpr
    ⟨List.subset_append_of_subset_left _ h.subset, List.subset_append_of_subset_right _ h'.subset⟩⟩

theorem map (h : Repeats xs ys) (f : α → β) : Repeats (xs.map f) (ys.map f) :=
  ⟨h.sublist.map f, List.map_subset f h.subset⟩

theorem filter (h : Repeats xs ys) (p : α → Bool) : Repeats (xs.filter p) (ys.filter p) :=
  ⟨h.sublist.filter p, List.filter_subset p h.subset⟩

theorem filterMap (h : Repeats xs ys) (f : α → Option β) :
    Repeats (xs.filterMap f) (ys.filterMap f) :=
  ⟨h.sublist.filterMap f, List.filterMap_subset f h.subset⟩

theorem flatMap (h : Repeats xs ys) (f : α → List β) : Repeats (xs.flatMap f) (ys.flatMap f) := by
  refine ⟨h.sublist.flatMap f, fun b hb ↦ ?_⟩
  obtain ⟨a, ha, hb⟩ := List.mem_flatMap.mp hb
  exact List.mem_flatMap.mpr ⟨a, h.subset ha, hb⟩

end Repeats

namespace Member

variable {w : World} {cls : ModuleId} {name : String}

def elements? (w : World) (cls : ModuleId) (name : String) (samples : List Obj) :
    Option (List Obj) :=
  let items := (samples.filterMap w.arrayItems?).flatMap (sample sampleSize)
  let pairs := (samples.filterMap w.hashPairs?).flatMap (sample sampleSize)
  if samples = [] then none
  else if cls = .array then
    if name = "Elem" then some items else none
  else if cls = .hash then
    if name = "K" then some (pairs.map Prod.fst)
    else if name = "V" then some (pairs.map Prod.snd) else none
  else none

theorem given_sampledParams (samples : List Obj) :
    given (sampledParams w (.instanceOf cls [] samples none)) name =
      (elements? w cls name samples).toList.map (Ty.ofObjects w) := by
  simp only [sampledParams, elements?, Member.samples, class?, List.isEmpty_iff, Option.some.injEq]
  split
  · rfl
  split
  · by_cases h : name = "Elem"
    · simp [given, h]
    · simp [given, h, Ne.symm h]
  split
  · by_cases hk : name = "K"
    · simp [given, hk]
    by_cases hv : name = "V"
    · simp [given, hv]
    · simp [given, hk, hv, Ne.symm hk, Ne.symm hv]
  · rfl

theorem repeats_elements? {xs ys : List Obj} (h : Repeats xs ys) :
    Option.Rel Repeats (elements? w cls name xs) (elements? w cls name ys) := by
  have hitems := (h.filterMap w.arrayItems?).flatMap (sample sampleSize)
  have hpairs := (h.filterMap w.hashPairs?).flatMap (sample sampleSize)
  simp only [elements?, h.eq_nil_iff]
  repeat' split
  all_goals first
    | exact .none
    | exact .some hitems
    | exact .some (hpairs.map _)

def shown (w : World) (o : Obj) : Member :=
  match Ty.moduleOf? o with
  | some m => .itself m
  | none => .instanceOf (w.classOf o) [] [o] none

def shownAll (w : World) (objects : List Obj) : List Member :=
  if objects = [] then [.plain .object] else objects.map (shown w)

theorem module?_shown (o : Obj) : (shown w o).module? = Ty.moduleOf? o := by
  unfold shown
  split <;> simp_all [module?]

theorem class?_shown (o : Obj) :
    (shown w o).class? = if (Ty.moduleOf? o).isNone then some (w.classOf o) else none := by
  unfold shown
  split <;> simp_all [class?]

theorem merge_seen {join : List Ty → Ty} (objects : List Obj) :
    merge join cls (objects.map fun o ↦ .instanceOf cls [] [o] none) =
      .instanceOf cls [] objects none := by
  have hparams :
      (objects.map fun o ↦ Member.instanceOf cls [] [o] none).flatMap rawParams = [] := by
    simp [List.flatMap_map, rawParams]
  have hsamples : (objects.map fun o ↦ Member.instanceOf cls [] [o] none).flatMap samples =
      objects := by
    simp [List.flatMap_map, samples]
  by_cases h : ∃ o, objects = [o]
  · obtain ⟨o, rfl⟩ := h
    rfl
  · rw [merge_eq fun x hx ↦ ?_, hparams, hsamples]
    · rfl
    · obtain ⟨o, ho, -⟩ := List.map_eq_singleton_iff.mp hx
      exact h ⟨o, ho⟩

theorem instancesOf_map_shown (cls : ModuleId) (objects : List Obj) :
    instancesOf cls (objects.map (shown w)) =
      ((objects.filter fun o ↦ (Ty.moduleOf? o).isNone).filter fun o ↦ w.classOf o = cls).map
        fun o ↦ .instanceOf cls [] [o] none := by
  rw [instancesOf, List.filter_map, List.filter_filter]
  have hfilter : (fun x : Member ↦ decide (x.class? = some cls)) ∘ shown w =
      fun o ↦ decide (w.classOf o = cls) && (Ty.moduleOf? o).isNone := by
    funext o
    by_cases hm : (Ty.moduleOf? o).isNone <;> simp [class?_shown, hm]
  rw [hfilter]
  refine List.map_congr_left fun o ho ↦ ?_
  obtain ⟨-, ho⟩ := List.mem_filter.mp ho
  simp only [Bool.and_eq_true, decide_eq_true_eq, Option.isNone_iff_eq_none] at ho
  simp only [shown, ho.2, ho.1]

theorem union_map_shown (join : List Ty → Ty) (objects : List Obj) :
    union join (objects.map (shown w)) =
      (firsts (objects.filterMap Ty.moduleOf?)).map .itself ++
        (firsts ((objects.filter fun o ↦ (Ty.moduleOf? o).isNone).map w.classOf)).map fun cls ↦
          .instanceOf cls []
            ((objects.filter fun o ↦ (Ty.moduleOf? o).isNone).filter fun o ↦ w.classOf o = cls)
            none := by
  have hclasses : (objects.map (shown w)).filterMap class? =
      (objects.filter fun o ↦ (Ty.moduleOf? o).isNone).map w.classOf := by
    rw [List.filterMap_map, ← List.filterMap_eq_map, List.filterMap_filter]
    refine List.filterMap_congr fun o _ ↦ ?_
    simp only [Function.comp_apply, class?_shown]
  simp only [union_eq_instancesOf, instancesOf_map_shown, merge_seen, hclasses]
  simp only [List.filterMap_map, Function.comp_def, module?_shown]

theorem content_append_comm {xs ys : List Member} (hxs : ∀ x ∈ xs, x.module? = none)
    (hys : ∀ y ∈ ys, y.class? = none) : content (xs ++ ys) = content (ys ++ xs) := by
  have hxs' : xs.filterMap module? = [] := List.filterMap_eq_nil_iff.mpr hxs
  have hys' : ys.filterMap class? = [] := List.filterMap_eq_nil_iff.mpr hys
  have hnone (cls : ModuleId) : instancesOf cls ys = [] := by
    by_contra hne
    rw [← ne_eq, instancesOf_ne_nil, hys'] at hne
    cases hne
  simp only [content, union_eq_instancesOf, List.filterMap_map, Function.comp_def,
    class?_unwatched, module?_unwatched, instancesOf_map_unwatched, List.filterMap_append,
    instancesOf_append, hxs', hys', hnone, List.nil_append, List.append_nil]

theorem content_ofObjects (objects : List Obj) :
    content (Ty.ofObjects w objects).members =
      content (shownAll w (sample sampleSize objects)) := by
  rw [shownAll]
  split
  case isTrue h =>
    rw [Ty.ofObjects, h]
    rfl
  case isFalse h =>
    have hunion := union_map_shown (w := w) Ty.union (sample sampleSize objects)
    have hne : union Ty.union ((sample sampleSize objects).map (shown w)) ≠ [] :=
      union_ne_nil (mt List.map_eq_nil_iff.mp h)
    rw [← content_union (List.map _ _), hunion, ← content_append_comm, Ty.ofObjects,
      Ty.members_union, content_union]
    · simp only [List.flatMap_append, List.flatMap_map, Ty.seen, Ty.singleton, Ty.ofMember,
        Ty.members, ← List.map_eq_flatMap]
    · intro hnil
      rw [hunion] at hne
      obtain ⟨hclasses, hmodules⟩ := List.append_eq_nil_iff.mp hnil
      simp only [List.map_eq_nil_iff] at hclasses hmodules
      exact hne (by rw [hclasses, hmodules]; rfl)
    · intro x hx
      obtain ⟨cls, -, rfl⟩ := List.mem_map.mp hx
      rfl
    · intro x hx
      obtain ⟨m, -, rfl⟩ := List.mem_map.mp hx
      rfl

theorem repeats_shownAll {xs ys : List Obj} (h : Repeats xs ys) :
    Repeats (shownAll w xs) (shownAll w ys) := by
  simp only [shownAll, h.eq_nil_iff]
  split
  · exact .refl _
  · exact h.map _

theorem inside_eq (ms : List Member) :
    inside w cls name ms =
      (given ((instancesOf cls ms).flatMap rawParams) name).flatMap Ty.members ++
        (elements? w cls name ((instancesOf cls ms).flatMap samples)).toList.flatMap
          fun objects ↦ (Ty.ofObjects w objects).members := by
  simp only [inside, given_append, given_sampledParams, List.flatMap_append, List.flatMap_map]

theorem samples_instancesOf_content (ms : List Member) :
    (instancesOf cls (content ms)).flatMap samples = (instancesOf cls ms).flatMap samples := by
  rw [content, instancesOf_union, instancesOf_map_unwatched]
  split
  case isTrue h => rw [List.map_eq_nil_iff.mp h]
  case isFalse =>
    simp only [List.flatMap_singleton, samples_merge, List.flatMap_map, samples_unwatched]

/-- Members that say as much as some others, of which the second leave out repeated ones. -/
def Repeated (xs ys : List Member) : Prop :=
  ∃ xs' ys', content xs = content xs' ∧ content ys = content ys' ∧ Repeats xs' ys'

theorem Repeated.mem_kinds {xs ys : List Member} (h : Repeated xs ys) {k : MemberKind} :
    k ∈ xs.map kind ↔ k ∈ ys.map kind := by
  obtain ⟨xs', ys', hx, hy, hr⟩ := h
  rw [← mem_kinds_content, hx, mem_kinds_content, (hr.map kind).mem_iff, ← mem_kinds_content, ← hy,
    mem_kinds_content]

theorem content_append_ofObjects (ms : List Member) {objects : List Obj}
    (h : objects.length ≤ sampleSize) :
    content (ms ++ (Ty.ofObjects w objects).members) = content (ms ++ shownAll w objects) := by
  have hall : sample sampleSize objects = objects := if_pos h
  have hobjects := content_ofObjects (w := w) objects
  rw [hall] at hobjects
  simpa only [List.append_nil] using content_append_congr ms hobjects []

theorem Repeated.inside {xs ys : List Member} (h : Repeated xs ys)
    (huncut : ∀ objects ∈ elements? w cls name ((instancesOf cls xs).flatMap samples),
      objects.length ≤ sampleSize) :
    Repeated (inside w cls name xs) (inside w cls name ys) := by
  obtain ⟨xs', ys', hx, hy, hr⟩ := h
  rw [← samples_instancesOf_content, hx, samples_instancesOf_content] at huncut
  rw [Repeated, content_inside_congr hx, content_inside_congr hy, inside_eq, inside_eq]
  have hgroup : Repeats (instancesOf cls xs') (instancesOf cls ys') := hr.filter _
  have hgiven : Repeats ((given ((instancesOf cls xs').flatMap rawParams) name).flatMap Ty.members)
      ((given ((instancesOf cls ys').flatMap rawParams) name).flatMap Ty.members) :=
    (((hgroup.flatMap rawParams).filter _).map Prod.snd).flatMap Ty.members
  have helements : Option.Rel Repeats (elements? w cls name _) (elements? w cls name _) :=
    repeats_elements? (hgroup.flatMap samples)
  generalize elements? w cls name ((instancesOf cls xs').flatMap samples) = ex at helements huncut ⊢
  generalize elements? w cls name ((instancesOf cls ys').flatMap samples) = ey at helements ⊢
  cases helements with
  | none => exact ⟨_, _, rfl, rfl, hgiven.append (.refl [])⟩
  | @some objects fewer hobjects =>
    have hlong : objects.length ≤ sampleSize := huncut objects rfl
    have hshort : fewer.length ≤ sampleSize := Nat.le_trans hobjects.sublist.length_le hlong
    simp only [Option.toList_some, List.flatMap_singleton]
    exact ⟨_, _, content_append_ofObjects _ hlong, content_append_ofObjects _ hshort,
      hgiven.append (repeats_shownAll hobjects)⟩

/-- Nowhere along the paths of at most `depth` params do samples hold more than is looked at. -/
def Uncut (w : World) (depth : Nat) (ms : List Member) : Prop :=
  ∀ path, path.length < depth → ∀ cls name,
    ∀ objects ∈ elements? w cls name ((instancesOf cls (follow w path ms)).flatMap samples),
      objects.length ≤ sampleSize

theorem Repeated.alike {depth : Nat} {xs ys : List Member} (h : Repeated xs ys)
    (huncut : Uncut w depth xs) : Alike w depth xs ys := by
  intro path hpath k
  induction path generalizing xs ys depth with
  | nil => exact h.mem_kinds
  | cons step path ih =>
    cases depth with
    | zero => cases hpath
    | succ depth =>
      have hinside := h.inside (huncut [] (Nat.succ_pos _) step.1 step.2)
      refine ih hinside (fun rest hrest ↦ ?_) (Nat.le_of_succ_le_succ hpath)
      exact huncut (step :: rest) (Nat.succ_lt_succ hrest)

def Flat (ms : List Member) : Prop :=
  ∀ x ∈ ms, x.rawParams.isEmpty ∧ x.class? ≠ some .array ∧ x.class? ≠ some .hash

theorem Flat.elements? {ms : List Member} (h : Flat ms) :
    elements? w cls name ((instancesOf cls ms).flatMap samples) = none := by
  by_cases hnone : instancesOf cls ms = []
  · rw [hnone]
    rfl
  · obtain ⟨x, hx⟩ := List.exists_mem_of_ne_nil _ hnone
    obtain ⟨hx, hc⟩ := mem_instancesOf.mp hx
    obtain ⟨-, harray, hhash⟩ := h x hx
    have hca : cls ≠ .array := fun heq ↦ harray (heq ▸ hc)
    have hch : cls ≠ .hash := fun heq ↦ hhash (heq ▸ hc)
    simp only [Member.elements?, if_neg hca, if_neg hch, ite_self]

theorem Flat.inside {ms : List Member} (h : Flat ms) : inside w cls name ms = [] := by
  have hparams : (instancesOf cls ms).flatMap rawParams = [] :=
    List.flatMap_eq_nil_iff.mpr fun x hx ↦ List.isEmpty_iff.mp (h x (mem_instancesOf.mp hx).1).1
  rw [inside_eq, h.elements?, hparams]
  rfl

theorem uncut_of_flat {ms : List Member} (hinside : ∀ cls name, Flat (inside w cls name ms))
    (h : ∀ cls name, ∀ objects ∈ elements? w cls name ((instancesOf cls ms).flatMap samples),
      objects.length ≤ sampleSize) (depth : Nat) : Uncut w depth ms := by
  have hfollow (path : List (ModuleId × String)) {ms : List Member} (hms : Flat ms) :
      Flat (follow w path ms) := by
    induction path generalizing ms with
    | nil => exact hms
    | cons step path ih => exact ih (hms.inside ▸ fun _ hx ↦ by cases hx)
  intro path _ cls name objects hobjects
  cases path with
  | nil => exact h cls name objects hobjects
  | cons step path =>
    rw [follow, (hfollow path (hinside _ _)).elements?] at hobjects
    cases hobjects

end Member

namespace Ty

open Member

/-- A type that is joined again makes no difference for equality just if the same kinds are found
with its members and samples counted twice and with them counted once. This is so where all that
the samples hold is looked at. -/
theorem union_repeated_equal_iff (w : World) {a b c : Ty} (ha : a.WellFormed ∧ a.Named)
    (hb : b.WellFormed ∧ b.Named) (hc : c.WellFormed ∧ c.Named) :
    (equal w (union [union [a, b], b, c]) (union [a, b, c]) = true ↔
      Alike w equalityDepth (a.members ++ b.members ++ b.members ++ c.members)
        (a.members ++ b.members ++ c.members)) ∧
    (Uncut w equalityDepth (a.members ++ b.members ++ b.members ++ c.members) →
      equal w (union [union [a, b], b, c]) (union [a, b, c]) = true) ∧
    (equal w (union [b, b]) b = true ↔
      Alike w equalityDepth (b.members ++ b.members) b.members) ∧
    (Uncut w equalityDepth (b.members ++ b.members) → equal w (union [b, b]) b = true) := by
  have hjoined : (union [a, b]).WellFormed ∧ (union [a, b]).Named :=
    ⟨wellFormed_union (wellFormed_of_mem_pair ha.1 hb.1), named_union (named_of_mem_pair ha.2 hb.2)⟩
  have hthree : equal w (union [union [a, b], b, c]) (union [a, b, c]) = true ↔
      Alike w equalityDepth (a.members ++ b.members ++ b.members ++ c.members)
        (a.members ++ b.members ++ c.members) := by
    rw [equal_union_iff (List.cons_ne_nil _ _) (List.cons_ne_nil _ _) (by simp [*]) (by simp [*])]
    refine alike_congr ?_ ?_
    · have hflat := content_append_congr [] (content_union ([a, b].flatMap members))
        (b.members ++ c.members)
      simpa [members_union] using hflat
    · simp
  have htwo : equal w (union [b, b]) b = true ↔
      Alike w equalityDepth (b.members ++ b.members) b.members := by
    rw [equal, equalWithin_iff (wellFormed_union (wellFormed_of_mem_pair hb.1 hb.1)) hb.1
      (named_union (named_of_mem_pair hb.2 hb.2)) hb.2, members_union (List.cons_ne_nil _ _)]
    exact alike_congr (by rw [content_union]; simp) rfl
  refine ⟨hthree, fun huncut ↦ hthree.mpr ?_, htwo, fun huncut ↦ htwo.mpr ?_⟩
  · refine Repeated.alike ⟨_, _, rfl, rfl, ?_⟩ huncut
    rw [List.append_assoc a.members]
    exact ((Repeats.refl _).append (.twice _)).append (.refl _)
  · exact Repeated.alike ⟨_, _, rfl, rfl, .twice _⟩ huncut

def arraysWorld : World where
  instances := #[⟨.integer, .integer 1, [], []⟩, ⟨.string, .string "a", [], []⟩,
    ⟨.array, .array [.ofInstance ⟨0⟩, .ofInstance ⟨1⟩], [], []⟩,
    ⟨.array, .array (List.replicate 25 (.ofInstance ⟨0⟩) ++ [.ofInstance ⟨1⟩]), [], []⟩]

def ofFew : Ty := seen .array [.ofInstance ⟨2⟩]

def ofMany : Ty := seen .array [.ofInstance ⟨3⟩]

theorem uncut_ofFew : Uncut arraysWorld equalityDepth (ofFew.members ++ ofFew.members) := by
  have hother {cls : ModuleId} (h : cls ≠ .array) :
      instancesOf cls (ofFew.members ++ ofFew.members) = [] := by
    simp [instancesOf, ofFew, seen, ofMember, members, class?, h.symm]
  refine uncut_of_flat (fun cls name ↦ ?_) (fun cls name objects hobjects ↦ ?_) _
  · by_cases hcls : cls = .array
    · subst hcls
      by_cases hname : name = "Elem"
      · subst hname
        unfold Flat
        decide +kernel
      · have hnil : inside arraysWorld .array name (ofFew.members ++ ofFew.members) = [] := by
          rw [inside_eq, elements?, if_neg (by decide), if_pos rfl, if_neg hname]
          rfl
        rw [hnil]
        exact fun _ hx ↦ by cases hx
    · rw [inside_eq, hother hcls]
      exact fun _ hx ↦ by cases hx
  · by_cases hcls : cls = .array
    · subst hcls
      by_cases hname : name = "Elem"
      · subst hname
        obtain rfl := Option.mem_some.mp hobjects
        decide +kernel
      · rw [elements?, if_neg (by decide), if_pos rfl, if_neg hname] at hobjects
        cases hobjects
    · rw [hother hcls] at hobjects
      cases hobjects

theorem union_repeated_equal_iff_arrays :
    (nil.WellFormed ∧ nil.Named) ∧ (ofFew.WellFormed ∧ ofFew.Named) ∧
      (ofMany.WellFormed ∧ ofMany.Named) ∧
      equal arraysWorld (union [ofFew, ofFew]) ofFew = true ∧
      equal arraysWorld (union [ofMany, ofMany]) ofMany = false ∧
      ¬ Alike arraysWorld equalityDepth
        (nil.members ++ ofMany.members ++ ofMany.members ++ nil.members)
        (nil.members ++ ofMany.members ++ nil.members) := by
  have hnil : nil.WellFormed ∧ nil.Named :=
    ⟨wellFormed_inst _, named_of_no_params fun x hx ↦ by rw [List.mem_singleton.mp hx]; rfl⟩
  have hseen (samples : List Obj) :
      (seen .array samples).WellFormed ∧ (seen .array samples).Named :=
    ⟨wellFormed_seen _ _, named_of_no_params fun x hx ↦ by rw [List.mem_singleton.mp hx]; rfl⟩
  have hfew : ofFew.WellFormed ∧ ofFew.Named := hseen _
  have hmany : ofMany.WellFormed ∧ ofMany.Named := hseen _
  refine ⟨hnil, hfew, hmany, ?_, by decide +kernel, ?_⟩
  · exact (union_repeated_equal_iff arraysWorld hnil hfew hnil).2.2.2 uncut_ofFew
  · rw [← (union_repeated_equal_iff arraysWorld hnil hmany hnil).1]
    decide +kernel

end Ty

end FlowCompletion
