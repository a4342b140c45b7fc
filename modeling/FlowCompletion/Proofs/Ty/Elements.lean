import FlowCompletion.Proofs.Sampling
import FlowCompletion.Proofs.Ty.Repetition

namespace FlowCompletion

def World.kindOf (w : World) : Obj → MemberKind
  | .ofModule m => .itself m
  | .ofInstance i => .instanceOf (w.classOf (.ofInstance i))

theorem Member.kind_shown (w : World) (o : Obj) : (shown w o).kind = w.kindOf o := by
  cases o <;> rfl

theorem Ty.mem_kinds_ofObjects {w : World} {objects : List Obj} {k : MemberKind} :
    k ∈ (ofObjects w objects).kinds ↔
      (∃ o ∈ sample sampleSize objects, w.kindOf o = k) ∨
        (objects = [] ∧ k = .instanceOf .object) := by
  have hpos : 0 < sampleSize := by decide
  rw [kinds, ← Member.mem_kinds_content, Member.content_ofObjects, Member.mem_kinds_content,
    Member.shownAll]
  by_cases hnil : objects = []
  · subst hnil
    rw [if_pos ((sample_eq_nil_iff hpos).mpr rfl), (sample_eq_nil_iff hpos).mpr rfl]
    simp [Member.kind, Member.plain]
  · rw [if_neg (mt (sample_eq_nil_iff hpos).mp hnil), List.map_map]
    simp only [List.mem_map, Function.comp_apply, Member.kind_shown, hnil, false_and, or_false]

/-- A param that samples tell something about. -/
inductive Slot where
  | element
  | key
  | value

namespace Slot

def cls : Slot → ModuleId
  | element => .array
  | key => .hash
  | value => .hash

def name : Slot → String
  | element => "Elem"
  | key => "K"
  | value => "V"

def held (w : World) : Slot → Obj → List Obj
  | element, o => (w.arrayItems? o).getD []
  | key, o => ((w.hashPairs? o).getD []).map Prod.fst
  | value, o => ((w.hashPairs? o).getD []).map Prod.snd

def picked (w : World) (slot : Slot) (samples : List Obj) : List Obj :=
  samples.flatMap fun o ↦ sample sampleSize (slot.held w o)

variable {w : World} {slot : Slot} {samples : List Obj}

theorem flatMap_filterMap_sample {α : Type} (f : Obj → Option (List α)) (samples : List Obj) :
    (samples.filterMap f).flatMap (sample sampleSize) =
      samples.flatMap fun o ↦ sample sampleSize ((f o).getD []) := by
  induction samples with
  | nil => rfl
  | cons o samples ih =>
    rw [List.flatMap_cons, ← ih]
    cases h : f o with
    | none => rw [List.filterMap_cons_none h]; rfl
    | some items => rw [List.filterMap_cons_some h, List.flatMap_cons]; rfl

theorem elements?_eq (slot : Slot) (h : samples ≠ []) :
    Member.elements? w slot.cls slot.name samples = some (slot.picked w samples) := by
  simp only [Member.elements?, if_neg h, flatMap_filterMap_sample, List.map_flatMap, ← sample_map]
  cases slot <;> rfl

theorem mem_of_mem_picked {o : Obj} (h : o ∈ slot.picked w samples) :
    o ∈ samples.flatMap (slot.held w) := by
  obtain ⟨s, hs, ho⟩ := List.mem_flatMap.mp h
  exact List.mem_flatMap.mpr ⟨s, hs, mem_of_mem_sample ho⟩

theorem picked_eq_nil_iff : slot.picked w samples = [] ↔ samples.flatMap (slot.held w) = [] := by
  have hpos : 0 < sampleSize := by decide
  simp only [picked, List.flatMap_eq_nil_iff, sample_eq_nil_iff hpos]

theorem picked_of_length_le (h : (samples.flatMap (slot.held w)).length ≤ sampleSize) :
    slot.picked w samples = samples.flatMap (slot.held w) := by
  refine List.flatMap_congr fun o ho ↦ sample_of_length_le (Nat.le_trans ?_ h)
  rw [List.flatMap_def]
  exact (List.sublist_flatten_of_mem (List.mem_map_of_mem ho)).length_le

end Slot

namespace Member

variable {w : World} {cell : Option Cell} {all sampled : List (String × Ty)} {name : String}
  {t : Ty}

def watchedIn (cell : Option Cell) (name : String) (t : Ty) : Ty :=
  cell.elim t fun parent ↦ t.watch parent name

theorem kinds_watchedIn : (watchedIn cell name t).kinds = t.kinds := by
  cases cell with
  | none => rfl
  | some parent => exact Ty.kinds_watch t parent name

def absorb (cell : Option Cell) (all : List (String × Ty)) (p : String × Ty) :
    List (String × Ty) :=
  (addParam all p.1 p.2).map fun q ↦ (q.1, if q.1 = p.1 then watchedIn cell p.1 q.2 else q.2)

theorem params_eq_foldl (x : Member) :
    x.params w = (x.sampledParams w).foldl (absorb x.cell?) x.rawParams := by
  rw [params]
  refine congrFun (congrFun (congrArg List.foldl ?_) _) _
  funext all p
  obtain ⟨name, t⟩ := p
  refine List.map_congr_left ?_
  rintro ⟨other, u⟩ -
  cases x.cell? with
  | none => simp [watchedIn]
  | some cell => by_cases h : other = name <;> simp [watchedIn, h]

theorem get?_addParam (params : List (String × Ty)) (name : String) (t : Ty) (other : String) :
    Table.get? (addParam params name t) other =
      if other = name then
        some (((Table.get? params name).map fun known ↦ Ty.union [known, t]).getD t)
      else Table.get? params other := by
  induction params with
  | nil => exact Table.get?_cons [] name other t
  | cons first params ih =>
    obtain ⟨key, known⟩ := first
    rw [addParam]
    by_cases hkey : key = name
    · subst hkey
      rw [if_pos rfl]
      simp only [Table.get?_cons]
      split <;> simp
    · rw [if_neg hkey]
      simp only [Table.get?_cons, ih, if_neg (Ne.symm hkey)]
      by_cases hother : other = name
      · subst hother
        rw [if_neg (Ne.symm hkey), if_pos rfl]
        simp
      · simp [hother]

theorem get?_map_snd (g : String → Ty → Ty) (params : List (String × Ty)) (name : String) :
    Table.get? (params.map fun q ↦ (q.1, g q.1 q.2)) name =
      (Table.get? params name).map (g name) := by
  induction params with
  | nil => rfl
  | cons first params ih =>
    rw [List.map_cons, Table.get?_cons, Table.get?_cons, ih]
    split
    next h => rw [h]; rfl
    next => rfl

theorem get?_absorb (all : List (String × Ty)) (p : String × Ty) (name : String) :
    Table.get? (absorb cell all p) name =
      if name = p.1 then
        some (watchedIn cell p.1
          (((Table.get? all p.1).map fun known ↦ Ty.union [known, p.2]).getD p.2))
      else Table.get? all name := by
  rw [absorb, get?_map_snd fun key u ↦ if key = p.1 then watchedIn cell p.1 u else u, get?_addParam]
  by_cases h : name = p.1 <;> simp [h]

theorem get?_foldl_absorb_of_not_mem (h : name ∉ sampled.map Prod.fst)
    (all : List (String × Ty)) :
    Table.get? (sampled.foldl (absorb cell) all) name = Table.get? all name := by
  induction sampled generalizing all with
  | nil => rfl
  | cons p sampled ih =>
    obtain ⟨hp, hrest⟩ := not_or.mp (mt List.mem_cons.mpr h)
    rw [List.foldl_cons, ih hrest, get?_absorb, if_neg hp]

theorem exists_get?_foldl_absorb (hnames : (sampled.map Prod.fst).Nodup)
    (hp : (name, t) ∈ sampled) (all : List (String × Ty)) :
    ∃ u, Table.get? (sampled.foldl (absorb cell) all) name = some u ∧
      ∀ k, k ∈ u.kinds ↔ (∃ v ∈ Table.get? all name, k ∈ v.kinds) ∨ k ∈ t.kinds := by
  induction sampled generalizing all with
  | nil => cases hp
  | cons p sampled ih =>
    obtain ⟨hfirst, hrest⟩ := List.nodup_cons.mp hnames
    rw [List.foldl_cons]
    rcases List.mem_cons.mp hp with rfl | hp
    · rw [get?_foldl_absorb_of_not_mem hfirst, get?_absorb, if_pos rfl]
      refine ⟨_, rfl, fun k ↦ ?_⟩
      rw [kinds_watchedIn]
      cases Table.get? all name with
      | none => simp
      | some known => simp [Ty.mem_kinds_union (List.cons_ne_nil _ _)]
    · have hne : name ≠ p.1 := fun heq ↦ hfirst (heq ▸ List.mem_map_of_mem hp)
      have hlater := ih hrest hp (absorb cell all p)
      rwa [get?_absorb, if_neg hne] at hlater

theorem nodup_names_sampledParams (x : Member) : ((x.sampledParams w).map Prod.fst).Nodup := by
  unfold sampledParams
  split
  · exact List.nodup_nil
  split
  · exact List.nodup_singleton _
  split
  · simp
  · exact List.nodup_nil

theorem exists_param? {cls : ModuleId} {samples objects : List Obj}
    (h : elements? w cls name samples = some objects) (params : List (String × Ty))
    (cell : Option Cell) :
    ∃ u, (Member.instanceOf cls params samples cell).param? w name = some u ∧
      ∀ k, k ∈ u.kinds ↔
        (∃ v ∈ Table.get? params name, k ∈ v.kinds) ∨
          k ∈ (Ty.ofObjects w objects).kinds := by
  have hshown : (name, Ty.ofObjects w objects) ∈
      (Member.instanceOf cls params samples cell).sampledParams w := by
    rw [← mem_given, ← sampledParams_instanceOf rfl, Member.samples, given_sampledParams, h]
    exact List.mem_singleton_self _
  rw [param?, params_eq_foldl]
  exact exists_get?_foldl_absorb (nodup_names_sampledParams _) hshown params

end Member

namespace Slot

/-- What is known of a param: what was given for it, what some sample holds, and that it may be any
object if the samples hold nothing. -/
def Tells (w : World) (slot : Slot) (params : List (String × Ty)) (samples : List Obj)
    (k : MemberKind) : Prop :=
  (∃ given ∈ Table.get? params slot.name, k ∈ given.kinds) ∨
    (∃ o ∈ samples.flatMap (slot.held w), w.kindOf o = k) ∨
    (samples.flatMap (slot.held w) = [] ∧ k = .instanceOf .object)

instance (w : World) (slot : Slot) (params : List (String × Ty)) (samples : List Obj)
    (k : MemberKind) : Decidable (slot.Tells w params samples k) :=
  inferInstanceAs (Decidable ((∃ given ∈ Table.get? params slot.name, k ∈ given.kinds) ∨
    (∃ o ∈ samples.flatMap (slot.held w), w.kindOf o = k) ∨
    (samples.flatMap (slot.held w) = [] ∧ k = .instanceOf .object)))

/-- The elements of a sampled array, or the keys and values of a sampled hash, are those that were
given and those that are held. All that are held are told if they are no more than is looked at. -/
theorem param?_tells_held (w : World) (slot : Slot) (params : List (String × Ty))
    {samples : List Obj} (h : samples ≠ []) (cell : Option Cell) :
    ∃ t, (Member.instanceOf slot.cls params samples cell).param? w slot.name = some t ∧
      (∀ k ∈ t.kinds, slot.Tells w params samples k) ∧
      ((samples.flatMap (slot.held w)).length ≤ sampleSize →
        ∀ k, slot.Tells w params samples k → k ∈ t.kinds) := by
  obtain ⟨t, ht, hkinds⟩ := Member.exists_param? (slot.elements?_eq (w := w) h) params cell
  simp only [Ty.mem_kinds_ofObjects, picked_eq_nil_iff] at hkinds
  refine ⟨t, ht, fun k hk ↦ ((hkinds k).mp hk).imp_right (Or.imp_left ?_), fun hlen k hk ↦ ?_⟩
  · rintro ⟨o, ho, rfl⟩
    exact ⟨o, mem_of_mem_picked (mem_of_mem_sample ho), rfl⟩
  · rw [hkinds, picked_of_length_le hlen, sample_of_length_le hlen]
    exact hk

def cyclicWorld : World where
  instances := #[⟨.integer, .integer 1, [], []⟩,
    ⟨.array, .array [.ofInstance ⟨1⟩, .ofModule .kernel, .ofInstance ⟨0⟩], [], []⟩]

theorem param?_tells_held_cyclic :
    let samples := [Obj.ofInstance ⟨1⟩]
    samples ≠ [] ∧ (samples.flatMap (element.held cyclicWorld)).length ≤ sampleSize ∧
      ∃ t, (Member.instanceOf .array [("Elem", .string)] samples none).param? cyclicWorld "Elem" =
          some t ∧
        .instanceOf .array ∈ t.kinds ∧ .itself .kernel ∈ t.kinds ∧ .instanceOf .string ∈ t.kinds ∧
        .instanceOf .nilClass ∉ t.kinds ∧ .instanceOf .object ∉ t.kinds := by
  intro samples
  have hsamples : samples ≠ [] := List.cons_ne_nil _ _
  have hlen : (samples.flatMap (element.held cyclicWorld)).length ≤ sampleSize := by decide
  obtain ⟨t, ht, hsound, hall⟩ :=
    param?_tells_held cyclicWorld element [("Elem", .string)] hsamples none
  refine ⟨hsamples, hlen, t, ht, hall hlen _ (by decide), hall hlen _ (by decide),
    hall hlen _ (by decide), fun hk ↦ ?_, fun hk ↦ ?_⟩
  · exact absurd (hsound _ hk) (by decide)
  · exact absurd (hsound _ hk) (by decide)

end Slot

end FlowCompletion
