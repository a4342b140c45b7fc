import FlowCompletion.Proofs.Ty.NormalForm
import FlowCompletion.Ty.Sampled

namespace FlowCompletion

namespace Member

def watched (parent : Cell) (param : String) : Member → Member
  | .instanceOf cls params samples none =>
    .instanceOf cls params samples (some (.derived parent param cls))
  | x => x

@[simp] theorem kind_watched (x : Member) (parent : Cell) (param : String) :
    (x.watched parent param).kind = x.kind := by
  rcases x with _ | ⟨cls, params, samples, _ | cell⟩ <;> rfl

@[simp] theorem rawParams_watched (x : Member) (parent : Cell) (param : String) :
    (x.watched parent param).rawParams = x.rawParams := by
  rcases x with _ | ⟨cls, params, samples, _ | cell⟩ <;> rfl

end Member

namespace Ty

variable {w : World} {t u : Ty}

theorem wellFormed_singleton (m : ModuleId) : (singleton m).WellFormed :=
  wellFormed_ofMember fun _ hp ↦ by cases hp

theorem wellFormed_seen (cls : ModuleId) (samples : List Obj) : (seen cls samples).WellFormed :=
  wellFormed_ofMember fun _ hp ↦ by cases hp

theorem wellFormed_of_mem_pair (ht : t.WellFormed) (hu : u.WellFormed) :
    ∀ v ∈ [t, u], v.WellFormed :=
  List.forall_mem_cons.mpr ⟨ht, List.forall_mem_singleton.mpr hu⟩

theorem wellFormed_boolean : boolean.WellFormed := by
  refine .intro (isFlat _) (by decide) fun x hx p hp ↦ ?_
  rcases List.mem_pair.mp hx with rfl | rfl <;> cases hp

theorem wellFormed_hashOf {key value : Ty} (hkey : key.WellFormed) (hvalue : value.WellFormed) :
    (hashOf key value).WellFormed := by
  refine wellFormed_instWith fun p hp ↦ ?_
  rcases List.mem_pair.mp hp with rfl | rfl
  · exact hkey
  · exact hvalue

theorem WellFormed.ofMember (h : t.WellFormed) {x : Member} (hx : x ∈ t.members) :
    (ofMember x).WellFormed :=
  wellFormed_ofMember fun _ hp ↦ h.of_mem hx hp

theorem mem_members_of_instance? {x : Member} (h : t.instance? = some x) : x ∈ t.members := by
  unfold instance? at h
  split at h
  · obtain rfl := Option.some.inj h
    exact List.mem_cons_self
  · cases h

theorem WellFormed.nonnillable (h : t.WellFormed) : t.nonnillable.WellFormed := by
  refine wellFormed_union fun u hu ↦ ?_
  obtain ⟨x, hx, rfl⟩ := List.mem_map.mp hu
  exact h.ofMember (List.mem_filter.mp hx).1

theorem wellFormed_transform {f : Member → Ty} (h : ∀ x ∈ t.members, (f x).WellFormed) :
    (t.transform f).WellFormed := by
  refine wellFormed_union fun u hu ↦ ?_
  obtain ⟨x, hx, rfl⟩ := List.mem_map.mp hu
  exact h x hx

theorem wellFormed_ofObject (w : World) (o : Obj) : (ofObject w o).WellFormed := by
  unfold ofObject
  split
  · exact wellFormed_singleton _
  · split <;> exact wellFormed_seen _ _

theorem wellFormed_ofObjects (w : World) (objects : List Obj) :
    (ofObjects w objects).WellFormed := by
  refine wellFormed_union fun t ht ↦ ?_
  rcases List.mem_append.mp ht with ht | ht
  · obtain ⟨cls, -, rfl⟩ := List.mem_map.mp ht
    exact wellFormed_seen _ _
  · obtain ⟨m, -, rfl⟩ := List.mem_map.mp ht
    exact wellFormed_singleton _

theorem members_watch (t : Ty) (parent : Cell) (param : String) :
    (t.watch parent param).members = t.members.map (Member.watched parent param) :=
  members_ofMembers fun hnil ↦ t.members_ne_nil (List.map_eq_nil_iff.mp hnil)

theorem kinds_watch (t : Ty) (parent : Cell) (param : String) :
    (t.watch parent param).kinds = t.kinds := by
  rw [kinds, members_watch, List.map_map]
  exact List.map_congr_left fun x _ ↦ x.kind_watched parent param

theorem WellFormed.watch (h : t.WellFormed) (parent : Cell) (param : String) :
    (t.watch parent param).WellFormed := by
  cases h with
  | intro _ distinct params =>
    refine .intro (isFlat _) (by rwa [kinds_watch]) fun x hx p hp ↦ ?_
    rw [members_watch] at hx
    obtain ⟨y, hy, rfl⟩ := List.mem_map.mp hx
    rw [Member.rawParams_watched] at hp
    exact params y hy p hp

end Ty

namespace Member

variable {w : World} {x : Member} {params : List (String × Ty)} {P : Ty → Prop}

theorem of_mem_sampledParams (hobjects : ∀ objects, P (Ty.ofObjects w objects)) {p : String × Ty}
    (hp : p ∈ x.sampledParams w) : P p.2 := by
  unfold sampledParams at hp
  split at hp
  · cases hp
  split at hp
  · rw [List.mem_singleton.mp hp]
    exact hobjects _
  split at hp
  · rcases List.mem_pair.mp hp with rfl | rfl <;> exact hobjects _
  · cases hp

theorem of_mem_addParam (hunion : ∀ {t u}, P t → P u → P (Ty.union [t, u])) {name : String} {t : Ty}
    (hparams : ∀ p ∈ params, P p.2) (ht : P t) : ∀ p ∈ addParam params name t, P p.2 := by
  induction params with
  | nil => exact List.forall_mem_singleton.mpr ht
  | cons first params ih =>
    obtain ⟨other, known⟩ := first
    obtain ⟨hknown, hrest⟩ := List.forall_mem_cons.mp hparams
    rw [addParam]
    split
    · exact List.forall_mem_cons.mpr ⟨hunion hknown ht, hrest⟩
    · exact List.forall_mem_cons.mpr ⟨hknown, ih hrest⟩

/-- What holds of the params that are given and of those that samples show, and is kept where the
two are joined and watched, holds of all params. -/
theorem of_mem_params (hunion : ∀ {t u}, P t → P u → P (Ty.union [t, u]))
    (hwatch : ∀ {t parent param}, P t → P (t.watch parent param))
    (hobjects : ∀ objects, P (Ty.ofObjects w objects)) (hraw : ∀ p ∈ x.rawParams, P p.2) :
    ∀ p ∈ x.params w, P p.2 := by
  have hsampled : ∀ p ∈ x.sampledParams w, P p.2 := fun _ ↦ of_mem_sampledParams hobjects
  rw [Member.params]
  generalize x.sampledParams w = sampled at hsampled
  generalize x.rawParams = all at hraw
  induction sampled generalizing all with
  | nil => exact hraw
  | cons first sampled ih =>
    obtain ⟨hfirst, hrest⟩ := List.forall_mem_cons.mp hsampled
    refine ih hrest _ fun p hp ↦ ?_
    obtain ⟨q, hq, rfl⟩ := List.mem_map.mp hp
    have hadded := of_mem_addParam hunion hraw hfirst q hq
    dsimp only
    split
    · split
      · exact hwatch hadded
      · exact hadded
    · exact hadded

theorem wellFormed_of_mem_params (h : (Ty.ofMember x).WellFormed) :
    ∀ p ∈ x.params w, p.2.WellFormed :=
  of_mem_params (fun ht hu ↦ Ty.wellFormed_union (Ty.wellFormed_of_mem_pair ht hu))
    (fun h ↦ h.watch _ _) (Ty.wellFormed_ofObjects w) fun _ hp ↦ h.of_mem List.mem_cons_self hp

theorem wellFormed_of_mem_param? {name : String} {t : Ty} (h : (Ty.ofMember x).WellFormed)
    (ht : t ∈ x.param? w name) : t.WellFormed :=
  wellFormed_of_mem_params h (name, t) (Table.mem_of_get? ht)

end Member

namespace Ty

variable {w : World} {t u : Ty}

theorem wellFormed_of_mem_param? {name : String} (h : t.WellFormed) (hu : u ∈ t.param? w name) :
    u.WellFormed := by
  unfold param? at hu
  split at hu
  · exact Member.wellFormed_of_mem_param? h hu
  · split at hu
    · cases hu
    · obtain rfl := Option.mem_some.mp hu
      refine wellFormed_union fun p hp ↦ ?_
      obtain ⟨x, hx, hp⟩ := List.mem_filterMap.mp hp
      exact Member.wellFormed_of_mem_param? (h.ofMember hx) hp

theorem WellFormed.of_mem_some (h : t.WellFormed) (hu : u ∈ some t) : u.WellFormed := by
  obtain rfl := Option.mem_some.mp hu
  exact h

theorem WellFormed.getD {o : Option Ty} (ho : ∀ t ∈ o, t.WellFormed) {default : Ty}
    (h : default.WellFormed) : (o.getD default).WellFormed := by
  cases o with
  | none => exact h
  | some t => exact ho t rfl

/-- What can be come upon by looking at params, and at theirs in turn. -/
inductive Holds (w : World) : Ty → Ty → Prop
  | refl (t : Ty) : Holds w t t
  | param {t u : Ty} {x : Member} {p : String × Ty} (hx : x ∈ t.members) (hp : p ∈ x.params w)
      (h : Holds w p.2 u) : Holds w t u

theorem WellFormed.holds (h : t.WellFormed) (hu : t.Holds w u) : u.WellFormed := by
  induction hu with
  | refl t => exact h
  | param hx hp _ ih => exact ih (Member.wellFormed_of_mem_params (h.ofMember hx) _ hp)

end Ty

end FlowCompletion
