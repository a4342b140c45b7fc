import FlowCompletion.Live.Construction
import FlowCompletion.Proofs.Sampling
import FlowCompletion.Proofs.Ty.Repetition

namespace FlowCompletion

namespace World

variable {w : World} {o : Obj}

def container? (w : World) (o : Obj) : Option ModuleId :=
  match w.payload o with
  | .array _ => some .array
  | .hash _ => some .hash
  | _ => none

/-- An array or a hash of another class. -/
def Disguised (w : World) (o : Obj) : Prop := ∃ cls ∈ w.container? o, w.classOf o ≠ cls

instance : Decidable (w.Disguised o) :=
  inferInstanceAs (Decidable (∃ cls ∈ w.container? o, w.classOf o ≠ cls))

theorem getD_container?_of_not_disguised (h : ¬ w.Disguised o) :
    (w.container? o).getD (w.classOf o) = w.classOf o := by
  cases hcls : w.container? o with
  | none => rfl
  | some cls => exact (not_ne_iff.mp fun hne ↦ h ⟨cls, hcls, hne⟩).symm

theorem Disguised.moduleOf? (h : w.Disguised o) : Ty.moduleOf? o = none := by
  cases o with
  | ofModule m =>
    obtain ⟨cls, hcls, -⟩ := h
    cases hcls
  | ofInstance i => rfl

end World

namespace Member

variable {w : World}

def typed (w : World) (o : Obj) : Member :=
  (Ty.moduleOf? o).elim (.instanceOf ((w.container? o).getD (w.classOf o)) [] [o] none) .itself

theorem typed_of_not_disguised {o : Obj} (h : ¬ w.Disguised o) : typed w o = shown w o := by
  rw [typed, World.getD_container?_of_not_disguised h]
  cases o <;> rfl

theorem kind_shown_of_disguised {o : Obj} (h : w.Disguised o) :
    (shown w o).kind = .instanceOf (w.classOf o) := by
  rw [shown, h.moduleOf?]
  rfl

end Member

namespace Ty

open Member

variable {w : World}

theorem ofObject_eq (w : World) (o : Obj) : ofObject w o = ofMember (typed w o) := by
  cases o with
  | ofModule m => rfl
  | ofInstance i =>
    simp only [ofObject, typed, moduleOf?, World.container?]
    cases w.payload (.ofInstance i) <;> rfl

theorem flatMap_members_ofObject (w : World) (objects : List Obj) :
    (objects.map (ofObject w)).flatMap members = objects.map (typed w) := by
  rw [List.flatMap_map, List.map_eq_flatMap]
  exact List.flatMap_congr fun o _ ↦ by rw [ofObject_eq, ofMember, members]

theorem named_ofObject (w : World) (o : Obj) : (ofObject w o).Named := by
  refine named_of_no_params fun x hx ↦ ?_
  rw [ofObject_eq] at hx
  rw [List.mem_singleton.mp hx]
  cases o <;> rfl

theorem isInstanceOf_ofObject {o : Obj} {cls : ModuleId} (h : (typed w o).class? = some cls) :
    (ofObject w o).isInstanceOf cls = true := by
  rw [ofObject_eq]
  generalize typed w o = x at h ⊢
  cases x with
  | itself m => cases h
  | instanceOf c params samples cell => simpa [isInstanceOf, ofMember, instance?] using h

/-- Few objects have the same type at once as one by one just if the same kinds of members are found
when each of them is filed by its class and by what it holds. This is so unless one of them is a
container in disguise, and then it can only be so if another one has a type of that class. -/
theorem ofObjects_equal_unless_disguised (w : World) {objects : List Obj}
    (h : objects.length ≤ sampleSize) :
    (equal w (ofObjects w objects) (union (objects.map (ofObject w))) = true ↔
      Alike w equalityDepth (objects.map (shown w)) (objects.map (typed w))) ∧
    ((∀ o ∈ objects, ¬ w.Disguised o) →
      equal w (ofObjects w objects) (union (objects.map (ofObject w))) = true) ∧
    (equal w (ofObjects w objects) (union (objects.map (ofObject w))) = true →
      ∀ o ∈ objects, w.Disguised o →
        ∃ other ∈ objects, (ofObject w other).isInstanceOf (w.classOf o) = true) := by
  have hiff : equal w (ofObjects w objects) (union (objects.map (ofObject w))) = true ↔
      Alike w equalityDepth (objects.map (shown w)) (objects.map (typed w)) := by
    by_cases hne : objects = []
    · subst hne
      exact iff_of_true (equalWithin_self _ _) (alike_of_content rfl _)
    rw [equal, equalWithin_iff (wellFormed_ofObjects w objects)
      (wellFormed_union (List.forall_mem_map.mpr fun o _ ↦ wellFormed_ofObject w o))
      (named_ofObjects w objects)
      (named_union (List.forall_mem_map.mpr fun o _ ↦ named_ofObject w o))]
    refine alike_congr ?_ ?_
    · rw [content_ofObjects, sample_of_length_le h, shownAll, if_neg hne]
    · rw [members_union (mt List.map_eq_nil_iff.mp hne), content_union, flatMap_members_ofObject]
  refine ⟨hiff, fun hplain ↦ hiff.mpr ?_, fun heq o ho hdisguised ↦ ?_⟩
  · rw [List.map_congr_left fun o ho ↦ typed_of_not_disguised (hplain o ho)]
    exact alike_of_content rfl _
  · have hshown : .instanceOf (w.classOf o) ∈ (objects.map (shown w)).map kind :=
      List.mem_map.mpr ⟨_, List.mem_map_of_mem ho, kind_shown_of_disguised hdisguised⟩
    obtain ⟨x, hx, hkind⟩ := List.mem_map.mp ((hiff.mp heq [] (Nat.zero_le _) _).mp hshown)
    obtain ⟨other, hother, rfl⟩ := List.mem_map.mp hx
    exact ⟨other, hother, isInstanceOf_ofObject (kind_eq_instanceOf.mp hkind)⟩

def rowsSession : World × List Obj :=
  let (w, rows) := World.initial.addClass (some "Rows") (some .array)
  let (w, one) := w.addInstance .integer (.integer 1)
  let (w, plain) := w.addInstance .array (.array [one])
  let (w, disguised) := w.addInstance rows (.array [one])
  (w, [one, plain, disguised])

theorem ofObjects_equal_unless_disguised_rows :
    let w := rowsSession.1
    let all := rowsSession.2
    let plain := all.take 2
    (all.length ≤ sampleSize ∧ plain.length ≤ sampleSize) ∧
      equal w (ofObjects w plain) (union (plain.map (ofObject w))) = true ∧
      equal w (ofObjects w all) (union (all.map (ofObject w))) = false := by
  intro w all plain
  have hall : all.length ≤ sampleSize := by decide +kernel
  have hplain : plain.length ≤ sampleSize := by decide +kernel
  have hnone : ∀ o ∈ plain, ¬ w.Disguised o := by decide +kernel
  refine ⟨⟨hall, hplain⟩, (ofObjects_equal_unless_disguised w hplain).2.1 hnone, ?_⟩
  refine Bool.eq_false_iff.mpr fun heq ↦ ?_
  have hother : ∀ o ∈ all, w.Disguised o →
      ∃ other ∈ all, (ofObject w other).isInstanceOf (w.classOf o) = true :=
    (ofObjects_equal_unless_disguised w hall).2.2 heq
  exact absurd hother (by decide +kernel)

end Ty

end FlowCompletion
