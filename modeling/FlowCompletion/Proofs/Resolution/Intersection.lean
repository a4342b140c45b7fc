import FlowCompletion.Proofs.Live.Walk
import FlowCompletion.Proofs.Resolution.Fit

namespace FlowCompletion

namespace MemberKind

variable {w : World} {k l : MemberKind}

/-- Both can describe the same value: they are the same module, or instances of classes of which one
is reached from the other through includes and superclasses. -/
def Overlaps (w : World) : MemberKind → MemberKind → Prop
  | .itself m, .itself m' => m = m'
  | .instanceOf cls, .instanceOf cls' => w.Reaches cls cls' ∨ w.Reaches cls' cls
  | _, _ => False

theorem Meets.symm (h : k.Meets w l) : l.Meets w k := by
  cases k with
  | itself m =>
    cases l with
    | itself m' => exact Eq.symm h
    | instanceOf cls => exact h
  | instanceOf cls =>
    cases l with
    | itself m => exact h
    | instanceOf cls' => exact Or.symm h

theorem meets_iff_overlaps (h : ∀ m, w.Acyclic m) : k.Meets w l ↔ k.Overlaps w l := by
  cases k with
  | itself m => cases l <;> rfl
  | instanceOf cls =>
    cases l with
    | itself m => rfl
    | instanceOf cls' => exact or_congr (h cls).mem_ancestors (h cls').mem_ancestors

end MemberKind

namespace Ty

variable {w : World}

theorem intersects_comm (w : World) (a b : Ty) : a.intersects w b = b.intersects w a := by
  have hswap {a b : Ty} (h : a.intersects w b = true) : b.intersects w a = true := by
    obtain ⟨k, hk, l, hl, hmeets⟩ := intersects_iff.mp h
    exact intersects_iff.mpr ⟨l, hl, k, hk, hmeets.symm⟩
  exact Bool.eq_iff_iff.mpr ⟨hswap, hswap⟩

theorem intersects_union {ts : List Ty} (h : ts ≠ []) (b : Ty) :
    (union ts).intersects w b = true ↔ ∃ t ∈ ts, t.intersects w b = true := by
  simp only [intersects_iff, mem_kinds_union h]
  constructor
  · rintro ⟨k, ⟨t, ht, hk⟩, hmeets⟩
    exact ⟨t, ht, k, hk, hmeets⟩
  · rintro ⟨t, ht, k, hk, hmeets⟩
    exact ⟨k, ⟨t, ht, hk⟩, hmeets⟩

/-- Where there are no cycles above the modules of a world, types intersect just if some of their
members overlap. This does not depend on which type comes first, and for a union it is enough, and
necessary, that one of its types does. -/
theorem intersects_symm_distributes (h : ∀ m, w.Acyclic m) :
    (∀ a b : Ty, a.intersects w b = true ↔ ∃ k ∈ a.kinds, ∃ l ∈ b.kinds, k.Overlaps w l) ∧
      (∀ a b : Ty, a.intersects w b = b.intersects w a) ∧
      ∀ ts : List Ty, ts ≠ [] → ∀ b : Ty,
        (union ts).intersects w b = true ↔ ∃ t ∈ ts, t.intersects w b = true := by
  refine ⟨fun a b ↦ ?_, intersects_comm w, fun ts hne b ↦ intersects_union hne b⟩
  simp only [intersects_iff, MemberKind.meets_iff_overlaps h]

theorem intersects_symm_distributes_crossing :
    let w := World.crossing
    let list := inst ⟨4⟩
    let comparable := inst ⟨1⟩
    (∀ m, w.Acyclic m) ∧ w.Reaches ⟨4⟩ ⟨1⟩ ∧ list.intersects w comparable = true ∧
      (union [singleton ⟨3⟩, comparable]).intersects w list = true ∧
      (singleton ⟨4⟩).intersects w list = false := by
  intro w list comparable
  have hlt : ∀ i < 5, w.Acyclic ⟨i⟩ := by decide +kernel
  have hacyclic : ∀ m, w.Acyclic m := World.acyclic_of_forall_lt hlt
  have hreach : w.Reaches ⟨4⟩ ⟨1⟩ := (hacyclic _).mem_ancestors.mp (by decide +kernel)
  obtain ⟨hiff, hsymm, hunion⟩ := intersects_symm_distributes hacyclic
  have hlist : list.intersects w comparable = true :=
    (hiff list comparable).mpr ⟨.instanceOf ⟨4⟩, by decide, .instanceOf ⟨1⟩, by decide, .inl hreach⟩
  refine ⟨hacyclic, hreach, hlist, ?_, by decide +kernel⟩
  refine (hunion [singleton ⟨3⟩, comparable] (List.cons_ne_nil _ _) list).mpr ⟨comparable, ?_, ?_⟩
  · exact List.mem_cons_of_mem _ (List.mem_singleton_self _)
  · exact (hsymm comparable list).trans hlist

end Ty

end FlowCompletion
