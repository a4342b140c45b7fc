import FlowCompletion.Proofs.Ty.Union
import FlowCompletion.Resolution.Fit

namespace FlowCompletion

/-- Both can describe the same value: the same module, or instances of classes of which one inherits
from the other. -/
def MemberKind.Meets (w : World) : MemberKind → MemberKind → Prop
  | .itself m, .itself m' => m = m'
  | .instanceOf cls, .instanceOf cls' => cls' ∈ w.ancestors cls ∨ cls ∈ w.ancestors cls'
  | _, _ => False

namespace Ty

variable {w : World} {a b t : Ty}

theorem mem_modules {m : ModuleId} :
    m ∈ t.members.filterMap Member.module? ↔ .itself m ∈ t.kinds := by
  simp only [kinds, List.mem_filterMap, List.mem_map, Member.module?_eq_some, Member.kind_eq_itself]

theorem mem_classes {cls : ModuleId} :
    cls ∈ t.members.filterMap Member.class? ↔ .instanceOf cls ∈ t.kinds := by
  simp only [kinds, List.mem_filterMap, List.mem_map, Member.kind_eq_instanceOf]

theorem reaches_iff {lower upper : List ModuleId} :
    reaches w lower upper = true ↔ ∃ c ∈ lower, ∃ d ∈ upper, d ∈ w.ancestors c := by
  simp only [reaches, List.any_eq_true, List.contains_iff_mem]
  constructor
  · rintro ⟨c, hc, d, hd, hupper⟩
    exact ⟨c, hc, d, hupper, hd⟩
  · rintro ⟨c, hc, d, hupper, hd⟩
    exact ⟨c, hc, d, hd, hupper⟩

theorem intersects_iff :
    a.intersects w b = true ↔ ∃ k ∈ a.kinds, ∃ l ∈ b.kinds, k.Meets w l := by
  have hmodules : (a.members.filterMap Member.module?).any
      (b.members.filterMap Member.module?).contains = true ↔
        ∃ m, .itself m ∈ a.kinds ∧ .itself m ∈ b.kinds := by
    simp only [List.any_eq_true, List.contains_iff_mem, mem_modules]
  simp only [intersects, Bool.or_eq_true, hmodules, reaches_iff, mem_classes]
  constructor
  · rintro ((⟨m, ha, hb⟩ | ⟨c, hc, d, hd, h⟩) | ⟨d, hd, c, hc, h⟩)
    · exact ⟨_, ha, _, hb, rfl⟩
    · exact ⟨_, hc, _, hd, .inl h⟩
    · exact ⟨_, hc, _, hd, .inr h⟩
  · rintro ⟨k, hk, l, hl, h⟩
    cases k with
    | itself m =>
      cases l with
      | itself m' =>
        obtain rfl : m = m' := h
        exact .inl (.inl ⟨m, hk, hl⟩)
      | instanceOf cls => cases h
    | instanceOf c =>
      cases l with
      | itself m => cases h
      | instanceOf d =>
        rcases h with h | h
        · exact .inl (.inr ⟨c, hk, d, hl, h⟩)
        · exact .inr ⟨d, hl, c, hk, h⟩

end Ty

namespace Resolver

def Responds (r : Resolver) (name : String) : MemberKind → Prop
  | .itself m => (r.world.methods (.ofModule m)).contains name ∨ (r.findMethod m name true).isSome
  | .instanceOf cls =>
    ((r.world.methodVisibility? cls name).any fun v ↦ !v.isPrivate) ∨
      (r.findMethod cls name false).isSome

def FitsKind (r : Resolver) (receiver : Ty) (e : TypeExpr) (k : MemberKind) : Prop :=
  (∃ l ∈ (r.read receiver [] e).kinds, k.Meets r.world l) ∨
    ∃ c ∈ implicitConversions, c.1.intersects r.world (r.read receiver [] e) = true ∧
      r.Responds c.2 k

variable {r : Resolver} {receiver t : Ty} {name : String} {e : TypeExpr}

theorem respondsTo_iff : r.respondsTo t name = true ↔ ∃ k ∈ t.kinds, r.Responds name k := by
  simp only [respondsTo, List.any_eq_true, Ty.kinds, List.mem_map, exists_exists_and_eq_and]
  refine exists_congr fun x ↦ and_congr_right fun _ ↦ ?_
  cases x <;> simp only [Bool.or_eq_true, Responds, Member.kind, methodOf, ownerOf]

theorem fits_iff : r.fits receiver t e = true ↔ ∃ k ∈ t.kinds, r.FitsKind receiver e k := by
  simp only [fits, Bool.or_eq_true, List.any_eq_true, Bool.and_eq_true, Ty.intersects_iff,
    respondsTo_iff, FitsKind]
  constructor
  · rintro (⟨k, hk, hmeets⟩ | ⟨c, hc, htarget, k, hk, hresponds⟩)
    · exact ⟨k, hk, .inl hmeets⟩
    · exact ⟨k, hk, .inr ⟨c, hc, htarget, hresponds⟩⟩
  · rintro ⟨k, hk, hmeets | ⟨c, hc, htarget, hresponds⟩⟩
    · exact .inl ⟨k, hk, hmeets⟩
    · exact .inr ⟨c, hc, htarget, k, hk, hresponds⟩

theorem fits_union {ts : List Ty} (h : ts ≠ []) :
    r.fits receiver (Ty.union ts) e = true ↔ ∃ t ∈ ts, r.fits receiver t e = true := by
  simp only [fits_iff, Ty.mem_kinds_union h]
  constructor
  · rintro ⟨k, ⟨t, ht, hk⟩, hfits⟩
    exact ⟨t, ht, k, hk, hfits⟩
  · rintro ⟨t, ht, k, hk, hfits⟩
    exact ⟨k, ⟨t, ht, hk⟩, hfits⟩

end Resolver

end FlowCompletion
