import FlowCompletion.Live.Ancestry
import FlowCompletion.Proofs.Table
import Mathlib.Data.Finset.Card
import Mathlib.Logic.Relation

namespace FlowCompletion

namespace World

variable {w v : World} {m a b : ModuleId} {height : Nat}

def Climbs (w : World) (m a : ModuleId) : Prop := a ∈ w.supers m

def Reaches (w : World) : ModuleId → ModuleId → Prop := Relation.ReflTransGen w.Climbs

theorem lineage_succ (w : World) (height : Nat) (m : ModuleId) :
    w.lineage (height + 1) m = m :: (w.supers m).flatMap (w.lineage height) := by
  rw [lineage, supers, List.flatMap_append]

theorem reaches_of_mem_lineage (h : a ∈ w.lineage height m) : w.Reaches m a := by
  induction height generalizing m with
  | zero => cases h
  | succ height ih =>
    rw [lineage_succ] at h
    rcases List.mem_cons.mp h with rfl | h
    · exact .refl
    · obtain ⟨b, hb, h⟩ := List.mem_flatMap.mp h
      exact .head hb (ih h)

/-- All ways up from a module end within so many steps, among modules that there are. -/
def Ends (w : World) : Nat → ModuleId → Prop
  | 0, _ => False
  | height + 1, m => m.index < w.modules.size ∧
      (∀ other ∈ (w.module m).includes, Ends w height other) ∧
      ∀ other ∈ w.superclass? m, Ends w height other

theorem ends_succ :
    w.Ends (height + 1) m ↔ m.index < w.modules.size ∧ ∀ a, w.Climbs m a → w.Ends height a := by
  simp [Ends, Climbs, supers, or_imp, forall_and]

theorem supers_congr (h : v.module m = w.module m) : v.supers m = w.supers m := by
  rw [supers, supers, superclass?, superclass?, h]

theorem Ends.congr (h : w.Ends height m)
    (hmodule : ∀ m, m.index < w.modules.size → v.module m = w.module m)
    (hsize : w.modules.size ≤ v.modules.size) {height' : Nat} (hle : height ≤ height') :
    v.Ends height' m := by
  induction height generalizing m height' with
  | zero => exact h.elim
  | succ height ih =>
    obtain ⟨higher, rfl⟩ : ∃ higher, height' = higher + 1 := ⟨height' - 1, by omega⟩
    obtain ⟨hindex, hup⟩ := ends_succ.mp h
    refine ends_succ.mpr ⟨Nat.lt_of_lt_of_le hindex hsize, fun a ha ↦ ih (hup a ?_) (by omega)⟩
    rwa [Climbs, ← supers_congr (hmodule m hindex)]

theorem Ends.mono (h : w.Ends height m) {height' : Nat} (hle : height ≤ height') :
    w.Ends height' m :=
  h.congr (fun _ _ ↦ rfl) (Nat.le_refl _) hle

theorem endsWithin_succ :
    w.endsWithin (height + 1) m = true ↔ ∀ a, w.Climbs m a → w.endsWithin height a = true := by
  rw [endsWithin, List.all_eq_true]
  rfl

theorem Ends.endsWithin (h : w.Ends height m) : w.endsWithin height m = true := by
  induction height generalizing m with
  | zero => exact h.elim
  | succ height ih => exact endsWithin_succ.mpr fun a ha ↦ ih ((ends_succ.mp h).2 a ha)

theorem mem_lineage_of_reaches (h : w.endsWithin height m = true) (ha : w.Reaches m a) :
    a ∈ w.lineage height m := by
  induction height generalizing m with
  | zero => cases h
  | succ height ih =>
    rw [lineage_succ]
    rcases ha.cases_head with rfl | ⟨b, hb, ha⟩
    · exact List.mem_cons_self
    · have hends := endsWithin_succ.mp h b hb
      exact List.mem_cons_of_mem _ (List.mem_flatMap.mpr ⟨b, hb, ih hends ha⟩)

theorem lineage_congr (hmodule : ∀ m, m.index < w.modules.size → v.module m = w.module m)
    (h : w.Ends height m) {height' : Nat} (hle : height ≤ height') :
    v.lineage height' m = w.lineage height m := by
  induction height generalizing m height' with
  | zero => exact h.elim
  | succ height ih =>
    obtain ⟨higher, rfl⟩ : ∃ higher, height' = higher + 1 := ⟨height' - 1, by omega⟩
    obtain ⟨hindex, hup⟩ := ends_succ.mp h
    rw [lineage_succ, lineage_succ, supers_congr (hmodule m hindex)]
    have hrest : (w.supers m).flatMap (v.lineage higher) =
        (w.supers m).flatMap (w.lineage height) :=
      List.flatMap_congr fun a ha ↦ ih (hup a ha) (by omega)
    rw [hrest]

theorem Ends.ancestors_eq (h : w.Ends w.modules.size m) :
    w.ancestors m = firsts (w.lineage w.modules.size m) := by
  have hle := Nat.le_succ w.modules.size
  rw [← lineage_congr (fun _ _ ↦ rfl) h hle]
  exact if_pos (h.mono hle).endsWithin

/-- A part of the world with everything above it, in which no way up comes back to its start. -/
structure Hierarchy (w : World) (ms : Set ModuleId) : Prop where
  present : ∀ m ∈ ms, m.index < w.modules.size
  closed : ∀ m ∈ ms, ∀ a, w.Climbs m a → a ∈ ms
  acyclic : ∀ m ∈ ms, ¬ Relation.TransGen w.Climbs m m

theorem hierarchy_of_older {ms : Set ModuleId} (hpresent : ∀ m ∈ ms, m.index < w.modules.size)
    (holder : ∀ m ∈ ms, ∀ a, w.Climbs m a → a ∈ ms ∧ a.index < m.index) : w.Hierarchy ms where
  present := hpresent
  closed m hm a ha := (holder m hm a ha).1
  acyclic := by
    have hway {m a : ModuleId} (hm : m ∈ ms) (h : Relation.TransGen w.Climbs m a) :
        a ∈ ms ∧ a.index < m.index := by
      induction h with
      | single ha => exact holder m hm _ ha
      | tail _ ha ih =>
        obtain ⟨hams, hlt⟩ := holder _ ih.1 _ ha
        exact ⟨hams, hlt.trans ih.2⟩
    intro m hm h
    exact absurd (hway hm h).2 (Nat.lt_irrefl _)

section above

open scoped Classical

noncomputable def above (w : World) (m : ModuleId) : Finset ModuleId :=
  ((Finset.range w.modules.size).image ModuleId.mk).filter (w.Reaches m)

theorem card_above_le (w : World) (m : ModuleId) : (w.above m).card ≤ w.modules.size :=
  calc (w.above m).card
      ≤ ((Finset.range w.modules.size).image ModuleId.mk).card := Finset.card_filter_le _ _
    _ ≤ (Finset.range w.modules.size).card := Finset.card_image_le
    _ = w.modules.size := Finset.card_range _

theorem mem_above_iff : a ∈ w.above m ↔ a.index < w.modules.size ∧ w.Reaches m a := by
  rw [above, Finset.mem_filter, Finset.mem_image]
  refine and_congr_left fun _ ↦ ⟨?_, fun ha ↦ ⟨a.index, Finset.mem_range.mpr ha, rfl⟩⟩
  rintro ⟨i, hi, rfl⟩
  exact Finset.mem_range.mp hi

theorem card_above_lt_of_climbs (hm : m.index < w.modules.size)
    (hacyclic : ¬ Relation.TransGen w.Climbs m m) (ha : w.Climbs m a) :
    (w.above a).card < (w.above m).card := by
  apply Finset.card_lt_card
  refine ⟨fun b hb ↦ ?_, fun hsubset ↦ ?_⟩
  · obtain ⟨hb, hreach⟩ := mem_above_iff.mp hb
    exact mem_above_iff.mpr ⟨hb, .head ha hreach⟩
  · -- a way back down would close a cycle
    have hback : w.Reaches a m := (mem_above_iff.mp (hsubset (mem_above_iff.mpr ⟨hm, .refl⟩))).2
    exact hacyclic (.head' ha hback)

namespace Hierarchy

variable {ms : Set ModuleId} (h : w.Hierarchy ms)

include h

theorem mem_of_reaches (hm : m ∈ ms) (ha : w.Reaches m a) : a ∈ ms := by
  induction ha with
  | refl => exact hm
  | tail _ hstep ih => exact h.closed _ ih _ hstep

theorem mem_above (hm : m ∈ ms) : a ∈ w.above m ↔ w.Reaches m a := by
  rw [mem_above_iff, and_iff_right_iff_imp]
  exact fun ha ↦ h.present a (h.mem_of_reaches hm ha)

theorem ends (hm : m ∈ ms) : w.Ends (w.above m).card m := by
  suffices hall : ∀ n, ∀ m ∈ ms, (w.above m).card ≤ n → w.Ends n m from hall _ m hm le_rfl
  intro n
  induction n with
  | zero =>
    intro m hm hcard
    have hself : m ∈ w.above m := (h.mem_above hm).mpr .refl
    rw [Finset.card_eq_zero.mp (Nat.le_zero.mp hcard)] at hself
    cases hself
  | succ n ih =>
    intro m hm hcard
    refine ends_succ.mpr ⟨h.present m hm, fun a ha ↦ ih a (h.closed m hm a ha) ?_⟩
    have hlt := card_above_lt_of_climbs (h.present m hm) (h.acyclic m hm) ha
    omega

theorem lineage_eq (hm : m ∈ ms) (hle : (w.above m).card ≤ height) :
    w.lineage height m = w.lineage (w.above m).card m :=
  lineage_congr (fun _ _ ↦ rfl) (h.ends hm) hle

end Hierarchy

end above

def search (w : World) : Nat → List ModuleId → ModuleId → List ModuleId
  | 0, found, _ => found
  | height + 1, found, m =>
    if m ∈ found then found else (w.supers m).foldl (search w height) (found ++ [m])

/-- What was met and lies above a module, was met together with all that lies above it. -/
def Settled (w : World) (found : List ModuleId) (m : ModuleId) : Prop :=
  ∀ s ∈ found, w.Reaches m s → ∀ a, w.Reaches s a → a ∈ found

theorem Settled.after (hends : w.Ends height b) {found : List ModuleId}
    (h : w.Settled found m) : w.Settled (firsts (found ++ w.lineage height b)) m := by
  intro s hs hms a ha
  rw [mem_firsts, List.mem_append] at hs ⊢
  rcases hs with hs | hs
  · exact .inl (h s hs hms a ha)
  · exact .inr (mem_lineage_of_reaches hends.endsWithin ((reaches_of_mem_lineage hs).trans ha))

theorem foldl_search_eq_firsts {ms : List ModuleId} {found : List ModuleId}
    (hsearch : ∀ m ∈ ms, ∀ found, found.Nodup → w.Settled found m →
      w.search height found m = firsts (found ++ w.lineage height m))
    (hends : ∀ m ∈ ms, w.Ends height m) (hnodup : found.Nodup)
    (hsettled : ∀ m ∈ ms, w.Settled found m) :
    ms.foldl (w.search height) found = firsts (found ++ ms.flatMap (w.lineage height)) := by
  induction ms generalizing found with
  | nil => rw [List.foldl_nil, List.flatMap_nil, List.append_nil, firsts_of_nodup hnodup]
  | cons m ms ih =>
    obtain ⟨hfirst, hrest⟩ := List.forall_mem_cons.mp hsearch
    obtain ⟨hm, hms⟩ := List.forall_mem_cons.mp hends
    obtain ⟨hsettledm, hsettledms⟩ := List.forall_mem_cons.mp hsettled
    rw [List.foldl_cons, hfirst found hnodup hsettledm,
      ih hrest hms (nodup_firsts _) fun b hb ↦ (hsettledms b hb).after hm, List.flatMap_cons,
      ← List.append_assoc]
    exact firsts_append_firsts [] _ _

theorem Hierarchy.search_eq_firsts {ms : Set ModuleId} (h : w.Hierarchy ms) (hm : m ∈ ms)
    (hends : w.Ends height m) {found : List ModuleId} (hnodup : found.Nodup)
    (hsettled : w.Settled found m) :
    w.search height found m = firsts (found ++ w.lineage height m) := by
  induction height generalizing m found with
  | zero => exact hends.elim
  | succ height ih =>
    rw [search]
    split
    case isTrue hmet =>
      have hnothing : (firsts (w.lineage (height + 1) m)).filter (fun a ↦ a ∉ found) = [] := by
        rw [List.filter_eq_nil_iff]
        intro a ha
        have hfound := hsettled m hmet .refl a (reaches_of_mem_lineage (mem_firsts.mp ha))
        simpa using hfound
      rw [firsts_append, firsts_of_nodup hnodup, hnothing, List.append_nil]
    case isFalse hnew =>
      have hup := (ends_succ.mp hends).2
      rw [lineage_succ, List.append_cons found m (List.flatMap _ _)]
      apply foldl_search_eq_firsts
      · intro a ha found hnodup hsettled
        exact ih (h.closed m hm a ha) (hup a ha) hnodup hsettled
      · exact hup
      · exact hnodup.append (List.nodup_singleton m) (by simpa using hnew)
      · intro a ha s hs has b hb
        rcases List.mem_append.mp hs with hs | hs
        · exact List.mem_append_left _ (hsettled s hs (.head ha has) b hb)
        · -- the module itself does not lie above those that it climbs to
          obtain rfl := List.mem_singleton.mp hs
          exact absurd (Relation.TransGen.head' ha has) (h.acyclic s hm)

/-- The ancestors may as well be found by turning back at modules met before. -/
theorem Hierarchy.ancestors_eq_search {ms : Set ModuleId} (h : w.Hierarchy ms) (hm : m ∈ ms)
    (hle : (w.above m).card ≤ height) : w.ancestors m = w.search height [] m := by
  have hsettled : w.Settled [] m := by
    intro s hs
    cases hs
  have hsize := w.card_above_le m
  rw [h.search_eq_firsts hm ((h.ends hm).mono hle) List.nodup_nil hsettled, List.nil_append,
    h.lineage_eq hm hle, ((h.ends hm).mono hsize).ancestors_eq, h.lineage_eq hm hsize]

end World

end FlowCompletion
