import FlowCompletion.Proofs.Live.Ancestry
import Mathlib.Data.List.Flatten

namespace FlowCompletion

namespace World

variable {w : World} {m a b : ModuleId} {height : Nat} {found all : List ModuleId}

/-- No way up from the module leads to one that lies above itself. -/
def Acyclic (w : World) (m : ModuleId) : Prop :=
  ∀ a, w.Reaches m a → ¬ Relation.TransGen w.Climbs a a

theorem Acyclic.of_reaches (h : w.Acyclic m) (ha : w.Reaches m a) : w.Acyclic a :=
  fun b hb ↦ h b (ha.trans hb)

theorem acyclic_of_climbs (h : ∀ a, w.Climbs m a → w.Acyclic a) : w.Acyclic m := by
  intro b hb hcycle
  rcases hb.cases_head with rfl | ⟨a, ha, hb⟩
  · -- the first step of a cycle through the module itself
    obtain ⟨a, ha, hback⟩ := Relation.TransGen.head'_iff.mp hcycle
    exact h a ha m hback hcycle
  · exact h a ha b hb hcycle

theorem module_of_not_lt (hm : ¬ m.index < w.modules.size) : w.module m = {} := by
  simp [World.module, Array.getD_eq_getD_getElem?, hm]

theorem index_lt_of_climbs (ha : w.Climbs m a) : m.index < w.modules.size := by
  by_contra hm
  simp [Climbs, supers, superclass?, module_of_not_lt hm] at ha

theorem acyclic_of_forall_lt (h : ∀ i < w.modules.size, w.Acyclic ⟨i⟩) (m : ModuleId) :
    w.Acyclic m := by
  by_cases hm : m.index < w.modules.size
  · exact h m.index hm
  · exact acyclic_of_climbs fun a ha ↦ absurd (index_lt_of_climbs ha) hm

theorem Acyclic.endsWithin (h : w.Acyclic m) : w.endsWithin (w.modules.size + 1) m = true := by
  suffices hall : ∀ n, ∀ m, w.Acyclic m → (w.above m).card ≤ n →
      w.endsWithin (n + 1) m = true from hall _ m h (w.card_above_le m)
  -- with every step up fewer modules are left above
  intro n
  induction n with
  | zero =>
    intro m h hcard
    refine endsWithin_succ.mpr fun a ha ↦ ?_
    have hlt := card_above_lt_of_climbs (index_lt_of_climbs ha) (h m .refl) ha
    omega
  | succ n ih =>
    intro m h hcard
    refine endsWithin_succ.mpr fun a ha ↦ ih a (h.of_reaches (.single ha)) ?_
    have hlt := card_above_lt_of_climbs (index_lt_of_climbs ha) (h m .refl) ha
    omega

theorem acyclic_of_endsWithin (h : w.endsWithin height m = true) : w.Acyclic m := by
  induction height generalizing m with
  | zero => cases h
  | succ height ih => exact acyclic_of_climbs fun a ha ↦ ih (endsWithin_succ.mp h a ha)

theorem acyclic_iff_endsWithin : w.Acyclic m ↔ w.endsWithin (w.modules.size + 1) m = true :=
  ⟨Acyclic.endsWithin, acyclic_of_endsWithin⟩

instance (w : World) : DecidablePred w.Acyclic :=
  fun _ ↦ decidable_of_iff _ acyclic_iff_endsWithin.symm

theorem acc_of_endsWithin (h : w.endsWithin height m = true) :
    Acc (fun a m ↦ a ∈ w.supers m) m := by
  induction height generalizing m with
  | zero => cases h
  | succ height ih => exact ⟨m, fun a ha ↦ ih (endsWithin_succ.mp h a ha)⟩

theorem Acyclic.walk_eq_foldl (h : w.Acyclic m) (found : List ModuleId) :
    w.walk found m =
      (w.supers m).foldl w.walk (if m ∈ found then found else found ++ [m]) := by
  rw [walk, WellFounded.partialExtrinsicFix_eq_apply_of_acc (acc_of_endsWithin h.endsWithin), visit]
  exact List.foldl_attach (f := w.walk)

theorem walk_of_endsWithin (h : w.endsWithin height m = true) (hnodup : found.Nodup) :
    w.walk found m = firsts (found ++ w.lineage height m) := by
  induction height generalizing m found with
  | zero => cases h
  | succ height ih =>
    have hall (ms : List ModuleId) (hms : ∀ a ∈ ms, w.endsWithin height a = true)
        (found : List ModuleId) (hnodup : found.Nodup) :
        ms.foldl w.walk found = firsts (found ++ ms.flatMap (w.lineage height)) := by
      induction ms generalizing found with
      | nil => rw [List.flatMap_nil, List.append_nil, firsts_of_nodup hnodup, List.foldl_nil]
      | cons a ms ihms =>
        obtain ⟨ha, hms⟩ := List.forall_mem_cons.mp hms
        rw [List.foldl_cons, ih ha hnodup, ihms hms _ (nodup_firsts _), List.flatMap_cons,
          ← List.append_assoc]
        exact firsts_append_firsts [] _ _
    rw [(acyclic_of_endsWithin h).walk_eq_foldl, ← firsts_concat hnodup,
      hall _ (endsWithin_succ.mp h) _ (nodup_firsts _), lineage_succ,
      List.append_cons found m (List.flatMap _ _)]
    exact firsts_append_firsts [] _ _

theorem Acyclic.ancestors_eq (h : w.Acyclic m) :
    w.ancestors m = firsts (w.lineage (w.modules.size + 1) m) :=
  if_pos h.endsWithin

theorem ancestors_eq_walk (w : World) (m : ModuleId) : w.ancestors m = w.walk [] m := by
  by_cases h : w.Acyclic m
  · rw [h.ancestors_eq, walk_of_endsWithin h.endsWithin List.nodup_nil, List.nil_append]
  · exact if_neg fun hends ↦ h (acyclic_of_endsWithin hends)

/-- The walk follows the modules in their order, with some found before, and returns with what is
found by then. Every call of a run is one use of `cons`. -/
inductive Walks (w : World) : List ModuleId → List ModuleId → List ModuleId → Prop
  | nil {found : List ModuleId} : Walks w [] found found
  | cons {m : ModuleId} {ms found mid all : List ModuleId} :
      Walks w (w.supers m) (if m ∈ found then found else found ++ [m]) mid →
      Walks w ms mid all → Walks w (m :: ms) found all

/-- From a cycle there is no return. -/
theorem Walks.acyclic {ms : List ModuleId} (h : w.Walks ms found all) : ∀ m ∈ ms, w.Acyclic m := by
  induction h with
  | nil => exact List.forall_mem_nil _
  | cons _ _ ihsupers ihms => exact List.forall_mem_cons.mpr ⟨acyclic_of_climbs ihsupers, ihms⟩

theorem Walks.eq_foldl {ms : List ModuleId} (h : w.Walks ms found all) :
    all = ms.foldl w.walk found := by
  induction h with
  | nil => rfl
  | cons hsupers _ ihsupers ihms =>
    rw [ihms, ihsupers, List.foldl_cons, (acyclic_of_climbs hsupers.acyclic).walk_eq_foldl]

theorem walks_of_endsWithin {ms : List ModuleId} (h : ∀ m ∈ ms, w.endsWithin height m = true)
    (found : List ModuleId) : w.Walks ms found (ms.foldl w.walk found) := by
  induction height generalizing ms found with
  | zero =>
    cases ms with
    | nil => exact .nil
    | cons m ms => cases h m List.mem_cons_self
  | succ height ih =>
    induction ms generalizing found with
    | nil => exact .nil
    | cons m ms ihms =>
      obtain ⟨hm, hms⟩ := List.forall_mem_cons.mp h
      rw [List.foldl_cons, (acyclic_of_endsWithin hm).walk_eq_foldl]
      exact .cons (ih (endsWithin_succ.mp hm) _) (ihms hms _)

theorem walks_iff : w.Walks [m] [] all ↔ w.Acyclic m ∧ all = w.ancestors m := by
  rw [ancestors_eq_walk]
  constructor
  · exact fun h ↦ ⟨h.acyclic m (List.mem_singleton_self m), h.eq_foldl⟩
  · rintro ⟨h, rfl⟩
    exact walks_of_endsWithin (List.forall_mem_singleton.mpr h.endsWithin) []

theorem lineage_sublist (h : w.endsWithin height m = true) (height' : Nat) :
    (w.lineage height' m).Sublist (w.lineage height m) := by
  induction height generalizing m height' with
  | zero => cases h
  | succ height ih =>
    cases height' with
    | zero => exact List.nil_sublist _
    | succ height' =>
      rw [lineage_succ, lineage_succ]
      refine .cons_cons m (List.Sublist.flatMap_right _ fun a ha ↦ ?_)
      exact ih (endsWithin_succ.mp h a ha) height'

theorem le_length_lineage (h : ¬ w.Acyclic m) (height : Nat) :
    height ≤ (w.lineage height m).length := by
  induction height generalizing m with
  | zero => exact Nat.zero_le _
  | succ height ih =>
    -- one of the ways on from here leads to a cycle, too
    obtain ⟨a, ha, hcyclic⟩ : ∃ a, w.Climbs m a ∧ ¬ w.Acyclic a := by
      by_contra hnone
      push Not at hnone
      exact h (acyclic_of_climbs hnone)
    have hsublist : (w.lineage height a).Sublist ((w.supers m).flatMap (w.lineage height)) :=
      List.sublist_flatten_of_mem (List.mem_map_of_mem ha)
    have hle := (ih hcyclic).trans hsublist.length_le
    rw [lineage_succ, List.length_cons]
    omega

theorem calls_bounded_iff :
    (∃ calls, ∀ height, (w.lineage height m).length ≤ calls) ↔ w.Acyclic m := by
  constructor
  · rintro ⟨calls, hcalls⟩
    by_contra hcyclic
    have hle := (le_length_lineage hcyclic (calls + 1)).trans (hcalls (calls + 1))
    omega
  · exact fun h ↦ ⟨_, fun height' ↦ (lineage_sublist h.endsWithin height').length_le⟩

theorem Acyclic.mem_ancestors (h : w.Acyclic m) : a ∈ w.ancestors m ↔ w.Reaches m a := by
  rw [h.ancestors_eq, mem_firsts]
  exact ⟨reaches_of_mem_lineage, mem_lineage_of_reaches h.endsWithin⟩

theorem Acyclic.inherits_iff (h : w.Acyclic m) : w.inherits m a = true ↔ w.Reaches m a := by
  rw [inherits, List.contains_iff_mem, h.mem_ancestors]

/-- Where no cycles lie above the modules of a world, or of a part of it, the walk to the ancestors
of each returns; it lists the module first, and every module that is reached from it once. So
inheritance orders them. -/
theorem ancestors_partial_order (ms : Set ModuleId) (h : ∀ m ∈ ms, w.Acyclic m) :
    (∀ m ∈ ms, (∀ all, w.Walks [m] [] all ↔ all = w.ancestors m) ∧
      (w.ancestors m).head? = some m ∧ (w.ancestors m).Nodup ∧
      ∀ a, a ∈ w.ancestors m ↔ w.Reaches m a) ∧
    (∀ m ∈ ms, w.inherits m m = true) ∧
    (∀ m ∈ ms, ∀ a b, w.inherits m a = true → w.inherits a b = true → w.inherits m b = true) ∧
    ∀ m ∈ ms, ∀ a, w.inherits m a = true → w.inherits a m = true → a = m := by
  refine ⟨fun m hm ↦ ⟨fun all ↦ walks_iff.trans (and_iff_right (h m hm)), ?_, ?_,
    fun a ↦ (h m hm).mem_ancestors⟩, ?_, ?_, ?_⟩
  · rw [(h m hm).ancestors_eq, lineage_succ]
    rfl
  · rw [(h m hm).ancestors_eq]
    exact nodup_firsts _
  · intro m hm
    exact (h m hm).inherits_iff.mpr .refl
  · intro m hm a b hma hab
    have hreach := (h m hm).inherits_iff.mp hma
    exact (h m hm).inherits_iff.mpr
      (hreach.trans (((h m hm).of_reaches hreach).inherits_iff.mp hab))
  · intro m hm a hma ham
    have hreach := (h m hm).inherits_iff.mp hma
    have hback := ((h m hm).of_reaches hreach).inherits_iff.mp ham
    rcases Relation.reflTransGen_iff_eq_or_transGen.mp hreach with heq | hway
    · exact heq
    · exact absurd (hway.trans_left hback) (h m hm m .refl)

def crossing : World :=
  { modules := #[{ name := some "Kernel" }, { name := some "Comparable", includes := [⟨0⟩] },
      { name := some "Enumerable", includes := [⟨0⟩, ⟨1⟩] },
      { name := some "Base", kind := .cls none, includes := [⟨2⟩] },
      { name := some "List", kind := .cls (some ⟨3⟩), includes := [⟨1⟩, ⟨2⟩] }] }

theorem ancestors_partial_order_crossing :
    (∀ i < 5, crossing.Acyclic ⟨i⟩) ∧ crossing.ancestors ⟨4⟩ = [⟨4⟩, ⟨2⟩, ⟨1⟩, ⟨0⟩, ⟨3⟩] ∧
      crossing.Walks [⟨4⟩] [] (crossing.ancestors ⟨4⟩) ∧ crossing.Reaches ⟨4⟩ ⟨0⟩ ∧
      crossing.inherits ⟨4⟩ ⟨1⟩ = true := by
  have hacyclic : ∀ i < 5, crossing.Acyclic ⟨i⟩ := by decide +kernel
  have hlisted : crossing.ancestors ⟨4⟩ = [⟨4⟩, ⟨2⟩, ⟨1⟩, ⟨0⟩, ⟨3⟩] := by decide +kernel
  obtain ⟨hwalk, -, htrans, -⟩ :=
    ancestors_partial_order {m | m.index < 5} fun m hm ↦ hacyclic m.index hm
  obtain ⟨hreturns, -, -, hmem⟩ := hwalk ⟨4⟩ (by decide)
  refine ⟨hacyclic, hlisted, (hreturns _).mpr rfl, (hmem ⟨0⟩).mp (by rw [hlisted]; decide), ?_⟩
  exact htrans ⟨4⟩ (by decide) ⟨2⟩ ⟨1⟩ (by decide +kernel) (by decide +kernel)

end World

end FlowCompletion
