import FlowCompletion.Proofs.Scope.Merging
import FlowCompletion.Proofs.Ty.Sampled

namespace FlowCompletion

def Entry.WellTyped (e : Entry) : Prop := ∀ t ∈ e.value, t.WellFormed

structure Frame.WellTyped (f : Frame) : Prop where
  entries : f.All fun entry ↦ entry.2.WellTyped
  jumps : ∀ c ∈ f.jumps, ∀ entry ∈ c, entry.2.WellTyped
  selfType : ∀ t ∈ f.selfType, t.WellFormed

theorem Frame.wellTyped_fresh : ({} : Frame).WellTyped :=
  ⟨⟨nofun, nofun⟩, nofun, nofun⟩

namespace Scope

def WellTyped (s : Scope) : Prop := ∀ f ∈ s.frames, f.WellTyped

variable {w : World} {s : Scope}

theorem wellFormed_selfType (hs : s.WellTyped) (w : World) : (s.selfType w).WellFormed := by
  refine Ty.WellFormed.getD (fun t ht ↦ ?_) (Ty.wellFormed_ofObject w _)
  obtain ⟨f, hf, ht⟩ := List.exists_of_findSome?_eq_some ht
  exact (hs f hf).selfType t ht

theorem wellFormed_variableOf (w : World) (t : Ty) (name : String) :
    (variableOf w t name).WellFormed := by
  unfold variableOf
  dsimp only
  split
  · exact Ty.wellFormed_inst _
  · exact Ty.wellFormed_ofObjects w _

theorem Root.wellFormed_of_mem_lookup {r : Root} {key : Key} {t : Ty} (ht : t ∈ r.lookup w key) :
    t.WellFormed := by
  unfold Root.lookup at ht
  split at ht
  · cases ht
  · cases ht
  · obtain rfl := Option.mem_some.mp ht
    cases r.live? w _ with
    | none => exact Ty.wellFormed_inst _
    | some o => exact Ty.wellFormed_ofObject w o

theorem wellTyped_lookup (hs : s.WellTyped) (key : Key) : ∀ t ∈ s.lookup w key, t.WellFormed := by
  obtain ⟨root, frames⟩ := s
  change ∀ t ∈ lookupIn w root key frames, t.WellFormed
  induction frames with
  | nil => exact fun t ht ↦ Root.wellFormed_of_mem_lookup ht
  | cons f outer ih =>
    have houter := ih fun g hg ↦ hs g (List.mem_cons_of_mem _ hg)
    intro t ht
    cases hget : Table.get? f.table key with
    | some e =>
      rw [lookupIn_of_get? hget] at ht
      exact (hs f List.mem_cons_self).entries.1 _ (Table.mem_of_get? hget) t ht
    | none =>
      simp only [lookupIn, hget] at ht
      split at ht
      · exact (wellFormed_variableOf w _ _).of_mem_some ht
      · exact houter t ht

theorem wellTyped_constant? (hs : s.WellTyped) (m : ModuleId) (name : String) :
    ∀ t ∈ s.constant? w m name, t.WellFormed := by
  intro t ht
  unfold constant? at ht
  split at ht
  next e hfound =>
    obtain ⟨f, hf, hget⟩ := List.exists_of_findSome?_eq_some hfound
    exact (hs f hf).entries.1 _ (Table.mem_of_get? hget) t ht
  next =>
    obtain ⟨o, -, rfl⟩ := Option.map_eq_some_iff.mp ht
    exact Ty.wellFormed_ofObject w o

theorem wellTyped_resolveConstant (hs : s.WellTyped) (name : String) :
    ∀ t ∈ s.resolveConstant w name, t.WellFormed := by
  intro t ht
  obtain ⟨m, -, ht⟩ := List.exists_of_findSome?_eq_some ht
  exact wellTyped_constant? hs m name t ht

theorem wellTyped_modifyFrame {op : Frame → Frame} (hs : s.WellTyped)
    (hop : ∀ f, f.WellTyped → (op f).WellTyped) : (s.modifyFrame op).WellTyped := by
  obtain ⟨root, _ | ⟨f, outer⟩⟩ := s
  · exact hs
  · obtain ⟨hf, houter⟩ := List.forall_mem_cons.mp hs
    exact List.forall_mem_cons.mpr ⟨hop f hf, houter⟩

theorem wellTyped_setEntry {key : Key} {e : Entry} (hs : s.WellTyped) (he : e.WellTyped) :
    (s.setEntry key e).WellTyped := by
  refine wellTyped_modifyFrame hs fun f hf ↦ ?_
  exact ⟨⟨Frame.forall_mem_insert hf.entries.1 he, hf.entries.2⟩, hf.jumps, hf.selfType⟩

theorem wellTyped_setKey {key : Key} {value : Option Ty} (hs : s.WellTyped)
    (hvalue : ∀ t ∈ value, t.WellFormed) : (s.setKey key value).WellTyped :=
  wellTyped_setEntry hs hvalue

theorem wellTyped_set {t : Ty} (hs : s.WellTyped) (ht : t.WellFormed) (name : String) :
    (s.set name t).WellTyped :=
  wellTyped_setKey hs fun _ ↦ ht.of_mem_some

theorem wellTyped_setConstant {t : Ty} (hs : s.WellTyped) (ht : t.WellFormed) (w : World)
    (m : ModuleId) (name : String) : (s.setConstant w m name t).WellTyped :=
  wellTyped_setEntry hs fun _ ↦ ht.of_mem_some

theorem wellTyped_update {changes : Changes} (hs : s.WellTyped)
    (hchanges : ∀ entry ∈ changes, entry.2.WellTyped) : (s.update changes).WellTyped := by
  induction changes generalizing s with
  | nil => exact hs
  | cons entry changes ih =>
    obtain ⟨hentry, hrest⟩ := List.forall_mem_cons.mp hchanges
    rw [update_cons]
    split
    · exact ih (wellTyped_setKey hs hentry) hrest
    · exact ih hs hrest

theorem wellFormed_of_mem_mergedValue {branches : List Changes} {key : Key} {t : Ty}
    (hs : s.WellTyped) (hbranches : ∀ c ∈ branches, ∀ entry ∈ c, entry.2.WellTyped)
    (ht : t ∈ s.mergedValue w branches key) : t.WellFormed := by
  rcases mem_mergedValue.mp ht with ⟨c, hc, e, he, hvalue⟩ | ⟨-, hlookup⟩
  · have hmem := Table.mem_of_get? (entryFor_eq_some.mp he).1
    exact hbranches c hc _ hmem t hvalue
  · exact wellTyped_lookup hs key t hlookup

theorem wellTyped_merge {branches : List Changes} (hs : s.WellTyped)
    (hbranches : ∀ c ∈ branches, ∀ entry ∈ c, entry.2.WellTyped) :
    (s.merge w branches).WellTyped := by
  apply merge_induct hs
  intro t key _ ht
  refine wellTyped_setKey ht fun _ ↦ Ty.WellFormed.of_mem_some ?_
  exact Ty.wellFormed_union fun v hv ↦ wellFormed_of_mem_mergedValue hs hbranches hv

theorem wellTyped_enter {frame : Frame} {declared : List (String × Option Ty)} (hs : s.WellTyped)
    (hself : ∀ t ∈ frame.selfType, t.WellFormed)
    (hdeclared : ∀ d ∈ declared, ∀ t ∈ d.2, t.WellFormed) :
    (s.enter frame declared).WellTyped := by
  refine List.forall_mem_cons.mpr ⟨⟨⟨fun entry hentry ↦ ?_, nofun⟩, nofun, hself⟩, hs⟩
  obtain ⟨d, hd, rfl⟩ := List.mem_map.mp (Table.mem_of_mem_ofList hentry)
  exact hdeclared d hd

theorem wellTyped_outer (hs : s.WellTyped) : s.outer.WellTyped :=
  fun f hf ↦ hs f (List.mem_of_mem_tail hf)

theorem wellTyped_leave (hs : s.WellTyped) : s.leave.1.WellTyped := by
  obtain ⟨root, _ | ⟨f, outer⟩⟩ := s
  · exact Frame.wellTyped_fresh
  · exact hs f List.mem_cons_self

theorem wellTyped_terminate (hs : s.WellTyped) : s.terminate.WellTyped := by
  refine wellTyped_modifyFrame hs fun f hf ↦ ?_
  split
  · exact hf
  · refine ⟨⟨hf.entries.1, fun c hc ↦ ?_⟩, hf.jumps, hf.selfType⟩
    obtain rfl := Option.mem_some.mp hc
    exact hf.entries.1

theorem wellTyped_record {value : Ty} {changes : Changes} (hs : s.WellTyped)
    (hvalue : value.WellFormed) (hchanges : ∀ entry ∈ changes, entry.2.WellTyped)
    (label : String) :
    (s.record label value changes).WellTyped := by
  obtain ⟨root, frames⟩ := s
  change ∀ g ∈ (storeJump label value changes frames).1, g.WellTyped
  induction frames with
  | nil => exact hs
  | cons f outer ih =>
    obtain ⟨hf, houter⟩ := List.forall_mem_cons.mp hs
    rw [storeJump]
    split
    · exact hs
    split
    · refine List.forall_mem_cons.mpr ⟨⟨hf.entries, fun c hc ↦ ?_, hf.selfType⟩, houter⟩
      rcases List.mem_append.mp hc with hc | hc
      · exact hf.jumps c hc
      · rw [List.mem_singleton.mp hc]
        exact Frame.forall_mem_insert hchanges fun _ ↦ hvalue.of_mem_some
    · exact List.forall_mem_cons.mpr ⟨hf, ih houter⟩

theorem wellTyped_jump {value : Ty} (hs : s.WellTyped) (hvalue : value.WellFormed)
    (label : String) : (s.jump label value).WellTyped := by
  obtain ⟨root, _ | ⟨f, outer⟩⟩ := s
  · exact hs
  cases ht : f.terminated with
  | true =>
    rw [jump_eq_self ht]
    exact hs
  | false =>
    have hf := hs f List.mem_cons_self
    have hrecord := wellTyped_record hs hvalue hf.entries.1 label
    rw [jump_eq ht]
    refine wellTyped_terminate ?_
    split
    · exact wellTyped_setEntry hrecord fun _ ↦ hvalue.of_mem_some
    · exact hrecord

theorem wellTyped_mergeJumps (hs : s.WellTyped) (w : World) : (s.mergeJumps w).WellTyped := by
  obtain ⟨root, _ | ⟨f, outer⟩⟩ := s
  · refine wellTyped_merge hs fun c hc ↦ ?_
    rw [List.mem_singleton.mp hc]
    exact nofun
  obtain ⟨hf, houter⟩ := List.forall_mem_cons.mp hs
  cases ht : f.terminated with
  | true =>
    rw [mergeJumps_of_terminated ht]
    refine wellTyped_merge (List.forall_mem_cons.mpr ⟨?_, houter⟩) hf.jumps
    exact ⟨⟨hf.entries.changes, nofun⟩, nofun, hf.selfType⟩
  | false =>
    rw [mergeJumps_of_not_terminated ht]
    refine wellTyped_merge (List.forall_mem_cons.mpr ⟨⟨hf.entries, nofun, hf.selfType⟩, houter⟩) ?_
    intro c hc
    rcases List.mem_append.mp hc with hc | hc
    · exact hf.jumps c hc
    · rw [List.mem_singleton.mp hc]
      exact nofun

theorem wellTyped_joinBranches {branches : List Frame} (hs : s.WellTyped) (w : World)
    (hbranches : ∀ f ∈ branches, f.WellTyped) : (s.joinBranches w branches).WellTyped := by
  refine wellTyped_merge ?_ fun c hc ↦ ?_
  · split
    · exact wellTyped_terminate hs
    · exact hs
  · obtain ⟨f, hf, rfl⟩ := List.mem_map.mp hc
    exact (hbranches f (List.mem_filter.mp hf).1).entries.changes

theorem wellFormed_of_mem_snapshot (hs : s.WellTyped) {p : String × Ty}
    (hp : p ∈ (s.snapshot w).types) : p.2.WellFormed := by
  obtain ⟨name, -, hp⟩ := List.mem_filterMap.mp hp
  obtain ⟨t, ht, rfl⟩ := Option.map_eq_some_iff.mp hp
  exact wellTyped_lookup hs (.named name) t ht

end Scope

end FlowCompletion
