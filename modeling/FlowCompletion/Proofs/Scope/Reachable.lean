import FlowCompletion.Proofs.Scope.Merging

namespace FlowCompletion

structure Frame.Valid (level : Nat) (f : Frame) : Prop where
  levels : f.All fun entry ↦ entry.2.level ≤ level
  frozen : f.terminated = false → f.frozen = none

namespace Scope

def ValidFrames : List Frame → Prop
  | [] => True
  | f :: outer => f.Valid (outer.length + 1) ∧ ValidFrames outer

def Valid (s : Scope) : Prop := ValidFrames s.frames

/-- A frame is entered or left, something is run in the innermost one, or changes are taken over.
Only keys with `P` are given no type. -/
inductive ReachableDeclaring (P : Key → Prop) : Scope → Prop
  | root (r : Root) : ReachableDeclaring P ⟨r, []⟩
  | enter {s : Scope} (frame : Frame) (declared : List (String × Option Ty))
      (huntyped : ∀ d ∈ declared, d.2 = none → P (.named d.1)) :
      ReachableDeclaring P s → ReachableDeclaring P (s.enter frame declared)
  | run {s : Scope} {α : Type} (w : World) (step : ScopeStep α) :
      ReachableDeclaring P s → ReachableDeclaring P (step.run w s).2
  | update {s : Scope} (changes : Changes) (huntyped : ∀ c ∈ changes, c.2.value = none → P c.1) :
      ReachableDeclaring P s → ReachableDeclaring P (s.update changes)
  | leave {s : Scope} : ReachableDeclaring P s → ReachableDeclaring P s.leave.2

abbrev Reachable : Scope → Prop := ReachableDeclaring fun _ ↦ True

theorem levelIn_le {frames : List Frame} (h : ValidFrames frames) (key : Key) :
    levelIn key frames ≤ frames.length := by
  induction frames with
  | nil => exact Nat.le_refl 0
  | cons f outer ih =>
    have hrest := ih h.2
    simp only [levelIn, List.length_cons]
    split
    · exact Nat.zero_le _
    · split
      · exact Nat.le_refl _
      · split
        next hget => exact h.1.levels.1 _ (Table.mem_of_get? hget)
        next =>
          split
          · exact Nat.le_refl _
          · exact Nat.le_succ_of_le hrest

theorem validFrames_of_awaits {fs gs : List Frame} (h : List.Forall₂ Frame.Awaits fs gs)
    (hfs : ValidFrames fs) : ValidFrames gs := by
  induction h with
  | nil => trivial
  | cons hfg hrest ih =>
    obtain ⟨js, rfl⟩ := hfg
    refine ⟨?_, ih hfs.2⟩
    rw [← hrest.length_eq]
    exact ⟨hfs.1.levels, hfs.1.frozen⟩

theorem Move.valid {s t : Scope} (h : Move s t) (hs : s.Valid) : t.Valid := by
  cases h with
  | @inner root f g outer hstep =>
    refine ⟨⟨?_, ?_⟩, hs.2⟩
    · refine hstep.all hs.1.levels (fun key u ↦ levelIn_le hs key) ?_ ?_
      · exact fun m name u ↦ Nat.zero_le _
      · intro label level u hlevel
        dsimp only
        split at hlevel <;> omega
    · intro ht
      cases hstep with
      | write _ _ | constant _ _ _ | forgetJumps _ => exact hs.1.frozen ht
      | terminate _ | leave _ _ _ _ _ => cases ht
      | reopen _ => rfl
  | recorded _ label value changes =>
    exact validFrames_of_awaits (storeJump_awaits label value changes s.frames) hs

theorem Evolves.valid {s t : Scope} (h : Evolves s t) (hs : s.Valid) : t.Valid := by
  induction h with
  | refl => exact hs
  | tail _ hm ih => exact hm.valid ih

theorem valid_enter {s : Scope} (hs : s.Valid) (frame : Frame)
    (declared : List (String × Option Ty)) : (s.enter frame declared).Valid := by
  refine ⟨⟨⟨fun entry hentry ↦ ?_, fun c hc ↦ by cases hc⟩, fun _ ↦ rfl⟩, hs⟩
  obtain ⟨d, -, rfl⟩ := List.mem_map.mp (Table.mem_of_mem_ofList hentry)
  exact Nat.le_refl _

theorem valid_setKey {s : Scope} (hs : s.Valid) (key : Key) (value : Option Ty) :
    (s.setKey key value).Valid := by
  obtain ⟨root, _ | ⟨f, outer⟩⟩ := s
  · exact hs
  · refine ⟨⟨⟨?_, hs.1.levels.2⟩, hs.1.frozen⟩, hs.2⟩
    exact Frame.forall_mem_insert hs.1.levels.1 (levelIn_le hs key)

theorem Valid.outer {s : Scope} (hs : s.Valid) : s.outer.Valid := by
  obtain ⟨root, _ | ⟨f, outer⟩⟩ := s
  · exact hs
  · exact hs.2

section declaring

variable {P : Key → Prop} {s : Scope}

theorem ReachableDeclaring.valid (h : s.ReachableDeclaring P) : s.Valid := by
  induction h with
  | root r => trivial
  | enter frame declared _ _ ih => exact valid_enter ih frame declared
  | run w step _ ih => exact (step.run_evolves w _).valid ih
  | update changes _ _ ih => exact update_induct ih fun t c _ ht ↦ valid_setKey ht c.1 c.2.value
  | leave _ ih => exact ih.outer

def UntypedOnly (P : Key → Prop) (s : Scope) : Prop :=
  ∀ f ∈ s.frames, f.All fun entry ↦ entry.2.value = none → P entry.1

theorem all_of_awaits {fs gs : List Frame} {Q : Key × Entry → Prop}
    (h : List.Forall₂ Frame.Awaits fs gs) (hfs : ∀ f ∈ fs, f.All Q) : ∀ g ∈ gs, g.All Q := by
  induction h with
  | nil => exact hfs
  | cons hfg _ ih =>
    obtain ⟨js, rfl⟩ := hfg
    obtain ⟨hfirst, hrest⟩ := List.forall_mem_cons.mp hfs
    exact List.forall_mem_cons.mpr ⟨hfirst, ih hrest⟩

theorem Move.untypedOnly {t : Scope} (h : Move s t) (hs : s.UntypedOnly P) : t.UntypedOnly P := by
  cases h with
  | inner hstep =>
    obtain ⟨hfirst, hrest⟩ := List.forall_mem_cons.mp hs
    refine List.forall_mem_cons.mpr ⟨?_, hrest⟩
    apply hstep.all hfirst
    · exact fun key u hnone ↦ by cases hnone
    · exact fun address name u hnone ↦ by cases hnone
    · exact fun label level u _ hnone ↦ by cases hnone
  | recorded _ label value changes =>
    exact all_of_awaits (storeJump_awaits label value changes s.frames) hs

theorem Evolves.untypedOnly {t : Scope} (h : Evolves s t) (hs : s.UntypedOnly P) :
    t.UntypedOnly P := by
  induction h with
  | refl => exact hs
  | tail _ hm ih => exact hm.untypedOnly ih

theorem untypedOnly_enter (hs : s.UntypedOnly P) (frame : Frame)
    {declared : List (String × Option Ty)}
    (huntyped : ∀ d ∈ declared, d.2 = none → P (.named d.1)) :
    (s.enter frame declared).UntypedOnly P := by
  refine List.forall_mem_cons.mpr ⟨⟨fun entry hentry hnone ↦ ?_, fun c hc ↦ by cases hc⟩, hs⟩
  obtain ⟨d, hd, rfl⟩ := List.mem_map.mp (Table.mem_of_mem_ofList hentry)
  exact huntyped d hd hnone

theorem untypedOnly_setKey (hs : s.UntypedOnly P) {key : Key} {value : Option Ty}
    (huntyped : value = none → P key) : (s.setKey key value).UntypedOnly P := by
  obtain ⟨root, _ | ⟨f, outer⟩⟩ := s
  · exact hs
  · obtain ⟨hfirst, hrest⟩ := List.forall_mem_cons.mp hs
    refine List.forall_mem_cons.mpr ⟨⟨?_, hfirst.2⟩, hrest⟩
    exact Frame.forall_mem_insert hfirst.1 huntyped

theorem ReachableDeclaring.untypedOnly (h : s.ReachableDeclaring P) : s.UntypedOnly P := by
  induction h with
  | root r => exact List.forall_mem_nil _
  | enter frame declared huntyped _ ih => exact untypedOnly_enter ih frame huntyped
  | run w step _ ih => exact (step.run_evolves w _).untypedOnly ih
  | update changes huntyped _ ih =>
    exact update_induct ih fun t c hc ht ↦ untypedOnly_setKey ht (huntyped c hc)
  | leave _ ih => exact fun f hf ↦ ih f (List.mem_of_mem_tail hf)

end declaring

def bare (declared : List (String × Option Ty)) : Scope :=
  enter ⟨⟨{ receiver := .ofModule .object }, []⟩, []⟩ {} declared

theorem reachable_bare (declared : List (String × Option Ty)) : (bare declared).Reachable :=
  .enter {} declared (fun _ _ _ ↦ trivial) (.root _)

end Scope

end FlowCompletion
