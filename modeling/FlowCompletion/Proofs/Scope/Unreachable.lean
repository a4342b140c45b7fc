import FlowCompletion.Proofs.Scope.Jumps

namespace FlowCompletion

namespace Scope

variable {w : World} {p s t u : Scope} {level : Nat}

theorem record_eq_self (h : s.isTerminated = true) (label : String) (value : Ty)
    (changes : Changes) : s.record label value changes = s := by
  obtain ⟨root, _ | ⟨f, outer⟩⟩ := s
  · rfl
  · have ht : f.terminated = true := h
    simp [record, storeJump, ht]

theorem Within.record (h : Within p s) (hp : p.isTerminated = true) (label : String) (value : Ty)
    (changes : Changes) : Within p (s.record label value changes) := by
  induction h with
  | here =>
    rw [record_eq_self hp]
    exact .here
  | @further f s h ih =>
    cases ht : f.terminated with
    | true =>
      rw [record_eq_self (s := ⟨s.root, f :: s.frames⟩) ht]
      exact .further f h
    | false =>
      cases hl : f.has (.named label) with
      | true =>
        rw [Scope.record, storeJump_of_has ht hl]
        exact .further _ h
      | false =>
        rw [record_of_not_has ht hl]
        exact .further f ih

theorem Within.evolves (h : Within p s) (hp : p.isTerminated = true) (hlt : p.level < s.level)
    (hst : Evolves s t) : Within p t := by
  induction hst with
  | refl => exact h
  | @tail t u hst hm ih =>
    have hlevel := Evolves.level hst
    cases hm with
    | @inner root f g outer hstep =>
      cases ih with
      | here => exact absurd hlt (Nat.not_lt.mpr (Nat.le_of_eq hlevel.symm))
      | further f h => exact .further g h
    | recorded _ label value changes => exact ih.record hp label value changes

/-- What operations other than merging jumps do about frames that control has left: at most the
entries of such a frame change, and one that is left now remembers those it had. -/
structure Seals (s t : Scope) : Prop where
  level : t.level = s.level
  around : ∀ p, p.isTerminated = true → Within p s → ∃ table, Within (p.retable table) t
  frozen : s.isTerminated = false → t.isTerminated = true → t.leave.1.frozen.isSome = true

theorem exists_within_retable (h : Within p s) : ∃ table, Within (p.retable table) s := by
  obtain ⟨table, htable⟩ := p.exists_retable_eq
  exact ⟨table, htable.symm ▸ h⟩

theorem Seals.refl (s : Scope) : s.Seals s :=
  ⟨rfl, fun _ _ h ↦ exists_within_retable h,
    fun hs ht ↦ absurd (hs.symm.trans ht) Bool.false_ne_true⟩

theorem Seals.trans (hst : s.Seals t) (htu : t.Seals u) : s.Seals u := by
  refine ⟨htu.level.trans hst.level, fun p hp hs ↦ ?_, fun hs hu ↦ ?_⟩
  · obtain ⟨table, ht⟩ := hst.around p hp hs
    obtain ⟨table', hu⟩ := htu.around _ ((isTerminated_retable p table).trans hp) ht
    rw [retable_retable] at hu
    exact ⟨table', hu⟩
  · cases ht : t.isTerminated with
    | false => exact htu.frozen ht hu
    | true =>
      obtain ⟨table, hwithin⟩ := htu.around t ht .here
      have heq := hwithin.eq_of_level (htu.level.trans (level_retable t table).symm)
      rw [heq, frozen_retable]
      exact hst.frozen hs ht

theorem seals_setEntry (s : Scope) (key : Key) (e : Entry) : s.Seals (s.setEntry key e) := by
  obtain ⟨root, _ | ⟨f, outer⟩⟩ := s
  · exact .refl _
  refine ⟨rfl, fun p hp h ↦ ?_, fun hs ht ↦ absurd (hs.symm.trans ht) Bool.false_ne_true⟩
  cases h with
  | here => exact ⟨Table.insert f.table key e, .here⟩
  | further f h => exact exists_within_retable (.further _ h)

theorem seals_terminate (s : Scope) : s.Seals s.terminate := by
  obtain ⟨root, _ | ⟨f, outer⟩⟩ := s
  · exact .refl _
  cases ht : f.terminated with
  | true =>
    rw [terminate_eq_self ht]
    exact .refl _
  | false =>
    rw [terminate_eq ht]
    refine ⟨rfl, fun p hp h ↦ ?_, fun _ _ ↦ rfl⟩
    cases h with
    | here => exact absurd (ht.symm.trans hp) Bool.false_ne_true
    | further f h => exact exists_within_retable (.further _ h)

theorem seals_record (s : Scope) (label : String) (value : Ty) (changes : Changes) :
    s.Seals (s.record label value changes) := by
  have hsame : (s.record label value changes).isTerminated = s.isTerminated :=
    isTerminated_of_awaits (storeJump_awaits label value changes s.frames)
  refine ⟨level_record s label value changes, fun p hp h ↦ ?_, fun hs ht ↦ ?_⟩
  · exact exists_within_retable (h.record hp label value changes)
  · rw [hsame, hs] at ht
    cases ht

theorem seals_outer {frame : Frame} {declared : List (String × Option Ty)}
    (h : Evolves (s.enter frame declared) t) : s.Seals t.outer := by
  have hlevel := h.level
  have hsame : t.outer.isTerminated = s.isTerminated := isTerminated_of_awaits h.awaits_outer
  refine ⟨?_, fun p hp hs ↦ ?_, fun hs ht ↦ ?_⟩
  · exact h.awaits_outer.length_eq.symm
  · have hlt : p.level < (s.enter frame declared).level := Nat.lt_succ_of_le hs.level_le
    cases Within.evolves (.further _ hs) hp hlt h with
    | here => exact absurd hlevel (Nat.ne_of_lt hlt)
    | further f hwithin => exact exists_within_retable hwithin
  · rw [hsame, hs] at ht
    cases ht

theorem covers_seals : Covers Seals where
  refl := .refl
  trans := .trans
  setEntry := seals_setEntry
  terminate := seals_terminate
  record := seals_record
  outer := seals_outer

/-- Anything that may be done in the frame at a level and in frames further in, but merging jumps in
the frame itself and leaving it. -/
inductive Operates (w : World) (level : Nat) : Scope → Scope → Prop
  | enter {s : Scope} (frame : Frame) (declared : List (String × Option Ty)) :
      Operates w level s (s.enter frame declared)
  | resumes {s t : Scope} (h : Resumes w level s t) : Operates w level s t

theorem Operates.around (h : Operates w level s t) (hs : Within p s) (hlevel : p.level = level)
    (hp : p.isTerminated = true) : ∃ table, Within (p.retable table) t := by
  subst hlevel
  cases h with
  | enter frame declared => exact exists_within_retable (.further _ hs)
  | resumes h =>
    cases h with
    | run step hstep =>
      rcases hstep with hlt | hstep
      · exact exists_within_retable (hs.evolves hp hlt (step.run_evolves w s))
      · exact (covers_seals.run w hstep s).around p hp hs
    | leave hlt =>
      cases hs with
      | here => exact absurd hlt (Nat.lt_irrefl _)
      | further f hs => exact exists_within_retable hs
    | update changes => exact (covers_seals.update s changes).around p hp hs
    | join branches => exact (covers_seals.joinBranches s w branches).around p hp hs

theorem around_of_operates (h : Relation.ReflTransGen (Operates w level) s t) (hs : Within p s)
    (hlevel : p.level = level) (hp : p.isTerminated = true) :
    ∃ table, Within (p.retable table) t := by
  induction h with
  | refl => exact exists_within_retable hs
  | tail _ hstep ih =>
    obtain ⟨table, ht⟩ := ih
    obtain ⟨table', hu⟩ := hstep.around ht ((level_retable p table).trans hlevel)
      ((isTerminated_retable p table).trans hp)
    rw [retable_retable] at hu
    exact ⟨table', hu⟩

def atLevel (s : Scope) (level : Nat) : Scope := ⟨s.root, s.frames.drop (s.level - level)⟩

theorem Within.atLevel (h : Within p s) : s.atLevel p.level = p := by
  induction h with
  | here =>
    rw [Scope.atLevel, Nat.sub_self]
    rfl
  | @further f s h ih =>
    have hsub : (⟨s.root, f :: s.frames⟩ : Scope).level - p.level = s.level - p.level + 1 :=
      Nat.succ_sub h.level_le
    rw [Scope.atLevel, hsub, List.drop_succ_cons]
    exact ih

/-- Control has left the frame at the level, and jumps have not been merged there since. -/
inductive Dead (w : World) (level : Nat) : Scope → Prop
  | left {s t : Scope} (hlevel : s.level = level) (hopen : s.isTerminated = false)
      (h : Operates w level s t) (ht : (t.atLevel level).isTerminated = true) : Dead w level t
  | later {s t : Scope} (hs : Dead w level s) (h : Operates w level s t) : Dead w level t

theorem Operates.frozen (h : Operates w s.level s t) (hs : s.isTerminated = false)
    (ht : (t.atLevel s.level).isTerminated = true) :
    t.level = s.level ∧ t.isTerminated = true ∧ t.leave.1.frozen.isSome = true := by
  have hseals : s.Seals t := by
    cases h with
    | enter frame declared =>
      have hwithin : Within s (s.enter frame declared) := .further _ .here
      rw [hwithin.atLevel, hs] at ht
      cases ht
    | resumes h =>
      cases h with
      | run step hstep =>
        rcases hstep with hlt | hstep
        · exact absurd hlt (Nat.lt_irrefl _)
        · exact covers_seals.run w hstep s
      | leave hlt => exact absurd hlt (Nat.lt_irrefl _)
      | update changes => exact covers_seals.update s changes
      | join branches => exact covers_seals.joinBranches s w branches
  rw [← hseals.level, Within.here.atLevel] at ht
  exact ⟨hseals.level, ht, hseals.frozen hs ht⟩

theorem Dead.exists_within (h : Dead w level s) :
    ∃ p, Within p s ∧ p.level = level ∧ p.isTerminated = true ∧
      p.leave.1.frozen.isSome = true := by
  induction h with
  | @left s t hlevel hopen hst ht =>
    subst hlevel
    exact ⟨t, .here, hst.frozen hopen ht⟩
  | later _ hst ih =>
    obtain ⟨p, hs, hlevel, hp, hfrozen⟩ := ih
    obtain ⟨table, ht⟩ := hst.around hs hlevel hp
    exact ⟨p.retable table, ht, by simpa using hlevel, by simpa using hp, by simpa using hfrozen⟩

theorem changes_retable (h : s.leave.1.frozen.isSome = true) (table : Changes) :
    (s.retable table).leave.1.changes = s.leave.1.changes := by
  obtain ⟨c, hc⟩ := Option.isSome_iff_exists.mp h
  rw [Frame.changes, Frame.changes, frozen_retable, hc]
  rfl

/-- Once control has left a frame, nothing that is run there or further in changes what the frame
hands on, the jumps that wait at it, or anything around it, until jumps are merged there. -/
theorem unreachable_code_inert (hs : Dead w level s)
    (h : Relation.ReflTransGen (Operates w level) s t) :
    (t.atLevel level).leave.1.changes = (s.atLevel level).leave.1.changes ∧
      (t.atLevel level).leave.1.jumps = (s.atLevel level).leave.1.jumps ∧
      (t.atLevel level).outer = (s.atLevel level).outer := by
  obtain ⟨p, hwithin, hlevel, hp, hfrozen⟩ := hs.exists_within
  obtain ⟨table, ht⟩ := around_of_operates h hwithin hlevel hp
  have hsp : s.atLevel level = p := hlevel ▸ hwithin.atLevel
  have htp : t.atLevel level = p.retable table := by
    rw [← hlevel, ← level_retable p table]
    exact ht.atLevel
  rw [hsp, htp]
  exact ⟨changes_retable hfrozen table, jumps_retable p table, outer_retable p table⟩

def afterBreak : ScopeStep Unit :=
  .child {} []
    [.set "a" .string, .conditional [.jump Label.toBreak .integer], .set "a" .symbol] true

theorem unreachable_code_inert_afterBreak :
    Dead {} 3 (written.jump Label.toBreak .nil) ∧
      Relation.ReflTransGen (Operates {} 3) (written.jump Label.toBreak .nil)
        (afterBreak.run {} (written.jump Label.toBreak .nil)).2 ∧
      .instanceOf .symbol ∈
        kindsOf ((afterBreak.run {} (written.jump Label.toBreak .nil)).2.get? {} "a") ∧
      ((afterBreak.run {} (written.jump Label.toBreak .nil)).2.atLevel 3).leave.1.changes =
        ((written.jump Label.toBreak .nil).atLevel 3).leave.1.changes ∧
      ((afterBreak.run {} (written.jump Label.toBreak .nil)).2.atLevel 3).outer =
        ((written.jump Label.toBreak .nil).atLevel 3).outer := by
  have hjump : (.jump Label.toBreak .nil : ScopeStep Unit) ≠ .mergeJumps := fun h ↦ by cases h
  have hafter : afterBreak ≠ .mergeJumps := fun h ↦ by cases h
  have hleave : Operates {} 3 written (written.jump Label.toBreak .nil) :=
    .resumes (.run (.jump Label.toBreak .nil : ScopeStep Unit) (.inr hjump))
  have hdead : Dead {} 3 (written.jump Label.toBreak .nil) :=
    .left (s := written) (by decide) (by decide) hleave (by decide)
  have hrun : Relation.ReflTransGen (Operates {} 3) (written.jump Label.toBreak .nil)
      (afterBreak.run {} (written.jump Label.toBreak .nil)).2 :=
    .single (.resumes (.run afterBreak (.inr hafter)))
  obtain ⟨hchanges, -, houter⟩ := unreachable_code_inert hdead hrun
  exact ⟨hdead, hrun, by decide, hchanges, houter⟩

end Scope

end FlowCompletion
