import FlowCompletion.Proofs.Scope.Jumps
import FlowCompletion.Proofs.Scope.Ownership

namespace FlowCompletion

namespace Scope

/-- Frames with the names that each of them has declared; `Q` is asked with the level of the
frame. -/
def Along (Q : List String → Nat → Frame → Prop) : List (List String) → List Frame → Prop
  | [], [] => True
  | names :: rest, f :: outer => Q names (outer.length + 1) f ∧ Along Q rest outer
  | _, _ => False

variable {Q : List String → Nat → Frame → Prop} {names : List String} {rest : List (List String)}

theorem Along.exists_cons {frames : List Frame} (h : Along Q (names :: rest) frames) :
    ∃ f outer, frames = f :: outer ∧ Q names (outer.length + 1) f ∧ Along Q rest outer := by
  cases frames with
  | nil => cases h
  | cons f outer => exact ⟨f, outer, rfl, h⟩

theorem Along.exists_names {f : Frame} {outer : List Frame} {rest : List (List String)}
    (h : Along Q rest (f :: outer)) :
    ∃ names others, rest = names :: others ∧ Q names (outer.length + 1) f ∧
      Along Q others outer := by
  cases rest with
  | nil => cases h
  | cons names others => exact ⟨names, others, rfl, h⟩

theorem Along.of_awaits {fs gs : List Frame} (hfg : List.Forall₂ Frame.Awaits fs gs)
    (hQ : ∀ {names level f g}, f.Awaits g → Q names level f → Q names level g)
    (h : Along Q rest fs) : Along Q rest gs := by
  induction hfg generalizing rest with
  | nil => exact h
  | cons hfg hrest ih =>
    obtain ⟨names, others, rfl, hf, houter⟩ := h.exists_names
    refine ⟨?_, ih houter⟩
    rw [← hrest.length_eq]
    exact hQ hfg hf

end Scope

def Frame.HoldsTo (label : String) (names : List String) (level : Nat) (f : Frame) : Prop :=
  label ∈ names → f.Owns label level

/-- The label is not known in the frame, and will not be when jumps to the frame are merged. -/
structure Frame.Clear (label : String) (level : Nat) (f : Frame) : Prop where
  table : ∀ entry ∈ f.table, entry.1 ≠ .named label
  jumps : ∀ c ∈ f.jumps, ∀ entry ∈ c, entry.1 = .named label → level < entry.2.level

def Frame.Clears (label : String) (names : List String) (level : Nat) (f : Frame) : Prop :=
  label ∉ names → f.terminated = false → f.Clear label level

theorem Frame.Clear.has {label : String} {level : Nat} {f : Frame} (h : f.Clear label level) :
    f.has (.named label) = false := by
  by_contra hhas
  obtain ⟨e, he⟩ := Option.isSome_iff_exists.mp ((Bool.not_eq_false _).mp hhas)
  exact h.table _ (Table.mem_of_get? he) rfl

namespace Scope

variable {label : String} {names : List (List String)} {s t : Scope}

theorem Evolves.holdsTo (hlabel : Ownable label) (h : Evolves s t)
    (hs : Along (Frame.HoldsTo label) names s.frames) :
    Along (Frame.HoldsTo label) names t.frames := by
  have hlevel := h.level
  have hawaits := h.awaits_outer
  obtain ⟨root, _ | ⟨f, outer⟩⟩ := s
  · rwa [List.eq_nil_of_length_eq_zero hlevel]
  obtain ⟨own, others, rfl, hf, houter⟩ := hs.exists_names
  obtain ⟨root', _ | ⟨g, outer'⟩⟩ := t
  · cases hlevel
  refine ⟨fun hown ↦ ?_, houter.of_awaits hawaits ?_⟩
  · have howns := h.owns hlabel (fun f' hf' ↦ Option.mem_some.mp hf' ▸ hf hown) g rfl
    rwa [Nat.succ.inj hlevel]
  · rintro names level f g ⟨js, rfl⟩ hf hown
    have hf := hf hown
    exact ⟨hf.has, hf.hasFrozen, hf.levels⟩

theorem holdsTo_enter (hs : Along (Frame.HoldsTo label) names s.frames) (frame : Frame)
    (declared : List (String × Option Ty)) :
    Along (Frame.HoldsTo label) (declared.map Prod.fst :: names)
      (s.enter frame declared).frames :=
  ⟨fun hown ↦ owns_enter s frame hown _ rfl, hs⟩

theorem Along.clear_writes {P : Key → Prop} (hs : Along (Frame.Clears label) names s.frames)
    (hst : Writes P s t)
    (hP : s.hasOwn label = false → s.isTerminated = false → ¬ P (.named label)) :
    Along (Frame.Clears label) names t.frames := by
  obtain ⟨table, rfl, hmem⟩ := hst
  obtain ⟨root, _ | ⟨f, outer⟩⟩ := s
  · exact hs
  obtain ⟨own, others, rfl, hf, houter⟩ := hs.exists_names
  refine ⟨fun hown ht ↦ ?_, houter⟩
  have hclear := hf hown ht
  refine ⟨fun entry hentry hkey ↦ ?_, hclear.jumps⟩
  rcases hmem entry hentry with hPkey | hentry
  · exact hP hclear.has ht (hkey ▸ hPkey)
  · exact hclear.table entry hentry hkey

theorem Along.clear_terminate (hs : Along (Frame.Clears label) names s.frames) :
    Along (Frame.Clears label) names s.terminate.frames := by
  obtain ⟨root, _ | ⟨f, outer⟩⟩ := s
  · exact hs
  cases ht : f.terminated with
  | true =>
    rw [terminate_eq_self ht]
    exact hs
  | false =>
    rw [terminate_eq ht]
    obtain ⟨own, others, rfl, -, houter⟩ := hs.exists_names
    exact ⟨fun _ hopen ↦ (Bool.noConfusion hopen), houter⟩

theorem Along.clear_storeJump {frames : List Frame} {target : String} {value : Ty}
    {changes : Changes} (h : Along (Frame.Clears label) names frames)
    (hchanges : ∀ entry ∈ changes, entry.1 = .named label → frames.length < entry.2.level) :
    Along (Frame.Clears label) names (storeJump target value changes frames).1 := by
  induction frames generalizing names with
  | nil => exact h
  | cons f outer ih =>
    obtain ⟨own, others, rfl, hf, houter⟩ := h.exists_names
    cases ht : f.terminated with
    | true =>
      simp only [storeJump, ht, if_true]
      exact ⟨hf, houter⟩
    | false =>
      cases hl : f.has (.named target) with
      | true =>
        rw [storeJump_of_has ht hl]
        refine ⟨fun hown _ ↦ ?_, houter⟩
        have hclear := hf hown ht
        refine ⟨hclear.table, fun c hc entry hentry hkey ↦ ?_⟩
        rcases List.mem_append.mp hc with hc | hc
        · exact hclear.jumps c hc entry hentry hkey
        · rw [List.mem_singleton.mp hc] at hentry
          rcases Table.eq_or_mem_of_mem_insert hentry with rfl | hentry
          · -- The frame has the target, so that is another label.
            obtain rfl := Key.named_inj.mp hkey
            exact absurd (hclear.has.symm.trans hl) Bool.false_ne_true
          · exact hchanges entry hentry hkey
      | false =>
        rw [storeJump_of_not_has ht hl]
        refine ⟨?_, ih houter fun entry hentry hkey ↦ ?_⟩
        · rw [storeJump_length]
          exact hf
        · exact Nat.lt_of_succ_lt (hchanges entry hentry hkey)

theorem exists_jump_frames (root : Root) {f : Frame} (ht : f.terminated = false)
    (outer : List Frame) (target : String) (value : Ty) :
    ∃ g : Frame, g.terminated = true ∧
      (jump ⟨root, f :: outer⟩ target value).frames =
        g :: if f.has (.named target) then outer else (storeJump target value f.table outer).1 := by
  cases hl : f.has (.named target) with
  | true =>
    rw [jump_of_has ht hl]
    exact ⟨_, rfl, rfl⟩
  | false =>
    rw [jump_eq ht]
    simp only [record, storeJump_of_not_has ht hl]
    cases (storeJump target value f.table outer).2 with
    | none =>
      rw [terminate_eq ht]
      exact ⟨_, rfl, rfl⟩
    | some level =>
      have hopen : ({ f with
          table := Table.insert f.table (.named target) ⟨level, some value⟩ } : Frame).terminated =
            false := ht
      simp only [setEntry, modifyFrame]
      rw [terminate_eq hopen]
      exact ⟨_, rfl, rfl⟩

/-- The label stands where it was declared, and where control may still get on, nowhere else. -/
structure Routed (label : String) (names : List (List String)) (s : Scope) : Prop where
  ownable : Ownable label
  valid : s.Valid
  holdsTo : Along (Frame.HoldsTo label) names s.frames
  clears : Along (Frame.Clears label) names s.frames

theorem Routed.of_evolves (hs : Routed label names s) (h : Evolves s t)
    (ht : Along (Frame.Clears label) names t.frames) : Routed label names t :=
  ⟨hs.ownable, h.valid hs.valid, h.holdsTo hs.ownable hs.holdsTo, ht⟩

theorem Routed.enter (hs : Routed label names s) (frame : Frame)
    (declared : List (String × Option Ty)) :
    Routed label (declared.map Prod.fst :: names) (s.enter frame declared) := by
  refine ⟨hs.ownable, valid_enter hs.valid frame declared, holdsTo_enter hs.holdsTo frame declared,
    fun hown _ ↦ ⟨fun entry hentry hkey ↦ ?_, nofun⟩, hs.clears⟩
  obtain ⟨d, hd, rfl⟩ := List.mem_map.mp (Table.mem_of_mem_ofList hentry)
  exact hown (List.mem_map.mpr ⟨d, hd, Key.named_inj.mp hkey⟩)

theorem Routed.outer {own : List String} (hs : Routed label (own :: names) s) :
    Routed label names s.outer := by
  obtain ⟨root, frames⟩ := s
  obtain ⟨f, outer, rfl, -, houter⟩ := hs.clears.exists_cons
  exact ⟨hs.ownable, hs.valid.2, hs.holdsTo.2, houter⟩

theorem Routed.changes {own : List String} (hs : Routed label (own :: names) s)
    (hown : label ∉ own) (ht : s.isTerminated = false) :
    ∀ entry ∈ s.leave.1.changes, entry.1 ≠ .named label := by
  obtain ⟨root, frames⟩ := s
  obtain ⟨f, outer, rfl, hf, -⟩ := hs.clears.exists_cons
  have hchanges : f.changes = f.table := by
    rw [Frame.changes, hs.valid.1.frozen ht]
    rfl
  change ∀ entry ∈ f.changes, entry.1 ≠ .named label
  rw [hchanges]
  exact (hf hown ht).table

section operations

variable (hs : Routed label names s)

include hs

theorem Routed.setKey {key : Key} (hkey : key ≠ .named label) (t : Ty) :
    Routed label names (s.setKey key (some t)) := by
  refine hs.of_evolves (evolves_setKey s key t) ?_
  exact hs.clears.clear_writes (writes_setKey (P := (· = key)) s rfl _) fun _ _ ↦ hkey.symm

theorem Routed.setConstant (w : World) (m : ModuleId) (name : String) (t : Ty) :
    Routed label names (s.setConstant w m name t) := by
  refine hs.of_evolves (evolves_setConstant s w m name t) ?_
  obtain ⟨root, _ | ⟨f, outer⟩⟩ := s
  · exact hs.clears
  have hne := Key.ne_of_isConstant (Key.isConstant_constantKey w m name) hs.ownable.not_constant
  refine hs.clears.clear_writes (P := (· = w.constantKey m name)) ⟨_, rfl, fun entry hentry ↦ ?_⟩
    fun _ _ ↦ hne.symm
  exact (Table.eq_or_mem_of_mem_insert hentry).imp_left (congrArg Prod.fst)

theorem Routed.terminate : Routed label names s.terminate :=
  hs.of_evolves (evolves_terminate s) hs.clears.clear_terminate

theorem Routed.jump (target : String) (value : Ty) :
    Routed label names (s.jump target value) := by
  refine hs.of_evolves (evolves_jump s target value) ?_
  obtain ⟨root, _ | ⟨f, outer⟩⟩ := s
  · exact hs.clears
  cases ht : f.terminated with
  | true =>
    rw [jump_eq_self ht]
    exact hs.clears
  | false =>
    obtain ⟨own, others, rfl, hf, houter⟩ := hs.clears.exists_names
    obtain ⟨g, hg, hframes⟩ := exists_jump_frames root ht outer target value
    have hexempt : g.Clears label own (outer.length + 1) := fun _ hopen ↦ by simp [hg] at hopen
    rw [hframes]
    split
    · exact ⟨hexempt, houter⟩
    · -- What the frame has written for the label belongs to it, if there is anything.
      refine ⟨by rwa [storeJump_length], houter.clear_storeJump fun entry hentry hkey ↦ ?_⟩
      by_cases hown : label ∈ own
      · rw [(hs.holdsTo.1 hown).levels.1 entry hentry hkey]
        exact Nat.lt_succ_self _
      · exact absurd hkey ((hf hown ht).table entry hentry)

theorem Routed.mergeJumps (w : World) : Routed label names (s.mergeJumps w) := by
  refine hs.of_evolves (evolves_mergeJumps s w) ?_
  obtain ⟨root, _ | ⟨f, outer⟩⟩ := s
  · have hmerge := (evolves_mergeJumps ⟨root, []⟩ w).level
    rw [List.eq_nil_of_length_eq_zero hmerge]
    exact hs.clears
  obtain ⟨own, others, rfl, hf, houter⟩ := hs.clears.exists_names
  cases ht : f.terminated with
  | true =>
    have hleft : Along (Frame.Clears label) (own :: others)
        ({ f with jumps := [], table := f.changes, frozen := none } :: outer) :=
      ⟨fun _ hopen ↦ absurd (hopen.symm.trans ht) Bool.false_ne_true, houter⟩
    rw [mergeJumps_of_terminated ht]
    refine hleft.clear_writes (writes_merge ⟨root, _⟩ w _) fun _ hopen ↦ ?_
    exact absurd (hopen.symm.trans ht) Bool.false_ne_true
  | false =>
    have hmerged : Along (Frame.Clears label) (own :: others) ({ f with jumps := [] } :: outer) :=
      ⟨fun hown _ ↦ ⟨(hf hown ht).table, nofun⟩, houter⟩
    rw [mergeJumps_of_not_terminated ht]
    refine hmerged.clear_writes (writes_merge ⟨root, _⟩ w _) fun hhas _ hmem ↦ ?_
    have hown : label ∉ own := by
      intro hown
      exact Bool.false_ne_true (hhas.symm.trans (hs.holdsTo.1 hown).has)
    obtain ⟨c, hc, entry, hentry, hkey, hle⟩ := exists_mem_of_mem_mergedKeys hmem
    rcases List.mem_append.mp hc with hc | hc
    · exact Nat.not_lt.mpr hle ((hf hown ht).jumps c hc entry hentry hkey)
    · rw [List.mem_singleton.mp hc] at hentry
      cases hentry

theorem Routed.joinBranches (w : World) {branches : List Frame}
    (hbranches : ∀ f ∈ branches, f.terminated = false →
      ∀ entry ∈ f.changes, entry.1 ≠ .named label) :
    Routed label names (s.joinBranches w branches) := by
  refine hs.of_evolves (evolves_joinBranches s w branches) ?_
  have hkeys (t : Scope) : .named label ∉ t.mergedKeys
      ((branches.filter fun f ↦ !f.terminated).map Frame.changes) := by
    intro hmem
    obtain ⟨c, hc, entry, hentry, hkey, -⟩ := exists_mem_of_mem_mergedKeys hmem
    obtain ⟨f, hf, rfl⟩ := List.mem_map.mp hc
    obtain ⟨hf, hopen⟩ := List.mem_filter.mp hf
    exact hbranches f hf (by simpa using hopen) entry hentry hkey
  rw [Scope.joinBranches]
  refine Along.clear_writes ?_ (writes_merge _ w _) fun _ _ ↦ hkeys _
  split
  · exact hs.clears.clear_terminate
  · exact hs.clears

end operations

end Scope

namespace ScopeStep

variable {α : Type}

mutual

/-- Nothing sets the label, and no frame without it takes over changes that hold something for
it. -/
def Quiet (label : String) (w : World) : ScopeStep α → Scope → Prop
  | .set name _, _ => name ≠ label
  | .child frame declared steps update, s =>
    let c := (runAll w steps (s.enter frame declared)).2
    QuietAll label w steps (s.enter frame declared) ∧
      (update = true → c.outer.hasOwn label = true ∨
        ∀ entry ∈ c.leave.1.changes, entry.1 = .named label → c.outer.level < entry.2.level)
  | .branches bodies, s => QuietBranches label w bodies s
  | .conditional steps, s => QuietAll label w steps (s.enter {} [])
  | .setConstant _ _ _, _ | .terminate, _ | .jump _ _, _ | .mergeJumps, _ | .ask _, _ => True

def QuietAll (label : String) (w : World) : List (ScopeStep α) → Scope → Prop
  | [], _ => True
  | step :: rest, s => Quiet label w step s ∧ QuietAll label w rest (run w step s).2

def QuietBranches (label : String) (w : World) : List (List (ScopeStep α)) → Scope → Prop
  | [], _ => True
  | body :: rest, s =>
    QuietAll label w body (s.enter {} []) ∧
      QuietBranches label w rest (runAll w body (s.enter {} [])).2.outer

end

variable {label : String} (w : World)

mutual

theorem run_routed : (step : ScopeStep α) → {names : List (List String)} → {s : Scope} →
    s.Routed label names → Quiet label w step s → (run w step s).2.Routed label names
  | .set name t, _, _, hs, hquiet => hs.setKey (fun h ↦ hquiet (Key.named_inj.mp h)) t
  | .setConstant m name t, _, _, hs, _ => hs.setConstant w m name t
  | .terminate, _, _, hs, _ => hs.terminate
  | .jump target t, _, _, hs, _ => hs.jump target t
  | .mergeJumps, _, _, hs, _ => hs.mergeJumps w
  | .child frame declared steps update, names, s, hs, hquiet => by
    have hbody := runAll_routed steps (hs.enter frame declared) hquiet.1
    have hnested := (runAll_evolves w steps (s.enter frame declared)).nested
    cases update with
    | false => exact hbody.outer
    | true =>
      refine hs.of_evolves hnested ?_
      refine hbody.outer.clears.clear_writes (Scope.writes_update _ _) ?_
      rintro hhas - ⟨e, he, hle⟩
      rcases hquiet.2 rfl with hown | hwithheld
      · exact Bool.false_ne_true (hhas.symm.trans hown)
      · exact Nat.not_lt.mpr hle (hwithheld _ he rfl)
  | .branches bodies, names, s, hs, hquiet => by
    obtain ⟨hend, hbranches⟩ := runBranches_routed bodies hs hquiet
    rw [run]
    refine hend.joinBranches w fun f hf ↦ ?_
    obtain ⟨answers, hrun, rfl⟩ := List.mem_map.mp hf
    exact hbranches answers hrun
  | .conditional steps, names, s, hs, hquiet => by
    have hbody := runAll_routed steps (hs.enter {} []) hquiet
    rw [run]
    refine hbody.outer.joinBranches w fun f hf ht ↦ ?_
    rcases List.mem_cons.mp hf with rfl | hf
    · exact hbody.changes List.not_mem_nil ((Scope.terminated_leave _).symm.trans ht)
    · rw [List.mem_singleton.mp hf]
      exact fun entry hentry ↦ by cases hentry
  | .ask _, _, _, hs, _ => hs

theorem runAll_routed : (steps : List (ScopeStep α)) → {names : List (List String)} →
    {s : Scope} → s.Routed label names → QuietAll label w steps s →
      (runAll w steps s).2.Routed label names
  | [], _, _, hs, _ => hs
  | step :: rest, _, _, hs, hquiet => runAll_routed rest (run_routed step hs hquiet.1) hquiet.2

theorem runBranches_routed : (bodies : List (List (ScopeStep α))) →
    {names : List (List String)} → {s : Scope} → s.Routed label names →
      QuietBranches label w bodies s → (runBranches w bodies s).2.Routed label names ∧
        ∀ run ∈ (runBranches w bodies s).1, run.2.terminated = false →
          ∀ entry ∈ run.2.changes, entry.1 ≠ .named label
  | [], _, _, hs, _ => ⟨hs, fun run hrun ↦ by cases hrun⟩
  | body :: rest, names, s, hs, hquiet => by
    have hbody := runAll_routed body (hs.enter {} []) hquiet.1
    obtain ⟨hend, hrest⟩ := runBranches_routed rest hbody.outer hquiet.2
    refine ⟨hend, fun run hrun ht ↦ ?_⟩
    rcases List.mem_cons.mp hrun with rfl | hrun
    · exact hbody.changes List.not_mem_nil ((Scope.terminated_leave _).symm.trans ht)
    · exact hrest run hrun ht

end

end ScopeStep

namespace Scope

variable {α : Type} {P : World → ScopeStep α → Scope → Prop} {w : World} {label : String}
  {names : List (List String)} {o s t : Scope}

/-- How a chain of frames comes about, with the names that each frame has declared; every step is
one that is allowed. -/
inductive Built (P : World → ScopeStep α → Scope → Prop) : List (List String) → Scope → Prop
  | root (r : Root) : Built P [] ⟨r, []⟩
  | enter {names : List (List String)} {s : Scope} (h : Built P names s) (frame : Frame)
      (declared : List (String × Option Ty)) :
      Built P (declared.map Prod.fst :: names) (s.enter frame declared)
  | run {names : List (List String)} {s : Scope} (h : Built P names s) {w : World}
      {step : ScopeStep α} (hstep : P w step s) : Built P names (step.run w s).2

theorem Built.holdsTo (hlabel : Ownable label) (h : Built P names s) :
    Along (Frame.HoldsTo label) names s.frames := by
  induction h with
  | root r => trivial
  | enter _ frame declared ih => exact holdsTo_enter ih frame declared
  | @run _ s _ w step _ ih => exact (step.run_evolves w s).holdsTo hlabel ih

theorem Built.routed (hlabel : Ownable label)
    (h : Built (α := α) (ScopeStep.Quiet label) names s) : Routed label names s := by
  induction h with
  | root r => exact ⟨hlabel, trivial, trivial, trivial⟩
  | enter _ frame declared ih => exact ih.enter frame declared
  | run _ hstep ih => exact ScopeStep.run_routed _ _ ih hstep

inductive Declarer (label : String) (o : Scope) : List (List String) → Scope → Prop
  | here {own : List String} {names : List (List String)} (h : label ∈ own) :
      Declarer label o (own :: names) o
  | further {own : List String} {names : List (List String)} {s : Scope} (f : Frame)
      (hown : label ∉ own) (h : Declarer label o names s) :
      Declarer label o (own :: names) ⟨s.root, f :: s.frames⟩

theorem Declarer.hasOwn (h : Declarer label o names s)
    (hs : Along (Frame.HoldsTo label) names s.frames) : o.hasOwn label = true := by
  induction h with
  | here hown =>
    obtain ⟨root, frames⟩ := o
    obtain ⟨f, outer, rfl, hf, -⟩ := hs.exists_cons
    exact (hf hown).has
  | further f hown h ih => exact ih hs.2

theorem Declarer.level_le (h : Declarer label o names s) : o.level ≤ s.level := by
  induction h with
  | here hown => exact Nat.le_refl _
  | further f hown h ih => exact Nat.le_succ_of_le ih

theorem Declarer.jumpsTo (h : Declarer label o names s) (hopen : OpenTo o s)
    (hs : Along (Frame.Clears label) names s.frames) : JumpsTo label o s := by
  induction h with
  | here hown => exact .here
  | @further own names s f hown h ih =>
    generalize hu : (⟨s.root, f :: s.frames⟩ : Scope) = u at hopen
    cases hopen with
    | here ht =>
      have hlevel := congrArg Scope.level hu
      exact absurd hlevel (Nat.ne_of_gt (Nat.lt_succ_of_le h.level_le))
    | @further g s' ht hopen =>
      obtain ⟨root, frames⟩ := s
      obtain ⟨root', frames'⟩ := s'
      simp only [Scope.mk.injEq, List.cons.injEq] at hu
      obtain ⟨rfl, rfl, rfl⟩ := hu
      exact .further f (hs.1 hown ht).has (ih hopen hs.2)

variable {value : Ty} {k : MemberKind}

/-- Some jump that waits at the scope brings this kind of member for the label. -/
def Waits (o : Scope) (label : String) (k : MemberKind) : Prop :=
  ∃ c ∈ o.leave.1.jumps, ∃ e, o.entryFor (.named label) c = some e ∧ k ∈ kindsOf e.value

theorem exists_insert_mem_jumps (h : OpenTo o s) (hl : o.hasOwn label = true)
    (hjump : JumpsTo label o s)
    (hresumes : Relation.ReflTransGen (Resumes w o.level) (s.jump label value) t)
    (hlevel : t.level = o.level) :
    ∃ table, Table.insert table (.named label) ⟨o.level, some value⟩ ∈ t.leave.1.jumps := by
  cases h with
  | here ht =>
    have hkeeps := (covers_keeps.jump o label value).level
    rw [← hkeeps] at hresumes hlevel
    have hwaits := (keeps_of_resumes hresumes .here hlevel).jumps
    obtain ⟨root, _ | ⟨f, outer⟩⟩ := o
    · cases hl
    rw [jump_of_has ht hl] at hwaits
    exact ⟨f.table, hwaits (List.mem_append_right _ List.mem_cons_self)⟩
  | @further f s ht h => exact ⟨f.table, h.mem_jumps hl ht hjump hresumes hlevel⟩

theorem mem_kindsOf_mergeJumps_of_jumpsTo (h : OpenTo o s) (hl : o.hasOwn label = true)
    (hjump : JumpsTo label o s)
    (hresumes : Relation.ReflTransGen (Resumes w o.level) (s.jump label value) t)
    (hlevel : t.level = o.level) (hk : k ∈ value.kinds) :
    k ∈ kindsOf ((t.mergeJumps w).get? w label) := by
  obtain ⟨table, hmem⟩ := exists_insert_mem_jumps h hl hjump hresumes hlevel
  have hget : Table.get? (Table.insert table (.named label) ⟨o.level, some value⟩) (.named label) =
      some ⟨o.level, some value⟩ := by rw [Table.get?_insert, if_pos rfl]
  refine mem_kindsOf_mergeJumps_of_jump hmem (entryFor_eq_some.mpr ⟨hget, ?_⟩) hk
  exact Nat.le_of_eq hlevel.symm

theorem mem_kindsOf_mergeJumps_of_waits (h : OpenTo o s)
    (hresumes : Relation.ReflTransGen (Resumes w o.level) (s.jump label value) t)
    (hlevel : t.level = o.level) (hk : o.Waits label k) :
    k ∈ kindsOf ((t.mergeJumps w).get? w label) := by
  obtain ⟨c, hc, e, he, hk⟩ := hk
  rw [← entryFor_of_level hlevel] at he
  exact mem_kindsOf_mergeJumps_of_jump (h.subset_jumps hresumes hlevel hc) he hk

inductive QuietlyResumes (w : World) (label : String) (level : Nat) : Scope → Scope → Prop
  | run {α : Type} {s : Scope} {step : ScopeStep α} (hquiet : step.Quiet label w s)
      (h : level < s.level ∨ step ≠ .mergeJumps) :
      QuietlyResumes w label level s (step.run w s).2
  | leave {s : Scope} (h : level < s.level) : QuietlyResumes w label level s s.leave.2

theorem Within.quietlyResumes (w : World) (label : String) (h : Within o t) :
    Relation.ReflTransGen (QuietlyResumes w label o.level) t o := by
  induction h with
  | here => exact .refl
  | further f h ih => exact .head (.leave (Nat.lt_succ_of_le h.level_le)) ih

theorem jump_of_fresh {root : Root} {f : Frame} (ht : f.terminated = false)
    (hl : f.has (.named label) = true) (outer : List Frame) (u : Ty) :
    jump ⟨root, ({} : Frame) :: f :: outer⟩ label u = ⟨root,
      { table := [(.named label, ⟨outer.length + 1, some u⟩)]
        frozen := some [(.named label, ⟨outer.length + 1, some u⟩)]
        terminated := true } ::
          { f with jumps := f.jumps ++ [[(.named label, ⟨outer.length + 1, some u⟩)]] } ::
            outer⟩ := by
  rw [jump_eq rfl]
  simp only [record, storeJump_of_not_has (f := {}) rfl rfl, storeJump_of_has ht hl]
  rfl

def jumpInside (label : String) (u : Ty) : ScopeStep Unit := .child {} [] [.jump label u] true

theorem run_jumpInside (root : Root) {f : Frame} (ht : f.terminated = false)
    (hl : f.has (.named label) = true) (outer : List Frame) (w : World) (u : Ty) :
    ((jumpInside label u).run w ⟨root, f :: outer⟩).2 =
      setKey ⟨root, { f with
        jumps := f.jumps ++ [[(.named label, ⟨outer.length + 1, some u⟩)]] } :: outer⟩
          (.named label) (some u) := by
  have hrun : ((jumpInside label u).run w ⟨root, f :: outer⟩).2 =
      update (jump ⟨root, ({} : Frame) :: f :: outer⟩ label u).outer
        (jump ⟨root, ({} : Frame) :: f :: outer⟩ label u).leave.1.changes := rfl
  rw [hrun, jump_of_fresh ht hl]
  refine (update_cons _ _ _ _).trans ((if_pos ?_).trans rfl)
  exact Nat.le_refl _

theorem quiet_jumpInside (root : Root) {f : Frame} (ht : f.terminated = false)
    (hl : f.has (.named label) = true) (outer : List Frame) (w : World) (u : Ty) :
    (jumpInside label u).Quiet label w ⟨root, f :: outer⟩ := by
  refine ⟨⟨trivial, trivial⟩, fun _ ↦ .inl ?_⟩
  change (jump ⟨root, ({} : Frame) :: f :: outer⟩ label u).outer.hasOwn label = true
  rw [jump_of_fresh ht hl]
  exact hl

/-- Control may get back to the scope and the label be made a type without `k`, by jumps alone: the
rest is up to what waits there already. -/
theorem Within.waits (h : Within o t) (ht : o.isTerminated = false) (hl : o.hasOwn label = true)
    (hk : ∀ u, Relation.ReflTransGen (QuietlyResumes w label o.level) t u → u.level = o.level →
      k ∈ kindsOf ((u.mergeJumps w).get? w label)) : o.Waits label k := by
  obtain ⟨u, hku⟩ := exists_not_mem_kinds k
  have hback := h.quietlyResumes w label
  obtain ⟨root, _ | ⟨f, outer⟩⟩ := o
  · cases hl
  have hrun := run_jumpInside root ht hl outer w u
  have hquiet := quiet_jumpInside root ht hl outer w u
  have hne : jumpInside label u ≠ .mergeJumps := fun h ↦ by cases h
  have hmerged := hk _ (hback.tail (.run hquiet (.inr hne))) (by rw [hrun]; rfl)
  rw [hrun] at hmerged
  rcases of_mem_kindsOf_mergeJumps hmerged (List.cons_ne_nil _ _) ht with ⟨c, hc, e, he, hke⟩ | hnow
  · rcases List.mem_append.mp hc with hc | hc
    · exact ⟨c, hc, e, he, hke⟩
    · obtain ⟨hget, -⟩ := entryFor_eq_some.mp he
      rw [List.mem_singleton.mp hc, Table.get?_cons, if_pos rfl] at hget
      cases hget
      exact absurd hke hku
  · rw [lookup_setKey (List.cons_ne_nil _ _), if_pos rfl] at hnow
    exact absurd hnow hku

theorem OpenTo.waits (h : OpenTo o s) (hl : o.hasOwn label = true) (hjump : ¬ JumpsTo label o s)
    (hk : ∀ t, Relation.ReflTransGen (QuietlyResumes w label o.level) (s.jump label value) t →
      t.level = o.level → k ∈ kindsOf ((t.mergeJumps w).get? w label)) : o.Waits label k := by
  cases h with
  | here ht => exact absurd .here hjump
  | @further f s ht h =>
    have hlt : o.level < s.frames.length + 1 := Nat.lt_succ_of_le h.within.level_le
    rcases (OpenTo.further f ht h).within_record label value f.table with
      ⟨hto, -⟩ | ⟨-, hwithin⟩
    · exact absurd hto hjump
    · exact (hwithin.jump ht hlt).waits h.isTerminated hl hk

/-- A jump made where no frame out to the declaring one has been left. If nothing was set for the
label, and no frame took it over with the changes of another, then no frame further in has it. In
that case, whatever comes next, merging at the declaring scope brings all of the value; and so it
does if jumps that wait there already bring as much. Otherwise some of it gets lost. -/
theorem jump_reaches_declarer (hlabel : NameKind.ofName label = .label)
    (hs : Built (fun _ (_ : ScopeStep α) _ ↦ True) names s) (ho : Declarer label o names s)
    (hopen : OpenTo o s) (w : World) (value : Ty) :
    (Built (α := α) (ScopeStep.Quiet label) names s → JumpsTo label o s) ∧
    (JumpsTo label o s ∨ (∀ k ∈ value.kinds, o.Waits label k) →
      ∀ t, Relation.ReflTransGen (Resumes w o.level) (s.jump label value) t → t.level = o.level →
        ∀ k ∈ value.kinds, k ∈ kindsOf ((t.mergeJumps w).get? w label)) ∧
    ((∀ t, Relation.ReflTransGen (QuietlyResumes w label o.level) (s.jump label value) t →
        t.level = o.level → ∀ k ∈ value.kinds, k ∈ kindsOf ((t.mergeJumps w).get? w label)) →
      JumpsTo label o s ∨ ∀ k ∈ value.kinds, o.Waits label k) := by
  have hownable : Ownable label := ownable_of_kind hlabel (by decide)
  have hl : o.hasOwn label = true := ho.hasOwn (hs.holdsTo hownable)
  refine ⟨fun hquiet ↦ ?_, fun hkept t hresumes hlevel k hk ↦ ?_, fun hall ↦ ?_⟩
  · exact ho.jumpsTo hopen (hquiet.routed hownable).clears
  · rcases hkept with hjump | hwaits
    · exact mem_kindsOf_mergeJumps_of_jumpsTo hopen hl hjump hresumes hlevel hk
    · exact mem_kindsOf_mergeJumps_of_waits hopen hresumes hlevel (hwaits k hk)
  · by_cases hjump : JumpsTo label o s
    · exact .inl hjump
    · exact .inr fun k hk ↦ hopen.waits hl hjump fun t hresumes hlevel ↦
        hall t hresumes hlevel k hk

def branchedOff : Scope :=
  ((.conditional [.jump Label.toBreak .nil] : ScopeStep Unit).run {} (loop.enter {} [])).2

def tookOver : Scope := ((jumpInside Label.toBreak .nil).run {} (loop.enter {} [])).2

theorem jump_reaches_declarer_loop :
    Built (fun _ (_ : ScopeStep Unit) _ ↦ True) [[], [Label.toBreak], ["a"]] branchedOff ∧
      Declarer Label.toBreak branchedOff.outer [[], [Label.toBreak], ["a"]] branchedOff ∧
      OpenTo branchedOff.outer branchedOff ∧
      (∀ t, Relation.ReflTransGen (Resumes {} branchedOff.outer.level)
        (branchedOff.jump Label.toBreak .integer) t → t.level = branchedOff.outer.level →
          ∀ k ∈ Ty.integer.kinds, k ∈ kindsOf ((t.mergeJumps {}).get? {} Label.toBreak)) ∧
    Built (fun _ (_ : ScopeStep Unit) _ ↦ True) [[], [Label.toBreak], ["a"]] tookOver ∧
      Declarer Label.toBreak tookOver.outer [[], [Label.toBreak], ["a"]] tookOver ∧
      OpenTo tookOver.outer tookOver ∧
      ¬ ∀ t, Relation.ReflTransGen (QuietlyResumes {} Label.toBreak tookOver.outer.level)
        (tookOver.jump Label.toBreak .integer) t → t.level = tookOver.outer.level →
          ∀ k ∈ Ty.integer.kinds, k ∈ kindsOf ((t.mergeJumps {}).get? {} Label.toBreak) := by
  have hlabel : NameKind.ofName Label.toBreak = .label := by decide
  have hloop (P : World → ScopeStep Unit → Scope → Prop) :
      Built P [[], [Label.toBreak], ["a"]] (loop.enter {} []) :=
    .enter (.enter (.enter (.root _) {} [("a", some .nil)]) {} [(Label.toBreak, none)]) {} []
  have hbranched : Built (fun _ (_ : ScopeStep Unit) _ ↦ True) [[], [Label.toBreak], ["a"]]
      branchedOff := (hloop _).run trivial
  have htook : Built (fun _ (_ : ScopeStep Unit) _ ↦ True) [[], [Label.toBreak], ["a"]]
      tookOver := (hloop _).run trivial
  have hquiet : Built (α := Unit) (ScopeStep.Quiet Label.toBreak) [[], [Label.toBreak], ["a"]]
      branchedOff := (hloop _).run ⟨trivial, trivial⟩
  have hdeclarer : Declarer Label.toBreak branchedOff.outer [[], [Label.toBreak], ["a"]]
      branchedOff := .further branchedOff.leave.1 (by simp) (.here (by simp))
  have hdeclarer' : Declarer Label.toBreak tookOver.outer [[], [Label.toBreak], ["a"]]
      tookOver := .further tookOver.leave.1 (by simp) (.here (by simp))
  have hopen : OpenTo branchedOff.outer branchedOff :=
    .further branchedOff.leave.1 (by decide) (.here (by decide))
  have hopen' : OpenTo tookOver.outer tookOver :=
    .further tookOver.leave.1 (by decide) (.here (by decide))
  refine ⟨hbranched, hdeclarer, hopen, ?_, htook, hdeclarer', hopen', fun hall ↦ ?_⟩
  · obtain ⟨hto, hkept, -⟩ := jump_reaches_declarer hlabel hbranched hdeclarer hopen {} .integer
    exact hkept (.inl (hto hquiet))
  · obtain ⟨-, -, hlost⟩ := jump_reaches_declarer hlabel htook hdeclarer' hopen' {} .integer
    rcases hlost hall with hto | hwaits
    · exact absurd (hto.hasOwn (by decide)) (by decide)
    · obtain ⟨c, hc, e, he, hk⟩ := hwaits (.instanceOf .integer) (by decide)
      have hwaiting : tookOver.outer.leave.1.jumps =
          [[(.named Label.toBreak, ⟨2, some .nil⟩)]] := rfl
      rw [hwaiting] at hc
      obtain ⟨hget, -⟩ := entryFor_eq_some.mp he
      rw [List.mem_singleton.mp hc, Table.get?_cons, if_pos rfl] at hget
      cases hget
      exact absurd hk (by decide)

end Scope

end FlowCompletion
