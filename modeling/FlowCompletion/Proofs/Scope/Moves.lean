import FlowCompletion.Proofs.Scope.Keys
import FlowCompletion.Proofs.Table
import FlowCompletion.Scope.Script
import Mathlib.Data.List.Forall2
import Mathlib.Logic.Relation

namespace FlowCompletion

/-- One step of a frame, with the frames around it. Types are written at the level of their
owner. -/
inductive Frame.Step (outer : List Frame) : Frame → Frame → Prop
  | write (f : Frame) (key : Key) (t : Ty) :
      Step outer f
        { f with table := Table.insert f.table key ⟨Scope.levelIn key (f :: outer), some t⟩ }
  | constant (f : Frame) (address : Nat) (name : String) (t : Ty) :
      Step outer f { f with table := Table.insert f.table (.constant address name) ⟨0, some t⟩ }
  | terminate (f : Frame) (h : f.terminated = false) :
      Step outer f { f with terminated := true, frozen := some f.table }
  | leave (f : Frame) (label : String) (level : Nat) (t : Ty) (h : f.terminated = false)
      (hl : if f.has (.named label) then level = outer.length + 1 else level ≤ outer.length) :
      Step outer f
        { f with
          table := Table.insert f.table (.named label) ⟨level, some t⟩
          terminated := true
          frozen := some (Table.insert f.table (.named label) ⟨level, some t⟩) }
  | forgetJumps (f : Frame) (h : f.terminated = false) : Step outer f { f with jumps := [] }
  | reopen (f : Frame) (h : f.terminated = true) :
      Step outer f { f with jumps := [], table := f.changes, frozen := none }

/-- The frame later on, if all that has happened to it is that jumps to it were recorded. -/
def Frame.Awaits (f g : Frame) : Prop := ∃ js, g = { f with jumps := f.jumps ++ js }

theorem Frame.Awaits.refl (f : Frame) : f.Awaits f := ⟨[], by simp⟩

theorem Frame.Awaits.trans {f g h : Frame} (hfg : f.Awaits g) (hgh : g.Awaits h) :
    f.Awaits h := by
  obtain ⟨js, rfl⟩ := hfg
  obtain ⟨ks, rfl⟩ := hgh
  exact ⟨js ++ ks, by simp⟩

namespace Scope

def record (s : Scope) (label : String) (value : Ty) (changes : Changes) : Scope :=
  { s with frames := (storeJump label value changes s.frames).1 }

inductive Move : Scope → Scope → Prop
  | inner {root : Root} {f g : Frame} {outer : List Frame} (h : f.Step outer g) :
      Move ⟨root, f :: outer⟩ ⟨root, g :: outer⟩
  | recorded (s : Scope) (label : String) (value : Ty) (changes : Changes) :
      Move s (s.record label value changes)

abbrev Evolves : Scope → Scope → Prop := Relation.ReflTransGen Move

theorem evolves_inner {root : Root} {f g : Frame} {outer : List Frame} (h : f.Step outer g) :
    Evolves ⟨root, f :: outer⟩ ⟨root, g :: outer⟩ :=
  .single (.inner h)

theorem evolves_setKey (s : Scope) (key : Key) (t : Ty) : Evolves s (s.setKey key (some t)) := by
  obtain ⟨root, _ | ⟨f, outer⟩⟩ := s
  · exact .refl
  · exact evolves_inner (.write f key t)

theorem evolves_set (s : Scope) (name : String) (t : Ty) : Evolves s (s.set name t) :=
  evolves_setKey s _ t

theorem evolves_setConstant (s : Scope) (w : World) (m : ModuleId) (name : String) (t : Ty) :
    Evolves s (s.setConstant w m name t) := by
  obtain ⟨root, _ | ⟨f, outer⟩⟩ := s
  · exact .refl
  · exact evolves_inner (.constant f (w.address m) name t)

theorem terminate_eq_self {root : Root} {f : Frame} (ht : f.terminated = true)
    (outer : List Frame) : terminate ⟨root, f :: outer⟩ = ⟨root, f :: outer⟩ := by
  simp [terminate, modifyFrame, ht]

theorem terminate_eq {root : Root} {f : Frame} (ht : f.terminated = false) (outer : List Frame) :
    terminate ⟨root, f :: outer⟩ =
      ⟨root, { f with terminated := true, frozen := some f.table } :: outer⟩ := by
  simp [terminate, modifyFrame, ht]

theorem evolves_terminate (s : Scope) : Evolves s s.terminate := by
  obtain ⟨root, _ | ⟨f, outer⟩⟩ := s
  · exact .refl
  cases ht : f.terminated with
  | true => rw [terminate_eq_self ht]
  | false =>
    rw [terminate_eq ht]
    exact evolves_inner (.terminate f ht)

theorem evolves_leave {root : Root} {f : Frame} {outer : List Frame} {label : String}
    {level : Nat} (ht : f.terminated = false)
    (hl : if f.has (.named label) then level = outer.length + 1 else level ≤ outer.length)
    (t : Ty) :
    Evolves ⟨root, f :: outer⟩
      (setEntry ⟨root, f :: outer⟩ (.named label) ⟨level, some t⟩).terminate := by
  have hs : (setEntry ⟨root, f :: outer⟩ (.named label) ⟨level, some t⟩).terminate = ⟨root,
      { f with
        table := Table.insert f.table (.named label) ⟨level, some t⟩
        terminated := true
        frozen := some (Table.insert f.table (.named label) ⟨level, some t⟩) } :: outer⟩ := by
    simp [setEntry, terminate, modifyFrame, ht]
  rw [hs]
  exact evolves_inner (.leave f label level t ht hl)

theorem storeJump_owner_le {label : String} {value : Ty} {changes : Changes} {frames : List Frame}
    {level : Nat} (h : (storeJump label value changes frames).2 = some level) :
    level ≤ frames.length := by
  induction frames with
  | nil => simp [storeJump] at h
  | cons f rest ih =>
    simp only [storeJump] at h
    split at h
    · simp at h
    · split at h
      · simp only [Option.some.injEq] at h
        simp [← h]
      · exact Nat.le_succ_of_le (ih h)

theorem storeJump_length (label : String) (value : Ty) (changes : Changes) (frames : List Frame) :
    (storeJump label value changes frames).1.length = frames.length := by
  induction frames with
  | nil => rfl
  | cons f rest ih =>
    simp only [storeJump]
    split
    · rfl
    · split
      · rfl
      · simp [ih]

theorem awaits_refl (frames : List Frame) : List.Forall₂ Frame.Awaits frames frames :=
  List.forall₂_same.mpr fun f _ ↦ .refl f

theorem ne_nil_of_awaits {fs gs : List Frame} (h : List.Forall₂ Frame.Awaits fs gs)
    (hne : fs ≠ []) : gs ≠ [] := by
  rintro rfl
  exact hne (List.forall₂_nil_right_iff.mp h)

theorem awaits_trans {fs gs hs : List Frame} (hfg : List.Forall₂ Frame.Awaits fs gs)
    (hgh : List.Forall₂ Frame.Awaits gs hs) : List.Forall₂ Frame.Awaits fs hs := by
  induction hfg generalizing hs with
  | nil => exact hgh
  | cons hfg _ ih =>
    cases hgh with
    | cons hgh hrest => exact .cons (hfg.trans hgh) (ih hrest)

theorem storeJump_awaits (label : String) (value : Ty) (changes : Changes) (frames : List Frame) :
    List.Forall₂ Frame.Awaits frames (storeJump label value changes frames).1 := by
  induction frames with
  | nil => exact .nil
  | cons f rest ih =>
    simp only [storeJump]
    split
    · exact awaits_refl _
    · split
      · exact .cons ⟨_, rfl⟩ (awaits_refl rest)
      · exact .cons (.refl f) ih

theorem storeJump_of_has {label : String} {f : Frame} (ht : f.terminated = false)
    (hl : f.has (.named label) = true) (value : Ty) (changes : Changes) (outer : List Frame) :
    storeJump label value changes (f :: outer) =
      ({ f with jumps := f.jumps ++
          [Table.insert changes (.named label) ⟨outer.length + 1, some value⟩] } :: outer,
        some (outer.length + 1)) := by
  simp [storeJump, ht, hl]

theorem storeJump_of_not_has {label : String} {f : Frame} (ht : f.terminated = false)
    (hl : f.has (.named label) = false) (value : Ty) (changes : Changes) (outer : List Frame) :
    storeJump label value changes (f :: outer) =
      (f :: (storeJump label value changes outer).1,
        (storeJump label value changes outer).2) := by
  simp [storeJump, ht, hl]

theorem record_of_not_has {root : Root} {label : String} {f : Frame} (ht : f.terminated = false)
    (hl : f.has (.named label) = false) (value : Ty) (changes : Changes) (outer : List Frame) :
    record ⟨root, f :: outer⟩ label value changes =
      ⟨root, f :: (record ⟨root, outer⟩ label value changes).frames⟩ := by
  rw [record, storeJump_of_not_has ht hl]
  rfl

theorem jump_eq_self {root : Root} {f : Frame} (ht : f.terminated = true) (outer : List Frame)
    (label : String) (value : Ty) :
    jump ⟨root, f :: outer⟩ label value = ⟨root, f :: outer⟩ := by
  simp [jump, isTerminated, ht]

theorem jump_eq {root : Root} {f : Frame} (ht : f.terminated = false) (outer : List Frame)
    (label : String) (value : Ty) :
    jump ⟨root, f :: outer⟩ label value =
      terminate (match (storeJump label value f.table (f :: outer)).2 with
        | some level =>
          (record ⟨root, f :: outer⟩ label value f.table).setEntry (.named label)
            ⟨level, some value⟩
        | none => record ⟨root, f :: outer⟩ label value f.table) := by
  have hopen : ¬ isTerminated ⟨root, f :: outer⟩ = true := by simp [isTerminated, ht]
  rw [jump, if_neg hopen]
  rfl

theorem evolves_jump (s : Scope) (label : String) (value : Ty) :
    Evolves s (s.jump label value) := by
  obtain ⟨root, _ | ⟨f, outer⟩⟩ := s
  · exact .refl
  cases ht : f.terminated with
  | true => rw [jump_eq_self ht]
  | false =>
    rw [jump_eq ht]
    refine .head (.recorded _ label value f.table) ?_
    cases hl : f.has (.named label) with
    | true =>
      simp only [record, storeJump_of_has ht hl]
      refine evolves_leave ?_ ?_ value
      · exact ht
      · exact (if_pos hl).mpr rfl
    | false =>
      simp only [record, storeJump_of_not_has ht hl]
      cases ho : (storeJump label value f.table outer).2 with
      | none => exact evolves_terminate _
      | some level =>
        refine evolves_leave ht ?_ value
        rw [hl, if_neg Bool.false_ne_true, storeJump_length]
        exact storeJump_owner_le ho

theorem level_record (s : Scope) (label : String) (value : Ty) (changes : Changes) :
    (s.record label value changes).level = s.level :=
  storeJump_length label value changes s.frames

theorem Move.level {s t : Scope} (h : Move s t) : t.level = s.level := by
  cases h with
  | inner _ => rfl
  | recorded _ label value changes => exact level_record s label value changes

theorem Evolves.level {s t : Scope} (h : Evolves s t) : t.level = s.level := by
  induction h with
  | refl => rfl
  | tail _ hm ih => exact hm.level.trans ih

theorem Evolves.frames_ne_nil {s t : Scope} (h : Evolves s t) (hne : s.frames ≠ []) :
    t.frames ≠ [] := by
  rw [ne_eq, ← List.length_eq_zero_iff] at hne ⊢
  exact fun hlength ↦ hne (h.level.symm.trans hlength)

theorem Move.root {s t : Scope} (h : Move s t) : t.root = s.root := by
  cases h <;> rfl

theorem Evolves.root {s t : Scope} (h : Evolves s t) : t.root = s.root := by
  induction h with
  | refl => rfl
  | tail _ hm ih => exact hm.root.trans ih

theorem Move.outer {s t : Scope} (h : Move s t) : Evolves s.outer t.outer := by
  cases h with
  | inner _ => exact .refl
  | recorded _ label value changes =>
    obtain ⟨root, _ | ⟨f, outer⟩⟩ := s
    · exact .refl
    cases ht : f.terminated with
    | true =>
      have hs : record ⟨root, f :: outer⟩ label value changes = ⟨root, f :: outer⟩ := by
        simp [record, storeJump, ht]
      rw [hs]
    | false =>
      cases hl : f.has (.named label) with
      | true =>
        rw [record, storeJump_of_has ht hl]
        exact .refl
      | false =>
        rw [record_of_not_has ht hl]
        exact .single (.recorded ⟨root, outer⟩ label value changes)

theorem Evolves.outer {s t : Scope} (h : Evolves s t) : Evolves s.outer t.outer := by
  induction h with
  | refl => exact .refl
  | tail _ hm ih => exact ih.trans hm.outer

theorem Evolves.awaits_outer {s t : Scope} (h : Evolves s t) :
    List.Forall₂ Frame.Awaits s.outer.frames t.outer.frames := by
  induction h with
  | refl => exact awaits_refl _
  | @tail t u _ hm ih =>
    have hstep : List.Forall₂ Frame.Awaits t.outer.frames u.outer.frames := by
      cases hm with
      | inner _ => exact awaits_refl _
      | recorded _ label value changes =>
        have htail := List.forall₂_drop 1 (storeJump_awaits label value changes t.frames)
        rwa [List.drop_one, List.drop_one] at htail
    exact awaits_trans ih hstep

end Scope

/-- Something that every entry of a frame has, now or when control has left it. -/
def Frame.All (P : Key × Entry → Prop) (f : Frame) : Prop :=
  (∀ entry ∈ f.table, P entry) ∧ ∀ c ∈ f.frozen, ∀ entry ∈ c, P entry

namespace Frame

variable {P : Key × Entry → Prop} {f g : Frame} {outer : List Frame}

theorem All.changes (h : f.All P) : ∀ entry ∈ f.changes, P entry := by
  cases hf : f.frozen with
  | none => simpa [Frame.changes, hf] using h.1
  | some c => simpa [Frame.changes, hf] using h.2 c hf

theorem forall_mem_insert {table : Changes} {key : Key} {e : Entry} (h : ∀ entry ∈ table, P entry)
    (he : P (key, e)) : ∀ entry ∈ Table.insert table key e, P entry := by
  intro entry hentry
  rcases Table.eq_or_mem_of_mem_insert hentry with rfl | hmem
  · exact he
  · exact h entry hmem

/-- What holds of all entries goes on to hold if it holds of those that a step can write. -/
theorem Step.all (h : f.Step outer g) (hf : f.All P)
    (hwrite : ∀ key t, P (key, ⟨Scope.levelIn key (f :: outer), some t⟩))
    (hconstant : ∀ address name t, P (.constant address name, ⟨0, some t⟩))
    (hleave : ∀ label level t,
      (if f.has (.named label) then level = outer.length + 1 else level ≤ outer.length) →
        P (.named label, ⟨level, some t⟩)) : g.All P := by
  cases h with
  | write key t => exact ⟨forall_mem_insert hf.1 (hwrite key t), hf.2⟩
  | constant address name t => exact ⟨forall_mem_insert hf.1 (hconstant address name t), hf.2⟩
  | terminate ht =>
    refine ⟨hf.1, fun c hc ↦ ?_⟩
    obtain rfl := Option.mem_some.mp hc
    exact hf.1
  | leave label level t ht hl =>
    have htable := forall_mem_insert hf.1 (hleave label level t hl)
    refine ⟨htable, fun c hc ↦ ?_⟩
    obtain rfl := Option.mem_some.mp hc
    exact htable
  | forgetJumps ht => exact hf
  | reopen ht => exact ⟨hf.changes, fun c hc ↦ by cases hc⟩

end Frame

namespace Scope

theorem rel_foldl {R : Scope → Scope → Prop} (hrefl : ∀ s, R s s)
    (htrans : ∀ {s t u}, R s t → R t u → R s u) {β : Type} {f : Scope → β → Scope}
    (h : ∀ s b, R s (f s b)) (l : List β) (s : Scope) : R s (l.foldl f s) := by
  induction l generalizing s with
  | nil => exact hrefl s
  | cons b l ih => exact htrans (h s b) (ih (f s b))

theorem merge_induct {P : Scope → Prop} {s : Scope} {w : World} {branches : List Changes}
    (hs : P s)
    (hset : ∀ t, ∀ key ∈ s.mergedKeys branches, P t →
      P (t.setKey key (some (Ty.union (s.mergedValue w branches key))))) :
    P (s.merge w branches) := by
  refine List.foldlRecOn (motive := P) _ _ hs fun t ht key hkey ↦ ?_
  split
  · exact ht
  · exact hset t key hkey ht

theorem update_induct {P : Scope → Prop} {s : Scope} {changes : Changes} (hs : P s)
    (hset : ∀ t, ∀ c ∈ changes, P t → P (t.setKey c.1 c.2.value)) : P (s.update changes) := by
  refine List.foldlRecOn (motive := P) _ _ hs fun t ht c hc ↦ ?_
  obtain ⟨key, entry⟩ := c
  dsimp only
  split
  · exact hset t (key, entry) hc ht
  · exact ht

theorem rel_merge {R : Scope → Scope → Prop} (hrefl : ∀ s, R s s)
    (htrans : ∀ {s t u}, R s t → R t u → R s u)
    (hset : ∀ s key t, R s (setKey s key (some t))) (s : Scope) (w : World)
    (branches : List Changes) : R s (s.merge w branches) :=
  merge_induct (hrefl s) fun t key _ ht ↦ htrans ht (hset t key _)

theorem evolves_merge (s : Scope) (w : World) (branches : List Changes) :
    Evolves s (s.merge w branches) :=
  rel_merge (fun _ ↦ .refl) .trans evolves_setKey s w branches

theorem evolves_joinBranches (s : Scope) (w : World) (branches : List Frame) :
    Evolves s (s.joinBranches w branches) := by
  rw [joinBranches]
  refine .trans ?_ (evolves_merge _ w _)
  split
  · exact evolves_terminate s
  · exact .refl

theorem mergeJumps_of_terminated {root : Root} {f : Frame} (ht : f.terminated = true)
    (outer : List Frame) (w : World) :
    mergeJumps ⟨root, f :: outer⟩ w =
      merge ⟨root, { f with jumps := [], table := f.changes, frozen := none } :: outer⟩ w
        f.jumps := by
  simp [mergeJumps, modifyFrame, isTerminated, ht, Frame.changes]

theorem mergeJumps_of_not_terminated {root : Root} {f : Frame} (ht : f.terminated = false)
    (outer : List Frame) (w : World) :
    mergeJumps ⟨root, f :: outer⟩ w =
      merge ⟨root, { f with jumps := [] } :: outer⟩ w (f.jumps ++ [[]]) := by
  simp [mergeJumps, modifyFrame, isTerminated, ht]

theorem evolves_mergeJumps (s : Scope) (w : World) : Evolves s (s.mergeJumps w) := by
  obtain ⟨root, _ | ⟨f, outer⟩⟩ := s
  · exact evolves_merge ⟨root, []⟩ w _
  cases ht : f.terminated with
  | true =>
    rw [mergeJumps_of_terminated ht]
    exact .head (.inner (.reopen f ht)) (evolves_merge _ w _)
  | false =>
    rw [mergeJumps_of_not_terminated ht]
    exact .head (.inner (.forgetJumps f ht)) (evolves_merge _ w _)

theorem update_cons (s : Scope) (key : Key) (e : Entry) (changes : Changes) :
    s.update ((key, e) :: changes) =
      if e.level ≤ s.level then (s.setKey key e.value).update changes else s.update changes := by
  rw [update, List.foldl_cons]
  by_cases h : e.level ≤ s.level
  · rw [if_pos h]
    simp only [h, if_true, update]
  · rw [if_neg h]
    simp only [h, if_false, update]

theorem evolves_update (s : Scope) (changes : Changes)
    (h : ∀ entry ∈ changes, entry.2.level ≤ s.level → entry.2.value.isSome) :
    Evolves s (s.update changes) := by
  induction changes generalizing s with
  | nil => exact .refl
  | cons entry changes ih =>
    obtain ⟨key, e⟩ := entry
    have hrest := fun entry hentry ↦ h entry (List.mem_cons_of_mem _ hentry)
    rw [update_cons]
    split
    next hle =>
      obtain ⟨t, ht⟩ := Option.isSome_iff_exists.mp (h _ List.mem_cons_self hle)
      rw [ht]
      have hwrite := evolves_setKey s key t
      exact hwrite.trans (ih _ (by rwa [hwrite.level]))
    next => exact ih s hrest

def Inner (Q : Frame → Prop) (s : Scope) : Prop := ∀ f ∈ s.frames.head?, Q f

theorem Inner.record {Q : Frame → Prop} {s : Scope} (h : s.Inner Q)
    (hQ : ∀ f g, f.Awaits g → Q f → Q g) (label : String) (value : Ty) (changes : Changes) :
    (s.record label value changes).Inner Q := by
  have hawaits := storeJump_awaits label value changes s.frames
  intro g hg
  obtain ⟨root, _ | ⟨f, outer⟩⟩ := s
  · cases hg
  · simp only [Scope.record] at hg
    cases hfs : (storeJump label value changes (f :: outer)).1 with
    | nil => simp [hfs] at hg
    | cons g' outer' =>
      simp only [hfs, List.head?_cons, Option.mem_def, Option.some.injEq] at hg hawaits
      obtain rfl := hg
      exact hQ f g' (List.forall₂_cons.mp hawaits).1 (h f rfl)

theorem Evolves.inner_all {P : Key × Entry → Prop} {s t : Scope} (h : Evolves s t)
    (hP : ∀ key level u, P (key, ⟨level, some u⟩)) (hs : s.Inner (Frame.All P)) :
    t.Inner (Frame.All P) := by
  induction h with
  | refl => exact hs
  | tail _ hm ih =>
    cases hm with
    | inner hstep =>
      intro g hg
      obtain rfl := Option.mem_some.mp hg
      refine hstep.all (ih _ rfl) (fun key u ↦ hP _ _ u) (fun address name u ↦ hP _ _ u) ?_
      exact fun label level u _ ↦ hP _ _ u
    | recorded _ label value changes =>
      refine ih.record ?_ label value changes
      rintro f g ⟨js, rfl⟩ hf
      exact hf

theorem Evolves.isSome_of_mem_changes {s t : Scope} {frame : Frame}
    {declared : List (String × Option Ty)} (h : Evolves (s.enter frame declared) t) :
    ∀ entry ∈ t.leave.1.changes, entry.2.level ≤ s.level → entry.2.value.isSome := by
  have hstart : (s.enter frame declared).Inner
      (Frame.All fun entry ↦ entry.2.level ≤ s.level → entry.2.value.isSome) := by
    intro f hf
    obtain rfl := Option.mem_some.mp hf
    refine ⟨fun entry hentry hle ↦ ?_, fun c hc ↦ by cases hc⟩
    obtain ⟨d, -, rfl⟩ := List.mem_map.mp (Table.mem_of_mem_ofList hentry)
    exact absurd hle (Nat.not_succ_le_self _)
  have hend := h.inner_all (fun key level u _ ↦ rfl) hstart
  obtain ⟨root, _ | ⟨f, outer⟩⟩ := t
  · intro entry hentry
    cases hentry
  · exact (hend f rfl).changes

theorem Evolves.nested {s t : Scope} {frame : Frame} {declared : List (String × Option Ty)}
    (h : Evolves (s.enter frame declared) t) :
    Evolves s (t.outer.update t.leave.1.changes) := by
  have houter : Evolves s t.outer := h.outer
  refine houter.trans (evolves_update _ _ ?_)
  rw [houter.level]
  exact h.isSome_of_mem_changes

end Scope

namespace ScopeStep

variable {α : Type} (w : World)

mutual

theorem run_evolves : (step : ScopeStep α) → (s : Scope) → s.Evolves (run w step s).2
  | .set name t, s => s.evolves_set name t
  | .setConstant m name t, s => s.evolves_setConstant w m name t
  | .terminate, s => s.evolves_terminate
  | .jump label t, s => s.evolves_jump label t
  | .mergeJumps, s => s.evolves_mergeJumps w
  | .child frame declared steps update, s => by
    have hbody := runAll_evolves steps (s.enter frame declared)
    cases update with
    | true => exact hbody.nested
    | false => exact hbody.outer
  | .branches bodies, s => by
    rw [run]
    exact (runBranches_evolves bodies s).trans (Scope.evolves_joinBranches _ w _)
  | .conditional steps, s => by
    have hbody := runAll_evolves steps (s.enter {} [])
    have houter : s.Evolves _ := hbody.outer
    exact houter.trans (Scope.evolves_joinBranches _ w _)
  | .ask _, _ => .refl

theorem runAll_evolves : (steps : List (ScopeStep α)) → (s : Scope) →
    s.Evolves (runAll w steps s).2
  | [], _ => .refl
  | step :: rest, s => (run_evolves step s).trans (runAll_evolves rest _)

theorem runBranches_evolves : (bodies : List (List (ScopeStep α))) → (s : Scope) →
    s.Evolves (runBranches w bodies s).2
  | [], _ => .refl
  | body :: rest, s => by
    have hbody := runAll_evolves body (s.enter {} [])
    have houter : s.Evolves _ := hbody.outer
    exact houter.trans (runBranches_evolves rest _)

end

theorem runBranches_awaits (bodies : List (List (ScopeStep α))) (s : Scope) :
    List.Forall₂ Frame.Awaits s.frames (runBranches w bodies s).2.frames := by
  induction bodies generalizing s with
  | nil => exact Scope.awaits_refl _
  | cons body rest ih =>
    have hbody := (runAll_evolves w body (s.enter {} [])).awaits_outer
    exact Scope.awaits_trans hbody (ih _)

end ScopeStep

namespace Scope

/-- A relation that holds of each change that operations are made of, merging jumps apart, holds of
what the operations make of a scope. -/
structure Covers (R : Scope → Scope → Prop) : Prop where
  refl : ∀ s, R s s
  trans : ∀ {s t u}, R s t → R t u → R s u
  setEntry : ∀ s key e, R s (s.setEntry key e)
  terminate : ∀ s, R s s.terminate
  record : ∀ s label value changes, R s (s.record label value changes)
  outer : ∀ {s t frame declared}, Evolves (s.enter frame declared) t → R s t.outer

namespace Covers

variable {R : Scope → Scope → Prop} (hR : Covers R)

include hR

theorem jump (s : Scope) (label : String) (value : Ty) : R s (s.jump label value) := by
  obtain ⟨root, _ | ⟨f, outer⟩⟩ := s
  · exact hR.refl _
  cases ht : f.terminated with
  | true =>
    rw [jump_eq_self ht]
    exact hR.refl _
  | false =>
    rw [jump_eq ht]
    refine hR.trans (hR.record _ label value f.table) (hR.trans ?_ (hR.terminate _))
    split
    · exact hR.setEntry _ _ _
    · exact hR.refl _

theorem update (s : Scope) (changes : Changes) : R s (s.update changes) := by
  induction changes generalizing s with
  | nil => exact hR.refl s
  | cons entry changes ih =>
    rw [update_cons]
    split
    · exact hR.trans (hR.setEntry s _ _) (ih _)
    · exact ih s

theorem joinBranches (s : Scope) (w : World) (branches : List Frame) :
    R s (s.joinBranches w branches) := by
  have hmerge := rel_merge hR.refl hR.trans fun s key t ↦ hR.setEntry s key _
  rw [Scope.joinBranches]
  refine hR.trans ?_ (hmerge _ w _)
  split
  · exact hR.terminate s
  · exact hR.refl s

theorem runBranches {α : Type} (w : World) (bodies : List (List (ScopeStep α))) (s : Scope) :
    R s (ScopeStep.runBranches w bodies s).2 := by
  induction bodies generalizing s with
  | nil => exact hR.refl s
  | cons body rest ih =>
    have hbody := hR.outer (ScopeStep.runAll_evolves w body (s.enter {} []))
    exact hR.trans hbody (ih _)

theorem run {α : Type} (w : World) {step : ScopeStep α} (hstep : step ≠ .mergeJumps) (s : Scope) :
    R s (step.run w s).2 := by
  cases step with
  | set name t => exact hR.setEntry s _ _
  | setConstant m name t => exact hR.setEntry s _ _
  | terminate => exact hR.terminate s
  | jump label t => exact hR.jump s label t
  | mergeJumps => exact absurd rfl hstep
  | child frame declared steps update =>
    have hbody := hR.outer (ScopeStep.runAll_evolves w steps (s.enter frame declared))
    cases update with
    | true => exact hR.trans hbody (hR.update _ _)
    | false => exact hbody
  | branches bodies =>
    rw [ScopeStep.run]
    exact hR.trans (hR.runBranches w bodies s) (hR.joinBranches _ w _)
  | conditional steps =>
    have hbody := hR.outer (ScopeStep.runAll_evolves w steps (s.enter {} []))
    exact hR.trans hbody (hR.joinBranches _ w _)
  | ask question => exact hR.refl s

end Covers

end Scope

end FlowCompletion
