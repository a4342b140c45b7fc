import FlowCompletion.Proofs.Scope.Reachable

namespace FlowCompletion

/-- No jump to the frame is lost, and what counted when control left it still does. -/
structure Frame.Keeps (f g : Frame) : Prop where
  jumps : f.jumps ⊆ g.jumps
  tracesIvars : g.tracesIvars = f.tracesIvars
  selfType : g.selfType = f.selfType
  left : f.terminated = true → g.terminated = true ∧ g.frozen = f.frozen

namespace Frame

variable {f g h : Frame}

theorem Keeps.trans (hfg : f.Keeps g) (hgh : g.Keeps h) : f.Keeps h := by
  refine ⟨List.Subset.trans hfg.jumps hgh.jumps, hgh.tracesIvars.trans hfg.tracesIvars,
    hgh.selfType.trans hfg.selfType, fun ht ↦ ?_⟩
  obtain ⟨hgt, hg⟩ := hfg.left ht
  obtain ⟨hht, hh⟩ := hgh.left hgt
  exact ⟨hht, hh.trans hg⟩

theorem Awaits.keeps (h : f.Awaits g) : f.Keeps g := by
  obtain ⟨js, rfl⟩ := h
  exact ⟨List.subset_append_left _ _, rfl, rfl, fun ht ↦ ⟨ht, rfl⟩⟩

end Frame

namespace Scope

inductive Keeps : Scope → Scope → Prop
  | nil (root : Root) : Keeps ⟨root, []⟩ ⟨root, []⟩
  | cons {root : Root} {f g : Frame} {fs gs : List Frame} (hfg : f.Keeps g)
      (hrest : List.Forall₂ Frame.Awaits fs gs) : Keeps ⟨root, f :: fs⟩ ⟨root, g :: gs⟩

theorem keeps_of_awaits {s t : Scope} (hroot : t.root = s.root)
    (h : List.Forall₂ Frame.Awaits s.frames t.frames) : s.Keeps t := by
  obtain ⟨root, fs⟩ := s
  obtain ⟨_, gs⟩ := t
  obtain rfl := hroot
  cases h with
  | nil => exact .nil _
  | cons hfg hrest => exact .cons hfg.keeps hrest

theorem Keeps.refl (s : Scope) : s.Keeps s := keeps_of_awaits rfl (awaits_refl s.frames)

theorem Keeps.trans {s t u : Scope} (hst : s.Keeps t) (htu : t.Keeps u) : s.Keeps u := by
  cases hst with
  | nil root => exact htu
  | cons hfg hrest =>
    cases htu with
    | cons hgh hrest' => exact .cons (hfg.trans hgh) (awaits_trans hrest hrest')

theorem Keeps.level {s t : Scope} (h : s.Keeps t) : t.level = s.level := by
  cases h with
  | nil root => rfl
  | cons _ hrest => exact congrArg Nat.succ hrest.length_eq.symm

theorem keeps_setEntry (s : Scope) (key : Key) (e : Entry) : s.Keeps (s.setEntry key e) := by
  obtain ⟨root, _ | ⟨f, outer⟩⟩ := s
  · exact .nil root
  · exact .cons ⟨List.Subset.refl _, rfl, rfl, fun ht ↦ ⟨ht, rfl⟩⟩ (awaits_refl outer)

theorem keeps_terminate (s : Scope) : s.Keeps s.terminate := by
  obtain ⟨root, _ | ⟨f, outer⟩⟩ := s
  · exact .nil root
  cases ht : f.terminated with
  | true =>
    rw [terminate_eq_self ht]
    exact .refl _
  | false =>
    rw [terminate_eq ht]
    exact .cons ⟨List.Subset.refl _, rfl, rfl, fun ht' ↦ by simp [ht] at ht'⟩ (awaits_refl outer)

theorem keeps_record (s : Scope) (label : String) (value : Ty) (changes : Changes) :
    s.Keeps (s.record label value changes) :=
  keeps_of_awaits rfl (storeJump_awaits label value changes s.frames)

theorem covers_keeps : Covers Keeps where
  refl := .refl
  trans := .trans
  setEntry := keeps_setEntry
  terminate := keeps_terminate
  record := keeps_record
  outer h := keeps_of_awaits h.root h.awaits_outer

inductive Within (o : Scope) : Scope → Prop
  | here : Within o o
  | further (f : Frame) {t : Scope} (h : Within o t) : Within o ⟨t.root, f :: t.frames⟩

theorem Within.level_le {o t : Scope} (h : Within o t) : o.level ≤ t.level := by
  induction h with
  | here => exact Nat.le_refl _
  | further f _ ih => exact Nat.le_succ_of_le ih

theorem Within.eq_of_level {o t : Scope} (h : Within o t) (hlevel : t.level = o.level) : t = o := by
  cases h with
  | here => rfl
  | further f h => exact absurd hlevel (Nat.ne_of_gt (Nat.lt_succ_of_le h.level_le))

theorem Within.of_awaits {o t u : Scope} (h : Within o t) (hroot : u.root = t.root)
    (hawaits : List.Forall₂ Frame.Awaits t.frames u.frames) : ∃ p, o.Keeps p ∧ Within p u := by
  induction h generalizing u with
  | here => exact ⟨u, keeps_of_awaits hroot hawaits, .here⟩
  | @further f t _ ih =>
    obtain ⟨root, frames⟩ := u
    obtain ⟨g, gs, -, hrest, rfl⟩ := List.forall₂_cons_left_iff.mp hawaits
    obtain ⟨p, hp, hwithin⟩ := ih (u := ⟨root, gs⟩) hroot hrest
    exact ⟨p, hp, .further g hwithin⟩

theorem Within.of_keeps {o t u : Scope} (h : Within o t) (hkeeps : t.Keeps u) :
    ∃ p, o.Keeps p ∧ Within p u := by
  cases h with
  | here => exact ⟨u, hkeeps, .here⟩
  | @further f t h =>
    cases hkeeps with
    | @cons _ _ g _ gs _ hrest =>
      obtain ⟨p, hp, hwithin⟩ := h.of_awaits (u := ⟨t.root, gs⟩) rfl hrest
      exact ⟨p, hp, .further g hwithin⟩

theorem Within.of_evolves {o t u : Scope} (h : Within o t) (hlt : o.level < t.level)
    (hevolves : Evolves t u) : ∃ p, o.Keeps p ∧ Within p u := by
  cases h with
  | here => exact absurd hlt (Nat.lt_irrefl _)
  | @further f t h =>
    have hroot := hevolves.root
    have hlevel := hevolves.level
    have hawaits := hevolves.awaits_outer
    obtain ⟨root, _ | ⟨g, gs⟩⟩ := u
    · cases hlevel
    · obtain ⟨p, hp, hwithin⟩ := h.of_awaits (u := ⟨root, gs⟩) hroot hawaits
      exact ⟨p, hp, .further g hwithin⟩

/-- What may come next while jumps wait at a level: anything further in, which in the end is left,
and everything but merging at the level itself. -/
inductive Resumes (w : World) (level : Nat) : Scope → Scope → Prop
  | run {α : Type} {s : Scope} (step : ScopeStep α) (h : level < s.level ∨ step ≠ .mergeJumps) :
      Resumes w level s (step.run w s).2
  | leave {s : Scope} (h : level < s.level) : Resumes w level s s.leave.2
  | update {s : Scope} (changes : Changes) : Resumes w level s (s.update changes)
  | join {s : Scope} (branches : List Frame) : Resumes w level s (s.joinBranches w branches)

theorem Resumes.within {w : World} {o t u : Scope} (h : Resumes w o.level t u) (ht : Within o t) :
    ∃ p, o.Keeps p ∧ Within p u := by
  cases h with
  | run step hstep =>
    rcases hstep with hlt | hstep
    · exact ht.of_evolves hlt (step.run_evolves w t)
    · exact ht.of_keeps (covers_keeps.run w hstep t)
  | leave hlt =>
    cases ht with
    | here => exact absurd hlt (Nat.lt_irrefl _)
    | further f ht => exact ⟨o, .refl o, ht⟩
  | update changes => exact ht.of_keeps (covers_keeps.update t changes)
  | join branches => exact ht.of_keeps (covers_keeps.joinBranches t w branches)

theorem within_of_resumes {w : World} {o t u : Scope}
    (h : Relation.ReflTransGen (Resumes w o.level) t u) (ht : Within o t) :
    ∃ p, o.Keeps p ∧ Within p u := by
  induction h with
  | refl => exact ⟨o, .refl o, ht⟩
  | tail _ hstep ih =>
    obtain ⟨p, hp, hwithin⟩ := ih
    rw [← hp.level] at hstep
    obtain ⟨q, hq, hwithin⟩ := hstep.within hwithin
    exact ⟨q, hp.trans hq, hwithin⟩

theorem keeps_of_resumes {w : World} {o t u : Scope}
    (h : Relation.ReflTransGen (Resumes w o.level) t u) (ht : Within o t)
    (hlevel : u.level = o.level) : o.Keeps u := by
  obtain ⟨p, hp, hwithin⟩ := within_of_resumes h ht
  rwa [hwithin.eq_of_level (hlevel.trans hp.level.symm)]

theorem Within.resumes (w : World) {o t : Scope} (h : Within o t) :
    Relation.ReflTransGen (Resumes w o.level) t o := by
  induction h with
  | here => exact .refl
  | further f h ih => exact .head (.leave (Nat.lt_succ_of_le h.level_le)) ih

variable {w : World} {key : Key} {k : MemberKind}

theorem mem_kindsOf_mergeJumps_of_jump {s : Scope} {c : Changes} {e : Entry}
    (hc : c ∈ s.leave.1.jumps) (he : s.entryFor key c = some e) (hk : k ∈ kindsOf e.value) :
    k ∈ kindsOf ((s.mergeJumps w).lookup w key) := by
  obtain ⟨root, _ | ⟨f, outer⟩⟩ := s
  · cases hc
  cases ht : f.terminated with
  | true =>
    rw [mergeJumps_of_terminated ht]
    refine mem_kindsOf_merge_of_entry (List.cons_ne_nil _ _) hc ?_ hk
    exact he
  | false =>
    rw [mergeJumps_of_not_terminated ht]
    refine mem_kindsOf_merge_of_entry (List.cons_ne_nil _ _) (List.mem_append_left _ hc) ?_ hk
    exact he

theorem of_mem_kindsOf_mergeJumps {s : Scope} (hk : k ∈ kindsOf ((s.mergeJumps w).lookup w key))
    (hne : s.frames ≠ []) (ht : s.isTerminated = false) :
    (∃ c ∈ s.leave.1.jumps, ∃ e, s.entryFor key c = some e ∧ k ∈ kindsOf e.value) ∨
      k ∈ kindsOf (s.lookup w key) := by
  obtain ⟨root, _ | ⟨f, outer⟩⟩ := s
  · exact absurd rfl hne
  rw [mergeJumps_of_not_terminated ht] at hk
  rcases of_mem_kindsOf_merge (List.cons_ne_nil _ _) hk with ⟨c, hc, e, he, hk⟩ | ⟨hk, -⟩
  · rcases List.mem_append.mp hc with hc | hc
    · exact .inl ⟨c, hc, e, he, hk⟩
    · obtain rfl := List.mem_singleton.mp hc
      cases he
  · right
    have hlookup : lookupIn w root key ({ f with jumps := [] } :: outer) =
        lookupIn w root key (f :: outer) := lookupIn_congr rfl rfl rfl rfl rfl
    rwa [lookup, hlookup] at hk

/-- Control has left no frame from `s` out to `o`. -/
inductive OpenTo (o : Scope) : Scope → Prop
  | here (ht : o.isTerminated = false) : OpenTo o o
  | further (f : Frame) {s : Scope} (ht : f.terminated = false) (h : OpenTo o s) :
      OpenTo o ⟨s.root, f :: s.frames⟩

/-- No frame further in than `o` has the label, so `o` is the first to which a jump can go. -/
inductive JumpsTo (label : String) (o : Scope) : Scope → Prop
  | here : JumpsTo label o o
  | further (f : Frame) {s : Scope} (hl : f.has (.named label) = false) (h : JumpsTo label o s) :
      JumpsTo label o ⟨s.root, f :: s.frames⟩

section target

variable {label : String} {o s : Scope}

theorem OpenTo.within (h : OpenTo o s) : Within o s := by
  induction h with
  | here ht => exact .here
  | further f ht h ih => exact .further f ih

theorem OpenTo.isTerminated (h : OpenTo o s) : o.isTerminated = false := by
  induction h with
  | here ht => exact ht
  | further f ht h ih => exact ih

theorem JumpsTo.hasOwn (h : JumpsTo label o s) (hlt : o.level < s.level) :
    s.hasOwn label = false := by
  cases h with
  | here => exact absurd hlt (Nat.lt_irrefl _)
  | further f hl h => exact hl

theorem JumpsTo.outer (h : JumpsTo label o s) (hlt : o.level < s.level) :
    JumpsTo label o s.outer := by
  cases h with
  | here => exact absurd hlt (Nat.lt_irrefl _)
  | further f hl h => exact h

theorem OpenTo.within_record (h : OpenTo o s) (label : String) (value : Ty) (changes : Changes) :
    JumpsTo label o s ∧ Within (o.record label value changes) (s.record label value changes) ∨
      ¬ JumpsTo label o s ∧ Within o (s.record label value changes) := by
  induction h with
  | here ht => exact .inl ⟨.here, .here⟩
  | @further f s ht h ih =>
    have hlt : o.level < (⟨s.root, f :: s.frames⟩ : Scope).level :=
      Nat.lt_succ_of_le h.within.level_le
    cases hf : f.has (.named label) with
    | true =>
      -- The frame takes the jump itself, and nothing gets past it.
      refine .inr ⟨fun hjump ↦ ?_, ?_⟩
      · exact Bool.false_ne_true ((hjump.hasOwn hlt).symm.trans hf)
      · rw [record, storeJump_of_has ht hf]
        exact .further _ h.within
    | false =>
      rw [record_of_not_has ht hf]
      rcases ih with ⟨hjump, hwithin⟩ | ⟨hjump, hwithin⟩
      · exact .inl ⟨.further f hf hjump, .further f hwithin⟩
      · exact .inr ⟨fun hfurther ↦ hjump (hfurther.outer hlt), .further f hwithin⟩

theorem Within.modifyFrame (h : Within o s) (hlt : o.level < s.level) (g : Frame → Frame) :
    Within o (s.modifyFrame g) := by
  cases h with
  | here => exact absurd hlt (Nat.lt_irrefl _)
  | further f h => exact .further (g f) h

theorem Within.jump {root : Root} {f : Frame} {outer : List Frame} {value : Ty}
    (ht : f.terminated = false) (hlt : o.level < outer.length + 1)
    (h : Within o (record ⟨root, f :: outer⟩ label value f.table)) :
    Within o (jump ⟨root, f :: outer⟩ label value) := by
  have hlevel := level_record ⟨root, f :: outer⟩ label value f.table
  rw [jump_eq ht]
  generalize record ⟨root, f :: outer⟩ label value f.table = r at h hlevel
  have hr : o.level < r.level := by
    rw [hlevel]
    exact hlt
  split
  · exact (h.modifyFrame hr _).modifyFrame ((keeps_setEntry r _ _).level ▸ hr) _
  · exact h.modifyFrame hr _

end target

theorem jump_of_has {root : Root} {label : String} {f : Frame} (ht : f.terminated = false)
    (hl : f.has (.named label) = true) (value : Ty) (outer : List Frame) :
    jump ⟨root, f :: outer⟩ label value = ⟨root,
      { f with
        jumps := f.jumps ++ [Table.insert f.table (.named label) ⟨outer.length + 1, some value⟩]
        table := Table.insert f.table (.named label) ⟨outer.length + 1, some value⟩
        terminated := true
        frozen := some (Table.insert f.table (.named label) ⟨outer.length + 1, some value⟩) } ::
          outer⟩ := by
  rw [jump_eq ht, storeJump_of_has ht hl]
  simp [record, storeJump_of_has ht hl, setEntry, terminate, modifyFrame, ht]

theorem mem_kindsOf_mergeJumps_of_has {root : Root} {label name : String} {f : Frame}
    {outer : List Frame} {t : Scope} {value : Ty} (ht : f.terminated = false)
    (hl : f.has (.named label) = true) (hname : name ≠ label)
    (hkeeps : (jump ⟨root, f :: outer⟩ label value).Keeps t)
    (hk : k ∈ kindsOf (get? ⟨root, f :: outer⟩ w name)) :
    k ∈ kindsOf ((t.mergeJumps w).get? w name) := by
  rw [jump_of_has ht hl] at hkeeps
  generalize hc : Table.insert f.table (.named label) ⟨outer.length + 1, some value⟩ = c at hkeeps
  have hget : Table.get? c (.named name) = Table.get? f.table (.named name) := by
    rw [← hc, Table.get?_insert_of_ne _ (by simpa using hname)]
  cases hkeeps with
  | @cons _ _ g _ gs hfg hrest =>
    obtain ⟨hgt, hfrozen⟩ := hfg.left rfl
    have hmem : c ∈ g.jumps := hfg.jumps (List.mem_append_right _ List.mem_cons_self)
    have hchanges : g.changes = c := by rw [Frame.changes, hfrozen, Option.getD_some]
    rw [mergeJumps_of_terminated hgt, hchanges]
    -- Merging goes back to the entries of the moment of the jump, so the name is what it was then.
    have hlookup : lookupIn w root (.named name)
        ({ g with jumps := [], table := c, frozen := none } :: gs) =
          lookupIn w root (.named name) (f :: outer) :=
      lookupIn_congr hget hfg.tracesIvars hfg.selfType (findSome?_selfType_of_awaits hrest)
        (lookupIn_of_awaits hrest)
    rw [get?, lookup, ← hlookup] at hk
    cases he : entryFor ⟨root, { g with jumps := [], table := c, frozen := none } :: gs⟩
        (.named name) c with
    | none => exact mem_kindsOf_merge_of_missing (List.cons_ne_nil _ _) hmem he hk
    | some e =>
      refine mem_kindsOf_merge_of_entry (List.cons_ne_nil _ _) hmem he ?_
      rwa [lookupIn_of_get? (entryFor_eq_some.mp he).1] at hk

theorem exists_not_mem_kinds (k : MemberKind) : ∃ t : Ty, k ∉ t.kinds := by
  by_cases hk : k = .instanceOf .nilClass
  · exact ⟨.object, by rw [hk]; decide⟩
  · exact ⟨.nil, fun hmem ↦ hk (List.mem_singleton.mp hmem)⟩

theorem jumps_record {label : String} {o : Scope} (ht : o.isTerminated = false)
    (hl : o.hasOwn label = true) (value : Ty) (changes : Changes) :
    (o.record label value changes).leave.1.jumps =
      o.leave.1.jumps ++ [Table.insert changes (.named label) ⟨o.level, some value⟩] := by
  obtain ⟨root, _ | ⟨f, outer⟩⟩ := o
  · cases hl
  have hf : f.terminated = false := ht
  rw [record, storeJump_of_has hf hl]
  rfl

theorem Keeps.jumps {s t : Scope} (h : s.Keeps t) : s.leave.1.jumps ⊆ t.leave.1.jumps := by
  cases h with
  | nil root => exact List.Subset.refl _
  | cons hfg _ => exact hfg.jumps

theorem Within.exists_jump {name : String} {o s : Scope} (h : Within o s) (hne : o.frames ≠ [])
    (ht : o.isTerminated = false)
    (hk : ∀ t, Relation.ReflTransGen (Resumes w o.level) s t → t.level = o.level →
      k ∈ kindsOf ((t.mergeJumps w).get? w name)) :
    ∃ c ∈ o.leave.1.jumps, ∃ e, o.entryFor (.named name) c = some e ∧ k ∈ kindsOf e.value := by
  -- Control may get back to `o` and make the name a type without `k`: the rest is up to the jumps.
  obtain ⟨t, hkt⟩ := exists_not_mem_kinds k
  have hset : (.set name t : ScopeStep Unit) ≠ .mergeJumps := fun h ↦ by cases h
  have hresumes := (h.resumes w).tail (.run (.set name t) (.inr hset))
  obtain ⟨root, _ | ⟨f, outer⟩⟩ := o
  · exact absurd rfl hne
  have hmerged := hk _ hresumes rfl
  rcases of_mem_kindsOf_mergeJumps hmerged (List.cons_ne_nil _ _) ht with hjump | hlookup
  · exact hjump
  · rw [ScopeStep.run, set, lookup_setKey (List.cons_ne_nil _ _), if_pos rfl] at hlookup
    exact absurd hlookup hkt

theorem entryFor_insert_of_ne {label name : String} (hname : name ≠ label) (o : Scope)
    (changes : Changes) (e : Entry) :
    o.entryFor (.named name) (Table.insert changes (.named label) e) =
      o.entryFor (.named name) changes := by
  rw [entryFor, Table.get?_insert_of_ne _ (by simpa using hname), entryFor]

section further

variable {label name : String} {o s : Scope} {f : Frame} {value : Ty}

theorem OpenTo.exists_jump (h : OpenTo o s) (hl : o.hasOwn label = true) (hname : name ≠ label)
    (ht : f.terminated = false)
    (hf : JumpsTo label o ⟨s.root, f :: s.frames⟩ → o.entryFor (.named name) f.table = none)
    (hk : ∀ t, Relation.ReflTransGen (Resumes w o.level)
      (jump ⟨s.root, f :: s.frames⟩ label value) t → t.level = o.level →
        k ∈ kindsOf ((t.mergeJumps w).get? w name)) :
    ∃ c ∈ o.leave.1.jumps, ∃ e, o.entryFor (.named name) c = some e ∧ k ∈ kindsOf e.value := by
  have hne : o.frames ≠ [] := fun hnil ↦ by simp [Scope.hasOwn, hnil] at hl
  have hlt : o.level < s.frames.length + 1 := Nat.lt_succ_of_le h.within.level_le
  rcases (OpenTo.further f ht h).within_record label value f.table with
    ⟨hjump, hwithin⟩ | ⟨-, hwithin⟩
  · have hawaits := storeJump_awaits label value f.table o.frames
    have hlevel := level_record o label value f.table
    rw [← hlevel] at hk hlt
    obtain ⟨c, hc, e, he, hke⟩ := (hwithin.jump ht hlt).exists_jump
      (fun hnil ↦ hne (List.length_eq_zero_iff.mp (hlevel.symm.trans (congrArg List.length hnil))))
      ((isTerminated_of_awaits hawaits).trans h.isTerminated) hk
    rw [entryFor_of_level hlevel] at he
    rw [jumps_record h.isTerminated hl] at hc
    rcases List.mem_append.mp hc with hc | hc
    · exact ⟨c, hc, e, he, hke⟩
    · rw [List.mem_singleton.mp hc, entryFor_insert_of_ne hname, hf hjump] at he
      cases he
  · exact (hwithin.jump ht hlt).exists_jump hne h.isTerminated hk

theorem OpenTo.mem_jumps {t : Scope} (h : OpenTo o s) (hl : o.hasOwn label = true)
    (ht : f.terminated = false) (hjump : JumpsTo label o ⟨s.root, f :: s.frames⟩)
    (hresumes : Relation.ReflTransGen (Resumes w o.level)
      (jump ⟨s.root, f :: s.frames⟩ label value) t) (hlevel : t.level = o.level) :
    Table.insert f.table (.named label) ⟨o.level, some value⟩ ∈ t.leave.1.jumps := by
  have hlt : o.level < s.frames.length + 1 := Nat.lt_succ_of_le h.within.level_le
  rcases (OpenTo.further f ht h).within_record label value f.table with
    ⟨-, hwithin⟩ | ⟨hnot, -⟩
  · rw [← level_record o label value f.table] at hresumes hlevel hlt
    refine (keeps_of_resumes hresumes (hwithin.jump ht hlt) hlevel).jumps ?_
    rw [jumps_record h.isTerminated hl]
    exact List.mem_append_right _ List.mem_cons_self
  · exact absurd hjump hnot

theorem OpenTo.subset_jumps {t : Scope} (h : OpenTo o s)
    (hresumes : Relation.ReflTransGen (Resumes w o.level) (s.jump label value) t)
    (hlevel : t.level = o.level) : o.leave.1.jumps ⊆ t.leave.1.jumps := by
  obtain ⟨p, hp, hwithin⟩ := h.within.of_keeps (covers_keeps.jump s label value)
  rw [← hp.level] at hresumes hlevel
  exact (hp.trans (keeps_of_resumes hresumes hwithin hlevel)).jumps

end further

/-- Whatever is written after a jump, merging at an open scope with its label brings all that a name
was when the jump was made, exactly if the jump is made in that scope itself, or is recorded there
and its own frame has written the name, or jumps that wait there already bring as much. -/
theorem jump_brings_iff {label name : String} {o s : Scope} (h : OpenTo o s)
    (hl : o.hasOwn label = true) (hname : name ≠ label) (value : Ty) :
    (∀ t, Relation.ReflTransGen (Resumes w o.level) (s.jump label value) t → t.level = o.level →
      ∀ k ∈ kindsOf (s.get? w name), k ∈ kindsOf ((t.mergeJumps w).get? w name)) ↔
    s = o ∨ (JumpsTo label o s ∧ ∃ e, o.entryFor (.named name) s.leave.1.table = some e) ∨
      ∀ k ∈ kindsOf (s.get? w name), ∃ c ∈ o.leave.1.jumps, ∃ e,
        o.entryFor (.named name) c = some e ∧ k ∈ kindsOf e.value := by
  cases h with
  | here ht =>
    refine ⟨fun _ ↦ .inl rfl, fun _ t hresumes hlevel k hk ↦ ?_⟩
    rw [← (covers_keeps.jump o label value).level] at hresumes hlevel
    have hkeeps := keeps_of_resumes hresumes .here hlevel
    obtain ⟨root, _ | ⟨f, outer⟩⟩ := o
    · cases hl
    · exact mem_kindsOf_mergeJumps_of_has ht hl hname hkeeps hk
  | @further f s ht h =>
    constructor
    · intro hall
      by_cases hwritten : JumpsTo label o ⟨s.root, f :: s.frames⟩ ∧
          ∃ e, o.entryFor (.named name) f.table = some e
      · exact .inr (.inl hwritten)
      · refine .inr (.inr fun k hk ↦ ?_)
        refine h.exists_jump hl hname ht (fun hjump ↦ ?_) fun t hresumes hlevel ↦
          hall t hresumes hlevel k hk
        exact Option.eq_none_iff_forall_ne_some.mpr fun e he ↦ hwritten ⟨hjump, e, he⟩
    · rintro hwritten t hresumes hlevel k hk
      rcases hwritten with heq | ⟨hjump, e, he⟩ | hearlier
      · have hlt := Nat.lt_succ_of_le h.within.level_le
        exact absurd (congrArg level heq) (Nat.ne_of_gt hlt)
      · have hvalue : get? ⟨s.root, f :: s.frames⟩ w name = e.value :=
          lookupIn_of_get? (entryFor_eq_some.mp he).1 s.frames
        rw [hvalue] at hk
        refine mem_kindsOf_mergeJumps_of_jump (h.mem_jumps hl ht hjump hresumes hlevel) ?_ hk
        rw [entryFor_of_level hlevel, entryFor_insert_of_ne hname]
        exact he
      · obtain ⟨c, hc, e, he, hke⟩ := hearlier k hk
        rw [← entryFor_of_level hlevel] at he
        have hwaits := (OpenTo.further f ht h).subset_jumps hresumes hlevel
        exact mem_kindsOf_mergeJumps_of_jump (hwaits hc) he hke

def loop : Scope := enter (bare [("a", some .nil)]) {} [(Label.toBreak, none)]

def written : Scope := (loop.enter {} []).set "a" .integer

theorem jump_brings_iff_written :
    OpenTo loop written ∧ loop.hasOwn Label.toBreak = true ∧
      (∀ t, Relation.ReflTransGen (Resumes {} loop.level) (written.jump Label.toBreak .nil) t →
        t.level = loop.level → ∀ k ∈ kindsOf (written.get? {} "a"),
          k ∈ kindsOf ((t.mergeJumps {}).get? {} "a")) ∧
    OpenTo loop (written.enter {} []) ∧
      ¬ ∀ t, Relation.ReflTransGen (Resumes {} loop.level)
        ((written.enter {} []).jump Label.toBreak .nil) t → t.level = loop.level →
          ∀ k ∈ kindsOf ((written.enter {} []).get? {} "a"),
            k ∈ kindsOf ((t.mergeJumps {}).get? {} "a") := by
  have hlabel : loop.hasOwn Label.toBreak = true := by decide
  have hname : "a" ≠ Label.toBreak := by decide
  have hwritten : OpenTo loop written := .further _ rfl (.here rfl)
  have hfurther : OpenTo loop (written.enter {} []) := .further _ rfl hwritten
  have hjump : JumpsTo Label.toBreak loop written := .further _ (by decide) .here
  refine ⟨hwritten, hlabel, ?_, hfurther, fun hall ↦ ?_⟩
  · refine (jump_brings_iff hwritten hlabel hname .nil).mpr (.inr (.inl ⟨hjump, ?_⟩))
    exact ⟨⟨1, some .integer⟩, by rfl⟩
  · rcases (jump_brings_iff hfurther hlabel hname .nil).mp hall with heq | ⟨-, e, he⟩ | hearlier
    · exact absurd (congrArg level heq) (by decide)
    · cases he
    · obtain ⟨c, hc, -⟩ := hearlier (.instanceOf .integer) (by decide)
      cases hc

end Scope

end FlowCompletion
