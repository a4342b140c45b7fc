import FlowCompletion.Proofs.Names
import FlowCompletion.Proofs.Scope.Branches

namespace FlowCompletion

/-- There is an entry for the name, and none that belongs above the level. -/
structure Shared (name : String) (level : Nat) (c : Changes) : Prop where
  has : Table.contains c (.named name) = true
  levels : ∀ entry ∈ c, entry.1 = .named name → entry.2.level ≤ level

def Frame.Shares (name : String) (level : Nat) (f : Frame) : Prop :=
  Shared name level f.table ∧ ∀ c ∈ f.frozen, Shared name level c

variable {name : String} {level : Nat}

theorem Shared.insert {c : Changes} {key : Key} {e : Entry} (h : Shared name level c)
    (he : key = .named name → e.level ≤ level) : Shared name level (Table.insert c key e) := by
  refine ⟨?_, Frame.forall_mem_insert h.levels he⟩
  rw [Table.contains_insert, h.has, Bool.or_true]

namespace Frame

variable {f g : Frame}

theorem Shares.changes (h : f.Shares name level) : Shared name level f.changes := by
  cases hf : f.frozen with
  | none =>
    rw [Frame.changes, hf]
    exact h.1
  | some c =>
    rw [Frame.changes, hf]
    exact h.2 c hf

theorem Awaits.shares (h : f.Awaits g) (hf : f.Shares name level) : g.Shares name level := by
  obtain ⟨js, rfl⟩ := h
  exact hf

end Frame

namespace Scope

variable {w : World} {s t : Scope}

section shares

variable (hlocal : NameKind.ofName name = .lvar) (hs : s.Inner (Frame.Shares name level))

include hs

theorem shares_of_awaits (h : List.Forall₂ Frame.Awaits s.frames t.frames) :
    t.Inner (Frame.Shares name level) := by
  obtain ⟨root, frames⟩ := s
  obtain ⟨root', frames'⟩ := t
  intro g hg
  cases h with
  | nil => cases hg
  | cons hfg _ =>
    obtain rfl := Option.mem_some.mp hg
    exact hfg.shares (hs _ rfl)

theorem shares_setEntry {key : Key} {e : Entry} (he : key = .named name → e.level ≤ level) :
    (s.setEntry key e).Inner (Frame.Shares name level) := by
  obtain ⟨root, _ | ⟨f, outer⟩⟩ := s
  · exact hs
  intro g hg
  obtain rfl := Option.mem_some.mp hg
  obtain ⟨htable, hfrozen⟩ := hs f rfl
  exact ⟨htable.insert he, hfrozen⟩

theorem shares_terminate : s.terminate.Inner (Frame.Shares name level) := by
  obtain ⟨root, _ | ⟨f, outer⟩⟩ := s
  · exact hs
  cases ht : f.terminated with
  | true => rwa [terminate_eq_self ht]
  | false =>
    rw [terminate_eq ht]
    intro g hg
    obtain rfl := Option.mem_some.mp hg
    refine ⟨(hs f rfl).1, fun c hc ↦ ?_⟩
    obtain rfl := Option.mem_some.mp hc
    exact (hs f rfl).1

theorem shares_jump {label : String} (hlabel : label ≠ name) (value : Ty) :
    (s.jump label value).Inner (Frame.Shares name level) := by
  obtain ⟨root, _ | ⟨f, outer⟩⟩ := s
  · exact hs
  cases ht : f.terminated with
  | true => rwa [jump_eq_self ht]
  | false =>
    have hrecord := hs.record (fun _ _ hfg hf ↦ hfg.shares hf) label value f.table
    rw [jump_eq ht]
    refine shares_terminate ?_
    split
    · exact shares_setEntry hrecord fun hkey ↦ absurd (Key.named_inj.mp hkey) hlabel
    · exact hrecord

include hlocal

theorem shares_setKey (key : Key) (value : Option Ty) :
    (s.setKey key value).Inner (Frame.Shares name level) := by
  refine shares_setEntry hs ?_
  rintro rfl
  obtain ⟨root, _ | ⟨f, outer⟩⟩ := s
  · exact Nat.zero_le _
  · obtain ⟨e, he⟩ := Option.isSome_iff_exists.mp (hs f rfl).1.has
    have hlevel := (hs f rfl).1.levels _ (Table.mem_of_get? he) rfl
    simpa [levelOf, levelIn, hlocal, he] using hlevel

theorem shares_merge (w : World) (branches : List Changes) :
    (s.merge w branches).Inner (Frame.Shares name level) :=
  merge_induct hs fun _ key _ ht ↦ shares_setKey hlocal ht key _

theorem shares_joinBranches (w : World) (branches : List Frame) :
    (s.joinBranches w branches).Inner (Frame.Shares name level) := by
  rw [joinBranches]
  refine shares_merge hlocal ?_ w _
  split
  · exact shares_terminate hs
  · exact hs

theorem shares_update (changes : Changes) :
    (s.update changes).Inner (Frame.Shares name level) := by
  induction changes generalizing s with
  | nil => exact hs
  | cons entry changes ih =>
    rw [update_cons]
    split
    · exact ih (shares_setKey hlocal hs _ _)
    · exact ih hs

theorem shares_mergeJumps (w : World) : (s.mergeJumps w).Inner (Frame.Shares name level) := by
  obtain ⟨root, _ | ⟨f, outer⟩⟩ := s
  · exact shares_merge hlocal hs w _
  cases ht : f.terminated with
  | true =>
    rw [mergeJumps_of_terminated ht]
    refine shares_merge hlocal (fun g hg ↦ ?_) w _
    obtain rfl := Option.mem_some.mp hg
    exact ⟨(hs f rfl).changes, fun c hc ↦ by cases hc⟩
  | false =>
    rw [mergeJumps_of_not_terminated ht]
    refine shares_merge hlocal (fun g hg ↦ ?_) w _
    obtain rfl := Option.mem_some.mp hg
    exact hs f rfl

end shares

/-- The innermost frame lies at the level above this one, control is in it, and the name is neither
in it nor kept out by it. -/
def Passes (name : String) (level : Nat) (s : Scope) : Prop :=
  ∃ f outer, s.frames = f :: outer ∧ outer.length = level ∧ ValidFrames outer ∧
    f.tracesLocals = true ∧ f.frozen = none ∧ Table.get? f.table (.named name) = none

theorem passes_enter {frame : Frame} {declared : List (String × Option Ty)} (hs : s.Valid)
    (hframe : frame.tracesLocals = true) (hname : name ∉ declared.map Prod.fst) :
    (s.enter frame declared).Passes name s.level := by
  refine ⟨_, s.frames, rfl, rfl, hs, hframe, rfl, Table.get?_eq_none_of_not_mem_keys fun hkey ↦ ?_⟩
  obtain ⟨entry, hentry, hentrykey⟩ := List.mem_map.mp hkey
  obtain ⟨d, hd, rfl⟩ := List.mem_map.mp (Table.mem_of_mem_ofList hentry)
  exact hname (List.mem_map.mpr ⟨d, hd, Key.named_inj.mp hentrykey⟩)

theorem Passes.set_of_ne (h : s.Passes name level) {other : String} (hne : other ≠ name) (u : Ty) :
    (s.set other u).Passes name level := by
  obtain ⟨f, outer, hframes, hlevel, hvalid, htraces, hfrozen, hget⟩ := h
  obtain ⟨root, _⟩ := s
  obtain rfl := hframes
  refine ⟨_, outer, rfl, hlevel, hvalid, htraces, hfrozen, ?_⟩
  rw [Table.get?_insert, if_neg fun hkey ↦ hne (Key.named_inj.mp hkey).symm]
  exact hget

theorem Passes.shares_set (hlocal : NameKind.ofName name = .lvar) (h : s.Passes name level)
    (u : Ty) : (s.set name u).Inner (Frame.Shares name level) := by
  obtain ⟨f, outer, hframes, rfl, hvalid, htraces, hfrozen, hget⟩ := h
  obtain ⟨root, _⟩ := s
  obtain rfl := hframes
  have hlevel : levelOf ⟨root, f :: outer⟩ (.named name) ≤ outer.length := by
    simpa [levelOf, levelIn, hlocal, hget, htraces] using levelIn_le hvalid (.named name)
  intro g hg
  obtain rfl := Option.mem_some.mp hg
  refine ⟨⟨?_, fun entry hentry hkey ↦ ?_⟩, fun c hc ↦ ?_⟩
  · rw [Table.contains_insert, decide_eq_true rfl, Bool.true_or]
  · rcases Table.eq_or_mem_of_mem_insert hentry with rfl | hold
    · exact hlevel
    · have hhas := Table.contains_of_mem hold
      rw [hkey, Table.contains, hget] at hhas
      cases hhas
  · simp [hfrozen] at hc

theorem shares_setAll (hlocal : NameKind.ofName name = .lvar) {types : List (String × Ty)}
    (h : s.Inner (Frame.Shares name level) ∨ name ∈ types.map Prod.fst ∧ s.Passes name level) :
    (types.foldl (fun s p ↦ s.set p.1 p.2) s).Inner (Frame.Shares name level) := by
  induction types generalizing s with
  | nil =>
    rcases h with h | ⟨hname, -⟩
    · exact h
    · cases hname
  | cons p types ih =>
    refine ih ?_
    rcases h with h | ⟨hname, hpasses⟩
    · exact .inl (shares_setKey hlocal h _ _)
    by_cases hp : p.1 = name
    · subst hp
      exact .inl (hpasses.shares_set hlocal p.2)
    · refine .inr ⟨?_, hpasses.set_of_ne hp p.2⟩
      exact (List.mem_cons.mp hname).resolve_left (Ne.symm hp)

theorem hasOwn_setKey (hs : s.frames ≠ []) (key : Key) (value : Option Ty) :
    (s.setKey key value).hasOwn name = (decide (.named name = key) || s.hasOwn name) := by
  obtain ⟨root, _ | ⟨f, outer⟩⟩ := s
  · exact absurd rfl hs
  · exact Table.contains_insert f.table key (.named name) _

theorem hasOwn_terminate (h : s.hasOwn name = true) : s.terminate.hasOwn name = true := by
  obtain ⟨root, _ | ⟨f, outer⟩⟩ := s
  · exact h
  cases ht : f.terminated with
  | true => rwa [terminate_eq_self ht]
  | false => rwa [terminate_eq ht]

theorem hasOwn_foldl {β : Type} {I : Scope → Prop} {P : β → Prop} {f : Scope → β → Scope}
    (hf : ∀ t b, I t → I (f t b) ∧
      (t.hasOwn name = true ∨ P b → (f t b).hasOwn name = true)) {l : List β} (hs : I s)
    (h : s.hasOwn name = true ∨ ∃ b ∈ l, P b) : (l.foldl f s).hasOwn name = true := by
  induction l generalizing s with
  | nil =>
    rcases h with h | ⟨_, hb, -⟩
    · exact h
    · cases hb
  | cons b l ih =>
    obtain ⟨hI, hown⟩ := hf s b hs
    refine ih hI ?_
    rcases h with h | ⟨c, hc, hP⟩
    · exact .inl (hown (.inl h))
    · rcases List.mem_cons.mp hc with rfl | hc
      · exact .inl (hown (.inr hP))
      · exact .inr ⟨c, hc, hP⟩

theorem hasOwn_update (hs : s.frames ≠ []) {changes : Changes}
    (h : ∃ entry ∈ changes, entry.1 = .named name ∧ entry.2.level ≤ s.level) :
    (s.update changes).hasOwn name = true := by
  refine hasOwn_foldl (I := fun t ↦ t.frames ≠ [] ∧ t.level = s.level) ?_ ⟨hs, rfl⟩ (.inr h)
  rintro t ⟨key, e⟩ ⟨hne, hlevel⟩
  dsimp only
  rw [hlevel]
  split
  next hle =>
    refine ⟨⟨frames_setKey_ne_nil hne _, (level_setKey _ _ _).trans hlevel⟩, fun h ↦ ?_⟩
    rw [hasOwn_setKey hne, Bool.or_eq_true, decide_eq_true_eq]
    exact h.symm.imp_left fun hkey ↦ hkey.1.symm
  next hgt => exact ⟨⟨hne, hlevel⟩, fun h ↦ h.resolve_right fun hkey ↦ hgt hkey.2⟩

theorem Evolves.hasOwn_nested {frame : Frame} {declared : List (String × Option Ty)}
    (h : Evolves (s.enter frame declared) t) (hs : s.frames ≠ [])
    (hshares : t.Inner (Frame.Shares name s.level)) :
    (t.outer.update t.leave.1.changes).hasOwn name = true := by
  have hawaits : List.Forall₂ Frame.Awaits s.frames t.outer.frames := h.awaits_outer
  have hne := h.frames_ne_nil (List.cons_ne_nil _ _)
  obtain ⟨root, _ | ⟨f, outer⟩⟩ := t
  · exact absurd rfl hne
  have hchanges := (hshares f rfl).changes
  obtain ⟨e, he⟩ := Option.isSome_iff_exists.mp hchanges.has
  have hmem := Table.mem_of_get? he
  refine hasOwn_update (ne_nil_of_awaits hawaits hs) ⟨_, hmem, rfl, ?_⟩
  exact (hchanges.levels _ hmem rfl).trans hawaits.length_eq.le

theorem hasOwn_merge (hs : s.frames ≠ []) {branches : List Changes}
    (hkey : .named name ∈ s.mergedKeys branches)
    (hvalue : s.mergedValue w branches (.named name) ≠ []) :
    (s.merge w branches).hasOwn name = true := by
  refine hasOwn_foldl (I := fun t ↦ t.frames ≠ []) ?_ hs (.inr ⟨.named name, hkey, rfl⟩)
  intro t key hne
  split
  next hnone =>
    refine ⟨hne, fun h ↦ h.resolve_right ?_⟩
    rintro rfl
    exact hvalue hnone
  next =>
    refine ⟨frames_setKey_ne_nil hne _, fun h ↦ ?_⟩
    rw [hasOwn_setKey hne, Bool.or_eq_true, decide_eq_true_eq]
    exact h.symm

theorem Forks.hasOwn {first second joined e : Scope} (h : Forks w s first second joined)
    (hs : s.Valid) (hne : s.frames ≠ []) (he : e ∈ [first, second]) (ht : e.isTerminated = false)
    (hown : e.hasOwn name = true) : joined.hasOwn name = true := by
  have hend := h.branchEnd hs e he
  obtain ⟨entry, hget⟩ : ∃ entry, Table.get? e.leave.1.table (.named name) = some entry := by
    cases hend
    exact Option.isSome_iff_exists.mp hown
  obtain ⟨u, hu⟩ := Option.isSome_iff_exists.mp (hend.isSome_of_get? ht hget)
  have hentry : second.outer.entryFor (.named name) e.leave.1.changes = some entry := by
    rw [← hget, ← hend.entryFor ht]
    exact entryFor_of_level h.awaits.length_eq.symm _
  have hc := mem_changes_of_ends.mpr ⟨e, he, ht, rfl⟩
  have hvalue := (mem_mergedValue (w := w)).mpr (.inl ⟨_, hc, entry, hentry, hu⟩)
  rw [h.joined_eq, joinBranches_eq_merge (h.branchEnd hs) ⟨e, he, ht⟩]
  exact hasOwn_merge (h.frames_ne_nil hne) (mem_mergedKeys_of_entryFor hc hentry)
    (List.ne_nil_of_mem hvalue)

theorem Forks.eq_outer {first joined : Scope}
    (h : Forks w s first (first.outer.enter {} []) joined) (ht : first.isTerminated = true) :
    joined = first.outer := by
  have hfirst : first.leave.1.terminated = true := (terminated_leave first).trans ht
  rw [h.joined_eq, joinBranches]
  simp only [List.map_cons, List.map_nil, List.filter_cons, hfirst]
  rfl

theorem mem_locals_of_hasOwn (hlocal : NameKind.ofName name = .lvar) (h : s.hasOwn name = true) :
    name ∈ s.locals := by
  obtain ⟨root, _ | ⟨f, outer⟩⟩ := s
  · cases h
  refine mem_sortedNames.mpr (List.mem_append_left _ (List.mem_map.mpr ⟨.named name, ?_, rfl⟩))
  exact List.mem_filter.mpr ⟨Table.mem_keys.mpr h, decide_eq_true hlocal⟩

theorem localsIn_of_awaits {root : Root} {fs gs : List Frame}
    (h : List.Forall₂ Frame.Awaits fs gs) : localsIn root gs = localsIn root fs := by
  induction h with
  | nil => rfl
  | cons hfg _ ih =>
    obtain ⟨js, rfl⟩ := hfg
    simp only [localsIn, ownNames, ih]

theorem Forks.mem_locals_iff {first joined : Scope}
    (h : Forks w s first (first.outer.enter {} []) joined) (hs : s.Valid) (hne : s.frames ≠ [])
    (hlocal : NameKind.ofName name = .lvar) (hown : first.hasOwn name = true) :
    name ∈ joined.locals ↔ first.isTerminated = false ∨ name ∈ s.locals := by
  cases ht : first.isTerminated with
  | false =>
    have hjoined := h.hasOwn hs hne List.mem_cons_self ht hown
    exact iff_of_true (mem_locals_of_hasOwn hlocal hjoined) (.inl rfl)
  | true =>
    have hroot : first.outer.root = s.root := h.evolves_first.root
    have hawaits : List.Forall₂ Frame.Awaits s.frames first.outer.frames :=
      h.evolves_first.awaits_outer
    rw [h.eq_outer ht, locals, locals, hroot, localsIn_of_awaits hawaits]
    simp

end Scope

end FlowCompletion
