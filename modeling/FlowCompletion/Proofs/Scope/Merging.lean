import FlowCompletion.Proofs.Scope.Moves
import FlowCompletion.Proofs.Ty.Union

namespace FlowCompletion

def kindsOf (t : Option Ty) : List MemberKind := t.elim [] Ty.kinds

theorem mem_kindsOf {t : Option Ty} {k : MemberKind} :
    k ∈ kindsOf t ↔ ∃ u, t = some u ∧ k ∈ u.kinds := by
  cases t <;> simp [kindsOf]

namespace Scope

variable {w : World} {root : Root} {key other : Key}

theorem lookupIn_of_get? {f : Frame} {e : Entry} (h : Table.get? f.table key = some e)
    (outer : List Frame) : lookupIn w root key (f :: outer) = e.value := by
  simp only [lookupIn, h]

theorem lookupIn_of_traces {f : Frame} (h : Table.get? f.table key = none)
    (htraces : f.tracesIvars = true) (outer : List Frame) :
    lookupIn w root key (f :: outer) = lookupIn w root key outer := by
  simp [lookupIn, h, htraces]

theorem lookupIn_congr {f g : Frame} {fs gs : List Frame}
    (hget : Table.get? g.table key = Table.get? f.table key)
    (htraces : g.tracesIvars = f.tracesIvars) (hself : g.selfType = f.selfType)
    (hselfs : gs.findSome? Frame.selfType = fs.findSome? Frame.selfType)
    (hrest : lookupIn w root key gs = lookupIn w root key fs) :
    lookupIn w root key (g :: gs) = lookupIn w root key (f :: fs) := by
  have htype : selfType ⟨root, g :: gs⟩ w = selfType ⟨root, f :: fs⟩ w := by
    simp only [selfType, List.findSome?_cons, hself, hselfs]
  simp only [lookupIn, hget, htraces, htype, hrest]

theorem findSome?_selfType_of_awaits {fs gs : List Frame} (h : List.Forall₂ Frame.Awaits fs gs) :
    gs.findSome? Frame.selfType = fs.findSome? Frame.selfType := by
  induction h with
  | nil => rfl
  | cons hfg _ ih =>
    obtain ⟨js, rfl⟩ := hfg
    simp only [List.findSome?_cons, ih]

theorem lookupIn_of_awaits {fs gs : List Frame} (h : List.Forall₂ Frame.Awaits fs gs) :
    lookupIn w root key gs = lookupIn w root key fs := by
  induction h with
  | nil => rfl
  | cons hfg hrest ih =>
    obtain ⟨js, rfl⟩ := hfg
    exact lookupIn_congr rfl rfl rfl (findSome?_selfType_of_awaits hrest) ih

theorem isTerminated_of_awaits {s t : Scope} (h : List.Forall₂ Frame.Awaits s.frames t.frames) :
    t.isTerminated = s.isTerminated := by
  obtain ⟨root, frames⟩ := s
  obtain ⟨root', frames'⟩ := t
  cases h with
  | nil => rfl
  | cons hfg _ =>
    obtain ⟨js, rfl⟩ := hfg
    rfl

theorem terminated_leave (s : Scope) : s.leave.1.terminated = s.isTerminated := by
  obtain ⟨root, _ | ⟨f, outer⟩⟩ := s <;> rfl

theorem lookup_setEntry {s : Scope} (hs : s.frames ≠ []) (e : Entry) :
    (s.setEntry key e).lookup w other = if other = key then e.value else s.lookup w other := by
  obtain ⟨root, _ | ⟨f, outer⟩⟩ := s
  · exact absurd rfl hs
  have hget := Table.get?_insert f.table key other e
  simp only [lookup, setEntry, modifyFrame]
  by_cases hk : other = key
  · rw [if_pos hk] at hget ⊢
    exact lookupIn_of_get? hget outer
  · rw [if_neg hk] at hget ⊢
    exact lookupIn_congr hget rfl rfl rfl rfl

theorem lookup_setKey {s : Scope} (hs : s.frames ≠ []) (value : Option Ty) :
    (s.setKey key value).lookup w other = if other = key then value else s.lookup w other :=
  lookup_setEntry hs _

theorem frames_setKey_ne_nil {s : Scope} (hs : s.frames ≠ []) (value : Option Ty) :
    (s.setKey key value).frames ≠ [] := by
  obtain ⟨root, _ | ⟨f, outer⟩⟩ := s
  · exact absurd rfl hs
  · exact List.cons_ne_nil _ _

theorem lookup_terminate (s : Scope) (w : World) (key : Key) :
    s.terminate.lookup w key = s.lookup w key := by
  obtain ⟨root, _ | ⟨f, outer⟩⟩ := s
  · rfl
  cases ht : f.terminated with
  | true => rw [terminate_eq_self ht]
  | false =>
    rw [terminate_eq ht]
    exact lookupIn_congr rfl rfl rfl rfl rfl

theorem lookup_foldl_setKey {types : Key → List Ty} (keys : List Key) {s : Scope}
    (hs : s.frames ≠ []) :
    (keys.foldl (fun t key ↦ match types key with
      | [] => t
      | ts => t.setKey key (some (Ty.union ts))) s).lookup w key =
      if key ∈ keys ∧ types key ≠ [] then some (Ty.union (types key)) else s.lookup w key := by
  induction keys generalizing s with
  | nil => simp
  | cons first keys ih =>
    rw [List.foldl_cons]
    cases hts : types first with
    | nil =>
      rw [ih hs]
      by_cases hk : key = first
      · simp [hk, hts]
      · simp [hk]
    | cons t ts =>
      dsimp only
      rw [ih (frames_setKey_ne_nil hs _), lookup_setKey hs]
      by_cases hk : key = first
      · simp [hk, hts]
      · simp [hk]

def retable (s : Scope) (table : Changes) : Scope := s.modifyFrame fun f ↦ { f with table }

section retable

variable (s : Scope) (table : Changes)

theorem exists_retable_eq : ∃ table, s.retable table = s := by
  obtain ⟨root, _ | ⟨f, outer⟩⟩ := s
  · exact ⟨[], rfl⟩
  · exact ⟨f.table, rfl⟩

@[simp] theorem retable_retable (table' : Changes) :
    (s.retable table).retable table' = s.retable table' := by
  obtain ⟨root, _ | ⟨f, outer⟩⟩ := s <;> rfl

@[simp] theorem level_retable : (s.retable table).level = s.level := by
  obtain ⟨root, _ | ⟨f, outer⟩⟩ := s <;> rfl

@[simp] theorem isTerminated_retable : (s.retable table).isTerminated = s.isTerminated := by
  obtain ⟨root, _ | ⟨f, outer⟩⟩ := s <;> rfl

@[simp] theorem outer_retable : (s.retable table).outer = s.outer := by
  obtain ⟨root, _ | ⟨f, outer⟩⟩ := s <;> rfl

@[simp] theorem frozen_retable : (s.retable table).leave.1.frozen = s.leave.1.frozen := by
  obtain ⟨root, _ | ⟨f, outer⟩⟩ := s <;> rfl

@[simp] theorem jumps_retable : (s.retable table).leave.1.jumps = s.leave.1.jumps := by
  obtain ⟨root, _ | ⟨f, outer⟩⟩ := s <;> rfl

end retable

/-- Entries of the innermost frame are written, but only for some names. -/
def Writes (P : Key → Prop) (s t : Scope) : Prop :=
  ∃ table, t = s.retable table ∧ ∀ entry ∈ table, P entry.1 ∨ entry ∈ s.leave.1.table

section writes

variable {P Q : Key → Prop} {s t u : Scope}

theorem Writes.refl (P : Key → Prop) (s : Scope) : Writes P s s := by
  refine ⟨s.leave.1.table, ?_, fun entry hentry ↦ .inr hentry⟩
  obtain ⟨root, _ | ⟨f, outer⟩⟩ := s <;> rfl

theorem Writes.trans (hst : Writes P s t) (htu : Writes P t u) : Writes P s u := by
  obtain ⟨table, rfl, hmem⟩ := hst
  obtain ⟨table', rfl, hmem'⟩ := htu
  refine ⟨table', retable_retable s table table', fun entry hentry ↦ ?_⟩
  rcases hmem' entry hentry with hP | hentry
  · exact .inl hP
  · obtain ⟨root, _ | ⟨f, outer⟩⟩ := s
    · cases hentry
    · exact hmem entry hentry

theorem Writes.mono (h : Writes P s t) (hPQ : ∀ key, P key → Q key) : Writes Q s t := by
  obtain ⟨table, ht, hmem⟩ := h
  exact ⟨table, ht, fun entry hentry ↦ (hmem entry hentry).imp_left (hPQ entry.1)⟩

theorem writes_setKey (s : Scope) (hkey : P key) (value : Option Ty) :
    Writes P s (s.setKey key value) := by
  refine ⟨Table.insert s.leave.1.table key ⟨s.levelOf key, value⟩, ?_, fun entry hentry ↦ ?_⟩
  · obtain ⟨root, _ | ⟨f, outer⟩⟩ := s <;> rfl
  · rcases Table.eq_or_mem_of_mem_insert hentry with rfl | hentry
    · exact .inl hkey
    · exact .inr hentry

theorem level_setKey (s : Scope) (key : Key) (value : Option Ty) :
    (s.setKey key value).level = s.level := by
  obtain ⟨root, _ | ⟨f, outer⟩⟩ := s <;> rfl

theorem writes_update (s : Scope) (changes : Changes) :
    Writes (fun key ↦ ∃ e, (key, e) ∈ changes ∧ e.level ≤ s.level) s (s.update changes) := by
  induction changes generalizing s with
  | nil => exact .refl _ s
  | cons entry changes ih =>
    obtain ⟨first, e⟩ := entry
    have hrest (key : Key) : (∃ e, (key, e) ∈ changes ∧ e.level ≤ s.level) →
        ∃ e', (key, e') ∈ (first, e) :: changes ∧ e'.level ≤ s.level :=
      fun ⟨e', he', hle⟩ ↦ ⟨e', List.mem_cons_of_mem _ he', hle⟩
    rw [update_cons]
    split
    next hle =>
      refine (writes_setKey s ⟨e, List.mem_cons_self, hle⟩ e.value).trans ((ih _).mono ?_)
      rw [level_setKey]
      exact hrest
    next => exact (ih s).mono hrest

theorem writes_merge (s : Scope) (w : World) (branches : List Changes) :
    Writes (· ∈ s.mergedKeys branches) s (s.merge w branches) :=
  merge_induct (.refl _ s) fun t _ hkey ht ↦ ht.trans (writes_setKey t hkey _)

end writes

/-- What a branch has written for a name that the scope, or one further out, owns. -/
def entryFor (s : Scope) (key : Key) (changes : Changes) : Option Entry :=
  (Table.get? changes key).filter fun entry ↦ entry.level ≤ s.level

theorem entryFor_eq_some {s : Scope} {changes : Changes} {e : Entry} :
    s.entryFor key changes = some e ↔ Table.get? changes key = some e ∧ e.level ≤ s.level := by
  simp [entryFor, Option.filter_eq_some_iff]

theorem entryFor_of_level {s t : Scope} (h : t.level = s.level) (changes : Changes) :
    t.entryFor key changes = s.entryFor key changes := by
  rw [entryFor, entryFor, h]

theorem mem_mergedKeys_of_entryFor {s : Scope} {branches : List Changes} {changes : Changes}
    {e : Entry} (hc : changes ∈ branches) (he : s.entryFor key changes = some e) :
    key ∈ s.mergedKeys branches := by
  obtain ⟨hget, hle⟩ := entryFor_eq_some.mp he
  refine mem_firsts.mpr (List.mem_flatMap.mpr ⟨changes, hc, ?_⟩)
  refine List.mem_map.mpr ⟨(key, e), List.mem_filter.mpr ⟨Table.mem_of_get? hget, ?_⟩, rfl⟩
  simpa using hle

theorem length_filterMap_eq_iff {α β : Type} {f : α → Option β} {l : List α} :
    (l.filterMap f).length = l.length ↔ ∀ a ∈ l, f a ≠ none := by
  rw [List.length_filterMap_eq_countP, List.countP_eq_length]
  simp only [Option.isSome_iff_ne_none]

theorem mem_mergedValue {s : Scope} {branches : List Changes} {t : Ty} :
    t ∈ s.mergedValue w branches key ↔
      (∃ c ∈ branches, ∃ e, s.entryFor key c = some e ∧ e.value = some t) ∨
        (∃ c ∈ branches, s.entryFor key c = none) ∧ s.lookup w key = some t := by
  have hmissing : (branches.filterMap (s.entryFor key)).length = branches.length ↔
      ¬ ∃ c ∈ branches, s.entryFor key c = none := by
    rw [length_filterMap_eq_iff]
    push Not
    rfl
  have hwritten : some t ∈ (branches.filterMap (s.entryFor key)).map Entry.value ↔
      ∃ c ∈ branches, ∃ e, s.entryFor key c = some e ∧ e.value = some t := by
    simp only [List.mem_map, List.mem_filterMap]
    constructor
    · rintro ⟨e, ⟨c, hc, he⟩, ht⟩
      exact ⟨c, hc, e, he, ht⟩
    · rintro ⟨c, hc, e, he, ht⟩
      exact ⟨e, ⟨c, hc, he⟩, ht⟩
  have hsplit : t ∈ s.mergedValue w branches key ↔
      some t ∈ (branches.filterMap (s.entryFor key)).map Entry.value ∨
        some t ∈ if (branches.filterMap (s.entryFor key)).length = branches.length then []
          else [s.lookup w key] := by
    simp only [mergedValue, List.mem_filterMap, id, exists_eq_right, List.mem_append]
    rfl
  rw [hsplit, hwritten]
  refine or_congr_right ?_
  by_cases h : ∃ c ∈ branches, s.entryFor key c = none
  · rw [if_neg (fun hlen ↦ hmissing.mp hlen h), List.mem_singleton]
    exact ⟨fun ht ↦ ⟨h, ht.symm⟩, fun ht ↦ ht.2.symm⟩
  · rw [if_pos (hmissing.mpr h)]
    exact ⟨fun ht ↦ absurd ht List.not_mem_nil, fun ht ↦ absurd ht.1 h⟩

theorem lookup_merge {s : Scope} {v : World} (hs : s.frames ≠ []) (branches : List Changes) :
    (s.merge v branches).lookup w key =
      if key ∈ s.mergedKeys branches ∧ s.mergedValue v branches key ≠ [] then
        some (Ty.union (s.mergedValue v branches key)) else s.lookup w key :=
  lookup_foldl_setKey _ hs

theorem exists_mem_of_mem_mergedKeys {s : Scope} {branches : List Changes}
    (h : key ∈ s.mergedKeys branches) :
    ∃ c ∈ branches, ∃ entry ∈ c, entry.1 = key ∧ entry.2.level ≤ s.level := by
  obtain ⟨c, hc, hkey⟩ := List.mem_flatMap.mp (mem_firsts.mp h)
  obtain ⟨entry, hentry, rfl⟩ := List.mem_map.mp hkey
  obtain ⟨hmem, hle⟩ := List.mem_filter.mp hentry
  exact ⟨c, hc, entry, hmem, rfl, by simpa using hle⟩

theorem lookup_merge_of_not_mem {s : Scope} {v : World} {branches : List Changes}
    (hkey : key ∉ s.mergedKeys branches) : (s.merge v branches).lookup w key = s.lookup w key := by
  by_cases hs : s.frames = []
  · have hmerge := evolves_merge s v branches
    have hframes : (s.merge v branches).frames = [] :=
      List.eq_nil_of_length_eq_zero (hmerge.level.trans (by rw [level, hs]; rfl))
    rw [lookup, lookup, hmerge.root, hframes, hs]
  · rw [lookup_merge hs, if_neg fun h ↦ hkey h.1]

theorem mem_kindsOf_merge_of_entry {s : Scope} {v : World} (hs : s.frames ≠ [])
    {branches : List Changes} {c : Changes} {e : Entry} (hc : c ∈ branches)
    (he : s.entryFor key c = some e) {k : MemberKind} (hk : k ∈ kindsOf e.value) :
    k ∈ kindsOf ((s.merge v branches).lookup w key) := by
  obtain ⟨t, ht, hk⟩ := mem_kindsOf.mp hk
  have hmem : t ∈ s.mergedValue v branches key := mem_mergedValue.mpr (.inl ⟨c, hc, e, he, ht⟩)
  have hne := List.ne_nil_of_mem hmem
  rw [lookup_merge hs, if_pos ⟨mem_mergedKeys_of_entryFor hc he, hne⟩]
  exact (Ty.mem_kinds_union hne).mpr ⟨t, hmem, hk⟩

theorem mem_kindsOf_merge_of_missing {s : Scope} (hs : s.frames ≠ []) {branches : List Changes}
    {c : Changes} (hc : c ∈ branches) (he : s.entryFor key c = none) {k : MemberKind}
    (hk : k ∈ kindsOf (s.lookup w key)) : k ∈ kindsOf ((s.merge w branches).lookup w key) := by
  rw [lookup_merge hs]
  split
  next h =>
    obtain ⟨t, ht, hk⟩ := mem_kindsOf.mp hk
    refine (Ty.mem_kinds_union h.2).mpr ⟨t, ?_, hk⟩
    exact mem_mergedValue.mpr (.inr ⟨⟨c, hc, he⟩, ht⟩)
  next => exact hk

theorem of_mem_kindsOf_merge {s : Scope} (hs : s.frames ≠ []) {branches : List Changes}
    {k : MemberKind} (hk : k ∈ kindsOf ((s.merge w branches).lookup w key)) :
    (∃ c ∈ branches, ∃ e, s.entryFor key c = some e ∧ k ∈ kindsOf e.value) ∨
      k ∈ kindsOf (s.lookup w key) ∧
        ((∃ c ∈ branches, s.entryFor key c = none) ∨
          ∀ c ∈ branches, ∀ e, s.entryFor key c = some e → e.value = none) := by
  rw [lookup_merge hs] at hk
  split at hk
  next h =>
    obtain ⟨t, ht, hk⟩ := (Ty.mem_kinds_union h.2).mp hk
    rcases mem_mergedValue.mp ht with ⟨c, hc, e, he, ht⟩ | ⟨hmissing, ht⟩
    · exact .inl ⟨c, hc, e, he, mem_kindsOf.mpr ⟨t, ht, hk⟩⟩
    · exact .inr ⟨mem_kindsOf.mpr ⟨t, ht, hk⟩, .inl hmissing⟩
  next h =>
    refine .inr ⟨hk, .inr fun c hc e he ↦ ?_⟩
    by_contra hne
    obtain ⟨t, ht⟩ := Option.ne_none_iff_exists'.mp hne
    have hmem : t ∈ s.mergedValue w branches key := mem_mergedValue.mpr (.inl ⟨c, hc, e, he, ht⟩)
    exact h ⟨mem_mergedKeys_of_entryFor hc he, List.ne_nil_of_mem hmem⟩

end Scope

end FlowCompletion
