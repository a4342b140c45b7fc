import FlowCompletion.Proofs.Scope.Merging

namespace FlowCompletion

/-- Globals belong to no frame, and neither do constants, whatever is declared. -/
structure Ownable (name : String) : Prop where
  not_gvar : NameKind.ofName name ≠ .gvar
  not_constant : ¬ (Key.named name).IsConstant

theorem ownable_of_kind {name : String} {kind : NameKind} (h : NameKind.ofName name = kind)
    (hkind : kind ≠ .gvar ∧ kind ≠ .const) : Ownable name := by
  subst h
  exact ⟨hkind.1, Key.not_isConstant_named hkind.2⟩

/-- The name belongs to the frame, now or when control has left it. -/
structure Frame.Owns (name : String) (level : Nat) (f : Frame) : Prop where
  has : f.has (.named name) = true
  hasFrozen : ∀ c ∈ f.frozen, Table.contains c (.named name) = true
  levels : f.All fun entry ↦ entry.1 = .named name → entry.2.level = level

namespace Scope

variable {name : String} {w : World}

theorem levelIn_of_owns {f : Frame} {outer : List Frame} (hkind : NameKind.ofName name ≠ .gvar)
    (hf : f.Owns name (outer.length + 1)) :
    levelIn (.named name) (f :: outer) = outer.length + 1 := by
  obtain ⟨e, he⟩ := Option.isSome_iff_exists.mp hf.has
  have hlevel := hf.levels.1 _ (Table.mem_of_get? he) rfl
  simp only [levelIn, Key.kind_named, he]
  split
  · rfl
  · exact hlevel

end Scope

namespace Frame

variable {name : String} {f g : Frame} {outer : List Frame}

theorem Step.owns (hname : Ownable name) (h : f.Step outer g)
    (hf : f.Owns name (outer.length + 1)) : g.Owns name (outer.length + 1) := by
  have hlevels : g.All fun entry ↦ entry.1 = .named name → entry.2.level = outer.length + 1 := by
    refine h.all hf.levels ?_ ?_ ?_
    · rintro key t rfl
      exact Scope.levelIn_of_owns hname.not_gvar hf
    · exact fun address other t hkey ↦ absurd ⟨_, _, hkey.symm⟩ hname.not_constant
    · intro label level t hlevel hlabel
      obtain rfl : label = name := Key.named_inj.mp hlabel
      rwa [if_pos hf.has] at hlevel
  have hinsert (key : Key) (e : Entry) :
      Table.contains (Table.insert f.table key e) (.named name) = true := by
    have hhas : Table.contains f.table (.named name) = true := hf.has
    rw [Table.contains_insert, hhas, Bool.or_true]
  cases h with
  | write key t => exact ⟨hinsert _ _, hf.hasFrozen, hlevels⟩
  | constant m name t => exact ⟨hinsert _ _, hf.hasFrozen, hlevels⟩
  | terminate ht =>
    refine ⟨hf.has, fun c hc ↦ ?_, hlevels⟩
    obtain rfl := Option.mem_some.mp hc
    exact hf.has
  | leave label level t ht hl =>
    refine ⟨hinsert _ _, fun c hc ↦ ?_, hlevels⟩
    obtain rfl := Option.mem_some.mp hc
    exact hinsert _ _
  | forgetJumps ht => exact ⟨hf.has, hf.hasFrozen, hlevels⟩
  | reopen ht =>
    refine ⟨?_, nofun, hlevels⟩
    change Table.contains f.changes _ = true
    cases hfrozen : f.frozen with
    | none =>
      rw [Frame.changes, hfrozen]
      exact hf.has
    | some c =>
      rw [Frame.changes, hfrozen]
      exact hf.hasFrozen c hfrozen

end Frame

namespace Scope

variable {name : String} {w : World}

theorem Evolves.owns {s t : Scope} (hname : Ownable name) (h : Evolves s t)
    (hs : s.Inner (Frame.Owns name s.level)) : t.Inner (Frame.Owns name s.level) := by
  induction h with
  | refl => exact hs
  | tail hst hm ih =>
    have hlevel := Evolves.level hst
    cases hm with
    | inner hstep =>
      intro g hg
      obtain rfl := Option.mem_some.mp hg
      have hf := ih _ rfl
      rw [← hlevel] at hf ⊢
      exact hstep.owns hname hf
    | recorded _ label value changes =>
      refine ih.record ?_ label value changes
      rintro f g ⟨js, rfl⟩ hf
      exact ⟨hf.has, hf.hasFrozen, hf.levels⟩

theorem owns_enter (s : Scope) (frame : Frame) {declared : List (String × Option Ty)}
    (hdeclared : name ∈ declared.map Prod.fst) :
    (s.enter frame declared).Inner (Frame.Owns name (s.level + 1)) := by
  intro f hf
  obtain rfl := Option.mem_some.mp hf
  refine ⟨Table.contains_ofList ?_, nofun, ⟨fun entry hentry _ ↦ ?_, nofun⟩⟩
  · obtain ⟨d, hd, rfl⟩ := List.mem_map.mp hdeclared
    exact List.mem_map.mpr ⟨_, List.mem_map_of_mem hd, rfl⟩
  · obtain ⟨d, -, rfl⟩ := List.mem_map.mp (Table.mem_of_mem_ofList hentry)
    rfl

theorem Evolves.level_of_declared {s t : Scope} {frame : Frame}
    {declared : List (String × Option Ty)} (hname : Ownable name)
    (hdeclared : name ∈ declared.map Prod.fst) (h : Evolves (s.enter frame declared) t) :
    ∀ entry ∈ t.leave.1.changes, entry.1 = .named name → entry.2.level = s.level + 1 := by
  have hend := h.owns hname (owns_enter s frame hdeclared)
  obtain ⟨root, _ | ⟨f, outer⟩⟩ := t
  · exact fun entry hentry ↦ by cases hentry
  · exact (hend f rfl).levels.changes

theorem update_of_level_lt {root : Root} {f : Frame} {outer : List Frame} {key : Key}
    {changes : Changes} (h : ∀ entry ∈ changes, entry.1 = key → outer.length + 1 < entry.2.level) :
    ∃ table, update ⟨root, f :: outer⟩ changes = ⟨root, { f with table } :: outer⟩ ∧
      ∀ entry ∈ table, entry.1 = key → entry ∈ f.table := by
  obtain ⟨table, hupdate, hmem⟩ := writes_update ⟨root, f :: outer⟩ changes
  refine ⟨table, hupdate, fun entry hentry hkey ↦ ?_⟩
  rcases hmem entry hentry with ⟨e, he, hle⟩ | hold
  · exact absurd (h _ he hkey) (Nat.not_lt.mpr hle)
  · exact hold

theorem Evolves.nested_of_declared {root : Root} {f : Frame} {outer : List Frame} {t : Scope}
    {frame : Frame} {declared : List (String × Option Ty)} (hname : Ownable name)
    (hdeclared : name ∈ declared.map Prod.fst)
    (h : Evolves (enter ⟨root, f :: outer⟩ frame declared) t) :
    ∃ g outer', t.outer.update t.leave.1.changes = ⟨root, g :: outer'⟩ ∧
      List.Forall₂ Frame.Awaits outer outer' ∧ g.frozen = f.frozen ∧
        ∀ entry ∈ g.table, entry.1 = .named name → entry ∈ f.table := by
  have hroot : t.outer.root = root := h.root
  have hawaits : List.Forall₂ Frame.Awaits (f :: outer) t.outer.frames := h.awaits_outer
  have hlevels := h.level_of_declared hname hdeclared
  generalize t.outer = u at hroot hawaits
  obtain ⟨_, frames⟩ := u
  obtain rfl := hroot
  obtain ⟨_, outer', ⟨js, rfl⟩, hrest, rfl⟩ := List.forall₂_cons_left_iff.mp hawaits
  have hlt : ∀ entry ∈ t.leave.1.changes, entry.1 = .named name →
      outer'.length + 1 < entry.2.level := by
    intro entry hentry hkey
    rw [hlevels entry hentry hkey, ← hrest.length_eq]
    exact Nat.lt_succ_self _
  obtain ⟨table, hupdate, hmem⟩ := update_of_level_lt hlt
  exact ⟨_, outer', hupdate, hrest, rfl, hmem⟩

theorem lookup_joinBranches {s : Scope} {v : World} {key : Key} {branches : List Frame}
    (h : ∀ f ∈ branches, ∀ entry ∈ f.changes, entry.1 ≠ key) :
    (s.joinBranches v branches).lookup w key = s.lookup w key := by
  have hkey (t : Scope) : key ∉ t.mergedKeys
      ((branches.filter fun f ↦ !f.terminated).map Frame.changes) := by
    intro hmem
    obtain ⟨c, hc, entry, hentry, hentrykey, -⟩ := exists_mem_of_mem_mergedKeys hmem
    obtain ⟨f, hf, rfl⟩ := List.mem_map.mp hc
    exact h f (List.mem_filter.mp hf).1 entry hentry hentrykey
  rw [joinBranches, lookup_merge_of_not_mem (hkey _)]
  split
  · exact lookup_terminate s w key
  · rfl

theorem lookup_conditional_of_declared {s t : Scope} {v : World} {frame : Frame}
    {declared : List (String × Option Ty)} (hname : Ownable name)
    (hdeclared : name ∈ declared.map Prod.fst)
    (h : Evolves ((s.enter {} []).enter frame declared) t) :
    ((t.outer.update t.leave.1.changes).outer.joinBranches v
      [(t.outer.update t.leave.1.changes).leave.1, {}]).lookup w (.named name) =
        s.lookup w (.named name) := by
  obtain ⟨g, outer, hupdate, hrest, hfrozen, hmem⟩ := h.nested_of_declared hname hdeclared
  have hchanges : g.changes = g.table := by
    rw [Frame.changes, hfrozen]
    rfl
  rw [hupdate, lookup_joinBranches]
  · exact lookupIn_of_awaits hrest
  · intro f hf entry hentry hkey
    rcases List.mem_cons.mp hf with hf | hf
    · have hfg : f = g := hf
      rw [hfg, hchanges] at hentry
      cases hmem entry hentry hkey
    · obtain rfl := List.mem_singleton.mp hf
      cases hentry

end Scope

end FlowCompletion
