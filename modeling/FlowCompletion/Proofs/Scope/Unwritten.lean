import FlowCompletion.Proofs.Scope.Merging

namespace FlowCompletion

namespace Scope

/-- The least level at which entries for a name may stand: the first frame above the base that has
the name, or else a frame that is still to be entered. -/
def floorIn (name : String) (base : Nat) : List Frame → Nat
  | [] => 1
  | f :: rest =>
    if floorIn name base rest ≤ rest.length ∨ base ≤ rest.length ∧ f.has (.named name) = true then
      floorIn name base rest
    else rest.length + 2

variable {name : String} {base : Nat} {f g : Frame} {rest : List Frame}

theorem floorIn_le (frames : List Frame) : floorIn name base frames ≤ frames.length + 1 := by
  induction frames with
  | nil => exact Nat.le_refl _
  | cons f rest ih =>
    rw [floorIn]
    split
    · exact Nat.le_succ_of_le ih
    · exact Nat.le_refl _

theorem floorIn_mono (f : Frame) (rest : List Frame) :
    floorIn name base rest ≤ floorIn name base (f :: rest) := by
  rw [floorIn]
  split
  · exact Nat.le_refl _
  · exact Nat.le_succ_of_le (floorIn_le rest)

theorem floorIn_of_le {frames : List Frame} (h : frames.length ≤ base) :
    floorIn name base frames = frames.length + 1 := by
  induction frames with
  | nil => rfl
  | cons f rest ih =>
    have hrest : rest.length < base := h
    rw [floorIn, ih (Nat.le_of_lt hrest), if_neg]
    · rfl
    · omega

def Held (name : String) (base : Nat) (frames : List Frame) : Prop :=
  floorIn name base frames ≤ frames.length

theorem held_cons : Held name base (f :: rest) ↔
    Held name base rest ∨ base ≤ rest.length ∧ f.has (.named name) = true := by
  have hle : floorIn name base rest ≤ rest.length + 1 := floorIn_le rest
  rw [Held, Held, floorIn]
  split
  case isTrue h => exact iff_of_true hle h
  case isFalse h => exact iff_of_false (Nat.not_succ_le_self _) h

theorem base_le_of_held (h : Held name base (f :: rest)) : base ≤ rest.length := by
  by_contra hlt
  rw [Held, floorIn_of_le (Nat.not_le.mp hlt)] at h
  exact Nat.not_succ_le_self _ h

theorem floorIn_cons_of_held (h : Held name base (f :: rest)) :
    floorIn name base (f :: rest) = floorIn name base rest := by
  rw [floorIn, if_pos]
  exact held_cons.mp h

theorem floorIn_cons_congr (h : f.has (.named name) = g.has (.named name) ∨ Held name base rest) :
    floorIn name base (f :: rest) = floorIn name base (g :: rest) := by
  rcases h with h | h
  · rw [floorIn, floorIn, h]
  · rw [floorIn_cons_of_held (held_cons.mpr (.inl h)),
      floorIn_cons_of_held (held_cons.mpr (.inl h))]

def Above (name : String) (base : Nat) (frames : List Frame) (changes : Changes) : Prop :=
  ∀ e ∈ changes, e.1 = .named name → floorIn name base frames ≤ e.2.level

theorem Above.insert {frames : List Frame} {changes : Changes} (h : Above name base frames changes)
    {key : Key} (hkey : key ≠ .named name) (e : Entry) :
    Above name base frames (Table.insert changes key e) :=
  Frame.forall_mem_insert h fun heq ↦ absurd heq hkey

theorem Above.congr {frames frames' : List Frame} {changes : Changes}
    (h : Above name base frames changes)
    (hfloor : floorIn name base frames' = floorIn name base frames) :
    Above name base frames' changes := by
  rwa [Above, hfloor]

theorem Above.outer {changes : Changes} (h : Above name base (f :: rest) changes) :
    Above name base rest changes :=
  fun e he hkey ↦ Nat.le_trans (floorIn_mono f rest) (h e he hkey)

end Scope

open Scope in
/-- A frame above the base: entries for the name keep to the floor, also in the branches that wait
to be merged. -/
structure Frame.Apart (name : String) (base : Nat) (rest : List Frame) (f : Frame) : Prop where
  entries : f.All fun e ↦ e.1 = .named name → floorIn name base (f :: rest) ≤ e.2.level
  jumps : ∀ b ∈ f.jumps, Above name base (f :: rest) b
  frozen : Held name base rest ∨
    ∀ c ∈ f.frozen, Table.contains c (.named name) = f.has (.named name)
  kind : f.has (.named name) = true → NameKind.ofName name ≠ .gvar

namespace Scope

variable {name : String} {base : Nat} {f g : Frame} {rest : List Frame}

def ApartIn (name : String) (base : Nat) : List Frame → Prop
  | [] => True
  | f :: rest => (base ≤ rest.length → f.Apart name base rest) ∧ ApartIn name base rest

theorem apartIn_of_le {frames : List Frame} (h : frames.length ≤ base) :
    ApartIn name base frames := by
  induction frames with
  | nil => trivial
  | cons f rest ih =>
    exact ⟨fun hge ↦ absurd h (Nat.not_le.mpr (Nat.lt_succ_of_le hge)), ih (Nat.le_of_lt h)⟩

theorem kind_of_held {frames : List Frame} (h : ApartIn name base frames)
    (hheld : Held name base frames) : NameKind.ofName name ≠ .gvar := by
  induction frames with
  | nil => exact absurd hheld (Nat.not_succ_le_zero _)
  | cons f rest ih =>
    rcases held_cons.mp hheld with hrest | ⟨hbase, hhas⟩
    · exact ih h.2 hrest
    · exact (h.1 hbase).kind hhas

theorem floorIn_le_levelIn {frames : List Frame} (h : ApartIn name base frames)
    (hheld : Held name base frames) :
    floorIn name base frames ≤ levelIn (.named name) frames := by
  have hkind := kind_of_held h hheld
  induction frames with
  | nil => exact absurd hheld (Nat.not_succ_le_zero _)
  | cons f rest ih =>
    simp only [levelIn, Key.kind_named]
    split
    case isTrue => exact hheld
    case isFalse =>
      cases hget : Table.get? f.table (.named name) with
      | some e => exact (h.1 (base_le_of_held hheld)).entries.1 _ (Table.mem_of_get? hget) rfl
      | none =>
        dsimp only
        split
        case isTrue => exact hheld
        case isFalse =>
          have hhas : ¬ f.has (.named name) = true := by simp [Frame.has, Table.contains, hget]
          have hrest := (held_cons.mp hheld).resolve_right fun h ↦ hhas h.2
          rw [floorIn_cons_of_held hheld]
          exact ih h.2 hrest

/-- Nothing has happened to the name in the frame at the base, and frames above it still keep
apart. -/
structure Leaves (name : String) (base : Nat) (s t : Scope) : Prop where
  apart : ApartIn name base t.frames
  floor : floorIn name base t.frames = floorIn name base s.frames
  level : t.level = s.level
  lookup : s.level = base → ∀ w, t.lookup w (.named name) = s.lookup w (.named name)

variable {s t u : Scope}

theorem Leaves.refl (h : ApartIn name base s.frames) : Leaves name base s s :=
  ⟨h, rfl, rfl, fun _ _ ↦ rfl⟩

theorem Leaves.trans (hst : Leaves name base s t) (htu : Leaves name base t u) :
    Leaves name base s u := by
  refine ⟨htu.apart, htu.floor.trans hst.floor, htu.level.trans hst.level, fun hbase w ↦ ?_⟩
  exact (htu.lookup (hst.level.trans hbase) w).trans (hst.lookup hbase w)

theorem Leaves.held (h : Leaves name base s t) (hs : Held name base s.frames) :
    Held name base t.frames := by
  have hlength : t.frames.length = s.frames.length := h.level
  rwa [Held, h.floor, hlength]

theorem leaves_frame {root : Root} (hs : ApartIn name base (f :: rest))
    (hhas : g.has (.named name) = f.has (.named name) ∨ Held name base rest)
    (hg : f.Apart name base rest → floorIn name base (g :: rest) = floorIn name base (f :: rest) →
      g.Apart name base rest)
    (hlookup : rest.length + 1 = base → ∀ w,
      Scope.lookup ⟨root, g :: rest⟩ w (.named name) =
        Scope.lookup ⟨root, f :: rest⟩ w (.named name)) :
    Leaves name base ⟨root, f :: rest⟩ ⟨root, g :: rest⟩ :=
  have hfloor := floorIn_cons_congr hhas
  ⟨⟨fun hbase ↦ hg (hs.1 hbase) hfloor, hs.2⟩, hfloor, rfl, hlookup⟩

theorem leaves_setEntry (hs : ApartIn name base s.frames) {key : Key} (hkey : key ≠ .named name)
    (e : Entry) : Leaves name base s (s.setEntry key e) := by
  obtain ⟨root, _ | ⟨f, rest⟩⟩ := s
  · exact .refl hs
  have hhas : Table.contains (Table.insert f.table key e) (.named name) = f.has (.named name) := by
    rw [Table.contains_insert, decide_eq_false hkey.symm, Bool.false_or]
    rfl
  refine leaves_frame hs (.inl hhas) (fun hf hfloor ↦ ?_) fun _ w ↦ ?_
  · refine ⟨?_, ?_, ?_, fun h ↦ hf.kind (hhas ▸ h)⟩
    · rw [hfloor]
      exact ⟨Frame.forall_mem_insert hf.entries.1 fun h ↦ absurd h hkey, hf.entries.2⟩
    · exact fun b hb ↦ (hf.jumps b hb).congr hfloor
    · exact hf.frozen.imp_right fun h c hc ↦ (h c hc).trans hhas.symm
  · have hread : (setEntry ⟨root, f :: rest⟩ key e).lookup w (.named name) = _ :=
      lookup_setEntry (List.cons_ne_nil f rest) e
    rwa [if_neg hkey.symm] at hread

theorem leaves_setKey_of_held (hs : ApartIn name base s.frames) (hheld : Held name base s.frames)
    (value : Option Ty) : Leaves name base s (s.setKey (.named name) value) := by
  obtain ⟨root, _ | ⟨f, rest⟩⟩ := s
  · exact .refl hs
  have hlevel : floorIn name base (f :: rest) ≤ levelIn (.named name) (f :: rest) :=
    floorIn_le_levelIn hs hheld
  have hinsert (e : Entry) :
      Table.contains (Table.insert f.table (.named name) e) (.named name) = true := by
    rw [Table.contains_insert, decide_eq_true rfl, Bool.true_or]
  have hcases : f.has (.named name) = true ∨ Held name base rest :=
    (held_cons.mp hheld).symm.imp_left And.right
  refine leaves_frame hs (hcases.imp_left fun h ↦ (hinsert _).trans h.symm) (fun hf hfloor ↦ ?_)
    fun hbase w ↦ ?_
  · refine ⟨?_, ?_, ?_, fun _ ↦ kind_of_held hs hheld⟩
    · rw [hfloor]
      exact ⟨Frame.forall_mem_insert hf.entries.1 fun _ ↦ hlevel, hf.entries.2⟩
    · exact fun b hb ↦ (hf.jumps b hb).congr hfloor
    · rcases hcases with hhas | hrest
      · exact hf.frozen.imp_right fun h c hc ↦ ((h c hc).trans hhas).trans (hinsert _).symm
      · exact .inl hrest
  · exact absurd (base_le_of_held hheld) (by omega)

theorem leaves_setKey (hs : ApartIn name base s.frames) {key : Key}
    (hheld : key = .named name → Held name base s.frames) (value : Option Ty) :
    Leaves name base s (s.setKey key value) := by
  by_cases hkey : key = .named name
  · subst hkey
    exact leaves_setKey_of_held hs (hheld rfl) value
  · exact leaves_setEntry hs hkey _

theorem leaves_terminate (hs : ApartIn name base s.frames) : Leaves name base s s.terminate := by
  obtain ⟨root, _ | ⟨f, rest⟩⟩ := s
  · exact .refl hs
  cases ht : f.terminated with
  | true =>
    rw [terminate_eq_self ht]
    exact .refl hs
  | false =>
    have hread (w : World) := lookup_terminate ⟨root, f :: rest⟩ w (.named name)
    rw [terminate_eq ht] at hread ⊢
    refine leaves_frame hs (.inl rfl) (fun hf hfloor ↦ ?_) fun _ ↦ hread
    refine ⟨⟨hf.entries.1, fun c hc ↦ ?_⟩, hf.jumps, .inr fun c hc ↦ ?_, hf.kind⟩
    all_goals obtain rfl := Option.mem_some.mp hc
    · exact hf.entries.1
    · rfl

theorem floorIn_of_awaits {fs gs : List Frame} (h : List.Forall₂ Frame.Awaits fs gs) :
    floorIn name base gs = floorIn name base fs := by
  induction h with
  | nil => rfl
  | cons hfg hrest ih =>
    obtain ⟨js, rfl⟩ := hfg
    simp only [floorIn, ih, hrest.length_eq]
    rfl

theorem held_of_awaits {fs gs : List Frame} (h : List.Forall₂ Frame.Awaits fs gs) :
    Held name base gs ↔ Held name base fs := by
  rw [Held, Held, floorIn_of_awaits h, h.length_eq]

theorem apart_of_awaits {rest' : List Frame} (h : List.Forall₂ Frame.Awaits rest rest')
    (hf : f.Apart name base rest) : f.Apart name base rest' := by
  have hfloor : floorIn name base (f :: rest') = floorIn name base (f :: rest) :=
    floorIn_of_awaits (.cons (.refl f) h)
  refine ⟨?_, fun b hb ↦ (hf.jumps b hb).congr hfloor, ?_, hf.kind⟩
  · rw [hfloor]
    exact hf.entries
  · exact hf.frozen.imp_left (held_of_awaits h).mpr

theorem apartIn_storeJump {label : String} (hlabel : label ≠ name) {value : Ty} {changes : Changes}
    {frames : List Frame} (hs : ApartIn name base frames)
    (hchanges : Above name base frames changes) :
    ApartIn name base (storeJump label value changes frames).1 := by
  induction frames with
  | nil => trivial
  | cons f rest ih =>
    have hawaits := storeJump_awaits label value changes rest
    simp only [storeJump]
    split
    · exact hs
    split
    · refine ⟨fun hbase ↦ ?_, hs.2⟩
      have hf := hs.1 hbase
      refine ⟨hf.entries, fun b hb ↦ ?_, hf.frozen, hf.kind⟩
      rcases List.mem_append.mp hb with hb | hb
      · exact hf.jumps b hb
      · obtain rfl := List.mem_singleton.mp hb
        exact hchanges.insert (fun h ↦ hlabel (Key.named_inj.mp h)) _
    · refine ⟨fun hbase ↦ apart_of_awaits hawaits (hs.1 ?_), ih hs.2 hchanges.outer⟩
      rwa [hawaits.length_eq]

theorem leaves_record {label : String} (hlabel : label ≠ name) {value : Ty} {changes : Changes}
    (hs : ApartIn name base s.frames)
    (hchanges : base < s.level → Above name base s.frames changes) :
    Leaves name base s (s.record label value changes) := by
  have hawaits := storeJump_awaits label value changes s.frames
  have hlevel := level_record s label value changes
  refine ⟨?_, floorIn_of_awaits hawaits, hlevel, fun _ w ↦ lookupIn_of_awaits hawaits⟩
  rcases Nat.lt_or_ge base s.level with hlt | hge
  · exact apartIn_storeJump hlabel hs (hchanges hlt)
  · exact apartIn_of_le (Nat.le_trans (Nat.le_of_eq hlevel) hge)

theorem leaves_jump {label : String} (hlabel : label ≠ name) (value : Ty)
    (hs : ApartIn name base s.frames) : Leaves name base s (s.jump label value) := by
  obtain ⟨root, _ | ⟨f, rest⟩⟩ := s
  · exact .refl hs
  cases ht : f.terminated with
  | true =>
    rw [jump_eq_self ht]
    exact .refl hs
  | false =>
    rw [jump_eq ht]
    have hrecord : Leaves name base ⟨root, f :: rest⟩
        (record ⟨root, f :: rest⟩ label value f.table) :=
      leaves_record hlabel hs fun hlt ↦ (hs.1 (Nat.le_of_lt_succ hlt)).entries.1
    split
    case h_1 level _ =>
      have hkey : Key.named label ≠ .named name := fun h ↦ hlabel (Key.named_inj.mp h)
      have hentry := leaves_setEntry hrecord.apart hkey ⟨level, some value⟩
      exact (hrecord.trans hentry).trans (leaves_terminate hentry.apart)
    case h_2 => exact hrecord.trans (leaves_terminate hrecord.apart)

theorem leaves_update {changes : Changes} (hs : ApartIn name base s.frames)
    (hchanges : Above name base s.frames changes) : Leaves name base s (s.update changes) := by
  induction changes generalizing s with
  | nil => exact .refl hs
  | cons entry changes ih =>
    obtain ⟨key, e⟩ := entry
    obtain ⟨hentry, hrest⟩ := List.forall_mem_cons.mp hchanges
    rw [update_cons]
    split
    case isTrue hle =>
      have hset : Leaves name base s (s.setKey key e.value) :=
        leaves_setKey hs (fun hkey ↦ Nat.le_trans (hentry hkey) hle) e.value
      exact hset.trans (ih hset.apart (Above.congr hrest hset.floor))
    case isFalse => exact ih hs hrest

theorem leaves_merge {branches : List Changes} (hs : ApartIn name base s.frames)
    (hbranches : ∀ b ∈ branches, Above name base s.frames b) (w : World) :
    Leaves name base s (s.merge w branches) := by
  have hheld (hkey : .named name ∈ s.mergedKeys branches) : Held name base s.frames := by
    obtain ⟨b, hb, e, he, heq, hle⟩ := exists_mem_of_mem_mergedKeys hkey
    exact Nat.le_trans (hbranches b hb e he heq) hle
  apply merge_induct (.refl hs)
  intro t key hmem ht
  exact ht.trans (leaves_setKey ht.apart (fun hkey ↦ ht.held (hheld (hkey ▸ hmem))) _)

theorem leaves_joinBranches {branches : List Frame} (hs : ApartIn name base s.frames)
    (hbranches : ∀ f ∈ branches, Above name base s.frames f.changes) (w : World) :
    Leaves name base s (s.joinBranches w branches) := by
  have hchanges : ∀ b ∈ (branches.filter fun f ↦ !f.terminated).map Frame.changes,
      Above name base s.frames b := by
    intro b hb
    obtain ⟨f, hf, rfl⟩ := List.mem_map.mp hb
    exact hbranches f (List.mem_filter.mp hf).1
  rw [joinBranches]
  split
  · have hend := leaves_terminate hs
    exact hend.trans (leaves_merge hend.apart (fun b hb ↦ (hchanges b hb).congr hend.floor) w)
  · exact leaves_merge hs hchanges w

theorem leaves_mergeJumps (hs : ApartIn name base s.frames) (hbase : base < s.level) (w : World) :
    Leaves name base s (s.mergeJumps w) := by
  obtain ⟨root, _ | ⟨f, rest⟩⟩ := s
  · exact absurd hbase (Nat.not_lt_zero _)
  have hf : f.Apart name base rest := hs.1 (Nat.le_of_lt_succ hbase)
  have hnot : rest.length + 1 ≠ base := Nat.ne_of_gt hbase
  cases ht : f.terminated with
  | true =>
    rw [mergeJumps_of_terminated ht]
    have hhas : Table.contains f.changes (.named name) = f.has (.named name) ∨
        Held name base rest := by
      refine hf.frozen.symm.imp_left fun h ↦ ?_
      cases hfrozen : f.frozen with
      | none =>
        rw [Frame.changes, hfrozen]
        rfl
      | some c =>
        rw [Frame.changes, hfrozen]
        exact h c hfrozen
    have hreopen : Leaves name base ⟨root, f :: rest⟩
        ⟨root, { f with jumps := [], table := f.changes, frozen := none } :: rest⟩ := by
      refine leaves_frame hs hhas (fun hf hfloor ↦ ?_) fun h ↦ absurd h hnot
      refine ⟨?_, List.forall_mem_nil _, .inr fun c hc ↦ ?_, fun h ↦ ?_⟩
      · rw [hfloor]
        exact ⟨hf.entries.changes, fun c hc ↦ by cases hc⟩
      · cases hc
      · rcases hhas with hhas | hrest
        · exact hf.kind (hhas ▸ h)
        · exact kind_of_held hs.2 hrest
    exact hreopen.trans (leaves_merge hreopen.apart
      (fun b hb ↦ (hf.jumps b hb).congr hreopen.floor) w)
  | false =>
    rw [mergeJumps_of_not_terminated ht]
    have hforget : Leaves name base ⟨root, f :: rest⟩ ⟨root, { f with jumps := [] } :: rest⟩ :=
      leaves_frame hs (.inl rfl)
        (fun hf _ ↦ ⟨hf.entries, List.forall_mem_nil _, hf.frozen, hf.kind⟩)
        fun h ↦ absurd h hnot
    refine hforget.trans (leaves_merge hforget.apart (fun b hb ↦ ?_) w)
    rcases List.mem_append.mp hb with hb | hb
    · exact (hf.jumps b hb).congr hforget.floor
    · obtain rfl := List.mem_singleton.mp hb
      exact List.forall_mem_nil _

variable {frame : Frame} {declared : List (String × Option Ty)}

theorem held_enter (hbase : base ≤ s.level)
    (h : name ∈ declared.map Prod.fst ∨ Held name base s.frames) :
    Held name base (s.enter frame declared).frames := by
  refine held_cons.mpr (h.symm.imp_right fun hname ↦ ⟨hbase, Table.contains_ofList ?_⟩)
  obtain ⟨d, hd, rfl⟩ := List.mem_map.mp hname
  exact List.mem_map.mpr ⟨_, List.mem_map_of_mem hd, rfl⟩

theorem apartIn_enter (hs : ApartIn name base s.frames) (hbase : base ≤ s.level)
    (hkind : name ∈ declared.map Prod.fst → NameKind.ofName name ≠ .gvar) :
    ApartIn name base (s.enter frame declared).frames := by
  have hdeclared {e : Key × Entry} (he : e ∈ (s.enter frame declared).leave.1.table)
      (hkey : e.1 = .named name) : name ∈ declared.map Prod.fst ∧ e.2.level = s.level + 1 := by
    obtain ⟨d, hd, rfl⟩ := List.mem_map.mp (Table.mem_of_mem_ofList he)
    exact ⟨List.mem_map.mpr ⟨d, hd, Key.named_inj.mp hkey⟩, rfl⟩
  refine ⟨fun _ ↦ ⟨⟨fun e he hkey ↦ ?_, nofun⟩, nofun, .inr nofun, fun hhas ↦ ?_⟩, hs⟩
  · obtain ⟨hname, hlevel⟩ := hdeclared he hkey
    rw [hlevel]
    exact held_enter hbase (.inl hname)
  · obtain ⟨e, he⟩ := Option.isSome_iff_exists.mp hhas
    exact hkind (hdeclared (Table.mem_of_get? he) rfl).1

theorem leaves_outer (hbase : base ≤ s.level) (h : Evolves (s.enter frame declared) t)
    (ht : ApartIn name base t.frames) :
    Leaves name base s t.outer ∧ Above name base s.frames t.leave.1.changes := by
  have hawaits : List.Forall₂ Frame.Awaits s.frames t.outer.frames := h.awaits_outer
  have hroot : t.root = s.root := h.root
  have hlevel : t.level = s.level + 1 := h.level
  obtain ⟨root, _ | ⟨f, rest⟩⟩ := t
  · cases hlevel
  have hlength : rest.length = s.level := Nat.succ.inj hlevel
  refine ⟨⟨ht.2, floorIn_of_awaits hawaits, hlength, fun _ w ↦ ?_⟩, ?_⟩
  · rw [lookup, lookup, ← hroot]
    exact lookupIn_of_awaits hawaits
  · have hchanges : Above name base (f :: rest) f.changes :=
      (ht.1 (hlength ▸ hbase)).entries.changes
    exact hchanges.outer.congr (floorIn_of_awaits hawaits).symm

theorem leaves_nested (hbase : base ≤ s.level) (h : Evolves (s.enter frame declared) t)
    (ht : ApartIn name base t.frames) :
    Leaves name base s (t.outer.update t.leave.1.changes) := by
  obtain ⟨houter, hchanges⟩ := leaves_outer hbase h ht
  exact houter.trans (leaves_update houter.apart (hchanges.congr houter.floor))

end Scope

end FlowCompletion
