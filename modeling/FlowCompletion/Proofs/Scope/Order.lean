import FlowCompletion.Proofs.Scope.Constants
import FlowCompletion.Proofs.Scope.WriteBack

namespace FlowCompletion

namespace Scope

variable {w : World} {s t : Scope} {key other : Key}

def ownEntry (s : Scope) (key : Key) : Option Entry := Table.get? s.leave.1.table key

/-- The scopes differ at most in the order in which the innermost frame keeps its entries. -/
def SameEntries (s t : Scope) : Prop :=
  ∃ table, t = s.retable table ∧ ∀ key, Table.get? table key = s.ownEntry key

theorem sameEntries_of_ownEntry {table table' : Changes}
    (h : s.frames ≠ [] → ∀ key, (s.retable table').ownEntry key = (s.retable table).ownEntry key) :
    SameEntries (s.retable table) (s.retable table') := by
  obtain ⟨root, _ | ⟨f, outer⟩⟩ := s
  · exact ⟨[], rfl, fun _ ↦ rfl⟩
  · exact ⟨table', rfl, h (List.cons_ne_nil _ _)⟩

namespace SameEntries

theorem ownEntry_eq (h : SameEntries s t) (key : Key) : t.ownEntry key = s.ownEntry key := by
  obtain ⟨table, rfl, hget⟩ := h
  obtain ⟨root, _ | ⟨f, outer⟩⟩ := s
  · rfl
  · exact hget key

theorem lookup_eq (h : SameEntries s t) (w : World) (key : Key) :
    t.lookup w key = s.lookup w key := by
  obtain ⟨table, rfl, hget⟩ := h
  obtain ⟨root, _ | ⟨f, outer⟩⟩ := s
  · rfl
  · exact lookupIn_congr (hget key) rfl rfl rfl rfl

theorem levelOf_eq (h : SameEntries s t) (key : Key) : t.levelOf key = s.levelOf key := by
  obtain ⟨table, rfl, hget⟩ := h
  obtain ⟨root, _ | ⟨f, outer⟩⟩ := s
  · rfl
  · have hkey : Table.get? table key = Table.get? f.table key := hget key
    simp only [retable, modifyFrame, levelOf, levelIn, hkey]

theorem constant?_eq (h : SameEntries s t) (w : World) (m : ModuleId) (name : String) :
    t.constant? w m name = s.constant? w m name := by
  obtain ⟨table, rfl, hget⟩ := h
  obtain ⟨root, _ | ⟨f, outer⟩⟩ := s
  · rfl
  · have hkey : Table.get? table (w.constantKey m name) =
        Table.get? f.table (w.constantKey m name) := hget (w.constantKey m name)
    simp only [retable, modifyFrame, Scope.constant?_eq, writtenConstant, List.findSome?_cons, hkey]

theorem names_eq (h : SameEntries s t) (w : World) :
    t.locals = s.locals ∧ t.ivars w = s.ivars w ∧ t.cvars w = s.cvars w ∧ t.gvars = s.gvars ∧
      t.constants w = s.constants w := by
  obtain ⟨table, rfl, hget⟩ := h
  obtain ⟨root, _ | ⟨f, outer⟩⟩ := s
  · exact ⟨rfl, rfl, rfl, rfl, rfl⟩
  have hmem (key : Key) : key ∈ Table.keys table ↔ key ∈ Table.keys f.table := by
    have hkey : Table.get? table key = Table.get? f.table key := hget key
    rw [Table.mem_keys, Table.mem_keys, hkey]
  simp only [retable, modifyFrame]
  refine ⟨sortedNames_congr fun name ↦ ?_, sortedNames_congr fun name ↦ ?_,
    sortedNames_congr fun name ↦ ?_, sortedNames_congr fun name ↦ ?_,
    sortedNames_congr fun name ↦ ?_⟩
  · simp only [localsIn, ownNames, List.mem_append, List.mem_map, List.mem_filter, hmem]
  · simp only [ivarsIn, ownNames, List.mem_append, List.mem_map, List.mem_filter, hmem]
    rfl
  · simp only [List.flatMap_cons, ownNames, List.mem_append, List.mem_map, List.mem_filter, hmem]
  · simp only [List.flatMap_cons, ownNames, List.mem_append, List.mem_map, List.mem_filter, hmem]
  · simp only [constantsOf, List.flatMap_cons, List.mem_flatMap, List.mem_append,
      List.mem_filterMap, hmem]
    rfl

theorem snapshot_eq (h : SameEntries s t) (w : World) : t.snapshot w = s.snapshot w := by
  have hself : t.selfType w = s.selfType w ∧ t.nesting = s.nesting := by
    obtain ⟨table, rfl, -⟩ := h
    obtain ⟨root, _ | ⟨f, outer⟩⟩ := s <;> exact ⟨rfl, rfl⟩
  have htypes (name : String) : t.get? w name = s.get? w name := h.lookup_eq w (.named name)
  obtain ⟨hlocals, hivars, hcvars, hgvars, hconstants⟩ := h.names_eq w
  simp only [snapshot, hself, htypes, hlocals, hivars, hcvars, hgvars, hconstants]

end SameEntries

/-- What a name is to be, by what it is; `none` leaves it. -/
abbrev Revision := Option Ty → Option (Option Ty)

def revise (s : Scope) (w : World) (key : Key) (revision : Revision) : Scope :=
  (revision (s.lookup w key)).elim s (s.setKey key)

def reviseAll {α : Type} (s : Scope) (w : World) (revision : α → Revision)
    (items : Table Key α) : Scope :=
  items.foldl (fun s item => s.revise w item.1 (revision item.2)) s

section revise

theorem levelOf_setKey (s : Scope) (key other : Key) (value : Option Ty) :
    (s.setKey key value).levelOf other = s.levelOf other := by
  obtain ⟨root, _ | ⟨f, outer⟩⟩ := s
  · rfl
  simp only [setKey, setEntry, modifyFrame, levelOf]
  by_cases hk : other = key
  · -- Where the level does not come from the table, it is what it was; else it is the one written.
    subst hk
    generalize hlevel : levelIn other (f :: outer) = level
    rw [levelIn, Table.get?_insert, if_pos rfl]
    split
    next hgvar => rw [← hlevel, levelIn, hgvar]
    next hgvar =>
      split
      next hivar =>
        simp only [levelIn, hivar, if_true] at hlevel
        exact hlevel
      next => rfl
  · simp only [levelIn, Table.get?_insert, if_neg hk]

theorem ownEntry_setKey (hs : s.frames ≠ []) (value : Option Ty) :
    (s.setKey key value).ownEntry other =
      if other = key then some ⟨s.levelOf key, value⟩ else s.ownEntry other := by
  obtain ⟨root, _ | ⟨f, outer⟩⟩ := s
  · exact absurd rfl hs
  · exact Table.get?_insert f.table key other _

theorem lookup_setKey_of_ne (hne : other ≠ key) (value : Option Ty) :
    (s.setKey key value).lookup w other = s.lookup w other := by
  by_cases hs : s.frames = []
  · obtain ⟨root, frames⟩ := s
    subst hs
    rfl
  · rw [lookup_setKey hs, if_neg hne]

theorem levelOf_revise (s : Scope) (key other : Key) (revision : Revision) :
    (s.revise w key revision).levelOf other = s.levelOf other := by
  rw [revise]
  cases revision (s.lookup w key) with
  | none => rfl
  | some value => exact levelOf_setKey s key other value

theorem lookup_revise_of_ne (hne : other ≠ key) (revision : Revision) :
    (s.revise w key revision).lookup w other = s.lookup w other := by
  rw [revise]
  cases revision (s.lookup w key) with
  | none => rfl
  | some value => exact lookup_setKey_of_ne hne value

theorem ownEntry_revise (hs : s.frames ≠ []) (revision : Revision) :
    (s.revise w key revision).ownEntry other =
      if other = key then
        ((revision (s.lookup w key)).map (Entry.mk (s.levelOf key))).or (s.ownEntry other)
      else s.ownEntry other := by
  rw [revise]
  cases revision (s.lookup w key) with
  | none => simp
  | some value => simp [ownEntry_setKey hs]

theorem frames_revise_ne_nil (hs : s.frames ≠ []) (revision : Revision) :
    (s.revise w key revision).frames ≠ [] := by
  rw [revise]
  cases revision (s.lookup w key) with
  | none => exact hs
  | some value => exact frames_setKey_ne_nil hs value

variable {α : Type} {revision : α → Revision} {items items' : Table Key α}

theorem ownEntry_reviseAll (hs : s.frames ≠ []) (hdistinct : (Table.keys items).Nodup) (key : Key) :
    (s.reviseAll w revision items).ownEntry key =
      (((Table.get? items key).bind (revision · (s.lookup w key))).map
        (Entry.mk (s.levelOf key))).or (s.ownEntry key) := by
  induction items generalizing s with
  | nil => rfl
  | cons item items ih =>
    obtain ⟨hitem, hrest⟩ := List.nodup_cons.mp hdistinct
    rw [reviseAll, List.foldl_cons, ← reviseAll, ih (frames_revise_ne_nil hs _) hrest,
      levelOf_revise, ownEntry_revise hs, Table.get?_cons]
    by_cases hk : key = item.1
    · -- No later item is of this name.
      rw [Table.get?_eq_none_of_not_mem_keys (hk ▸ hitem), if_pos hk, if_pos hk, ← hk]
      rfl
    · rw [if_neg hk, if_neg hk, lookup_revise_of_ne hk]

theorem exists_reviseAll_eq (s : Scope) (w : World) (revision : α → Revision)
    (items : Table Key α) : ∃ table, s.reviseAll w revision items = s.retable table := by
  have hwrites : Writes (fun _ ↦ True) s (s.reviseAll w revision items) := by
    apply rel_foldl (Writes.refl _) Writes.trans
    intro s item
    rw [revise]
    cases revision item.2 (s.lookup w item.1) with
    | none => exact .refl _ s
    | some value => exact writes_setKey s trivial value
  obtain ⟨table, htable, -⟩ := hwrites
  exact ⟨table, htable⟩

theorem sameEntries_reviseAll (hdistinct : (Table.keys items).Nodup)
    (hdistinct' : (Table.keys items').Nodup)
    (hitems : ∀ key, Table.get? items' key = Table.get? items key) :
    SameEntries (s.reviseAll w revision items) (s.reviseAll w revision items') := by
  obtain ⟨table, htable⟩ := exists_reviseAll_eq s w revision items
  obtain ⟨table', htable'⟩ := exists_reviseAll_eq s w revision items'
  rw [htable, htable']
  apply sameEntries_of_ownEntry
  intro hs key
  rw [← htable, ← htable', ownEntry_reviseAll hs hdistinct, ownEntry_reviseAll hs hdistinct',
    hitems]

/-- The items might as well all read the scope from before, as they do in a merge. -/
theorem reviseAll_reading_before (hdistinct : (Table.keys items).Nodup)
    (hbefore : ∀ key ∈ Table.keys items, t.lookup w key = s.lookup w key) :
    t.reviseAll w revision items =
      items.foldl (fun t item ↦
        t.revise w item.1 fun _ ↦ revision item.2 (s.lookup w item.1)) t := by
  induction items generalizing t with
  | nil => rfl
  | cons item items ih =>
    obtain ⟨hitem, hrest⟩ := List.nodup_cons.mp hdistinct
    obtain ⟨hread, hreads⟩ := List.forall_mem_cons.mp hbefore
    have hfirst : (t.revise w item.1 fun _ ↦ revision item.2 (s.lookup w item.1)) =
        t.revise w item.1 (revision item.2) := by
      rw [revise, revise, hread]
    rw [List.foldl_cons, hfirst]
    apply ih hrest
    intro key hkey
    rw [lookup_revise_of_ne (ne_of_mem_of_not_mem hkey hitem), hreads key hkey]

end revise

def takenOver (level : Nat) (e : Entry) (_before : Option Ty) : Option (Option Ty) :=
  if e.level ≤ level then some e.value else none

theorem update_eq_reviseAll (s : Scope) (w : World) (changes : Changes) :
    s.update changes = s.reviseAll w (takenOver s.level) changes := by
  induction changes generalizing s with
  | nil => rfl
  | cons change changes ih =>
    rw [update_cons, reviseAll, List.foldl_cons, ← reviseAll, revise, takenOver]
    split
    · rw [ih, level_setKey, Option.elim_some]
    · rw [ih, Option.elim_none]

theorem sameEntries_update {changes changes' : Changes} (s : Scope)
    (hdistinct : (Table.keys changes).Nodup) (hperm : changes.Perm changes') :
    SameEntries (s.update changes) (s.update changes') := by
  rw [update_eq_reviseAll s {}, update_eq_reviseAll s {}]
  apply sameEntries_reviseAll hdistinct ((hperm.map Prod.fst).nodup hdistinct)
  exact Table.get?_of_perm hdistinct hperm

abbrev Collected := Table Key (List (Option Ty))

def collectEntry (s : Scope) (collected : Collected) (change : Key × Entry) : Collected :=
  if change.2.level ≤ s.level then
    Table.insert collected change.1 ((Table.get? collected change.1).getD [] ++ [change.2.value])
  else collected

def collect (s : Scope) (branches : List Changes) : Collected :=
  branches.foldl (fun collected changes => changes.foldl s.collectEntry collected) []

def joinedTypes (count : Nat) (values : List (Option Ty)) (before : Option Ty) : List Ty :=
  (if values.length = count then values else values ++ [before]).filterMap id

def joining (count : Nat) (values : List (Option Ty)) (before : Option Ty) : Option (Option Ty) :=
  if (joinedTypes count values before).isEmpty then none
  else some (some (Ty.union (joinedTypes count values before)))

/-- Joins what was collected from so many branches, name by name. -/
def joinCollected (s : Scope) (w : World) (count : Nat) (collected : Collected) : Scope :=
  s.reviseAll w (joining count) collected

section collect

variable {branches branches' : List Changes} {changes : Changes} {collected : Collected}

theorem keys_foldl_collectEntry (h : (Table.keys collected).Nodup) :
    Table.keys (changes.foldl s.collectEntry collected) =
      firsts (Table.keys collected ++
        (changes.filter fun change ↦ change.2.level ≤ s.level).map Prod.fst) := by
  induction changes generalizing collected with
  | nil =>
    rw [List.filter_nil, List.map_nil, List.append_nil, firsts_of_nodup h]
    rfl
  | cons change changes ih =>
    rw [List.foldl_cons, collectEntry]
    by_cases hle : change.2.level ≤ s.level
    · rw [if_pos hle, ih (Table.nodup_keys_insert h _ _), Table.keys_insert h,
        List.filter_cons_of_pos (by simpa using hle), List.map_cons,
        List.append_cons _ _ (List.map _ _)]
      exact firsts_append_firsts ([] : List Key) _ _
    · rw [if_neg hle, ih h, List.filter_cons_of_neg (by simpa using hle)]

theorem keys_collect (s : Scope) (branches : List Changes) :
    Table.keys (s.collect branches) = s.mergedKeys branches := by
  have hempty : (Table.keys ([] : Collected)).Nodup := List.nodup_nil
  rw [collect, ← List.foldl_flatten, keys_foldl_collectEntry hempty]
  simp only [mergedKeys, List.filter_flatten, List.map_flatten, List.map_map, List.flatMap]
  rfl

theorem nodup_keys_collect (s : Scope) (branches : List Changes) :
    (Table.keys (s.collect branches)).Nodup := by
  rw [keys_collect]
  exact nodup_firsts _

theorem get?_collectEntry (s : Scope) (collected : Collected) (change : Key × Entry) (key : Key) :
    Table.get? (s.collectEntry collected change) key =
      if key = change.1 ∧ change.2.level ≤ s.level then
        some ((Table.get? collected key).getD [] ++ [change.2.value])
      else Table.get? collected key := by
  rw [collectEntry]
  by_cases hle : change.2.level ≤ s.level
  · rw [if_pos hle, Table.get?_insert]
    by_cases hk : key = change.1 <;> simp [hk, hle]
  · simp [hle]

theorem get?_foldl_collectEntry (hdistinct : (Table.keys changes).Nodup) (collected : Collected)
    (key : Key) :
    Table.get? (changes.foldl s.collectEntry collected) key =
      (s.entryFor key changes).elim (Table.get? collected key) fun e ↦
        some ((Table.get? collected key).getD [] ++ [e.value]) := by
  induction changes generalizing collected with
  | nil => rfl
  | cons change changes ih =>
    obtain ⟨first, e⟩ := change
    obtain ⟨hfirst, hrest⟩ := List.nodup_cons.mp hdistinct
    rw [List.foldl_cons, ih hrest, entryFor_cons, get?_collectEntry]
    by_cases hk : key = first
    · rw [entryFor_eq_none_of_not_mem_keys (hk ▸ hfirst)]
      by_cases hle : e.level ≤ s.level <;> simp [hk, hle]
    · simp [hk]

def valuesWritten (s : Scope) (key : Key) (branches : List Changes) : List (Option Ty) :=
  (branches.filterMap (s.entryFor key)).map Entry.value

theorem valuesWritten_cons (s : Scope) (key : Key) (c : Changes) (rest : List Changes) :
    s.valuesWritten key (c :: rest) =
      ((s.entryFor key c).map Entry.value).toList ++ s.valuesWritten key rest := by
  rw [valuesWritten, List.filterMap_cons]
  cases s.entryFor key c <;> rfl

theorem get?_foldl_collect (hdistinct : ∀ c ∈ branches, (Table.keys c).Nodup)
    (collected : Collected) (key : Key) :
    Table.get? (branches.foldl (fun collected changes ↦ changes.foldl s.collectEntry collected)
      collected) key =
      if (s.valuesWritten key branches).isEmpty then Table.get? collected key
      else some ((Table.get? collected key).getD [] ++ s.valuesWritten key branches) := by
  induction branches generalizing collected with
  | nil => rfl
  | cons c rest ih =>
    obtain ⟨hc, hrest⟩ := List.forall_mem_cons.mp hdistinct
    rw [List.foldl_cons, ih hrest, get?_foldl_collectEntry hc, valuesWritten_cons]
    cases s.entryFor key c with
    | none => simp
    | some e => by_cases hwritten : s.valuesWritten key rest = [] <;> simp [hwritten]

theorem get?_collect (hdistinct : ∀ c ∈ branches, (Table.keys c).Nodup) (key : Key) :
    Table.get? (s.collect branches) key =
      if (s.valuesWritten key branches).isEmpty then none
      else some (s.valuesWritten key branches) :=
  get?_foldl_collect hdistinct [] key

theorem nodup_keys_of_perm (hdistinct : ∀ c ∈ branches, (Table.keys c).Nodup)
    (hperm : List.Forall₂ List.Perm branches branches') :
    ∀ c ∈ branches', (Table.keys c).Nodup := by
  induction hperm with
  | nil => exact hdistinct
  | cons hc _ ih =>
    obtain ⟨hfirst, hrest⟩ := List.forall_mem_cons.mp hdistinct
    exact List.forall_mem_cons.mpr ⟨(hc.map Prod.fst).nodup hfirst, ih hrest⟩

theorem valuesWritten_of_perm (hdistinct : ∀ c ∈ branches, (Table.keys c).Nodup)
    (hperm : List.Forall₂ List.Perm branches branches') (key : Key) :
    s.valuesWritten key branches' = s.valuesWritten key branches := by
  induction hperm with
  | nil => rfl
  | cons hc _ ih =>
    obtain ⟨hfirst, hrest⟩ := List.forall_mem_cons.mp hdistinct
    rw [valuesWritten_cons, valuesWritten_cons, ih hrest, entryFor, entryFor,
      Table.get?_of_perm hfirst hc]

theorem mergedValue_eq_joinedTypes (s : Scope) (w : World) (branches : List Changes) (key : Key) :
    s.mergedValue w branches key =
      joinedTypes branches.length (s.valuesWritten key branches) (s.lookup w key) := by
  have hvalue : s.mergedValue w branches key = (s.valuesWritten key branches ++
      if (s.valuesWritten key branches).length = branches.length then []
      else [s.lookup w key]).filterMap id := by
    rw [valuesWritten, List.length_map]
    rfl
  rw [hvalue, joinedTypes]
  split
  · rw [List.append_nil]
  · rfl

theorem merge_eq_joinCollected (s : Scope) (w : World)
    (hdistinct : ∀ c ∈ branches, (Table.keys c).Nodup) :
    s.merge w branches = s.joinCollected w branches.length (s.collect branches) := by
  have hkeys := nodup_keys_collect s branches
  rw [joinCollected, reviseAll_reading_before hkeys fun _ _ ↦ rfl, merge, ← keys_collect,
    Table.keys, List.foldl_map]
  apply List.foldl_ext
  intro t item hitem
  have hvalues : item.2 = s.valuesWritten item.1 branches := by
    have hget := Table.get?_of_mem hkeys hitem
    rw [get?_collect hdistinct] at hget
    exact (Option.some.inj (Option.ite_none_left_eq_some.mp hget).2).symm
  rw [revise, joining, hvalues, ← mergedValue_eq_joinedTypes]
  cases s.mergedValue w branches item.1 <;> rfl

theorem sameEntries_merge (s : Scope) (w : World)
    (hdistinct : ∀ c ∈ branches, (Table.keys c).Nodup)
    (hbranches : List.Forall₂ List.Perm branches branches')
    (hcollected : collected.Perm (s.collect branches')) :
    SameEntries (s.merge w branches) (s.joinCollected w branches'.length collected) := by
  have hdistinct' := nodup_keys_of_perm hdistinct hbranches
  have hkeys : (Table.keys (s.collect branches')).Nodup := nodup_keys_collect s branches'
  rw [merge_eq_joinCollected s w hdistinct, hbranches.length_eq]
  apply sameEntries_reviseAll (nodup_keys_collect s branches)
    ((hcollected.map Prod.fst).nodup_iff.mpr hkeys)
  intro key
  rw [Table.get?_of_perm hkeys hcollected.symm, get?_collect hdistinct', get?_collect hdistinct,
    valuesWritten_of_perm hdistinct hbranches]

end collect

/-- No variable, constant or label tells the scopes apart, and no list of names does. The types are
equal, so their members stand in the same order. -/
structure ReadsAlike (s t : Scope) : Prop where
  entry : ∀ key, t.ownEntry key = s.ownEntry key
  lookup : ∀ w key, t.lookup w key = s.lookup w key
  levelOf : ∀ key, t.levelOf key = s.levelOf key
  constant : ∀ w m name, t.constant? w m name = s.constant? w m name
  snapshot : ∀ w, t.snapshot w = s.snapshot w

theorem SameEntries.readsAlike (h : SameEntries s t) : ReadsAlike s t :=
  ⟨h.ownEntry_eq, h.lookup_eq, h.levelOf_eq, h.constant?_eq, h.snapshot_eq⟩

/-- Whatever order the entries of changes come in, and whatever order the names are joined in after
that, the scope comes to be the same to every reader. -/
theorem update_and_merge_in_any_order (s : Scope) (w : World) {branches branches' : List Changes}
    (hdistinct : ∀ c ∈ branches, (Table.keys c).Nodup)
    (hbranches : List.Forall₂ List.Perm branches branches') {collected : Collected}
    (hcollected : collected.Perm (s.collect branches')) {changes changes' : Changes}
    (hkeys : (Table.keys changes).Nodup) (hchanges : changes.Perm changes') :
    ReadsAlike (s.merge w branches) (s.joinCollected w branches'.length collected) ∧
      ReadsAlike (s.update changes) (s.update changes') :=
  ⟨(sameEntries_merge s w hdistinct hbranches hcollected).readsAlike,
    (sameEntries_update s hkeys hchanges).readsAlike⟩

def firstWay : Changes :=
  [(.named "a", ⟨1, some .integer⟩), (World.constantKey {} .object "C", ⟨0, some .string⟩)]

def secondWay : Changes :=
  [(World.constantKey {} .object "C", ⟨0, some .symbol⟩), (.named Label.toBreak, ⟨1, some .nil⟩),
    (.named "$g", ⟨0, some .symbol⟩), (.named "b", ⟨2, some .nil⟩),
    (.named "a", ⟨1, some .string⟩)]

def loopScope : Scope := bare [("a", some .nil), (Label.toBreak, none)]

def joinedBackwards : Scope :=
  loopScope.joinCollected {} 2 (loopScope.collect [firstWay.reverse, secondWay.reverse]).reverse

theorem update_and_merge_backwards :
    (∀ c ∈ [firstWay, secondWay], (Table.keys c).Nodup) ∧
    List.Forall₂ List.Perm [firstWay, secondWay] [firstWay.reverse, secondWay.reverse] ∧
    Table.keys joinedBackwards.leave.1.table ≠
      Table.keys (loopScope.merge {} [firstWay, secondWay]).leave.1.table ∧
    joinedBackwards.lookup {} (.named "a") = some (Ty.union [.integer, .string]) ∧
    joinedBackwards.lookup {} (World.constantKey {} .object "C") =
      some (Ty.union [.string, .symbol]) ∧
    (loopScope.update secondWay.reverse).lookup {} (.named Label.toBreak) = some .nil ∧
    (loopScope.update secondWay.reverse).levelOf (.named Label.toBreak) = 1 := by
  have hdistinct : ∀ c ∈ [firstWay, secondWay], (Table.keys c).Nodup := by decide
  have hbranches : List.Forall₂ List.Perm [firstWay, secondWay]
      [firstWay.reverse, secondWay.reverse] :=
    .cons (List.reverse_perm _).symm (.cons (List.reverse_perm _).symm .nil)
  obtain ⟨hmerge, hupdate⟩ := update_and_merge_in_any_order loopScope {} hdistinct hbranches
    (List.reverse_perm _) (hdistinct secondWay (by simp)) (List.reverse_perm _).symm
  refine ⟨hdistinct, hbranches, by decide, (hmerge.lookup {} _).trans ?_,
    (hmerge.lookup {} _).trans ?_, (hupdate.lookup {} _).trans ?_, (hupdate.levelOf _).trans ?_⟩
  · rfl
  · rfl
  · rfl
  · decide

end Scope

end FlowCompletion
