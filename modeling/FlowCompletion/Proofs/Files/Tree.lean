import FlowCompletion.Files.Features
import FlowCompletion.Proofs.Files.Paths
import FlowCompletion.Proofs.Names

namespace FlowCompletion

namespace FileTree

variable {tree inner : FileTree} {names : List String} {name : String}

/-- Trees as file systems have them: a directory has each name once, and only such as can be
names. -/
inductive WellFormed : FileTree → Prop
  | file (content : String) : WellFormed (.file content)
  | directory {entries : List (String × FileTree)} : Fields.Ordered entries →
      (∀ entry ∈ entries, Path.IsName entry.1) → (∀ entry ∈ entries, WellFormed entry.2) →
      WellFormed (.directory entries)

theorem wellFormed_empty : empty.WellFormed :=
  .directory Fields.ordered_nil (List.forall_mem_nil _) (List.forall_mem_nil _)

theorem WellFormed.ordered (h : tree.WellFormed) : Fields.Ordered tree.entries := by
  cases h with
  | file => exact Fields.ordered_nil
  | directory hordered => exact hordered

theorem WellFormed.isName (h : tree.WellFormed) : ∀ entry ∈ tree.entries, Path.IsName entry.1 := by
  cases h with
  | file => exact List.forall_mem_nil _
  | directory _ hnames => exact hnames

theorem WellFormed.inside (h : tree.WellFormed) : ∀ entry ∈ tree.entries, entry.2.WellFormed := by
  cases h with
  | file => exact List.forall_mem_nil _
  | directory _ _ hinside => exact hinside

theorem WellFormed.of_get? (h : tree.WellFormed)
    (hget : Fields.get? tree.entries name = some inner) :
    Path.IsName name ∧ inner.WellFormed :=
  have hmem := Table.mem_of_get? hget
  ⟨h.isName (name, inner) hmem, h.inside (name, inner) hmem⟩

theorem WellFormed.put (h : tree.WellFormed) (content : Option String)
    (hnames : ∀ name ∈ names, Path.IsName name) : (tree.put content names).WellFormed := by
  induction names generalizing tree with
  | nil =>
    cases content with
    | some text => exact .file text
    | none => exact .directory h.ordered h.isName h.inside
  | cons name names ih =>
    obtain ⟨hname, hnames⟩ := List.forall_mem_cons.mp hnames
    have hknown : ((Fields.get? tree.entries name).getD empty).WellFormed := by
      cases hget : Fields.get? tree.entries name with
      | none => exact wellFormed_empty
      | some inner => exact (h.of_get? hget).2
    have hordered := h.ordered.insert name
      (((Fields.get? tree.entries name).getD empty).put content names)
    have hentry (entry : String × FileTree) (hentry : entry ∈ Fields.insert name
        (((Fields.get? tree.entries name).getD empty).put content names) tree.entries) :
        Path.IsName entry.1 ∧ entry.2.WellFormed := by
      have hget := (Fields.mem_iff_get? hordered).mp hentry
      rw [Fields.get?_insert] at hget
      split at hget
      case isTrue heq =>
        rw [heq, ← Option.some.inj hget]
        exact ⟨hname, ih hknown hnames⟩
      case isFalse => exact h.of_get? hget
    exact .directory hordered (fun entry hmem ↦ (hentry entry hmem).1)
      fun entry hmem ↦ (hentry entry hmem).2

theorem wellFormed_ofFiles {files : List (String × Option String)}
    (h : ∀ file ∈ files, file.1.toList.any (·.toNat = 0) = false) : (ofFiles files).WellFormed := by
  suffices hall : ∀ tree : FileTree, tree.WellFormed → WellFormed (files.foldl (fun tree file ↦
      tree.put file.2 ((Path.pieces file.1).filter (!Path.isIdle ·))) tree) from
    hall empty wellFormed_empty
  induction files with
  | nil => exact fun tree htree ↦ htree
  | cons file files ih =>
    obtain ⟨hfile, hfiles⟩ := List.forall_mem_cons.mp h
    rw [List.any_eq_false] at hfile
    simp only [decide_eq_true_eq] at hfile
    intro tree htree
    exact ih hfiles _ (htree.put file.2 fun name ↦ Path.isName_of_mem_pieces hfile)

def descend (tree : FileTree) : List String → Option FileTree
  | [] => some tree
  | name :: names => (Fields.get? tree.entries name).bind (descend · names)

theorem descend_cons (tree : FileTree) (name : String) (names : List String) :
    tree.descend (name :: names) = (Fields.get? tree.entries name).bind (descend · names) := rfl

theorem descend_append (tree : FileTree) (before after : List String) :
    tree.descend (before ++ after) = (tree.descend before).bind (descend · after) := by
  induction before generalizing tree with
  | nil => rfl
  | cons name before ih =>
    rw [List.cons_append, descend_cons, descend_cons, Option.bind_assoc]
    exact Option.bind_congr fun inner _ ↦ ih inner

theorem isDirectory_of_get? (h : Fields.get? tree.entries name = some inner) :
    tree.isDirectory = true := by
  cases tree with
  | file => cases h
  | directory => rfl

theorem WellFormed.descend (h : tree.WellFormed) (hdescend : tree.descend names = some inner) :
    (∀ name ∈ names, Path.IsName name) ∧ inner.WellFormed := by
  induction names generalizing tree with
  | nil =>
    cases hdescend
    exact ⟨List.forall_mem_nil _, h⟩
  | cons name names ih =>
    obtain ⟨mid, hget, hrest⟩ := Option.bind_eq_some_iff.mp hdescend
    obtain ⟨hname, hmid⟩ := h.of_get? hget
    obtain ⟨hnames, hinner⟩ := ih hmid hrest
    exact ⟨List.forall_mem_cons.mpr ⟨hname, hnames⟩, hinner⟩

theorem not_idle_of_visible (hname : Path.IsName name) (hvisible : isHidden name = false) :
    Path.isIdle name = false ∧ name ≠ ".." := by
  have hdots : name ≠ "." ∧ name ≠ ".." := by
    constructor <;> rintro rfl <;> cases hvisible
  refine ⟨?_, hdots.2⟩
  rw [Path.isIdle, Bool.or_eq_false_iff, beq_eq_false_iff_ne, beq_eq_false_iff_ne]
  exact ⟨hname.ne_empty, hdots.1⟩

end FileTree

namespace FileSystem

variable {files : FileSystem} {tree dir inner : FileTree} {above : List FileTree}
  {names : List String} {root path name : String}

theorem walk_step (h : ∀ t ∈ tree :: above, t.WellFormed) (piece : String) :
    (∃ e, ∀ rest, files.walk tree above (piece :: rest) = .error e) ∨
      ∃ (next : FileTree) (above' : List FileTree), (∀ t ∈ next :: above', t.WellFormed) ∧
        ∀ rest, files.walk tree above (piece :: rest) = files.walk next above' rest := by
  cases tree with
  | file content => exact .inl ⟨.notDirectory, fun rest ↦ rfl⟩
  | directory entries =>
    simp only [walk]
    by_cases hidle : Path.isIdle piece
    · exact .inr ⟨.directory entries, above, h, fun rest ↦ if_pos hidle⟩
    simp only [if_neg hidle]
    by_cases hup : piece = ".."
    · simp only [if_pos hup]
      cases above with
      | nil => exact .inr ⟨.directory entries, [], h, fun _ ↦ rfl⟩
      | cons outer above => exact .inr ⟨outer, above, (List.forall_mem_cons.mp h).2, fun _ ↦ rfl⟩
    simp only [if_neg hup]
    cases hget : Fields.get? entries piece with
    | none => exact .inl ⟨_, fun _ ↦ rfl⟩
    | some inner =>
      have hinner : inner.WellFormed := ((h _ List.mem_cons_self).of_get? hget).2
      exact .inr ⟨inner, .directory entries :: above, List.forall_mem_cons.mpr ⟨hinner, h⟩,
        fun _ ↦ rfl⟩

theorem walk_append (h : ∀ t ∈ tree :: above, t.WellFormed) (pieces : List String) :
    (∃ e, ∀ rest, files.walk tree above (pieces ++ rest) = .error e) ∨
      ∃ (inner : FileTree) (above' : List FileTree), (∀ t ∈ inner :: above', t.WellFormed) ∧
        ∀ rest, files.walk tree above (pieces ++ rest) = files.walk inner above' rest := by
  induction pieces generalizing tree above with
  | nil => exact .inr ⟨tree, above, h, fun _ ↦ rfl⟩
  | cons piece pieces ih =>
    rcases walk_step h piece with ⟨e, he⟩ | ⟨next, above', hnext, hstep⟩
    · exact .inl ⟨e, fun rest ↦ he (pieces ++ rest)⟩
    · rcases ih hnext with ⟨e, he⟩ | ⟨inner, above'', hinner, hwalk⟩
      · exact .inl ⟨e, fun rest ↦ (hstep _).trans (he rest)⟩
      · exact .inr ⟨inner, above'', hinner, fun rest ↦ (hstep _).trans (hwalk rest)⟩

theorem exists_walk_of_ok (h : ∀ t ∈ tree :: above, t.WellFormed) {pieces last : List String}
    (hwalk : files.walk tree above (pieces ++ last) = .ok inner) :
    ∃ (mid : FileTree) (above' : List FileTree), (∀ t ∈ mid :: above', t.WellFormed) ∧
      (∀ rest, files.walk tree above (pieces ++ rest) = files.walk mid above' rest) ∧
      files.walk mid above' last = .ok inner := by
  rcases walk_append h pieces with ⟨e, he⟩ | ⟨mid, above', hmid, heq⟩
  · rw [he] at hwalk
    cases hwalk
  · exact ⟨mid, above', hmid, heq, (heq last).symm.trans hwalk⟩

theorem at?_eq_ok_iff : files.at? path = .ok inner ↔
    (∀ c ∈ path.toList, c.toNat ≠ 0) ∧ files.isTooLong path = false ∧ path ≠ "" ∧
      files.walk files.top [] (files.start path ++ Path.pieces path) = .ok inner := by
  rw [at?]
  by_cases hnul : path.toList.any (·.toNat = 0) = true
  · rw [if_pos hnul]
    obtain ⟨c, hc, hzero⟩ := List.any_eq_true.mp hnul
    refine iff_of_false (by simp) fun h ↦ h.1 c hc (by simpa using hzero)
  rw [if_neg hnul]
  have hchars : ∀ c ∈ path.toList, c.toNat ≠ 0 := by simpa using hnul
  rw [and_iff_right hchars]
  by_cases hlong : files.isTooLong path = true
  · simp [hlong]
  rw [if_neg hlong, and_iff_right (Bool.not_eq_true _ ▸ hlong)]
  by_cases hempty : path = ""
  · simp [hempty]
  rw [if_neg hempty, and_iff_right hempty]

theorem wellFormed_at? (h : files.top.WellFormed) (hat : files.at? path = .ok inner) :
    inner.WellFormed := by
  obtain ⟨-, -, -, hwalk⟩ := at?_eq_ok_iff.mp hat
  rw [← List.append_nil (_ ++ _)] at hwalk
  obtain ⟨mid, above, hmid, -, hlast⟩ :=
    exists_walk_of_ok (List.forall_mem_singleton.mpr h) hwalk
  obtain rfl : mid = inner := Except.ok.inj hlast
  exact hmid _ List.mem_cons_self

theorem walk_of_descend (h : tree.WellFormed) (hvisible : ∀ name ∈ names, isHidden name = false)
    (hdescend : tree.descend names = some inner) (hinner : inner.isDirectory = true)
    (above : List FileTree) : files.walk tree above (names ++ [""]) = .ok inner := by
  induction names generalizing tree above with
  | nil =>
    cases hdescend
    cases inner with
    | file => cases hinner
    | directory => rfl
  | cons name names ih =>
    obtain ⟨hname, hvisible⟩ := List.forall_mem_cons.mp hvisible
    obtain ⟨mid, hget, hrest⟩ := Option.bind_eq_some_iff.mp hdescend
    obtain ⟨hidle, hup⟩ := FileTree.not_idle_of_visible (h.of_get? hget).1 hname
    cases tree with
    | file => cases hget
    | directory entries =>
      have hentry : Fields.get? entries name = some mid := hget
      simp only [List.cons_append, walk, hidle, Bool.false_eq_true, if_false, hup, hentry]
      exact ih (h.of_get? hget).2 hvisible hrest _

theorem eq_of_walk_slash (h : files.walk tree above [""] = .ok inner) : tree = inner := by
  cases tree with
  | file => cases h
  | directory => exact Except.ok.inj h

/-- A walk along a path that is joined to another one goes on from where that one leads to. -/
theorem exists_walk_join (h : files.top.WellFormed) (hroot : files.at? root = .ok dir) :
    ∃ above, ∀ path, Path.isAbsolute path = false →
      files.walk files.top []
          (files.start (Path.join root path) ++ Path.pieces (Path.join root path)) =
        files.walk dir above (Path.pieces path) := by
  obtain ⟨-, -, hne, hwalk⟩ := at?_eq_ok_iff.mp hroot
  obtain ⟨stem, glue, hstem, hglue, hjoin⟩ := Path.exists_join hne
  have hstart (path : String) : files.start (root ++ glue ++ path) = files.start root := by
    rw [start, start, String.append_assoc, Path.isAbsolute_append hne]
  suffices hon : ∃ above, ∀ rest,
      files.walk files.top [] (files.start root ++ Path.pieces stem ++ rest) =
        files.walk dir above rest by
    obtain ⟨above, hon⟩ := hon
    refine ⟨above, fun path hpath ↦ ?_⟩
    rw [hjoin path hpath, hstart, hglue, Path.pieces_append_slash, ← List.append_assoc, hon]
  -- the root is the stem, or the stem with an empty piece behind it
  obtain ⟨last, hlast, hreach⟩ : ∃ last, Path.pieces root = Path.pieces stem ++ last ∧
      ∀ inner above, files.walk inner above last = .ok dir → inner = dir := by
    rcases hstem with rfl | rfl
    · exact ⟨[], (List.append_nil _).symm, fun inner above h ↦ Except.ok.inj h⟩
    · refine ⟨[""], ?_, fun inner above ↦ eq_of_walk_slash⟩
      rw [← String.append_empty (s := stem ++ "/"), Path.pieces_append_slash]
      rfl
  rw [hlast, ← List.append_assoc] at hwalk
  obtain ⟨mid, above, -, hon, hmid⟩ :=
    exists_walk_of_ok (List.forall_mem_singleton.mpr h) hwalk
  exact ⟨above, hreach mid above hmid ▸ hon⟩

/-- No path is refused for its length. -/
def Faithful (files : FileSystem) : Prop := ∀ path, files.isTooLong path = false

theorem Faithful.at?_join_through (hfaithful : files.Faithful) (h : files.top.WellFormed)
    (hroot : files.at? root = .ok dir) (hvisible : ∀ name ∈ names, isHidden name = false)
    (hdescend : dir.descend names = some inner) (hinner : inner.isDirectory = true) :
    files.at? (Path.join root (Path.through names "")) = .ok inner := by
  have hwf : dir.WellFormed := wellFormed_at? h hroot
  have hnames := (hwf.descend hdescend).1
  have hrelative := Path.isAbsolute_through hnames
  obtain ⟨hnul, -, hne, -⟩ := at?_eq_ok_iff.mp hroot
  obtain ⟨above, hwalk⟩ := exists_walk_join h hroot
  refine at?_eq_ok_iff.mpr ⟨?_, hfaithful _, ?_, ?_⟩
  · refine Path.forall_mem_join (by decide) hnul (Path.forall_mem_through (by decide) ?_ ?_)
    · exact fun name hname ↦ (hnames name hname).no_nul
    · exact List.forall_mem_nil _
  · exact Path.join_ne_empty hne hrelative
  · rw [hwalk _ hrelative, Path.pieces_through fun name hname ↦ (hnames name hname).no_slash]
    exact walk_of_descend hwf hvisible hdescend hinner above

end FileSystem

end FlowCompletion
