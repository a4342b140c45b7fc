import FlowCompletion.Proofs.Files.Tree

namespace FlowCompletion

variable {name stem typed root path s : String} {names dirs : List String}

theorem featureName?_of_ending {extension : String} (hstem : stem ≠ "")
    (hextension : extension ∈ featureExtensions) :
    featureName? (stem ++ "." ++ extension) = some stem := by
  have hdot : '.' ∉ extension.toList := by
    revert extension
    decide
  simp only [featureName?, Path.splitName_of_ending hstem hdot, if_pos hextension]

theorem ending_of_featureName? (h : featureName? name = some stem) :
    ∃ extension ∈ featureExtensions, name = stem ++ "." ++ extension := by
  unfold featureName? at h
  split at h
  case h_1 before extension hsplit =>
    split at h
    case isTrue hextension =>
      cases h
      exact ⟨extension, hextension, Path.eq_of_splitName hsplit⟩
    case isFalse => cases h
  case h_2 => cases h

namespace FileTree

variable {dir base inner : FileTree} {before after : List String}

/-- What a text says of a directory that is already typed: it names a directory, with a slash behind
it, or a file that can be required, without its ending, at most so many levels below and with
nothing hidden on the way. -/
def Offers (base : FileTree) (typed : String) (levels : Nat) (s : String) : Prop :=
  ∃ dirs name entry, dirs.length < levels ∧ (∀ n ∈ dirs ++ [name], isHidden n = false) ∧
    base.descend (dirs ++ [name]) = some entry ∧
    (entry.isDirectory = true ∧ s = typed ++ Path.through (dirs ++ [name]) "" ∨
      entry.isDirectory = false ∧ ∃ stem, ∃ extension ∈ featureExtensions,
        name = stem ++ "." ++ extension ∧ s = typed ++ Path.through dirs stem)

theorem Offers.inside {levels : Nat} (hget : Fields.get? base.entries name = some inner)
    (hvisible : isHidden name = false) (h : inner.Offers (typed ++ name ++ "/") levels s) :
    base.Offers typed (levels + 1) s := by
  obtain ⟨dirs, last, entry, hlevels, hdirs, hentry, hs⟩ := h
  have htext (dirs : List String) (last : String) :
      typed ++ name ++ "/" ++ Path.through dirs last =
        typed ++ Path.through (name :: dirs) last := by
    rw [Path.through, String.append_assoc, String.append_assoc, String.append_assoc]
  refine ⟨name :: dirs, last, entry, Nat.succ_lt_succ hlevels,
    List.forall_mem_cons.mpr ⟨hvisible, hdirs⟩, ?_, ?_⟩
  · rw [List.cons_append, descend_cons, hget]
    exact hentry
  · simpa only [htext, List.cons_append] using hs

/-- A file below a directory can be required: it has an ending that is known, and nothing on the way
to it is hidden. -/
structure Requirable (dir : FileTree) (dirs : List String) (stem : String) : Prop where
  visible : ∀ name ∈ dirs, isHidden name = false
  file : ∃ extension ∈ featureExtensions, isHidden (stem ++ "." ++ extension) = false ∧
    ∃ content, dir.descend (dirs ++ [stem ++ "." ++ extension]) = some (.file content)

theorem Requirable.no_slash (h : dir.Requirable dirs stem) (hdir : dir.WellFormed) :
    (∀ name ∈ dirs, Path.IsName name) ∧ '/' ∉ stem.toList := by
  obtain ⟨extension, -, -, content, hfile⟩ := h.file
  obtain ⟨hdirs, hname⟩ := List.forall_mem_append.mp (hdir.descend hfile).1
  refine ⟨hdirs, fun hslash ↦ (List.forall_mem_singleton.mp hname).no_slash ?_⟩
  rw [String.toList_append, String.toList_append]
  exact List.mem_append_left _ (List.mem_append_left _ hslash)

theorem Requirable.split (h : dir.Requirable (before ++ after) stem) :
    ∃ base, dir.descend before = some base ∧ base.isDirectory = true ∧
      base.Requirable after stem := by
  obtain ⟨extension, hextension, hhidden, content, hfile⟩ := h.file
  rw [List.append_assoc, descend_append] at hfile
  obtain ⟨base, hbase, hfile⟩ := Option.bind_eq_some_iff.mp hfile
  refine ⟨base, hbase, ?_, ⟨fun name hname ↦ h.visible name (List.mem_append_right _ hname),
    extension, hextension, hhidden, content, hfile⟩⟩
  -- something lies below the directory, so that it is one
  cases after <;> obtain ⟨inner, hget, -⟩ := Option.bind_eq_some_iff.mp hfile <;>
    exact isDirectory_of_get? hget

end FileTree

namespace FileSystem

variable {files : FileSystem} {tree dir base : FileTree} {depth : Nat} {after : List String}

theorem Faithful.mem_features_succ (h : files.Faithful) :
    s ∈ files.features (depth + 1) path typed tree ↔
      ∃ field ∈ tree.entries, isHidden field.1 = false ∧
        ((field.2.isDirectory = true ∧
            (s ∈ files.features depth (Path.join path field.1) (typed ++ field.1 ++ "/") field.2 ∨
              s = typed ++ field.1 ++ "/")) ∨
          field.2.isDirectory = false ∧
            ∃ stem, featureName? field.1 = some stem ∧ s = typed ++ stem) := by
  rw [features, List.mem_flatMap]
  refine exists_congr fun field ↦ and_congr_right fun _ ↦ ?_
  obtain ⟨name, entry⟩ := field
  dsimp only
  rw [h (Path.join path name)]
  cases isHidden name <;> cases entry.isDirectory <;> simp [eq_comm]

theorem Faithful.offers_of_mem_features (hfaithful : files.Faithful) (h : base.WellFormed)
    (hs : s ∈ files.features depth path typed base) : base.Offers typed depth s := by
  induction depth generalizing base path typed with
  | zero => cases hs
  | succ depth ih =>
    obtain ⟨⟨name, entry⟩, hfield, hvisible, hcases⟩ := hfaithful.mem_features_succ.mp hs
    have hget : Fields.get? base.entries name = some entry :=
      (Fields.mem_iff_get? h.ordered).mp hfield
    have hentry : base.descend [name] = some entry := by
      rw [FileTree.descend_cons, hget]
      rfl
    rcases hcases with ⟨hdirectory, hs | rfl⟩ | ⟨hfile, stem, hstem, rfl⟩
    · exact (ih (h.inside _ hfield) hs).inside hget hvisible
    · refine ⟨[], name, entry, Nat.succ_pos _, List.forall_mem_singleton.mpr hvisible, hentry,
        .inl ⟨hdirectory, ?_⟩⟩
      rw [String.append_assoc, List.nil_append, Path.through_directory]
    · obtain ⟨extension, hextension, hname⟩ := ending_of_featureName? hstem
      exact ⟨[], name, entry, Nat.succ_pos _, List.forall_mem_singleton.mpr hvisible, hentry,
        .inr ⟨hfile, stem, extension, hextension, hname, rfl⟩⟩

theorem Faithful.mem_features (hfaithful : files.Faithful) (h : base.Requirable [] stem) :
    typed ++ stem ∈ files.features (depth + 1) path typed base := by
  obtain ⟨extension, hextension, hhidden, content, hfile⟩ := h.file
  obtain ⟨file, hget, hfile⟩ := Option.bind_eq_some_iff.mp hfile
  cases hfile
  refine hfaithful.mem_features_succ.mpr
    ⟨_, Table.mem_of_get? hget, hhidden, .inr ⟨rfl, stem, ?_, rfl⟩⟩
  refine featureName?_of_ending ?_ hextension
  rintro rfl
  rw [isHidden, String.toList_append, String.toList_append] at hhidden
  cases hhidden

theorem Faithful.mem_features_directory (hfaithful : files.Faithful)
    (h : base.Requirable (name :: after) stem) :
    typed ++ name ++ "/" ∈ files.features (depth + 1) path typed base := by
  have hsplit : base.Requirable ([name] ++ after) stem := h
  obtain ⟨inner, hinner, hdirectory, -⟩ := hsplit.split
  obtain ⟨found, hget, hfound⟩ := Option.bind_eq_some_iff.mp hinner
  cases hfound
  exact hfaithful.mem_features_succ.mpr
    ⟨_, Table.mem_of_get? hget, h.visible name List.mem_cons_self, .inl ⟨hdirectory, .inr rfl⟩⟩

theorem mem_completions {roots : List String} : s ∈ files.completions roots typed ↔
    typed.toList <+: s.toList ∧ ∃ root ∈ roots, ∃ base,
      files.at? (Path.join root (Path.directoryPart typed)) = .ok base ∧
        s ∈ files.features listingDepth (Path.join root (Path.directoryPart typed))
          (Path.directoryPart typed) base := by
  rw [completions, mem_sortedNames, List.mem_filter, List.mem_flatMap, List.isPrefixOf_iff_prefix,
    and_comm]
  refine and_congr_right fun _ ↦ exists_congr fun root ↦ and_congr_right fun _ ↦ ?_
  dsimp only
  cases files.at? (Path.join root (Path.directoryPart typed)) with
  | error e => simp
  | ok base => simp

/-- Completion gets on from what is typed: it offers the feature, or a directory on the way to it
that lies further than the directories already typed. -/
def Advances (files : FileSystem) (root typed feature : String) : Prop :=
  feature ∈ files.completions [root] typed ∨
    ∃ next ∈ files.completions [root] typed, next.toList.getLast? = some '/' ∧
      next.toList <+: feature.toList ∧ typed.toList <+: next.toList ∧
      (Path.directoryPart typed).length < next.length

theorem Faithful.advances (hfaithful : files.Faithful) (htop : files.top.WellFormed)
    (hroot : files.at? root = .ok dir) (hfile : dir.Requirable dirs stem)
    (htyped : typed.toList <+: (Path.through dirs stem).toList) :
    files.Advances root typed (Path.through dirs stem) := by
  have hdir : dir.WellFormed := wellFormed_at? htop hroot
  obtain ⟨hdirs, hstem⟩ := hfile.no_slash hdir
  obtain ⟨before, after, start, rfl, rfl, hslash, hstart⟩ :=
    Path.exists_split_of_typed (fun name hname ↦ (hdirs name hname).no_slash) hstem htyped
  obtain ⟨base, hbase, hdirectory, hrest⟩ := hfile.split
  have hpart : Path.directoryPart (Path.through before start) = Path.through before "" :=
    Path.directoryPart_through hslash
  have hat : files.at? (Path.join root (Path.through before "")) = .ok base := by
    refine hfaithful.at?_join_through htop hroot ?_ hbase hdirectory
    exact fun name hname ↦ hfile.visible name (List.mem_append_left _ hname)
  cases after with
  | nil =>
    left
    refine mem_completions.mpr ⟨htyped, root, List.mem_singleton_self _, base, ?_⟩
    rw [hpart]
    refine ⟨hat, ?_⟩
    rw [List.append_nil, Path.through_eq_append before stem]
    exact hfaithful.mem_features hrest
  | cons name after =>
    right
    have htyped : (Path.through before start).toList <+:
        (Path.through before "" ++ name ++ "/").toList := by
      rw [Path.through_eq_append, String.append_assoc, Path.prefix_append_iff, String.toList_append]
      exact List.prefix_append_of_prefix hstart
    refine ⟨Path.through before "" ++ name ++ "/", ?_, ?_, ?_, htyped, ?_⟩
    · refine mem_completions.mpr ⟨htyped, root, List.mem_singleton_self _, base, ?_⟩
      rw [hpart]
      exact ⟨hat, hfaithful.mem_features_directory hrest⟩
    · rw [String.toList_append]
      exact List.getLast?_concat
    · rw [Path.through_append, Path.through_eq_append before (Path.through (name :: after) stem),
        Path.through, String.append_assoc, Path.prefix_append_iff,
        String.toList_append (s := _ ++ _)]
      exact List.prefix_append _ _
    · rw [hpart, String.append_assoc, String.length_append, String.length_append]
      have hslash : "/".length = 1 := rfl
      omega

/-- Whatever is typed of the path of a file that can be required, completion offers the whole of it
or the next directory on the way, from every root that leads to a directory above the file. The
names offered start with what is typed, stand in order, and name directories that exist or files
that can be required, at most two levels below the directory that is already typed. -/
theorem completions_advance (hfaithful : files.Faithful) (htop : files.top.WellFormed)
    (hroot : files.at? root = .ok dir) :
    (∀ dirs stem, dir.Requirable dirs stem → ∀ typed : String,
      typed.toList <+: (Path.through dirs stem).toList →
        files.Advances root typed (Path.through dirs stem)) ∧
    ∀ typed : String, (files.completions [root] typed).Pairwise (· < ·) ∧
      ∀ s ∈ files.completions [root] typed, typed.toList <+: s.toList ∧
        ∃ base, files.at? (Path.join root (Path.directoryPart typed)) = .ok base ∧
          base.Offers (Path.directoryPart typed) 2 s := by
  refine ⟨fun dirs stem hfile typed htyped ↦ hfaithful.advances htop hroot hfile htyped,
    fun typed ↦ ⟨pairwise_sortedNames _, fun s hs ↦ ?_⟩⟩
  obtain ⟨htyped, other, hother, base, hat, hlisted⟩ := mem_completions.mp hs
  obtain rfl := List.mem_singleton.mp hother
  exact ⟨htyped, base, hat, hfaithful.offers_of_mem_features (wellFormed_at? htop hat) hlisted⟩

def toolbox : FileSystem :=
  { top := .ofFiles [("opt/lib/tools/gear.rb", some ""), ("opt/lib/tools/.git/x.rb", some ""),
      ("opt/work", none)]
    workingDirectory := ["opt", "work"] }

theorem exists_lib : ∃ lib, toolbox.at? "/opt/lib" = .ok lib ∧ toolbox.at? "../lib" = .ok lib ∧
    lib.Requirable ["tools"] "gear" := by
  exact ⟨_, rfl, rfl, ⟨by decide, "rb", by decide, by decide, "", rfl⟩⟩

theorem completions_advance_toolbox :
    toolbox.Faithful ∧ toolbox.top.WellFormed ∧
      (∃ lib, toolbox.at? "/opt/lib" = .ok lib ∧ toolbox.at? "../lib" = .ok lib ∧
        lib.Requirable ["tools"] "gear") ∧
      toolbox.Advances "/opt/lib" "to" "tools/gear" ∧
      toolbox.Advances "../lib" "tools/" "tools/gear" ∧
      toolbox.completions ["/opt/lib"] "to" = ["tools/", "tools/gear"] := by
  have hfaithful : toolbox.Faithful := fun _ ↦ rfl
  have htop : toolbox.top.WellFormed := FileTree.wellFormed_ofFiles (by decide)
  obtain ⟨lib, habsolute, hrelative, hgear⟩ := exists_lib
  have hfrom := (completions_advance hfaithful htop habsolute).1 _ _ hgear
  have hfrom' := (completions_advance hfaithful htop hrelative).1 _ _ hgear
  exact ⟨hfaithful, htop, ⟨lib, habsolute, hrelative, hgear⟩, hfrom "to" (by decide),
    hfrom' "tools/" (by decide), by decide⟩

end FileSystem

end FlowCompletion
