import FlowCompletion.Files.Path
import Mathlib.Data.List.Basic

namespace FlowCompletion

namespace Path

/-- What an entry of a directory can be called. -/
structure IsName (name : String) : Prop where
  ne_empty : name ≠ ""
  no_slash : '/' ∉ name.toList
  no_nul : ∀ c ∈ name.toList, c.toNat ≠ 0

def through : List String → String → String
  | [], last => last
  | name :: names, last => name ++ "/" ++ through names last

variable {names before after : List String} {last typed root path : String}

theorem toList_through_cons (name : String) (names : List String) (last : String) :
    (through (name :: names) last).toList = name.toList ++ '/' :: (through names last).toList := by
  rw [through, String.toList_append, String.toList_append, List.append_assoc]
  rfl

theorem through_append (before after : List String) (last : String) :
    through (before ++ after) last = through before (through after last) := by
  induction before with
  | nil => rfl
  | cons name before ih => rw [List.cons_append, through, through, ih]

theorem through_eq_append (names : List String) (last : String) :
    through names last = through names "" ++ last := by
  induction names with
  | nil => rw [through, through, String.empty_append]
  | cons name names ih => rw [through, through, ih, ← String.append_assoc]

theorem through_directory (name : String) : through [name] "" = name ++ "/" := by
  rw [through, through, String.append_empty]

theorem forall_mem_through {P : Char → Prop} (hslash : P '/')
    (hnames : ∀ name ∈ names, ∀ c ∈ name.toList, P c) (hlast : ∀ c ∈ last.toList, P c) :
    ∀ c ∈ (through names last).toList, P c := by
  induction names with
  | nil => exact hlast
  | cons name names ih =>
    obtain ⟨hname, hnames⟩ := List.forall_mem_cons.mp hnames
    rw [toList_through_cons, List.forall_mem_append, List.forall_mem_cons]
    exact ⟨hname, hslash, ih hnames⟩

theorem prefix_append_iff (path typed other : String) :
    (path ++ typed).toList <+: (path ++ other).toList ↔ typed.toList <+: other.toList := by
  rw [String.toList_append, String.toList_append, List.prefix_append_right_inj]

theorem forall_mem_reverse_ne {c : Char} (h : c ∉ path.toList) :
    ∀ d ∈ path.toList.reverse, decide (d ≠ c) = true := by
  intro d hd
  refine decide_eq_true ?_
  rintro rfl
  exact h (List.mem_reverse.mp hd)

theorem directoryPart_through (hlast : '/' ∉ last.toList) :
    directoryPart (through names last) = through names "" := by
  have hstop : (through names "").toList.reverse.dropWhile (· ≠ '/') =
      (through names "").toList.reverse := by
    rcases List.eq_nil_or_concat names with rfl | ⟨names, name, rfl⟩
    · rfl
    · rw [List.concat_eq_append, through_append, through_eq_append, String.toList_append,
        toList_through_cons]
      simp [through]
  rw [directoryPart, through_eq_append, String.toList_append, List.reverse_append,
    List.dropWhile_append_of_pos (forall_mem_reverse_ne hlast), hstop, List.reverse_reverse,
    String.ofList_toList]

/-- What is typed of a path goes through some of its directories, and what comes after the last
slash is the start of the next name. -/
theorem exists_split_of_typed (hnames : ∀ name ∈ names, '/' ∉ name.toList)
    (hlast : '/' ∉ last.toList) (h : typed.toList <+: (through names last).toList) :
    ∃ before after start, names = before ++ after ∧ typed = through before start ∧
      '/' ∉ start.toList ∧ start.toList <+: (after.headD last).toList := by
  induction names generalizing typed with
  | nil => exact ⟨[], [], typed, rfl, rfl, fun hmem ↦ hlast (h.mem hmem), h⟩
  | cons name names ih =>
    obtain ⟨hname, hnames⟩ := List.forall_mem_cons.mp hnames
    -- where nothing of what is typed lies behind the first slash
    have hstart (htyped : typed.toList <+: name.toList) :
        ∃ before after start, name :: names = before ++ after ∧ typed = through before start ∧
          '/' ∉ start.toList ∧ start.toList <+: (after.headD last).toList :=
      ⟨[], name :: names, typed, rfl, rfl, fun hmem ↦ hname (htyped.mem hmem), htyped⟩
    have hfirst : name.toList <+: (through (name :: names) last).toList := by
      rw [toList_through_cons]
      exact List.prefix_append _ _
    rcases List.prefix_or_prefix_of_prefix h hfirst with htyped | ⟨more, hmore⟩
    · exact hstart htyped
    · rw [toList_through_cons, ← hmore, List.prefix_append_right_inj, List.prefix_cons_iff] at h
      rcases h with rfl | ⟨rest, rfl, hrest⟩
      · rw [List.append_nil] at hmore
        exact hstart (hmore ▸ List.prefix_refl _)
      · rw [← String.toList_ofList (l := rest)] at hrest
        obtain ⟨before, after, start, rfl, htyped, hslash, hstart⟩ := ih hnames hrest
        refine ⟨name :: before, after, start, rfl, ?_, hslash, hstart⟩
        apply String.toList_injective
        rw [← hmore, toList_through_cons, ← htyped, String.toList_ofList]

theorem splitName_of_ending {stem extension : String} (hstem : stem ≠ "")
    (hextension : '.' ∉ extension.toList) :
    splitName (stem ++ "." ++ extension) = (stem, some extension) := by
  have hskip := forall_mem_reverse_ne hextension
  have hreversed : (stem ++ "." ++ extension).toList.reverse =
      extension.toList.reverse ++ '.' :: stem.toList.reverse := by
    simp [String.toList_append]
  have hdrop : (stem ++ "." ++ extension).toList.reverse.dropWhile (fun c ↦ decide (c ≠ '.')) =
      '.' :: stem.toList.reverse := by
    rw [hreversed, List.dropWhile_append_of_pos hskip]
    rfl
  have htake : (stem ++ "." ++ extension).toList.reverse.takeWhile (fun c ↦ decide (c ≠ '.')) =
      extension.toList.reverse := by
    rw [hreversed, List.takeWhile_append_of_pos hskip]
    exact List.append_nil _
  have hbefore : stem.toList.reverse.isEmpty = false := by simpa using hstem
  simp only [splitName, hdrop, htake, hbefore, Bool.false_eq_true, if_false, List.reverse_reverse,
    String.ofList_toList]

theorem eq_of_splitName {name stem extension : String}
    (h : splitName name = (stem, some extension)) : name = stem ++ "." ++ extension := by
  have hwhole := List.takeWhile_append_dropWhile (p := fun c ↦ decide (c ≠ '.'))
    (l := name.toList.reverse)
  have hdot := List.head?_dropWhile_not (fun c ↦ decide (c ≠ '.')) name.toList.reverse
  simp only [splitName] at h
  cases hdrop : name.toList.reverse.dropWhile (fun c ↦ decide (c ≠ '.')) with
  | nil =>
    simp only [hdrop] at h
    cases h
  | cons c before =>
    simp only [hdrop] at h hwhole hdot
    obtain rfl : c = '.' := by simpa using hdot
    split at h
    · cases h
    · cases h
      apply String.toList_injective
      have hchars := congrArg List.reverse hwhole
      rw [List.reverse_reverse] at hchars
      refine hchars.symm.trans ?_
      simp [String.toList_append]

theorem splitSlash_ne_nil (cs : List Char) : splitSlash cs ≠ [] := by
  cases cs with
  | nil => exact List.cons_ne_nil _ _
  | cons c cs =>
    rw [splitSlash]
    split
    · exact List.cons_ne_nil _ _
    · split <;> exact List.cons_ne_nil _ _

theorem splitSlash_append_slash (cs ds : List Char) :
    splitSlash (cs ++ '/' :: ds) = splitSlash cs ++ splitSlash ds := by
  induction cs with
  | nil => rfl
  | cons c cs ih =>
    rw [List.cons_append, splitSlash, splitSlash, ih]
    split
    · rfl
    · cases h : splitSlash cs with
      | nil => exact absurd h (splitSlash_ne_nil cs)
      | cons piece rest => rfl

theorem splitSlash_of_not_mem {cs : List Char} (h : '/' ∉ cs) : splitSlash cs = [cs] := by
  induction cs with
  | nil => rfl
  | cons c cs ih =>
    obtain ⟨hc, hcs⟩ := not_or.mp (mt List.mem_cons.mpr h)
    rw [splitSlash, if_neg (Ne.symm hc), ih hcs]

theorem mem_of_mem_splitSlash {cs piece : List Char} (h : piece ∈ splitSlash cs) :
    ∀ c ∈ piece, c ∈ cs ∧ c ≠ '/' := by
  induction cs generalizing piece with
  | nil =>
    obtain rfl := List.mem_singleton.mp h
    exact List.forall_mem_nil _
  | cons d cs ih =>
    have hlater {piece : List Char} (h : piece ∈ splitSlash cs) :
        ∀ c ∈ piece, c ∈ d :: cs ∧ c ≠ '/' :=
      fun c hc ↦ ⟨List.mem_cons_of_mem _ (ih h c hc).1, (ih h c hc).2⟩
    rw [splitSlash] at h
    split at h
    case isTrue =>
      rcases List.mem_cons.mp h with rfl | h
      · exact List.forall_mem_nil _
      · exact hlater h
    case isFalse hslash =>
      cases hrest : splitSlash cs with
      | nil => exact absurd hrest (splitSlash_ne_nil cs)
      | cons first rest =>
        rw [hrest] at h
        rcases List.mem_cons.mp h with rfl | h
        · refine List.forall_mem_cons.mpr ⟨⟨List.mem_cons_self, hslash⟩, ?_⟩
          exact hlater (hrest ▸ List.mem_cons_self)
        · exact hlater (hrest ▸ List.mem_cons_of_mem _ h)

theorem isName_of_mem_pieces (hpath : ∀ c ∈ path.toList, c.toNat ≠ 0) {piece : String}
    (h : piece ∈ (pieces path).filter (!isIdle ·)) : IsName piece := by
  obtain ⟨hmem, hidle⟩ := List.mem_filter.mp h
  obtain ⟨chars, hchars, rfl⟩ := List.mem_map.mp hmem
  have hpiece : ∀ c ∈ (String.ofList chars).toList, c ∈ path.toList ∧ c ≠ '/' := by
    rw [String.toList_ofList]
    exact mem_of_mem_splitSlash hchars
  refine ⟨?_, fun hslash ↦ (hpiece _ hslash).2 rfl, fun c hc ↦ hpath c (hpiece c hc).1⟩
  rintro hempty
  rw [hempty] at hidle
  cases hidle

theorem pieces_append_slash (path other : String) :
    pieces (path ++ "/" ++ other) = pieces path ++ pieces other := by
  rw [pieces, String.toList_append, String.toList_append, List.append_assoc]
  exact (congrArg _ (splitSlash_append_slash _ _)).trans List.map_append

theorem pieces_through (hnames : ∀ name ∈ names, '/' ∉ name.toList) :
    pieces (through names "") = names ++ [""] := by
  induction names with
  | nil => rfl
  | cons name names ih =>
    obtain ⟨hname, hnames⟩ := List.forall_mem_cons.mp hnames
    rw [through, pieces_append_slash, ih hnames, pieces, splitSlash_of_not_mem hname,
      List.map_singleton, String.ofList_toList, List.singleton_append, List.cons_append]

theorem isAbsolute_through (hnames : ∀ name ∈ names, IsName name) :
    isAbsolute (through names "") = false := by
  cases names with
  | nil => rfl
  | cons name names =>
    obtain ⟨hname, -⟩ := List.forall_mem_cons.mp hnames
    rw [isAbsolute, toList_through_cons]
    cases hchars : name.toList with
    | nil => exact absurd (String.toList_eq_nil_iff.mp hchars) hname.ne_empty
    | cons c cs =>
      rw [List.cons_append, List.head?_cons, beq_eq_false_iff_ne]
      rintro heq
      rw [Option.some.inj heq] at hchars
      exact hname.no_slash (hchars ▸ List.mem_cons_self)

theorem isAbsolute_append (h : path ≠ "") (other : String) :
    isAbsolute (path ++ other) = isAbsolute path := by
  rw [isAbsolute, isAbsolute, String.toList_append,
    List.head?_append_of_ne_nil _ (mt String.toList_eq_nil_iff.mp h)]

theorem exists_join (hroot : root ≠ "") :
    ∃ stem glue, (root = stem ∨ root = stem ++ "/") ∧ root ++ glue = stem ++ "/" ∧
      ∀ path, isAbsolute path = false → join root path = root ++ glue ++ path := by
  obtain hnil | ⟨init, c, hchars⟩ := List.eq_nil_or_concat root.toList
  · exact absurd (String.toList_eq_nil_iff.mp hnil) hroot
  rw [List.concat_eq_append] at hchars
  have hend : root.toList.getLast? = some c := by rw [hchars, List.getLast?_concat]
  by_cases hc : c = '/'
  · subst hc
    have hstem : root = String.ofList init ++ "/" := by
      apply String.toList_injective
      rw [hchars, String.toList_append, String.toList_ofList]
      rfl
    refine ⟨String.ofList init, "", .inr hstem, ?_, fun path hpath ↦ ?_⟩
    · rw [String.append_empty, ← hstem]
    · simp [join, hpath, hend]
  · refine ⟨root, "/", .inl rfl, rfl, fun path hpath ↦ ?_⟩
    simp [join, hpath, hend]

theorem join_ne_empty (hroot : root ≠ "") (hpath : isAbsolute path = false) :
    join root path ≠ "" := by
  obtain ⟨stem, glue, -, -, hjoin⟩ := exists_join hroot
  rw [hjoin path hpath, String.append_assoc, Ne, String.append_eq_empty_iff]
  exact fun h ↦ hroot h.1

theorem forall_mem_join {P : Char → Prop} (hslash : P '/') (hroot : ∀ c ∈ root.toList, P c)
    (hpath : ∀ c ∈ path.toList, P c) : ∀ c ∈ (join root path).toList, P c := by
  unfold join
  split
  · exact hpath
  · split
    · exact hpath
    · rw [String.toList_append, List.forall_mem_append]
      exact ⟨hroot, hpath⟩
    · rw [String.toList_append, String.toList_append, List.append_assoc, List.forall_mem_append]
      exact ⟨hroot, List.forall_mem_cons.mpr ⟨hslash, hpath⟩⟩

end Path

end FlowCompletion
