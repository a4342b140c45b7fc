import FlowCompletion.Proofs.Flow.Evolution

namespace FlowCompletion

namespace Scope

variable {s : Scope} {w : World} {name : String}

theorem get?_set (hs : s.frames ≠ []) (other : String) (t : Ty) :
    (s.set other t).get? w name = if name = other then some t else s.get? w name := by
  rw [get?, set, lookup_setKey hs]
  simp only [Key.named_inj]
  rfl

theorem frames_set_ne_nil (hs : s.frames ≠ []) (other : String) (t : Ty) :
    (s.set other t).frames ≠ [] :=
  frames_setKey_ne_nil hs _

def setAll (s : Scope) (types : List (String × Ty)) : Scope :=
  types.foldl (fun s p ↦ s.set p.1 p.2) s

theorem get?_setAll_of_not_mem {types : List (String × Ty)} (hs : s.frames ≠ [])
    (hname : name ∉ types.map Prod.fst) : (s.setAll types).get? w name = s.get? w name := by
  induction types generalizing s with
  | nil => rfl
  | cons p types ih =>
    rw [List.map_cons, List.mem_cons, not_or] at hname
    rw [setAll, List.foldl_cons, ← setAll, ih (frames_set_ne_nil hs _ _) hname.2, get?_set hs,
      if_neg hname.1]

theorem get?_setAll {types : List (String × Ty)} (hs : s.frames ≠ [])
    (hdistinct : (types.map Prod.fst).Nodup) {t : Ty} (hmem : (name, t) ∈ types) :
    (s.setAll types).get? w name = some t := by
  induction types generalizing s with
  | nil => cases hmem
  | cons p types ih =>
    obtain ⟨hfirst, hrest⟩ := List.nodup_cons.mp hdistinct
    have hframes := frames_set_ne_nil hs p.1 p.2
    rw [setAll, List.foldl_cons, ← setAll]
    rcases List.mem_cons.mp hmem with rfl | hmem
    · rw [get?_setAll_of_not_mem hframes hfirst, get?_set hs, if_pos rfl]
    · exact ih hframes hrest hmem

theorem map_get?_setAll {names : List String} {types : List Ty} (hs : s.frames ≠ [])
    (hdistinct : names.Nodup) (hlength : names.length = types.length) :
    names.map ((s.setAll (names.zip types)).get? w) = types.map some := by
  refine List.ext_getElem (by simpa using hlength) fun i hi hi' ↦ ?_
  rw [List.length_map] at hi hi'
  rw [List.getElem_map, List.getElem_map]
  refine get?_setAll hs (by rwa [List.map_fst_zip (Nat.le_of_eq hlength)]) ?_
  rw [← List.getElem_zip (h := by simpa [hlength] using hi')]
  exact List.getElem_mem _

end Scope

namespace Parameters

/-- What the positional parameters are, if so many of the optional ones are given an argument: the
required ones have the first arguments, the given ones those that come next, and the ones after the
rest those that follow; any other may be anything. For the rest nothing is left. -/
structure Filled (p : Parameters) (args : List Ty) (given : Nat) (type? : String → Option Ty) :
    Prop where
  required : ∀ i name, p.required[i]? = some name → type? name = some (args.getD i .object)
  optional : ∀ i name, p.optional[i]? = some name →
    type? name = some (if i < given then args.getD (p.required.length + i) .object else .object)
  post : ∀ i name, p.post[i]? = some name →
    type? name = some (args.getD (p.required.length + given + i) .object)
  rest : ∀ name ∈ p.rest, type? name = some (.instWith .array [("Elem", .object)])

/-- How many optional parameters are given one of so many arguments. With a rest parameter they
come before the parameters after the rest. -/
def given (p : Parameters) (count : Nat) : Nat :=
  if p.rest.isSome then min p.optional.length (count - p.required.length)
  else count - p.required.length - p.post.length

theorem map_fst_pair (names : List String) (types : List Ty) :
    (pair names types).map Prod.fst = names := by
  rw [pair, List.map_fst_zip]
  rw [List.length_append, List.length_replicate]
  omega

theorem mem_pair {names : List String} {i : Nat} {name : String} (h : names[i]? = some name)
    (types : List Ty) : (name, types.getD i .object) ∈ pair names types := by
  obtain ⟨hi, rfl⟩ := List.getElem?_eq_some_iff.mp h
  refine List.mem_iff_getElem?.mpr ⟨i, ?_⟩
  rw [pair, List.getElem?_zip_eq_some]
  refine ⟨h, ?_⟩
  rcases Nat.lt_or_ge i types.length with hlt | hge
  · rw [List.getElem?_append_left hlt, List.getD_eq_getElem?_getD, List.getElem?_eq_getElem hlt]
    rfl
  · rw [List.getElem?_append_right hge, List.getElem?_replicate, if_pos (by omega),
      List.getD_eq_getElem?_getD, List.getElem?_eq_none hge]
    rfl

variable {p : Parameters} {args : List Ty}

theorem map_fst_assign_perm (p : Parameters) (args : List Ty) :
    ((p.assign args).map Prod.fst).Perm p.names := by
  have hmap (names : List String) (t : Ty) : (names.map (·, t)).map Prod.fst = names := by
    rw [List.map_map]
    exact List.map_id' names
  simp only [assign, List.map_append, map_fst_pair, hmap, names]
  refine .append_right _ (.append_right _ (.append_right _ ?_))
  simp only [List.append_assoc]
  exact (List.perm_append_comm.append_left _).append_left _

theorem getD_take {l : List Ty} {i count : Nat} :
    (l.take count).getD i .object = if i < count then l.getD i .object else .object := by
  rw [List.getD_eq_getElem?_getD, List.getElem?_take]
  split
  · rfl
  · rfl

theorem getD_drop {l : List Ty} {i count : Nat} :
    (l.drop count).getD i .object = l.getD (count + i) .object := by
  rw [List.getD_eq_getElem?_getD, List.getElem?_drop, ← List.getD_eq_getElem?_getD]

theorem assign_eq (hmin : p.required.length + p.post.length ≤ args.length)
    (hmax : args.length ≤ p.required.length + p.optional.length + p.post.length) :
    p.assign args =
      pair p.required (args.take p.required.length) ++
        pair p.optional ((args.drop p.required.length).take (p.given args.length)) ++
        pair p.post (args.drop (p.required.length + p.given args.length)) ++
        p.rest.toList.map (·, Ty.arrayOf []) ++ p.keywords.map (·, Ty.object) ++
        p.keywordRest.toList.map (·, Ty.hashOf Ty.symbol Ty.object) ++
        p.block.toList.map (·, Ty.proc) := by
  cases hrest : p.rest with
  | none =>
    simp only [assign, given, hrest, Option.isSome_none, Bool.false_eq_true, if_false,
      Nat.add_zero, List.length_drop, List.drop_drop, Option.toList_none, List.map_nil]
  | some name =>
    have htake : (args.drop p.required.length).take p.optional.length =
        (args.drop p.required.length).take
          (min p.optional.length (args.length - p.required.length)) := by
      rw [List.take_eq_take_iff, List.length_drop]
      omega
    have hdrop : args.drop (p.required.length + p.optional.length) =
        args.drop (p.required.length +
          min p.optional.length (args.length - p.required.length)) := by
      rw [List.drop_eq_drop_iff]
      omega
    have hnone :
        (args.drop (p.required.length + p.optional.length)).length - p.post.length = 0 := by
      rw [List.length_drop]
      omega
    simp only [assign, given, hrest, Option.isSome_some, if_true, List.drop_drop, hnone,
      List.take_zero, Nat.add_zero]
    rw [htake, hdrop]

theorem filled_given (hmin : p.required.length + p.post.length ≤ args.length)
    (hmax : args.length ≤ p.required.length + p.optional.length + p.post.length)
    {type? : String → Option Ty} (htype : ∀ q ∈ p.assign args, type? q.1 = some q.2) :
    p.Filled args (p.given args.length) type? := by
  rw [assign_eq hmin hmax] at htype
  simp only [List.forall_mem_append] at htype
  obtain ⟨⟨⟨⟨⟨⟨hrequired, hoptional⟩, hpost⟩, hrest⟩, -⟩, -⟩, -⟩ := htype
  refine ⟨fun i name h ↦ ?_, fun i name h ↦ ?_, fun i name h ↦ ?_, fun name h ↦ ?_⟩
  · rw [hrequired _ (mem_pair h _), getD_take, if_pos (List.getElem?_eq_some_iff.mp h).1]
  · rw [hoptional _ (mem_pair h _), getD_take, getD_drop]
  · rw [hpost _ (mem_pair h _), getD_drop]
  · exact hrest _ (List.mem_map_of_mem (Option.mem_toList.mpr h))

theorem given_eq_iff (hmin : p.required.length + p.post.length ≤ args.length)
    (hmax : args.length ≤ p.required.length + p.optional.length + p.post.length) :
    p.given args.length = args.length - p.required.length - p.post.length ↔
      p.rest = none ∨ p.post = [] ∨
        args.length = p.required.length + p.optional.length + p.post.length := by
  rw [← List.length_eq_zero_iff, given]
  cases p.rest with
  | none => simp
  | some name =>
    simp only [Option.isSome_some, if_true, reduceCtorEq, false_or]
    omega

theorem forall_mem_drop {l : List Ty} {count : Nat} :
    (∀ t ∈ l.drop count, t = .object) ↔ ∀ i, count ≤ i → l.getD i .object = .object := by
  constructor
  · intro h i hi
    rw [← Nat.add_sub_cancel' hi, ← getD_drop, List.getD_eq_getElem?_getD]
    cases hget : (l.drop count)[i - count]? with
    | none => rfl
    | some t => exact h t (List.mem_of_getElem? hget)
  · intro h t ht
    obtain ⟨i, hi⟩ := List.mem_iff_getElem?.mp ht
    have hobject := h (count + i) (Nat.le_add_right _ _)
    rwa [← getD_drop, List.getD_eq_getElem?_getD, hi] at hobject

/-- If two fillings agree, nothing is known of the arguments that they give to different parameters.
The first of these go to optional parameters that have none in the other filling, and each of the
others is the same as an earlier one. -/
theorem object_of_filled_twice {type? : String → Option Ty} {few many : Nat} (hlt : few < many)
    (hmany : many ≤ p.optional.length)
    (hlength : args.length = p.required.length + few + p.post.length)
    (hfew : p.Filled args few type?) (hfilled : p.Filled args many type?) (i : Nat)
    (hi : p.required.length + few ≤ i) : args.getD i .object = .object := by
  induction i using Nat.strongRecOn with
  | ind i ih =>
    rcases Nat.lt_or_ge i (p.required.length + many) with hbefore | hafter
    · have hget : p.optional[i - p.required.length]? = some _ :=
        List.getElem?_eq_getElem (by omega)
      have hsame := (hfilled.optional _ _ hget).symm.trans (hfew.optional _ _ hget)
      rwa [if_pos (by omega), if_neg (by omega), Nat.add_sub_cancel' (by omega),
        Option.some_inj] at hsame
    · rcases Nat.lt_or_ge (i - (p.required.length + many)) p.post.length with hpost | hbeyond
      · have hget : p.post[i - (p.required.length + many)]? = some _ :=
          List.getElem?_eq_getElem hpost
        have hsame := (hfilled.post _ _ hget).symm.trans (hfew.post _ _ hget)
        rw [Nat.add_sub_cancel' hafter, Option.some_inj] at hsame
        rw [hsame]
        exact ih _ (by omega) (by omega)
      · rw [List.getD_eq_getElem?_getD, List.getElem?_eq_none (by omega)]
        rfl

theorem Filled.of_objects {type? : String → Option Ty} {few many : Nat} (hle : few ≤ many)
    (hobjects : ∀ i, p.required.length + few ≤ i → args.getD i .object = .object)
    (hfilled : p.Filled args many type?) : p.Filled args few type? := by
  refine ⟨hfilled.required, fun i name h ↦ ?_, fun i name h ↦ ?_, hfilled.rest⟩
  · rw [hfilled.optional i name h]
    split <;> split
    · rfl
    · rw [hobjects _ (by omega)]
    · omega
    · rfl
  · rw [hfilled.post i name h, hobjects _ (by omega), hobjects _ (by omega)]

theorem filled_reserving_iff (hmin : p.required.length + p.post.length ≤ args.length)
    (hmax : args.length ≤ p.required.length + p.optional.length + p.post.length)
    {type? : String → Option Ty} (hfilled : p.Filled args (p.given args.length) type?) :
    p.Filled args (args.length - p.required.length - p.post.length) type? ↔
      p.rest = none ∨ args.length = p.required.length + p.optional.length + p.post.length ∨
        ∀ t ∈ args.drop (args.length - p.post.length), t = Ty.object := by
  rw [forall_mem_drop]
  by_cases hgiven : p.given args.length = args.length - p.required.length - p.post.length
  · rw [← hgiven]
    refine iff_of_true hfilled ?_
    rcases (given_eq_iff hmin hmax).mp hgiven with hrest | hpost | hall
    · exact .inl hrest
    · refine .inr (.inr fun i hi ↦ ?_)
      rw [hpost, List.length_nil] at hi
      rw [List.getD_eq_getElem?_getD, List.getElem?_eq_none (by omega)]
      rfl
    · exact .inr (.inl hall)
  · have hbounds : args.length - p.required.length - p.post.length < p.given args.length ∧
        p.given args.length ≤ p.optional.length := by
      revert hgiven
      rw [given]
      split <;> omega
    obtain ⟨hrest, -, hall⟩ : p.rest ≠ none ∧ p.post ≠ [] ∧ args.length ≠ _ := by
      simpa only [not_or] using mt (given_eq_iff hmin hmax).mpr hgiven
    have hstart : args.length - p.post.length =
        p.required.length + (args.length - p.required.length - p.post.length) := by omega
    simp only [hrest, hall, false_or, hstart]
    exact ⟨fun h ↦ object_of_filled_twice hbounds.1 hbounds.2 (by omega) h hfilled,
      fun h ↦ hfilled.of_objects (by omega) h⟩

end Parameters

namespace Eval

variable {task : Task} {f g : Flow}

theorem gives_setAll {types : List (String × Ty)} {u : Unit} :
    Gives (setAll types) f u g ↔
      g = { f with scope := f.scope.setAll types } :=
  gives_change

theorem spreadArgument_eq {p : Parameters} {args : List Ty}
    (hspread : args.length ≠ 1 ∨ p.positionalCount < 2) :
    spreadArgument task p args = pure args := by
  unfold spreadArgument
  split
  · rw [if_neg]
    rcases hspread with hlength | hcount
    · exact absurd rfl hlength
    · omega
  · rfl

/-- Arguments are given out from the front: to the required parameters, to as many optional ones as
there is room for, and to those after the rest. So with a rest parameter the last arguments are not
kept for the parameters after it, unless every optional parameter has an argument or nothing is
known of those last arguments. -/
theorem assignParameters_fills_from_front (task : Task) (p : Parameters) (args : List Ty) (f : Flow)
    (hdistinct : p.names.Nodup)
    (hmin : p.required.length + p.post.length ≤ args.length)
    (hmax : args.length ≤ p.required.length + p.optional.length + p.post.length)
    (hspread : args.length ≠ 1 ∨ p.positionalCount < 2) (hframes : f.scope.frames ≠ []) :
    ∃ g, Gives (assignParameters task p args) f () g ∧
      ∀ w, p.Filled args (p.given args.length) (g.scope.get? w) ∧
        (p.Filled args (args.length - p.required.length - p.post.length) (g.scope.get? w) ↔
          p.rest = none ∨
            args.length = p.required.length + p.optional.length + p.post.length ∨
            ∀ t ∈ args.drop (args.length - p.post.length), t = Ty.object) := by
  refine ⟨{ f with scope := f.scope.setAll (p.assign args) }, ?_, fun w ↦ ?_⟩
  · rw [assignParameters, spreadArgument_eq hspread, pure_bind]
    exact gives_setAll.mpr rfl
  · have hfilled := p.filled_given hmin hmax fun q hq ↦ Scope.get?_setAll (w := w) hframes
      ((p.map_fst_assign_perm args).nodup_iff.mpr hdistinct) hq
    exact ⟨hfilled, p.filled_reserving_iff hmin hmax hfilled⟩

/-- `|x, a = nil, *r, b|` -/
def crowdedParameters : Parameters :=
  { required := ["x"], optional := ["a"], rest := some "r", post := ["b"] }

theorem assignParameters_fills_from_front_crowded :
    ∃ g, Gives (assignParameters { target := 1, maxDepth := 3 } crowdedParameters
        [.integer, .string]) { world := {}, scope := .bare [] } () g ∧
      g.scope.get? {} "a" = some .string ∧ g.scope.get? {} "b" = some .object ∧
      ¬crowdedParameters.Filled [.integer, .string] 0 (g.scope.get? {}) := by
  obtain ⟨g, hgives, hfills⟩ := assignParameters_fills_from_front { target := 1, maxDepth := 3 }
    crowdedParameters [.integer, .string] { world := {}, scope := .bare [] } (by decide) (by decide)
    (by decide) (.inl (by decide)) (List.cons_ne_nil _ _)
  obtain ⟨hfilled, -⟩ := hfills {}
  have hb : g.scope.get? {} "b" = some .object := hfilled.post 0 _ rfl
  refine ⟨g, hgives, hfilled.optional 0 _ rfl, hb, fun hkept ↦ ?_⟩
  have hstring : some Ty.object = some Ty.string := hb.symm.trans (hkept.post 0 _ rfl)
  cases hstring

end Eval

inductive Node.Targets : Node → String → Prop
  | plain {span index kind name} : Targets (.mk span index (.varTarget kind name)) name
  | splat {span index inner number kind name} :
      Targets (.mk span index (.splat (some (.mk inner number (.varTarget kind name))))) name

/-- What the variables of a multiple assignment are, for the types of the values. -/
structure Distributed (targets : List Node) (names : List String) (values : List Ty)
    (type? : String → Option Ty) : Prop where
  plain : (∀ c ∈ targets, c.isSplat = false) → ∀ i name, names[i]? = some name →
    type? name = some (values.getD i .nil)
  /-- Around a splat every value goes to one variable, if there is one for each of the others. -/
  enough : ∀ before name after, names = before ++ name :: after →
    (∃ c, targets[before.length]? = some c ∧ c.isSplat = true) →
    before.length + after.length ≤ values.length →
    ∃ heads middle tails, values = heads ++ middle ++ tails ∧
      before.map type? = heads.map some ∧ type? name = some (.arrayOf middle) ∧
      after.map type? = tails.map some
  short : ∀ before name after, names = before ++ name :: after →
    (∃ c, targets[before.length]? = some c ∧ c.isSplat = true) →
    values.length < before.length + after.length →
    (∀ i x, before[i]? = some x → type? x = some (values.getD i .nil)) ∧
      type? name = some (.arrayOf []) ∧
      ∀ i x, after[i]? = some x → type? x = some (values.getD (before.length + i) .nil)

variable {targets : List Node} {names : List String} {values : List Ty}

theorem distribute_of_plain (hplain : ∀ c ∈ targets, c.isSplat = false) :
    distribute targets values = (List.range targets.length).map fun i ↦ values.getD i .nil := by
  rw [distribute, List.findIdx?_eq_none_iff.mpr hplain]

theorem distribute_of_splat {before after : List Node} {splat : Node}
    (hbefore : ∀ c ∈ before, c.isSplat = false) (hsplat : splat.isSplat = true) :
    distribute (before ++ splat :: after) values =
      let stop := max (values.length - after.length) before.length
      (List.range before.length).map (fun i ↦ values.getD i .nil) ++
        [Ty.arrayOf ((values.take stop).drop before.length)] ++
        (List.range after.length).map fun i ↦ values.getD (stop + i) .nil := by
  have hfind : (before ++ splat :: after).findIdx? Node.isSplat = some before.length := by
    rw [List.findIdx?_append, List.findIdx?_eq_none_iff.mpr hbefore, List.findIdx?_cons, hsplat,
      if_pos rfl, Option.none_or, Option.map_some, Nat.zero_add]
  have hafter : (before ++ splat :: after).length - before.length - 1 = after.length := by
    rw [List.length_append, List.length_cons]
    omega
  rw [distribute, hfind]
  simp only [hafter]

theorem map_getD_range {start count : Nat} (h : start + count ≤ values.length) :
    (List.range count).map (fun i ↦ values.getD (start + i) .nil) =
      (values.drop start).take count := by
  refine List.ext_getElem ?_ fun i hi _ ↦ ?_
  · rw [List.length_map, List.length_range, List.length_take, List.length_drop]
    omega
  · simp only [List.getElem_map, List.getElem_range, List.getElem_take, List.getElem_drop]
    exact (List.getElem_eq_getD Ty.nil).symm

theorem length_distribute (targets : List Node) (values : List Ty) :
    (distribute targets values).length = targets.length := by
  rw [distribute]
  cases hfind : targets.findIdx? Node.isSplat with
  | none => simp
  | some splat =>
    have hlt := (List.findIdx?_eq_some_iff_getElem.mp hfind).1
    simp only [List.length_append, List.length_map, List.length_range, List.length_singleton]
    omega

theorem type?_of_map_eq {type? : String → Option Ty} {value : Nat → Ty} {count : Nat}
    (h : names.map type? = ((List.range count).map value).map some) {i : Nat} {name : String}
    (hname : names[i]? = some name) : type? name = some (value i) := by
  have hlength : names.length = count := by simpa using congrArg List.length h
  have hi := congrArg (fun l ↦ l[i]?) h
  obtain ⟨hlt, -⟩ := List.getElem?_eq_some_iff.mp hname
  simpa [hname, List.getElem?_range (hlength ▸ hlt)] using hi

theorem types_around_splat {type? : String → Option Ty} {before after : List String}
    {name : String} (hnames : names = before ++ name :: after)
    (hlength : names.length = targets.length) (hone : targets.countP Node.isSplat ≤ 1)
    (hsplat : ∃ c, targets[before.length]? = some c ∧ c.isSplat = true)
    (htypes : names.map type? = (distribute targets values).map some) :
    let stop := max (values.length - after.length) before.length
    before.map type? =
        ((List.range before.length).map fun i ↦ values.getD i .nil).map some ∧
      type? name = some (Ty.arrayOf ((values.take stop).drop before.length)) ∧
      after.map type? =
        ((List.range after.length).map fun i ↦ values.getD (stop + i) .nil).map some := by
  obtain ⟨splat, hget, hsplat⟩ := hsplat
  obtain ⟨hlt, rfl⟩ := List.getElem?_eq_some_iff.mp hget
  have hsplit : targets = targets.take before.length ++
      targets[before.length] :: targets.drop (before.length + 1) := by
    rw [List.getElem_cons_drop, List.take_append_drop]
  have hplain : ∀ c ∈ targets.take before.length, c.isSplat = false := by
    rw [hsplit, List.countP_append, List.countP_cons_of_pos hsplat] at hone
    have hnone : (targets.take before.length).countP Node.isSplat = 0 := by omega
    simpa using hnone
  have hfirst : (targets.take before.length).length = before.length := by
    rw [List.length_take]
    omega
  have hlast : (targets.drop (before.length + 1)).length = after.length := by
    rw [List.length_drop, ← hlength, hnames, List.length_append, List.length_cons]
    omega
  rw [hsplit, distribute_of_splat hplain hsplat, hnames, hfirst, hlast] at htypes
  simp only [List.map_append, List.map_cons, List.append_assoc, List.singleton_append] at htypes
  obtain ⟨hbefore, hrest⟩ := List.append_inj htypes (by simp)
  exact ⟨hbefore, List.cons.inj hrest⟩

theorem distributed_of_map_eq {type? : String → Option Ty}
    (hlength : names.length = targets.length) (hone : targets.countP Node.isSplat ≤ 1)
    (htypes : names.map type? = (distribute targets values).map some) :
    Distributed targets names values type? := by
  refine ⟨fun hplain i name hname ↦ ?_, fun before name after hnames hsplat hle ↦ ?_,
    fun before name after hnames hsplat hlt ↦ ?_⟩
  · rw [distribute_of_plain hplain] at htypes
    exact type?_of_map_eq htypes hname
  · obtain ⟨hbefore, hname, hafter⟩ := types_around_splat hnames hlength hone hsplat htypes
    have hstop : max (values.length - after.length) before.length =
        values.length - after.length := by omega
    rw [hstop] at hname hafter
    refine ⟨values.take before.length, _, values.drop (values.length - after.length), ?_, ?_, hname,
      ?_⟩
    · have htake : (values.take (values.length - after.length)).take before.length =
          values.take before.length := by
        rw [List.take_take, Nat.min_eq_left (by omega)]
      rw [← htake, List.take_append_drop, List.take_append_drop]
    · have hrange : (List.range before.length).map (fun i ↦ values.getD (0 + i) .nil) =
          (values.drop 0).take before.length := map_getD_range (by omega)
      simp only [Nat.zero_add, List.drop_zero] at hrange
      rw [hbefore, hrange]
    · rw [hafter, map_getD_range (by omega), List.take_of_length_le]
      rw [List.length_drop]
      omega
  · obtain ⟨hbefore, hname, hafter⟩ := types_around_splat hnames hlength hone hsplat htypes
    have hstop : max (values.length - after.length) before.length = before.length := by omega
    rw [hstop] at hname hafter
    refine ⟨fun i x hx ↦ type?_of_map_eq hbefore hx, ?_, fun i x hx ↦ type?_of_map_eq hafter hx⟩
    rw [hname, List.drop_take, Nat.sub_self, List.take_zero]

namespace Eval

variable {task : Task} {f g : Flow}

theorem gives_change_bind {op : Scope → Scope} {k : Unit → Eval Unit} {u : Unit} :
    Gives (change op >>= k) f u g ↔ Gives (k ()) { f with scope := op f.scope } u g := by
  rw [gives_bind]
  constructor
  · rintro ⟨_, _, hchange, hgives⟩
    rwa [gives_change.mp hchange] at hgives
  · exact fun hgives ↦ ⟨(), _, gives_change.mpr rfl, hgives⟩

theorem gives_assignEach {ev : Node → Eval Ty} (seen : Bool) {u : Unit}
    (hnames : List.Forall₂ Node.Targets targets names)
    (hone : targets.countP Node.isSplat ≤ if seen then 0 else 1) :
    Gives (assignEach task ev seen targets values) f u g ↔
      g = { f with scope := f.scope.setAll (names.zip values) } := by
  induction hnames generalizing seen values f with
  | nil =>
    simp only [assignEach]
    exact gives_pure.trans (and_iff_right rfl)
  | cons hfirst _ ih =>
    cases values with
    | nil =>
      simp only [assignEach]
      exact gives_pure.trans (and_iff_right rfl)
    | cons value values =>
      cases hfirst with
      | plain =>
        rw [List.countP_cons_of_neg (by simp [Node.isSplat, Node.kind])] at hone
        simp only [assignEach, assign, assignKind, gives_change_bind, ih seen hone]
        rfl
      | splat =>
        rw [List.countP_cons_of_pos (by simp [Node.isSplat, Node.kind])] at hone
        -- The splat is the only one, so the array it is given is already made.
        cases seen with
        | true => simp at hone
        | false =>
          simp only [assignEach, assignOptional, assign, assignKind, gives_change_bind,
            ih true (by simpa using hone)]
          rfl

/-- A multiple assignment of items written out gives every value to one target, and is an array of
them. -/
theorem multiWrite_distributes {depth : Nat} {n value : Node} {items : List Node} {t : Ty}
    (hkind : n.kind = .multiWrite targets value) (hvalue : value.kind = .array items)
    (hitems : ∀ c ∈ items, c.isSplat = false) (hnames : List.Forall₂ Node.Targets targets names)
    (hdistinct : names.Nodup) (hone : targets.countP Node.isSplat ≤ 1)
    (hframes : f.scope.frames ≠ []) (hgives : Gives (evaluate task depth n) f t g) :
    ∃ d values h, depth = d + 1 ∧ Gives (items.mapM (evaluate task d)) f values h ∧
      values.length = items.length ∧ t = Ty.arrayOf values ∧
      ∀ w, Distributed targets names values (g.scope.get? w) := by
  obtain ⟨d, after, rfl, hend, hscope, -⟩ := hgives.evaluateKind
  have hany : items.any Node.isSplat = false := by simpa using hitems
  rw [Eval.evaluateKind, hkind] at hend
  simp only [evaluateMultiWrite, hvalue, hany, Bool.false_eq_true, if_false] at hend
  obtain ⟨values, h, hvalues, hend⟩ := gives_bind.mp hend
  rw [pure_bind] at hend
  obtain ⟨_, _, hassigned, hpure⟩ := gives_bind.mp hend
  obtain ⟨rfl, rfl⟩ := gives_pure.mp hpure
  have hlength := hnames.length_eq.symm
  have hdistribute := length_distribute targets values
  have hsteady : Steady (items.mapM (evaluate task d)) := Obeys.mapM fun c _ ↦ steady_evaluate d c
  refine ⟨d, values, h, rfl, hvalues, hvalues.forall₂_mapM.length_eq.symm, rfl, fun w ↦ ?_⟩
  rw [hscope, (gives_assignEach false hnames (by simpa using hone)).mp hassigned]
  exact distributed_of_map_eq hlength hone (Scope.map_get?_setAll
    ((hsteady hvalues).frames_ne_nil hframes) hdistinct (hlength.trans hdistribute.symm))

/-- `a, *b, c` -/
def spreadTargets : List Node :=
  [.ofKind (.varTarget .lvar "a"), .ofKind (.splat (some (.ofKind (.varTarget .lvar "b")))),
    .ofKind (.varTarget .lvar "c")]

/-- `1, nil, true, 2` -/
def spreadItems : List Node :=
  [.ofKind (.integer 1), .ofKind .nil, .ofKind (.bool true), .ofKind (.integer 2)]

theorem multiWrite_distributes_splat :
    ∃ t g, Gives (evaluate { target := 1, maxDepth := 3 } 3
          (.ofKind (.multiWrite spreadTargets (.ofKind (.array spreadItems)))))
        { world := {}, scope := .bare [] } t g ∧
      g.scope.get? {} "a" = some .integer ∧
      g.scope.get? {} "b" = some (.arrayOf [.nil, .inst .trueClass]) ∧
      g.scope.get? {} "c" = some .integer := by
  obtain ⟨t, g, hgives⟩ := exists_gives (f := { world := {}, scope := .bare [] })
    (m := evaluate { target := 1, maxDepth := 3 } 3
      (.ofKind (.multiWrite spreadTargets (.ofKind (.array spreadItems))))) (by decide +kernel)
  have hnames : List.Forall₂ Node.Targets spreadTargets ["a", "b", "c"] :=
    .cons .plain (.cons .splat (.cons .plain .nil))
  obtain ⟨d, values, h, hd, hvalues, -, -, hdistributed⟩ := multiWrite_distributes rfl rfl
    (by decide) hnames (by decide) (by decide) (List.cons_ne_nil _ _) hgives
  obtain rfl := Nat.succ.inj hd
  have hrun : Except.ok [.integer, .nil, .inst .trueClass, .integer] = Except.ok values :=
    congrArg Prod.fst hvalues
  obtain rfl := Except.ok.inj hrun
  obtain ⟨heads, middle, tails, hsplit, ha, hb, hc⟩ := (hdistributed {}).enough ["a"] "b" ["c"] rfl
    ⟨_, rfl, rfl⟩ (by decide)
  obtain ⟨first, rfl⟩ := List.length_eq_one_iff.mp (by simpa using (congrArg List.length ha).symm)
  obtain ⟨last, rfl⟩ := List.length_eq_one_iff.mp (by simpa using (congrArg List.length hc).symm)
  obtain ⟨rfl, hrest⟩ := List.cons.inj hsplit
  obtain ⟨rfl, hlast⟩ : [.nil, .inst .trueClass] = middle ∧ [Ty.integer] = [last] :=
    List.append_inj' hrest rfl
  obtain rfl := (List.cons.inj hlast).1
  exact ⟨t, g, hgives, (List.cons.inj ha).1, hb, (List.cons.inj hc).1⟩

end Eval

end FlowCompletion
