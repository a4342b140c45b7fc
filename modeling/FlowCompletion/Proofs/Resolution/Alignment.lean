import FlowCompletion.Resolution.Overload

namespace FlowCompletion

def slice? {α : Type} (l : List α) (start stop : Nat) : Option (List α) :=
  if start ≤ stop ∧ stop ≤ l.length then some ((l.take stop).drop start) else none

def difference? (a b : Nat) : Option Nat := if b ≤ a then some (a - b) else none

section slices

variable {α : Type} {l : List α} {start stop : Nat}

theorem slice?_of_le (h : start ≤ stop) (hstop : stop ≤ l.length) :
    slice? l start stop = some ((l.take stop).drop start) :=
  if_pos ⟨h, hstop⟩

theorem slice?_zero (hstop : stop ≤ l.length) : slice? l 0 stop = some (l.take stop) :=
  slice?_of_le (Nat.zero_le _) hstop

theorem slice?_length (hstart : start ≤ l.length) :
    slice? l start l.length = some (l.drop start) := by
  rw [slice?_of_le hstart (Nat.le_refl _), List.take_length]

end slices

namespace FunctionType

def align? (f : FunctionType) (args : List Ty) : Option (List Ty × List TypeExpr) := do
  let stop ← difference? args.length f.trailing.length
  let middle ← slice? args f.required.length stop
  let taken := min middle.length f.optional.length
  let first ← slice? args 0 f.required.length
  let next ← slice? middle 0 taken
  let last ← slice? args stop args.length
  let optional ← slice? f.optional 0 taken
  let left ← slice? middle taken middle.length
  return (first ++ next ++ last ++ f.rest.toList.map (fun _ ↦ Ty.union left),
    f.required ++ optional ++ f.trailing ++ f.rest.toList)

/-- The arguments fall into those of the required parameters, those of optional ones, those that
are left over, and those of the trailing parameters. -/
structure Parts (f : FunctionType) (args first next left last : List Ty) : Prop where
  args_eq : args = first ++ next ++ left ++ last
  length_first : first.length = f.required.length
  length_next :
    next.length = min f.optional.length (args.length - f.required.length - f.trailing.length)
  length_last : last.length = f.trailing.length

variable {f : FunctionType} {args first next left last : List Ty}

theorem admits_iff {count : Nat} :
    f.admits count = true ↔
      f.required.length + f.trailing.length ≤ count ∧
        (f.rest = none → count ≤ f.required.length + f.optional.length + f.trailing.length) := by
  cases hrest : f.rest <;> simp [admits, hrest]

theorem exists_parts (h : f.required.length + f.trailing.length ≤ args.length) :
    ∃ first next left last, f.Parts args first next left last := by
  let stop := args.length - f.trailing.length
  let middle := (args.take stop).drop f.required.length
  let taken := min f.optional.length (args.length - f.required.length - f.trailing.length)
  refine ⟨args.take f.required.length, middle.take taken, middle.drop taken, args.drop stop,
    ?_, ?_, ?_, ?_⟩
  · have hfirst : args.take f.required.length = (args.take stop).take f.required.length := by
      rw [List.take_take, Nat.min_eq_left (by omega)]
    rw [List.append_assoc (args.take _), List.take_append_drop, hfirst, List.take_append_drop,
      List.take_append_drop]
  · rw [List.length_take]
    omega
  · simp only [middle, List.length_take, List.length_drop]
    omega
  · rw [List.length_drop]
    omega

namespace Parts

variable (h : f.Parts args first next left last)

include h

theorem length_args : args.length = first.length + next.length + left.length + last.length := by
  have hargs := congrArg List.length h.args_eq
  simpa only [List.length_append] using hargs

theorem length_le : f.required.length + f.trailing.length ≤ args.length := by
  have hargs := h.length_args
  rw [h.length_first, h.length_last] at hargs
  omega

theorem length_next_le : next.length ≤ f.optional.length := by
  rw [h.length_next]
  omega

theorem length_left :
    left.length =
      args.length - f.required.length - f.trailing.length - f.optional.length := by
  have hargs := h.length_args
  rw [h.length_first, h.length_last, h.length_next] at hargs
  omega

theorem left_eq_nil (hadmits : f.admits args.length = true) (hrest : f.rest = none) :
    left = [] := by
  have hcount := (admits_iff.mp hadmits).2 hrest
  have hlength := h.length_left
  exact List.eq_nil_of_length_eq_zero (by omega)

theorem split_stop :
    args.take (args.length - f.trailing.length) = first ++ next ++ left ∧
      args.drop (args.length - f.trailing.length) = last := by
  refine List.append_inj' ((List.take_append_drop _ args).trans h.args_eq) ?_
  have hlength := h.length_le
  rw [List.length_drop, h.length_last]
  omega

theorem take_first : args.take f.required.length = first := by
  rw [h.args_eq, ← h.length_first, List.append_assoc, List.append_assoc, List.take_left]

theorem middle_eq :
    (args.take (args.length - f.trailing.length)).drop f.required.length = next ++ left := by
  rw [h.split_stop.1, ← h.length_first, List.append_assoc, List.drop_left]

theorem taken_eq : min (next ++ left).length f.optional.length = next.length := by
  rw [List.length_append, h.length_left, h.length_next]
  omega

/-- Aligned are the parts but for what is left over, which comes at the end as one. -/
theorem align_eq :
    f.align args =
      (first ++ next ++ last ++ f.rest.toList.map (fun _ ↦ Ty.union left),
        f.required ++ f.optional.take next.length ++ f.trailing ++ f.rest.toList) := by
  simp only [align, h.middle_eq, h.taken_eq, h.take_first, h.split_stop.2, List.take_left,
    List.drop_left]

theorem align?_eq : f.align? args = some (f.align args) := by
  have hlength := h.length_le
  have hstop : difference? args.length f.trailing.length =
      some (args.length - f.trailing.length) := if_pos (by omega)
  have hmiddle : slice? args f.required.length (args.length - f.trailing.length) =
      some (next ++ left) := by
    rw [slice?_of_le (by omega) (by omega), h.middle_eq]
  simp only [align?, hstop, hmiddle, h.taken_eq, h.align_eq, Option.bind_eq_bind,
    Option.bind_some]
  rw [slice?_zero (by omega), slice?_zero (by simp), slice?_length (by omega),
    slice?_zero h.length_next_le, slice?_length (by simp), h.take_first, h.split_stop.2]
  simp only [Option.bind_some, List.take_left, List.drop_left, Option.pure_def]

theorem length_align : (f.align args).1.length = (f.align args).2.length := by
  rw [h.align_eq]
  simp [h.length_first, h.length_last, h.length_next_le]

end Parts

end FunctionType

namespace Resolver

/-- As `matchOf`, with an alignment that has to be in range. -/
def matchOf? (r : Resolver) (args : CallArguments) (receiver : Ty) (m : MethodType) :
    Option MethodMatch :=
  let known := (positionalFor m.function args).filterMap id
  if hasSplat args = false ∧ m.function.admits known.length then do
    let (given, expected) ← m.function.align? known
    let points := if m.block.isSome = args.hasBlock then 2 else 0
    let hits := (given.zip expected).countP fun (t, e) => r.fits receiver t e
    return { method := m, receiver, given, expected,
             score := ⟨points + 2, hits, max 1 given.length⟩ }
  else some (r.matchOf args receiver m)

def resolveMethod? (r : Resolver) (t : Ty) (name : String) (args : CallArguments) :
    Option (List MethodMatch) := do
  let all ← (r.overloads t name).mapM fun (receiver, m) => r.matchOf? args receiver m
  return all.filter fun m => all.all fun other => other.score.le m.score

variable {r : Resolver} {t receiver : Ty} {name : String} {args : CallArguments} {m : MethodType}

theorem matchOf_of_admits (hsplat : hasSplat args = false)
    (hadmits : m.function.admits ((positionalFor m.function args).filterMap id).length = true) :
    r.matchOf args receiver m =
      let aligned := m.function.align ((positionalFor m.function args).filterMap id)
      { method := m, receiver, given := aligned.1, expected := aligned.2,
        score := ⟨(if m.block.isSome = args.hasBlock then 2 else 0) + 2,
          (aligned.1.zip aligned.2).countP fun p ↦ r.fits receiver p.1 p.2,
          max 1 aligned.1.length⟩ } := by
  simp only [matchOf, hsplat, hadmits, Bool.false_eq_true, if_false, if_true]

theorem matchOf?_eq (receiver : Ty) (m : MethodType) :
    r.matchOf? args receiver m = some (r.matchOf args receiver m) := by
  rw [matchOf?]
  dsimp only
  split
  next h =>
    obtain ⟨hsplat, hadmits⟩ := h
    obtain ⟨first, next, left, last, hparts⟩ :=
      FunctionType.exists_parts (FunctionType.admits_iff.mp hadmits).1
    rw [hparts.align?_eq, matchOf_of_admits hsplat hadmits]
    rfl
  next => rfl

theorem length_given_matchOf (receiver : Ty) (m : MethodType) :
    (r.matchOf args receiver m).given.length = (r.matchOf args receiver m).expected.length := by
  by_cases h : hasSplat args = false ∧
      m.function.admits ((positionalFor m.function args).filterMap id).length = true
  · obtain ⟨hsplat, hadmits⟩ := h
    obtain ⟨first, next, left, last, hparts⟩ :=
      FunctionType.exists_parts (FunctionType.admits_iff.mp hadmits).1
    rw [matchOf_of_admits hsplat hadmits]
    exact hparts.length_align
  · rw [matchOf]
    dsimp only
    split
    · rfl
    · split
      · simp_all
      · rfl

theorem mem_resolveMethod {c : MethodMatch} :
    c ∈ r.resolveMethod t name args ↔
      (∃ o ∈ r.overloads t name, r.matchOf args o.1 o.2 = c) ∧
        ∀ o ∈ r.overloads t name, (r.matchOf args o.1 o.2).score.le c.score = true := by
  simp [resolveMethod]

theorem resolveMethod?_eq : r.resolveMethod? t name args = some (r.resolveMethod t name args) := by
  have hall : (r.overloads t name).mapM (fun o ↦ r.matchOf? args o.1 o.2) =
      some ((r.overloads t name).map fun o ↦ r.matchOf args o.1 o.2) := by
    simp only [matchOf?_eq]
    exact List.mapM_pure
  rw [resolveMethod?, hall]
  rfl

theorem hasSplat_of_known {known : List Ty} (h : args.positional = known.map some) :
    hasSplat args = false := by
  simp [hasSplat, h]

theorem known_positionalFor {known : List Ty} (h : args.positional = known.map some)
    (f : FunctionType) :
    (positionalFor f args).filterMap id =
      known ++ if args.keywords = [] ∨ f.acceptsKeywords = true then []
        else [Ty.hashOf Ty.symbol (Ty.union (args.keywords.map Prod.snd))] := by
  have hknown : (known.map some).filterMap id = known := by
    rw [List.filterMap_map]
    exact List.filterMap_some
  simp only [positionalFor, Bool.or_eq_true, List.isEmpty_iff, h]
  split
  · rw [hknown, List.append_nil]
  · rw [List.filterMap_append, hknown]
    rfl

/-- No slice is out of range, what is aligned has parameters of the same number, and wherever an
overload admits the arguments, none of them is lost. -/
theorem alignment_lossless (r : Resolver) (t : Ty) (name : String) (args : CallArguments) :
    r.resolveMethod? t name args = some (r.resolveMethod t name args) ∧
      (∀ c ∈ r.resolveMethod t name args, c.given.length = c.expected.length ∧
        ∃ o ∈ r.overloads t name, c = r.matchOf args o.1 o.2) ∧
      ∀ o ∈ r.overloads t name, ∀ f, f = o.2.function → ∀ known a : List Ty,
        args.positional = known.map some →
        (a = known ++ if args.keywords = [] ∨ f.acceptsKeywords = true then []
          else [Ty.hashOf Ty.symbol (Ty.union (args.keywords.map Prod.snd))]) →
        f.required.length + f.trailing.length ≤ a.length →
        (f.rest = none → a.length ≤ f.required.length + f.optional.length + f.trailing.length) →
        ∃ first next left last, f.Parts a first next left last ∧
          (r.matchOf args o.1 o.2).given =
            first ++ next ++ last ++ f.rest.toList.map (fun _ ↦ Ty.union left) ∧
          (r.matchOf args o.1 o.2).expected =
            f.required ++ f.optional.take next.length ++ f.trailing ++ f.rest.toList ∧
          (f.rest = none → left = []) := by
  refine ⟨resolveMethod?_eq, fun c hc ↦ ?_, ?_⟩
  · obtain ⟨o, ho, rfl⟩ := (mem_resolveMethod.mp hc).1
    exact ⟨length_given_matchOf o.1 o.2, o, ho, rfl⟩
  · rintro o - f rfl known a hknown ha hleast hmost
    rw [← known_positionalFor hknown] at ha
    subst ha
    have hadmits := FunctionType.admits_iff.mpr ⟨hleast, hmost⟩
    obtain ⟨first, next, left, last, hparts⟩ := FunctionType.exists_parts hleast
    have hmatch : r.matchOf args o.1 o.2 = _ :=
      matchOf_of_admits (hasSplat_of_known hknown) hadmits
    rw [hparts.align_eq] at hmatch
    rw [hmatch]
    exact ⟨first, next, left, last, hparts, rfl, rfl, hparts.left_eq_nil hadmits⟩

/-- `mix: (Integer, ?String, *Float, Hash) -> untyped` -/
def mixture : FunctionType where
  required := [.classInstance "Integer" []]
  optional := [.classInstance "String" []]
  rest := some (.classInstance "Float" [])
  trailing := [.classInstance "Hash" []]

def mixing : Resolver where
  world := World.initial
  database := some (({} : Database).extend { classes := [
    { name := "Integer", instanceMethods := [("mix", ⟨[{ function := mixture }], .pub⟩)] }] })

/-- `1.mix(1, "", 1.0, nil, k: 1)` -/
def mixCall : CallArguments where
  positional := [some .integer, some .string, some .float, some .nil]
  keywords := [("k", .integer)]

theorem alignment_lossless_mix :
    ∃ o ∈ mixing.overloads .integer "mix", ∃ first next left last,
      o.2.function.Parts
        [.integer, .string, .float, .nil, .hashOf .symbol (.union [.integer])]
        first next left last ∧
      first.length = 1 ∧ next.length = 1 ∧ left.length = 2 ∧ last.length = 1 ∧
      (mixing.matchOf mixCall o.1 o.2).given = first ++ next ++ last ++ [.union left] := by
  obtain ⟨-, -, halign⟩ := alignment_lossless mixing .integer "mix" mixCall
  have hany : (mixing.overloads .integer "mix").any (fun o ↦
      o.2.function.required.length = 1 ∧ o.2.function.optional.length = 1 ∧
        o.2.function.trailing.length = 1 ∧ o.2.function.rest.isSome ∧
        o.2.function.acceptsKeywords = false) = true := by
    decide +kernel
  obtain ⟨o, ho, hf⟩ := List.any_eq_true.mp hany
  obtain ⟨hrequired, hoptional, htrailing, hrest, hkeywords⟩ := of_decide_eq_true hf
  obtain ⟨e, he⟩ := Option.isSome_iff_exists.mp hrest
  obtain ⟨first, next, left, last, hparts, hgiven, -, -⟩ := halign o ho _ rfl
    [.integer, .string, .float, .nil] [.integer, .string, .float, .nil, .hashOf .symbol _] rfl
    (by simp [hkeywords, mixCall]; rfl) (by simp [hrequired, htrailing]) (by simp [he])
  have hnext := hparts.length_next
  have hleft := hparts.length_left
  simp only [hrequired, hoptional, htrailing, List.length_cons, List.length_nil] at hnext hleft
  refine ⟨o, ho, first, next, left, last, hparts, ?_⟩
  rw [hparts.length_first, hparts.length_last, hgiven, he]
  exact ⟨hrequired, hnext, hleft, htrailing, rfl⟩

end Resolver

end FlowCompletion
