import FlowCompletion.Proofs.Resolution.Alignment
import FlowCompletion.Proofs.Resolution.Fit
import Mathlib.Tactic.MkIffOfInductiveProp

namespace FlowCompletion

namespace FunctionType

def parameters (f : FunctionType) (count : Nat) : List TypeExpr :=
  let free := count - f.required.length - f.trailing.length
  f.required ++ f.optional.take (min f.optional.length free) ++
    f.rest.toList.flatMap (List.replicate (free - f.optional.length)) ++ f.trailing

end FunctionType

namespace Resolver

/-- The block is as called for, the number of arguments is right, and each of them fits its
parameter. -/
@[mk_iff] structure Suits (r : Resolver) (args : List Ty) (hasBlock : Bool) (receiver : Ty)
    (m : MethodType) : Prop where
  block : m.block.isSome = hasBlock
  least : m.function.required.length + m.function.trailing.length ≤ args.length
  most : m.function.rest = none → args.length ≤
    m.function.required.length + m.function.optional.length + m.function.trailing.length
  fits : ∀ p ∈ args.zip (m.function.parameters args.length), r.fits receiver p.1 p.2 = true

/-- No argument is left to the rest parameter, which any object would not fit; or there is neither
an argument nor a rest parameter. -/
def FallsShort (r : Resolver) (args : List Ty) (receiver : Ty) (m : MethodType) : Prop :=
  args.length ≤
      m.function.required.length + m.function.optional.length + m.function.trailing.length ∧
    ((m.function.rest = none ∧ args = []) ∨
      ∃ e, m.function.rest = some e ∧ r.fits receiver Ty.object e = false)

/-- The full score: whatever is aligned fits, and something is. -/
@[mk_iff] structure Excels (r : Resolver) (args : List Ty) (hasBlock : Bool) (receiver : Ty)
    (m : MethodType) : Prop where
  block : m.block.isSome = hasBlock
  admits : m.function.admits args.length = true
  aligned : (m.function.align args).1 ≠ []
  fits : ∀ p ∈ (m.function.align args).1.zip (m.function.align args).2,
    r.fits receiver p.1 p.2 = true

instance (r : Resolver) (args : List Ty) (hasBlock : Bool) (receiver : Ty) (m : MethodType) :
    Decidable (r.Suits args hasBlock receiver m) :=
  decidable_of_iff _ (suits_iff r args hasBlock receiver m).symm

instance (r : Resolver) (args : List Ty) (receiver : Ty) (m : MethodType) :
    Decidable (r.FallsShort args receiver m) :=
  decidable_of_iff
    (args.length ≤
        m.function.required.length + m.function.optional.length + m.function.trailing.length ∧
      ((m.function.rest = none ∧ args = []) ∨
        ∃ e ∈ m.function.rest.toList, r.fits receiver Ty.object e = false))
    (by simp only [Option.mem_toList, FallsShort])

instance (r : Resolver) (args : List Ty) (hasBlock : Bool) (receiver : Ty) (m : MethodType) :
    Decidable (r.Excels args hasBlock receiver m) :=
  decidable_of_iff _ (excels_iff r args hasBlock receiver m).symm

def hits (r : Resolver) (args : List Ty) (receiver : Ty) (f : FunctionType) : Nat :=
  ((f.align args).1.zip (f.align args).2).countP fun p ↦ r.fits receiver p.1 p.2

end Resolver

namespace FunctionType.Parts

variable {f : FunctionType} {args first next left last : List Ty}
  (h : f.Parts args first next left last)

include h

theorem length_take_optional : (f.optional.take next.length).length = next.length :=
  List.length_take_of_le h.length_next_le

theorem zip_align :
    (f.align args).1.zip (f.align args).2 =
      first.zip f.required ++ next.zip (f.optional.take next.length) ++ last.zip f.trailing ++
        f.rest.toList.map fun e ↦ (Ty.union left, e) := by
  have hfirst := h.length_first
  have hnext := h.length_take_optional
  have hlast := h.length_last
  rw [h.align_eq]
  dsimp only
  rw [List.zip_append (by simp [hfirst, hnext, hlast]), List.zip_append (by simp [hfirst, hnext]),
    List.zip_append hfirst]
  cases f.rest <;> rfl

theorem zip_parameters (hrest : f.rest = none → left = []) :
    args.zip (f.parameters args.length) =
      first.zip f.required ++ next.zip (f.optional.take next.length) ++
        left.zip (f.rest.toList.flatMap (List.replicate left.length)) ++ last.zip f.trailing := by
  have hfirst := h.length_first
  have hnext := h.length_take_optional
  have hleft : left.length = (f.rest.toList.flatMap (List.replicate left.length)).length := by
    cases hsome : f.rest with
    | none => simp [hrest hsome]
    | some e => simp
  have hparameters : f.parameters args.length =
      f.required ++ f.optional.take next.length ++
        f.rest.toList.flatMap (List.replicate left.length) ++ f.trailing := by
    rw [parameters, h.length_next, h.length_left]
  rw [hparameters, ← List.zip_append hfirst, ← List.zip_append (by simp [hfirst, hnext]),
    ← List.zip_append (by simp [hfirst, hnext, ← hleft]), ← h.args_eq]

theorem length_given :
    (f.align args).1.length =
      first.length + next.length + last.length + f.rest.toList.length := by
  rw [h.align_eq]
  simp only [List.length_append, List.length_map]

end FunctionType.Parts

namespace Score

theorem le_of_points_lt {a b : Score} (h : a.points < b.points) (hhits : a.hits ≤ a.tries) :
    a.le b = true := by
  refine decide_eq_true ?_
  calc
    a.numerator * b.tries ≤ (a.points + 1) * a.tries * b.tries := by
      refine Nat.mul_le_mul_right _ ?_
      rw [numerator, Nat.succ_mul]
      omega
    _ ≤ b.points * a.tries * b.tries := Nat.mul_le_mul_right _ (Nat.mul_le_mul_right _ h)
    _ = b.points * b.tries * a.tries := Nat.mul_right_comm ..
    _ ≤ b.numerator * a.tries := Nat.mul_le_mul_right _ (Nat.le_add_right ..)

theorem le_iff_of_points_eq {a b : Score} (h : a.points = b.points) :
    a.le b = true ↔ a.hits * b.tries ≤ b.hits * a.tries := by
  have hpoints : a.points * a.tries * b.tries = b.points * b.tries * a.tries := by
    rw [h, Nat.mul_right_comm]
  refine decide_eq_true_iff.trans ?_
  rw [numerator, numerator, Nat.add_mul, Nat.add_mul, hpoints]
  exact Nat.add_le_add_iff_left

end Score

namespace Resolver

variable {r : Resolver} {args : List Ty} {hasBlock : Bool} {receiver : Ty} {m : MethodType}

theorem hits_le : r.hits args receiver m.function ≤ (m.function.align args).1.length := by
  refine Nat.le_trans List.countP_le_length ?_
  rw [List.length_zip]
  omega

theorem length_aligned_le (h : m.function.admits args.length = true) :
    (m.function.align args).1.length ≤ args.length + 1 := by
  obtain ⟨first, next, left, last, hparts⟩ :=
    FunctionType.exists_parts (FunctionType.admits_iff.mp h).1
  have hrest : m.function.rest.toList.length ≤ 1 := by cases m.function.rest <;> simp
  rw [hparts.length_given, hparts.length_args]
  omega

theorem hits_eq_length_iff (h : m.function.admits args.length = true) :
    r.hits args receiver m.function = (m.function.align args).1.length ↔
      ∀ p ∈ (m.function.align args).1.zip (m.function.align args).2,
        r.fits receiver p.1 p.2 = true := by
  obtain ⟨first, next, left, last, hparts⟩ :=
    FunctionType.exists_parts (FunctionType.admits_iff.mp h).1
  have hlength : ((m.function.align args).1.zip (m.function.align args).2).length =
      (m.function.align args).1.length := by
    rw [List.length_zip, hparts.length_align, Nat.min_self]
  rw [hits, ← hlength, List.countP_eq_length]

theorem Suits.hits_eq (h : r.Suits args hasBlock receiver m) {first next left last : List Ty}
    (hparts : m.function.Parts args first next left last) :
    r.hits args receiver m.function =
      first.length + next.length + last.length +
        m.function.rest.toList.countP fun e ↦ r.fits receiver (Ty.union left) e := by
  have hrest := hparts.left_eq_nil (FunctionType.admits_iff.mpr ⟨h.least, h.most⟩)
  have hfits := h.fits
  rw [hparts.zip_parameters hrest] at hfits
  simp only [List.mem_append, or_imp, forall_and] at hfits
  obtain ⟨⟨⟨hfirst, hnext⟩, -⟩, hlast⟩ := hfits
  rw [hits, hparts.zip_align]
  simp only [List.countP_append, List.countP_map]
  rw [List.countP_eq_length.mpr hfirst, List.countP_eq_length.mpr hnext,
    List.countP_eq_length.mpr hlast, List.length_zip, List.length_zip, List.length_zip,
    hparts.length_first, hparts.length_take_optional, hparts.length_last]
  simp only [Nat.min_self]
  rfl

theorem mem_zip_replicate {α β : Type} {l : List α} {a : α} (h : a ∈ l) (b : β) :
    (a, b) ∈ l.zip (List.replicate l.length b) := by
  induction l with
  | nil => cases h
  | cons x l ih =>
    rw [List.length_cons, List.replicate_succ, List.zip_cons_cons]
    rcases List.mem_cons.mp h with rfl | h
    · exact List.mem_cons_self
    · exact List.mem_cons_of_mem _ (ih h)

theorem Suits.fits_left (h : r.Suits args hasBlock receiver m) {first next left last : List Ty}
    (hparts : m.function.Parts args first next left last) {e : TypeExpr}
    (hrest : m.function.rest = some e) (hshort : ¬ r.FallsShort args receiver m) :
    r.fits receiver (Ty.union left) e = true := by
  by_cases hleft : left = []
  · by_contra hfits
    have hlength := hparts.length_left
    have hle := hparts.length_le
    rw [hleft] at hfits hlength
    rw [List.length_nil] at hlength
    exact hshort ⟨by omega, .inr ⟨e, hrest, Bool.eq_false_iff.mpr hfits⟩⟩
  · obtain ⟨t, ht⟩ := List.exists_mem_of_ne_nil left hleft
    refine (fits_union hleft).mpr ⟨t, ht, h.fits (t, e) ?_⟩
    rw [hparts.zip_parameters (by simp [hrest]), hrest]
    simp [mem_zip_replicate ht e]

theorem Suits.marks (h : r.Suits args hasBlock receiver m) :
    (¬ r.FallsShort args receiver m ∧ (m.function.align args).1 ≠ [] ∧
        r.hits args receiver m.function = (m.function.align args).1.length) ∨
      (r.FallsShort args receiver m ∧ max 1 (m.function.align args).1.length = args.length + 1 ∧
        r.hits args receiver m.function = args.length) := by
  obtain ⟨first, next, left, last, hparts⟩ := FunctionType.exists_parts h.least
  have hhits := h.hits_eq hparts
  have hgiven := hparts.length_given
  have hargs := hparts.length_args
  rw [← List.length_pos_iff]
  by_cases hshort : r.FallsShort args receiver m
  · refine .inr ⟨hshort, ?_⟩
    obtain ⟨hcount, ⟨hrest, hnone⟩ | ⟨e, hrest, hobject⟩⟩ := hshort
    · simp only [hrest, hnone, Option.toList_none, List.length_nil, List.countP_nil] at *
      omega
    · have hleft := hparts.length_left
      obtain rfl : left = [] := List.eq_nil_of_length_eq_zero (by omega)
      have hunion : r.fits receiver (Ty.union []) e = false := hobject
      simp only [hrest, hunion, Option.toList_some, List.length_singleton, List.length_nil,
        List.countP_singleton, Bool.false_eq_true, if_false] at hhits hgiven hargs
      omega
  · refine .inl ⟨hshort, ?_⟩
    cases hrest : m.function.rest with
    | none =>
      have hnil := hparts.left_eq_nil (FunctionType.admits_iff.mpr ⟨h.least, h.most⟩) hrest
      have hpos : args ≠ [] := by
        rintro rfl
        exact hshort ⟨Nat.zero_le _, .inl ⟨hrest, rfl⟩⟩
      rw [← List.length_pos_iff] at hpos
      simp only [hrest, hnil, Option.toList_none, List.length_nil, List.countP_nil]
        at hhits hgiven hargs
      omega
    | some e =>
      have hfits := h.fits_left hparts hrest hshort
      simp only [hrest, hfits, Option.toList_some, List.length_singleton, List.countP_singleton,
        if_true] at hhits hgiven
      omega

def plainCall (args : List Ty) (hasBlock : Bool) : CallArguments where
  positional := args.map some
  hasBlock := hasBlock

theorem known_plainCall (f : FunctionType) :
    (positionalFor f (plainCall args hasBlock)).filterMap id = args := by
  rw [known_positionalFor rfl, plainCall, if_pos (.inl rfl), List.append_nil]

theorem score_of_admits (hadmits : m.function.admits args.length = true) :
    (r.matchOf (plainCall args hasBlock) receiver m).score =
      ⟨(if m.block.isSome = hasBlock then 2 else 0) + 2, r.hits args receiver m.function,
        max 1 (m.function.align args).1.length⟩ := by
  have hknown : (positionalFor m.function (plainCall args hasBlock)).filterMap id = args :=
    known_plainCall m.function
  rw [matchOf_of_admits (hasSplat_of_known rfl) (by rwa [hknown]), hknown]
  rfl

theorem score_of_not_admits (hadmits : m.function.admits args.length = false) :
    (r.matchOf (plainCall args hasBlock) receiver m).score =
      ⟨if m.block.isSome = hasBlock then 2 else 0, 0, 1⟩ := by
  have hsplat : hasSplat (plainCall args hasBlock) = false := hasSplat_of_known rfl
  simp only [matchOf, hsplat, known_plainCall, hadmits, Bool.false_eq_true, if_false]
  rfl

theorem hits_le_tries :
    (r.matchOf (plainCall args hasBlock) receiver m).score.hits ≤
      (r.matchOf (plainCall args hasBlock) receiver m).score.tries := by
  cases hadmits : m.function.admits args.length with
  | false => simp [score_of_not_admits hadmits]
  | true =>
    rw [score_of_admits hadmits]
    exact Nat.le_trans hits_le (Nat.le_max_right ..)

theorem points_lt_four (h : ¬ (m.block.isSome = hasBlock ∧ m.function.admits args.length = true)) :
    (r.matchOf (plainCall args hasBlock) receiver m).score.points < 4 := by
  cases hadmits : m.function.admits args.length with
  | false =>
    rw [score_of_not_admits hadmits]
    dsimp only
    split <;> omega
  | true =>
    rw [score_of_admits hadmits, if_neg fun hblock ↦ h ⟨hblock, hadmits⟩]
    exact Nat.lt_add_of_pos_left Nat.two_pos

theorem Suits.score_eq (h : r.Suits args hasBlock receiver m) :
    (r.matchOf (plainCall args hasBlock) receiver m).score =
      ⟨4, r.hits args receiver m.function, max 1 (m.function.align args).1.length⟩ := by
  rw [score_of_admits (FunctionType.admits_iff.mpr ⟨h.least, h.most⟩), if_pos h.block]

theorem Suits.score_le_of_not_fallsShort (h : r.Suits args hasBlock receiver m)
    (hshort : ¬ r.FallsShort args receiver m) (o : Ty × MethodType) :
    (r.matchOf (plainCall args hasBlock) o.1 o.2).score.le
      (r.matchOf (plainCall args hasBlock) receiver m).score = true := by
  rcases h.marks with ⟨-, haligned, hhits⟩ | ⟨hshort', -⟩
  · have hpos := List.length_pos_iff.mpr haligned
    have hfull : max 1 (m.function.align args).1.length = r.hits args receiver m.function := by
      omega
    rw [h.score_eq, hfull]
    by_cases ho : o.2.block.isSome = hasBlock ∧ o.2.function.admits args.length = true
    · refine (Score.le_iff_of_points_eq ?_).mpr ?_
      · rw [score_of_admits ho.2, if_pos ho.1]
      · rw [Nat.mul_comm]
        exact Nat.mul_le_mul_left _ hits_le_tries
    · exact Score.le_of_points_lt (points_lt_four ho) hits_le_tries
  · exact absurd hshort' hshort

theorem part_le_iff {fitting aligned count : Nat} (hle : fitting ≤ aligned)
    (haligned : aligned ≤ count + 1) :
    fitting * (count + 1) ≤ count * max 1 aligned ↔ ¬ (0 < aligned ∧ fitting = aligned) := by
  constructor
  · rintro hpart ⟨hpos, rfl⟩
    rw [Nat.max_eq_right hpos, Nat.mul_succ, Nat.mul_comm] at hpart
    omega
  · intro hnot
    by_cases hpos : 0 < aligned
    · have hlt : fitting + 1 ≤ aligned := by omega
      calc
        fitting * (count + 1) ≤ count * (fitting + 1) := by
          rw [Nat.mul_succ, Nat.mul_succ, Nat.mul_comm]
          omega
        _ ≤ count * max 1 aligned :=
          Nat.mul_le_mul_left _ (Nat.le_trans hlt (Nat.le_max_right ..))
    · have hzero : fitting = 0 := by omega
      simp [hzero]

/-- An overload that suits a call and falls short is behind those with the full score, and no
others: where one of the aligned does not fit, there are at most as many of them. -/
theorem Suits.score_le_iff_of_fallsShort (h : r.Suits args hasBlock receiver m)
    (hshort : r.FallsShort args receiver m) (o : Ty × MethodType) :
    (r.matchOf (plainCall args hasBlock) o.1 o.2).score.le
        (r.matchOf (plainCall args hasBlock) receiver m).score = true ↔
      ¬ r.Excels args hasBlock o.1 o.2 := by
  rcases h.marks with ⟨hshort', -⟩ | ⟨-, htries, hhits⟩
  · exact absurd hshort hshort'
  rw [h.score_eq, hhits, htries]
  by_cases ho : o.2.block.isSome = hasBlock ∧ o.2.function.admits args.length = true
  · have hexcels : r.Excels args hasBlock o.1 o.2 ↔
        0 < (o.2.function.align args).1.length ∧
          r.hits args o.1 o.2.function = (o.2.function.align args).1.length := by
      rw [excels_iff, ← hits_eq_length_iff ho.2, List.length_pos_iff]
      simp only [ho, true_and]
    rw [Score.le_iff_of_points_eq (by rw [score_of_admits ho.2, if_pos ho.1]),
      score_of_admits ho.2, hexcels]
    exact part_le_iff hits_le (length_aligned_le ho.2)
  · exact iff_of_true (Score.le_of_points_lt (points_lt_four ho) hits_le_tries)
      fun hexcels ↦ ho ⟨hexcels.block, hexcels.admits⟩

theorem Suits.not_candidate (h : r.Suits args hasBlock receiver m)
    (hshort : r.FallsShort args receiver m) {t : Ty} {name : String} {o : Ty × MethodType}
    (ho : o ∈ r.overloads t name) (hexcels : r.Excels args hasBlock o.1 o.2) :
    r.matchOf (plainCall args hasBlock) receiver m ∉
      r.resolveMethod t name (plainCall args hasBlock) := by
  intro hkept
  have hbest := (mem_resolveMethod.mp hkept).2 o ho
  exact (h.score_le_iff_of_fallsShort hshort o).mp hbest hexcels

theorem exists_not_candidate {t : Ty} {name : String}
    (hshort : ∃ o ∈ r.overloads t name, r.Suits args hasBlock o.1 o.2 ∧ r.FallsShort args o.1 o.2)
    (hexcels : ∃ o ∈ r.overloads t name, r.Excels args hasBlock o.1 o.2) :
    ∃ o ∈ r.overloads t name, r.Suits args hasBlock o.1 o.2 ∧
      r.matchOf (plainCall args hasBlock) o.1 o.2 ∉
        r.resolveMethod t name (plainCall args hasBlock) := by
  obtain ⟨o, ho, hsuits, hshort⟩ := hshort
  obtain ⟨other, hother, hexcels⟩ := hexcels
  exact ⟨o, ho, hsuits, hsuits.not_candidate hshort hother hexcels⟩

/-- An overload that suits a call is a candidate. If it falls short, it is one exactly as long as
no overload has the full score. -/
theorem suitable_candidate_iff {t : Ty} {name : String} (ho : (receiver, m) ∈ r.overloads t name)
    (h : r.Suits args hasBlock receiver m) :
    r.matchOf (plainCall args hasBlock) receiver m ∈
        r.resolveMethod t name (plainCall args hasBlock) ↔
      (r.FallsShort args receiver m →
        ∀ o ∈ r.overloads t name, ¬ r.Excels args hasBlock o.1 o.2) := by
  constructor
  · intro hkept hshort o hmem hexcels
    exact h.not_candidate hshort hmem hexcels hkept
  · intro hnone
    refine mem_resolveMethod.mpr ⟨⟨_, ho, rfl⟩, fun o hmem ↦ ?_⟩
    by_cases hshort : r.FallsShort args receiver m
    · exact (h.score_le_iff_of_fallsShort hshort o).mpr (hnone hshort o hmem)
    · exact h.score_le_of_not_fallsShort hshort o

/-- `take: () | (*Integer) | (Integer) | (Integer, *Comparable) -> untyped`, where an object is not
in general comparable. -/
def taking : Resolver where
  world := World.initial
  database := some (({} : Database).extend { classes := [
    { name := "Integer", instanceMethods := [("take", ⟨[
      { function := {} },
      { function := { rest := some (.classInstance "Integer" []) } },
      { function := { required := [.classInstance "Integer" []] } },
      { function := { required := [.classInstance "Integer" []],
                      rest := some (.classInstance "Comparable" []) } }], .pub⟩)] }] })

theorem suitable_candidate_iff_take :
    ∃ o ∈ taking.overloads .integer "take",
      taking.Suits [.integer] false o.1 o.2 ∧ ¬ taking.FallsShort [.integer] o.1 o.2 ∧
        taking.matchOf (plainCall [.integer] false) o.1 o.2 ∈
          taking.resolveMethod .integer "take" (plainCall [.integer] false) := by
  have htakes : ∃ o ∈ taking.overloads .integer "take",
      taking.Suits [.integer] false o.1 o.2 ∧ ¬ taking.FallsShort [.integer] o.1 o.2 := by
    decide +kernel
  obtain ⟨o, ho, hsuits, hshort⟩ := htakes
  exact ⟨o, ho, hsuits, hshort, (suitable_candidate_iff ho hsuits).mpr fun h ↦ absurd h hshort⟩

theorem suitable_overload_discarded :
    (∃ o ∈ taking.overloads .integer "take", taking.Suits [] false o.1 o.2 ∧
        taking.matchOf (plainCall [] false) o.1 o.2 ∉
          taking.resolveMethod .integer "take" (plainCall [] false)) ∧
      ∃ o ∈ taking.overloads .integer "take", taking.Suits [.integer] false o.1 o.2 ∧
        taking.matchOf (plainCall [.integer] false) o.1 o.2 ∉
          taking.resolveMethod .integer "take" (plainCall [.integer] false) :=
  ⟨exists_not_candidate (by decide +kernel) (by decide +kernel),
    exists_not_candidate (by decide +kernel) (by decide +kernel)⟩

end Resolver

end FlowCompletion
