import FlowCompletion.Proofs.Scope.Reachable

namespace FlowCompletion

/-- A frame that owns nothing, as long as control is in it. -/
structure Frame.Branch (outer : List Frame) (f : Frame) : Prop where
  tracesLocals : f.tracesLocals = true
  tracesIvars : f.tracesIvars = true
  levels : f.terminated = false → ∀ entry ∈ f.table, entry.2.level ≤ outer.length

namespace Scope

def IsBranch (s : Scope) : Prop := ∃ f outer, s.frames = f :: outer ∧ f.Branch outer

theorem levelIn_le_of_branch {f : Frame} {outer : List Frame} (hf : f.Branch outer)
    (ht : f.terminated = false) (ho : ValidFrames outer) (key : Key) :
    levelIn key (f :: outer) ≤ outer.length := by
  simp only [levelIn, hf.tracesLocals, hf.tracesIvars, Bool.not_true, Bool.and_false,
    Bool.false_eq_true, if_false]
  split
  · exact Nat.zero_le _
  · split
    next hget => exact hf.levels ht _ (Table.mem_of_get? hget)
    next => exact levelIn_le ho key

theorem Move.isBranch {s t : Scope} (h : Move s t) (hv : s.Valid) (hs : s.IsBranch) :
    t.IsBranch := by
  obtain ⟨f, outer, hframes, hf⟩ := hs
  cases h with
  | @inner root f' g outer' hstep =>
    obtain ⟨rfl, rfl⟩ := List.cons.inj hframes
    refine ⟨g, outer', rfl, ?_⟩
    cases hstep with
    | write key u =>
      refine ⟨hf.tracesLocals, hf.tracesIvars, fun ht ↦ ?_⟩
      exact Frame.forall_mem_insert (hf.levels ht) (levelIn_le_of_branch hf ht hv.2 key)
    | constant m name u =>
      refine ⟨hf.tracesLocals, hf.tracesIvars, fun ht ↦ ?_⟩
      exact Frame.forall_mem_insert (hf.levels ht) (Nat.zero_le _)
    | terminate _ | leave _ _ _ _ _ => exact ⟨hf.tracesLocals, hf.tracesIvars, fun ht ↦ by cases ht⟩
    | forgetJumps _ => exact ⟨hf.tracesLocals, hf.tracesIvars, hf.levels⟩
    | reopen ht => exact ⟨hf.tracesLocals, hf.tracesIvars, fun ht' ↦ by simp_all⟩
  | recorded _ label value changes =>
    have hawaits := storeJump_awaits label value changes s.frames
    rw [hframes] at hawaits
    obtain ⟨g, outer', ⟨js, rfl⟩, hrest, hg⟩ := List.forall₂_cons_left_iff.mp hawaits
    refine ⟨{ f with jumps := f.jumps ++ js }, outer', ?_, ?_⟩
    · rw [record, hframes]
      exact hg
    · refine ⟨hf.tracesLocals, hf.tracesIvars, ?_⟩
      rw [← hrest.length_eq]
      exact hf.levels

theorem Evolves.isBranch {s t : Scope} (h : Evolves s t) (hv : s.Valid) (hs : s.IsBranch) :
    t.IsBranch := by
  induction h with
  | refl => exact hs
  | tail hst hm ih => exact hm.isBranch (Evolves.valid hst hv) ih

/-- A scope at the end of a branch of `s`. Frames further out are as they were when the branches
began, but for jumps. -/
inductive BranchEnd (s : Scope) : Scope → Prop
  | intro {f : Frame} {outer : List Frame} (branch : f.Branch outer)
      (frozen : f.terminated = false → f.frozen = none)
      (awaits : List.Forall₂ Frame.Awaits s.frames outer)
      (known : ∀ entry ∈ f.changes, entry.2.level ≤ s.level → entry.2.value.isSome) :
      BranchEnd s ⟨s.root, f :: outer⟩

theorem branchEnd_of_evolves {s e : Scope} (hs : s.Valid) (h : Evolves (s.enter {} []) e) :
    BranchEnd s e := by
  have hbranch : (s.enter {} []).IsBranch :=
    ⟨_, s.frames, rfl, rfl, rfl, fun _ entry hentry ↦ by cases hentry⟩
  have hstart := valid_enter hs {} []
  obtain ⟨f, outer, hframes, hf⟩ := h.isBranch hstart hbranch
  have hvalid := h.valid hstart
  have houter := h.awaits_outer
  have hknown := h.isSome_of_mem_changes
  have hroot := h.root
  obtain ⟨root, frames⟩ := e
  obtain rfl : frames = f :: outer := hframes
  obtain rfl : root = s.root := hroot
  exact .intro hf hvalid.1.frozen houter hknown

theorem BranchEnd.of_awaits {s t e : Scope} (h : BranchEnd t e) (hroot : t.root = s.root)
    (hst : List.Forall₂ Frame.Awaits s.frames t.frames) : BranchEnd s e := by
  cases h with
  | intro hf hfrozen houter hknown =>
    rw [hroot]
    refine .intro hf hfrozen (awaits_trans hst houter) ?_
    rwa [level, hst.length_eq]

namespace BranchEnd

variable {w : World} {s e : Scope}

theorem changes_eq (h : BranchEnd s e) (ht : e.isTerminated = false) :
    e.leave.1.changes = e.leave.1.table := by
  cases h with
  | @intro f outer _ hfrozen _ _ =>
    change f.frozen.getD f.table = f.table
    rw [hfrozen ht, Option.getD_none]

theorem entryFor (h : BranchEnd s e) (ht : e.isTerminated = false) (key : Key) :
    s.entryFor key e.leave.1.changes = Table.get? e.leave.1.table key := by
  rw [h.changes_eq ht]
  cases h with
  | @intro f outer hf hfrozen houter _ =>
    change s.entryFor key f.table = Table.get? f.table key
    rw [Scope.entryFor]
    cases hget : Table.get? f.table key with
    | none => rfl
    | some entry =>
      have hle := hf.levels ht _ (Table.mem_of_get? hget)
      rw [Option.filter_some, if_pos]
      simpa [level, houter.length_eq] using hle

theorem lookup (h : BranchEnd s e) (key : Key) :
    e.lookup w key = (Table.get? e.leave.1.table key).elim (s.lookup w key) Entry.value := by
  cases h with
  | @intro f outer hf _ houter _ =>
    change lookupIn w s.root key (f :: outer) =
      (Table.get? f.table key).elim (lookupIn w s.root key s.frames) Entry.value
    cases hget : Table.get? f.table key with
    | none =>
      rw [lookupIn_of_traces hget hf.tracesIvars, lookupIn_of_awaits houter]
      rfl
    | some entry => exact lookupIn_of_get? hget outer

theorem isTerminated (h : BranchEnd s e) : e.isTerminated = e.leave.1.terminated := by
  cases h
  rfl

theorem isSome_of_get? (h : BranchEnd s e) (ht : e.isTerminated = false) {key : Key}
    {entry : Entry} (hget : Table.get? e.leave.1.table key = some entry) :
    entry.value.isSome := by
  rw [← h.entryFor ht, entryFor_eq_some] at hget
  cases h with
  | intro _ _ _ hknown => exact hknown _ (Table.mem_of_get? hget.1) hget.2

end BranchEnd

theorem isTerminated_setKey (s : Scope) (key : Key) (value : Option Ty) :
    (s.setKey key value).isTerminated = s.isTerminated := by
  obtain ⟨root, _ | ⟨f, outer⟩⟩ := s <;> rfl

theorem isTerminated_setConstant (s : Scope) (w : World) (m : ModuleId) (name : String) (t : Ty) :
    (s.setConstant w m name t).isTerminated = s.isTerminated := by
  obtain ⟨root, _ | ⟨f, outer⟩⟩ := s <;> rfl

theorem isTerminated_update (s : Scope) (changes : Changes) :
    (s.update changes).isTerminated = s.isTerminated := by
  induction changes generalizing s with
  | nil => rfl
  | cons entry changes ih =>
    rw [update_cons]
    split
    · rw [ih, isTerminated_setKey]
    · exact ih s

theorem isTerminated_merge (s : Scope) (w : World) (branches : List Changes) :
    (s.merge w branches).isTerminated = s.isTerminated :=
  rel_merge (R := fun s t ↦ t.isTerminated = s.isTerminated) (fun _ ↦ rfl)
    (fun hst htu ↦ htu.trans hst) (fun s key t ↦ isTerminated_setKey s key (some t)) s w branches

theorem isTerminated_mergeJumps (s : Scope) (w : World) :
    (s.mergeJumps w).isTerminated = s.isTerminated := by
  rw [mergeJumps]
  split <;> rw [isTerminated_merge] <;> obtain ⟨root, _ | ⟨f, outer⟩⟩ := s <;> rfl

theorem isTerminated_terminate {s : Scope} (hs : s.frames ≠ []) :
    s.terminate.isTerminated = true := by
  obtain ⟨root, _ | ⟨f, outer⟩⟩ := s
  · exact absurd rfl hs
  cases ht : f.terminated with
  | true => simp [terminate_eq_self ht, isTerminated, ht]
  | false => simp [terminate_eq ht, isTerminated]

section join

variable {w : World} {s t : Scope} {ends : List Scope}

theorem changes_of_ends (hends : ∀ e ∈ ends, BranchEnd s e) :
    ((ends.map fun e ↦ e.leave.1).filter fun f ↦ !f.terminated).map Frame.changes =
      (ends.filter fun e ↦ !e.isTerminated).map fun e ↦ e.leave.1.changes := by
  rw [List.filter_map, List.map_map]
  refine congrArg _ (List.filter_congr fun e he ↦ ?_)
  rw [(hends e he).isTerminated]
  rfl

theorem mem_changes_of_ends {c : Changes} :
    c ∈ (ends.filter fun e ↦ !e.isTerminated).map (fun e ↦ e.leave.1.changes) ↔
      ∃ e ∈ ends, e.isTerminated = false ∧ e.leave.1.changes = c := by
  simp only [List.mem_map, List.mem_filter, Bool.not_eq_true', and_assoc]

theorem joinBranches_eq_merge (hends : ∀ e ∈ ends, BranchEnd s e)
    (hopen : ∃ e ∈ ends, e.isTerminated = false) :
    t.joinBranches w (ends.map fun e ↦ e.leave.1) =
      t.merge w ((ends.filter fun e ↦ !e.isTerminated).map fun e ↦ e.leave.1.changes) := by
  obtain ⟨e, he, ht⟩ := hopen
  have hne := List.ne_nil_of_mem (mem_changes_of_ends.mpr ⟨e, he, ht, rfl⟩)
  rw [joinBranches, changes_of_ends hends, if_neg (by simpa using hne)]

theorem mem_kindsOf_joinBranches (hne : t.frames ≠ []) (hroot : t.root = s.root)
    (hst : List.Forall₂ Frame.Awaits s.frames t.frames) (hends : ∀ e ∈ ends, BranchEnd s e)
    (hopen : ∃ e ∈ ends, e.isTerminated = false) {key : Key} {k : MemberKind} :
    k ∈ kindsOf ((t.joinBranches w (ends.map fun e ↦ e.leave.1)).lookup w key) ↔
      ∃ e ∈ ends, e.isTerminated = false ∧ k ∈ kindsOf (e.lookup w key) := by
  have hentry (e : Scope) (he : e ∈ ends) (ht : e.isTerminated = false) :
      t.entryFor key e.leave.1.changes = Table.get? e.leave.1.table key := by
    rw [← (hends e he).entryFor ht]
    exact entryFor_of_level hst.length_eq.symm _
  have hlookup : t.lookup w key = s.lookup w key := by
    rw [lookup, hroot]
    exact lookupIn_of_awaits hst
  rw [joinBranches_eq_merge hends hopen]
  constructor
  · intro hk
    rcases of_mem_kindsOf_merge hne hk with ⟨c, hc, entry, hget, hk⟩ | ⟨hk, hmissing⟩
    · obtain ⟨e, he, ht, rfl⟩ := mem_changes_of_ends.mp hc
      rw [hentry e he ht] at hget
      refine ⟨e, he, ht, ?_⟩
      rwa [(hends e he).lookup, hget]
    -- the type from before counts only if some branch, here the first that is open, leaves it
    · have hbefore :
          ∃ e ∈ ends, e.isTerminated = false ∧ Table.get? e.leave.1.table key = none := by
        rcases hmissing with ⟨c, hc, hnone⟩ | hall
        · obtain ⟨e, he, ht, rfl⟩ := mem_changes_of_ends.mp hc
          exact ⟨e, he, ht, (hentry e he ht).symm.trans hnone⟩
        · obtain ⟨e, he, ht⟩ := hopen
          refine ⟨e, he, ht, Option.eq_none_iff_forall_ne_some.mpr fun entry hget ↦ ?_⟩
          have hsome := (hends e he).isSome_of_get? ht hget
          have hnone := hall _ (mem_changes_of_ends.mpr ⟨e, he, ht, rfl⟩) entry
            ((hentry e he ht).trans hget)
          simp [hnone] at hsome
      obtain ⟨e, he, ht, hget⟩ := hbefore
      refine ⟨e, he, ht, ?_⟩
      rw [(hends e he).lookup, hget]
      exact hlookup ▸ hk
  · rintro ⟨e, he, ht, hk⟩
    have hc := mem_changes_of_ends.mpr ⟨e, he, ht, rfl⟩
    rw [(hends e he).lookup] at hk
    cases hget : Table.get? e.leave.1.table key with
    | some entry =>
      rw [hget] at hk
      exact mem_kindsOf_merge_of_entry hne hc ((hentry e he ht).trans hget) hk
    | none =>
      rw [hget, Option.elim_none, ← hlookup] at hk
      exact mem_kindsOf_merge_of_missing hne hc ((hentry e he ht).trans hget) hk

theorem mem_kindsOf_joinBranches_of_hasOwn {v u : World} (hne : t.frames ≠ [])
    (hst : List.Forall₂ Frame.Awaits s.frames t.frames) (hends : ∀ e ∈ ends, BranchEnd s e)
    {e : Scope} (he : e ∈ ends) (ht : e.isTerminated = false) {name : String}
    (hown : e.hasOwn name = true) {k : MemberKind} (hk : k ∈ kindsOf (e.get? v name)) :
    k ∈ kindsOf ((t.joinBranches u (ends.map fun e ↦ e.leave.1)).get? w name) := by
  have hentry : t.entryFor (.named name) e.leave.1.changes =
      Table.get? e.leave.1.table (.named name) := by
    rw [← (hends e he).entryFor ht]
    exact entryFor_of_level hst.length_eq.symm _
  have hhas : (Table.get? e.leave.1.table (.named name)).isSome := by
    cases hends e he
    exact hown
  obtain ⟨entry, hget⟩ := Option.isSome_iff_exists.mp hhas
  rw [get?, (hends e he).lookup, hget] at hk
  rw [joinBranches_eq_merge hends ⟨e, he, ht⟩]
  exact mem_kindsOf_merge_of_entry hne (mem_changes_of_ends.mpr ⟨e, he, ht, rfl⟩)
    (hentry.trans hget) hk

theorem joinBranches_eq_terminate (hends : ∀ e ∈ ends, BranchEnd s e)
    (hclosed : ∀ e ∈ ends, e.isTerminated = true) :
    t.joinBranches w (ends.map fun e ↦ e.leave.1) = t.terminate := by
  have hnil : (ends.filter fun e ↦ !e.isTerminated) = [] :=
    List.filter_eq_nil_iff.mpr fun e he ↦ by simp [hclosed e he]
  rw [joinBranches, changes_of_ends hends, hnil]
  rfl

end join

/-- Two branches of `s` are run one after the other, end in `first` and `second`, and are joined. -/
structure Forks (w : World) (s first second joined : Scope) : Prop where
  evolves_first : Evolves (s.enter {} []) first
  evolves_second : Evolves (first.outer.enter {} []) second
  joined_eq : joined = second.outer.joinBranches w ([first, second].map fun e ↦ e.leave.1)

namespace Forks

variable {w : World} {s first second joined : Scope} (h : Forks w s first second joined)

include h

theorem awaits : List.Forall₂ Frame.Awaits s.frames second.outer.frames :=
  awaits_trans h.evolves_first.awaits_outer h.evolves_second.awaits_outer

theorem root : second.outer.root = s.root := h.evolves_second.root.trans h.evolves_first.root

theorem frames_ne_nil (hne : s.frames ≠ []) : second.outer.frames ≠ [] :=
  ne_nil_of_awaits h.awaits hne

variable (hs : s.Valid)

include hs

theorem branchEnd : ∀ e ∈ [first, second], BranchEnd s e := by
  have houter : s.Evolves first.outer := h.evolves_first.outer
  have hsecond := branchEnd_of_evolves (houter.valid hs) h.evolves_second
  refine List.forall_mem_cons.mpr ⟨branchEnd_of_evolves hs h.evolves_first, ?_⟩
  exact List.forall_mem_singleton.mpr (hsecond.of_awaits houter.root h.evolves_first.awaits_outer)

theorem isTerminated_of_open (hopen : ∃ e ∈ [first, second], e.isTerminated = false) :
    joined.isTerminated = s.isTerminated := by
  rw [h.joined_eq, joinBranches_eq_merge (h.branchEnd hs) hopen, isTerminated_merge]
  exact isTerminated_of_awaits h.awaits

theorem of_closed (hne : s.frames ≠ []) (hclosed : ∀ e ∈ [first, second], e.isTerminated = true) :
    joined.isTerminated = true ∧ ∀ v key, joined.lookup v key = s.lookup v key := by
  rw [h.joined_eq, joinBranches_eq_terminate (h.branchEnd hs) hclosed]
  refine ⟨isTerminated_terminate (h.frames_ne_nil hne), fun v key ↦ ?_⟩
  rw [lookup_terminate, lookup, h.root]
  exact lookupIn_of_awaits h.awaits

theorem mem_kindsOf (hne : s.frames ≠ []) (hopen : ∃ e ∈ [first, second], e.isTerminated = false)
    {key : Key} {k : MemberKind} : k ∈ kindsOf (joined.lookup w key) ↔
      ∃ e ∈ [first, second], e.isTerminated = false ∧ k ∈ kindsOf (e.lookup w key) := by
  rw [h.joined_eq]
  exact mem_kindsOf_joinBranches (h.frames_ne_nil hne) h.root h.awaits (h.branchEnd hs) hopen

theorem mem_kindsOf_of_hasOwn (hne : s.frames ≠ []) {e : Scope} (he : e ∈ [first, second])
    (ht : e.isTerminated = false) {name : String} (hown : e.hasOwn name = true) {v u : World}
    {k : MemberKind} (hk : k ∈ kindsOf (e.get? v name)) : k ∈ kindsOf (joined.get? u name) := by
  rw [h.joined_eq]
  exact mem_kindsOf_joinBranches_of_hasOwn (h.frames_ne_nil hne) h.awaits (h.branchEnd hs) he ht
    hown hk

end Forks

end Scope

namespace ScopeStep

variable {α : Type}

def branchEnds (w : World) : List (List (ScopeStep α)) → Scope → List Scope
  | [], _ => []
  | body :: rest, s =>
    let e := (runAll w body (s.enter {} [])).2
    e :: branchEnds w rest e.outer

theorem runBranches_eq (w : World) (bodies : List (List (ScopeStep α))) (s : Scope) :
    (runBranches w bodies s).1.map Prod.snd = (branchEnds w bodies s).map fun e ↦ e.leave.1 := by
  induction bodies generalizing s with
  | nil => rfl
  | cons body rest ih =>
    simp only [runBranches, branchEnds, List.map_cons]
    exact congrArg _ (ih _)

theorem run_branches_eq (w : World) (bodies : List (List (ScopeStep α))) (s : Scope) :
    (run w (.branches bodies) s).2 = (runBranches w bodies s).2.joinBranches w
      ((branchEnds w bodies s).map fun e ↦ e.leave.1) := by
  rw [run, ← runBranches_eq]

theorem branchEnd_of_mem_branchEnds {w : World} {bodies : List (List (ScopeStep α))} {s e : Scope}
    (hs : s.Valid) (he : e ∈ branchEnds w bodies s) : s.BranchEnd e := by
  induction bodies generalizing s with
  | nil => cases he
  | cons body rest ih =>
    have hbody := runAll_evolves w body (s.enter {} [])
    rcases List.mem_cons.mp he with rfl | he
    · exact Scope.branchEnd_of_evolves hs hbody
    · have houter : s.Evolves _ := hbody.outer
      exact (ih (houter.valid hs) he).of_awaits houter.root hbody.awaits_outer

/-- After branches of which control gets through at least one, a name may be what it is at the end
of one of those; control is lost only if it was before. If control gets through none, it is lost and
all names stay what they were. -/
theorem branches_join_ends {w : World} {s : Scope} (hs : s.Reachable) (hne : s.frames ≠ [])
    (bodies : List (List (ScopeStep α))) :
    ((∃ e ∈ branchEnds w bodies s, e.isTerminated = false) →
      (∀ name k, k ∈ kindsOf ((run w (.branches bodies) s).2.get? w name) ↔
        ∃ e ∈ branchEnds w bodies s, e.isTerminated = false ∧ k ∈ kindsOf (e.get? w name)) ∧
      ((run w (.branches bodies) s).2.isTerminated = true → s.isTerminated = true)) ∧
    ((∀ e ∈ branchEnds w bodies s, e.isTerminated = true) →
      (run w (.branches bodies) s).2.isTerminated = true ∧
        ∀ name, (run w (.branches bodies) s).2.get? w name = s.get? w name) := by
  have hst := runBranches_awaits w bodies s
  have hroot := (runBranches_evolves w bodies s).root
  have hframes : (runBranches w bodies s).2.frames ≠ [] := by
    intro hnil
    rw [hnil] at hst
    exact hne (List.forall₂_nil_right_iff.mp hst)
  have hends : ∀ e ∈ branchEnds w bodies s, s.BranchEnd e := fun e he ↦
    branchEnd_of_mem_branchEnds hs.valid he
  rw [run_branches_eq]
  refine ⟨fun hopen ↦ ⟨fun name k ↦ ?_, fun ht ↦ ?_⟩, fun hclosed ↦ ⟨?_, fun name ↦ ?_⟩⟩
  · exact Scope.mem_kindsOf_joinBranches hframes hroot hst hends hopen
  · rwa [Scope.joinBranches_eq_merge hends hopen, Scope.isTerminated_merge,
      Scope.isTerminated_of_awaits hst] at ht
  · rw [Scope.joinBranches_eq_terminate hends hclosed]
    exact Scope.isTerminated_terminate hframes
  · rw [Scope.joinBranches_eq_terminate hends hclosed, Scope.get?, Scope.lookup_terminate,
      Scope.lookup, hroot]
    exact Scope.lookupIn_of_awaits hst

def threeWays : List (List (ScopeStep Unit)) :=
  [[.set "a" .integer], [.child {} [] [.set "a" .string] true], [.set "a" .symbol, .terminate]]

theorem branches_join_ends_three_ways :
    (Scope.bare [("a", some .nil)]).Reachable ∧ (Scope.bare [("a", some .nil)]).frames ≠ [] ∧
    (∃ e ∈ branchEnds {} threeWays (.bare [("a", some .nil)]), e.isTerminated = false) ∧
      .instanceOf .integer ∈
        kindsOf ((run {} (.branches threeWays) (.bare [("a", some .nil)])).2.get? {} "a") ∧
      .instanceOf .string ∈
        kindsOf ((run {} (.branches threeWays) (.bare [("a", some .nil)])).2.get? {} "a") ∧
      .instanceOf .symbol ∉
        kindsOf ((run {} (.branches threeWays) (.bare [("a", some .nil)])).2.get? {} "a") := by
  have hs := Scope.reachable_bare [("a", some .nil)]
  have hne : (Scope.bare [("a", some .nil)]).frames ≠ [] := List.cons_ne_nil _ _
  have hopen : ∃ e ∈ branchEnds {} threeWays (.bare [("a", some .nil)]),
      e.isTerminated = false := by decide
  have hjoin := ((branches_join_ends (w := {}) hs hne threeWays).1 hopen).1 "a"
  refine ⟨hs, hne, hopen, (hjoin _).mpr (by decide), (hjoin _).mpr (by decide), ?_⟩
  exact fun hk ↦ absurd ((hjoin _).mp hk) (by decide)

end ScopeStep

end FlowCompletion
