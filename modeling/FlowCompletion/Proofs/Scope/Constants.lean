import FlowCompletion.Proofs.Live.Methods
import FlowCompletion.Proofs.Scope.Branches

namespace FlowCompletion

namespace Scope

section reading

variable {w : World} {s : Scope} {m : ModuleId} {name : String}

def writtenConstant (s : Scope) (w : World) (m : ModuleId) (name : String) : Option Entry :=
  s.frames.findSome? fun f ↦ Table.get? f.table (w.constantKey m name)

theorem constant?_eq : s.constant? w m name =
    (s.writtenConstant w m name).elim (s.root.constant? w m name) Entry.value := by
  rw [constant?, ← writtenConstant]
  cases s.writtenConstant w m name <;> rfl

theorem lookup_constant :
    s.lookup w (w.constantKey m name) = (s.writtenConstant w m name).bind Entry.value := by
  obtain ⟨root, frames⟩ := s
  rw [lookup, writtenConstant]
  induction frames with
  | nil => simp only [lookupIn, Root.lookup, World.kind_constantKey, List.findSome?_nil,
      Option.bind_none]
  | cons f rest ih =>
    simp only [lookupIn, List.findSome?_cons, World.kind_constantKey]
    cases hget : Table.get? f.table (w.constantKey m name) with
    | none => exact ih
    | some e => rfl

end reading

section branches

variable {w : World} {s t e : Scope} {m : ModuleId} {name : String}

def hasConstant (s : Scope) (w : World) (m : ModuleId) (name : String) : Bool :=
  (s.writtenConstant w m name).isSome

theorem constant?_of_hasConstant (h : s.hasConstant w m name = true) :
    s.constant? w m name = s.lookup w (w.constantKey m name) := by
  obtain ⟨e, he⟩ := Option.isSome_iff_exists.mp h
  rw [constant?_eq, lookup_constant, he]
  rfl

theorem constant?_of_not_hasConstant (h : s.hasConstant w m name = false) :
    s.constant? w m name = s.root.constant? w m name := by
  rw [constant?_eq, Option.isNone_iff_eq_none.mp (Option.isSome_eq_false_iff.mp h)]
  rfl

theorem hasConstant_of_mem_kindsOf {k : MemberKind}
    (hk : k ∈ kindsOf (s.lookup w (w.constantKey m name))) : s.hasConstant w m name = true := by
  rw [lookup_constant] at hk
  rw [hasConstant]
  cases he : s.writtenConstant w m name with
  | none => simp [he, kindsOf] at hk
  | some e => rfl

theorem hasConstant_iff : s.hasConstant w m name = true ↔
    ∃ f ∈ s.frames, f.has (w.constantKey m name) = true := by
  rw [hasConstant, writtenConstant, List.findSome?_isSome_iff]
  rfl

theorem hasConstant_setKey (h : s.hasConstant w m name = true) (key : Key) (value : Option Ty) :
    (s.setKey key value).hasConstant w m name = true := by
  obtain ⟨root, _ | ⟨f, outer⟩⟩ := s
  · exact h
  rw [hasConstant_iff] at h ⊢
  obtain ⟨g, hg, hhas⟩ := h
  rcases List.mem_cons.mp hg with rfl | hg
  · refine ⟨_, List.mem_cons_self, (Table.contains_insert _ _ _ _).trans ?_⟩
    exact Bool.or_eq_true_iff.mpr (.inr hhas)
  · exact ⟨g, List.mem_cons_of_mem _ hg, hhas⟩

theorem hasConstant_merge {v : World} (h : s.hasConstant w m name = true)
    (branches : List Changes) : (s.merge v branches).hasConstant w m name = true :=
  merge_induct (P := fun t ↦ t.hasConstant w m name = true) h
    fun _ key _ ht ↦ hasConstant_setKey ht key _

theorem Writes.hasConstant {P : Key → Prop} (h : Writes P s t)
    (ht : t.hasConstant w m name = true) :
    P (w.constantKey m name) ∨ s.hasConstant w m name = true := by
  obtain ⟨table, rfl, hmem⟩ := h
  obtain ⟨root, _ | ⟨f, outer⟩⟩ := s
  · exact .inr ht
  rw [hasConstant_iff] at ht ⊢
  obtain ⟨g, hg, hhas⟩ := ht
  rcases List.mem_cons.mp hg with rfl | hg
  · obtain ⟨e, he⟩ := Option.isSome_iff_exists.mp hhas
    refine (hmem _ (Table.mem_of_get? he)).imp_right fun hentry ↦ ?_
    exact ⟨f, List.mem_cons_self, Table.contains_of_mem hentry⟩
  · exact .inr ⟨g, List.mem_cons_of_mem _ hg, hhas⟩

theorem findSome?_table_of_awaits {fs gs : List Frame} (h : List.Forall₂ Frame.Awaits fs gs)
    (key : Key) : (gs.findSome? fun f ↦ Table.get? f.table key) =
      fs.findSome? fun f ↦ Table.get? f.table key := by
  induction h with
  | nil => rfl
  | cons hfg _ ih =>
    obtain ⟨js, rfl⟩ := hfg
    simp only [List.findSome?_cons, ih]

namespace BranchEnd

theorem writtenConstant (h : BranchEnd s e) : e.writtenConstant w m name =
    (Table.get? e.leave.1.table (w.constantKey m name)).or (s.writtenConstant w m name) := by
  cases h with
  | @intro f outer _ _ hawaits _ =>
    change (f :: outer).findSome? _ = (Table.get? f.table _).or (s.frames.findSome? _)
    rw [List.findSome?_cons, findSome?_table_of_awaits hawaits]
    cases Table.get? f.table (w.constantKey m name) <;> rfl

theorem hasConstant (h : BranchEnd s e) : e.hasConstant w m name =
    (e.leave.1.has (w.constantKey m name) || s.hasConstant w m name) := by
  rw [Scope.hasConstant, h.writtenConstant, Option.isSome_or]
  rfl

theorem root (h : BranchEnd s e) : e.root = s.root := by
  cases h
  rfl

theorem constant?_of_not_has (h : BranchEnd s e)
    (hnot : e.leave.1.has (w.constantKey m name) = false) :
    e.constant? w m name = s.constant? w m name := by
  have hget := Option.isNone_iff_eq_none.mp (Option.isSome_eq_false_iff.mp hnot)
  rw [constant?_eq, constant?_eq, h.writtenConstant, hget, h.root, Option.none_or]

end BranchEnd

/-- The constant is known only live, some of the branches that control gets through write it, others
leave it, and what is written is not all that the constant was. -/
def ForgetsLive (w : World) (s : Scope) (ends : List Scope) (m : ModuleId) (name : String) : Prop :=
  s.hasConstant w m name = false ∧
    (∃ e ∈ ends, e.isTerminated = false ∧ e.leave.1.has (w.constantKey m name) = true) ∧
    (∃ e ∈ ends, e.isTerminated = false ∧ e.leave.1.has (w.constantKey m name) = false) ∧
    ∃ k ∈ kindsOf (s.constant? w m name), ∀ e ∈ ends, e.isTerminated = false →
      e.leave.1.has (w.constantKey m name) = true → k ∉ kindsOf (e.constant? w m name)

instance (w : World) (s : Scope) (ends : List Scope) (m : ModuleId) (name : String) :
    Decidable (ForgetsLive w s ends m name) :=
  inferInstanceAs (Decidable (_ ∧ _))

end branches

end Scope

namespace ScopeStep

variable {α : Type} {w : World} {s : Scope}

theorem mem_kindsOf_branches (hs : s.Reachable) (hne : s.frames ≠ [])
    {bodies : List (List (ScopeStep α))}
    (hopen : ∃ e ∈ branchEnds w bodies s, e.isTerminated = false) {key : Key} {k : MemberKind} :
    k ∈ kindsOf ((run w (.branches bodies) s).2.lookup w key) ↔
      ∃ e ∈ branchEnds w bodies s, e.isTerminated = false ∧ k ∈ kindsOf (e.lookup w key) := by
  have hst := runBranches_awaits w bodies s
  have hframes : (runBranches w bodies s).2.frames ≠ [] :=
    Scope.ne_nil_of_awaits hst hne
  rw [run_branches_eq]
  exact Scope.mem_kindsOf_joinBranches hframes (runBranches_evolves w bodies s).root hst
    (fun e he ↦ branchEnd_of_mem_branchEnds hs.valid he) hopen

section joined

variable (hs : s.Reachable) (hne : s.frames ≠ []) {bodies : List (List (ScopeStep α))}
  (hopen : ∃ e ∈ branchEnds w bodies s, e.isTerminated = false) {m : ModuleId} {name : String}

include hs hne hopen

theorem hasConstant_branches (m : ModuleId) (name : String) :
    (run w (.branches bodies) s).2.hasConstant w m name = true ↔
      ∃ e ∈ branchEnds w bodies s, e.isTerminated = false ∧ e.hasConstant w m name = true := by
  have hend (e : Scope) (he : e ∈ branchEnds w bodies s) : s.BranchEnd e :=
    branchEnd_of_mem_branchEnds hs.valid he
  have hbefore : (runBranches w bodies s).2.hasConstant w m name = s.hasConstant w m name := by
    rw [Scope.hasConstant, Scope.hasConstant, Scope.writtenConstant, Scope.writtenConstant,
      Scope.findSome?_table_of_awaits (runBranches_awaits w bodies s)]
  constructor
  · intro hjoined
    rw [run_branches_eq, Scope.joinBranches_eq_merge hend hopen] at hjoined
    rcases (Scope.writes_merge _ w _).hasConstant hjoined with hkey | hhas
    · obtain ⟨c, hc, entry, hentry, hkey, -⟩ := Scope.exists_mem_of_mem_mergedKeys hkey
      obtain ⟨e, he, ht, rfl⟩ := Scope.mem_changes_of_ends.mp hc
      rw [(hend e he).changes_eq ht] at hentry
      have hwrites := Table.contains_of_mem hentry
      rw [hkey] at hwrites
      exact ⟨e, he, ht, by rw [(hend e he).hasConstant, Frame.has, hwrites, Bool.true_or]⟩
    · obtain ⟨e, he, ht⟩ := hopen
      exact ⟨e, he, ht, by rw [(hend e he).hasConstant, ← hbefore, hhas, Bool.or_true]⟩
  · rintro ⟨e, he, ht, hhas⟩
    rw [(hend e he).hasConstant, Bool.or_eq_true] at hhas
    rcases hhas with hwrites | hhas
    · obtain ⟨entry, hget⟩ := Option.isSome_iff_exists.mp hwrites
      obtain ⟨u, hu⟩ := Option.isSome_iff_exists.mp ((hend e he).isSome_of_get? ht hget)
      obtain ⟨x, hx⟩ := List.exists_mem_of_ne_nil _ u.members_ne_nil
      have hlookup : e.lookup w (w.constantKey m name) = some u := by
        rw [(hend e he).lookup, hget, Option.elim_some, hu]
      refine Scope.hasConstant_of_mem_kindsOf (k := x.kind)
        ((mem_kindsOf_branches hs hne hopen).mpr ⟨e, he, ht, ?_⟩)
      rw [hlookup]
      exact List.mem_map_of_mem hx
    · rw [run_branches_eq, Scope.joinBranches_eq_merge hend hopen]
      exact Scope.hasConstant_merge (hbefore.trans hhas) _

/-- A branch counts if the constant stands in a frame at its end. The live value counts only where
that is so for no branch. -/
theorem mem_kindsOf_constant?_branches (m : ModuleId) (name : String) {k : MemberKind} :
    k ∈ kindsOf ((run w (.branches bodies) s).2.constant? w m name) ↔
      ∃ e ∈ branchEnds w bodies s, e.isTerminated = false ∧ k ∈ kindsOf (e.constant? w m name) ∧
        (e.hasConstant w m name = true ∨ ∀ e' ∈ branchEnds w bodies s, e'.isTerminated = false →
          e'.hasConstant w m name = false) := by
  have hjoined := hasConstant_branches hs hne hopen m name
  by_cases hany : ∃ e ∈ branchEnds w bodies s, e.isTerminated = false ∧
      e.hasConstant w m name = true
  · rw [Scope.constant?_of_hasConstant (hjoined.mpr hany), mem_kindsOf_branches hs hne hopen]
    constructor
    · rintro ⟨e, he, ht, hk⟩
      have hhas := Scope.hasConstant_of_mem_kindsOf hk
      rw [← Scope.constant?_of_hasConstant hhas] at hk
      exact ⟨e, he, ht, hk, .inl hhas⟩
    · rintro ⟨e, he, ht, hk, hhas | hnone⟩
      · rw [Scope.constant?_of_hasConstant hhas] at hk
        exact ⟨e, he, ht, hk⟩
      · obtain ⟨e', he', ht', hhas⟩ := hany
        simp [hnone e' he' ht'] at hhas
  · have hnone : ∀ e ∈ branchEnds w bodies s, e.isTerminated = false →
        e.hasConstant w m name = false := by simpa using hany
    have hroot := (run_evolves w (.branches bodies) s).root
    have hlive (e : Scope) (he : e ∈ branchEnds w bodies s) (ht : e.isTerminated = false) :
        e.constant? w m name = s.root.constant? w m name := by
      have hend := branchEnd_of_mem_branchEnds hs.valid he
      rw [Scope.constant?_of_not_hasConstant (hnone e he ht), hend.root]
    rw [Scope.constant?_of_not_hasConstant (Bool.eq_false_iff.mpr fun h ↦ hany (hjoined.mp h)),
      hroot]
    constructor
    · intro hk
      obtain ⟨e, he, ht⟩ := hopen
      rw [← hlive e he ht] at hk
      exact ⟨e, he, ht, hk, .inr hnone⟩
    · rintro ⟨e, he, ht, hk, -⟩
      rwa [hlive e he ht] at hk

end joined

theorem mem_kindsOf_constant?_of_forgetsLive (hs : s.Reachable) (hne : s.frames ≠ [])
    {bodies : List (List (ScopeStep α))} {m : ModuleId} {name : String}
    (hforgets : s.ForgetsLive w (branchEnds w bodies s) m name) {k : MemberKind} :
    k ∈ kindsOf ((run w (.branches bodies) s).2.constant? w m name) ↔
      ∃ e ∈ branchEnds w bodies s, e.isTerminated = false ∧
        e.leave.1.has (w.constantKey m name) = true ∧ k ∈ kindsOf (e.constant? w m name) := by
  obtain ⟨hframes, ⟨e₁, he₁, ht₁, hwrites₁⟩, -⟩ := hforgets
  have hhas (e : Scope) (he : e ∈ branchEnds w bodies s) :
      e.hasConstant w m name = e.leave.1.has (w.constantKey m name) := by
    rw [(branchEnd_of_mem_branchEnds hs.valid he).hasConstant, hframes, Bool.or_false]
  rw [mem_kindsOf_constant?_branches hs hne ⟨e₁, he₁, ht₁⟩]
  constructor
  · rintro ⟨e, he, ht, hk, hown | hnone⟩
    · exact ⟨e, he, ht, (hhas e he).symm.trans hown, hk⟩
    · have hfalse := hnone e₁ he₁ ht₁
      rw [hhas e₁ he₁, hwrites₁] at hfalse
      cases hfalse
  · rintro ⟨e, he, ht, hwrites, hk⟩
    exact ⟨e, he, ht, hk, .inl ((hhas e he).trans hwrites)⟩

theorem mem_kindsOf_constant?_of_not_forgetsLive (hs : s.Reachable) (hne : s.frames ≠ [])
    {bodies : List (List (ScopeStep α))}
    (hopen : ∃ e ∈ branchEnds w bodies s, e.isTerminated = false) {m : ModuleId} {name : String}
    (hkeeps : ¬ s.ForgetsLive w (branchEnds w bodies s) m name) {k : MemberKind} :
    k ∈ kindsOf ((run w (.branches bodies) s).2.constant? w m name) ↔
      ∃ e ∈ branchEnds w bodies s, e.isTerminated = false ∧ k ∈ kindsOf (e.constant? w m name) := by
  have hend (e : Scope) (he : e ∈ branchEnds w bodies s) : s.BranchEnd e :=
    branchEnd_of_mem_branchEnds hs.valid he
  have hhas (e : Scope) (he : e ∈ branchEnds w bodies s) : e.hasConstant w m name =
      (e.leave.1.has (w.constantKey m name) || s.hasConstant w m name) := (hend e he).hasConstant
  rw [mem_kindsOf_constant?_branches hs hne hopen]
  refine ⟨fun ⟨e, he, ht, hk, _⟩ ↦ ⟨e, he, ht, hk⟩, fun ⟨e, he, ht, hk⟩ ↦ ?_⟩
  cases hown : e.hasConstant w m name with
  | true => exact ⟨e, he, ht, hk, .inl hown⟩
  | false =>
    obtain ⟨hnot, hframes⟩ := Bool.or_eq_false_iff.mp ((hhas e he).symm.trans hown)
    -- Where some other branch writes the constant, all that it was is among what they write.
    by_cases hany : ∃ e' ∈ branchEnds w bodies s, e'.isTerminated = false ∧
        e'.leave.1.has (w.constantKey m name) = true
    · by_contra hlost
      rw [(hend e he).constant?_of_not_has hnot] at hk
      refine hkeeps ⟨hframes, hany, ⟨e, he, ht, hnot⟩, k, hk, fun e' he' ht' hwrites hk' ↦ ?_⟩
      exact hlost ⟨e', he', ht', hk', .inl (by rw [hhas e' he', hwrites, Bool.true_or])⟩
    · refine ⟨e, he, ht, hk, .inr fun e' he' ht' ↦ ?_⟩
      rw [hhas e' he', hframes, Bool.or_false, Bool.eq_false_iff]
      exact fun hwrites ↦ hany ⟨e', he', ht', hwrites⟩

/-- A branch that does not write a constant leaves it as it was. After branches of which control
gets through at least one, a constant may be what it is at the end of one of those, except where its
live value is forgotten; there it is what those of them have that write it. -/
theorem constants_join_unless_forgotten (hs : s.Reachable) (hne : s.frames ≠ [])
    (bodies : List (List (ScopeStep α)))
    (hopen : ∃ e ∈ branchEnds w bodies s, e.isTerminated = false) (m : ModuleId) (name : String) :
    (∀ e ∈ branchEnds w bodies s, e.leave.1.has (w.constantKey m name) = false →
      e.constant? w m name = s.constant? w m name) ∧
    ((∀ k, k ∈ kindsOf ((run w (.branches bodies) s).2.constant? w m name) ↔
        ∃ e ∈ branchEnds w bodies s, e.isTerminated = false ∧ k ∈ kindsOf (e.constant? w m name)) ↔
      ¬ s.ForgetsLive w (branchEnds w bodies s) m name) ∧
    (s.ForgetsLive w (branchEnds w bodies s) m name →
      ∀ k, k ∈ kindsOf ((run w (.branches bodies) s).2.constant? w m name) ↔
        ∃ e ∈ branchEnds w bodies s, e.isTerminated = false ∧
          e.leave.1.has (w.constantKey m name) = true ∧ k ∈ kindsOf (e.constant? w m name)) := by
  have hkept (e : Scope) (he : e ∈ branchEnds w bodies s)
      (hnot : e.leave.1.has (w.constantKey m name) = false) :
      e.constant? w m name = s.constant? w m name :=
    (branchEnd_of_mem_branchEnds hs.valid he).constant?_of_not_has hnot
  refine ⟨hkept, ⟨fun hall hforgets ↦ ?_, fun hkeeps k ↦ ?_⟩, fun hforgets k ↦ ?_⟩
  · have ⟨_, _, ⟨e₂, he₂, ht₂, hnot⟩, k, hk, hfresh⟩ := hforgets
    rw [← hkept e₂ he₂ hnot] at hk
    obtain ⟨e, he, ht, hwrites, hke⟩ :=
      (mem_kindsOf_constant?_of_forgetsLive hs hne hforgets).mp ((hall k).mpr ⟨e₂, he₂, ht₂, hk⟩)
    exact hfresh e he ht hwrites hke
  · exact mem_kindsOf_constant?_of_not_forgetsLive hs hne hopen hkeeps
  · exact mem_kindsOf_constant?_of_forgetsLive hs hne hforgets

def liveConstant : Scope :=
  Scope.enter ⟨⟨{ receiver := .ofModule ⟨0⟩, constants := [("X", .ofModule ⟨0⟩)] }, []⟩, []⟩ {} []

def onceWritten : List (List (ScopeStep Unit)) := [[.setConstant .object "X" .string], []]

theorem constants_join_unless_forgotten_once_written :
    liveConstant.Reachable ∧ liveConstant.frames ≠ [] ∧
    (∃ e ∈ branchEnds {} onceWritten liveConstant, e.isTerminated = false) ∧
    liveConstant.ForgetsLive {} (branchEnds {} onceWritten liveConstant) .object "X" ∧
    ¬ ∀ k, k ∈ kindsOf ((run {} (.branches onceWritten) liveConstant).2.constant? {} .object "X") ↔
      ∃ e ∈ branchEnds {} onceWritten liveConstant,
        e.isTerminated = false ∧ k ∈ kindsOf (e.constant? {} .object "X") := by
  have hs : liveConstant.Reachable := .enter _ [] (fun _ _ _ ↦ trivial) (.root _)
  have hne : liveConstant.frames ≠ [] := List.cons_ne_nil _ _
  have hopen : ∃ e ∈ branchEnds {} onceWritten liveConstant, e.isTerminated = false := by decide
  have hforgets : liveConstant.ForgetsLive {} (branchEnds {} onceWritten liveConstant)
      .object "X" := by decide
  have hjoin := (constants_join_unless_forgotten (w := {}) hs hne onceWritten hopen .object "X").2.1
  exact ⟨hs, hne, hopen, hforgets, fun hall ↦ hjoin.mp hall hforgets⟩

end ScopeStep

end FlowCompletion
