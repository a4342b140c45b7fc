import FlowCompletion.Proofs.Scope.Ownership
import FlowCompletion.Proofs.Scope.Reachable

namespace FlowCompletion

/-- Names that a frame keeps to itself: those it declares, and those of a kind that it does not
share with the frames around it. -/
def Frame.Confines (frame : Frame) (declared : List (String × Option Ty)) (name : String) : Prop :=
  name ∈ declared.map Prod.fst ∨
    NameKind.ofName name = .lvar ∧ frame.tracesLocals = false ∨
      NameKind.ofName name = .ivar ∧ frame.tracesIvars = false

instance (frame : Frame) (declared : List (String × Option Ty)) (name : String) :
    Decidable (frame.Confines declared name) :=
  inferInstanceAs (Decidable (_ ∨ _))

/-- What a frame that control has not left still shows of how it was entered. -/
structure Frame.EnteredAs (frame : Frame) (declared : List (String × Option Ty)) (level : Nat)
    (f : Frame) : Prop where
  tracesLocals : f.tracesLocals = frame.tracesLocals
  tracesIvars : f.tracesIvars = frame.tracesIvars
  frozen : f.frozen = none
  distinct : (Table.keys f.table).Nodup
  has : ∀ name ∈ declared.map Prod.fst, f.has (.named name) = true
  confined : ∀ name, frame.Confines declared name →
    ∀ entry ∈ f.table, entry.1 = .named name → entry.2.level = level + 1
  shared : ∀ name, ¬ frame.Confines declared name →
    ∀ entry ∈ f.table, entry.1 = .named name → entry.2.level ≤ level

section entered

variable {frame f g : Frame} {declared : List (String × Option Ty)} {outer : List Frame}
  {name : String}

theorem Frame.Confines.ownable (h : frame.Confines declared name)
    (hdeclared : ∀ d ∈ declared, Ownable d.1) : Ownable name := by
  rcases h with h | ⟨h, -⟩ | ⟨h, -⟩
  · obtain ⟨d, hd, rfl⟩ := List.mem_map.mp h
    exact hdeclared d hd
  · exact ownable_of_kind h (by decide)
  · exact ownable_of_kind h (by decide)

namespace Scope

theorem levelIn_of_confined (hf : frame.EnteredAs declared outer.length f)
    (h : frame.Confines declared name) (hkind : NameKind.ofName name ≠ .gvar) :
    levelIn (.named name) (f :: outer) = outer.length + 1 := by
  simp only [levelIn, Key.kind_named, hf.tracesLocals, hf.tracesIvars]
  split
  next hivar => rfl
  next hivar =>
    split
    next e hget => exact hf.confined name h _ (Table.mem_of_get? hget) rfl
    next hget =>
      -- Not in the table, so not declared; then the kind alone confines the name.
      rcases h with h | ⟨hl, ht⟩ | ⟨hi, ht⟩
      · have hhas := hf.has name h
        simp [Frame.has, Table.contains, hget] at hhas
      · simp [hl, ht]
      · simp [hi, ht] at hivar

theorem levelIn_of_shared (hf : frame.EnteredAs declared outer.length f)
    (h : ¬ frame.Confines declared name) (ho : ValidFrames outer) :
    levelIn (.named name) (f :: outer) ≤ outer.length := by
  simp only [levelIn, Key.kind_named, hf.tracesLocals, hf.tracesIvars]
  split
  · exact Nat.zero_le _
  split
  next hivar =>
    simp only [Bool.and_eq_true, decide_eq_true_eq, Bool.not_eq_true'] at hivar
    exact absurd (.inr (.inr hivar)) h
  next hivar =>
    split
    next e hget => exact hf.shared name h _ (Table.mem_of_get? hget) rfl
    next hget =>
      split
      next hlocal =>
        simp only [Bool.and_eq_true, decide_eq_true_eq, Bool.not_eq_true'] at hlocal
        exact absurd (.inr (.inl hlocal)) h
      next => exact levelIn_le ho _

end Scope

theorem Frame.EnteredAs.insert {level : Nat} {key : Key} {e : Entry}
    (hf : frame.EnteredAs declared level f)
    (hconfined : ∀ name, key = .named name → frame.Confines declared name → e.level = level + 1)
    (hshared : ∀ name, key = .named name → ¬ frame.Confines declared name → e.level ≤ level) :
    frame.EnteredAs declared level { f with table := Table.insert f.table key e } := by
  refine ⟨hf.tracesLocals, hf.tracesIvars, hf.frozen, Table.nodup_keys_insert hf.distinct key e,
    fun name hname ↦ ?_, fun name hc entry hentry hname ↦ ?_, fun name hs entry hentry hname ↦ ?_⟩
  · have hhas : Table.contains f.table (.named name) = true := hf.has name hname
    rw [Frame.has, Table.contains_insert, hhas, Bool.or_true]
  · rcases Table.eq_or_mem_of_mem_insert hentry with rfl | hmem
    · exact hconfined name hname hc
    · exact hf.confined name hc entry hmem hname
  · rcases Table.eq_or_mem_of_mem_insert hentry with rfl | hmem
    · exact hshared name hname hs
    · exact hf.shared name hs entry hmem hname

theorem Frame.Step.enteredAs (hdeclared : ∀ d ∈ declared, Ownable d.1)
    (ho : Scope.ValidFrames outer) (h : f.Step outer g)
    (hf : f.terminated = false → frame.EnteredAs declared outer.length f)
    (hg : g.terminated = false) : frame.EnteredAs declared outer.length g := by
  cases h with
  | write key t =>
    have hf := hf hg
    refine hf.insert (fun name hname hc ↦ ?_) (fun name hname hs ↦ ?_)
    · rw [hname]
      exact Scope.levelIn_of_confined hf hc (hc.ownable hdeclared).not_gvar
    · rw [hname]
      exact Scope.levelIn_of_shared hf hs ho
  | constant address other t =>
    refine (hf hg).insert (fun name hname hc ↦ ?_) fun _ _ _ ↦ Nat.zero_le _
    exact absurd ⟨address, other, hname.symm⟩ (hc.ownable hdeclared).not_constant
  | terminate _ | leave _ _ _ _ _ => cases hg
  | forgetJumps ht =>
    have hf := hf hg
    exact ⟨hf.tracesLocals, hf.tracesIvars, hf.frozen, hf.distinct, hf.has, hf.confined, hf.shared⟩
  | reopen ht => exact absurd hg (by simp [ht])

end entered

namespace Scope

variable {frame : Frame} {declared : List (String × Option Ty)} {w : World}

theorem enteredAs_enter (s : Scope) (frame : Frame) (declared : List (String × Option Ty)) :
    (s.enter frame declared).Inner (frame.EnteredAs declared s.level) := by
  intro f hf
  obtain rfl := Option.mem_some.mp hf
  refine ⟨rfl, rfl, rfl, Table.nodup_keys_ofList _, fun name hname ↦ ?_,
    fun name _ entry hentry _ ↦ ?_, fun name hs entry hentry hname ↦ ?_⟩
  · obtain ⟨d, hd, rfl⟩ := List.mem_map.mp hname
    exact Table.contains_ofList (List.mem_map.mpr ⟨_, List.mem_map_of_mem hd, rfl⟩)
  · obtain ⟨d, -, rfl⟩ := List.mem_map.mp (Table.mem_of_mem_ofList hentry)
    rfl
  · obtain ⟨d, hd, rfl⟩ := List.mem_map.mp (Table.mem_of_mem_ofList hentry)
    obtain rfl := Key.named_inj.mp hname
    exact absurd (.inl (List.mem_map_of_mem hd)) hs

theorem Evolves.enteredAs {s t : Scope} (hs : s.Valid)
    (hdeclared : ∀ d ∈ declared, Ownable d.1)
    (h : Evolves (s.enter frame declared) t) :
    t.Inner fun f ↦ f.terminated = false → frame.EnteredAs declared s.level f := by
  induction h with
  | refl => exact fun f hf _ ↦ enteredAs_enter s frame declared f hf
  | @tail t u hst hm ih =>
    have hvalid := Evolves.valid hst (valid_enter hs frame declared)
    have hlevel := Evolves.level hst
    cases hm with
    | @inner root f g outer hstep =>
      intro g' hg ht
      obtain rfl := Option.mem_some.mp hg
      have houter : outer.length = s.level := Nat.succ.inj hlevel
      have hf := ih f rfl
      rw [← houter] at hf ⊢
      exact hstep.enteredAs hdeclared hvalid.2 hf ht
    | recorded _ label value changes =>
      refine ih.record ?_ label value changes
      rintro f g ⟨js, rfl⟩ hf ht
      have hf := hf ht
      exact ⟨hf.tracesLocals, hf.tracesIvars, hf.frozen, hf.distinct, hf.has, hf.confined,
        hf.shared⟩

theorem entryFor_cons (s : Scope) (key first : Key) (e : Entry) (changes : Changes) :
    s.entryFor key ((first, e) :: changes) =
      if key = first then (if e.level ≤ s.level then some e else none)
      else s.entryFor key changes := by
  rw [entryFor, Table.get?_cons]
  split
  · simp only [Option.filter_some, decide_eq_true_eq]
  · rfl

theorem entryFor_eq_none_of_not_mem_keys {s : Scope} {key : Key} {changes : Changes}
    (h : key ∉ Table.keys changes) : s.entryFor key changes = none := by
  rw [entryFor, Table.get?_eq_none_of_not_mem_keys h]
  rfl

theorem lookup_update {s : Scope} (hs : s.frames ≠ []) {changes : Changes}
    (hdistinct : (Table.keys changes).Nodup) (key : Key) :
    (s.update changes).lookup w key =
      (s.entryFor key changes).elim (s.lookup w key) Entry.value := by
  induction changes generalizing s with
  | nil => rfl
  | cons entry changes ih =>
    obtain ⟨first, e⟩ := entry
    obtain ⟨hfirst, hrest⟩ := List.nodup_cons.mp hdistinct
    have hnone (hk : key = first) : s.entryFor key changes = none :=
      entryFor_eq_none_of_not_mem_keys (hk ▸ hfirst)
    rw [update_cons, entryFor_cons]
    split
    next hle =>
      rw [ih (frames_setKey_ne_nil hs _) hrest, lookup_setKey hs,
        entryFor_of_level (level_setKey s first e.value)]
      by_cases hk : key = first
      · rw [hnone hk, if_pos hk, if_pos hk]
        rfl
      · rw [if_neg hk, if_neg hk]
    next hle =>
      rw [ih hs hrest]
      by_cases hk : key = first
      · rw [hnone hk, if_pos hk]
      · rw [if_neg hk]

section left

variable {p c : Scope}

theorem Evolves.lookup_nested (hp : p.Valid) (hne : p.frames ≠ [])
    (hdeclared : ∀ d ∈ declared, Ownable d.1)
    (h : Evolves (p.enter frame declared) c) (hopen : c.isTerminated = false) (name : String) :
    (c.outer.update c.leave.1.changes).get? w name =
      if frame.Confines declared name then p.get? w name else c.get? w name := by
  have hroot := h.root
  have hlevel := h.level
  have hawaits := h.awaits_outer
  have hentered := h.enteredAs hp hdeclared
  obtain ⟨root, _ | ⟨f, outer⟩⟩ := c
  · cases hlevel
  obtain rfl : root = p.root := hroot
  have hf : frame.EnteredAs declared p.level f := hentered f rfl hopen
  have hbefore : lookupIn w p.root (.named name) outer = p.get? w name := lookupIn_of_awaits hawaits
  have hout : (⟨p.root, outer⟩ : Scope).level = p.level := Nat.succ.inj hlevel
  have houter : outer ≠ [] := fun hnil ↦ hne (List.forall₂_nil_right_iff.mp (hnil ▸ hawaits))
  have hchanges : f.changes = f.table := by rw [Frame.changes, hf.frozen, Option.getD_none]
  have hupdate : (update ⟨p.root, outer⟩ f.changes).get? w name =
      (p.entryFor (.named name) f.table).elim (p.get? w name) Entry.value := by
    rw [hchanges, get?, lookup_update houter hf.distinct, entryFor_of_level hout, lookup,
      hbefore]
  refine hupdate.trans ?_
  cases hget : Table.get? f.table (.named name) with
  | some e =>
    have hmem := Table.mem_of_get? hget
    split
    next hconfined =>
      have hlt : ¬ e.level ≤ p.level := by
        rw [hf.confined name hconfined _ hmem rfl]
        exact Nat.not_succ_le_self _
      rw [entryFor, hget, Option.filter_some, if_neg (by simpa using hlt), Option.elim_none]
    next hshared =>
      have hle := hf.shared name hshared _ hmem rfl
      rw [entryFor_eq_some.mpr ⟨hget, hle⟩, Option.elim_some]
      exact (lookupIn_of_get? hget outer).symm
  | none =>
    have hnone : p.entryFor (.named name) f.table = none := by rw [entryFor, hget]; rfl
    rw [hnone, Option.elim_none]
    split
    next => rfl
    next hshared =>
      have htraces : ¬ (NameKind.ofName name = .ivar ∧ f.tracesIvars = false) :=
        fun hivar ↦ hshared (.inr (.inr (hf.tracesIvars ▸ hivar)))
      rw [← hbefore, get?, lookup]
      simp only [lookupIn, hget]
      rw [if_neg]
      intro hivar
      simp only [Bool.and_eq_true, decide_eq_true_eq, Bool.not_eq_true'] at hivar
      exact htraces hivar

end left

end Scope

namespace ScopeStep

variable {α : Type} {w : World}

/-- When a frame is left with control at its end, a name that it shares with the frames around it is
there what it was at the end of the frame, and every other name is what it was before. No name that
the frame declares comes to the frame around it. -/
theorem child_writes_back {p : Scope} (hp : p.Reachable) (hne : p.frames ≠ []) (frame : Frame)
    {declared : List (String × Option Ty)}
    (hdeclared : ∀ d ∈ declared, NameKind.ofName d.1 = .lvar ∨ NameKind.ofName d.1 = .label)
    (steps : List (ScopeStep α))
    (hopen : (runAll w steps (p.enter frame declared)).2.isTerminated = false) :
    (∀ name, (run w (.child frame declared steps true) p).2.get? w name =
      if frame.Confines declared name then p.get? w name
      else (runAll w steps (p.enter frame declared)).2.get? w name) ∧
    ∀ name ∈ declared.map Prod.fst,
      (run w (.child frame declared steps true) p).2.hasOwn name = true → p.hasOwn name = true := by
  have hownable : ∀ d ∈ declared, Ownable d.1 := by
    intro d hd
    rcases hdeclared d hd with h | h
    · exact ownable_of_kind h (by decide)
    · exact ownable_of_kind h (by decide)
  have hrun := runAll_evolves w steps (p.enter frame declared)
  refine ⟨hrun.lookup_nested hp.valid hne hownable hopen, fun name hname hown ↦ ?_⟩
  obtain ⟨d, hd, rfl⟩ := List.mem_map.mp hname
  obtain ⟨root, _ | ⟨f, outer⟩⟩ := p
  · exact absurd rfl hne
  obtain ⟨g, outer', hupdate, -, -, hmem⟩ := hrun.nested_of_declared (hownable d hd) hname
  have hg : g.has (.named d.1) = true := by
    have hrun : (run w (.child frame declared steps true) ⟨root, f :: outer⟩).2 =
        ⟨root, g :: outer'⟩ := hupdate
    rw [hrun] at hown
    exact hown
  obtain ⟨e, he⟩ := Option.isSome_iff_exists.mp hg
  exact Table.contains_of_mem (hmem _ (Table.mem_of_get? he) rfl)

def methodSteps : List (ScopeStep Unit) :=
  [.set "a" .integer, .set "@x" .string, .branches [[.set "$g" .symbol], [.set "$g" .string]]]

def methodFrame : Frame := { tracesLocals := false, tracesIvars := false }

theorem child_writes_back_method :
    (Scope.bare [("a", some .nil)]).Reachable ∧ (Scope.bare [("a", some .nil)]).frames ≠ [] ∧
    (∀ d ∈ [("b", some Ty.nil), (Label.toReturn, none)],
      NameKind.ofName d.1 = .lvar ∨ NameKind.ofName d.1 = .label) ∧
    (runAll {} methodSteps ((Scope.bare [("a", some .nil)]).enter methodFrame
      [("b", some .nil), (Label.toReturn, none)])).2.isTerminated = false ∧
    (run {} (.child methodFrame [("b", some .nil), (Label.toReturn, none)] methodSteps true)
      (.bare [("a", some .nil)])).2.get? {} "a" = some .nil ∧
    .instanceOf .symbol ∈ kindsOf ((run {} (.child methodFrame
      [("b", some .nil), (Label.toReturn, none)] methodSteps true)
        (.bare [("a", some .nil)])).2.get? {} "$g") := by
  have hs := Scope.reachable_bare [("a", some .nil)]
  have hne : (Scope.bare [("a", some .nil)]).frames ≠ [] := List.cons_ne_nil _ _
  have hdeclared : ∀ d ∈ [("b", some Ty.nil), (Label.toReturn, none)],
      NameKind.ofName d.1 = .lvar ∨ NameKind.ofName d.1 = .label := by
    intro d hd
    rcases List.mem_pair.mp hd with rfl | rfl <;> decide
  have hopen : (runAll {} methodSteps ((Scope.bare [("a", some .nil)]).enter methodFrame
      [("b", some .nil), (Label.toReturn, none)])).2.isTerminated = false := by decide
  have hback := (child_writes_back hs hne methodFrame hdeclared methodSteps hopen).1
  refine ⟨hs, hne, hdeclared, hopen, (hback "a").trans ?_, ?_⟩
  · rw [if_pos (by decide)]
    rfl
  · rw [hback "$g", if_neg (by decide)]
    decide

end ScopeStep

end FlowCompletion
