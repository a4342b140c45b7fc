import FlowCompletion.Proofs.Flow.Laws

namespace FlowCompletion

namespace Eval

variable {α β : Type}

/-- The computation stops for this reason and leaves the state so. -/
def Stops (m : Eval α) (f : Flow) (e : Halt) (g : Flow) : Prop := m.run.run f = (.error e, g)

section stops

variable {f g h : Flow} {e : Halt}

theorem not_stops_pure {a : α} : ¬ Stops (pure a) f e g := by
  intro h
  cases h

theorem stops_bind {m : Eval α} {k : α → Eval β} :
    Stops (m >>= k) f e h ↔ m.Stops f e h ∨ ∃ a g, m.Gives f a g ∧ (k a).Stops g e h := by
  simp only [Stops, Gives, run_bind]
  obtain ⟨e' | a, g⟩ := m.run.run f
  · constructor
    · intro h
      cases h
      exact .inl rfl
    · rintro (h | ⟨a, g, hgives, -⟩)
      · cases h
        rfl
      · cases hgives
  · constructor
    · exact fun h ↦ .inr ⟨a, g, rfl, h⟩
    · rintro (h | ⟨_, _, hgives, h⟩)
      · cases h
      · cases hgives
        exact h

theorem stops_throw {e' : Halt} : Stops (throw e' : Eval α) f e g ↔ e = e' ∧ g = f := by
  constructor
  · intro h
    cases h
    exact ⟨rfl, rfl⟩
  · rintro ⟨rfl, rfl⟩
    rfl

theorem not_stops_modify {op : Flow → Flow} : ¬ Stops (modify op) f e g := by
  intro h
  cases h

theorem not_stops_world : ¬ Stops world f e g := by
  intro h
  cases h

theorem not_stops_scope : ¬ Stops scope f e g := by
  intro h
  cases h

end stops

/-- From a state with `I` the computation gets to one with `I`; a result has `P`, and a reason to
stop has `E`. -/
structure Ensures (I : Flow → Prop) (E : Halt → Prop) (P : α → Prop) (m : Eval α) : Prop where
  gives : ∀ ⦃f a g⦄, I f → m.Gives f a g → I g ∧ P a
  stops : ∀ ⦃f e g⦄, I f → m.Stops f e g → I g ∧ E e

variable {I : Flow → Prop} {E : Halt → Prop} {P : α → Prop} {Q : β → Prop}

theorem ensures_pure {a : α} (h : P a) : Ensures I E P (pure a) := by
  refine ⟨fun f b g hf hgives ↦ ?_, fun f e g _ hstops ↦ absurd hstops not_stops_pure⟩
  obtain ⟨rfl, rfl⟩ := gives_pure.mp hgives
  exact ⟨hf, h⟩

theorem ensures_throw {e : Halt} (h : E e) : Ensures I E P (throw e : Eval α) := by
  refine ⟨fun f a g _ hgives ↦ absurd hgives not_gives_throw, fun f e g hf hstops ↦ ?_⟩
  obtain ⟨rfl, rfl⟩ := stops_throw.mp hstops
  exact ⟨hf, h⟩

theorem Ensures.bind {m : Eval α} {k : α → Eval β} (hm : Ensures I E P m)
    (hk : ∀ a, P a → Ensures I E Q (k a)) : Ensures I E Q (m >>= k) := by
  refine ⟨fun f b h hf hgives ↦ ?_, fun f e h hf hstops ↦ ?_⟩
  · obtain ⟨a, g, hm', hk'⟩ := gives_bind.mp hgives
    obtain ⟨hg, ha⟩ := hm.gives hf hm'
    exact (hk a ha).gives hg hk'
  · rcases stops_bind.mp hstops with hm' | ⟨a, g, hm', hk'⟩
    · exact hm.stops hf hm'
    · obtain ⟨hg, ha⟩ := hm.gives hf hm'
      exact (hk a ha).stops hg hk'

theorem Ensures.map {m : Eval α} {k : α → β} (hm : Ensures I E P m) (hk : ∀ a, P a → Q (k a)) :
    Ensures I E Q (k <$> m) := by
  rw [map_eq_pure_bind]
  exact hm.bind fun a ha ↦ ensures_pure (hk a ha)

theorem ensures_modify {op : Flow → Flow} (h : ∀ f, I f → I (op f)) :
    Ensures I E (fun _ ↦ True) (modify op) := by
  refine ⟨fun f _ g hf hgives ↦ ?_, fun f e g _ hstops ↦ absurd hstops not_stops_modify⟩
  rw [gives_modify.mp hgives]
  exact ⟨h f hf, trivial⟩

theorem ensures_world : Ensures I E (fun _ ↦ True) world := by
  refine ⟨fun f w g hf hgives ↦ ?_, fun f e g _ hstops ↦ absurd hstops not_stops_world⟩
  obtain ⟨-, rfl⟩ := gives_world.mp hgives
  exact ⟨hf, trivial⟩

theorem ensures_scope {S : Scope → Prop} (h : ∀ f, I f → S f.scope) : Ensures I E S scope := by
  refine ⟨fun f s g hf hgives ↦ ?_, fun f e g _ hstops ↦ absurd hstops not_stops_scope⟩
  obtain ⟨rfl, rfl⟩ := gives_scope.mp hgives
  exact ⟨hf, h g hf⟩

theorem ensures_resolver (task : Task) : Ensures I E (fun _ ↦ True) (resolver task) :=
  ensures_world.bind fun _ _ ↦ ensures_pure trivial

theorem Ensures.mapM {k : α → Eval β} {l : List α} (hk : ∀ a ∈ l, Ensures I E Q (k a)) :
    Ensures I E (fun bs ↦ ∀ b ∈ bs, Q b) (l.mapM k) := by
  induction l with
  | nil => exact ensures_pure fun _ h ↦ absurd h List.not_mem_nil
  | cons a l ih =>
    obtain ⟨ha, hl⟩ := List.forall_mem_cons.mp hk
    rw [List.mapM_cons]
    refine ha.bind fun b hb ↦ (ih hl).bind fun bs hbs ↦ ensures_pure ?_
    exact List.forall_mem_cons.mpr ⟨hb, hbs⟩

theorem Ensures.foldlM {k : β → α → Eval β} (hk : ∀ b, Q b → ∀ a, Ensures I E Q (k b a))
    (l : List α) {b : β} (hb : Q b) : Ensures I E Q (l.foldlM k b) := by
  induction l generalizing b with
  | nil => exact ensures_pure hb
  | cons a l ih =>
    rw [List.foldlM_cons]
    exact (hk b hb a).bind fun b' hb' ↦ ih hb'

abbrev HaltsWithin (H : Halt → Prop) (m : Eval α) : Prop :=
  Ensures (fun _ ↦ True) H (fun _ ↦ True) m

theorem haltsWithin_change (op : Scope → Scope) : HaltsWithin E (change op) :=
  ensures_modify fun _ _ ↦ trivial

theorem HaltsWithin.inFrame {body : Eval α} (hbody : HaltsWithin E body) (frame : Frame)
    (declared : List (String × Option Ty)) : HaltsWithin E (inFrame frame declared body) := by
  refine (haltsWithin_change _).bind fun _ _ ↦ hbody.bind fun a _ ↦ ?_
  refine (ensures_scope fun _ _ ↦ trivial).bind fun s (_ : True) ↦ ?_
  exact (haltsWithin_change _).bind fun _ _ ↦ ensures_pure trivial

end Eval

end FlowCompletion
