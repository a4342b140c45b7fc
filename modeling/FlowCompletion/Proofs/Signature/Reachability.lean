import FlowCompletion.Proofs.Signature.Ancestors
import Mathlib.Data.Finset.Card
import Mathlib.Logic.Relation

namespace FlowCompletion

namespace Database

variable {db : Database} {name : String} {found all : List Ancestor} {starts : List String}

def Declared (db : Database) (name : String) : Prop := ∃ decl, db.class? name = some decl

def Mentions (db : Database) (name other : String) : Prop :=
  ∃ decl, db.class? name = some decl ∧ ∃ ref ∈ decl.supertypes, ref.name = other

def Reaches (db : Database) : String → String → Prop := Relation.ReflTransGen db.Mentions

def entered (db : Database) (found : List Ancestor) (mention : TypeRef × Substitution) :
    Option (Ancestor × List (TypeRef × Substitution)) :=
  (db.class? mention.1.name).bind fun decl =>
    if found.any (·.name = decl.name) then none
    else
      let own := argumentsOf decl mention.1.args mention.2
      some (⟨decl.name, own⟩, decl.supertypes.map (·, own))

/-- The search as it is, with no bound on the height: it follows the mentions in their order, with
some classes found before, and returns with what is found by then. -/
inductive Explores (db : Database) :
    List (TypeRef × Substitution) → List Ancestor → List Ancestor → Prop
  | nil {found : List Ancestor} : Explores db [] found found
  | skip {mention : TypeRef × Substitution} {rest : List (TypeRef × Substitution)}
      {found all : List Ancestor} :
      db.entered found mention = none → Explores db rest found all →
      Explores db (mention :: rest) found all
  | enter {mention : TypeRef × Substitution} {rest next : List (TypeRef × Substitution)}
      {ancestor : Ancestor} {found mid all : List Ancestor} :
      db.entered found mention = some (ancestor, next) →
      Explores db next (found ++ [ancestor]) mid → Explores db rest mid all →
      Explores db (mention :: rest) found all

theorem Explores.deterministic {mentions : List (TypeRef × Substitution)} {all' : List Ancestor}
    (h : db.Explores mentions found all) (h' : db.Explores mentions found all') : all' = all := by
  induction h generalizing all' with
  | nil =>
    cases h'
    rfl
  | skip hentered _ ih =>
    cases h' with
    | skip _ hrest => exact ih hrest
    | enter hentered' => cases hentered.symm.trans hentered'
  | enter hentered _ _ ihnext ihrest =>
    cases h' with
    | skip hentered' => cases hentered.symm.trans hentered'
    | enter hentered' hnext hrest =>
      cases hentered.symm.trans hentered'
      obtain rfl := ihnext hnext
      exact ihrest hrest

theorem climb_succ (height : Nat) (found : List Ancestor) (mention : TypeRef × Substitution) :
    db.climb (height + 1) found mention =
      (db.entered found mention).elim found fun p ↦
        p.2.foldl (db.climb height) (found ++ [p.1]) := by
  obtain ⟨ref, outer⟩ := mention
  rw [climb, entered]
  cases db.class? ref.name with
  | none => rfl
  | some decl =>
    rw [Option.bind_some]
    by_cases hmet : found.any (·.name = decl.name)
    · simp [hmet]
    · simp [hmet, ClassDecl.supertypes]

theorem entered_eq_none {mention : TypeRef × Substitution} (hbuilt : db.Built)
    (h : db.entered found mention = none) (hdeclared : db.Declared mention.1.name) :
    mention.1.name ∈ found.map Ancestor.name := by
  obtain ⟨decl, hdecl⟩ := hdeclared
  rw [entered, hdecl, Option.bind_some] at h
  split at h
  case isTrue hmet =>
    rw [hbuilt.name_eq hdecl] at hmet
    simpa using hmet
  case isFalse => cases h

theorem entered_eq_some {mention : TypeRef × Substitution} (hbuilt : db.Built)
    {ancestor : Ancestor} {next : List (TypeRef × Substitution)}
    (h : db.entered found mention = some (ancestor, next)) :
    ancestor.name = mention.1.name ∧ db.Declared ancestor.name ∧
      ancestor.name ∉ found.map Ancestor.name ∧
      ∀ other, other ∈ next.map (·.1.name) ↔ db.Mentions ancestor.name other := by
  rw [entered, Option.bind_eq_some_iff] at h
  obtain ⟨decl, hdecl, h⟩ := h
  have hself : db.class? decl.name = some decl := by rw [hbuilt.name_eq hdecl, hdecl]
  split at h
  case isTrue => cases h
  case isFalse hnew =>
    obtain ⟨rfl, rfl⟩ := Prod.mk.inj (Option.some.inj h)
    refine ⟨hbuilt.name_eq hdecl, ⟨decl, hself⟩, by simpa using hnew, fun other ↦ ?_⟩
    simp [Mentions, hself]

/-- All that is met in following mentions of the given names, after the classes found before. -/
structure Explored (db : Database) (starts : List String) (found all : List Ancestor) : Prop where
  grows : found <+: all
  nodup : (found.map Ancestor.name).Nodup → (all.map Ancestor.name).Nodup
  meets : ∀ s ∈ starts, db.Declared s → s ∈ all.map Ancestor.name
  sound : ∀ x ∈ all.map Ancestor.name, x ∈ found.map Ancestor.name ∨
    db.Declared x ∧ ∃ s ∈ starts, db.Reaches s x
  closed : ∀ x ∈ all.map Ancestor.name, x ∈ found.map Ancestor.name ∨
    ∀ y, db.Mentions x y → db.Declared y → y ∈ all.map Ancestor.name

namespace Explored

theorem subset (h : db.Explored starts found all) :
    found.map Ancestor.name ⊆ all.map Ancestor.name :=
  (h.grows.map Ancestor.name).subset

theorem nothing (hmet : ∀ s ∈ starts, db.Declared s → s ∈ found.map Ancestor.name) :
    db.Explored starts found found where
  grows := List.prefix_rfl
  nodup h := h
  meets := hmet
  sound _ hx := .inl hx
  closed _ hx := .inl hx

theorem append {mid : List Ancestor} {others : List String} (h : db.Explored starts found mid)
    (hothers : db.Explored others mid all) : db.Explored (starts ++ others) found all where
  grows := h.grows.trans hothers.grows
  nodup hfound := hothers.nodup (h.nodup hfound)
  meets s hs hdeclared := by
    rcases List.mem_append.mp hs with hs | hs
    · exact hothers.subset (h.meets s hs hdeclared)
    · exact hothers.meets s hs hdeclared
  sound x hx := by
    rcases hothers.sound x hx with hmid | ⟨hdeclared, s, hs, hreach⟩
    · rcases h.sound x hmid with hfound | ⟨hdeclared, s, hs, hreach⟩
      · exact .inl hfound
      · exact .inr ⟨hdeclared, s, List.mem_append_left _ hs, hreach⟩
    · exact .inr ⟨hdeclared, s, List.mem_append_right _ hs, hreach⟩
  closed x hx := by
    rcases hothers.closed x hx with hmid | hclosed
    · rcases h.closed x hmid with hfound | hclosed
      · exact .inl hfound
      · exact .inr fun y hy hdeclared ↦ hothers.subset (hclosed y hy hdeclared)
    · exact .inr hclosed

theorem enter (hbuilt : db.Built) {mention : TypeRef × Substitution} {ancestor : Ancestor}
    {next : List (TypeRef × Substitution)}
    (hentered : db.entered found mention = some (ancestor, next))
    (h : db.Explored (next.map (·.1.name)) (found ++ [ancestor]) all) :
    db.Explored [mention.1.name] found all := by
  obtain ⟨hname, hdeclared, hnew, hnext⟩ := entered_eq_some hbuilt hentered
  have hentry (x : String) : x ∈ (found ++ [ancestor]).map Ancestor.name ↔
      x ∈ found.map Ancestor.name ∨ x = ancestor.name := by
    rw [List.map_append, List.mem_append, List.map_singleton, List.mem_singleton]
  have hmet : ancestor.name ∈ all.map Ancestor.name := h.subset ((hentry _).mpr (.inr rfl))
  rw [← hname]
  constructor
  case grows => exact (List.prefix_append found [ancestor]).trans h.grows
  case nodup =>
    intro hfound
    apply h.nodup
    rw [List.map_append, List.map_singleton]
    exact hfound.append (List.nodup_singleton _) (by simpa using hnew)
  case meets =>
    intro s hs _
    rwa [List.mem_singleton.mp hs]
  case sound =>
    intro x hx
    rcases h.sound x hx with hx | ⟨hx, s, hs, hreach⟩
    · rcases (hentry x).mp hx with hx | rfl
      · exact .inl hx
      · exact .inr ⟨hdeclared, _, List.mem_singleton_self _, .refl⟩
    · exact .inr ⟨hx, _, List.mem_singleton_self _, .head ((hnext s).mp hs) hreach⟩
  case closed =>
    intro x hx
    rcases h.closed x hx with hx | hclosed
    · rcases (hentry x).mp hx with hx | rfl
      · exact .inl hx
      · -- the class is left when all that it mentions has been followed
        exact .inr fun y hy ↦ h.meets y ((hnext y).mpr hy)
    · exact .inr hclosed

end Explored

theorem Explored.complete (h : db.Explored starts [] all) {s x : String} (hs : s ∈ starts)
    (hreach : db.Reaches s x) (hx : db.Declared x) : x ∈ all.map Ancestor.name := by
  induction hreach with
  | refl => exact h.meets s hs hx
  | tail _ hmention ih =>
    obtain ⟨decl, hdecl, -⟩ := id hmention
    rcases h.closed _ (ih ⟨decl, hdecl⟩) with hfound | hclosed
    · exact absurd hfound List.not_mem_nil
    · exact hclosed _ hmention hx

theorem Explores.explored (hbuilt : db.Built) {mentions : List (TypeRef × Substitution)}
    (h : db.Explores mentions found all) :
    db.Explored (mentions.map (·.1.name)) found all := by
  induction h with
  | nil => exact .nothing fun s hs ↦ absurd hs List.not_mem_nil
  | @skip mention rest found all hentered _ ih =>
    have hmention : db.Explored [mention.1.name] found found := by
      refine .nothing fun s hs hdeclared ↦ ?_
      obtain rfl := List.mem_singleton.mp hs
      exact entered_eq_none hbuilt hentered hdeclared
    exact hmention.append ih
  | enter hentered _ _ ihnext ihrest => exact .append (.enter hbuilt hentered ihnext) ihrest

def unmet (db : Database) (found : List Ancestor) : Finset String :=
  (Table.keys db.classes).toFinset \ (found.map Ancestor.name).toFinset

theorem mem_unmet {found : List Ancestor} :
    name ∈ db.unmet found ↔ db.Declared name ∧ name ∉ found.map Ancestor.name := by
  rw [unmet, Finset.mem_sdiff, List.mem_toFinset, List.mem_toFinset, Table.mem_keys,
    Option.isSome_iff_exists]
  rfl

theorem card_unmet_le (db : Database) (found : List Ancestor) :
    (db.unmet found).card ≤ db.classCount :=
  calc (db.unmet found).card
      ≤ (Table.keys db.classes).toFinset.card := Finset.card_le_card Finset.sdiff_subset
    _ ≤ (Table.keys db.classes).length := List.toFinset_card_le _
    _ = db.classCount := List.length_map _

theorem Explored.card_unmet_le (h : db.Explored starts found all) :
    (db.unmet all).card ≤ (db.unmet found).card := by
  apply Finset.card_le_card
  intro x hx
  obtain ⟨hdeclared, hnew⟩ := mem_unmet.mp hx
  exact mem_unmet.mpr ⟨hdeclared, fun hmet ↦ hnew (h.subset hmet)⟩

theorem card_unmet_enter (hbuilt : db.Built) {mention : TypeRef × Substitution}
    {ancestor : Ancestor} {next : List (TypeRef × Substitution)}
    (hentered : db.entered found mention = some (ancestor, next)) :
    (db.unmet (found ++ [ancestor])).card < (db.unmet found).card := by
  obtain ⟨-, hdeclared, hnew, -⟩ := entered_eq_some hbuilt hentered
  apply Finset.card_lt_card
  refine ⟨fun x hx ↦ ?_, fun hsubset ↦ ?_⟩
  · obtain ⟨hx, hother⟩ := mem_unmet.mp hx
    refine mem_unmet.mpr ⟨hx, fun hmet ↦ hother ?_⟩
    rw [List.map_append]
    exact List.mem_append_left _ hmet
  · have hmem := hsubset (mem_unmet.mpr ⟨hdeclared, hnew⟩)
    apply (mem_unmet.mp hmem).2
    rw [List.map_append]
    exact List.mem_append_right _ (List.mem_singleton_self _)

theorem explores_climb (hbuilt : db.Built) {height : Nat} (hunmet : (db.unmet found).card < height)
    (mentions : List (TypeRef × Substitution)) :
    db.Explores mentions found (mentions.foldl (db.climb height) found) := by
  induction height generalizing found mentions with
  | zero => exact absurd hunmet (Nat.not_lt_zero _)
  | succ height ih =>
    induction mentions generalizing found with
    | nil => exact .nil
    | cons mention rest ihrest =>
      rw [List.foldl_cons, climb_succ]
      cases hentered : db.entered found mention with
      | none => exact .skip hentered (ihrest hunmet)
      | some p =>
        obtain ⟨ancestor, next⟩ := p
        have hless := card_unmet_enter hbuilt hentered
        have hnext : db.Explores next (found ++ [ancestor]) _ := ih (by omega) next
        -- what was met below the class is not met again in the rest
        have hmid := (hnext.explored hbuilt).card_unmet_le
        exact .enter hentered hnext (ihrest (hmid.trans_lt (hless.trans hunmet)))

/-- The search for the ancestors of a class ends whatever is declared. Of a class that is not
declared it finds none; of one that is declared it finds the class itself first, and all declared
classes that are reached from it through superclasses and includes, each of them once. -/
theorem ancestors_exact (hbuilt : db.Built) (name : String) :
    (∀ all, db.Explores [(⟨name, []⟩, [])] [] all ↔ all = db.ancestors name) ∧
    (¬ db.Declared name → db.ancestors name = []) ∧
    (db.Declared name →
      ((db.ancestors name).map Ancestor.name).head? = some name ∧
      ((db.ancestors name).map Ancestor.name).Nodup ∧
      ∀ other, other ∈ (db.ancestors name).map Ancestor.name ↔
        db.Declared other ∧ db.Reaches name other) := by
  have hexplores : db.Explores [(⟨name, []⟩, [])] [] (db.ancestors name) :=
    explores_climb hbuilt (Nat.lt_succ_of_le (db.card_unmet_le [])) _
  have hexplored := hexplores.explored hbuilt
  refine ⟨fun all ↦ ⟨hexplores.deterministic, fun h ↦ h ▸ hexplores⟩, fun hundeclared ↦ ?_,
    fun hdeclared ↦ ⟨?_, ?_, fun other ↦ ⟨?_, ?_⟩⟩⟩
  · have hnone : db.class? name = none :=
      Option.eq_none_iff_forall_ne_some.mpr fun decl hdecl ↦ hundeclared ⟨decl, hdecl⟩
    rw [ancestors, climb_succ, entered, hnone]
    rfl
  · cases hexplores with
    | skip hentered => exact absurd (entered_eq_none hbuilt hentered hdeclared) List.not_mem_nil
    | enter hentered hnext hrest =>
      obtain ⟨rest, hall⟩ := ((hnext.explored hbuilt).append (hrest.explored hbuilt)).grows
      rw [← hall]
      exact congrArg some (entered_eq_some hbuilt hentered).1
  · exact hexplored.nodup List.nodup_nil
  · intro hother
    rcases hexplored.sound other hother with hfound | ⟨hknown, s, hs, hreach⟩
    · exact absurd hfound List.not_mem_nil
    · obtain rfl := List.mem_singleton.mp hs
      exact ⟨hknown, hreach⟩
  · rintro ⟨hother, hreach⟩
    exact hexplored.complete (List.mem_singleton_self name) hreach hother

/-- `List` is its own superclass, `Each` and `Enumerable` include each other, and `Kernel` is
mentioned but not declared. -/
def tangled : Database :=
  let classes : List ClassDecl :=
    [{ name := "List", typeParams := ["T"], superclass := some ⟨"List", [.var "T"]⟩
       includes := [⟨"Kernel", []⟩, ⟨"Enumerable", [.var "T"]⟩] },
      { name := "Enumerable", typeParams := ["Elem"], includes := [⟨"Each", [.var "Elem"]⟩] },
      { name := "Each", typeParams := ["T"], superclass := some ⟨"List", []⟩
        includes := [⟨"Enumerable", [.var "T"]⟩] },
      { name := "Comparable" }]
  classes.foldl addClass {}

theorem ancestors_exact_tangled :
    tangled.Explores [(⟨"List", []⟩, [])] [] (tangled.ancestors "List") ∧
      (tangled.ancestors "List").map Ancestor.name = ["List", "Enumerable", "Each"] ∧
      tangled.Reaches "List" "Each" ∧ ¬ tangled.Reaches "List" "Comparable" ∧
      tangled.ancestors "Kernel" = [] := by
  have hbuilt : tangled.Built :=
    List.foldlRecOn (motive := Built) _ _ .empty fun _ h decl _ ↦ h.addClass decl
  have hlist : tangled.Declared "List" := Option.isSome_iff_exists.mp (by decide +kernel)
  have hcomparable : tangled.Declared "Comparable" :=
    Option.isSome_iff_exists.mp (by decide +kernel)
  have hkernel : ¬ tangled.Declared "Kernel" := by
    rintro ⟨decl, hdecl⟩
    have hnone : (tangled.class? "Kernel").isNone := by decide +kernel
    rw [hdecl] at hnone
    cases hnone
  have hnames : (tangled.ancestors "List").map Ancestor.name = ["List", "Enumerable", "Each"] := by
    decide +kernel
  obtain ⟨hreturns, -, hexact⟩ := ancestors_exact hbuilt "List"
  obtain ⟨-, -, hmem⟩ := hexact hlist
  rw [hnames] at hmem
  refine ⟨(hreturns _).mpr rfl, hnames, ((hmem "Each").mp (by decide)).2, fun hreach ↦ ?_,
    (ancestors_exact hbuilt "Kernel").2.1 hkernel⟩
  exact absurd ((hmem "Comparable").mpr ⟨hcomparable, hreach⟩) (by decide)

end Database

end FlowCompletion
