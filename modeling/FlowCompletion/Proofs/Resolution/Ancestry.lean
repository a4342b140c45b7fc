import FlowCompletion.Proofs.Live.Ancestry
import FlowCompletion.Proofs.Signature.Ancestors
import Mathlib.Data.List.Forall2

namespace FlowCompletion

namespace Database

variable {db : Database} {w : World} {ms : Set ModuleId} {m : ModuleId}

/-- Every module is declared by its name, with the includes in their order and the superclass that
it has. -/
def Declares (db : Database) (w : World) (ms : Set ModuleId) : Prop :=
  ∀ m ∈ ms, ∃ name ∈ (w.module m).name, ∃ decl ∈ db.class? name,
    decl.includes.map (fun ref ↦ some ref.name) =
        (w.module m).includes.map (fun a ↦ (w.module a).name) ∧
      decl.superclass.map (fun ref ↦ some ref.name) =
        (w.superclass? m).map (fun a ↦ (w.module a).name)

def StandsFor (w : World) (ms : Set ModuleId) (m : ModuleId) (name : String) : Prop :=
  m ∈ ms ∧ (w.module m).name = some name

theorem Declares.exists_decl (h : db.Declares w ms) (hw : w.Hierarchy ms) {name : String}
    (hm : StandsFor w ms m name) : ∃ decl, db.class? name = some decl ∧
      List.Forall₂ (fun a (ref : TypeRef) ↦ StandsFor w ms a ref.name) (w.supers m)
        decl.supertypes := by
  obtain ⟨own, hown, decl, hdecl, hincludes, hsuperclass⟩ := h m hm.1
  obtain rfl := Option.some.inj (hm.2.symm.trans hown)
  have hnames : (w.supers m).map (fun a ↦ (w.module a).name) =
      decl.supertypes.map (fun ref ↦ some ref.name) := by
    rw [World.supers, ClassDecl.supertypes, List.map_append, List.map_append, List.map_reverse,
      List.map_reverse, hincludes, ← Option.toList_map, ← Option.toList_map, hsuperclass]
  rw [← List.forall₂_eq_eq_eq, List.forall₂_map_left_iff, List.forall₂_map_right_iff] at hnames
  exact ⟨decl, hdecl, (List.forall₂_and_left _ _).mpr ⟨hw.closed m hm.1, hnames⟩⟩

def Follows (w : World) (ms : Set ModuleId) : List ModuleId → List Ancestor → Prop :=
  List.Forall₂ fun m a ↦ StandsFor w ms m a.name

theorem Follows.mem_iff (hnames : Set.InjOn (fun m ↦ (w.module m).name) ms)
    {met : List ModuleId} {found : List Ancestor} (h : Follows w ms met found) {name : String}
    (hm : StandsFor w ms m name) : m ∈ met ↔ ∃ a ∈ found, a.name = name := by
  induction h with
  | nil => simp
  | @cons s a met found hs _ ih =>
    have hfirst : m = s ↔ a.name = name := by
      constructor
      · rintro rfl
        exact Option.some.inj (hs.2.symm.trans hm.2)
      · rintro rfl
        exact hnames hm.1 hs.1 (hm.2.trans hs.2.symm)
    simp [hfirst, ih]

theorem Follows.names_eq {met : List ModuleId} {found : List Ancestor}
    (h : Follows w ms met found) :
    found.map (fun a ↦ some a.name) = met.map fun m ↦ (w.module m).name := by
  have hnames := ((List.forall₂_and_left _ _).mp h).2
  rw [eq_comm, ← List.forall₂_eq_eq_eq, List.forall₂_map_left_iff, List.forall₂_map_right_iff]
  exact hnames

theorem follows_climb (hbuilt : db.Built) (hw : w.Hierarchy ms)
    (hnames : Set.InjOn (fun m ↦ (w.module m).name) ms) (h : db.Declares w ms) (height : Nat)
    {met : List ModuleId} {found : List Ancestor} (hfound : Follows w ms met found)
    {mention : TypeRef × Substitution} (hm : StandsFor w ms m mention.1.name) :
    Follows w ms (w.search height met m) (db.climb height found mention) := by
  induction height generalizing m met found mention with
  | zero => exact hfound
  | succ height ih =>
    obtain ⟨ref, outer⟩ := mention
    obtain ⟨decl, hdecl, hsupers⟩ := h.exists_decl hw hm
    have hname : decl.name = ref.name := hbuilt.name_eq hdecl
    have hmet : m ∈ met ↔ found.any (·.name = decl.name) = true := by
      rw [hfound.mem_iff hnames hm, hname]
      simp
    rw [World.search, climb, hdecl]
    simp only [hmet]
    split
    case isTrue => exact hfound
    case isFalse =>
      refine List.rel_foldl (P := Follows w ms)
        (R := fun a mention ↦ StandsFor w ms a mention.1.name)
        (fun _ _ hfound _ _ hm ↦ ih hfound hm) ?_ ?_
      · exact List.rel_append hfound (.cons ⟨hm.1, hname ▸ hm.2⟩ .nil)
      · exact List.forall₂_map_right_iff.mpr hsupers

theorem Declares.card_above_le (h : db.Declares w ms) (hw : w.Hierarchy ms)
    (hnames : Set.InjOn (fun m ↦ (w.module m).name) ms) (hm : m ∈ ms) :
    (w.above m).card ≤ db.classCount := by
  have hms : ∀ a ∈ w.above m, a ∈ ms := fun a ha ↦
    hw.mem_of_reaches hm ((hw.mem_above hm).mp ha)
  calc (w.above m).card
      ≤ (db.classes.map fun entry ↦ some entry.1).toFinset.card := by
        refine Finset.card_le_card_of_injOn (fun a ↦ (w.module a).name) (fun a ha ↦ ?_)
          (hnames.mono hms)
        obtain ⟨name, hname, decl, hdecl, -⟩ := h a (hms a ha)
        have hmem := Table.mem_of_get? hdecl
        exact List.mem_toFinset.mpr (List.mem_map.mpr ⟨_, hmem, hname.symm⟩)
    _ ≤ (db.classes.map fun entry ↦ some entry.1).length := List.toFinset_card_le _
    _ = db.classCount := List.length_map _

/-- The declared ancestors of a module that is declared with all that is above it are its live
ancestors, in the same order. -/
theorem ancestors_as_live (hbuilt : db.Built) (hw : w.Hierarchy ms)
    (hnames : Set.InjOn (fun m ↦ (w.module m).name) ms) (h : db.Declares w ms) (hm : m ∈ ms)
    {name : String} (hname : (w.module m).name = some name) :
    (db.ancestors name).map (fun a ↦ some a.name) =
      (w.ancestors m).map fun a ↦ (w.module a).name := by
  have hheight : (w.above m).card ≤ db.classCount + 1 :=
    Nat.le_succ_of_le (h.card_above_le hw hnames hm)
  have hfollows : Follows w ms (w.search (db.classCount + 1) [] m) (db.ancestors name) :=
    follows_climb hbuilt hw hnames h _ .nil ⟨hm, hname⟩
  rw [hw.ancestors_eq_search hm hheight]
  exact hfollows.names_eq

def diamond : World :=
  { modules := #[{ name := some "Kernel" }, { name := some "Comparable", includes := [⟨0⟩] },
      { name := some "Enumerable", includes := [⟨0⟩] },
      { name := some "Base", kind := .cls none, includes := [⟨2⟩] },
      { name := some "List", kind := .cls (some ⟨3⟩), includes := [⟨1⟩, ⟨2⟩] }] }

def diamondDeclared : Database :=
  let classes : List ClassDecl :=
    [{ name := "List", typeParams := ["T"], superclass := some ⟨"Base", []⟩
       includes := [⟨"Comparable", []⟩, ⟨"Enumerable", [.var "T"]⟩] },
      { name := "Base", includes := [⟨"Enumerable", []⟩] },
      { name := "Enumerable", typeParams := ["Elem"], includes := [⟨"Kernel", []⟩] },
      { name := "Comparable", includes := [⟨"Kernel", []⟩] }, { name := "Kernel" }]
  classes.foldl addClass {}

theorem ancestors_as_live_diamond :
    (diamondDeclared.ancestors "List").map (·.name) =
        ["List", "Enumerable", "Kernel", "Comparable", "Base"] ∧
      (diamondDeclared.ancestors "List").map (fun a ↦ some a.name) =
        (diamond.ancestors ⟨4⟩).map fun a ↦ (diamond.module a).name := by
  let ms : Set ModuleId := {m | m.index < 5}
  have hbuilt : diamondDeclared.Built :=
    List.foldlRecOn (motive := Built) _ _ .empty fun _ h decl _ ↦ h.addClass decl
  have hw : diamond.Hierarchy ms := by
    have holder : ∀ i < 5, ∀ a ∈ diamond.supers ⟨i⟩, a.index < i := by decide +kernel
    refine World.hierarchy_of_older (fun m hm ↦ hm) fun m hm a ha ↦ ?_
    have hlt := holder m.index hm a ha
    exact ⟨hlt.trans hm, hlt⟩
  have hnames : Set.InjOn (fun m ↦ (diamond.module m).name) ms := by
    have hdistinct : ∀ i < 5, ∀ j < 5,
        (diamond.module ⟨i⟩).name = (diamond.module ⟨j⟩).name → i = j := by decide +kernel
    intro a ha b hb hab
    exact congrArg ModuleId.mk (hdistinct a.index ha b.index hb hab)
  have hdeclares : diamondDeclared.Declares diamond ms := by
    have hall : ∀ i < 5, ∃ name ∈ (diamond.module ⟨i⟩).name,
        ∃ decl ∈ diamondDeclared.class? name,
          decl.includes.map (fun ref ↦ some ref.name) =
              (diamond.module ⟨i⟩).includes.map (fun a ↦ (diamond.module a).name) ∧
            decl.superclass.map (fun ref ↦ some ref.name) =
              (diamond.superclass? ⟨i⟩).map (fun a ↦ (diamond.module a).name) := by
      decide +kernel
    exact fun m hm ↦ hall m.index hm
  exact ⟨by decide +kernel, ancestors_as_live hbuilt hw hnames hdeclares (by decide) rfl⟩

end Database

end FlowCompletion
