import FlowCompletion.Live.Methods
import FlowCompletion.Proofs.Names

namespace FlowCompletion

variable {α : Type} {tables : List (Table String α)} {name : String}

theorem firstDefinition_cons (table : Table String α) (tables : List (Table String α))
    (name : String) :
    firstDefinition (table :: tables) name =
      (Table.get? table name).or (firstDefinition tables name) := by
  rw [firstDefinition, List.findSome?_cons]
  cases Table.get? table name <;> rfl

theorem isSome_firstDefinition_append {others : List (Table String α)} :
    (firstDefinition (tables ++ others) name).isSome ↔
      (firstDefinition tables name).isSome ∨ (firstDefinition others name).isSome := by
  rw [firstDefinition, List.findSome?_append, Option.isSome_or, Bool.or_eq_true]
  rfl

theorem isSome_firstDefinition_flatMap {β : Type} {items : List β}
    {f : β → List (Table String α)} :
    (firstDefinition (items.flatMap f) name).isSome ↔
      ∃ item ∈ items, (firstDefinition (f item) name).isSome := by
  simp only [firstDefinition, List.findSome?_isSome_iff, List.mem_flatMap]
  grind

theorem firstDefinition_eq_get?_flatten (tables : List (Table String α)) (name : String) :
    firstDefinition tables name = Table.get? tables.flatten name := by
  induction tables with
  | nil => rfl
  | cons table tables ih => rw [List.flatten_cons, Table.get?_append, ← ih, firstDefinition_cons]

namespace Listing

variable {keep : α → Bool} {l : Listing} {entry : String × α} {entries : List (String × α)}

theorem mem_met_meet : name ∈ (l.meet keep entry).met ↔ name = entry.1 ∨ name ∈ l.met := by
  rw [meet]
  split
  case isTrue h => exact (or_iff_right_of_imp fun heq ↦ heq ▸ h).symm
  case isFalse => exact List.mem_cons

theorem mem_listed_meet :
    name ∈ (l.meet keep entry).listed ↔
      name ∈ l.listed ∨ name ∉ l.met ∧ name = entry.1 ∧ keep entry.2 := by
  rw [meet]
  split
  case isTrue h =>
    refine (or_iff_left ?_).symm
    intro hnew
    exact hnew.1 (hnew.2.1 ▸ h)
  case isFalse h =>
    by_cases hname : name = entry.1
    · cases hkeep : keep entry.2 <;> simp [hname, h]
    · cases hkeep : keep entry.2 <;> simp [hname]

/-- A walk lists, beside what was listed before, the names not met before whose first definition on
the way is kept. -/
theorem mem_listed_foldl :
    name ∈ (entries.foldl (meet keep) l).listed ↔
      name ∈ l.listed ∨ name ∉ l.met ∧ ∃ a, Table.get? entries name = some a ∧ keep a := by
  induction entries generalizing l with
  | nil => simp [Table.get?]
  | cons entry entries ih =>
    obtain ⟨first, value⟩ := entry
    rw [List.foldl_cons, ih, mem_listed_meet, mem_met_meet, Table.get?_cons, or_assoc]
    by_cases hname : name = first
    · simp [hname]
    · simp [hname]

end Listing

theorem mem_namesWhere {keep : α → Bool} :
    name ∈ namesWhere tables keep ↔ ∃ a, firstDefinition tables name = some a ∧ keep a := by
  rw [namesWhere, mem_sortedNames, ← List.foldl_flatten, Listing.mem_listed_foldl,
    firstDefinition_eq_get?_flatten]
  simp

theorem not_mem_namesWhere {keep : α → Bool}
    (h : ∀ table ∈ tables, Table.get? table name = none) : name ∉ namesWhere tables keep := by
  intro hmem
  obtain ⟨a, ha, -⟩ := mem_namesWhere.mp hmem
  rw [firstDefinition, List.findSome?_eq_none_iff.mpr h] at ha
  cases ha

theorem mem_namesWhere_or {keep : α → Bool} :
    name ∈ namesWhere tables (fun a ↦ !keep a) ∨ name ∈ namesWhere tables keep ↔
      (firstDefinition tables name).isSome := by
  rw [mem_namesWhere, mem_namesWhere]
  cases firstDefinition tables name with
  | none => simp
  | some a => cases hkeep : keep a <;> simp [hkeep]

theorem Visibility.isPrivate_iff {v : Visibility} : v.isPrivate = true ↔ v = .priv := by
  cases v <;> decide

theorem Visibility.not_isPrivate_iff {v : Visibility} : (!v.isPrivate) = true ↔ v ≠ .priv := by
  cases v <;> decide

theorem World.mem_methods_or {w : World} {o : Obj} :
    name ∈ w.methods o ∨ name ∈ w.privateMethods o ↔
      (firstDefinition (w.ownSingletonTables o) name).isSome ∨
        (firstDefinition (w.methodTables (w.classOf o)) name).isSome := by
  simp only [methods, privateMethods, mem_sortedNames, List.mem_append]
  rw [or_or_or_comm]
  exact or_congr mem_namesWhere_or mem_namesWhere_or

end FlowCompletion
