import FlowCompletion.Names
import FlowCompletion.Proofs.Table
import Mathlib.Data.String.Basic

namespace FlowCompletion

@[simp]
theorem mem_insertName {a name : String} {names : List String} :
    a ∈ insertName name names ↔ a = name ∨ a ∈ names := by
  induction names with
  | nil => rw [insertName, List.mem_singleton, or_iff_left List.not_mem_nil]
  | cons other rest ih =>
    rw [insertName]
    split
    case isTrue => exact List.mem_cons
    case isFalse =>
      split
      case isTrue h => rw [h, List.mem_cons, or_self_left]
      case isFalse => rw [List.mem_cons, List.mem_cons, ih, or_left_comm]

@[simp]
theorem mem_sortedNames {a : String} {names : List String} : a ∈ sortedNames names ↔ a ∈ names := by
  induction names with
  | nil => rfl
  | cons name names ih => rw [sortedNames, List.foldr_cons, ← sortedNames, mem_insertName, ih,
      List.mem_cons]

theorem pairwise_insertName {names : List String} (h : names.Pairwise (· < ·)) (name : String) :
    (insertName name names).Pairwise (· < ·) := by
  induction names with
  | nil => exact List.pairwise_singleton _ name
  | cons other rest ih =>
    obtain ⟨hfirst, hrest⟩ := List.pairwise_cons.mp h
    rw [insertName]
    split
    case isTrue hlt =>
      refine List.pairwise_cons.mpr ⟨fun a ha ↦ ?_, h⟩
      rcases List.mem_cons.mp ha with rfl | ha
      · exact hlt
      · exact lt_trans hlt (hfirst a ha)
    case isFalse hge =>
      split
      case isTrue => exact h
      case isFalse hne =>
        refine List.pairwise_cons.mpr ⟨fun a ha ↦ ?_, ih hrest⟩
        rcases mem_insertName.mp ha with rfl | ha
        · exact lt_of_le_of_ne (not_lt.mp hge) (Ne.symm hne)
        · exact hfirst a ha

theorem pairwise_sortedNames (names : List String) : (sortedNames names).Pairwise (· < ·) := by
  induction names with
  | nil => exact List.Pairwise.nil
  | cons name names ih => exact pairwise_insertName ih name

theorem sortedNames_congr {names other : List String} (h : ∀ a, a ∈ names ↔ a ∈ other) :
    sortedNames names = sortedNames other := by
  have hperm : (sortedNames names).Perm (sortedNames other) := by
    apply (List.perm_ext_iff_of_nodup (pairwise_sortedNames names).nodup
      (pairwise_sortedNames other).nodup).mpr
    intro a
    rw [mem_sortedNames, mem_sortedNames, h]
  apply hperm.eq_of_pairwise _ (pairwise_sortedNames names) (pairwise_sortedNames other)
  intro a b _ _ hlt hgt
  exact absurd hlt (lt_asymm hgt)

namespace Fields

variable {α β : Type} {fields other : Fields α}

def names (fields : Fields α) : List String := fields.map Prod.fst

/-- Fields as they are kept: the names strictly increase. -/
def Ordered (fields : Fields α) : Prop := fields.names.Pairwise (· < ·)

instance (fields : Fields α) : Decidable fields.Ordered :=
  inferInstanceAs (Decidable (fields.names.Pairwise (· < ·)))

theorem ordered_nil : Ordered ([] : Fields α) := List.Pairwise.nil

theorem names_cons (field : String × α) (fields : Fields α) :
    names (field :: fields) = field.1 :: fields.names := rfl

theorem get?_cons (field : String × α) (fields : Fields α) (name : String) :
    get? (field :: fields) name = if name = field.1 then some field.2 else get? fields name :=
  Table.get?_cons fields field.1 name field.2

theorem get?_map (f : α → β) (fields : Fields α) (name : String) :
    get? (fields.map fun field ↦ (field.1, f field.2)) name = (get? fields name).map f :=
  Table.get?_map f fields name

theorem names_insert (fields : Fields α) (name : String) (value : α) :
    (insert name value fields).names = insertName name fields.names := by
  induction fields with
  | nil => rfl
  | cons field rest ih =>
    rw [insert, names_cons, insertName]
    split
    case isTrue => rfl
    case isFalse =>
      split
      case isTrue h => exact congrArg (· :: names rest) h
      case isFalse => exact congrArg (field.1 :: ·) ih

theorem get?_insert (fields : Fields α) (name other : String) (value : α) :
    get? (insert name value fields) other =
      if other = name then some value else get? fields other := by
  induction fields with
  | nil => exact get?_cons (name, value) [] other
  | cons field rest ih =>
    rw [insert]
    split
    case isTrue => rw [get?_cons]
    case isFalse =>
      split
      case isTrue h =>
        rw [get?_cons, get?_cons, ← h]
        split <;> rfl
      case isFalse h =>
        rw [get?_cons, get?_cons, ih]
        split
        case isTrue hother => rw [if_neg (hother ▸ Ne.symm h)]
        case isFalse => rfl

theorem Ordered.insert (h : fields.Ordered) (name : String) (value : α) :
    (insert name value fields).Ordered := by
  rw [Ordered, names_insert]
  exact pairwise_insertName h name

theorem Ordered.extend (h : fields.Ordered) (other : Fields α) : (extend fields other).Ordered := by
  induction other generalizing fields with
  | nil => exact h
  | cons field rest ih => exact ih (h.insert field.1 field.2)

theorem ordered_ofList (entries : List (String × α)) : (ofList entries).Ordered :=
  ordered_nil.extend entries

theorem mem_iff_get? (h : fields.Ordered) {name : String} {value : α} :
    (name, value) ∈ fields ↔ get? fields name = some value := by
  refine ⟨fun hmem ↦ ?_, Table.mem_of_get?⟩
  induction fields with
  | nil => cases hmem
  | cons field rest ih =>
    obtain ⟨hfirst, hrest⟩ := List.pairwise_cons.mp h
    rw [get?_cons]
    rcases List.mem_cons.mp hmem with rfl | hmem
    · exact if_pos rfl
    · have hlt := hfirst name (List.mem_map.mpr ⟨_, hmem, rfl⟩)
      rw [if_neg (ne_of_gt hlt), ih hrest hmem]

theorem get?_extend (fields : Fields α) (h : other.Ordered) (name : String) :
    get? (extend fields other) name = (get? other name).or (get? fields name) := by
  induction other generalizing fields with
  | nil => rfl
  | cons field rest ih =>
    obtain ⟨hfirst, hrest⟩ := List.pairwise_cons.mp h
    rw [extend, List.foldl_cons, ← extend, ih _ hrest, get?_insert, get?_cons]
    split
    case isFalse => rfl
    case isTrue hname =>
      have hnone : get? rest name = none :=
        Table.get?_eq_none_of_not_mem_keys fun hmem ↦ lt_irrefl _ (hname ▸ hfirst name hmem)
      rw [hnone]
      rfl

theorem insert_of_forall_lt {name : String} (h : ∀ a ∈ fields.names, a < name) (value : α) :
    insert name value fields = fields ++ [(name, value)] := by
  induction fields with
  | nil => rfl
  | cons field rest ih =>
    obtain ⟨hfirst, hrest⟩ := List.forall_mem_cons.mp h
    rw [insert, if_neg (lt_asymm hfirst), if_neg (ne_of_gt hfirst), ih hrest, List.cons_append]

theorem extend_of_ordered (h : Ordered (fields ++ other)) :
    extend fields other = fields ++ other := by
  induction other generalizing fields with
  | nil => exact (List.append_nil fields).symm
  | cons field rest ih =>
    have hlast : ∀ a ∈ fields.names, a < field.1 := by
      rw [Ordered, names, List.map_append] at h
      intro a ha
      exact (List.pairwise_append.mp h).2.2 a ha field.1 List.mem_cons_self
    rw [List.append_cons] at h
    calc extend fields (field :: rest)
        = extend (fields ++ [field]) rest :=
          congrArg (extend · rest) (insert_of_forall_lt hlast field.2)
      _ = fields ++ field :: rest := by rw [ih h, ← List.append_cons]

theorem ofList_of_ordered (h : fields.Ordered) : ofList fields = fields :=
  extend_of_ordered h

theorem eq_of_get?_eq (h : fields.Ordered) (hother : other.Ordered)
    (heq : ∀ name, get? fields name = get? other name) : fields = other := by
  have hpairs {fields : Fields α} (h : fields.Ordered) :
      fields.Pairwise fun field next ↦ field.1 < next.1 := List.pairwise_map.mp h
  have hnodup {fields : Fields α} (h : fields.Ordered) : fields.Nodup :=
    (hpairs h).imp fun hlt heq ↦ absurd (congrArg Prod.fst heq) (ne_of_lt hlt)
  have hperm : fields.Perm other := by
    refine (List.perm_ext_iff_of_nodup (hnodup h) (hnodup hother)).mpr fun field ↦ ?_
    rw [mem_iff_get? h, heq, ← mem_iff_get? hother]
  refine hperm.eq_of_pairwise (fun field next _ _ hlt hgt ↦ ?_) (hpairs h) (hpairs hother)
  exact absurd hlt (lt_asymm hgt)

theorem extend_assoc (h : fields.Ordered) (hother : other.Ordered) {more : Fields α}
    (hmore : more.Ordered) :
    extend (extend fields other) more = extend fields (extend other more) := by
  refine eq_of_get?_eq ((h.extend other).extend more) (h.extend _) fun name ↦ ?_
  rw [get?_extend _ hmore, get?_extend _ hother, get?_extend _ (hother.extend more),
    get?_extend _ hmore, Option.or_assoc]

end Fields

end FlowCompletion
