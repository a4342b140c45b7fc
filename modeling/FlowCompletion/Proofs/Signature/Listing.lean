import FlowCompletion.Proofs.Signature.Loading

namespace FlowCompletion

namespace Database

variable {db : Database}

theorem class?_of_mem_climbSuperclasses (height : Nat) {found : List ClassDecl} {name : String}
    {decl : ClassDecl} (h : decl ∈ db.climbSuperclasses height found name) :
    decl ∈ found ∨ ∃ declared, db.class? declared = some decl := by
  induction height generalizing found name with
  | zero => exact .inl h
  | succ height ih =>
    rw [climbSuperclasses] at h
    split at h
    case h_1 => exact .inl h
    case h_2 next hnext =>
      split at h
      case isTrue => exact .inl h
      case isFalse =>
        have hadded (h : decl ∈ found ++ [next]) :
            decl ∈ found ∨ ∃ declared, db.class? declared = some decl := by
          rcases List.mem_append.mp h with h | h
          · exact .inl h
          · exact .inr ⟨name, List.mem_singleton.mp h ▸ hnext⟩
        split at h
        case h_1 => exact hadded h
        case h_2 => exact (ih h).elim hadded .inr

theorem Ordered.of_mem_methodTables (h : db.Ordered) {name : String} {singleton : Bool}
    {table : Substitution × Fields MethodDef} (htable : table ∈ db.methodTables name singleton) :
    table.2.Ordered := by
  cases singleton with
  | true =>
    obtain ⟨decl, hdecl, rfl⟩ := List.mem_map.mp htable
    obtain hnil | ⟨declared, hdeclared⟩ := class?_of_mem_climbSuperclasses _ hdecl
    · cases hnil
    · exact (h declared decl hdeclared).singletonMethods
  | false =>
    obtain ⟨a, -, htable⟩ := List.mem_filterMap.mp htable
    obtain ⟨decl, hdecl, rfl⟩ := Option.map_eq_some_iff.mp htable
    exact (h a.name decl hdecl).instanceMethods

theorem ordered_methods (db : Database) (name : String) (singleton : Bool) :
    (db.methods name singleton).Ordered :=
  List.foldrRecOn (motive := Fields.Ordered) _ _ Fields.ordered_nil fun _ h _ _ ↦ h.extend _

theorem get?_written_over {tables : List (Substitution × Fields MethodDef)}
    (h : ∀ table ∈ tables, table.2.Ordered) (method : String) :
    Fields.get? (tables.foldr (fun table others ↦
        Fields.extend others (table.2.map fun field ↦ (field.1, field.2.visibility))) []) method =
      (tables.findSome? fun table ↦
        (Fields.get? table.2 method).map (MethodDef.substitute table.1)).map (·.visibility) := by
  induction tables with
  | nil => rfl
  | cons table rest ih =>
    obtain ⟨htable, hrest⟩ := List.forall_mem_cons.mp h
    have hvisible : Fields.Ordered (table.2.map fun field ↦ (field.1, field.2.visibility)) := by
      rwa [Fields.Ordered, Fields.names, List.map_map]
    rw [List.foldr_cons, Fields.get?_extend _ hvisible, Fields.get?_map, ih hrest,
      List.findSome?_cons]
    cases Fields.get? table.2 method <;> rfl

theorem Ordered.get?_methods (h : db.Ordered) (name method : String) (singleton : Bool) :
    Fields.get? (db.methods name singleton) method =
      (db.lookup name method singleton).map (·.visibility) :=
  get?_written_over (fun _ ↦ h.of_mem_methodTables) method

theorem Ordered.mem_methods (h : db.Ordered) {name method : String} {singleton : Bool}
    {v : Visibility} : (method, v) ∈ db.methods name singleton ↔
      ∃ d, db.lookup name method singleton = some d ∧ d.visibility = v := by
  rw [Fields.mem_iff_get? (db.ordered_methods name singleton), h.get?_methods,
    Option.map_eq_some_iff]

/-- The methods listed for a class are those found by looking them up, each with the visibility of
the definition found, and the names strictly increase. -/
theorem listed_iff_found (h : db.Ordered) (name : String) (singleton : Bool) :
    (∀ method v, (method, v) ∈ db.methods name singleton ↔
      ∃ d, db.lookup name method singleton = some d ∧ d.visibility = v) ∧
      ((db.methods name singleton).map Prod.fst).Pairwise (· < ·) :=
  ⟨fun _ _ ↦ h.mem_methods, db.ordered_methods name singleton⟩

def circular : Database :=
  let base : ClassDecl :=
    { name := "Base", superclass := some ⟨"Sub", []⟩, includes := [⟨"Missing", []⟩]
      instanceMethods := [("size", ⟨[], .prot⟩), ("tally", ⟨[], .pub⟩)]
      singletonMethods := [("build", ⟨[], .priv⟩)] }
  let sub : ClassDecl :=
    { name := "Sub", superclass := some ⟨"Base", []⟩, includes := [⟨"Sub", []⟩]
      instanceMethods := [("tally", ⟨[], .priv⟩)]
      singletonMethods := [("make", ⟨[], .pub⟩)] }
  ({} : Database).extend { classes := [base, sub] }

theorem listed_iff_found_circular :
    circular.Ordered ∧ circular.methods "Sub" false = [("size", .prot), ("tally", .priv)] ∧
      circular.methods "Sub" true = [("build", .priv), ("make", .pub)] ∧
      ∀ singleton, (∀ method v, (method, v) ∈ circular.methods "Sub" singleton ↔
        ∃ d, circular.lookup "Sub" method singleton = some d ∧ d.visibility = v) ∧
        ((circular.methods "Sub" singleton).map Prod.fst).Pairwise (· < ·) := by
  have hordered : circular.Ordered := ordered_empty.extend (by decide)
  exact ⟨hordered, by decide +kernel, by decide +kernel, listed_iff_found hordered "Sub"⟩

end Database

end FlowCompletion
