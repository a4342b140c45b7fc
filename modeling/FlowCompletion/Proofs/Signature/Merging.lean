import FlowCompletion.Proofs.Names
import FlowCompletion.Proofs.Signature.Loading
import FlowCompletion.Proofs.Signature.Substitution

namespace FlowCompletion

theorem Binary64.equal_trans {x y z : Binary64} (hxy : x.equal y) (hyz : y.equal z) :
    x.equal z := by
  cases x <;> cases y <;> try cases hxy
  all_goals cases z <;> try cases hyz
  case finite.finite.finite =>
    simp only [equal, Bool.and_eq_true, Bool.or_eq_true, beq_iff_eq] at hxy hyz ⊢
    grind
  case infinite.infinite.infinite =>
    simp only [equal, beq_iff_eq] at hxy hyz ⊢
    exact hxy.trans hyz

theorem Literal.equal_trans {x y z : Literal} (hxy : x.equal y) (hyz : y.equal z) :
    x.equal z := by
  cases x <;> cases y <;> try cases hxy
  all_goals cases z <;> try cases hyz
  case float.float.float => exact Binary64.equal_trans hxy hyz
  all_goals
    simp only [equal, beq_iff_eq] at hxy hyz ⊢
    exact hxy.trans hyz

namespace TypeExpr

theorem eq_or_literal_of_equal {a b : TypeExpr} (ha : a.isPlain) (h : a.equal b) :
    b = a ∨ ∃ x y, a = .literal x ∧ b = .literal y ∧ x.equal y := by
  cases a with
  | literal x =>
    cases b with
    | literal y => exact .inr ⟨x, y, rfl, rfl, h⟩
    | _ => cases h
  | classSingleton name | abbreviation name =>
    cases b <;> try cases h
    exact .inl (congrArg _ (beq_iff_eq.mp h).symm)
  | union | intersection | optional | tuple | record | var | classInstance | interface => cases ha
  | _ =>
    cases b <;> cases h
    exact .inl rfl

theorem equalAll_trans {as bs cs : List TypeExpr}
    (has : ∀ a ∈ as, ∀ b c, a.equal b → b.equal c → a.equal c)
    (hab : equalAll as bs) (hbc : equalAll bs cs) : equalAll as cs := by
  induction as generalizing bs cs with
  | nil =>
    cases bs with
    | nil => exact hbc
    | cons b bs => cases hab
  | cons a as ih =>
    obtain ⟨ha, has⟩ := List.forall_mem_cons.mp has
    cases bs <;> try cases hab
    cases cs <;> try cases hbc
    simp only [equalAll, Bool.and_eq_true] at hab hbc ⊢
    exact ⟨ha _ _ hab.1 hbc.1, ih has hab.2 hbc.2⟩

theorem equalFields_trans {as bs cs : List (String × TypeExpr)}
    (has : ∀ a ∈ as, ∀ b c, a.2.equal b → b.equal c → a.2.equal c)
    (hab : equalFields as bs) (hbc : equalFields bs cs) : equalFields as cs := by
  induction as generalizing bs cs with
  | nil =>
    cases bs with
    | nil => exact hbc
    | cons b bs => cases hab
  | cons a as ih =>
    obtain ⟨ha, has⟩ := List.forall_mem_cons.mp has
    cases bs <;> try cases hab
    cases cs <;> try cases hbc
    simp only [equalFields, Bool.and_eq_true, beq_iff_eq] at hab hbc ⊢
    exact ⟨⟨hab.1.1.trans hbc.1.1, ha _ _ hab.1.2 hbc.1.2⟩, ih has hab.2 hbc.2⟩

theorem equal_trans (a b c : TypeExpr) (hab : a.equal b) (hbc : b.equal c) : a.equal c := by
  induction a using induct generalizing b c with
  | plain a ha =>
    rcases eq_or_literal_of_equal ha hab with rfl | ⟨x, y, rfl, rfl, hxy⟩
    · exact hbc
    · cases c <;> try cases hbc
      exact Literal.equal_trans hxy hbc
  | var name =>
    cases b <;> try cases hab
    cases c <;> try cases hbc
    exact beq_iff_eq.mpr ((beq_iff_eq.mp hab).trans (beq_iff_eq.mp hbc))
  | optional inner ih =>
    cases b <;> try cases hab
    cases c <;> try cases hbc
    exact ih _ _ hab hbc
  | union types ih | intersection types ih | tuple types ih =>
    cases b <;> try cases hab
    cases c <;> try cases hbc
    exact equalAll_trans ih hab hbc
  | record fields ih =>
    cases b <;> try cases hab
    cases c <;> try cases hbc
    exact equalFields_trans ih hab hbc
  | classInstance name args ih | interface name args ih =>
    cases b <;> try cases hab
    cases c <;> try cases hbc
    simp only [equal, Bool.and_eq_true, beq_iff_eq] at hab hbc ⊢
    exact ⟨hab.1.trans hbc.1, equalAll_trans ih hab.2 hbc.2⟩

end TypeExpr

theorem TypeRef.equal_trans {a b c : TypeRef} (hab : a.equal b) (hbc : b.equal c) : a.equal c := by
  simp only [equal, Bool.and_eq_true, beq_iff_eq] at hab hbc ⊢
  exact ⟨hab.1.trans hbc.1, TypeExpr.equalAll_trans (fun e _ ↦ e.equal_trans) hab.2 hbc.2⟩

namespace ClassDecl

variable {includes others : List TypeRef} {r : TypeRef}

theorem addIncludes_singleton (includes : List TypeRef) (r : TypeRef) :
    addIncludes includes [r] =
      if includes.any fun known ↦ known.equal r then includes else includes ++ [r] := rfl

theorem addIncludes_cons (includes : List TypeRef) (r : TypeRef) (others : List TypeRef) :
    addIncludes includes (r :: others) = addIncludes (addIncludes includes [r]) others := rfl

theorem addIncludes_append (includes others more : List TypeRef) :
    addIncludes includes (others ++ more) = addIncludes (addIncludes includes others) more :=
  List.foldl_append

theorem any_equal_addIncludes
    (h : (includes.any fun known ↦ known.equal r) ∨ others.any fun known ↦ known.equal r) :
    (addIncludes includes others).any fun known ↦ known.equal r := by
  induction others generalizing includes with
  | nil => exact h.resolve_right Bool.false_ne_true
  | cons other others ih =>
    rw [addIncludes_cons]
    refine ih ?_
    rw [List.any_cons, Bool.or_eq_true, ← or_assoc] at h
    refine h.imp_left fun h ↦ ?_
    rw [addIncludes_singleton]
    split
    case isFalse => simpa [or_comm] using h
    case isTrue hknown =>
      rcases h with h | h
      · exact h
      · obtain ⟨known, hmem, heq⟩ := List.any_eq_true.mp hknown
        exact List.any_eq_true.mpr ⟨known, hmem, TypeRef.equal_trans heq h⟩

theorem addIncludes_assoc (includes others more : List TypeRef) :
    addIncludes (addIncludes includes others) more =
      addIncludes includes (addIncludes others more) := by
  induction more generalizing others with
  | nil => rfl
  | cons r more ih =>
    -- a reference that `others` has already is not new to both together either
    have hone : addIncludes (addIncludes includes others) [r] =
        addIncludes includes (addIncludes others [r]) := by
      rw [addIncludes_singleton others]
      split
      case isFalse => rw [addIncludes_append]
      case isTrue h => rw [addIncludes_singleton, if_pos (any_equal_addIncludes (.inr h))]
    rw [addIncludes_cons, addIncludes_cons others, hone, ih]

/-- The first type parameters and the first superclass count, of each mention of a module the first,
and of each method the last definition; so it does not matter which pieces meet first. -/
theorem merge_assoc {a b c : ClassDecl} (ha : a.Ordered) (hb : b.Ordered) (hc : c.Ordered) :
    (a.merge b).merge c = a.merge (b.merge c) := by
  have htypeParams (l m n : List String) :
      (if (if l.isEmpty then m else l).isEmpty then n else if l.isEmpty then m else l) =
        if l.isEmpty then (if m.isEmpty then n else m) else l := by
    cases l <;> rfl
  have hsuperclass (x y z : Option TypeRef) : ((x <|> y) <|> z) = (x <|> (y <|> z)) := by
    cases x <;> rfl
  rw [merge, merge, merge, merge, mk.injEq]
  exact ⟨rfl, htypeParams _ _ _, hsuperclass _ _ _, addIncludes_assoc _ _ _,
    Fields.extend_assoc ha.instanceMethods hb.instanceMethods hc.instanceMethods,
    Fields.extend_assoc ha.singletonMethods hb.singletonMethods hc.singletonMethods⟩

def mergeAll : Option ClassDecl → List ClassDecl → Option ClassDecl :=
  List.foldl fun known decl ↦ some (known.elim decl (·.merge decl))

end ClassDecl

def Document.concat (docs : List Document) : Document :=
  { classes := docs.flatMap classes, interfaces := docs.flatMap interfaces }

namespace Database

theorem foldl_addClass_foldl_addInterface (db : Database) (classes : List ClassDecl)
    (interfaces : List InterfaceDecl) :
    classes.foldl addClass (interfaces.foldl addInterface db) =
      interfaces.foldl addInterface (classes.foldl addClass db) := by
  apply List.foldl_hom (interfaces.foldl addInterface)
  intro db decl
  exact (List.foldl_hom (addClass · decl) fun _ _ ↦ rfl).symm

theorem extend_extend (db : Database) (doc next : Document) :
    (db.extend doc).extend next =
      db.extend ⟨doc.classes ++ next.classes, doc.interfaces ++ next.interfaces⟩ := by
  simp only [extend, List.foldl_append, foldl_addClass_foldl_addInterface]

theorem foldl_extend (db : Database) (docs : List Document) :
    docs.foldl extend db = db.extend (.concat docs) := by
  induction docs generalizing db with
  | nil => rfl
  | cons doc docs ih =>
    rw [List.foldl_cons, ih, extend_extend]
    rfl

theorem class?_extend (db : Database) (doc : Document) (name : String) :
    (db.extend doc).class? name =
      ClassDecl.mergeAll (db.class? name) (doc.classes.filter (·.name = name)) := by
  have hinterfaces (db : Database) (interfaces : List InterfaceDecl) :
      (interfaces.foldl addInterface db).class? name = db.class? name := by
    induction interfaces generalizing db with
    | nil => rfl
    | cons decl interfaces ih => exact ih (db.addInterface decl)
  rw [extend, hinterfaces]
  induction doc.classes generalizing db with
  | nil => rfl
  | cons decl classes ih =>
    rw [List.foldl_cons, ih, class?_addClass, List.filter_cons]
    by_cases hname : decl.name = name
    · simp [hname, ClassDecl.mergeAll]
    · simp [hname, Ne.symm hname]

theorem interface?_extend (db : Database) (doc : Document) (name : String) :
    (db.extend doc).interface? name =
      (doc.interfaces.filter (·.name = name)).getLast?.or (db.interface? name) := by
  have hclasses (db : Database) (classes : List ClassDecl) :
      (classes.foldl addClass db).interface? name = db.interface? name := by
    induction classes generalizing db with
    | nil => rfl
    | cons decl classes ih => exact ih (db.addClass decl)
  have hadd (db : Database) (decl : InterfaceDecl) :
      (db.addInterface decl).interface? name =
        if name = decl.name then some decl else db.interface? name :=
    Table.get?_insert _ _ _ _
  rw [extend, ← hclasses db doc.classes]
  generalize doc.classes.foldl addClass db = db
  induction doc.interfaces generalizing db with
  | nil => rfl
  | cons decl interfaces ih =>
    rw [List.foldl_cons, ih, hadd, List.filter_cons]
    by_cases hname : decl.name = name
    · simp [hname, List.getLast?_cons]
    · simp [hname, Ne.symm hname]

theorem readAll_eq (db : Database) (texts : List String) :
    db.readAll texts =
      (texts.mapM Document.read?).elim (.error (.invalid none "not a list of declarations"))
        fun docs ↦ .ok (docs.foldl extend db) := by
  induction texts generalizing db with
  | nil => rfl
  | cons text texts ih =>
    have hfirst : db.readAll (text :: texts) = (db.read none text).bind (·.readAll texts) := rfl
    rw [hfirst, read, List.mapM_cons]
    cases Document.read? text with
    | none => rfl
    | some doc =>
      refine (ih (db.extend doc)).trans ?_
      cases texts.mapM Document.read? <;> rfl

/-- Declarations may be divided at will. The pieces of a class can be put together in any grouping,
and documents read one after another make the database that one document with all their declarations
makes: of every class the pieces in their order, of every interface the last declaration. -/
theorem declarations_in_pieces :
    (∀ a b c : ClassDecl, a.Ordered → b.Ordered → c.Ordered →
        (a.merge b).merge c = a.merge (b.merge c)) ∧
      ∀ db : Database,
        (∀ docs : List Document, docs.foldl extend db = db.extend (.concat docs)) ∧
        (∀ (doc : Document) (name : String),
          (db.extend doc).class? name =
              ClassDecl.mergeAll (db.class? name) (doc.classes.filter (·.name = name)) ∧
            (db.extend doc).interface? name =
              (doc.interfaces.filter (·.name = name)).getLast?.or (db.interface? name)) ∧
        ∀ texts : List String, db.readAll texts =
          (texts.mapM Document.read?).elim (.error (.invalid none "not a list of declarations"))
            fun docs ↦ .ok (db.extend (.concat docs)) := by
  refine ⟨fun a b c ↦ ClassDecl.merge_assoc, fun db ↦ ⟨foldl_extend db,
    fun doc name ↦ ⟨class?_extend db doc name, interface?_extend db doc name⟩, fun texts ↦ ?_⟩⟩
  simp only [readAll_eq, foldl_extend]

def grid : ClassDecl :=
  { name := "Grid", includes := [⟨"Each", [.literal (.float (.zero false))]⟩]
    instanceMethods := [("each", ⟨[], .pub⟩)] }

def gridReopened : ClassDecl :=
  { name := "Grid", typeParams := ["T"], superclass := some ⟨"Object", []⟩
    includes := [⟨"Each", [.literal (.float (.zero true))]⟩, ⟨"Sized", []⟩, ⟨"Sized", []⟩]
    instanceMethods := [("each", ⟨[], .priv⟩), ("size", ⟨[], .pub⟩)] }

def gridCompleted : ClassDecl :=
  { name := "Grid", typeParams := ["U"], superclass := some ⟨"BasicObject", []⟩
    includes := [⟨"Sized", []⟩, ⟨"Comparable", []⟩]
    instanceMethods := [("size", ⟨[], .prot⟩)] }

theorem declarations_in_pieces_grid :
    (grid.Ordered ∧ gridReopened.Ordered ∧ gridCompleted.Ordered) ∧
      (grid.merge gridReopened).merge gridCompleted =
        grid.merge (gridReopened.merge gridCompleted) ∧
      ((grid.merge gridReopened).merge gridCompleted).includes.map (·.name) =
        ["Each", "Sized", "Comparable"] ∧
      ((grid.merge gridReopened).merge gridCompleted).instanceMethods.map
          (fun method ↦ (method.1, method.2.visibility)) = [("each", .priv), ("size", .prot)] ∧
      [{ classes := [grid] }, { classes := [gridReopened, gridCompleted] }].foldl extend {} =
        ({} : Database).extend { classes := [grid, gridReopened, gridCompleted] } := by
  have hordered : grid.Ordered ∧ gridReopened.Ordered ∧ gridCompleted.Ordered := by decide +kernel
  obtain ⟨hmerge, hdatabase⟩ := declarations_in_pieces
  exact ⟨hordered, hmerge _ _ _ hordered.1 hordered.2.1 hordered.2.2, by decide +kernel,
    by decide +kernel, (hdatabase {}).1 _⟩

end Database

end FlowCompletion
