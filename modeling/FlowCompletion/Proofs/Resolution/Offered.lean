import FlowCompletion.Proofs.Live.Methods
import FlowCompletion.Proofs.Signature.Listing
import FlowCompletion.Resolution.Lookup
import FlowCompletion.Ty.Methods

namespace FlowCompletion

namespace Resolver

variable {r : Resolver} {m cls : ModuleId} {name : String} {singleton inside : Bool}

def ancestorNames (r : Resolver) (m : ModuleId) : List String :=
  (r.world.ancestors m).filterMap fun a ↦ (r.world.module a).name

def owners (r : Resolver) (m : ModuleId) (singleton : Bool) : List String :=
  if singleton then (r.ancestorNames m).take 1 else r.ancestorNames m

def declared (r : Resolver) (owners : List String) (name : String) (singleton : Bool) :
    List MethodDef :=
  r.database.toList.flatMap fun db ↦ owners.filterMap fun owner ↦ db.lookup owner name singleton

theorem mem_declared {owners : List String} {d : MethodDef} :
    d ∈ r.declared owners name singleton ↔
      ∃ db ∈ r.database, ∃ owner ∈ owners, db.lookup owner name singleton = some d := by
  simp [declared]

theorem head?_declared {db : Database} (hdb : r.database = some db) (owners : List String)
    (name : String) (singleton : Bool) : (r.declared owners name singleton).head? =
      owners.findSome? fun owner ↦ db.lookup owner name singleton := by
  rw [declared, hdb, Option.toList_some, List.flatMap_singleton, List.head?_filterMap]

theorem findMethod_eq_head? (r : Resolver) (cls : ModuleId) (name : String) :
    r.findMethod cls name false = (r.declared (r.ancestorNames cls) name false).head? := by
  cases hdb : r.database with
  | none => simp [findMethod, declared, hdb]
  | some db =>
    rw [head?_declared hdb, findMethod, hdb]
    rfl

theorem mem_declaredNames (hdb : ∀ db ∈ r.database, db.Ordered) :
    name ∈ declaredNames r.world r.database m singleton inside ↔
      ∃ d ∈ r.declared (r.owners m singleton) name singleton,
        inside = true ∨ d.visibility ≠ .priv := by
  simp only [mem_declared, declaredNames]
  cases hdatabase : r.database with
  | none => simp
  | some db =>
    have hordered := hdb db hdatabase
    constructor
    · intro h
      obtain ⟨⟨method, v⟩, hmem, hkept⟩ := List.mem_filterMap.mp h
      obtain ⟨owner, howner, hmem⟩ := List.mem_flatMap.mp hmem
      obtain ⟨hopen, hname⟩ := Option.ite_none_right_eq_some.mp hkept
      obtain rfl := Option.some.inj hname
      obtain ⟨d, hd, rfl⟩ := hordered.mem_methods.mp hmem
      rw [Bool.or_eq_true, Visibility.not_isPrivate_iff] at hopen
      exact ⟨d, ⟨db, rfl, owner, howner, hd⟩, hopen⟩
    · rintro ⟨d, ⟨found, hfound, owner, howner, hd⟩, hopen⟩
      obtain rfl := Option.some.inj hfound
      rw [← Visibility.not_isPrivate_iff, ← Bool.or_eq_true] at hopen
      have hmem := hordered.mem_methods.mpr ⟨d, hd, rfl⟩
      exact List.mem_filterMap.mpr ⟨_, List.mem_flatMap.mpr ⟨owner, howner, hmem⟩, if_pos hopen⟩

/-- The first declaration is private, but there is one further up that is not. -/
def Reopened (r : Resolver) (cls : ModuleId) (name : String) : Prop :=
  (r.findMethod cls name false).map (·.visibility) = some .priv ∧
    ∃ d ∈ r.declared (r.ancestorNames cls) name false, d.visibility ≠ .priv

instance (r : Resolver) (cls : ModuleId) (name : String) : Decidable (r.Reopened cls name) :=
  inferInstanceAs (Decidable (_ ∧ _))

/-- A name that nothing live defines is offered as the first declaration says, unless that is
private and one further up is not. -/
theorem offered_unless_reopened (hdb : ∀ db ∈ r.database, db.Ordered)
    (params : List (String × Ty)) (samples : List Obj) (cell : Option Cell)
    (hlive : ∀ a ∈ r.world.ancestors cls, Table.get? (r.world.module a).methods name = none)
    (hsamples : ∀ o ∈ sample sampleSize samples, ∀ table ∈ r.world.ownSingletonTables o,
      Table.get? table name = none) :
    (name ∈ Ty.methods r.world r.database (.ofMember (.instanceOf cls params samples cell)) ↔
        ∃ d, r.findMethod cls name false = some d ∧ d.visibility ≠ .priv) ↔
      ¬ r.Reopened cls name := by
  have hinstance : name ∉ r.world.instanceMethods cls :=
    not_mem_namesWhere (List.forall_mem_map.mpr hlive)
  have hsingleton : ¬ ∃ o ∈ sample sampleSize samples, name ∈ r.world.singletonMethods o := by
    rintro ⟨o, ho, h⟩
    exact not_mem_namesWhere (hsamples o ho) h
  have hoffered : name ∈ Ty.methods r.world r.database
        (.ofMember (.instanceOf cls params samples cell)) ↔
      ∃ d ∈ r.declared (r.ancestorNames cls) name false, d.visibility ≠ .priv := by
    simp [Ty.methods, Ty.ofMember, Ty.members, Ty.memberMethods, mem_declaredNames hdb, owners,
      hinstance, hsingleton]
  rw [hoffered, Reopened, findMethod_eq_head?]
  cases r.declared (r.ancestorNames cls) name false with
  | nil => simp
  | cons d rest =>
    by_cases hd : d.visibility = .priv
    · simp [hd]
    · simp [hd]

def session : World :=
  ((World.initial.addClass "Base" ModuleId.object).1.addClass "Sub" (some ⟨24⟩)).1

def hidden : Resolver :=
  let base : ClassDecl :=
    { name := "Base", instanceMethods := [("size", ⟨[], .pub⟩), ("tally", ⟨[], .pub⟩)] }
  let sub : ClassDecl :=
    { name := "Sub", superclass := some ⟨"Base", []⟩, instanceMethods := [("tally", ⟨[], .priv⟩)] }
  { world := session, database := some (({} : Database).extend { classes := [base, sub] }) }

theorem offered_unless_reopened_hidden :
    (¬ hidden.Reopened ⟨25⟩ "size" ∧
        ("size" ∈ Ty.methods hidden.world hidden.database (.inst ⟨25⟩) ↔
          ∃ d, hidden.findMethod ⟨25⟩ "size" false = some d ∧ d.visibility ≠ .priv)) ∧
      hidden.Reopened ⟨25⟩ "tally" ∧
        ¬ ("tally" ∈ Ty.methods hidden.world hidden.database (.inst ⟨25⟩) ↔
          ∃ d, hidden.findMethod ⟨25⟩ "tally" false = some d ∧ d.visibility ≠ .priv) := by
  have hdb : ∀ db ∈ hidden.database, db.Ordered := by
    rintro db ⟨⟩
    exact Database.ordered_empty.extend (by decide)
  have hsize : ¬ hidden.Reopened ⟨25⟩ "size" := by decide +kernel
  have htally : hidden.Reopened ⟨25⟩ "tally" := by decide +kernel
  have hiff (name : String) (hname : ∀ a ∈ hidden.world.ancestors ⟨25⟩,
      Table.get? (hidden.world.module a).methods name = none) :=
    offered_unless_reopened hdb [] [] none hname (List.forall_mem_nil _)
  refine ⟨⟨hsize, (hiff "size" (by decide +kernel)).mpr hsize⟩, htally, ?_⟩
  exact fun h ↦ (hiff "tally" (by decide +kernel)).mp h htally

def liveTables (w : World) : Member → List (Table String Visibility)
  | .itself m => w.singletonTables m ++ w.methodTables (w.classOf (.ofModule m))
  | .instanceOf cls _ samples _ =>
    w.methodTables cls ++ (sample sampleSize samples).flatMap w.ownSingletonTables

def declaredNear (r : Resolver) (name : String) (x : Member) : List MethodDef :=
  r.declared (r.owners (ownerOf x).1 (ownerOf x).2) name (ownerOf x).2

def Offers (r : Resolver) (x : Member) (name : String) : Prop :=
  (firstDefinition (liveTables r.world x) name).isSome ∨ r.declaredNear name x ≠ []

instance (r : Resolver) (x : Member) (name : String) : Decidable (r.Offers x name) :=
  inferInstanceAs (Decidable (_ ∨ _))

def metaclass (r : Resolver) (m : ModuleId) : String :=
  if r.world.isClass m then "Class" else "Module"

/-- Nothing is declared for the module as a value under its first ancestor with a name, but there is
a declaration further up, or one for the instances of its metaclass. -/
def Overlooks (r : Resolver) (m : ModuleId) (name : String) : Prop :=
  r.declared ((r.ancestorNames m).take 1) name true = [] ∧
    (r.declared (r.ancestorNames m) name true ≠ [] ∨ r.declared [r.metaclass m] name false ≠ [])

instance (r : Resolver) (m : ModuleId) (name : String) : Decidable (r.Overlooks m name) :=
  inferInstanceAs (Decidable (_ ∧ _))

theorem mem_memberMethods (hdb : ∀ db ∈ r.database, db.Ordered) {x : Member} :
    name ∈ Ty.memberMethods r.world r.database true x ↔ r.Offers x name := by
  have hdeclared (m : ModuleId) (singleton : Bool) :
      name ∈ declaredNames r.world r.database m singleton true ↔
        r.declared (r.owners m singleton) name singleton ≠ [] := by
    rw [mem_declaredNames hdb]
    simp [List.eq_nil_iff_forall_not_mem]
  cases x with
  | itself m =>
    simp only [Ty.memberMethods, if_true, List.mem_append, hdeclared, Offers, declaredNear,
      ownerOf]
    refine or_congr_left ?_
    rw [World.mem_methods_or, liveTables, isSome_firstDefinition_append]
    rfl
  | instanceOf cls params samples cell =>
    have hsampled : (∃ o ∈ sample sampleSize samples, name ∈ r.world.singletonMethods o) ∨
          (∃ o ∈ sample sampleSize samples, name ∈ r.world.privateSingletonMethods o) ↔
        (firstDefinition ((sample sampleSize samples).flatMap r.world.ownSingletonTables)
          name).isSome := by
      rw [isSome_firstDefinition_flatMap, ← exists_or]
      refine exists_congr fun o ↦ ?_
      rw [← and_or_left]
      exact and_congr_right fun _ ↦ mem_namesWhere_or
    have hown : name ∈ r.world.instanceMethods cls ∨ name ∈ r.world.privateInstanceMethods cls ↔
        (firstDefinition (r.world.methodTables cls) name).isSome := mem_namesWhere_or
    simp only [Ty.memberMethods, if_true, List.mem_append, List.mem_flatMap, hdeclared, Offers,
      declaredNear, ownerOf, liveTables, isSome_firstDefinition_append, ← hsampled, ← hown]
    simp only [or_assoc, or_left_comm, or_comm]

theorem mem_allMethods (hdb : ∀ db ∈ r.database, db.Ordered) {t : Ty} :
    name ∈ t.allMethods r.world r.database ↔ ∃ x ∈ t.members, r.Offers x name := by
  simp only [Ty.allMethods, mem_sortedNames, List.mem_flatMap, mem_memberMethods hdb]

theorem isSome_findMethod_iff : (r.findMethod m name true).isSome ↔
    r.declared (r.ancestorNames m) name true ≠ [] ∨ r.declared [r.metaclass m] name false ≠ [] := by
  cases hdb : r.database with
  | none => simp [findMethod, declared, hdb]
  | some db =>
    rw [← List.isSome_head?, ← List.isSome_head?, head?_declared hdb, head?_declared hdb,
      findMethod, hdb]
    simp [metaclass, ancestorNames]

theorem offers_of_isSome_methodOf {x : Member} (h : (r.methodOf x name).isSome) :
    r.Offers x name ∨ ∃ m, x = .itself m ∧ r.Overlooks m name := by
  cases x with
  | itself m =>
    by_cases hnear : r.declaredNear name (.itself m) = []
    · exact .inr ⟨m, rfl, hnear, isSome_findMethod_iff.mp h⟩
    · exact .inl (.inr hnear)
  | instanceOf cls params samples cell =>
    refine .inl (.inr ?_)
    rw [methodOf, ownerOf, findMethod_eq_head?, List.isSome_head?] at h
    exact h

/-- Whatever can be called on a type is offered for it, unless it is overlooked for a module as a
value and no member of the type offers it. -/
theorem offered_unless_overlooked (hdb : ∀ db ∈ r.database, db.Ordered) (t : Ty) (name : String) :
    ((∃ x ∈ t.members, (r.methodOf x name).isSome) →
        name ∈ t.allMethods r.world r.database) ↔
      ((∃ m, .itself m ∈ t.members ∧ r.Overlooks m name) →
        ∃ x ∈ t.members, r.Offers x name) := by
  rw [mem_allMethods hdb]
  constructor
  · rintro h ⟨m, hm, -, hdeclared⟩
    exact h ⟨.itself m, hm, isSome_findMethod_iff.mpr hdeclared⟩
  · rintro h ⟨x, hx, hcalled⟩
    rcases offers_of_isSome_methodOf hcalled with hoffers | ⟨m, rfl, hoverlooks⟩
    · exact ⟨x, hx, hoffers⟩
    · exact h ⟨m, hx, hoverlooks⟩

def partly : Resolver :=
  let base : ClassDecl := { name := "Base", singletonMethods := [("make", ⟨[], .pub⟩)] }
  let cls : ClassDecl := { name := "Class", instanceMethods := [("trace", ⟨[], .pub⟩)] }
  { world := session, database := some (({} : Database).extend { classes := [base, cls] }) }

theorem offered_unless_overlooked_partly :
    ((∃ x ∈ (Ty.singleton ⟨24⟩).members, (partly.methodOf x "make").isSome) →
        "make" ∈ (Ty.singleton ⟨24⟩).allMethods partly.world partly.database) ∧
      ∀ name ∈ ["make", "trace"], partly.Overlooks ⟨25⟩ name ∧
        ¬ ((∃ x ∈ (Ty.singleton ⟨25⟩).members, (partly.methodOf x name).isSome) →
          name ∈ (Ty.singleton ⟨25⟩).allMethods partly.world partly.database) := by
  have hdb : ∀ db ∈ partly.database, db.Ordered := by
    rintro db ⟨⟩
    exact Database.ordered_empty.extend (by decide)
  have hiff := offered_unless_overlooked hdb
  constructor
  · refine (hiff _ _).mpr fun _ ↦ ⟨.itself ⟨24⟩, List.mem_singleton_self _, ?_⟩
    decide +kernel
  · have hcases : ∀ name ∈ ["make", "trace"],
        partly.Overlooks ⟨25⟩ name ∧ ¬ partly.Offers (.itself ⟨25⟩) name := by decide +kernel
    intro name hname
    obtain ⟨hoverlooks, hoffers⟩ := hcases name hname
    refine ⟨hoverlooks, fun h ↦ ?_⟩
    obtain ⟨x, hx, hx'⟩ := (hiff _ _).mp h ⟨⟨25⟩, List.mem_singleton_self _, hoverlooks⟩
    exact hoffers (List.mem_singleton.mp hx ▸ hx')

end Resolver

end FlowCompletion
