import FlowCompletion.Proofs.Names
import FlowCompletion.Proofs.Signature.Ancestors
import FlowCompletion.Signature.Loading

namespace FlowCompletion

namespace Json

theorem forall_mem_listOf? {α : Type} {P : α → Prop} {decode : Json → Option α}
    (hdecode : ∀ value, ∀ a ∈ decode value, P a) {value : Json} {all : List α}
    (h : listOf? decode value = some all) : ∀ a ∈ all, P a := by
  cases value with
  | array items =>
    rw [listOf?] at h
    induction items generalizing all with
    | nil =>
      obtain rfl := Option.some.inj h
      exact List.forall_mem_nil P
    | cons item items ih =>
      rw [List.mapM_cons] at h
      obtain ⟨a, ha, h⟩ := Option.bind_eq_some_iff.mp h
      obtain ⟨rest, hrest, h⟩ := Option.bind_eq_some_iff.mp h
      obtain rfl := Option.some.inj h
      exact List.forall_mem_cons.mpr ⟨hdecode item a ha, ih hrest⟩
  | _ => cases h

theorem ordered_fieldsOf? {α : Type} {decode : Json → Option α} {value : Json} {fields : Fields α}
    (h : fieldsOf? decode value = some fields) : fields.Ordered := by
  cases value with
  | object entries =>
    obtain ⟨decoded, -, rfl⟩ := Option.map_eq_some_iff.mp h
    exact Fields.ordered_ofList decoded
  | _ => cases h

end Json

namespace ClassDecl

structure Ordered (decl : ClassDecl) : Prop where
  instanceMethods : decl.instanceMethods.Ordered
  singletonMethods : decl.singletonMethods.Ordered

instance (decl : ClassDecl) : Decidable decl.Ordered :=
  decidable_of_iff (decl.instanceMethods.Ordered ∧ decl.singletonMethods.Ordered)
    ⟨fun ⟨hinstance, hsingleton⟩ ↦ ⟨hinstance, hsingleton⟩,
      fun h ↦ ⟨h.instanceMethods, h.singletonMethods⟩⟩

theorem Ordered.merge {decl : ClassDecl} (h : decl.Ordered) (other : ClassDecl) :
    (decl.merge other).Ordered :=
  ⟨h.instanceMethods.extend _, h.singletonMethods.extend _⟩

theorem ordered_decode? {depth : Nat} {value : Json} {decl : ClassDecl}
    (h : decode? depth value = some decl) : decl.Ordered := by
  have hmethods {decode : Json → Option MethodDef} {given : Option Json} {fields : Fields MethodDef}
      (h : Json.given? [] (Json.fieldsOf? decode) given = some fields) : fields.Ordered := by
    cases given with
    | none => exact Option.some.inj h ▸ Fields.ordered_nil
    | some value => exact Json.ordered_fieldsOf? h
  obtain ⟨parts, -, h⟩ := Option.bind_eq_some_iff.mp h
  split at h
  case h_2 => cases h
  case h_1 =>
    obtain ⟨name, -, h⟩ := Option.bind_eq_some_iff.mp h
    obtain ⟨typeParams, -, h⟩ := Option.bind_eq_some_iff.mp h
    obtain ⟨superclass, -, h⟩ := Option.bind_eq_some_iff.mp h
    obtain ⟨includes, -, h⟩ := Option.bind_eq_some_iff.mp h
    obtain ⟨instanceMethods, hinstance, h⟩ := Option.bind_eq_some_iff.mp h
    obtain ⟨singletonMethods, hsingleton, h⟩ := Option.bind_eq_some_iff.mp h
    obtain rfl := Option.some.inj h
    exact ⟨hmethods hinstance, hmethods hsingleton⟩

end ClassDecl

theorem Document.ordered_read? {text : String} {doc : Document} (h : read? text = some doc) :
    ∀ decl ∈ doc.classes, decl.Ordered := by
  obtain ⟨value, -, h⟩ := Option.bind_eq_some_iff.mp h
  obtain ⟨parts, -, h⟩ := Option.bind_eq_some_iff.mp h
  split at h
  case h_2 => cases h
  case h_1 given _ =>
    obtain ⟨classes, hclasses, h⟩ := Option.bind_eq_some_iff.mp h
    obtain ⟨interfaces, -, h⟩ := Option.bind_eq_some_iff.mp h
    obtain rfl := Option.some.inj h
    cases given with
    | none =>
      obtain rfl := Option.some.inj hclasses
      exact List.forall_mem_nil _
    | some value => exact Json.forall_mem_listOf? (fun _ _ ↦ ClassDecl.ordered_decode?) hclasses

namespace Database

variable {db : Database}

/-- Methods are kept by name, so that every database that is loaded is ordered (`ordered_load`). -/
def Ordered (db : Database) : Prop := ∀ name, ∀ decl ∈ db.class? name, decl.Ordered

theorem ordered_empty : Ordered {} := by
  intro name decl hdecl
  cases hdecl

theorem Ordered.addClass (h : db.Ordered) {decl : ClassDecl} (hdecl : decl.Ordered) :
    (db.addClass decl).Ordered := by
  intro name found hfound
  rw [class?_addClass, Option.mem_def] at hfound
  split at hfound
  case isFalse => exact h name found hfound
  case isTrue =>
    obtain rfl := Option.some.inj hfound
    cases hknown : db.class? decl.name with
    | none => exact hdecl
    | some known => exact (h decl.name known hknown).merge decl

theorem Ordered.extend (h : db.Ordered) {doc : Document}
    (hdoc : ∀ decl ∈ doc.classes, decl.Ordered) : (db.extend doc).Ordered := by
  have hclasses : (doc.classes.foldl Database.addClass db).Ordered :=
    List.foldlRecOn (motive := Ordered) _ _ h fun _ hall decl hdecl ↦
      hall.addClass (hdoc decl hdecl)
  exact List.foldlRecOn (motive := Ordered) _ _ hclasses fun _ hall _ _ ↦ hall

theorem Ordered.read (h : db.Ordered) {path : Option String} {text : String} {loaded : Database}
    (hloaded : db.read path text = .ok loaded) : loaded.Ordered := by
  rw [Database.read] at hloaded
  split at hloaded
  case h_1 doc hdoc =>
    obtain rfl := Except.ok.inj hloaded
    exact h.extend (Document.ordered_read? hdoc)
  case h_2 => cases hloaded

theorem Ordered.foldlM {ε α : Type} {step : Database → α → Except ε Database}
    (hstep : ∀ {db a loaded}, db.Ordered → step db a = .ok loaded → loaded.Ordered)
    (h : db.Ordered) {all : List α} {loaded : Database}
    (hloaded : all.foldlM step db = .ok loaded) : loaded.Ordered := by
  induction all generalizing db with
  | nil => exact Except.ok.inj hloaded ▸ h
  | cons a all ih =>
    rw [List.foldlM_cons] at hloaded
    cases hnext : step db a with
    | error e =>
      rw [hnext] at hloaded
      cases hloaded
    | ok next =>
      rw [hnext] at hloaded
      exact ih (hstep h hnext) hloaded

theorem Ordered.addFile (h : db.Ordered) {path : String} {content : Except FileError String}
    {loaded : Database} (hloaded : db.addFile path content = .ok loaded) : loaded.Ordered := by
  cases content with
  | error cause => cases hloaded
  | ok text => exact h.read hloaded

theorem ordered_load {files : FileSystem} {paths : List String} {loaded : Database}
    (h : load files paths = .ok loaded) : loaded.Ordered := by
  refine ordered_empty.foldlM (fun {db path loaded} hdb hloaded ↦ ?_) h
  rw [readPath] at hloaded
  split at hloaded
  case h_1 => cases hloaded
  case h_2 => exact hdb.foldlM (fun hdb hloaded ↦ hdb.addFile hloaded) hloaded

end Database

end FlowCompletion
