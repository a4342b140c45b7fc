import FlowCompletion.Signature.Declaration

namespace FlowCompletion

structure Database where
  classes : Table String ClassDecl := []
  interfaces : Table String InterfaceDecl := []
deriving Inhabited

structure Document where
  classes : List ClassDecl := []
  interfaces : List InterfaceDecl := []
deriving Inhabited

namespace Database

def addClass (db : Database) (decl : ClassDecl) : Database :=
  let known := (Table.get? db.classes decl.name).elim decl (·.merge decl)
  { db with classes := Table.insert db.classes decl.name known }

def addInterface (db : Database) (decl : InterfaceDecl) : Database :=
  { db with interfaces := Table.insert db.interfaces decl.name decl }

def extend (db : Database) (doc : Document) : Database :=
  doc.interfaces.foldl addInterface (doc.classes.foldl addClass db)

def class? (db : Database) (name : String) : Option ClassDecl := Table.get? db.classes name

def interface? (db : Database) (name : String) : Option InterfaceDecl :=
  Table.get? db.interfaces name

def classCount (db : Database) : Nat := db.classes.length

def typeParams (db : Database) (name : String) : List String :=
  match db.class? name, db.interface? name with
  | some decl, _ => decl.typeParams
  | none, some decl => decl.typeParams
  | none, none => []

end Database

/-- A declared ancestor, and its type parameters in the terms of the descendant. -/
structure Ancestor where
  name : String
  substitution : Substitution := []

namespace Database

def argumentsOf (decl : ClassDecl) (args : List TypeExpr) (outer : Substitution) : Substitution :=
  Table.ofList (decl.typeParams.zip (args.map (TypeExpr.substitute outer)))

/-- Adds the class mentioned, what it includes, newest first, and its superclass, each with its own
ancestors; a class already found is not entered again, so that `height` classes on one way up are
enough. -/
def climb (db : Database) : Nat → List Ancestor → TypeRef × Substitution → List Ancestor
  | 0, found, _ => found
  | height + 1, found, (reference, outer) =>
    match db.class? reference.name with
    | none => found
    | some decl =>
      if found.any (·.name = decl.name) then found
      else
        let own := argumentsOf decl reference.args outer
        let next := decl.includes.reverse ++ decl.superclass.toList
        (next.map (·, own)).foldl (climb db height) (found ++ [⟨decl.name, own⟩])

def ancestors (db : Database) (name : String) : List Ancestor :=
  db.climb (db.classCount + 1) [] (⟨name, []⟩, [])

def climbSuperclasses (db : Database) : Nat → List ClassDecl → String → List ClassDecl
  | 0, found, _ => found
  | height + 1, found, name =>
    match db.class? name with
    | none => found
    | some decl =>
      if found.any (·.name = decl.name) then found
      else
        match decl.superclass with
        | none => found ++ [decl]
        | some reference => climbSuperclasses db height (found ++ [decl]) reference.name

def superclassChain (db : Database) (name : String) : List ClassDecl :=
  db.climbSuperclasses (db.classCount + 1) [] name

/-- The method tables that count for a class, most specific first. Definitions of ancestors are put
in the terms of the class; methods of the class as a value come down from superclasses only. -/
def methodTables (db : Database) (name : String) (singleton : Bool) :
    List (Substitution × Fields MethodDef) :=
  if singleton then (db.superclassChain name).map fun decl => ([], decl.singletonMethods)
  else (db.ancestors name).filterMap fun ancestor =>
    (db.class? ancestor.name).map fun decl => (ancestor.substitution, decl.instanceMethods)

def lookup (db : Database) (name method : String) (singleton : Bool) : Option MethodDef :=
  (db.methodTables name singleton).findSome? fun (s, table) =>
    (Fields.get? table method).map (MethodDef.substitute s)

def methods (db : Database) (name : String) (singleton : Bool) : Fields Visibility :=
  (db.methodTables name singleton).foldr
    (fun (_, table) others => Fields.extend others (table.map fun (m, d) => (m, d.visibility))) []

end Database

end FlowCompletion
