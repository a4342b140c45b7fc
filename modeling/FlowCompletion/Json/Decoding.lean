import FlowCompletion.Json.Basic
import FlowCompletion.Names

namespace FlowCompletion

namespace Json

mutual

def nesting : Json → Nat
  | .array items => 1 + nestingOfItems items
  | .object fields => 1 + nestingOfFields fields
  | _ => 0

def nestingOfItems : List Json → Nat
  | [] => 0
  | item :: rest => max item.nesting (nestingOfItems rest)

def nestingOfFields : List (String × Json) → Nat
  | [] => 0
  | (_, value) :: rest => max value.nesting (nestingOfFields rest)

end

/-- Whether the limit, if there is one, lets the value stand inside `depth` arrays and objects. -/
def fits (limit : Option Nat) (depth : Nat) (value : Json) : Bool :=
  limit.all fun deepest => depth + value.nesting ≤ deepest

mutual

def isReadable : Json → Bool
  | .array items => areReadable items
  | .object fields => areReadableFields fields
  | .unreadable => false
  | _ => true

def areReadable : List Json → Bool
  | [] => true
  | item :: rest => item.isReadable && areReadable rest

def areReadableFields : List (String × Json) → Bool
  | [] => true
  | (_, value) :: rest => value.isReadable && areReadableFields rest

end

/-- The fields of a record in the order of `names`, as far as they are given. A name given twice is
refused, and so is an array with more values than names. -/
def record? (names : List String) : Json → Option (List (Option Json))
  | .object fields =>
    if names.all fun name => (fields.map Prod.fst).count name ≤ 1 then
      some (names.map fun name => List.lookup name fields)
    else none
  | .array items =>
    if items.length ≤ names.length then
      some (items.map some ++ List.replicate (names.length - items.length) none)
    else none
  | _ => none

def given? {α : Type} (fallback : α) (decode : Json → Option α) : Option Json → Option α
  | none => some fallback
  | some value => decode value

def listOf? {α : Type} (decode : Json → Option α) : Json → Option (List α)
  | .array items => items.mapM decode
  | _ => none

def orNull? {α : Type} (decode : Json → Option α) : Json → Option (Option α)
  | .null => some none
  | value => (decode value).map some

def fieldsOf? {α : Type} (decode : Json → Option α) : Json → Option (Fields α)
  | .object fields =>
    (fields.mapM fun field => (decode field.2).map (field.1, ·)).map Fields.ofList
  | _ => none

def strings? : Json → Option (List String) := listOf? string?

def ofFields {α : Type} (encode : α → Json) (fields : Fields α) : Json :=
  .object (fields.map fun field => (field.1, encode field.2))

end Json

end FlowCompletion
