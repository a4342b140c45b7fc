import FlowCompletion.Proofs.Json.Decoding
import FlowCompletion.Proofs.Signature.Substitution
import FlowCompletion.Signature.Decoding
import FlowCompletion.Signature.Encoding

namespace FlowCompletion

open Json (Recovers)

variable {limit : Option Nat}

def Literal.isWellFormed : Literal → Bool
  | .integer value => - 0x8000000000000000 ≤ value ∧ value < 0x8000000000000000
  | .float value => value.isFinite
  | _ => true

theorem Literal.decode?_encode_eq_some_iff {value : Literal} :
    decode? value.encode = some value ↔ value.isWellFormed := by
  cases value with
  | integer i => simp [encode, decode?, isWellFormed, Json.whole, wholeIn64Bits?]
  | float x => cases hx : x.isFinite <;> simp [encode, decode?, isWellFormed, real?, hx]
  | _ => simp [encode, decode?, isWellFormed]

namespace TypeExpr

variable {e : TypeExpr}

mutual

def isWellFormed : TypeExpr → Bool
  | .union types => areWellFormed types
  | .intersection types => areWellFormed types
  | .tuple types => areWellFormed types
  | .optional inner => inner.isWellFormed
  | .record fields => decide (Fields.Ordered fields) && areWellFormedFields fields
  | .literal value => value.isWellFormed
  | .classInstance _ args => areWellFormed args
  | .interface _ args => areWellFormed args
  | _ => true

def areWellFormed : List TypeExpr → Bool
  | [] => true
  | e :: rest => e.isWellFormed && areWellFormed rest

def areWellFormedFields : List (String × TypeExpr) → Bool
  | [] => true
  | (_, e) :: rest => e.isWellFormed && areWellFormedFields rest

end

@[simp] theorem areWellFormed_eq_all (types : List TypeExpr) :
    areWellFormed types = types.all isWellFormed := by
  induction types with
  | nil => rfl
  | cons e rest ih => rw [areWellFormed, ih, List.all_cons]

@[simp] theorem areWellFormedFields_eq_all (fields : List (String × TypeExpr)) :
    areWellFormedFields fields = fields.all fun field ↦ field.2.isWellFormed := by
  induction fields with
  | nil => rfl
  | cons field rest ih => rw [areWellFormedFields, ih, List.all_cons]

@[simp] theorem encodeAll_eq_map (types : List TypeExpr) : encodeAll types = types.map encode := by
  induction types with
  | nil => rfl
  | cons e rest ih => rw [encodeAll, ih, List.map_cons]

@[simp] theorem encodeFields_eq_map (fields : List (String × TypeExpr)) :
    encodeFields fields = fields.map fun field ↦ (field.1, field.2.encode) := by
  induction fields with
  | nil => rfl
  | cons field rest ih => rw [encodeFields, ih, List.map_cons]

theorem isReadable_encode (e : TypeExpr) : e.encode.isReadable := by
  induction e using induct with
  | plain e he =>
    cases e with
    | literal value =>
      cases value with
      | float x => cases hx : x.isFinite <;> simp [encode, tagged, Literal.encode, hx]
      | _ => rfl
    | union | intersection | optional | tuple | record | var | classInstance | interface => cases he
    | _ => rfl
  | var name => rfl
  | optional inner ih => simpa [encode, tagged] using ih
  | union types ih | intersection types ih | tuple types ih => simpa [encode, tagged] using ih
  | record fields ih => simpa [encode, tagged] using ih
  | classInstance name args ih | interface name args ih => simpa [encode, tagged] using ih

theorem kind?_string (inside : Bool) {kind : String} (h : kind ∈ kinds.map Prod.fst) :
    kind? inside (.string kind) = some kind := by
  rw [kind?]
  revert kind
  decide

theorem untag?_tagged (inside : Bool) {kind : String} {fields : List (String × Json)}
    (hkind : kind ∈ kinds.map Prod.fst) (hfields : "kind" ∉ fields.map Prod.fst) :
    untag? inside (tagged kind fields) = some (kind, .object fields) := by
  have hcount : ((("kind", Json.string kind) :: fields).map Prod.fst).count "kind" ≤ 1 := by
    rw [List.map_cons, List.count_cons_self, List.count_eq_zero.mpr hfields]
  have hrest :
      (("kind", Json.string kind) :: fields).filter (fun field ↦ field.1 ≠ "kind") = fields := by
    rw [List.filter_cons_of_neg (by simp), List.filter_eq_self]
    intro field hfield
    refine decide_eq_true fun heq ↦ hfields ?_
    exact heq ▸ List.mem_map_of_mem hfield
  rw [tagged, untag?, if_pos hcount, List.lookup_cons_self, hrest]
  simp [kind?_string inside hkind]

theorem nesting_lt_of_tagged {height : Nat} {kind name : String} {value : Json}
    {fields : List (String × Json)} (hheight : (tagged kind fields).nesting < height)
    (hfield : (name, value) ∈ fields) : value.nesting < height - 1 := by
  have hlt : value.nesting < (tagged kind fields).nesting :=
    Json.nesting_lt_object (List.mem_cons_of_mem _ hfield)
  omega

theorem decodeWithin_tagged {height : Nat} (inside : Bool) {kind : String}
    {fields : List (String × Json)} (hheight : (tagged kind fields).nesting < height)
    (hkind : kind ∈ kinds.map Prod.fst) (hfields : "kind" ∉ fields.map Prod.fst) :
    decodeWithin height inside (tagged kind fields) =
      ofBody? (decodeWithin (height - 1) true) kind (.object fields) := by
  obtain ⟨height, rfl⟩ := Nat.exists_eq_succ_of_ne_zero (Nat.ne_zero_of_lt hheight)
  rw [decodeWithin, untag?_tagged inside hkind hfields]
  rfl

@[simp] theorem one?_object {α : Type} (name : String) (decode : Json → Option α) (value : Json) :
    one? name decode (.object [(name, value)]) = decode value := by
  simp [one?, Json.record?_object]

@[simp] theorem named?_object (decode : Json → Option (List TypeExpr)) (name : String)
    (args : Json) :
    named? decode (.object [("name", .string name), ("args", args)]) =
      (decode args).map (name, ·) := by
  cases hargs : decode args <;> simp [named?, Json.record?_object, Json.given?, hargs]

/-- Read back if it is well formed, wherever as many types may stand inside each other as do. -/
def IsReadBack (e : TypeExpr) : Prop :=
  ∀ height inside, e.encode.nesting < height →
    (decodeWithin height inside e.encode = some e ↔ e.isWellFormed)

variable {height : Nat}

theorem listOf?_iff_of_isReadBack {types : List TypeExpr} (h : ∀ e ∈ types, e.IsReadBack)
    (hheight : (Json.array (types.map encode)).nesting < height) :
    Json.listOf? (decodeWithin height true) (.array (types.map encode)) = some types ↔
      types.all isWellFormed := by
  rw [Json.listOf?_map_eq_some_iff, List.all_eq_true]
  refine forall₂_congr fun e he ↦ h e he height true ?_
  exact Nat.lt_trans (Json.nesting_lt_array (List.mem_map_of_mem he)) hheight

theorem fieldsOf?_iff_of_isReadBack {fields : Fields TypeExpr}
    (h : ∀ field ∈ fields, field.2.IsReadBack)
    (hheight : (Json.ofFields encode fields).nesting < height) :
    Json.fieldsOf? (decodeWithin height true) (.ofFields encode fields) = some fields ↔
      fields.Ordered ∧ ∀ field ∈ fields, field.2.isWellFormed := by
  rw [Json.fieldsOf?_ofFields_eq_some_iff]
  refine and_congr_right fun _ ↦ forall₂_congr fun field hfield ↦ h field hfield height true ?_
  refine Nat.lt_trans ?_ hheight
  exact Json.nesting_lt_object (List.mem_map_of_mem hfield)

theorem isReadBack_of_isPlain (he : e.isPlain) : e.IsReadBack := by
  intro height inside hheight
  cases e with
  | literal value =>
    rw [encode, decodeWithin_tagged _ hheight (by decide) (by simp)]
    simp [ofBody?, isWellFormed, Literal.decode?_encode_eq_some_iff]
  | classSingleton name | abbreviation name =>
    rw [encode, decodeWithin_tagged _ hheight (by decide) (by simp)]
    simp [ofBody?, isWellFormed]
  | union | intersection | optional | tuple | record | var | classInstance | interface => cases he
  | _ => exact iff_of_true (decodeWithin_tagged _ hheight (by decide) (by simp)) rfl

-- Types inside a type are read with one less of the height, and each step down takes at least that
-- much from the nesting.
theorem isReadBack (e : TypeExpr) : e.IsReadBack := by
  induction e using induct with
  | plain e he => exact isReadBack_of_isPlain he
  | var name =>
    intro height inside hheight
    rw [encode, decodeWithin_tagged _ hheight (by decide) (by simp)]
    simp [ofBody?, isWellFormed]
  | optional inner ih =>
    intro height inside hheight
    have hinner := ih (height - 1) true (nesting_lt_of_tagged hheight List.mem_cons_self)
    rw [encode, decodeWithin_tagged _ hheight (by decide) (by simp)]
    simp [ofBody?, isWellFormed, hinner]
  | union types ih | intersection types ih | tuple types ih =>
    intro height inside hheight
    rw [encode, encodeAll_eq_map] at hheight ⊢
    have htypes := listOf?_iff_of_isReadBack ih (nesting_lt_of_tagged hheight List.mem_cons_self)
    rw [decodeWithin_tagged _ hheight (by decide) (by simp)]
    simpa [ofBody?, isWellFormed] using htypes
  | record fields ih =>
    intro height inside hheight
    rw [encode, encodeFields_eq_map] at hheight ⊢
    have hfields := fieldsOf?_iff_of_isReadBack ih
      (nesting_lt_of_tagged hheight List.mem_cons_self)
    rw [decodeWithin_tagged _ hheight (by decide) (by simp)]
    simpa [ofBody?, isWellFormed, Json.ofFields] using hfields
  | classInstance name args ih | interface name args ih =>
    intro height inside hheight
    rw [encode, encodeAll_eq_map] at hheight ⊢
    have hargs := listOf?_iff_of_isReadBack ih
      (nesting_lt_of_tagged hheight (List.mem_cons_of_mem _ List.mem_cons_self))
    rw [decodeWithin_tagged _ hheight (by decide) (by simp)]
    simpa [ofBody?, isWellFormed] using hargs

theorem recovers : Recovers limit encode (decodeUpTo? limit) isWellFormed := by
  intro e depth hfits
  rw [decodeUpTo?, if_pos ⟨isReadable_encode e, hfits⟩]
  exact isReadBack e _ _ (Nat.lt_succ_self _)

example : decode? 0 (encode (.literal (.float .nan))) = none := rfl

theorem encode_ne_null (e : TypeExpr) : e.encode ≠ .null := by
  cases e <;> simp [encode, tagged]

end TypeExpr

def FunctionType.isWellFormed (f : FunctionType) : Bool :=
  f.required.all TypeExpr.isWellFormed && f.optional.all TypeExpr.isWellFormed &&
    f.rest.all TypeExpr.isWellFormed && f.trailing.all TypeExpr.isWellFormed &&
    Fields.areGood TypeExpr.isWellFormed f.requiredKeywords &&
    Fields.areGood TypeExpr.isWellFormed f.optionalKeywords &&
    f.restKeywords.all TypeExpr.isWellFormed && f.result.isWellFormed

theorem FunctionType.recovers : Recovers limit encode (decodeUpTo? limit) isWellFormed := by
  rintro ⟨required, optional, rest, trailing, requiredKeywords, optionalKeywords, restKeywords,
    result⟩ depth hfits
  have hfields := Json.forall_fits_of_object hfits
  simp only [List.forall_mem_cons] at hfields
  obtain ⟨hrequired, hoptional, hrest, htrailing, hrequiredKeywords, hoptionalKeywords,
    hrestKeywords, hresult, -⟩ := hfields
  -- All readings together give the record just if each of them gives its field.
  simp [encode, decodeUpTo?, Json.record?_object, Json.given?, Option.bind_eq_some_iff,
    isWellFormed, and_assoc, TypeExpr.recovers.list _ _ hrequired,
    TypeExpr.recovers.list _ _ hoptional,
    TypeExpr.recovers.option TypeExpr.encode_ne_null _ _ hrest,
    TypeExpr.recovers.list _ _ htrailing, TypeExpr.recovers.ofFields _ _ hrequiredKeywords,
    TypeExpr.recovers.ofFields _ _ hoptionalKeywords,
    TypeExpr.recovers.option TypeExpr.encode_ne_null _ _ hrestKeywords,
    TypeExpr.recovers _ _ hresult]

def BlockType.isWellFormed (b : BlockType) : Bool :=
  b.function.isWellFormed && b.selfType.all TypeExpr.isWellFormed

theorem BlockType.recovers : Recovers limit encode (decodeUpTo? limit) isWellFormed := by
  rintro ⟨required, function, selfType⟩ depth hfits
  have hfields := Json.forall_fits_of_object hfits
  simp only [List.forall_mem_cons] at hfields
  obtain ⟨-, hfunction, hself, -⟩ := hfields
  simp [encode, decodeUpTo?, Json.record?_object, Json.given?, Option.bind_eq_some_iff,
    isWellFormed, FunctionType.recovers _ _ hfunction,
    TypeExpr.recovers.option TypeExpr.encode_ne_null _ _ hself]

theorem BlockType.encode_ne_null (b : BlockType) : b.encode ≠ .null := by simp [encode]

def MethodType.isWellFormed (m : MethodType) : Bool :=
  m.function.isWellFormed && m.block.all BlockType.isWellFormed

theorem MethodType.recovers : Recovers limit encode (decodeUpTo? limit) isWellFormed := by
  rintro ⟨typeParams, function, block⟩ depth hfits
  have hfields := Json.forall_fits_of_object hfits
  simp only [List.forall_mem_cons] at hfields
  obtain ⟨-, hfunction, hblock, -⟩ := hfields
  simp [encode, decodeUpTo?, Json.record?_object, Json.given?, Option.bind_eq_some_iff,
    isWellFormed, FunctionType.recovers _ _ hfunction,
    BlockType.recovers.option BlockType.encode_ne_null _ _ hblock]

theorem Visibility.decode?_word (v : Visibility) : decode? (.string v.word) = some v := by
  cases v <;> rfl

def MethodDef.isWellFormed (d : MethodDef) : Bool := d.overloads.all MethodType.isWellFormed

theorem MethodDef.recovers : Recovers limit encode (decodeUpTo? limit) isWellFormed := by
  rintro ⟨overloads, visibility⟩ depth hfits
  have hfields := Json.forall_fits_of_object hfits
  simp only [List.forall_mem_cons] at hfields
  simp [encode, decodeUpTo?, Json.record?_object, Json.given?, Option.bind_eq_some_iff,
    isWellFormed, Visibility.decode?_word, MethodType.recovers.list _ _ hfields.1]

def TypeRef.isWellFormed (r : TypeRef) : Bool := r.args.all TypeExpr.isWellFormed

theorem TypeRef.recovers : Recovers limit encode (decodeUpTo? limit) isWellFormed := by
  rintro ⟨name, args⟩ depth hfits
  have hfields := Json.forall_fits_of_object hfits
  simp only [List.forall_mem_cons] at hfields
  simp [encode, decodeUpTo?, Json.record?_object, Json.given?, Option.bind_eq_some_iff,
    isWellFormed, TypeExpr.recovers.list _ _ hfields.2.1]

theorem TypeRef.encode_ne_null (r : TypeRef) : r.encode ≠ .null := by simp [encode]

def ClassDecl.isWellFormed (d : ClassDecl) : Bool :=
  d.superclass.all TypeRef.isWellFormed && d.includes.all TypeRef.isWellFormed &&
    Fields.areGood MethodDef.isWellFormed d.instanceMethods &&
    Fields.areGood MethodDef.isWellFormed d.singletonMethods

theorem ClassDecl.recovers : Recovers limit encode (decodeUpTo? limit) isWellFormed := by
  rintro ⟨name, typeParams, superclass, includes, instanceMethods, singletonMethods⟩ depth hfits
  have hfields := Json.forall_fits_of_object hfits
  simp only [List.forall_mem_cons] at hfields
  obtain ⟨-, -, hsuperclass, hincludes, hinstance, hsingleton, -⟩ := hfields
  simp [encode, decodeUpTo?, Json.record?_object, Json.given?, Option.bind_eq_some_iff,
    isWellFormed, and_assoc, TypeRef.recovers.option TypeRef.encode_ne_null _ _ hsuperclass,
    TypeRef.recovers.list _ _ hincludes, MethodDef.recovers.ofFields _ _ hinstance,
    MethodDef.recovers.ofFields _ _ hsingleton]

def InterfaceDecl.isWellFormed (d : InterfaceDecl) : Bool :=
  Fields.areGood MethodDef.isWellFormed d.methods

theorem InterfaceDecl.recovers : Recovers limit encode (decodeUpTo? limit) isWellFormed := by
  rintro ⟨name, typeParams, methods⟩ depth hfits
  have hfields := Json.forall_fits_of_object hfits
  simp only [List.forall_mem_cons] at hfields
  simp [encode, decodeUpTo?, Json.record?_object, Json.given?, Option.bind_eq_some_iff,
    isWellFormed, MethodDef.recovers.ofFields _ _ hfields.2.2.1]

/-- Where the limit, if there is one, leaves room for it, a declaration is read back from its
written form just if it is well formed. -/
theorem declarations_round_trip (limit : Option Nat) (depth : Nat) :
    (∀ d : ClassDecl, (∀ deepest ∈ limit, depth + d.encode.nesting ≤ deepest) →
        (ClassDecl.decodeUpTo? limit depth d.encode = some d ↔ d.isWellFormed)) ∧
      ∀ d : InterfaceDecl, (∀ deepest ∈ limit, depth + d.encode.nesting ≤ deepest) →
        (InterfaceDecl.decodeUpTo? limit depth d.encode = some d ↔ d.isWellFormed) :=
  ⟨fun d hfits ↦ ClassDecl.recovers d depth (Json.fits_iff.mpr hfits),
    fun d hfits ↦ InterfaceDecl.recovers d depth (Json.fits_iff.mpr hfits)⟩

def ledgerClass : ClassDecl :=
  { name := "Ledger"
    superclass := some {
      name := "Hash"
      args := [.record [("at", .any), ("sum", .literal (.integer (-7)))]] }
    instanceMethods := [("each", { overloads := [{
      typeParams := ["U"]
      function := {
        rest := some (.literal (.float (.finite true 3 (-1))))
        requiredKeywords := [("by", .optional (.union [.nil, .var "U"])), ("of", .top)] }
      block := some { selfType := some .self } }] })] }

theorem declarations_round_trip_ledger :
    ledgerClass.isWellFormed ∧ ClassDecl.decodeUpTo? none 0 ledgerClass.encode = some ledgerClass ∧
      (∀ deepest ∈ some deepestNesting, 2 + ledgerClass.encode.nesting ≤ deepest) ∧
      ClassDecl.decode? 2 ledgerClass.encode = some ledgerClass := by
  have hwell : ledgerClass.isWellFormed := by decide
  have hfits : ∀ deepest ∈ some deepestNesting, 2 + ledgerClass.encode.nesting ≤ deepest := by
    decide
  refine ⟨hwell, ((declarations_round_trip none 0).1 _ (by simp)).mpr hwell, hfits, ?_⟩
  exact ((declarations_round_trip _ 2).1 _ hfits).mpr hwell

end FlowCompletion
