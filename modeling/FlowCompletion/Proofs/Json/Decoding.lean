import FlowCompletion.Json.Decoding
import FlowCompletion.Proofs.Names

namespace FlowCompletion

def Fields.areGood {α : Type} (good : α → Bool) (fields : Fields α) : Bool :=
  decide fields.Ordered && fields.all fun field ↦ good field.2

namespace Json

section

variable {items : List Json} {item : Json} {fields : List (String × Json)} {name : String}
  {value : Json}

theorem nesting_lt_array (h : item ∈ items) : item.nesting < (array items).nesting := by
  have hle : item.nesting ≤ nestingOfItems items := by
    induction items with
    | nil => cases h
    | cons first rest ih =>
      rw [nestingOfItems]
      rcases List.mem_cons.mp h with rfl | h
      · exact Nat.le_max_left _ _
      · exact Nat.le_trans (ih h) (Nat.le_max_right _ _)
  rw [nesting]
  omega

theorem nestingOfFields_eq (fields : List (String × Json)) :
    nestingOfFields fields = nestingOfItems (fields.map Prod.snd) := by
  induction fields with
  | nil => rfl
  | cons first rest ih => rw [nestingOfFields, ih, List.map_cons, nestingOfItems]

theorem nesting_lt_object (h : (name, value) ∈ fields) :
    value.nesting < (object fields).nesting := by
  have hlt : value.nesting < (array (fields.map Prod.snd)).nesting :=
    nesting_lt_array (List.mem_map_of_mem h)
  rwa [nesting, ← nestingOfFields_eq] at hlt

@[simp] theorem isReadable_null : null.isReadable = true := rfl

@[simp] theorem isReadable_number (n : JsonNumber) : (number n).isReadable = true := rfl

@[simp] theorem isReadable_string (s : String) : (string s).isReadable = true := rfl

@[simp] theorem isReadable_array : (array items).isReadable = items.all isReadable := by
  rw [isReadable]
  induction items with
  | nil => rfl
  | cons first rest ih => rw [areReadable, ih, List.all_cons]

@[simp] theorem isReadable_object :
    (object fields).isReadable = fields.all fun field ↦ field.2.isReadable := by
  rw [isReadable]
  induction fields with
  | nil => rfl
  | cons first rest ih => rw [areReadableFields, ih, List.all_cons]

variable {limit : Option Nat} {depth : Nat}

theorem fits_iff :
    value.fits limit depth ↔ ∀ deepest ∈ limit, depth + value.nesting ≤ deepest := by
  simp [fits, Option.all_eq_true]

theorem fits_of_mem_array (h : (array items).fits limit depth) (hitem : item ∈ items) :
    item.fits limit (depth + 1) := by
  refine fits_iff.mpr fun deepest hdeepest ↦ ?_
  have hall := fits_iff.mp h deepest hdeepest
  have hlt := nesting_lt_array hitem
  omega

theorem forall_fits_of_object (h : (object fields).fits limit depth) :
    ∀ field ∈ fields, field.2.fits limit (depth + 1) := by
  intro field hfield
  refine fits_iff.mpr fun deepest hdeepest ↦ ?_
  have hall := fits_iff.mp h deepest hdeepest
  have hlt := nesting_lt_object hfield
  omega

theorem lookup_of_nodup (h : (fields.map Prod.fst).Nodup) {field : String × Json}
    (hfield : field ∈ fields) :
    List.lookup field.1 fields = some field.2 := by
  induction fields with
  | nil => cases hfield
  | cons first rest ih =>
    obtain ⟨hfirst, hrest⟩ := List.nodup_cons.mp h
    rcases List.mem_cons.mp hfield with rfl | hfield
    · exact List.lookup_cons_self
    · have hne : field.1 ≠ first.1 := by
        intro heq
        exact hfirst (heq ▸ List.mem_map_of_mem hfield)
      rw [List.lookup_cons, beq_false_of_ne hne]
      exact ih hrest hfield

theorem record?_object {names : List String} (hnames : fields.map Prod.fst = names)
    (h : names.Nodup) :
    record? names (object fields) = some (fields.map fun field ↦ some field.2) := by
  subst hnames
  have hcount : (fields.map Prod.fst).all
      (fun name ↦ (fields.map Prod.fst).count name ≤ 1) = true := by
    refine List.all_eq_true.mpr fun name _ ↦ decide_eq_true ?_
    exact List.nodup_iff_count_le_one.mp h name
  rw [record?, if_pos hcount, List.map_map]
  exact congrArg some (List.map_congr_left fun field hfield ↦ lookup_of_nodup h hfield)

end

@[simp] theorem string?_string (s : String) : (string s).string? = some s := rfl

@[simp] theorem bool?_bool (b : Bool) : (bool b).bool? = some b := rfl

variable {α : Type} {encode : α → Json}

theorem mapM_map_eq_some_iff {β : Type} {f : α → β} {g : β → Option α} {all : List α} :
    (all.map f).mapM g = some all ↔ ∀ a ∈ all, g (f a) = some a := by
  rw [List.mapM_map]
  induction all with
  | nil => simp
  | cons a rest ih => simp [Option.bind_eq_some_iff, ih]

theorem listOf?_map_eq_some_iff {decode : Json → Option α} {all : List α} :
    listOf? decode (array (all.map encode)) = some all ↔ ∀ a ∈ all, decode (encode a) = some a :=
  mapM_map_eq_some_iff

@[simp] theorem strings?_strings (names : List String) : strings? (strings names) = some names :=
  listOf?_map_eq_some_iff.mpr fun _ _ ↦ rfl

theorem orNull?_option_eq_some_iff {decode : Json → Option α} (hencode : ∀ a, encode a ≠ null)
    {given : Option α} :
    orNull? decode (option encode given) = some given ↔
      ∀ a ∈ given, decode (encode a) = some a := by
  cases given with
  | none => simp [option, orNull?]
  | some a =>
    have hdecode : orNull? decode (encode a) = (decode (encode a)).map some :=
      orNull?.eq_2 _ _ (hencode a)
    simp [option, hdecode]

theorem names_of_mapM {decode : Json → Option α} {entries : List (String × Json)}
    {fields : Fields α}
    (h : entries.mapM (fun field ↦ (decode field.2).map (field.1, ·)) = some fields) :
    fields.names = entries.map Prod.fst := by
  induction entries generalizing fields with
  | nil =>
    obtain rfl := Option.some.inj h
    rfl
  | cons first rest ih =>
    rw [List.mapM_cons] at h
    obtain ⟨field, hfield, h⟩ := Option.bind_eq_some_iff.mp h
    obtain ⟨others, hothers, h⟩ := Option.bind_eq_some_iff.mp h
    obtain ⟨value, -, rfl⟩ := Option.map_eq_some_iff.mp hfield
    obtain rfl := Option.some.inj h
    exact congrArg (first.1 :: ·) (ih hothers)

theorem fieldsOf?_ofFields_eq_some_iff {decode : Json → Option α} {fields : Fields α} :
    fieldsOf? decode (ofFields encode fields) = some fields ↔
      fields.Ordered ∧ ∀ field ∈ fields, decode (encode field.2) = some field.2 := by
  have hall : (fields.map fun field ↦ (field.1, encode field.2)).mapM
      (fun field ↦ (decode field.2).map (field.1, ·)) = some fields ↔
        ∀ field ∈ fields, decode (encode field.2) = some field.2 := by
    rw [mapM_map_eq_some_iff]
    refine forall₂_congr fun field _ ↦ ?_
    cases decode (encode field.2) <;> simp [Prod.ext_iff]
  rw [ofFields, fieldsOf?, ← hall]
  refine ⟨fun h ↦ ?_, fun h ↦ ?_⟩
  · -- What is read has the same names, so it is in order too, and keeping it changes nothing.
    obtain ⟨decoded, hdecoded, hfields⟩ := Option.map_eq_some_iff.mp h
    have hordered : fields.Ordered := hfields ▸ Fields.ordered_ofList decoded
    have hnames : Fields.names decoded = fields.names := by
      rw [names_of_mapM hdecoded, List.map_map]
      rfl
    have hdecodedOrdered : Fields.Ordered decoded := by rwa [Fields.Ordered, hnames]
    rw [Fields.ofList_of_ordered hdecodedOrdered] at hfields
    exact ⟨hordered, hfields ▸ hdecoded⟩
  · rw [h.2, Option.map_some, Fields.ofList_of_ordered h.1]

variable {limit : Option Nat} {decode : Nat → Json → Option α} {good : α → Bool}

/-- Of all that is written where there is room for it, just the good is read as it was. -/
def Recovers (limit : Option Nat) (encode : α → Json) (decode : Nat → Json → Option α)
    (good : α → Bool) : Prop :=
  ∀ a depth, (encode a).fits limit depth → (decode depth (encode a) = some a ↔ good a)

theorem Recovers.list (h : Recovers limit encode decode good) :
    Recovers limit (fun all ↦ array (all.map encode)) (fun depth ↦ listOf? (decode (depth + 1)))
      (fun all ↦ all.all good) := by
  intro all depth hfits
  rw [listOf?_map_eq_some_iff, List.all_eq_true]
  refine forall₂_congr fun a ha ↦ h a (depth + 1) ?_
  exact fits_of_mem_array hfits (List.mem_map_of_mem ha)

theorem Recovers.option (h : Recovers limit encode decode good) (hencode : ∀ a, encode a ≠ null) :
    Recovers limit (option encode) (fun depth ↦ orNull? (decode depth))
      (fun given ↦ given.all good) := by
  intro given depth hfits
  rw [orNull?_option_eq_some_iff hencode, Option.all_eq_true]
  refine forall₂_congr fun a ha ↦ h a depth ?_
  rwa [Option.mem_def.mp ha] at hfits

theorem Recovers.ofFields (h : Recovers limit encode decode good) :
    Recovers limit (ofFields encode) (fun depth ↦ fieldsOf? (decode (depth + 1)))
      (Fields.areGood good) := by
  intro fields depth hfits
  rw [fieldsOf?_ofFields_eq_some_iff, Fields.areGood, Bool.and_eq_true, decide_eq_true_eq,
    List.all_eq_true]
  refine and_congr_right fun _ ↦ forall₂_congr fun field hfield ↦ h field.2 (depth + 1) ?_
  exact forall_fits_of_object hfits _ (List.mem_map_of_mem hfield)

end Json

end FlowCompletion
