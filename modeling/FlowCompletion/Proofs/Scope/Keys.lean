import FlowCompletion.Scope.Basic

namespace FlowCompletion

theorem NameKind.isPath_append (before after : List Char) :
    isPath (before ++ ':' :: ':' :: after) = true := by
  induction before with
  | nil => rfl
  | cons c before ih =>
    rw [List.cons_append]
    unfold isPath
    split
    · rfl
    · next heq => rwa [← (List.cons.inj heq).2]
    · next heq => cases heq

namespace Key

variable {address other : Nat} {name text : String}

@[simp] theorem named_inj : named name = named text ↔ name = text :=
  ⟨fun h ↦ congrArg Key.text h, fun h ↦ congrArg named h⟩

@[simp] theorem text_named (name : String) : (named name).text = name := rfl

@[simp] theorem kind_named (name : String) : (named name).kind = NameKind.ofName name := rfl

theorem toList_constant (address : Nat) (name : String) :
    (constant address name).text.toList =
      Nat.toDigits 10 address ++ ':' :: ':' :: name.toList := by
  rw [constant, constantStart, Nat.toString_eq_repr, String.toList_append, String.toList_append,
    Nat.toList_repr, List.append_assoc]
  rfl

@[simp] theorem kind_constant (address : Nat) (name : String) :
    (constant address name).kind = .const := by
  rw [kind, NameKind.ofName, toList_constant]
  have hpath := NameKind.isPath_append (Nat.toDigits 10 address) name.toList
  cases hdigits : Nat.toDigits 10 address with
  | nil => exact absurd hdigits Nat.toDigits_ne_nil
  | cons c rest =>
    have hdigit : c.isDigit = true := Nat.isDigit_of_mem_toDigits (by decide) (by decide)
      (hdigits ▸ List.mem_cons_self)
    rw [hdigits, List.cons_append] at hpath
    rw [List.cons_append]
    unfold NameKind.ofChars
    split
    case h_5 => rw [hpath, Bool.true_or, if_pos rfl]
    all_goals
      next heq =>
        rw [(List.cons.inj heq).1] at hdigit
        cases hdigit

/-- A constant of some module may stand under the key. -/
def IsConstant (key : Key) : Prop := ∃ address name, key = constant address name

theorem isConstant_constantKey (w : World) (m : ModuleId) (name : String) :
    (w.constantKey m name).IsConstant :=
  ⟨_, _, rfl⟩

theorem not_isConstant_named (h : NameKind.ofName name ≠ .const) : ¬ (named name).IsConstant := by
  rintro ⟨address, text, htext⟩
  exact h ((congrArg kind htext).trans (kind_constant _ _))

theorem ne_of_isConstant {key other : Key} (hkey : key.IsConstant) (hother : ¬ other.IsConstant) :
    key ≠ other := by
  rintro rfl
  exact hother hkey

end Key

@[simp] theorem World.kind_constantKey (w : World) (m : ModuleId) (name : String) :
    (w.constantKey m name).kind = .const :=
  Key.kind_constant _ _

end FlowCompletion
