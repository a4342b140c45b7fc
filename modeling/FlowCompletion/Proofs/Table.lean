import FlowCompletion.Table
import Mathlib.Data.List.Nodup

namespace FlowCompletion

section firsts

variable {α : Type} [DecidableEq α]

@[simp]
theorem mem_firsts {a : α} {l : List α} : a ∈ firsts l ↔ a ∈ l := by
  induction l with
  | nil => simp [firsts]
  | cons b l ih =>
    by_cases h : a = b
    · simp [firsts, h]
    · simp [firsts, h, ih]

theorem nodup_firsts (l : List α) : (firsts l).Nodup := by
  induction l with
  | nil => exact List.nodup_nil
  | cons b l ih =>
    refine List.nodup_cons.mpr ⟨?_, ih.filter _⟩
    simp

theorem firsts_of_nodup {l : List α} (h : l.Nodup) : firsts l = l := by
  induction l with
  | nil => rfl
  | cons b l ih =>
    obtain ⟨hb, hl⟩ := List.nodup_cons.mp h
    rw [firsts, ih hl, List.filter_eq_self.mpr fun a ha ↦ ?_]
    simpa using fun hab : a = b ↦ hb (hab ▸ ha)

theorem firsts_append (l m : List α) :
    firsts (l ++ m) = firsts l ++ (firsts m).filter fun a ↦ a ∉ l := by
  induction l with
  | nil => simp [firsts]
  | cons b l ih =>
    simp only [List.cons_append, firsts, ih, List.filter_append, List.filter_filter,
      List.mem_cons, not_or, Bool.decide_and]

theorem firsts_append_firsts (l m n : List α) :
    firsts (l ++ firsts m ++ n) = firsts (l ++ m ++ n) := by
  simp only [firsts_append, firsts_of_nodup (nodup_firsts m), List.mem_append, mem_firsts]

theorem firsts_concat {l : List α} (h : l.Nodup) (a : α) :
    firsts (l ++ [a]) = if a ∈ l then l else l ++ [a] := by
  rw [firsts_append, firsts_of_nodup h]
  by_cases ha : a ∈ l <;> simp [firsts, ha]

end firsts

namespace Table

variable {κ α : Type} [DecidableEq κ]

theorem get?_cons (t : Table κ α) (first key : κ) (value : α) :
    get? ((first, value) :: t) key = if key = first then some value else get? t key := by
  by_cases h : key = first
  · simp [get?, h]
  · have hne : (key == first) = false := beq_eq_false_iff_ne.mpr h
    simp [get?, List.lookup_cons, hne, h]

theorem get?_filterMap (f : κ → Option α) (keys : List κ) (key : κ) :
    get? (keys.filterMap fun k ↦ (f k).map (k, ·)) key = if key ∈ keys then f key else none := by
  induction keys with
  | nil => rfl
  | cons first rest ih =>
    rw [List.filterMap_cons]
    by_cases hfirst : key = first
    · subst hfirst
      cases hvalue : f key <;> simp [get?_cons, ih, hvalue]
    · cases hvalue : f first <;> simp [get?_cons, hfirst, ih]

theorem get?_map {β : Type} (f : α → β) (t : Table κ α) (key : κ) :
    get? (t.map fun entry ↦ (entry.1, f entry.2)) key = (get? t key).map f := by
  induction t with
  | nil => rfl
  | cons entry t ih =>
    rw [List.map_cons, get?_cons, get?_cons, ih]
    split <;> rfl

theorem get?_append (t other : Table κ α) (key : κ) :
    get? (t ++ other) key = (get? t key).or (get? other key) :=
  List.lookup_append

theorem get?_filter (t : Table κ α) (keep : κ → Bool) (key : κ) :
    get? (t.filter fun entry ↦ keep entry.1) key = if keep key then get? t key else none := by
  induction t with
  | nil => simp [get?]
  | cons entry t ih =>
    obtain ⟨first, value⟩ := entry
    by_cases hkey : key = first
    · subst hkey
      cases hkeep : keep key <;> simp [get?_cons, ih, hkeep]
    · cases hkeep : keep first <;> simp [get?_cons, ih, hkeep, hkey]

theorem get?_insert (t : Table κ α) (key other : κ) (value : α) :
    get? (insert t key value) other = if other = key then some value else get? t other := by
  induction t with
  | nil => rw [insert, get?_cons]
  | cons entry t ih =>
    obtain ⟨first, known⟩ := entry
    by_cases hk : first = key
    · simp only [insert, hk, if_true, get?_cons]
      split <;> rfl
    · simp only [insert, hk, if_false, get?_cons, ih]
      by_cases ho : other = first
      · have hne : other ≠ key := fun h ↦ hk (ho.symm.trans h)
        rw [if_pos ho, if_neg hne, if_pos ho]
      · rw [if_neg ho, if_neg ho]

theorem get?_insert_of_ne (t : Table κ α) {key other : κ} (h : other ≠ key) (value : α) :
    get? (insert t key value) other = get? t other := by
  rw [get?_insert, if_neg h]

theorem eq_or_mem_of_mem_insert {t : Table κ α} {key : κ} {value : α} {entry : κ × α}
    (h : entry ∈ insert t key value) : entry = (key, value) ∨ entry ∈ t := by
  induction t with
  | nil => exact .inl (by simpa [insert] using h)
  | cons first t ih =>
    by_cases hk : first.1 = key
    · simp only [insert, hk, if_true, List.mem_cons] at h
      exact h.imp_right (List.mem_cons_of_mem _)
    · simp only [insert, hk, if_false, List.mem_cons] at h
      rcases h with rfl | h
      · exact .inr List.mem_cons_self
      · exact (ih h).imp_right (List.mem_cons_of_mem _)

theorem mem_of_mem_extend {t other : Table κ α} {entry : κ × α} (h : entry ∈ extend t other) :
    entry ∈ t ∨ entry ∈ other := by
  induction other generalizing t with
  | nil => exact .inl h
  | cons first other ih =>
    rcases ih h with h | h
    · rcases eq_or_mem_of_mem_insert h with rfl | h
      · exact .inr List.mem_cons_self
      · exact .inl h
    · exact .inr (List.mem_cons_of_mem _ h)

theorem mem_of_mem_ofList {entries : List (κ × α)} {entry : κ × α} (h : entry ∈ ofList entries) :
    entry ∈ entries :=
  (mem_of_mem_extend h).resolve_left List.not_mem_nil

theorem mem_of_get? {t : Table κ α} {key : κ} {value : α} (h : get? t key = some value) :
    (key, value) ∈ t := by
  obtain ⟨before, after, rfl, -⟩ := List.lookup_eq_some_iff.mp h
  simp

theorem get?_of_mem {t : Table κ α} (h : (keys t).Nodup) {key : κ} {value : α}
    (hmem : (key, value) ∈ t) : get? t key = some value := by
  induction t with
  | nil => cases hmem
  | cons entry t ih =>
    obtain ⟨hentry, hrest⟩ := List.nodup_cons.mp h
    rw [get?_cons]
    rcases List.mem_cons.mp hmem with rfl | hmem
    · exact if_pos rfl
    · have hne : key ≠ entry.1 := fun heq ↦ hentry (heq ▸ List.mem_map_of_mem hmem)
      rw [if_neg hne, ih hrest hmem]

theorem get?_of_perm {t other : Table κ α} (h : (keys t).Nodup) (hperm : t.Perm other) (key : κ) :
    get? other key = get? t key := by
  have hother : (keys other).Nodup := (hperm.map Prod.fst).nodup h
  apply Option.ext
  intro value
  constructor
  · intro hvalue
    exact get?_of_mem h (hperm.mem_iff.mpr (mem_of_get? hvalue))
  · intro hvalue
    exact get?_of_mem hother (hperm.mem_iff.mp (mem_of_get? hvalue))

theorem contains_insert (t : Table κ α) (key other : κ) (value : α) :
    contains (insert t key value) other = (decide (other = key) || contains t other) := by
  rw [contains, contains, get?_insert]
  by_cases h : other = key <;> simp [h]

theorem contains_extend {t other : Table κ α} {key : κ}
    (h : contains t key = true ∨ key ∈ keys other) : contains (extend t other) key = true := by
  induction other generalizing t with
  | nil => exact h.resolve_right List.not_mem_nil
  | cons first other ih =>
    refine ih ?_
    rw [contains_insert]
    rcases h with h | h
    · exact .inl (by simp [h])
    · rcases List.mem_cons.mp h with rfl | h
      · exact .inl (by simp)
      · exact .inr h

theorem contains_ofList {entries : List (κ × α)} {key : κ} (h : key ∈ keys entries) :
    contains (ofList entries) key = true :=
  contains_extend (.inr h)

theorem get?_eq_none_of_not_mem_keys {t : Table κ α} {key : κ} (h : key ∉ keys t) :
    get? t key = none := by
  refine Option.eq_none_iff_forall_ne_some.mpr fun value hvalue ↦ h ?_
  exact List.mem_map.mpr ⟨(key, value), mem_of_get? hvalue, rfl⟩

theorem contains_of_mem {t : Table κ α} {entry : κ × α} (h : entry ∈ t) :
    contains t entry.1 = true := by
  induction t with
  | nil => cases h
  | cons first t ih =>
    obtain ⟨key, value⟩ := first
    rw [contains, get?_cons]
    rcases List.mem_cons.mp h with rfl | h
    · rw [if_pos rfl]
      rfl
    · split
      · rfl
      · exact ih h

theorem mem_keys {t : Table κ α} {key : κ} : key ∈ keys t ↔ (get? t key).isSome := by
  constructor
  · intro h
    obtain ⟨entry, hentry, rfl⟩ := List.mem_map.mp h
    exact contains_of_mem hentry
  · intro h
    obtain ⟨value, hvalue⟩ := Option.isSome_iff_exists.mp h
    exact List.mem_map.mpr ⟨(key, value), mem_of_get? hvalue, rfl⟩

theorem keys_insert {t : Table κ α} (h : (keys t).Nodup) (key : κ) (value : α) :
    keys (insert t key value) = firsts (keys t ++ [key]) := by
  rw [firsts_concat h]
  clear h
  induction t with
  | nil => rfl
  | cons entry t ih =>
    rw [insert]
    by_cases hk : entry.1 = key
    · simp [keys, hk]
    · rw [if_neg hk]
      change entry.1 :: keys (insert t key value) =
        if key ∈ entry.1 :: keys t then entry.1 :: keys t else entry.1 :: keys t ++ [key]
      rw [ih]
      by_cases hmem : key ∈ keys t <;> simp [hmem, Ne.symm hk]

theorem nodup_keys_insert {t : Table κ α} (h : (keys t).Nodup) (key : κ) (value : α) :
    (keys (insert t key value)).Nodup := by
  rw [keys_insert h]
  exact nodup_firsts _

theorem nodup_keys_extend {t : Table κ α} (h : (keys t).Nodup) (other : Table κ α) :
    (keys (extend t other)).Nodup := by
  induction other generalizing t with
  | nil => exact h
  | cons first other ih => exact ih (nodup_keys_insert h first.1 first.2)

theorem nodup_keys_ofList (entries : List (κ × α)) : (keys (ofList entries)).Nodup :=
  nodup_keys_extend (t := []) List.nodup_nil entries

end Table

end FlowCompletion
