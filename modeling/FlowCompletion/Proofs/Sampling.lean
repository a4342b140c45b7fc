import FlowCompletion.Sampling
import Mathlib.Data.List.Basic
import Mathlib.Order.Monotone.Basic

namespace FlowCompletion

variable {α β : Type} {limit : Nat} {items : List α}

theorem sample_of_length_le (h : items.length ≤ limit) : sample limit items = items := if_pos h

theorem mem_of_mem_sample {a : α} (h : a ∈ sample limit items) : a ∈ items := by
  unfold sample at h
  split at h
  · exact h
  · obtain ⟨i, -, hi⟩ := List.mem_filterMap.mp h
    exact List.mem_of_getElem? hi

theorem sample_eq_nil_iff (hlimit : 0 < limit) : sample limit items = [] ↔ items = [] := by
  by_cases h : items.length ≤ limit
  · rw [sample_of_length_le h]
  -- the first item is always looked at
  have hpos : 0 < items.length := by omega
  have hfirst : items[0] ∈ sample limit items := by
    rw [sample, if_neg h]
    refine List.mem_filterMap.mpr ⟨0, List.mem_range.mpr hlimit, ?_⟩
    rw [Nat.zero_mul, Nat.zero_div, List.getElem?_eq_getElem hpos]
  exact iff_of_false (List.ne_nil_of_mem hfirst) (List.ne_nil_of_length_pos hpos)

theorem sample_map (f : α → β) : sample limit (items.map f) = (sample limit items).map f := by
  unfold sample
  rw [List.length_map]
  split
  · rfl
  · rw [List.map_filterMap]
    exact List.filterMap_congr fun i _ ↦ List.getElem?_map

def samplePlace (limit length i : Nat) : Nat := i * length / limit

variable {length i : Nat}

theorem samplePlace_lt (hi : i < limit) (hlength : 0 < length) :
    samplePlace limit length i < length := by
  apply Nat.div_lt_of_lt_mul
  exact Nat.mul_lt_mul_of_pos_right hi hlength

theorem samplePlace_zero (limit length : Nat) : samplePlace limit length 0 = 0 := by
  rw [samplePlace, Nat.zero_mul, Nat.zero_div]

theorem samplePlace_limit (hlimit : 0 < limit) (length : Nat) :
    samplePlace limit length limit = length :=
  Nat.mul_div_cancel_left length hlimit

/-- The remainders of both quotients together make up at most one more step. -/
theorem samplePlace_succ (hlimit : 0 < limit) (length i : Nat) :
    samplePlace limit length (i + 1) = samplePlace limit length i + length / limit ∨
      samplePlace limit length (i + 1) = samplePlace limit length i + (length / limit + 1) := by
  rw [samplePlace, samplePlace, Nat.succ_mul, Nat.add_div hlimit]
  split
  · exact .inr (Nat.add_assoc _ _ _)
  · exact .inl (Nat.add_zero _)

theorem strictMono_samplePlace (hlimit : 0 < limit) (h : limit ≤ length) :
    StrictMono (samplePlace limit length) := by
  apply strictMono_nat_of_lt_succ
  intro i
  have hstep : 0 < length / limit := Nat.div_pos h hlimit
  rcases samplePlace_succ hlimit length i with hsucc | hsucc
  · rw [hsucc]
    exact Nat.lt_add_of_pos_right hstep
  · rw [hsucc]
    exact Nat.lt_add_of_pos_right (Nat.succ_pos _)

theorem sample_eq_map (h : limit < items.length) (unused : α) :
    sample limit items =
      (List.range limit).map fun i ↦ items.getD (samplePlace limit items.length i) unused := by
  rw [sample, if_neg (Nat.not_le.mpr h)]
  refine List.filterMap_eq_map_iff_forall_eq_some.mpr fun i hi ↦ ?_
  have hplace := samplePlace_lt (List.mem_range.mp hi) (Nat.zero_lt_of_lt h)
  rw [← samplePlace, List.getElem?_eq_getElem hplace, ← List.getElem_eq_getD unused]

theorem length_sample (limit : Nat) (items : List α) :
    (sample limit items).length = min items.length limit := by
  by_cases h : items.length ≤ limit
  · rw [sample_of_length_le h, Nat.min_eq_left h]
  · have hlt := Nat.not_le.mp h
    rw [sample_eq_map hlt (items.get ⟨0, Nat.zero_lt_of_lt hlt⟩), List.length_map,
      List.length_range, Nat.min_eq_right hlt.le]

theorem getElem?_sample (h : limit < items.length) (hi : i < limit) :
    (sample limit items)[i]? =
      some (items.get ⟨_, samplePlace_lt hi (Nat.zero_lt_of_lt h)⟩) := by
  have hplace := samplePlace_lt hi (Nat.zero_lt_of_lt h)
  rw [sample_eq_map h (items.get ⟨0, Nat.zero_lt_of_lt h⟩), List.getElem?_map,
    List.getElem?_range hi, Option.map_some, ← List.getElem_eq_getD, List.get_eq_getElem]

/-- A sample has as many items as there are, or as may be looked at. Of more items than that it
takes one at each of as many places: the first place is the start of the list, each lies as far from
the one before it as the quotient says or one further, and so does the end of the list from the last
one. -/
theorem sample_spread_evenly (limit : Nat) (items : List α) :
    (sample limit items).length = min items.length limit ∧
      (items.length ≤ limit → sample limit items = items) ∧
      (0 < limit → limit < items.length →
        let place := fun i ↦ i * items.length / limit
        (∀ i < limit, ∃ h : place i < items.length,
          (sample limit items)[i]? = some (items.get ⟨place i, h⟩)) ∧
        place 0 = 0 ∧ StrictMono place ∧ place limit = items.length ∧
        ∀ i < limit, place (i + 1) = place i + items.length / limit ∨
          place (i + 1) = place i + (items.length / limit + 1)) := by
  refine ⟨length_sample limit items, sample_of_length_le, fun hlimit h ↦ ⟨?_, ?_, ?_, ?_, ?_⟩⟩
  · intro i hi
    exact ⟨samplePlace_lt hi (Nat.zero_lt_of_lt h), getElem?_sample h hi⟩
  · exact samplePlace_zero limit items.length
  · exact strictMono_samplePlace hlimit h.le
  · exact samplePlace_limit hlimit items.length
  · intro i _
    exact samplePlace_succ hlimit items.length i

theorem sample_spread_evenly_seven :
    sample 3 "abcdefg".toList = ['a', 'c', 'e'] ∧ (sample 3 "abcdefg".toList).length = min 7 3 ∧
      ∃ h : 2 * 7 / 3 < 7,
        (sample 3 "abcdefg".toList)[2]? = some ("abcdefg".toList.get ⟨2 * 7 / 3, h⟩) := by
  obtain ⟨hlength, -, hspread⟩ := sample_spread_evenly 3 "abcdefg".toList
  exact ⟨by decide, hlength, (hspread (by decide) (by decide)).1 2 (by decide)⟩

end FlowCompletion
