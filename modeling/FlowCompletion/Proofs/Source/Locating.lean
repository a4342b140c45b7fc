import FlowCompletion.Proofs.Source.Positions
import Mathlib.Data.List.Chain

namespace FlowCompletion

namespace Node

def postorder (n : Node) : List Node :=
  n.children.attach.flatMap (fun ⟨c, _⟩ => c.postorder) ++ [n]
termination_by sizeOf n
decreasing_by exact sizeOf_lt_of_mem_children (by assumption)

/-- The nodes of the tree in postorder, each with the nodes around it from the root on. -/
def places (n : Node) : List (List Node × Node) :=
  (n.children.attach.flatMap fun ⟨c, _⟩ => c.places).map (fun p => (n :: p.1, p.2)) ++ [([], n)]
termination_by sizeOf n
decreasing_by exact sizeOf_lt_of_mem_children (by assumption)

variable {n target : Node} {offset : Nat} {path : List Node}

theorem postorder_eq (n : Node) : n.postorder = n.children.flatMap postorder ++ [n] := by
  have hattach : n.children.attach.flatMap (fun c ↦ c.1.postorder) =
      n.children.flatMap postorder := by
    rw [← List.flatMap_map, List.attach_map_subtype_val]
  rw [postorder]
  exact congrArg (· ++ [n]) hattach

theorem places_eq (n : Node) :
    n.places = (n.children.flatMap places).map (fun p ↦ (n :: p.1, p.2)) ++ [([], n)] := by
  have hattach : n.children.attach.flatMap (fun c ↦ c.1.places) = n.children.flatMap places := by
    rw [← List.flatMap_map, List.attach_map_subtype_val]
  rw [places]
  exact congrArg (fun ps ↦ ps.map (fun p ↦ (n :: p.1, p.2)) ++ [([], n)]) hattach

theorem map_snd_places (n : Node) : n.places.map Prod.snd = n.postorder := by
  induction n using children_induction with
  | step n ih =>
    have hbelow : (n.children.flatMap places).map Prod.snd = n.children.flatMap postorder := by
      rw [List.map_flatMap]
      exact List.flatMap_congr ih
    rw [places_eq, postorder_eq, List.map_append, List.map_map, ← hbelow]
    rfl

theorem way_of_mem_places {p : List Node × Node} (h : p ∈ n.places) :
    (p.1 ++ [p.2]).head? = some n ∧ (p.1 ++ [p.2]).IsChain fun m c ↦ c ∈ m.children := by
  induction n using children_induction generalizing p with
  | step n ih =>
    rw [places_eq, List.mem_append, List.mem_map, List.mem_singleton] at h
    rcases h with ⟨q, hq, rfl⟩ | rfl
    · obtain ⟨c, hc, hq⟩ := List.mem_flatMap.mp hq
      obtain ⟨hhead, hchain⟩ := ih c hc hq
      refine ⟨rfl, List.isChain_cons.mpr ⟨?_, hchain⟩⟩
      intro d hd
      obtain rfl := Option.some.inj (hhead.symm.trans hd)
      exact hc
    · exact ⟨rfl, List.isChain_singleton n⟩

theorem locate_eq_find? (offset : Nat) (n : Node) :
    n.locate offset =
      (n.places.find? fun p ↦ p.2.span.stop = offset).map fun p ↦ p.1 ++ [p.2] := by
  induction n using children_induction with
  | step n ih =>
    have hbelow : n.children.findSome? (locate offset) =
        ((n.children.flatMap places).find? fun p ↦ p.2.span.stop = offset).map
          fun p ↦ p.1 ++ [p.2] := by
      rw [List.find?_flatMap, List.map_findSome?, ← List.head?_filterMap, ← List.head?_filterMap]
      exact congrArg List.head? (List.filterMap_congr ih)
    have hinner : ((n.children.flatMap places).map fun p ↦ (n :: p.1, p.2)).find?
        (fun p ↦ p.2.span.stop = offset) =
        ((n.children.flatMap places).find? fun p ↦ p.2.span.stop = offset).map
          fun p ↦ (n :: p.1, p.2) :=
      List.find?_map
    rw [locate_eq, hbelow, places_eq, List.find?_append, hinner]
    cases (n.children.flatMap places).find? fun p ↦ p.2.span.stop = offset with
    | some p => rfl
    | none => by_cases hstop : n.span.stop = offset <;> simp [hstop]

theorem exists_place_of_locate (h : n.locate offset = some path) :
    ∃ above target, path = above ++ [target] ∧ target.span.stop = offset ∧
      ∃ earlier later, n.places = earlier ++ (above, target) :: later ∧
        ∀ p ∈ earlier, p.2.span.stop ≠ offset := by
  rw [locate_eq_find?, Option.map_eq_some_iff] at h
  obtain ⟨⟨above, target⟩, hfind, rfl⟩ := h
  obtain ⟨hstop, earlier, later, hplaces, hearlier⟩ := List.find?_eq_some_iff_append.mp hfind
  refine ⟨above, target, rfl, by simpa using hstop, earlier, later, hplaces, fun p hp ↦ ?_⟩
  simpa using hearlier p hp

theorem locate_eq_none_iff : n.locate offset = none ↔ ∀ m ∈ n.postorder, m.span.stop ≠ offset := by
  rw [locate_eq_find?, Option.map_eq_none_iff, List.find?_eq_none, ← map_snd_places,
    List.forall_mem_map]
  simp only [decide_eq_true_eq]

theorem locate_eq_none_below {above : List Node} (h : n.locate offset = some (above ++ [target])) :
    ∀ c ∈ target.children, c.locate offset = none := by
  induction n using children_induction generalizing above with
  | step n ih =>
    rw [locate_eq] at h
    cases hbelow : n.children.findSome? (locate offset) with
    | some inner =>
      obtain ⟨c, hc, hinner⟩ := List.exists_of_findSome?_eq_some hbelow
      obtain ⟨around, found, rfl, -⟩ := exists_place_of_locate hinner
      rw [hbelow, Option.elim_some] at h
      have hpath : n :: around ++ [found] = above ++ [target] := Option.some.inj h
      obtain rfl := List.singleton_inj.mp (List.append_inj' hpath rfl).2
      exact ih c hc hinner
    | none =>
      rw [hbelow, Option.elim_none] at h
      split at h
      · -- the node itself is found, after all its children have been searched in vain
        have hpath : [] ++ [n] = above ++ [target] := Option.some.inj h
        obtain rfl := List.singleton_inj.mp (List.append_inj' hpath rfl).2
        exact List.findSome?_eq_none_iff.mp hbelow
      · cases h

/-- Looking for an offset finds nothing if and only if no node ends there. What it finds is a path
from the root, from node to child, to the first node in post-order that ends there; so no node below
that one does. -/
theorem locate_first_in_postorder (root : Node) (offset : Nat) :
    (root.locate offset = none ↔ ∀ n ∈ root.postorder, n.span.stop ≠ offset) ∧
    ∀ path, root.locate offset = some path →
      path.head? = some root ∧ path.IsChain (fun n c ↦ c ∈ n.children) ∧
      ∃ (above : List Node) (target : Node) (i : Nat),
        path = above ++ [target] ∧ target.span.stop = offset ∧
        root.postorder[i]? = some target ∧ root.places[i]? = some (above, target) ∧
        (∀ j < i, ∀ n : Node, root.postorder[j]? = some n → n.span.stop ≠ offset) ∧
        ∀ c ∈ target.children, ∀ n ∈ c.postorder, n.span.stop ≠ offset := by
  refine ⟨locate_eq_none_iff, fun path hpath ↦ ?_⟩
  obtain ⟨above, target, rfl, hstop, earlier, later, hplaces, hearlier⟩ :=
    exists_place_of_locate hpath
  have hmem : (above, target) ∈ root.places := by simp [hplaces]
  have hpostorder : root.postorder = earlier.map Prod.snd ++ target :: later.map Prod.snd := by
    rw [← map_snd_places, hplaces, List.map_append, List.map_cons]
  obtain ⟨hhead, hchain⟩ := way_of_mem_places hmem
  refine ⟨hhead, hchain, above, target, earlier.length, rfl, hstop, ?_, ?_, ?_, ?_⟩
  · simp [hpostorder]
  · simp [hplaces]
  · intro j hj n hn
    have hlength : j < (earlier.map Prod.snd).length := by rwa [List.length_map]
    rw [hpostorder, List.getElem?_append_left hlength] at hn
    obtain ⟨p, hp, rfl⟩ := List.mem_map.mp (List.mem_of_getElem? hn)
    exact hearlier p hp
  · intro c hc
    exact locate_eq_none_iff.mp (locate_eq_none_below hpath c hc)

end Node

end FlowCompletion
