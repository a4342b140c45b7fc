import FlowCompletion.Proofs.Source.Children

namespace FlowCompletion

theorem foldl_attach_eq {α β : Type} {l : List α} {f : β → {a // a ∈ l} → β} {g : β → α → β}
    (h : ∀ b a, f b a = g b a.1) (b : β) : l.attach.foldl f b = l.foldl g b := by
  have hfun : f = fun b a ↦ g b a.1 := by
    funext b a
    exact h b a
  rw [hfun, List.foldl_attach]

namespace Part

def written : Part → String
  | .text s => s
  | .node form n => n.render form

def writtenAll (ps : List Part) : String := String.join (ps.map written)

def placeAll (start : Nat) : List Part → List Node
  | [] => []
  | .text s :: rest => placeAll (start + s.utf8ByteSize) rest
  | .node form n :: rest =>
    (n.placed form start).1 :: placeAll (start + (n.render form).utf8ByteSize) rest

@[simp] theorem writtenAll_nil : writtenAll [] = "" := String.join_nil

@[simp] theorem writtenAll_cons (p : Part) (ps : List Part) :
    writtenAll (p :: ps) = p.written ++ writtenAll ps := String.join_cons

@[simp] theorem writtenAll_append (ps qs : List Part) :
    writtenAll (ps ++ qs) = writtenAll ps ++ writtenAll qs := by
  rw [writtenAll, List.map_append, String.join_append, writtenAll, writtenAll]

def place (done : List Node × Nat) : Part → List Node × Nat
  | .text s => (done.1, done.2 + s.utf8ByteSize)
  | .node form n => (done.1 ++ [(n.placed form done.2).1], (n.placed form done.2).2)

theorem foldl_place {ps : List Part}
    (h : ∀ form n, Part.node form n ∈ ps → ∀ start,
      (n.placed form start).2 = start + (n.render form).utf8ByteSize)
    (done : List Node) (start : Nat) :
    ps.foldl place (done, start) =
      (done ++ placeAll start ps, start + (writtenAll ps).utf8ByteSize) := by
  induction ps generalizing done start with
  | nil => simp [placeAll]
  | cons p ps ih =>
    have hrest := ih fun form n hn ↦ h form n (List.mem_cons_of_mem _ hn)
    rw [List.foldl_cons, writtenAll_cons, String.utf8ByteSize_append, ← Nat.add_assoc]
    cases p with
    | text s => exact hrest done _
    | node form n =>
      rw [place, h form n List.mem_cons_self, hrest, placeAll, List.append_assoc]
      rfl

end Part

namespace Node

/-- What holds of a node once it holds of the nodes written as its parts, holds of every node. -/
theorem parts_induction {P : Form → Node → Prop}
    (step : ∀ form n, (∀ inner c, Part.node inner c ∈ n.parts form → P inner c) → P form n)
    (form : Form) (n : Node) : P form n := by
  induction hsize : sizeOf n using Nat.strongRecOn generalizing form n with
  | ind size ih =>
    refine step form n fun inner c hc ↦ ?_
    exact ih (sizeOf c) (hsize ▸ sizeOf_lt_of_mem_parts hc) inner c rfl

theorem render_eq (form : Form) (n : Node) : n.render form = Part.writtenAll (n.parts form) := by
  rw [render, Part.writtenAll, ← List.attach_map_val (f := Part.written)]
  congr 1
  refine List.map_congr_left ?_
  rintro ⟨part, h⟩ -
  cases part <;> rfl

theorem placed_eq (form : Form) (start : Nat) (n : Node) :
    n.placed form start =
      (.mk ⟨start, start + (n.render form).utf8ByteSize⟩ n.index
        (n.kind.withChildren (Part.placeAll start (n.parts form))),
       start + (n.render form).utf8ByteSize) := by
  induction form, n using parts_induction generalizing start with
  | step form n ih =>
    have hfold := Part.foldl_place (fun inner c hc start ↦ congrArg Prod.snd (ih inner c hc start))
      [] start
    rw [placed, foldl_attach_eq (g := Part.place) ?_, hfold, render_eq]
    · rfl
    · rintro ⟨done, here⟩ ⟨part, h⟩
      cases part <;> rfl

theorem span_placed (form : Form) (start : Nat) (n : Node) :
    (n.placed form start).1.span = ⟨start, start + (n.render form).utf8ByteSize⟩ := by
  rw [placed_eq, span]

end Node

namespace Part

theorem length_placeAll (start : Nat) (ps : List Part) :
    (placeAll start ps).length = (ps.filterMap node?).length := by
  induction ps generalizing start with
  | nil => rfl
  | cons p ps ih => cases p <;> simp [placeAll, ih]

theorem exists_of_getElem?_placeAll {start i : Nat} {ps : List Part} {c : Node}
    (h : (placeAll start ps)[i]? = some c) :
    ∃ front form n back, ps = front ++ Part.node form n :: back ∧
      (front.filterMap node?).length = i ∧
      c = (n.placed form (start + (writtenAll front).utf8ByteSize)).1 := by
  induction ps generalizing start i with
  | nil => cases h
  | cons p ps ih =>
    cases p with
    | text s =>
      obtain ⟨front, form, n, back, rfl, hi, rfl⟩ := ih h
      refine ⟨.text s :: front, form, n, back, rfl, hi, ?_⟩
      rw [writtenAll_cons, String.utf8ByteSize_append, Nat.add_assoc]
      rfl
    | node form n =>
      cases i with
      | zero =>
        obtain rfl := Option.some.inj h
        exact ⟨[], form, n, ps, rfl, rfl, by simp⟩
      | succ i =>
        obtain ⟨front, inner, m, back, rfl, hi, rfl⟩ := ih h
        refine ⟨.node form n :: front, inner, m, back, rfl, by simp [hi], ?_⟩
        rw [writtenAll_cons, String.utf8ByteSize_append, Nat.add_assoc]
        rfl

theorem placeAll_map {f : Node → Node} {ps : List Part}
    (h : ∀ form n, Part.node form n ∈ ps → (f n).render form = n.render form ∧
      ∀ start, (f n).placed form start = n.placed form start) (start : Nat) :
    placeAll start (ps.map (map f)) = placeAll start ps := by
  induction ps generalizing start with
  | nil => rfl
  | cons p ps ih =>
    have hrest := ih fun form n hn ↦ h form n (List.mem_cons_of_mem _ hn)
    cases p with
    | text s => exact hrest _
    | node form n =>
      obtain ⟨hrender, hplaced⟩ := h form n List.mem_cons_self
      rw [List.map_cons, map_node, placeAll, placeAll, hrender, hplaced, hrest]

theorem map_placeAll {α : Type} {g : Node → α} {ps : List Part}
    (h : ∀ form n, Part.node form n ∈ ps → ∀ start, g (n.placed form start).1 = g n)
    (start : Nat) : (placeAll start ps).map g = (ps.filterMap node?).map g := by
  induction ps generalizing start with
  | nil => rfl
  | cons p ps ih =>
    have hrest := ih fun form n hn ↦ h form n (List.mem_cons_of_mem _ hn)
    cases p with
    | text s => exact hrest _
    | node form n =>
      rw [placeAll, filterMap_node, List.map_cons, List.map_cons, h form n List.mem_cons_self,
        hrest]

end Part

namespace Node

theorem length_placeAll_parts (form : Form) (start : Nat) (n : Node) :
    (Part.placeAll start (n.parts form)).length = n.kind.subnodes.length := by
  rw [Part.length_placeAll, filterMap_parts, children_eq_subnodes]

theorem children_placed (form : Form) (start : Nat) (n : Node) :
    (n.placed form start).1.children = Part.placeAll start (n.parts form) := by
  rw [placed_eq, children_eq_subnodes, kind,
    NodeKind.subnodes_withChildren (length_placeAll_parts form start n)]

theorem render_unplaced (form : Form) (n : Node) : n.unplaced.render form = n.render form := by
  induction form, n using parts_induction with
  | step form n ih =>
    rw [render_eq, render_eq, parts_unplaced, Part.writtenAll, Part.writtenAll, List.map_map]
    congr 1
    refine List.map_congr_left fun p hp ↦ ?_
    cases p with
    | text s => rfl
    | node inner c => exact ih inner c hp

theorem placed_unplaced (form : Form) (start : Nat) (n : Node) :
    n.unplaced.placed form start = n.placed form start := by
  induction form, n using parts_induction generalizing start with
  | step form n ih =>
    have hchildren : Part.placeAll start (n.unplaced.parts form) =
        Part.placeAll start (n.parts form) := by
      rw [parts_unplaced]
      exact Part.placeAll_map (fun inner c hc ↦ ⟨render_unplaced inner c, ih inner c hc⟩) start
    rw [placed_eq, placed_eq, render_unplaced, hchildren, unplaced_eq, kind, index,
      NodeKind.withChildren_withChildren (List.length_map _) (length_placeAll_parts form start n)]

theorem unplaced_placed (form : Form) (start : Nat) (n : Node) :
    (n.placed form start).1.unplaced = n.unplaced := by
  induction form, n using parts_induction generalizing start with
  | step form n ih =>
    have hchildren : (n.placed form start).1.kind.subnodes.map unplaced =
        n.kind.subnodes.map unplaced := by
      rw [← children_eq_subnodes, children_placed, Part.map_placeAll ih, filterMap_parts,
        children_eq_subnodes]
    rw [unplaced_eq, hchildren, placed_eq, kind, index, unplaced_eq,
      NodeKind.withChildren_withChildren (length_placeAll_parts form start n) (List.length_map _)]

theorem layout_eq_of_unplaced {n m : Node} (h : m.unplaced = n.unplaced) :
    m.layout = n.layout := by
  rw [layout, layout, ← render_unplaced, ← placed_unplaced, h, render_unplaced, placed_unplaced]

theorem unplaced_layout (n : Node) : n.layout.2.unplaced = n.unplaced := unplaced_placed .whole 0 n

theorem mem_preorder {n m : Node} : m ∈ n.preorder ↔ m = n ∨ ∃ c ∈ n.children, m ∈ c.preorder := by
  rw [preorder, List.mem_cons, List.mem_flatMap]
  refine or_congr_right ⟨?_, ?_⟩
  · rintro ⟨⟨c, hc⟩, -, hm⟩
    exact ⟨c, hc, hm⟩
  · rintro ⟨c, hc, hm⟩
    exact ⟨⟨c, hc⟩, List.mem_attach _ _, hm⟩

theorem exists_placed_of_mem_preorder {form : Form} {start : Nat} {n m : Node}
    (h : m ∈ (n.placed form start).1.preorder) :
    ∃ (before after : String) (inner : Form) (k : Node),
      n.render form = before ++ k.render inner ++ after ∧
        m = (k.placed inner (start + before.utf8ByteSize)).1 := by
  induction form, n using parts_induction generalizing start with
  | step form n ih =>
    rcases mem_preorder.mp h with rfl | ⟨c, hc, hm⟩
    · exact ⟨"", "", form, n, by simp, by simp⟩
    · rw [children_placed] at hc
      obtain ⟨i, hi⟩ := List.getElem?_of_mem hc
      obtain ⟨front, inner, k, back, hparts, -, rfl⟩ := Part.exists_of_getElem?_placeAll hi
      have hk : Part.node inner k ∈ n.parts form := by
        rw [hparts]
        exact List.mem_append_right _ List.mem_cons_self
      obtain ⟨before, after, inner', k', hrender, rfl⟩ := ih inner k hk hm
      refine ⟨Part.writtenAll front ++ before, after ++ Part.writtenAll back, inner', k', ?_, ?_⟩
      · rw [render_eq, hparts, Part.writtenAll_append, Part.writtenAll_cons, Part.written, hrender]
        simp only [String.append_assoc]
      · rw [String.utf8ByteSize_append, Nat.add_assoc]

end Node

namespace Part

theorem span_of_mem_placeAll {start : Nat} {ps : List Part} {c : Node}
    (h : c ∈ placeAll start ps) :
    start ≤ c.span.start ∧ c.span.start ≤ c.span.stop ∧
      c.span.stop ≤ start + (writtenAll ps).utf8ByteSize := by
  obtain ⟨i, hi⟩ := List.getElem?_of_mem h
  obtain ⟨front, form, n, back, rfl, -, rfl⟩ := exists_of_getElem?_placeAll hi
  rw [Node.span_placed, writtenAll_append, writtenAll_cons, written, String.utf8ByteSize_append,
    String.utf8ByteSize_append]
  dsimp only
  omega

theorem pairwise_placeAll (start : Nat) (ps : List Part) :
    (placeAll start ps).Pairwise fun c d ↦ c.span.stop ≤ d.span.start := by
  induction ps generalizing start with
  | nil => exact .nil
  | cons p ps ih =>
    cases p with
    | text s => exact ih _
    | node form n =>
      refine List.pairwise_cons.mpr ⟨fun d hd ↦ ?_, ih _⟩
      rw [Node.span_placed]
      exact (span_of_mem_placeAll hd).1

end Part

namespace Node

/-- The children are all the nodes that the node holds, and their places lie inside its own, one
after another. -/
structure Nested (n : Node) : Prop where
  complete : n.children = n.kind.subnodes
  inside : ∀ c ∈ n.children,
    n.span.start ≤ c.span.start ∧ c.span.start ≤ c.span.stop ∧ c.span.stop ≤ n.span.stop
  ordered : n.children.IsChain fun c d ↦ c.span.stop ≤ d.span.start

theorem nested_placed (form : Form) (start : Nat) (n : Node) :
    (n.placed form start).1.Nested where
  complete := children_eq_subnodes _
  inside c hc := by
    rw [children_placed] at hc
    rw [span_placed, render_eq]
    exact Part.span_of_mem_placeAll hc
  ordered := by
    rw [children_placed]
    exact (Part.pairwise_placeAll start _).isChain

/-- A layout is the same tree with a place for every node: the whole text for the root, and places
inside its own, one after another, for the children of a node. The places given make no
difference. -/
theorem layout_places (n : Node) :
    n.layout.2.unplaced = n.unplaced ∧
      n.layout.2.span = ⟨0, n.layout.1.utf8ByteSize⟩ ∧
      (∀ m ∈ n.layout.2.preorder, m.Nested) ∧
      (∀ other : Node, other.unplaced = n.unplaced → other.layout = n.layout) ∧
      n.layout.2.layout = n.layout := by
  refine ⟨unplaced_layout n, ?_, fun m hm ↦ ?_, fun other ↦ layout_eq_of_unplaced,
    layout_eq_of_unplaced (unplaced_layout n)⟩
  · rw [layout, span_placed, Nat.zero_add]
  · obtain ⟨before, after, inner, k, -, rfl⟩ := exists_placed_of_mem_preorder hm
    exact nested_placed _ _ _

end Node

end FlowCompletion
