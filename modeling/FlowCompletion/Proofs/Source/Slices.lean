import FlowCompletion.Proofs.Source.Layout

namespace FlowCompletion

/-- The text at a place; `none` where that is not between characters. -/
def Span.slice? (span : Span) (text : String) : Option String :=
  String.fromUTF8? (text.toUTF8.extract span.start span.stop)

theorem Span.slice?_append (before s after : String) :
    Span.slice? ⟨before.utf8ByteSize, before.utf8ByteSize + s.utf8ByteSize⟩ (before ++ s ++ after) =
      some s := by
  have hbytes : (before ++ s ++ after).toUTF8.extract before.utf8ByteSize
      (before.utf8ByteSize + s.utf8ByteSize) = s.toByteArray := by
    rw [String.toUTF8_eq_toByteArray, String.append_assoc, String.toByteArray_append,
      String.toByteArray_append]
    calc
      _ = (s.toByteArray ++ after.toByteArray).extract 0 s.utf8ByteSize :=
        ByteArray.extract_append_size_add' String.size_toByteArray.symm
      _ = s.toByteArray := ByteArray.extract_append_eq_left String.size_toByteArray.symm
  rw [slice?, hbytes, String.fromUTF8?, dif_pos s.isValidUTF8]
  rfl

def Node.isString (n : Node) : Bool :=
  match n.kind with
  | .string _ _ => true
  | _ => false

namespace Part

def AllWhole (ps : List Part) : Prop := ∀ form n, Part.node form n ∈ ps → form = .whole

@[simp] theorem allWhole_nil : AllWhole [] := by simp [AllWhole]

@[simp] theorem allWhole_text (s : String) (ps : List Part) :
    AllWhole (.text s :: ps) ↔ AllWhole ps := by
  simp [AllWhole]

@[simp] theorem allWhole_whole (n : Node) (ps : List Part) :
    AllWhole (whole n :: ps) ↔ AllWhole ps := by
  simp +contextual [AllWhole, whole, or_imp]

@[simp] theorem allWhole_append (ps qs : List Part) :
    AllWhole (ps ++ qs) ↔ AllWhole ps ∧ AllWhole qs := by
  simp [AllWhole, or_imp, forall_and]

@[simp] theorem allWhole_map_whole (ns : List Node) : AllWhole (ns.map whole) := by
  induction ns with
  | nil => exact allWhole_nil
  | cons n ns ih => exact (allWhole_whole n _).mpr ih

@[simp] theorem allWhole_optional (n : Option Node) : AllWhole (optional n) :=
  allWhole_map_whole n.toList

@[simp] theorem allWhole_body (n : Option Node) : AllWhole (body n) := by
  cases n <;> simp [body]

@[simp] theorem allWhole_keyword (word opening closing : String) (n : Option Node) :
    AllWhole (keyword word opening closing n) := by
  cases n <;> simp [keyword]

@[simp] theorem allWhole_separated (separator : String) (ns : List Node) :
    AllWhole (separated separator ns) := by
  induction ns with
  | nil => exact allWhole_nil
  | cons n rest ih =>
    cases rest with
    | nil => simp [separated]
    | cons m rest => simpa [separated] using ih

theorem allWhole_call (receiver : Option Node) (operator : Option CallOperator) (name : String)
    (arguments block : Option Node) (parenthesized : Bool) :
    AllWhole (call receiver operator name arguments block parenthesized) := by
  have hif (c : Prop) [Decidable c] (ps qs : List Part) (hps : AllWhole ps) (hqs : AllWhole qs) :
      AllWhole (if c then ps else qs) := by
    split
    · exact hps
    · exact hqs
  cases receiver <;> simp [call, hif]

theorem allWhole_ofKind {kind : NodeKind}
    (hinterpolated : ∀ quoting ns, kind ≠ .interpolated quoting ns)
    (hif : ∀ predicate body subsequent, kind ≠ .ifThen predicate body subsequent) :
    AllWhole (ofKind kind) := by
  cases kind with
  | interpolated quoting ns => exact absurd rfl (hinterpolated quoting ns)
  | ifThen predicate body subsequent => exact absurd rfl (hif predicate body subsequent)
  | call receiver operator name arguments block parenthesized =>
    exact allWhole_call receiver operator name arguments block parenthesized
  | jump jump value => cases jump <;> exact allWhole_keyword _ _ _ _
  | caseOf subject conditions contrary => cases subject <;> simp [ofKind]
  | beginBlock body handler contrary ensure => cases ensure <;> simp [ofKind]
  | rescue exceptions reference body subsequent => cases reference <;> simp [ofKind]
  | methodDef name receiver params body => cases receiver <;> simp [ofKind]
  | classDef path superclass body => cases superclass <;> simp [ofKind]
  | _ => simp [ofKind]

theorem form_of_mem_interpolated {form : Form} {n : Node} {ns : List Node}
    (h : Part.node form n ∈ interpolated ns) : form = if n.isString then .bare else .whole := by
  obtain ⟨m, -, hm⟩ := List.mem_flatMap.mp h
  cases hkind : m.kind <;> simp only [hkind, whole, List.mem_cons, List.not_mem_nil, or_false,
    reduceCtorEq, false_or, node.injEq] at hm <;> obtain ⟨rfl, rfl⟩ := hm <;>
    simp [Node.isString, hkind]

theorem mem_ofKind_interpolated {form : Form} {n : Node} {quoting : Quoting} {ns : List Node}
    (h : Part.node form n ∈ ofKind (.interpolated quoting ns)) :
    Part.node form n ∈ interpolated ns := by
  cases quoting <;> simpa [ofKind] using h

theorem form_of_ifClause {word : String} {predicate c : Node} {statements subsequent : Option Node}
    {tail front back : List Part} {form : Form} (htail : tail.filterMap node? = [])
    (h : ifClause word predicate statements subsequent ++ tail =
      front ++ Part.node form c :: back) :
    form = .whole ∨ c.isIf ∧ subsequent = some c ∧ back = tail := by
  have hwhole :
      AllWhole ([.text (word ++ " "), whole predicate, .text "\n"] ++ body statements) := by
    simp
  have hmem : Part.node form c ∉ tail := by
    intro hc
    have hnode : c ∈ tail.filterMap node? := List.mem_filterMap.mpr ⟨_, hc, rfl⟩
    rw [htail] at hnode
    cases hnode
  simp only [ifClause] at h
  generalize [.text (word ++ " "), whole predicate, .text "\n"] ++ body statements = leading
    at h hwhole
  cases subsequent with
  | none =>
    have hc : Part.node form c ∈ leading ++ tail := by
      rw [← leading.append_nil, h]
      exact List.mem_append_right _ List.mem_cons_self
    exact .inl (hwhole form c ((List.mem_append.mp hc).resolve_right hmem))
  | some n =>
    have hlast (h : Part.node (if n.isIf then .elsif else .whole) n :: tail =
        Part.node form c :: back) : form = .whole ∨ c.isIf ∧ some n = some c ∧ back = tail := by
      obtain ⟨hpart, rfl⟩ := List.cons.inj h
      obtain ⟨hform, rfl⟩ := Part.node.inj hpart
      split at hform
      case isTrue hif => exact .inr ⟨hif, rfl, rfl⟩
      case isFalse => exact .inl hform.symm
    rw [List.append_assoc] at h
    -- the node stands before the one that follows, is that one, or would stand after it
    rcases List.append_eq_append_iff.mp h with ⟨rest, rfl, hrest⟩ | ⟨rest, rfl, hrest⟩
    · cases rest with
      | nil => exact hlast hrest
      | cons p rest =>
        obtain ⟨-, rfl⟩ := List.cons.inj hrest
        exact absurd (List.mem_append_right _ List.mem_cons_self) hmem
    · cases rest with
      | nil => exact hlast hrest.symm
      | cons p rest =>
        obtain ⟨rfl, -⟩ := List.cons.inj hrest
        exact .inl (hwhole form c (List.mem_append_right _ List.mem_cons_self))

end Part

namespace Node

/-- Whether a node writes the child at a position in a form that is not the child's own: a text
inside an interpolation, and a condition that follows this one. -/
def Abridges (n : Node) (i : Nat) (c : Node) : Prop :=
  match n.kind with
  | .interpolated _ _ => c.isString
  | .ifThen _ _ (some _) => c.isIf ∧ i + 1 = n.children.length
  | _ => False

theorem form_eq_whole {n c : Node} {outer inner : Form} {front back : List Part}
    (h : n.parts outer = front ++ Part.node inner c :: back)
    (hown : ¬ n.Abridges (front.filterMap Part.node?).length c) : inner = .whole := by
  have hmem : Part.node inner c ∈ n.parts outer := by
    rw [h]
    exact List.mem_append_right _ List.mem_cons_self
  have hif (word : String) (tail : List Part) (htail : tail.filterMap Part.node? = [])
      {predicate : Node} {body subsequent : Option Node}
      (hkind : n.kind = .ifThen predicate body subsequent)
      (hparts : n.parts outer = Part.ifClause word predicate body subsequent ++ tail) :
      inner = .whole := by
    refine (Part.form_of_ifClause htail (hparts ▸ h)).resolve_right ?_
    rintro ⟨hc, rfl, rfl⟩
    refine hown ?_
    rw [Abridges, hkind]
    refine ⟨hc, ?_⟩
    rw [← filterMap_parts outer, h]
    simp [htail]
  obtain hparts | ⟨predicate, body, subsequent, hkind, hparts⟩ | ⟨content, closed, -, hparts⟩ :=
    n.parts_cases outer
  · rw [hparts] at hmem
    cases hkind : n.kind with
    | interpolated quoting ns =>
      have hc : ¬ c.isString := by
        simpa [Abridges, hkind] using hown
      rw [hkind] at hmem
      rw [Part.form_of_mem_interpolated (Part.mem_ofKind_interpolated hmem), if_neg hc]
    | ifThen predicate body subsequent =>
      exact hif "if" [.text "end"] rfl hkind (by rw [hparts, hkind, Part.ofKind])
    | _ => exact Part.allWhole_ofKind (by simp [hkind]) (by simp [hkind]) inner c hmem
  · exact hif "elsif" [] rfl hkind (by rw [hparts, List.append_nil])
  · rw [hparts] at hmem
    cases List.mem_singleton.mp hmem

theorem form_eq_bare {n c : Node} {outer inner : Form} {front back : List Part} {quoting : Quoting}
    {ns : List Node} (h : n.parts outer = front ++ Part.node inner c :: back)
    (hkind : n.kind = .interpolated quoting ns) (hc : c.isString) : inner = .bare := by
  have hmem : Part.node inner c ∈ Part.ofKind (.interpolated quoting ns) := by
    obtain hparts | ⟨_, _, _, hif, -⟩ | ⟨_, _, hstring, -⟩ := n.parts_cases outer
    · rw [← hkind, ← hparts, h]
      exact List.mem_append_right _ List.mem_cons_self
    · cases hkind.symm.trans hif
    · cases hkind.symm.trans hstring
  rw [Part.form_of_mem_interpolated (Part.mem_ofKind_interpolated hmem), if_pos hc]

theorem isString_unplaced (n : Node) : n.unplaced.isString = n.isString := by
  obtain ⟨news, h⟩ := keepsKinds_unplaced n
  rw [isString, isString, h]
  cases n.kind <;> rfl

theorem abridges_unplaced (n c : Node) (i : Nat) :
    n.unplaced.Abridges i c.unplaced ↔ n.Abridges i c := by
  have hlength : n.unplaced.children.length = n.children.length := by
    rw [children_eq_subnodes, unplaced_eq, kind,
      NodeKind.subnodes_withChildren (List.length_map _), List.length_map, children_eq_subnodes]
  rw [Abridges, Abridges, hlength, isString_unplaced, keepsKinds_unplaced.isIf, unplaced_eq, kind]
  cases n.kind with
  | ifThen predicate body subsequent => cases body <;> cases subsequent <;> rfl
  | _ => rfl

theorem abridges_congr {n m c d : Node} (hn : n.unplaced = m.unplaced)
    (hc : c.unplaced = d.unplaced) (i : Nat) : n.Abridges i c ↔ m.Abridges i d := by
  rw [← abridges_unplaced, hn, hc, abridges_unplaced]

theorem exists_slice_of_child {before : String} (after : String) {outer : Form} {n c : Node}
    {i : Nat} (h : (n.placed outer before.utf8ByteSize).1.children[i]? = some c) :
    ∃ front inner k back, n.parts outer = front ++ Part.node inner k :: back ∧
      (front.filterMap Part.node?).length = i ∧ c.unplaced = k.unplaced ∧
      c.span.slice? (before ++ n.render outer ++ after) = some (c.render inner) := by
  rw [children_placed] at h
  obtain ⟨front, inner, k, back, hparts, hi, rfl⟩ := Part.exists_of_getElem?_placeAll h
  refine ⟨front, inner, k, back, hparts, hi, unplaced_placed _ _ _, ?_⟩
  have htext : before ++ n.render outer ++ after =
      before ++ Part.writtenAll front ++ k.render inner ++ (Part.writtenAll back ++ after) := by
    rw [render_eq, hparts, Part.writtenAll_append, Part.writtenAll_cons, Part.written]
    simp only [String.append_assoc]
  rw [htext, span_placed, ← String.utf8ByteSize_append, Span.slice?_append, ← render_unplaced,
    ← unplaced_placed, render_unplaced]

theorem exists_interpolated {kind : NodeKind} {news parts : List Node} {quoting : Quoting}
    (h : kind.withChildren news = .interpolated quoting parts) :
    ∃ ns, kind = .interpolated quoting ns := by
  cases kind with
  | interpolated quoting ns =>
    cases h
    exact ⟨ns, rfl⟩
  | _ => cases h

theorem render_bare {n : Node} {content : String} {closed : Bool}
    (h : n.kind = .string content closed) : n.render .bare = content := by
  have hparts : n.parts .bare = [.text content] := by
    obtain ⟨span, index, kind⟩ := n
    obtain rfl : kind = .string content closed := h
    rfl
  rw [render_eq, hparts]
  simp [Part.written]

/-- Every node covers the text that it has when laid out alone, unless its parent abridges it. A
text inside an interpolation covers its content. -/
theorem layout_compositional (n : Node) :
    n.layout.2.span.slice? n.layout.1 = some n.layout.2.layout.1 ∧
      ∀ m ∈ n.layout.2.preorder,
        (∀ i c, m.children[i]? = some c → ¬ m.Abridges i c →
          c.span.slice? n.layout.1 = some c.layout.1) ∧
        ∀ quoting parts, m.kind = .interpolated quoting parts → ∀ c ∈ parts,
          ∀ content closed, c.kind = .string content closed →
            c.span.slice? n.layout.1 = some content := by
  refine ⟨?_, fun m hm ↦ ?_⟩
  · rw [layout_eq_of_unplaced (unplaced_layout n), layout, span_placed]
    simpa using Span.slice?_append "" (n.render .whole) ""
  obtain ⟨before, after, outer, k, htext, rfl⟩ := exists_placed_of_mem_preorder hm
  rw [Nat.zero_add]
  constructor
  · intro i c hc hown
    obtain ⟨front, inner, d, back, hparts, rfl, hd, hslice⟩ :=
      exists_slice_of_child after hc
    rw [abridges_congr (unplaced_placed _ _ _) hd] at hown
    obtain rfl := form_eq_whole hparts hown
    rw [layout, htext, hslice, layout]
  · intro quoting parts hkind c hc content closed hcontent
    have hchild : c ∈ (k.placed outer before.utf8ByteSize).1.children := by
      rw [children_eq_subnodes, hkind]
      exact hc
    obtain ⟨i, hi⟩ := List.getElem?_of_mem hchild
    obtain ⟨front, inner, d, back, hparts, -, hd, hslice⟩ :=
      exists_slice_of_child after hi
    rw [placed_eq, Node.kind] at hkind
    obtain ⟨ns, hk⟩ := exists_interpolated hkind
    have hstring : d.isString := by
      rw [← isString_unplaced, ← hd, isString_unplaced, isString, hcontent]
    obtain rfl := form_eq_bare hparts hk hstring
    rw [layout, htext, hslice, render_bare hcontent]

def greeting : Node :=
  .mk {} 2 (.interpolated .string [.mk {} 3 (.string "é" true), .mk {} 4 (.integer 7)])

def greetings : Node :=
  .mk {} 0 (.ifThen (.mk {} 1 (.bool true)) (some greeting)
    (some (.mk {} 5 (.ifThen (.mk {} 6 .nil) none none))))

theorem layout_compositional_greetings :
    ∃ m parts, m ∈ greetings.layout.2.preorder ∧ m.kind = .interpolated .string parts ∧
      greetings.layout.2.children[1]? = some m ∧ ¬ greetings.layout.2.Abridges 1 m ∧
      m.span.slice? greetings.layout.1 = some m.layout.1 ∧
      ∃ c ∈ parts, c.kind = .string "é" true ∧ c.span.slice? greetings.layout.1 = some "é" := by
  obtain ⟨start, hm⟩ : ∃ start,
      greetings.layout.2.children[1]? = some (greeting.placed .whole start).1 := by
    rw [layout, children_placed]
    exact ⟨_, rfl⟩
  obtain ⟨parts, hkind, c, hc, hstring⟩ : ∃ parts,
      (greeting.placed .whole start).1.kind = .interpolated .string parts ∧
        ∃ c ∈ parts, c.kind = .string "é" true := by
    rw [placed_eq]
    refine ⟨_, rfl, _, List.mem_cons_self, ?_⟩
    rw [placed_eq]
    rfl
  have hwhole : ¬ greetings.layout.2.Abridges 1 (greeting.placed .whole start).1 := by
    rw [layout, placed_eq, placed_eq]
    rintro ⟨h, -⟩
    cases h
  have hmem : (greeting.placed .whole start).1 ∈ greetings.layout.2.preorder :=
    mem_preorder.mpr (.inr ⟨_, List.mem_of_getElem? hm, mem_preorder.mpr (.inl rfl)⟩)
  obtain ⟨-, hall⟩ := layout_compositional greetings
  refine ⟨_, parts, hmem, hkind, hm, hwhole, ?_, c, hc, hstring, ?_⟩
  · exact (hall _ (mem_preorder.mpr (.inl rfl))).1 1 _ hm hwhole
  · exact (hall _ hmem).2 _ parts hkind c hc _ _ hstring

end Node

end FlowCompletion
