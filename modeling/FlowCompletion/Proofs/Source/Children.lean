import FlowCompletion.Proofs.Source.Names

namespace FlowCompletion

section

variable {σ α β : Type}

theorem bind_apply (x : StateM σ α) (f : α → StateM σ β) (s : σ) :
    (x >>= f) s = f (x s).1 (x s).2 := rfl

theorem pure_apply (a : α) (s : σ) : (pure a : StateM σ α) s = (a, s) := rfl

theorem map_apply (f : α → β) (x : StateM σ α) (s : σ) : (f <$> x) s = (f (x s).1, (x s).2) := rfl

end

/-- Filling a value puts nodes in the place of those that it holds, and changes nothing else. -/
structure Refills {α : Type} (held : α → List Node) (fill : α → StateM (List Node) α) (a : α) :
    Prop where
  exchange {news : List Node} (h : news.length = (held a).length) :
    ∃ b, held b = news ∧ (∀ rest, fill a (news ++ rest) = (b, rest)) ∧
      ∀ others : List Node, others.length = news.length →
        ∀ rest, fill b (others ++ rest) = fill a (others ++ rest)

namespace Refills

theorem node (n : Node) : Refills (fun n ↦ [n]) nextChild n where
  exchange h := by
    obtain ⟨c, rfl⟩ := List.length_eq_one_iff.mp h
    refine ⟨c, rfl, fun _ ↦ rfl, fun others hothers rest ↦ ?_⟩
    obtain ⟨d, rfl⟩ := List.length_eq_one_iff.mp hothers
    rfl

theorem option (n : Option Node) : Refills Option.toList nextChild? n where
  exchange {news} h := by
    cases n with
    | none =>
      obtain rfl := List.length_eq_zero_iff.mp h
      exact ⟨none, rfl, fun _ ↦ rfl, fun _ _ _ ↦ rfl⟩
    | some n =>
      obtain ⟨c, rfl⟩ := List.length_eq_one_iff.mp h
      refine ⟨some c, rfl, fun _ ↦ rfl, fun others hothers rest ↦ ?_⟩
      obtain ⟨d, rfl⟩ := List.length_eq_one_iff.mp hothers
      rfl

variable {α β : Type} {held : α → List Node} {fill : α → StateM (List Node) α} {a : α}
  {held' : β → List Node} {fill' : β → StateM (List Node) β} {b : β}

theorem prod (h : Refills held fill a) (h' : Refills held' fill' b) :
    Refills (fun p : α × β ↦ held p.1 ++ held' p.2) (fun p ↦ do return (← fill p.1, ← fill' p.2))
      (a, b) where
  exchange {news} hnews := by
    simp only [List.length_append] at hnews
    have hsplit {l : List Node} (hl : l.length = news.length) :
        ∃ front back, l = front ++ back ∧ front.length = (held a).length ∧
          back.length = (held' b).length := by
      refine ⟨_, _, (List.take_append_drop (held a).length l).symm, ?_, ?_⟩
      · rw [List.length_take]
        omega
      · rw [List.length_drop]
        omega
    obtain ⟨front, back, rfl, hfront, hback⟩ := hsplit rfl
    obtain ⟨a', hheld, hfill, hagain⟩ := h.exchange hfront
    obtain ⟨b', hheld', hfill', hagain'⟩ := h'.exchange hback
    refine ⟨(a', b'), by rw [hheld, hheld'], fun rest ↦ ?_, fun others hothers rest ↦ ?_⟩
    · simp only [bind_apply, pure_apply, List.append_assoc, hfill, hfill']
    · obtain ⟨front', back', rfl, hfront', hback'⟩ := hsplit hothers
      obtain ⟨_, -, hfilled, -⟩ := h.exchange hfront'
      simp only [bind_apply, pure_apply, List.append_assoc,
        hagain _ (hfront'.trans hfront.symm), hfilled, hagain' _ (hback'.trans hback.symm)]

theorem map (h : Refills held fill a) {K : α → β} (hheld : ∀ a, held' (K a) = held a)
    (hfill : ∀ a, fill' (K a) = K <$> fill a) : Refills held' fill' (K a) where
  exchange {news} hnews := by
    rw [hheld] at hnews
    obtain ⟨a', ha', hfilled, hagain⟩ := h.exchange hnews
    refine ⟨K a', by rw [hheld, ha'], fun rest ↦ ?_, fun others hothers rest ↦ ?_⟩
    · simp only [hfill, map_apply, hfilled]
    · simp only [hfill, map_apply, hagain others hothers]

theorem list (ns : List Node) : Refills id nextChildren ns := by
  induction ns with
  | nil =>
    refine ⟨fun h ↦ ?_⟩
    obtain rfl := List.length_eq_zero_iff.mp h
    exact ⟨[], rfl, fun _ ↦ rfl, fun _ _ _ ↦ rfl⟩
  | cons n ns ih => exact ((node n).prod ih).map (K := fun p ↦ p.1 :: p.2) (fun _ ↦ rfl) fun _ ↦ rfl

variable {γ δ : Type} {held₁ : γ → List Node} {fill₁ : γ → StateM (List Node) γ} {c : γ}
  {held₂ : δ → List Node} {fill₂ : δ → StateM (List Node) δ} {d : δ}

open NodeKind

theorem ofNone {kind : NodeKind} (hheld : kind.subnodes = []) (hfill : kind.refill = pure kind) :
    Refills subnodes refill kind where
  exchange h := by
    rw [hheld] at h
    obtain rfl := List.length_eq_zero_iff.mp h
    refine ⟨kind, hheld, fun rest ↦ ?_, fun _ _ _ ↦ rfl⟩
    rw [hfill]
    rfl

theorem ofOne (h : Refills held fill a) {K : α → NodeKind} (hheld : ∀ a, (K a).subnodes = held a)
    (hfill : ∀ a, (K a).refill = do return K (← fill a)) : Refills subnodes refill (K a) :=
  h.map hheld hfill

theorem ofTwo (h : Refills held fill a) (h' : Refills held' fill' b) {K : α → β → NodeKind}
    (hheld : ∀ a b, (K a b).subnodes = held a ++ held' b)
    (hfill : ∀ a b, (K a b).refill = do return K (← fill a) (← fill' b)) :
    Refills subnodes refill (K a b) :=
  (h.prod h').map (K := fun p ↦ K p.1 p.2) (fun _ ↦ hheld _ _) fun _ ↦ hfill _ _

theorem ofThree (h : Refills held fill a) (h' : Refills held' fill' b) (h₁ : Refills held₁ fill₁ c)
    {K : α → β → γ → NodeKind}
    (hheld : ∀ a b c, (K a b c).subnodes = held a ++ held' b ++ held₁ c)
    (hfill : ∀ a b c, (K a b c).refill = do return K (← fill a) (← fill' b) (← fill₁ c)) :
    Refills subnodes refill (K a b c) :=
  ((h.prod h').prod h₁).map (K := fun p ↦ K p.1.1 p.1.2 p.2) (fun _ ↦ hheld _ _ _) fun _ ↦
    hfill _ _ _

theorem ofFour (h : Refills held fill a) (h' : Refills held' fill' b) (h₁ : Refills held₁ fill₁ c)
    (h₂ : Refills held₂ fill₂ d) {K : α → β → γ → δ → NodeKind}
    (hheld : ∀ a b c d, (K a b c d).subnodes = held a ++ held' b ++ held₁ c ++ held₂ d)
    (hfill : ∀ a b c d, (K a b c d).refill =
      do return K (← fill a) (← fill' b) (← fill₁ c) (← fill₂ d)) :
    Refills subnodes refill (K a b c d) :=
  (((h.prod h').prod h₁).prod h₂).map (K := fun p ↦ K p.1.1.1 p.1.1.2 p.1.2 p.2)
    (fun _ ↦ hheld _ _ _ _) fun _ ↦ hfill _ _ _ _

end Refills

namespace NodeKind

theorem refills (kind : NodeKind) : Refills subnodes refill kind := by
  cases kind with
  | program a | varWrite _ _ a | varOpWrite _ _ _ a | varOrWrite _ _ a | varAndWrite _ _ a
  | constWrite _ a | defined a => exact .ofOne (.node a) (fun _ ↦ rfl) fun _ ↦ rfl
  | statements ns | interpolated _ ns | array ns | hash ns | arguments ns | keywordHash ns =>
    exact .ofOne (.list ns) (fun _ ↦ rfl) fun _ ↦ rfl
  | parentheses a | assocSplat a | splat a | blockArgument a | block _ a | lambda _ a | otherwise a
  | jump _ a | yield a | super a => exact .ofOne (.option a) (fun _ ↦ rfl) fun _ ↦ rfl
  | constPath a name =>
    exact .ofOne (K := (.constPath · name)) (.option a) (fun _ ↦ rfl) fun _ ↦ rfl
  | assoc a b | and a b | or a b | rescueModifier a b =>
    exact .ofTwo (.node a) (.node b) (fun _ _ ↦ rfl) fun _ _ ↦ rfl
  | range a b exclusive =>
    exact .ofTwo (K := (.range · · exclusive)) (.option a) (.option b) (fun _ _ ↦ rfl) fun _ _ ↦ rfl
  | methodDef name a params b =>
    exact .ofTwo (K := (.methodDef name · params ·)) (.option a) (.option b) (fun _ _ ↦ rfl)
      fun _ _ ↦ rfl
  | whileLoop a b | untilLoop a b | moduleDef a b =>
    exact .ofTwo (.node a) (.option b) (fun _ _ ↦ rfl) fun _ _ ↦ rfl
  | whenClause ns a => exact .ofTwo (.list ns) (.option a) (fun _ _ ↦ rfl) fun _ _ ↦ rfl
  | multiWrite ns a => exact .ofTwo (.list ns) (.node a) (fun _ _ ↦ rfl) fun _ _ ↦ rfl
  | call a operator name b c parenthesized =>
    exact .ofThree (K := (.call · operator name · · parenthesized)) (.option a) (.option b)
      (.option c) (fun _ _ _ ↦ rfl) fun _ _ _ ↦ rfl
  | ifThen a b c | unlessThen a b c | classDef a b c =>
    exact .ofThree (.node a) (.option b) (.option c) (fun _ _ _ ↦ rfl) fun _ _ _ ↦ rfl
  | forLoop a b c =>
    exact .ofThree (.node a) (.node b) (.option c) (fun _ _ _ ↦ rfl) fun _ _ _ ↦ rfl
  | caseOf a ns b =>
    exact .ofThree (.option a) (.list ns) (.option b) (fun _ _ _ ↦ rfl) fun _ _ _ ↦ rfl
  | beginBlock a b c d =>
    exact .ofFour (.option a) (.option b) (.option c) (.option d) (fun _ _ _ _ ↦ rfl)
      fun _ _ _ _ ↦ rfl
  | rescue ns a b c =>
    exact .ofFour (.list ns) (.option a) (.option b) (.option c) (fun _ _ _ _ ↦ rfl)
      fun _ _ _ _ ↦ rfl
  | nil | bool _ | self | integer _ | float _ | rational _ | imaginary _ | string _ _ | shell _
  | symbol _ _ | regexp _ | varRead _ _ | varTarget _ _ | constRead _ | constTarget _ | missing =>
    exact .ofNone rfl rfl

variable {kind : NodeKind} {news others : List Node}

theorem subnodes_withChildren (h : news.length = kind.subnodes.length) :
    (kind.withChildren news).subnodes = news := by
  obtain ⟨filled, hheld, hfill, -⟩ := kind.refills.exchange h
  rw [withChildren, ← news.append_nil, hfill, hheld, List.append_nil]

theorem withChildren_withChildren (h : news.length = kind.subnodes.length)
    (h' : others.length = kind.subnodes.length) :
    (kind.withChildren news).withChildren others = kind.withChildren others := by
  obtain ⟨filled, -, hfill, hagain⟩ := kind.refills.exchange h
  have hothers := hagain others (h'.trans h.symm) []
  rw [List.append_nil] at hothers
  rw [withChildren, withChildren, withChildren, ← news.append_nil, hfill, hothers]

end NodeKind

namespace Node

/-- A change of nodes that leaves each of them as it is but for its place and its children. -/
def KeepsKinds (f : Node → Node) : Prop := ∀ n, ∃ news, (f n).kind = n.kind.withChildren news

variable {f : Node → Node}

theorem KeepsKinds.isIf (hf : KeepsKinds f) (n : Node) : (f n).isIf = n.isIf := by
  obtain ⟨news, h⟩ := hf n
  rw [Node.isIf, Node.isIf, h]
  cases n.kind <;> rfl

theorem KeepsKinds.isBlockArgument (hf : KeepsKinds f) (n : Node) :
    (f n).isBlockArgument = n.isBlockArgument := by
  obtain ⟨news, h⟩ := hf n
  rw [Node.isBlockArgument, Node.isBlockArgument, h]
  cases n.kind <;> rfl

end Node

@[simp] theorem nextChild_cons (old n : Node) (rest : List Node) :
    nextChild old (n :: rest) = (n, rest) := rfl

@[simp] theorem nextChild?_map (f : Node → Node) (n : Option Node) (rest : List Node) :
    nextChild? n (n.toList.map f ++ rest) = (n.map f, rest) := by
  cases n <;> rfl

@[simp] theorem nextChildren_map (f : Node → Node) (ns rest : List Node) :
    nextChildren ns (ns.map f ++ rest) = (ns.map f, rest) := by
  have hlength : (ns.map f).length = ns.length := List.length_map f
  obtain ⟨filled, rfl, hfill, -⟩ := (Refills.list ns).exchange hlength
  exact hfill rest

namespace Part

def map (f : Node → Node) : Part → Part
  | .text s => .text s
  | .node form n => .node form (f n)

variable {f : Node → Node}

@[simp] theorem map_text (s : String) : (Part.text s).map f = .text s := rfl

@[simp] theorem map_node (form : Form) (n : Node) :
    (Part.node form n).map f = .node form (f n) := rfl

@[simp] theorem map_whole (n : Node) : (whole n).map f = whole (f n) := rfl

@[simp] theorem optional_map (n : Option Node) : optional (n.map f) = (optional n).map (map f) := by
  cases n <;> rfl

@[simp] theorem body_map (n : Option Node) : body (n.map f) = (body n).map (map f) := by
  cases n <;> rfl

@[simp] theorem keyword_map (word opening closing : String) (n : Option Node) :
    keyword word opening closing (n.map f) = (keyword word opening closing n).map (map f) := by
  cases n <;> rfl

@[simp] theorem separated_map (separator : String) (ns : List Node) :
    separated separator (ns.map f) = (separated separator ns).map (map f) := by
  induction ns with
  | nil => rfl
  | cons n rest ih =>
    cases rest with
    | nil => rfl
    | cons m rest => exact congrArg (whole (f n) :: .text separator :: ·) ih

theorem interpolated_map (hf : Node.KeepsKinds f) (ns : List Node) :
    interpolated (ns.map f) = (interpolated ns).map (map f) := by
  rw [interpolated, interpolated, List.flatMap_map, List.map_flatMap]
  congr 1
  funext n
  obtain ⟨news, h⟩ := hf n
  rw [h]
  cases n.kind <;> rfl

theorem ifClause_map (hf : Node.KeepsKinds f) (word : String) (predicate : Node)
    (statements subsequent : Option Node) :
    ifClause word (f predicate) (statements.map f) (subsequent.map f) =
      (ifClause word predicate statements subsequent).map (map f) := by
  cases subsequent with
  | none => simp [ifClause]
  | some n => simp [ifClause, hf.isIf]

theorem call_map (hf : Node.KeepsKinds f) (receiver : Option Node)
    (operator : Option CallOperator) (name : String) (arguments block : Option Node)
    (parenthesized : Bool) :
    call (receiver.map f) operator name (arguments.map f) (block.map f) parenthesized =
      (call receiver operator name arguments block parenthesized).map (map f) := by
  have hinside : (block.map f).any Node.isBlockArgument = block.any Node.isBlockArgument := by
    cases block with
    | none => rfl
    | some n => exact hf.isBlockArgument n
  cases receiver <;> simp [call, hinside, apply_ite (List.map (map f))]

theorem ofKind_withChildren (hf : Node.KeepsKinds f) (kind : NodeKind) :
    ofKind (kind.withChildren (kind.subnodes.map f)) = (ofKind kind).map (map f) := by
  rw [NodeKind.withChildren, ← (kind.subnodes.map f).append_nil]
  cases kind <;> simp only [NodeKind.subnodes, NodeKind.refill, bind_apply, pure_apply,
    List.map_append, List.map_cons, List.map_nil, List.append_assoc, List.cons_append,
    List.nil_append, nextChild_cons, nextChild?_map, nextChildren_map]
  case interpolated quoting ns => cases quoting <;> simp [ofKind, interpolated_map hf]
  case jump jump value => cases jump <;> simp [ofKind]
  case call => exact call_map hf _ _ _ _ _ _
  case ifThen => simp [ofKind, ifClause_map hf]
  case caseOf subject conditions contrary => cases subject <;> simp [ofKind]
  case beginBlock body handler contrary ensure => cases ensure <;> simp [ofKind]
  case rescue exceptions reference body subsequent => cases reference <;> simp [ofKind]
  case methodDef name receiver params body => cases receiver <;> simp [ofKind]
  case classDef path superclass body => cases superclass <;> simp [ofKind]
  all_goals simp [ofKind]

end Part

namespace Node

theorem parts_cases (form : Form) (n : Node) :
    n.parts form = Part.ofKind n.kind ∨
      (∃ predicate body subsequent, n.kind = .ifThen predicate body subsequent ∧
        n.parts form = Part.ifClause "elsif" predicate body subsequent) ∨
      ∃ content closed, n.kind = .string content closed ∧ n.parts form = [.text content] := by
  obtain ⟨span, index, kind⟩ := n
  cases form with
  | whole => exact .inl rfl
  | elsif =>
    cases kind with
    | ifThen predicate body subsequent => exact .inr (.inl ⟨_, _, _, rfl, rfl⟩)
    | _ => exact .inl rfl
  | bare =>
    cases kind with
    | string content closed => exact .inr (.inr ⟨_, _, rfl, rfl⟩)
    | _ => exact .inl rfl

theorem filterMap_parts (form : Form) (n : Node) :
    (n.parts form).filterMap Part.node? = n.children := by
  rw [children]
  obtain h | ⟨predicate, body, subsequent, hkind, h⟩ | ⟨content, closed, hkind, h⟩ :=
    n.parts_cases form
  · rw [h]
  · rw [h, hkind, Part.ofKind, List.filterMap_append]
    exact (List.append_nil _).symm
  · rw [h, hkind]
    rfl

variable {f : Node → Node}

theorem parts_of_keepsKinds (hf : KeepsKinds f) {n m : Node}
    (hm : m.kind = n.kind.withChildren (n.kind.subnodes.map f)) (form : Form) :
    m.parts form = (n.parts form).map (Part.map f) := by
  obtain ⟨span, index, kind⟩ := n
  obtain ⟨span', index', kind'⟩ := m
  obtain rfl : kind' = kind.withChildren (kind.subnodes.map f) := hm
  have hwhole := Part.ofKind_withChildren hf kind
  cases form with
  | whole => exact hwhole
  | elsif =>
    cases kind with
    | ifThen predicate body subsequent =>
      have hkind : (NodeKind.ifThen predicate body subsequent).withChildren
          ((NodeKind.ifThen predicate body subsequent).subnodes.map f) =
          .ifThen (f predicate) (body.map f) (subsequent.map f) := by
        cases body <;> cases subsequent <;> rfl
      rw [hkind]
      exact Part.ifClause_map hf "elsif" predicate body subsequent
    | _ => exact hwhole
  | bare =>
    cases kind with
    | string content closed => rfl
    | _ => exact hwhole

def unplaced (n : Node) : Node :=
  .mk {} n.index (n.kind.withChildren (n.children.attach.map fun c ↦ c.1.unplaced))
termination_by sizeOf n
decreasing_by exact sizeOf_lt_of_mem_children c.2

theorem unplaced_eq (n : Node) :
    n.unplaced = .mk {} n.index (n.kind.withChildren (n.kind.subnodes.map unplaced)) := by
  rw [unplaced, ← children_eq_subnodes]
  simp

theorem keepsKinds_unplaced : KeepsKinds unplaced := by
  intro n
  rw [unplaced]
  exact ⟨_, rfl⟩

theorem parts_unplaced (form : Form) (n : Node) :
    n.unplaced.parts form = (n.parts form).map (Part.map unplaced) :=
  parts_of_keepsKinds keepsKinds_unplaced (by rw [unplaced_eq, kind]) form

end Node

end FlowCompletion
