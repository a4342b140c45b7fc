import FlowCompletion.Source.Parts

namespace FlowCompletion

namespace Part

theorem mem_optional {form : Form} {c : Node} {n : Option Node}
    (h : Part.node form c ∈ optional n) : n = some c := by
  cases n with
  | none => simp [optional] at h
  | some m => simp [optional, whole] at h; simp [h]

theorem mem_body {form : Form} {c : Node} {n : Option Node}
    (h : Part.node form c ∈ body n) : n = some c := by
  cases n with
  | none => simp [body] at h
  | some m => simp [body, whole] at h; simp [h]

theorem mem_separated {form : Form} {c : Node} {separator : String} {items : List Node}
    (h : Part.node form c ∈ separated separator items) : c ∈ items := by
  induction items with
  | nil => simp [separated] at h
  | cons n rest ih =>
    cases rest with
    | nil => simp [separated, whole] at h; simp [h]
    | cons m rest =>
      simp only [separated, whole, List.mem_cons, Part.node.injEq, reduceCtorEq, false_or] at h
      rcases h with h | h
      · simp [h.2]
      · exact List.mem_cons_of_mem _ (ih h)

theorem mem_interpolated {form : Form} {c : Node} {ns : List Node}
    (h : Part.node form c ∈ interpolated ns) : c ∈ ns := by
  simp only [interpolated, List.mem_flatMap] at h
  obtain ⟨n, hn, hc⟩ := h
  split at hc <;> simp [whole] at hc <;> simp_all

theorem mem_keyword {form : Form} {c : Node} {word opening closing : String} {n : Option Node}
    (h : Part.node form c ∈ keyword word opening closing n) : n = some c := by
  cases n with
  | none => simp [keyword] at h
  | some m => simp [keyword, whole] at h; simp [h]

theorem mem_ifClause {form : Form} {c : Node} {word : String} {predicate : Node}
    {statements subsequent : Option Node}
    (h : Part.node form c ∈ ifClause word predicate statements subsequent) :
    c = predicate ∨ statements = some c ∨ subsequent = some c := by
  simp only [ifClause, List.mem_append] at h
  rcases h with (h | h) | h
  · simp [whole] at h; exact .inl h.2
  · exact .inr (.inl (mem_body h))
  · cases subsequent with
    | none => simp at h
    | some m => simp at h; simp [h.2]

theorem mem_call {form : Form} {c : Node} {receiver : Option Node}
    {operator : Option CallOperator} {name : String} {arguments block : Option Node}
    {parenthesized : Bool}
    (h : Part.node form c ∈ call receiver operator name arguments block parenthesized) :
    receiver = some c ∨ arguments = some c ∨ block = some c := by
  simp only [call, List.mem_append] at h
  rcases h with (((((h | h) | h) | h) | h) | h) | h
  · cases receiver with
    | none => simp at h
    | some m => simp [whole] at h; simp [h.2]
  · simp at h
  · exact .inr (.inl (mem_optional h))
  · split at h <;> simp at h
  · split at h
    · exact .inr (.inr (mem_optional h))
    · simp at h
  · split at h <;> simp at h
  · split at h
    · simp at h
    · split at h
      · simp only [List.mem_cons, reduceCtorEq, false_or] at h
        exact .inr (.inr (mem_optional h))
      · simp at h

end Part

theorem Part.sizeOf_lt_of_mem_ofKind {kind : NodeKind} {form : Form} {c : Node}
    (h : Part.node form c ∈ Part.ofKind kind) : sizeOf c < sizeOf kind := by
  have some_lt : ∀ {n : Option Node}, n = some c → sizeOf c < sizeOf n := by
    rintro n rfl; simp
  have mem_lt : ∀ {l : List Node}, c ∈ l → sizeOf c < sizeOf l := List.sizeOf_lt_of_mem
  cases kind with
  | interpolated quoting ns =>
    cases quoting <;>
    · simp only [ofKind, List.mem_append, List.mem_singleton, reduceCtorEq, false_or, or_false] at h
      have := mem_lt (mem_interpolated h)
      simp only [NodeKind.interpolated.sizeOf_spec]
      omega
  | jump jump value =>
    cases jump <;>
    · have := some_lt (mem_keyword h)
      simp only [NodeKind.jump.sizeOf_spec]
      omega
  | _ =>
    simp only [ofKind, List.mem_append, List.mem_cons, List.not_mem_nil, whole, List.mem_map,
      reduceCtorEq, Part.node.injEq, or_false, false_or] at h <;>
    grind [mem_optional, mem_body, mem_separated, mem_keyword, mem_ifClause, mem_call]

namespace Node

theorem sizeOf_lt_of_mem_parts {n c : Node} {form inner : Form}
    (h : Part.node inner c ∈ n.parts form) : sizeOf c < sizeOf n := by
  obtain ⟨span, index, kind⟩ := n
  have lt_kind : sizeOf c < sizeOf kind := by
    simp only [parts, Node.kind] at h
    split at h
    · exact @Part.sizeOf_lt_of_mem_ofKind _ inner _ (by
        simp only [Part.ofKind, List.mem_append]
        exact .inl (by simpa [Part.ifClause] using h))
    · simp at h
    · exact Part.sizeOf_lt_of_mem_ofKind h
  simp only [Node.mk.sizeOf_spec]
  omega

theorem sizeOf_lt_of_mem_children {n c : Node} (h : c ∈ n.children) : sizeOf c < sizeOf n := by
  simp only [children, List.mem_filterMap] at h
  obtain ⟨part, hp, hc⟩ := h
  cases part with
  | text s => simp [Part.node?] at hc
  | node form m =>
    simp only [Part.node?, Option.some.injEq] at hc
    subst hc
    exact @sizeOf_lt_of_mem_parts n m .whole form hp

end Node

/-- Hands out the nodes of a list one by one; once they are used up, the old child stays. -/
def nextChild (old : Node) : StateM (List Node) Node := fun supply =>
  match supply with
  | [] => (old, [])
  | n :: rest => (n, rest)

def nextChild? (old : Option Node) : StateM (List Node) (Option Node) :=
  match old with
  | none => pure none
  | some n => some <$> nextChild n

def nextChildren (olds : List Node) : StateM (List Node) (List Node) :=
  match olds with
  | [] => pure []
  | n :: rest => do
    let first ← nextChild n
    let others ← nextChildren rest
    pure (first :: others)

namespace NodeKind

def refill : NodeKind → StateM (List Node) NodeKind
  | .program n => return .program (← nextChild n)
  | .statements ns => return .statements (← nextChildren ns)
  | .parentheses n => return .parentheses (← nextChild? n)
  | .interpolated quoting ns => return .interpolated quoting (← nextChildren ns)
  | .array ns => return .array (← nextChildren ns)
  | .hash ns => return .hash (← nextChildren ns)
  | .assoc key value => return .assoc (← nextChild key) (← nextChild value)
  | .assocSplat n => return .assocSplat (← nextChild? n)
  | .splat n => return .splat (← nextChild? n)
  | .range left right exclusive => return .range (← nextChild? left) (← nextChild? right) exclusive
  | .varWrite var name value => return .varWrite var name (← nextChild value)
  | .varOpWrite var name operator value => return .varOpWrite var name operator (← nextChild value)
  | .varOrWrite var name value => return .varOrWrite var name (← nextChild value)
  | .varAndWrite var name value => return .varAndWrite var name (← nextChild value)
  | .constPath parent name => return .constPath (← nextChild? parent) name
  | .constWrite name value => return .constWrite name (← nextChild value)
  | .call receiver operator name args withBlock parenthesized =>
    return .call (← nextChild? receiver) operator name (← nextChild? args)
      (← nextChild? withBlock) parenthesized
  | .arguments ns => return .arguments (← nextChildren ns)
  | .keywordHash ns => return .keywordHash (← nextChildren ns)
  | .blockArgument n => return .blockArgument (← nextChild? n)
  | .block params n => return .block params (← nextChild? n)
  | .lambda params n => return .lambda params (← nextChild? n)
  | .ifThen predicate n subsequent =>
    return .ifThen (← nextChild predicate) (← nextChild? n) (← nextChild? subsequent)
  | .unlessThen predicate n contrary =>
    return .unlessThen (← nextChild predicate) (← nextChild? n) (← nextChild? contrary)
  | .otherwise n => return .otherwise (← nextChild? n)
  | .caseOf subject clauses contrary =>
    return .caseOf (← nextChild? subject) (← nextChildren clauses) (← nextChild? contrary)
  | .whenClause conditions n => return .whenClause (← nextChildren conditions) (← nextChild? n)
  | .whileLoop predicate n => return .whileLoop (← nextChild predicate) (← nextChild? n)
  | .untilLoop predicate n => return .untilLoop (← nextChild predicate) (← nextChild? n)
  | .forLoop index collection n =>
    return .forLoop (← nextChild index) (← nextChild collection) (← nextChild? n)
  | .and left right => return .and (← nextChild left) (← nextChild right)
  | .or left right => return .or (← nextChild left) (← nextChild right)
  | .jump way value => return .jump way (← nextChild? value)
  | .beginBlock n handler contrary ensure =>
    return .beginBlock (← nextChild? n) (← nextChild? handler) (← nextChild? contrary)
      (← nextChild? ensure)
  | .rescue exceptions reference n subsequent =>
    return .rescue (← nextChildren exceptions) (← nextChild? reference) (← nextChild? n)
      (← nextChild? subsequent)
  | .rescueModifier expression fallback =>
    return .rescueModifier (← nextChild expression) (← nextChild fallback)
  | .methodDef name receiver params n =>
    return .methodDef name (← nextChild? receiver) params (← nextChild? n)
  | .classDef path superclass n =>
    return .classDef (← nextChild path) (← nextChild? superclass) (← nextChild? n)
  | .moduleDef path n => return .moduleDef (← nextChild path) (← nextChild? n)
  | .multiWrite targets value => return .multiWrite (← nextChildren targets) (← nextChild value)
  | .defined n => return .defined (← nextChild n)
  | .yield n => return .yield (← nextChild? n)
  | .super n => return .super (← nextChild? n)
  | kind => return kind

def withChildren (kind : NodeKind) (children : List Node) : NodeKind :=
  (kind.refill children).1

end NodeKind

end FlowCompletion
