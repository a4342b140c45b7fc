import FlowCompletion.Flow.Parameters
import FlowCompletion.Proofs.Table
import FlowCompletion.Source.Layout

namespace FlowCompletion

@[simp] def NodeKind.subnodes : NodeKind → List Node
  | .program n | .varWrite _ _ n | .varOpWrite _ _ _ n | .varOrWrite _ _ n | .varAndWrite _ _ n
  | .constWrite _ n | .defined n => [n]
  | .statements ns | .interpolated _ ns | .array ns | .hash ns | .arguments ns
  | .keywordHash ns => ns
  | .parentheses n | .assocSplat n | .splat n | .constPath n _ | .blockArgument n | .block _ n
  | .lambda _ n | .otherwise n | .jump _ n | .yield n | .super n => n.toList
  | .assoc a b | .and a b | .or a b | .rescueModifier a b => [a, b]
  | .range a b _ | .methodDef _ a _ b => a.toList ++ b.toList
  | .call a _ _ b c _ => a.toList ++ b.toList ++ c.toList
  | .ifThen a b c | .unlessThen a b c | .classDef a b c => a :: (b.toList ++ c.toList)
  | .caseOf a ns b => a.toList ++ ns ++ b.toList
  | .whenClause ns a => ns ++ a.toList
  | .whileLoop a b | .untilLoop a b | .moduleDef a b => a :: b.toList
  | .forLoop a b c => a :: b :: c.toList
  | .beginBlock a b c d => a.toList ++ b.toList ++ c.toList ++ d.toList
  | .rescue ns a b c => ns ++ a.toList ++ b.toList ++ c.toList
  | .multiWrite ns a => ns ++ [a]
  | _ => []

namespace Part

@[simp] theorem filterMap_text (s : String) (ps : List Part) :
    (.text s :: ps).filterMap node? = ps.filterMap node? :=
  rfl

@[simp] theorem filterMap_node (form : Form) (n : Node) (ps : List Part) :
    (.node form n :: ps).filterMap node? = n :: ps.filterMap node? :=
  rfl

@[simp] theorem filterMap_separated (separator : String) (ns : List Node) :
    (separated separator ns).filterMap node? = ns := by
  induction ns with
  | nil => rfl
  | cons n rest ih =>
    cases rest with
    | nil => rfl
    | cons m rest => exact congrArg (n :: ·) ih

@[simp] theorem filterMap_interpolated (ns : List Node) :
    (interpolated ns).filterMap node? = ns := by
  induction ns with
  | nil => rfl
  | cons n rest ih =>
    rw [interpolated] at ih ⊢
    rw [List.flatMap_cons, List.filterMap_append, ih]
    split <;> rfl

@[simp] theorem filterMap_optional (n : Option Node) : (optional n).filterMap node? = n.toList := by
  cases n <;> rfl

@[simp] theorem filterMap_body (n : Option Node) : (body n).filterMap node? = n.toList := by
  cases n <;> rfl

@[simp] theorem filterMap_whole (ns : List Node) : ns.filterMap (node? ∘ whole) = ns :=
  List.filterMap_some

@[simp] theorem filterMap_keyword (word opening closing : String) (n : Option Node) :
    (keyword word opening closing n).filterMap node? = n.toList := by
  cases n <;> rfl

theorem filterMap_call (receiver : Option Node) (operator : Option CallOperator) (name : String)
    (arguments block : Option Node) (parenthesized : Bool) :
    (call receiver operator name arguments block parenthesized).filterMap node? =
      receiver.toList ++ arguments.toList ++ block.toList := by
  have htext (c : Bool) (s : String) : (if c then [text s] else []).filterMap node? = [] := by
    cases c <;> rfl
  simp only [call, List.filterMap_append, htext, filterMap_optional]
  -- a block argument stands inside the parentheses, any other block after them
  cases hinside : block.any Node.isBlockArgument <;> cases block <;> cases receiver <;> simp [whole]

end Part

namespace Node

theorem children_eq_subnodes (n : Node) : n.children = n.kind.subnodes := by
  rw [children]
  cases n.kind with
  | interpolated quoting ns => cases quoting <;> simp [Part.ofKind]
  | jump jump value => cases jump <;> simp [Part.ofKind]
  | call receiver operator name arguments block parenthesized =>
    exact Part.filterMap_call receiver operator name arguments block parenthesized
  | ifThen predicate body subsequent =>
    cases subsequent <;> simp [Part.ofKind, Part.ifClause, Part.whole]
  | caseOf subject conditions contrary =>
    cases subject <;> simp [Part.ofKind, Part.whole]
  | beginBlock body rescue contrary ensure =>
    cases ensure <;> simp [Part.ofKind, Part.whole]
  | rescue exceptions reference body subsequent =>
    cases reference <;> simp [Part.ofKind, Part.whole]
  | methodDef name receiver params body =>
    cases receiver <;> simp [Part.ofKind, Part.whole]
  | classDef path superclass body =>
    cases superclass <;> simp [Part.ofKind, Part.whole]
  | _ => simp [Part.ofKind, Part.whole]

def writtenVariable? (n : Node) : Option String :=
  match n.kind with
  | .varWrite _ name _ | .varTarget _ name | .varOpWrite _ name _ _ | .varOrWrite _ name _
  | .varAndWrite _ name _ => some name
  | _ => none

def parameterNames (n : Node) : List String :=
  match n.kind with
  | .block params _ | .lambda params _ | .methodDef _ _ params _ => params.names
  | _ => []

theorem writtenVariable?_of_writtenLocal? {n : Node} {name : String}
    (h : n.writtenLocal? = some name) : n.writtenVariable? = some name := by
  unfold writtenLocal? at h
  unfold writtenVariable?
  split at h <;> simp_all

def Descends (V : Node → Prop) : Prop := ∀ n, V n → ∀ c ∈ n.children, V c

theorem descends_preorder (n : Node) : Descends (· ∈ n.preorder) := by
  -- by the size of the tree: a node below the root lies in the tree of a child
  induction hsize : sizeOf n using Nat.strongRecOn generalizing n with
  | ind size ih =>
    intro m hm c hc
    have hchild {d : Node} (hd : d ∈ n.children) {e : Node} (he : e ∈ d.preorder) :
        e ∈ n.preorder := by
      rw [preorder]
      refine List.mem_cons_of_mem _ (List.mem_flatMap.mpr ⟨⟨d, hd⟩, List.mem_attach _ _, he⟩)
    rw [preorder] at hm
    rcases List.mem_cons.mp hm with rfl | hm
    · refine hchild hc ?_
      rw [preorder]
      exact List.mem_cons_self
    · obtain ⟨⟨d, hd⟩, -, hm⟩ := List.mem_flatMap.mp hm
      have hlt := sizeOf_lt_of_mem_children hd
      exact hchild hd (ih (sizeOf d) (hsize ▸ hlt) d rfl m hm c hc)

theorem mem_preorder_self (n : Node) : n ∈ n.preorder := by
  rw [preorder]
  exact List.mem_cons_self

variable {V : Node → Prop}

theorem Descends.localNodes (hV : Descends V) {n : Node} (hn : V n) : ∀ c ∈ n.localNodes, V c := by
  induction hsize : sizeOf n using Nat.strongRecOn generalizing n with
  | ind size ih =>
    intro c hc
    rw [Node.localNodes] at hc
    rcases List.mem_cons.mp hc with rfl | hc
    · exact hn
    · obtain ⟨⟨d, hd⟩, -, hc⟩ := List.mem_flatMap.mp hc
      have hlt := sizeOf_lt_of_mem_children hd
      dsimp only at hc
      split at hc
      · cases hc
      · exact ih (sizeOf d) (hsize ▸ hlt) (hV n hn d hd) rfl c hc

/-- The name of a parameter or of a variable that is written, by some of the nodes. -/
def Introduces (V : Node → Prop) (name : String) : Prop :=
  ∃ c, V c ∧ (name ∈ c.parameterNames ∨ c.writtenVariable? = some name)

theorem Descends.localWrites (hV : Descends V) {n : Node} (hn : V n) {name : String}
    (h : name ∈ n.localWrites) : Introduces V name := by
  obtain ⟨c, hc, hname⟩ := List.mem_filterMap.mp h
  exact ⟨c, hV.localNodes hn c hc, .inr (writtenVariable?_of_writtenLocal? hname)⟩

theorem Descends.declaredLocals (hV : Descends V) {n : Node} (hn : V n) {name : String}
    (h : name ∈ n.declaredLocals) : Introduces V name := by
  have hchild {c : Node} (hc : c ∈ n.kind.subnodes) : V c :=
    hV n hn c (n.children_eq_subnodes ▸ hc)
  have hbody {body : Option Node} (hsub : ∀ c ∈ body, c ∈ n.kind.subnodes)
      (hname : name ∈ body.elim [] Node.localWrites) : Introduces V name := by
    cases body with
    | none => cases hname
    | some c => exact hV.localWrites (hchild (hsub c rfl)) hname
  have hparams {params : Parameters} (hnames : n.parameterNames = params.names)
      (hname : name ∈ params.names) : Introduces V name :=
    ⟨n, hn, .inl (hnames ▸ hname)⟩
  rw [Node.declaredLocals, mem_firsts] at h
  split at h
  case h_1 name' receiver params body hkind =>
    rcases List.mem_append.mp h with h | h
    · exact hparams (by rw [parameterNames, hkind]) h
    · exact hbody (fun c hc ↦ by simp [hkind, Option.mem_def.mp hc]) h
  case h_2 params body hkind =>
    rcases List.mem_append.mp h with h | h
    · exact hparams (by rw [parameterNames, hkind]) h
    · exact hbody (fun c hc ↦ by simp [hkind, Option.mem_def.mp hc]) h
  case h_3 params body hkind =>
    rcases List.mem_append.mp h with h | h
    · exact hparams (by rw [parameterNames, hkind]) h
    · exact hbody (fun c hc ↦ by simp [hkind, Option.mem_def.mp hc]) h
  case h_4 path superclass body hkind =>
    exact hbody (fun c hc ↦ by simp [hkind, Option.mem_def.mp hc]) h
  case h_5 path body hkind =>
    exact hbody (fun c hc ↦ by simp [hkind, Option.mem_def.mp hc]) h
  case h_6 body hkind =>
    exact hV.localWrites (hchild (by simp [hkind])) h
  case h_7 => exact hV.localWrites hn h

theorem parameterNames_subset_declaredLocals (n : Node) :
    ∀ name ∈ n.parameterNames, name ∈ n.declaredLocals := by
  intro name hname
  rw [Node.declaredLocals, mem_firsts]
  unfold parameterNames at hname
  split at hname
  case h_4 => cases hname
  all_goals
    rename_i hkind
    rw [hkind]
    exact List.mem_append_left _ hname

/-- Names by which a block without parameters means its arguments. -/
def implicitNames : List String := "it" :: (List.range 9).map fun i ↦ "_" ++ toString (i + 1)

theorem argumentNumber?_le {name : String} {number : Nat} (h : argumentNumber? name = some number) :
    number ≤ 9 := by
  unfold argumentNumber? at h
  split at h
  · obtain ⟨hnumber, h⟩ := Option.ite_none_right_eq_some.mp h
    simp only [Bool.and_eq_true, decide_eq_true_eq] at hnumber
    exact Option.some.inj h ▸ hnumber.2
  · cases h

theorem le_foldl_max {l : List Nat} {i start : Nat} (h : i ≤ start ∨ i ∈ l) :
    i ≤ l.foldl max start := by
  induction l generalizing start with
  | nil => exact h.resolve_right List.not_mem_nil
  | cons j l ih =>
    refine ih ?_
    rcases h with h | h
    · exact .inl (Nat.le_trans h (Nat.le_max_left _ _))
    · rcases List.mem_cons.mp h with rfl | h
      · exact .inl (Nat.le_max_right _ _)
      · exact .inr h

theorem mem_implicitArguments {body c : Node} {name : String} (hname : name ∈ implicitNames)
    (hc : c ∈ body.localNodes) (huses : c.implicitName? = some name) (args : List Ty) :
    name ∈ (implicitArguments (some body) args).map Prod.fst := by
  have hused : name ∈ body.localNodes.filterMap implicitName? :=
    List.mem_filterMap.mpr ⟨c, hc, huses⟩
  rw [implicitArguments, List.map_append, List.mem_append, Option.elim_some]
  rcases List.mem_cons.mp hname with rfl | hnumbered
  · right
    rw [if_pos (List.contains_iff_mem.mpr hused)]
    exact List.mem_singleton_self _
  · left
    obtain ⟨i, hi, rfl⟩ := List.mem_map.mp hnumbered
    have hnumber : ∀ i ∈ List.range 9,
        argumentNumber? ("_" ++ toString (i + 1)) = some (i + 1) := by
      decide +kernel
    have hle : i + 1 ≤
        ((body.localNodes.filterMap implicitName?).filterMap argumentNumber?).foldl max 0 :=
      le_foldl_max (.inr (List.mem_filterMap.mpr ⟨_, hused, hnumber i hi⟩))
    rw [List.map_map]
    exact List.mem_map.mpr ⟨i, List.mem_range.mpr hle, rfl⟩

theorem implicitArguments_subset {body : Option Node} {args : List Ty} :
    ∀ p ∈ implicitArguments body args, p.1 ∈ implicitNames := by
  have hmax (l : List Nat) (start : Nat) (hstart : start ≤ 9) (hl : ∀ i ∈ l, i ≤ 9) :
      l.foldl max start ≤ 9 := by
    induction l generalizing start with
    | nil => exact hstart
    | cons i l ih =>
      obtain ⟨hi, hl⟩ := List.forall_mem_cons.mp hl
      exact ih _ (Nat.max_le.mpr ⟨hstart, hi⟩) hl
  intro p hp
  rcases List.mem_append.mp hp with hp | hp
  · obtain ⟨i, hi, rfl⟩ := List.mem_map.mp hp
    refine List.mem_cons_of_mem _ (List.mem_map.mpr ⟨i, List.mem_range.mpr ?_, rfl⟩)
    refine Nat.lt_of_lt_of_le (List.mem_range.mp hi) (hmax _ _ (Nat.zero_le _) fun number h ↦ ?_)
    obtain ⟨name, -, hnumber⟩ := List.mem_filterMap.mp h
    exact argumentNumber?_le hnumber
  · split at hp
    · rw [List.mem_singleton.mp hp]
      exact List.mem_cons_self
    · cases hp

end Node

namespace Parameters

theorem fst_mem_of_mem_pair {names : List String} {types : List Ty} {p : String × Ty}
    (h : p ∈ pair names types) : p.1 ∈ names :=
  (List.of_mem_zip h).1

theorem assign_subset_names (params : Parameters) (args : List Ty) :
    ∀ p ∈ params.assign args, p.1 ∈ params.names := by
  intro p hp
  simp only [assign, List.mem_append, List.mem_map] at hp
  simp only [names, List.mem_append]
  rcases hp with (((((hp | hp) | hp) | hp) | hp) | hp) | hp
  · simp [fst_mem_of_mem_pair hp]
  · simp [fst_mem_of_mem_pair hp]
  · simp [fst_mem_of_mem_pair hp]
  all_goals
    obtain ⟨name, hname, rfl⟩ := hp
    simp [hname]

end Parameters

end FlowCompletion
