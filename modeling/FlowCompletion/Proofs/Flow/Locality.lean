import FlowCompletion.Proofs.Flow.Composition

namespace FlowCompletion

namespace Eval

variable {task : Task} {V F : Node → Prop} {H : Halt → Prop} {ev ev' : Node → Eval Ty}

theorem mapM_congr {α β : Type} {k k' : α → Eval β} {l : List α} (h : ∀ a ∈ l, k a = k' a) :
    l.mapM k = l.mapM k' := by
  induction l with
  | nil => rfl
  | cons a l ih =>
    obtain ⟨ha, hl⟩ := List.forall_mem_cons.mp h
    rw [List.mapM_cons, List.mapM_cons, ha, ih hl]

theorem sequence_congr {items : List Node} (h : ∀ c ∈ items, ev c = ev' c) :
    sequence ev items = sequence ev' items := by
  rw [sequence, sequence]
  generalize Ty.nil = start
  induction items generalizing start with
  | nil => rfl
  | cons c items ih =>
    obtain ⟨hc, hitems⟩ := List.forall_mem_cons.mp h
    rw [List.foldlM_cons, List.foldlM_cons, hc]
    exact bind_congr fun t ↦ ih hitems t

mutual

theorem assign_congr : (n : Node) → (∀ c ∈ n.receivers, ev c = ev' c) → (value : Ty) →
    assign task ev n value = assign task ev' n value
  | .mk _ _ kind, h, value => assignKind_congr kind h value

theorem assignKind_congr (kind : NodeKind) (h : ∀ c ∈ kind.receivers, ev c = ev' c) (value : Ty) :
    assignKind task ev kind value = assignKind task ev' kind value := by
  unfold Eval.assignKind
  split
  · rfl
  · rfl
  · exact assignOptional_congr _ h _
  · refine bind_congr fun values ↦ ?_
    exact assignEach_congr _ _ h _
  · rw [h _ List.mem_cons_self]
  · rfl

theorem assignOptional_congr : (n : Option Node) →
    (∀ c ∈ NodeKind.receiversOptional n, ev c = ev' c) → (value : Ty) →
      assignOptional task ev n value = assignOptional task ev' n value
  | none, _, _ => rfl
  | some n, h, value => assign_congr n h value

theorem assignEach_congr (splatSeen : Bool) (targets : List Node)
    (h : ∀ c ∈ NodeKind.receiversEach targets, ev c = ev' c) (values : List Ty) :
    assignEach task ev splatSeen targets values = assignEach task ev' splatSeen targets values := by
  unfold Eval.assignEach
  split
  case h_1 inner rest value values =>
    obtain ⟨hinner, hlater⟩ := List.forall_mem_append.mp h
    rw [assignOptional_congr inner hinner, assignEach_congr _ _ hlater]
  case h_2 =>
    obtain ⟨hnow, hlater⟩ := List.forall_mem_append.mp h
    rw [assign_congr _ hnow, assignEach_congr _ _ hlater]
  case h_3 => rfl

end

section agreeing

variable (hev : ∀ c, F c → ev c = ev' c)

include hev

theorem optional_congr {n : Option Node} (h : ∀ c ∈ n, F c) : optional ev n = optional ev' n := by
  cases n with
  | none => rfl
  | some n => exact hev n (h n rfl)

theorem loopBody_congr {body : Option Node} (h : ∀ c ∈ body, F c) :
    loopBody ev body = loopBody ev' body := by
  cases body with
  | none => rfl
  | some n => rw [loopBody, loopBody, hev n (h n rfl)]

theorem evaluateBranches_congr {whenTrue whenFalse : Option Node} (htrue : ∀ c ∈ whenTrue, F c)
    (hfalse : ∀ c ∈ whenFalse, F c) :
    evaluateBranches ev whenTrue whenFalse = evaluateBranches ev' whenTrue whenFalse := by
  rw [evaluateBranches, evaluateBranches, optional_congr hev htrue, optional_congr hev hfalse]

theorem evaluateBegin_congr {body rescue otherwise ensure : Option Node} (hbody : ∀ c ∈ body, F c)
    (hrescue : ∀ c ∈ rescue, F c) (hotherwise : ∀ c ∈ otherwise, F c)
    (hensure : ∀ c ∈ ensure, F c) :
    evaluateBegin ev body rescue otherwise ensure =
      evaluateBegin ev' body rescue otherwise ensure := by
  rw [evaluateBegin, evaluateBegin, optional_congr hev hbody, optional_congr hev hensure]
  cases rescue with
  | none => rfl
  | some rescue =>
    cases otherwise with
    | none => simp only [hev rescue (hrescue rescue rfl)]
    | some otherwise =>
      simp only [hev rescue (hrescue rescue rfl), hev otherwise (hotherwise otherwise rfl)]

theorem blockBody_congr {params : Parameters} {body : Option Node} {args : List Ty}
    (h : ∀ c ∈ body, F c) :
    blockBody task ev params body args = blockBody task ev' params body args := by
  rw [blockBody, blockBody, optional_congr hev h]

theorem runLiteral_congr {n : Node} {params : Parameters} {body : Option Node}
    (h : ∀ c ∈ body, F c) :
    runLiteral task ev n params body = runLiteral task ev' n params body := by
  funext args selfType
  simp only [runLiteral, insideBlock, blockBody_congr hev h]

theorem evaluateLambda_congr {n : Node} {params : Parameters} {body : Option Node}
    (h : ∀ c ∈ body, F c) :
    evaluateLambda task ev n params body = evaluateLambda task ev' n params body := by
  rw [evaluateLambda, evaluateLambda, optional_congr hev h]

theorem methodBody_congr {n : Node} {params : Parameters} {receiver : Ty} {body : Option Node}
    (h : ∀ c ∈ body, F c) :
    methodBody task ev n params receiver body = methodBody task ev' n params receiver body := by
  cases body with
  | none => rfl
  | some body => rw [methodBody, methodBody, hev body (h body rfl)]

theorem superclassOf_congr {superclass : Option Node} (h : ∀ c ∈ superclass, F c) :
    superclassOf ev superclass = superclassOf ev' superclass := by
  cases superclass with
  | none => rfl
  | some n => rw [superclassOf, superclassOf, hev n (h n rfl)]

theorem moduleBody_congr {m : ModuleId} {body : Option Node} (h : ∀ c ∈ body, F c) :
    moduleBody ev m body = moduleBody ev' m body := by
  cases body with
  | none => rfl
  | some body => rw [moduleBody, moduleBody, hev body (h body rfl)]

theorem evaluateLoop_congr {predicate : Node} {body : Option Node} (hpredicate : F predicate)
    (h : ∀ c ∈ body, F c) : evaluateLoop ev predicate body = evaluateLoop ev' predicate body := by
  rw [evaluateLoop, evaluateLoop, hev predicate hpredicate, loopBody_congr hev h]

theorem evaluateFor_congr {index collection : Node} {body : Option Node}
    (hreceivers : ∀ c ∈ index.receivers, F c) (hcollection : F collection)
    (h : ∀ c ∈ body, F c) :
    evaluateFor task ev index collection body = evaluateFor task ev' index collection body := by
  have hassign (value : Ty) : assign task ev index value = assign task ev' index value :=
    assign_congr index (fun c hc ↦ hev c (hreceivers c hc)) value
  simp only [evaluateFor, hev collection hcollection, hassign, loopBody_congr hev h]

variable (hT : Traverses task V F H)

include hT

theorem elementType_congr {items : List Node} (h : ∀ c ∈ items, F c) :
    elementType task ev items = elementType task ev' items := by
  have hitem (item : Node) (hitem : item ∈ items) :
      itemTypes task ev item = itemTypes task ev' item := by
    have hsub := hT.operands _ (h item hitem)
    unfold itemTypes
    split
    case h_1 => rfl
    case h_2 inner hkind => rw [hev inner (hsub inner (by simp [hkind]))]
    case h_3 => rw [hev item (h item hitem)]
  rw [elementType, elementType, mapM_congr hitem]

theorem hashType_congr {items : List Node} (h : ∀ c ∈ items, F c) :
    hashType task ev items = hashType task ev' items := by
  have hpair (item : Node) (hitem : item ∈ items) :
      pairTypes task ev item = pairTypes task ev' item := by
    have hsub := hT.operands _ (h item hitem)
    unfold pairTypes
    split
    case h_1 key value hkind =>
      rw [hev key (hsub key (by simp [hkind])), hev value (hsub value (by simp [hkind]))]
    case h_2 => rfl
    case h_3 inner hkind => rw [hev inner (hsub inner (by simp [hkind]))]
    case h_4 => rw [hev item (h item hitem)]
  rw [hashType, hashType, mapM_congr hpair]

theorem jumpValue_congr {value : Option Node} (h : ∀ c ∈ value, F c) :
    jumpValue task ev value = jumpValue task ev' value := by
  unfold jumpValue
  split
  case h_1 => rfl
  case h_2 n =>
    have hsub := hT.operands _ (h n rfl)
    split
    case h_1 only hkind =>
      have honly : ∀ c ∈ [only], F c := fun c hc ↦ hsub c (by simpa [hkind] using hc)
      rw [elementType_congr hev hT honly, hev only (honly only List.mem_cons_self)]
    case h_2 items _ hkind =>
      rw [elementType_congr hev hT fun c hc ↦ hsub c (by simpa [hkind] using hc)]
    case h_3 => exact hev n (h n rfl)

theorem callArguments_congr {arguments : Option Node} (h : ∀ c ∈ arguments, F c) :
    callArguments ev arguments = callArguments ev' arguments := by
  obtain ⟨hpositional, hkeywords⟩ := Steps.of_splitKeywords hT (Steps.of_argumentItems hT h)
  have hargument (c : Node) (hc : c ∈ (splitKeywords (Node.argumentItems arguments)).1) :
      argumentType ev c = argumentType ev' c := by
    have hsub := hT.operands _ (hpositional c hc)
    unfold argumentType
    split
    case h_1 inner hkind =>
      rw [optional_congr hev fun d hd ↦ hsub d (by simpa [hkind] using hd)]
    case h_2 => rw [hev c (hpositional c hc)]
  have hkeyword (c : Node) (hc : c ∈ (splitKeywords (Node.argumentItems arguments)).2) :
      keywordType ev c = keywordType ev' c := by
    have hsub := hT.operands _ (hkeywords c hc)
    unfold keywordType
    split
    case h_1 key value hkind =>
      rw [hev key (hsub key (by simp [hkind])), hev value (hsub value (by simp [hkind]))]
    case h_2 => rw [hev c (hkeywords c hc)]
  simp only [callArguments, mapM_congr hargument, mapM_congr hkeyword]

theorem blockOf_congr {block : Option Node} (h : ∀ c ∈ block, F c) :
    blockOf task ev block = blockOf task ev' block := by
  unfold blockOf
  split
  case h_1 => rfl
  case h_2 n =>
    have hsub := hT.operands _ (h n rfl)
    split
    case h_1 params body hkind =>
      rw [runLiteral_congr hev fun c hc ↦ hsub c (by simpa [hkind] using hc)]
    case h_2 => rfl
    case h_3 inner hkind => rw [hev inner (hsub inner (by simp [hkind]))]
    case h_4 => rfl

theorem callNode_congr {n : Node} {name : String} {arguments block : Option Node} {receiver : Ty}
    (harguments : ∀ c ∈ arguments, F c) (hblock : ∀ c ∈ block, F c) :
    callNode task ev n name arguments block receiver =
      callNode task ev' n name arguments block receiver := by
  rw [callNode, callNode, callArguments_congr hev hT harguments, blockOf_congr hev hT hblock]

theorem evaluateCall_congr {n : Node} {receiver : Option Node} {operator : Option CallOperator}
    {name : String} {arguments block : Option Node} (hreceiver : ∀ c ∈ receiver, F c)
    (harguments : ∀ c ∈ arguments, F c) (hblock : ∀ c ∈ block, F c) :
    evaluateCall task ev n receiver operator name arguments block =
      evaluateCall task ev' n receiver operator name arguments block := by
  have hcall (t : Ty) : callNode task ev n name arguments block t =
      callNode task ev' n name arguments block t := callNode_congr hev hT harguments hblock
  cases receiver with
  | none => simp only [evaluateCall, hcall]
  | some c => simp only [evaluateCall, hcall, hev c (hreceiver c rfl)]

theorem evaluateMultiWrite_congr {targets : List Node} {value : Node}
    (hreceivers : ∀ c ∈ NodeKind.receiversEach targets, F c) (hvalue : F value) :
    evaluateMultiWrite task ev targets value = evaluateMultiWrite task ev' targets value := by
  have hassign (values : List Ty) :
      assignAll task ev targets values = assignAll task ev' targets values :=
    assignEach_congr _ _ (fun c hc ↦ hev c (hreceivers c hc)) _
  have hsub := hT.operands _ hvalue
  unfold evaluateMultiWrite
  simp only [hassign, hev value hvalue]
  split
  case h_1 items hkind =>
    rw [mapM_congr fun c hc ↦ hev c (hsub c (by simpa [hkind] using hc))]
  case h_2 => rfl

theorem definitionPlace_congr {path : Node} (hpath : F path) :
    definitionPlace ev path = definitionPlace ev' path := by
  have hsub := hT.operands _ hpath
  unfold definitionPlace
  split
  case h_1 => rfl
  case h_2 parent name hkind => rw [hev parent (hsub parent (by simp [hkind]))]
  case h_3 => rfl
  case h_4 => rw [hev path hpath]

theorem evaluateModuleDef_congr {path : Node} {superclass body : Option Node} {isClass : Bool}
    (hpath : F path) (hsuperclass : ∀ c ∈ superclass, F c) (hbody : ∀ c ∈ body, F c) :
    evaluateModuleDef task ev path superclass body isClass =
      evaluateModuleDef task ev' path superclass body isClass := by
  have hinner (m : ModuleId) :
      moduleBody ev m (bodyToDig task body) = moduleBody ev' m (bodyToDig task body) :=
    moduleBody_congr hev (Steps.of_bodyToDig hbody)
  simp only [evaluateModuleDef, definitionPlace_congr hev hT hpath, hev path hpath,
    superclassOf_congr hev hsuperclass, hinner]

omit hT in
theorem evaluateMethodDef_congr {n : Node} {receiver : Option Node} {params : Parameters}
    {body : Option Node} (hreceiver : ∀ c ∈ receiver, F c) (hbody : ∀ c ∈ body, F c) :
    evaluateMethodDef task ev n receiver params body =
      evaluateMethodDef task ev' n receiver params body := by
  have hinner (t : Ty) : methodBody task ev n params t (bodyToDig task body) =
      methodBody task ev' n params t (bodyToDig task body) :=
    methodBody_congr hev (Steps.of_bodyToDig hbody)
  cases receiver with
  | none => simp only [evaluateMethodDef, hinner]
  | some c => simp only [evaluateMethodDef, hinner, hev c (hreceiver c rfl)]

theorem evaluateRescue_congr {exceptions : List Node} {reference body : Option Node}
    (hexceptions : ∀ c ∈ exceptions, F c)
    (hreceivers : ∀ c ∈ NodeKind.receiversOptional reference, F c) (hbody : ∀ c ∈ body, F c) :
    evaluateRescue task ev exceptions reference body =
      evaluateRescue task ev' exceptions reference body := by
  cases reference with
  | none =>
    simp only [evaluateRescue, elementType_congr hev hT hexceptions, optional_congr hev hbody]
  | some target =>
    have hassign (t : Ty) : assign task ev target t = assign task ev' target t :=
      assign_congr target (fun c hc ↦ hev c (hreceivers c hc)) t
    simp only [evaluateRescue, elementType_congr hev hT hexceptions, optional_congr hev hbody,
      hassign]

/-- What a node comes to depends on the nodes that are followed for it. -/
theorem evaluateKind_congr {n : Node} (hsub : ∀ c ∈ n.kind.operands, F c) :
    evaluateKind task ev n = evaluateKind task ev' n := by
  have hsequence (items : List Node) (h : ∀ c ∈ items, F c) :
      sequence ev items = sequence ev' items := sequence_congr fun c hc ↦ hev c (h c hc)
  unfold Eval.evaluateKind
  generalize hkind : n.kind = kind at hsub ⊢
  cases kind with
  | program body => exact hev body (hsub body (by simp))
  | statements items => exact hsequence items hsub
  | parentheses inner | otherwise inner =>
    exact optional_congr hev fun c hc ↦ hsub c (by simpa using hc)
  | interpolated quoting parts => simp only [hsequence parts hsub]
  | array items =>
    have helements : elementType task ev items = elementType task ev' items :=
      elementType_congr hev hT hsub
    simp only [helements]
  | hash items | keywordHash items => exact hashType_congr hev hT hsub
  | range left right _ =>
    simp only [mapM_congr (l := left.toList ++ right.toList) fun c hc ↦ hev c (hsub c hc)]
  | varWrite _ name value | varOpWrite _ name operator value | varOrWrite _ name value
  | varAndWrite _ name value | constWrite name value =>
    simp only [hev value (hsub value (by simp))]
  | constPath parent name =>
    cases parent with
    | none => rfl
    | some parent => simp only [hev parent (hsub parent (by simp))]
  | call receiver operator name arguments block _ =>
    refine evaluateCall_congr hev hT ?_ ?_ ?_ <;> exact fun c hc ↦ hsub c (by simp_all)
  | arguments items => simp only [hsequence items hsub]
  | blockArgument inner | yield inner | super inner =>
    simp only [optional_congr hev fun c hc ↦ hsub c (by simpa using hc)]
  | lambda params body => exact evaluateLambda_congr hev fun c hc ↦ hsub c (by simpa using hc)
  | ifThen predicate body contrary | unlessThen predicate body contrary =>
    have hbranches : evaluateBranches ev body contrary = evaluateBranches ev' body contrary := by
      refine evaluateBranches_congr hev ?_ ?_ <;> exact fun c hc ↦ hsub c (by simp_all)
    simp only [hev predicate (hsub predicate (by simp)), hbranches]
  | caseOf subject conditions contrary =>
    have hsubject := optional_congr (n := subject) hev fun c hc ↦ hsub c (by simp_all)
    have hcontrary := optional_congr (n := contrary) hev fun c hc ↦ hsub c (by simp_all)
    have hconditions : conditions.map ev = conditions.map ev' :=
      List.map_congr_left fun c hc ↦ hev c (hsub c (by simp [hc]))
    simp only [hsubject, hconditions, hcontrary]
  | whenClause conditions body =>
    have hbody := optional_congr (n := body) hev fun c hc ↦ hsub c (by simp_all)
    simp only [hsequence conditions fun c hc ↦ hsub c (by simp [hc]), hbody]
  | whileLoop predicate body | untilLoop predicate body =>
    exact evaluateLoop_congr hev (hsub predicate (by simp)) fun c hc ↦ hsub c (by simp_all)
  | forLoop index collection body =>
    refine evaluateFor_congr hev ?_ (hsub collection (by simp)) ?_ <;>
      exact fun c hc ↦ hsub c (by simp_all)
  | and left right | or left right | rescueModifier left right =>
    simp only [hev left (hsub left (by simp)), hev right (hsub right (by simp))]
  | jump jump value => simp only [jumpValue_congr hev hT fun c hc ↦ hsub c (by simpa using hc)]
  | beginBlock body rescue contrary ensure =>
    refine evaluateBegin_congr hev ?_ ?_ ?_ ?_ <;> exact fun c hc ↦ hsub c (by simp_all)
  | rescue exceptions reference body subsequent =>
    have hclause : evaluateRescue task ev exceptions reference body =
        evaluateRescue task ev' exceptions reference body := by
      refine evaluateRescue_congr hev hT ?_ ?_ ?_ <;> exact fun c hc ↦ hsub c (by simp_all)
    cases subsequent with
    | none => exact hclause
    | some next => simp only [hclause, hev next (hsub next (by simp))]
  | methodDef _ receiver params body =>
    refine evaluateMethodDef_congr hev ?_ ?_ <;> exact fun c hc ↦ hsub c (by simp_all)
  | classDef path superclass body =>
    refine evaluateModuleDef_congr hev hT (hsub path (by simp)) ?_ ?_ <;>
      exact fun c hc ↦ hsub c (by simp_all)
  | moduleDef path body =>
    refine evaluateModuleDef_congr hev hT (hsub path (by simp)) (by simp) ?_
    exact fun c hc ↦ hsub c (by simp_all)
  | multiWrite targets value =>
    exact evaluateMultiWrite_congr hev hT (fun c hc ↦ hsub c (by simp [hc])) (hsub value (by simp))
  | defined inner => simp only [hev inner (hsub inner (by simp))]
  | assoc _ _ | assocSplat _ | splat _ | block _ _ =>
    have hchildren := hsequence n.children (by rwa [n.children_eq_subnodes, hkind])
    simp only [hchildren]
  | nil | missing | constTarget _ | bool _ | integer _ | float _ | rational _ | imaginary _
  | string _ _ | shell _ | symbol _ _ | regexp _ | self | varRead _ _ | varTarget _ _
  | constRead _ => rfl

end agreeing

end Eval

end FlowCompletion
