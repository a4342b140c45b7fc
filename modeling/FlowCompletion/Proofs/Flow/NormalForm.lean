import FlowCompletion.Flow.Evaluation
import FlowCompletion.Proofs.Flow.Soundness

namespace FlowCompletion

namespace Parameters

theorem wellFormed_of_mem_pair {names : List String} {types : List Ty}
    (h : ∀ t ∈ types, t.WellFormed) : ∀ p ∈ pair names types, p.2.WellFormed := by
  intro p hp
  rcases List.mem_append.mp (List.of_mem_zip hp).2 with ht | hrest
  · exact h p.2 ht
  · rw [List.eq_of_mem_replicate hrest]
    exact Ty.wellFormed_inst _

theorem wellFormed_of_mem_map {names : List String} {t : Ty} (h : t.WellFormed) :
    ∀ p ∈ names.map (·, t), p.2.WellFormed := by
  intro p hp
  obtain ⟨name, -, rfl⟩ := List.mem_map.mp hp
  exact h

theorem wellFormed_of_mem_assign (p : Parameters) {args : List Ty}
    (hargs : ∀ t ∈ args, t.WellFormed) : ∀ q ∈ p.assign args, q.2.WellFormed := by
  have hdrop (ts : List Ty) (hts : ∀ t ∈ ts, t.WellFormed) (n : Nat) :
      ∀ t ∈ ts.drop n, t.WellFormed := fun t ht ↦ hts t (List.mem_of_mem_drop ht)
  have htake (ts : List Ty) (hts : ∀ t ∈ ts, t.WellFormed) (n : Nat) :
      ∀ t ∈ ts.take n, t.WellFormed := fun t ht ↦ hts t (List.mem_of_mem_take ht)
  have hafter (n : Nat) := hdrop _ (hdrop args hargs p.required.length) n
  have hmiddle (n k : Nat) := htake _ (hafter n) k
  simp only [assign, List.forall_mem_append]
  refine ⟨⟨⟨⟨⟨⟨?_, ?_⟩, ?_⟩, ?_⟩, ?_⟩, ?_⟩, ?_⟩
  · exact wellFormed_of_mem_pair (htake args hargs _)
  · refine wellFormed_of_mem_pair ?_
    split
    · exact htake _ (hdrop args hargs _) _
    · exact hmiddle _ _
  · exact wellFormed_of_mem_pair (hdrop _ (hafter _) _)
  · exact wellFormed_of_mem_map (Ty.wellFormed_arrayOf (hmiddle _ _))
  · exact wellFormed_of_mem_map (Ty.wellFormed_inst _)
  · exact wellFormed_of_mem_map (Ty.wellFormed_hashOf (Ty.wellFormed_inst _) (Ty.wellFormed_inst _))
  · exact wellFormed_of_mem_map (Ty.wellFormed_inst _)

end Parameters

theorem wellFormed_listGetD {types : List Ty} (h : ∀ t ∈ types, t.WellFormed) {default : Ty}
    (hdefault : default.WellFormed) (i : Nat) : (types.getD i default).WellFormed := by
  rw [List.getD_eq_getElem?_getD]
  exact Ty.WellFormed.getD (fun t ht ↦ h t (List.mem_of_getElem? ht)) hdefault

theorem Node.wellFormed_of_mem_implicitArguments {body : Option Node} {args : List Ty}
    (hargs : ∀ t ∈ args, t.WellFormed) : ∀ p ∈ implicitArguments body args, p.2.WellFormed := by
  intro p hp
  rcases List.mem_append.mp hp with hp | hp
  · obtain ⟨i, -, rfl⟩ := List.mem_map.mp hp
    exact wellFormed_listGetD hargs (Ty.wellFormed_inst _) i
  · split at hp
    · rw [List.mem_singleton.mp hp]
      exact wellFormed_listGetD hargs (Ty.wellFormed_inst _) 0
    · cases hp

theorem wellFormed_of_mem_distribute {targets : List Node} {values : List Ty}
    (hvalues : ∀ t ∈ values, t.WellFormed) : ∀ t ∈ distribute targets values, t.WellFormed := by
  have hat (i : Nat) : (values.getD i Ty.nil).WellFormed :=
    wellFormed_listGetD hvalues (Ty.wellFormed_inst _) i
  have hrange (n start : Nat) :
      ∀ t ∈ (List.range n).map fun i ↦ values.getD (start + i) Ty.nil, t.WellFormed := by
    intro t ht
    obtain ⟨i, -, rfl⟩ := List.mem_map.mp ht
    exact hat _
  have hfirst (n : Nat) : ∀ t ∈ (List.range n).map (values.getD · Ty.nil), t.WellFormed := by
    intro t ht
    obtain ⟨i, -, rfl⟩ := List.mem_map.mp ht
    exact hat i
  simp only [distribute]
  split
  · exact hfirst _
  · refine List.forall_mem_append.mpr ⟨List.forall_mem_append.mpr ⟨hfirst _, ?_⟩, hrange _ _⟩
    refine List.forall_mem_singleton.mpr (Ty.wellFormed_arrayOf fun t ht ↦ hvalues t ?_)
    exact List.mem_of_mem_take (List.mem_of_mem_drop ht)

namespace Eval

variable {task : Task} {ev : Node → Eval Ty}

theorem sound_setAll {types : List (String × Ty)} (h : ∀ p ∈ types, p.2.WellFormed) :
    Sound (fun _ ↦ True) (setAll types) := by
  refine sound_change fun s hs ↦ ?_
  induction types generalizing s with
  | nil => exact hs
  | cons p types ih =>
    obtain ⟨hp, hrest⟩ := List.forall_mem_cons.mp h
    exact ih hrest _ (Scope.wellTyped_set hs hp p.1)

theorem sound_spreadArgument (p : Parameters) {args : List Ty} (hargs : ∀ t ∈ args, t.WellFormed) :
    Sound (fun ts ↦ ∀ t ∈ ts, t.WellFormed) (spreadArgument task p args) := by
  unfold spreadArgument
  split
  next only =>
    split
    · refine (ensures_resolver task).bind fun r _ ↦ ?_
      refine (sound_splitArrays (fun t ht ↦ ?_) (hargs only List.mem_cons_self)).bind fun r hr ↦ ?_
      · exact ensures_pure (Resolver.wellFormed_methodResult ht "to_ary")
      · exact ensures_pure (wellFormed_of_mem_spread (wellFormed_of_mem_unionOf? hr.1) hr.2 _)
    · exact ensures_pure hargs
  next => exact ensures_pure hargs

theorem sound_assignParameters (p : Parameters) {args : List Ty}
    (hargs : ∀ t ∈ args, t.WellFormed) : Sound (fun _ ↦ True) (assignParameters task p args) :=
  (sound_spreadArgument p hargs).bind fun _ hspread ↦
    sound_setAll (p.wellFormed_of_mem_assign hspread)

theorem sound_assignUnknown (p : Parameters) :
    Sound (fun _ ↦ True) (assignParameters task p []) :=
  sound_assignParameters p fun _ ht ↦ by cases ht

theorem wellFormed_arrayOf_singleton {t : Ty} (ht : t.WellFormed) : (Ty.arrayOf [t]).WellFormed :=
  Ty.wellFormed_arrayOf (List.forall_mem_singleton.mpr ht)

mutual

theorem sound_assign (hev : ∀ n, Sound Ty.WellFormed (ev n)) :
    (n : Node) → {value : Ty} → value.WellFormed → Sound (fun _ ↦ True) (assign task ev n value)
  | .mk _ _ kind, _, hvalue => sound_assignKind hev kind hvalue

theorem sound_assignKind (hev : ∀ n, Sound Ty.WellFormed (ev n)) (kind : NodeKind) {value : Ty}
    (hvalue : value.WellFormed) : Sound (fun _ ↦ True) (assignKind task ev kind value) := by
  unfold assignKind
  split
  · exact sound_set _ hvalue
  · exact sound_constantOwner.bind fun owner _ ↦ ensures_world.bind fun w _ ↦
      sound_setConstant w owner _ hvalue
  · exact sound_assignOptional hev _ (wellFormed_arrayOf_singleton hvalue)
  · refine (sound_spreadValue hvalue _).bind fun values hvalues ↦ ?_
    exact sound_assignEach hev _ _ (wellFormed_of_mem_distribute hvalues)
  · exact (hev _).bind fun _ _ ↦ ensures_pure trivial
  · exact ensures_pure trivial

theorem sound_assignOptional (hev : ∀ n, Sound Ty.WellFormed (ev n)) : (n : Option Node) →
    {value : Ty} → value.WellFormed → Sound (fun _ ↦ True) (assignOptional task ev n value)
  | none, _, _ => ensures_pure trivial
  | some n, _, hvalue => sound_assign hev n hvalue

theorem sound_assignEach (hev : ∀ n, Sound Ty.WellFormed (ev n)) (splatSeen : Bool)
    (targets : List Node) {values : List Ty} (hvalues : ∀ t ∈ values, t.WellFormed) :
    Sound (fun _ ↦ True) (assignEach task ev splatSeen targets values) := by
  unfold assignEach
  split
  next value values =>
    obtain ⟨hvalue, hrest⟩ := List.forall_mem_cons.mp hvalues
    refine (sound_assignOptional hev _ ?_).bind fun _ _ ↦ sound_assignEach hev _ _ hrest
    split
    · exact wellFormed_arrayOf_singleton hvalue
    · exact hvalue
  next value values _ =>
    obtain ⟨hvalue, hrest⟩ := List.forall_mem_cons.mp hvalues
    exact (sound_assign hev _ hvalue).bind fun _ _ ↦ sound_assignEach hev _ _ hrest
  next => exact ensures_pure trivial

end

section nodes

variable (hev : ∀ n, Sound Ty.WellFormed (ev n))

include hev

theorem sound_itemTypes (item : Node) :
    Sound (fun ts ↦ ∀ t ∈ ts, t.WellFormed) (itemTypes task ev item) := by
  unfold itemTypes
  split
  · exact ensures_pure nofun
  · refine (hev _).bind fun t ht ↦ (sound_partitionArrays ht.nonnillable "to_a").bind fun r hr ↦ ?_
    exact ensures_pure (List.forall_mem_append.mpr
      ⟨forall_mem_toList hr.1, forall_mem_toList hr.2⟩)
  · exact (hev item).bind fun t ht ↦ ensures_pure (List.forall_mem_singleton.mpr ht)

theorem sound_elementType (items : List Node) :
    Sound Ty.WellFormed (elementType task ev items) := by
  refine (Ensures.mapM fun item _ ↦ sound_itemTypes hev item).bind fun types htypes ↦ ?_
  refine ensures_pure (Ty.wellFormed_union fun t ht ↦ ?_)
  obtain ⟨ts, hts, ht⟩ := List.mem_flatten.mp ht
  exact htypes ts hts t ht

theorem sound_pairTypes (item : Node) :
    Sound (fun r ↦ (∀ t ∈ r.1, t.WellFormed) ∧ ∀ t ∈ r.2, t.WellFormed)
      (pairTypes task ev item) := by
  unfold pairTypes
  split
  · refine (hev _).bind fun key hkey ↦ (hev _).bind fun value hvalue ↦ ensures_pure ?_
    exact ⟨List.forall_mem_singleton.mpr hkey, List.forall_mem_singleton.mpr hvalue⟩
  · exact ensures_pure ⟨nofun, nofun⟩
  · refine (hev _).bind fun t ht ↦ (sound_convert ht "to_hash").bind fun hash hhash ↦ ?_
    refine ensures_world.bind fun w _ ↦ ensures_pure ⟨?_, ?_⟩
    · exact forall_mem_toList fun _ ↦ Ty.wellFormed_of_mem_param? hhash
    · exact forall_mem_toList fun _ ↦ Ty.wellFormed_of_mem_param? hhash
  · exact (hev item).bind fun _ _ ↦ ensures_pure ⟨nofun, nofun⟩

theorem sound_hashType (items : List Node) : Sound Ty.WellFormed (hashType task ev items) := by
  refine (Ensures.mapM fun item _ ↦ sound_pairTypes hev item).bind fun pairs hpairs ↦ ?_
  obtain ⟨hkeys, hvalues⟩ := wellFormed_of_mem_flatMap hpairs
  dsimp only
  split
  · exact ensures_pure (Ty.wellFormed_inst _)
  · exact ensures_pure (Ty.wellFormed_hashOf (Ty.wellFormed_union hkeys)
      (Ty.wellFormed_union hvalues))

theorem sound_jumpValue (value : Option Node) : Sound Ty.WellFormed (jumpValue task ev value) := by
  have harray (items : List Node) :
      Sound Ty.WellFormed (return Ty.arrayOf [← elementType task ev items]) :=
    (sound_elementType hev items).bind fun t ht ↦ ensures_pure (wellFormed_arrayOf_singleton ht)
  cases value with
  | none => exact ensures_pure (Ty.wellFormed_inst _)
  | some n =>
    simp only [jumpValue]
    split
    · split
      · exact harray _
      · exact hev _
    · exact harray _
    · exact hev n

theorem sound_argumentType (argument : Node) :
    Sound (fun o ↦ ∀ t ∈ o, t.WellFormed) (argumentType ev argument) := by
  unfold argumentType
  split
  · exact (sound_optional hev _).bind fun _ _ ↦ ensures_pure fun _ h ↦ by cases h
  · exact (hev argument).bind fun t ht ↦ ensures_pure fun _ ↦ ht.of_mem_some

theorem sound_keywordType (item : Node) :
    Sound (fun ps ↦ ∀ p ∈ ps, p.2.WellFormed) (keywordType ev item) := by
  unfold keywordType
  split
  · split
    · exact (hev _).bind fun t ht ↦ ensures_pure (List.forall_mem_singleton.mpr ht)
    · exact (hev _).bind fun _ _ ↦ (hev _).bind fun _ _ ↦ ensures_pure nofun
  · exact (hev item).bind fun _ _ ↦ ensures_pure nofun

theorem sound_callArguments (arguments : Option Node) :
    Sound CallArguments.WellFormed (callArguments ev arguments) := by
  rw [callArguments]
  refine (Ensures.mapM fun n _ ↦ sound_argumentType hev n).bind fun positional hpositional ↦ ?_
  refine (Ensures.mapM fun n _ ↦ sound_keywordType hev n).bind fun keywords hkeywords ↦ ?_
  refine ensures_pure ⟨fun t ht ↦ hpositional _ ht t rfl, fun p hp ↦ ?_⟩
  obtain ⟨ps, hps, hp⟩ := List.mem_flatten.mp hp
  exact hkeywords ps hps p hp

theorem sound_blockBody (params : Parameters) (body : Option Node) {args : List Ty}
    (hargs : ∀ t ∈ args, t.WellFormed) :
    Sound Ty.WellFormed (blockBody task ev params body args) := by
  rw [blockBody]
  split
  · exact (sound_setAll (Node.wellFormed_of_mem_implicitArguments hargs)).bind
      fun _ _ ↦ sound_optional hev body
  · exact (sound_assignParameters params hargs).bind fun _ _ ↦ sound_optional hev body

theorem sound_insideBlock (params : Parameters) (body : Option Node) {args : List Ty}
    (hargs : ∀ t ∈ args, t.WellFormed) :
    Sound (fun r ↦ r.1.WellFormed ∧ (∀ t ∈ r.2.1, t.WellFormed) ∧ ∀ t ∈ r.2.2, t.WellFormed)
      (insideBlock task ev params body args) := by
  refine (sound_blockBody hev params body hargs).bind fun result hresult ↦ ?_
  refine sound_mergeJumps.bind fun _ _ ↦ sound_scope.bind fun s hs ↦ ?_
  refine ensures_world.bind fun w _ ↦ ensures_pure ⟨hresult, ?_, ?_⟩
  · exact Scope.wellTyped_lookup hs _
  · exact Scope.wellTyped_lookup hs _

theorem sound_runLiteral (n : Node) (params : Parameters) (body : Option Node) :
    BlockRun.Sound (runLiteral task ev n params body) := by
  intro args self hargs hself
  refine (sound_conditional (P := fun r ↦ r.1.WellFormed ∧ ∀ t ∈ r.2, t.WellFormed)
    ((sound_nested hself (wellFormed_declared _ _) (sound_insideBlock hev params body hargs)).bind
      fun r hr ↦ ensures_pure ⟨?_, hr.2.2⟩)).bind fun ran hran ↦ ensures_pure ?_
  · refine Ty.wellFormed_union (List.forall_mem_append.mpr ⟨?_, forall_mem_toList hr.2.1⟩)
    split
    · exact nofun
    · exact List.forall_mem_singleton.mpr hr.1
  · cases ran with
    | none => exact ⟨Ty.wellFormed_inst _, fun _ h ↦ by cases h⟩
    | some r => exact hran r rfl

omit hev in
theorem sound_runSymbol (name : String) (index : Nat) :
    BlockRun.Sound (runSymbol task name index) := by
  intro args self hargs _
  have hreceiver : (args.headD Ty.object).WellFormed := by
    cases args with
    | nil => exact Ty.wellFormed_inst _
    | cons t rest => exact hargs t List.mem_cons_self
  have hrest : CallArguments.WellFormed { positional := args.tail.map some } := by
    refine ⟨fun t ht ↦ ?_, nofun⟩
    obtain ⟨u, hu, heq⟩ := List.mem_map.mp ht
    exact Option.some.inj heq ▸ hargs u (List.mem_of_mem_tail hu)
  refine (sound_stopAt task index hreceiver).bind fun _ _ ↦ ?_
  refine (sound_call (fun _ hr ↦ by cases hr) hreceiver hrest name true).bind fun t ht ↦ ?_
  exact ensures_pure ⟨ht, fun _ h ↦ by cases h⟩

omit hev in
theorem sound_runUnknown : BlockRun.Sound runUnknown :=
  fun _ _ _ _ ↦ ensures_pure ⟨Ty.wellFormed_inst _, fun _ h ↦ by cases h⟩

theorem sound_blockOf (block : Option Node) :
    Sound (fun run ↦ ∀ r ∈ run, BlockRun.Sound r) (blockOf task ev block) := by
  have hnone : Sound (fun run ↦ ∀ r ∈ run, BlockRun.Sound r) (pure none) :=
    ensures_pure fun _ h ↦ by cases h
  have hsome {run : BlockRun} (hrun : BlockRun.Sound run) :
      Sound (fun run ↦ ∀ r ∈ run, BlockRun.Sound r) (pure (some run)) :=
    ensures_pure fun r hr ↦ Option.mem_some.mp hr ▸ hrun
  cases block with
  | none => exact hnone
  | some n =>
    simp only [blockOf]
    split
    · exact hsome (sound_runLiteral hev n _ _)
    · exact hsome sound_runUnknown
    · split
      · exact hsome (sound_runSymbol _ _)
      · exact (hev _).bind fun _ _ ↦ hsome sound_runUnknown
    · exact hnone

theorem sound_callNode (n : Node) (name : String) (arguments block : Option Node) {receiver : Ty}
    (hreceiver : receiver.WellFormed) :
    Sound Ty.WellFormed (callNode task ev n name arguments block receiver) := by
  rw [callNode]
  refine (sound_callArguments hev arguments).bind fun args hargs ↦ ?_
  refine (sound_blockOf hev block).bind fun run hrun ↦ ?_
  refine (sound_call hrun hreceiver hargs name true).bind fun result hresult ↦ ?_
  split
  · refine ensures_pure (Ty.WellFormed.getD (fun t ht ↦ ?_) (Ty.wellFormed_inst _))
    exact hargs.positional t (List.mem_of_getLast? (Option.join_eq_some_iff.mp ht))
  · exact ensures_pure hresult

theorem sound_evaluateCall (n : Node) (receiver : Option Node) (operator : Option CallOperator)
    (name : String) (arguments block : Option Node) :
    Sound Ty.WellFormed (evaluateCall task ev n receiver operator name arguments block) := by
  have hrest (receiver : Ty) (hreceiver : receiver.WellFormed) : Sound Ty.WellFormed (do
      if operator = some .safeNav then
        let result ← conditional (callNode task ev n name arguments block receiver.nonnillable)
        return Ty.union (result.toList ++ if receiver.nillable then [Ty.nil] else [])
      callNode task ev n name arguments block receiver) := by
    split
    · refine (sound_conditional (sound_callNode hev n name arguments block
        hreceiver.nonnillable)).bind fun result hresult ↦ ensures_pure ?_
      refine Ty.wellFormed_union (List.forall_mem_append.mpr ⟨forall_mem_toList hresult, ?_⟩)
      split
      · exact List.forall_mem_singleton.mpr (Ty.wellFormed_inst _)
      · exact nofun
    · exact sound_callNode hev n name arguments block hreceiver
  cases receiver with
  | none => exact sound_selfType.bind hrest
  | some n => exact (hev n).bind hrest

omit hev in
theorem wellFormed_receiverOf (w : World) {x : Member} (h : (Ty.ofMember x).WellFormed) :
    (receiverOf w x).WellFormed := by
  cases x with
  | itself m =>
    rw [receiverOf]
    split
    · exact Ty.wellFormed_inst m
    · exact Ty.wellFormed_singleton m
  | instanceOf cls params samples cell => exact h

theorem sound_methodBody (n : Node) (params : Parameters) {receiver : Ty}
    (hreceiver : receiver.WellFormed) (body : Option Node) :
    Sound (fun _ ↦ True) (methodBody task ev n params receiver body) := by
  cases body with
  | none => exact ensures_pure trivial
  | some body =>
    have hinside : Sound (fun _ ↦ True) (do
        assignParameters task params []
        let _ ← conditional (ev body)
        mergeJumps) :=
      (sound_assignUnknown params).bind fun _ _ ↦
        (sound_conditional (hev body)).bind fun _ _ ↦ sound_mergeJumps
    exact (sound_nested (fun _ ↦ hreceiver.of_mem_some) (wellFormed_declared _ _) hinside).bind
      fun _ _ ↦ ensures_pure trivial

theorem sound_evaluateMethodDef (n : Node) (receiver : Option Node) (params : Parameters)
    (body : Option Node) :
    Sound Ty.WellFormed (evaluateMethodDef task ev n receiver params body) := by
  have hbody (self : Ty) (hself : self.WellFormed) : Sound Ty.WellFormed (do
      methodBody task ev n params self (bodyToDig task body)
      return Ty.symbol) :=
    (sound_methodBody hev n params hself _).bind fun _ _ ↦ ensures_pure (Ty.wellFormed_inst _)
  rw [evaluateMethodDef]
  refine ensures_world.bind fun w _ ↦ ?_
  cases receiver with
  | none =>
    have hself : Sound Ty.WellFormed ((·.transform (receiverOf w)) <$> selfType) :=
      sound_selfType.map fun t ht ↦
        Ty.wellFormed_transform fun x hx ↦ wellFormed_receiverOf w (ht.ofMember hx)
    exact hself.bind hbody
  | some n => exact (hev n).bind hbody

theorem sound_definitionPlace (path : Node) : Sound (fun _ ↦ True) (definitionPlace ev path) := by
  rw [definitionPlace]
  split
  · exact sound_constantOwner.bind fun _ _ ↦ ensures_pure trivial
  · exact (hev _).bind fun _ _ ↦ ensures_pure trivial
  · exact ensures_pure trivial
  · exact (hev _).bind fun _ _ ↦ ensures_pure trivial

omit hev in
theorem sound_defineModule (owner : ModuleId) (name : String) (isClass : Bool)
    (superclass : Option ModuleId) :
    Sound (fun _ ↦ True) (defineModule owner name isClass superclass) := by
  refine ensures_world.bind fun w _ ↦ (ensures_modify fun f hf ↦ ?_).bind
    fun _ _ ↦ ensures_pure trivial
  exact ⟨Scope.wellTyped_setConstant hf.scope (Ty.wellFormed_singleton _) _ owner name, hf.probed⟩

theorem sound_superclassOf (superclass : Option Node) :
    Sound (fun _ ↦ True) (superclassOf ev superclass) := by
  cases superclass with
  | none => exact ensures_pure trivial
  | some n => exact (hev n).bind fun t _ ↦ ensures_world.bind fun w _ ↦ ensures_pure trivial

omit hev in
theorem sound_openModule (owner : ModuleId) (name : String) (isClass : Bool)
    (superclass : Option ModuleId) (known : Ty) :
    Sound (fun _ ↦ True) (openModule owner name isClass superclass known) := by
  rw [openModule]
  refine ensures_world.bind fun w _ ↦ ?_
  split
  · exact ensures_pure trivial
  · exact sound_defineModule owner name isClass superclass

theorem sound_moduleBody (m : ModuleId) (body : Option Node) :
    Sound Ty.WellFormed (moduleBody ev m body) := by
  cases body with
  | none => exact ensures_pure (Ty.wellFormed_inst _)
  | some body =>
    refine (sound_nested (fun _ ↦ (Ty.wellFormed_singleton m).of_mem_some) (wellFormed_unwritten _)
      (hev body)).bind fun r hr ↦ ensures_pure hr

theorem sound_evaluateModuleDef (path : Node) (superclass body : Option Node) (isClass : Bool) :
    Sound Ty.WellFormed (evaluateModuleDef task ev path superclass body isClass) := by
  rw [evaluateModuleDef]
  refine (sound_definitionPlace hev path).bind fun place _ ↦ ?_
  split
  · exact ensures_pure (Ty.wellFormed_inst _)
  · refine (hev path).bind fun known _ ↦ (sound_superclassOf hev superclass).bind fun cls _ ↦ ?_
    exact (sound_openModule _ _ _ _ _).bind fun m _ ↦ sound_moduleBody hev m _

theorem sound_sequence (items : List Node) : Sound Ty.WellFormed (sequence ev items) :=
  Ensures.foldlM (fun _ _ n ↦ hev n) items (Ty.wellFormed_inst _)

theorem sound_evaluateBranches (whenTrue whenFalse : Option Node) :
    Sound Ty.WellFormed (evaluateBranches ev whenTrue whenFalse) :=
  (sound_pair (sound_optional hev _) (sound_optional hev _)).bind fun _ hresults ↦
    ensures_pure (Ty.wellFormed_union hresults)

theorem sound_loopBody (body : Option Node) :
    Sound (fun o ↦ ∀ t ∈ o, t.WellFormed) (loopBody ev body) := by
  have hrest : Sound (fun o ↦ ∀ t ∈ o, t.WellFormed) (do
      mergeJumps
      return (← scope).get? (← world) Label.toBreak) :=
    sound_mergeJumps.bind fun _ _ ↦ sound_get? _
  cases body with
  | none => exact hrest
  | some n => exact (sound_conditional (hev n)).bind fun _ _ ↦ hrest

omit hev in
theorem wellFormed_elim_union {breaks : Option Ty} (hbreaks : ∀ t ∈ breaks, t.WellFormed) {t : Ty}
    (ht : t.WellFormed) : (breaks.elim t fun u ↦ Ty.union [u, t]).WellFormed := by
  cases breaks with
  | none => exact ht
  | some u => exact Ty.wellFormed_union (Ty.wellFormed_of_mem_pair (hbreaks u rfl) ht)

theorem sound_evaluateLoop (predicate : Node) (body : Option Node) :
    Sound Ty.WellFormed (evaluateLoop ev predicate body) := by
  have hloop := (hev predicate).bind fun _ _ ↦ sound_loopBody hev body
  refine (sound_nested (fun _ h ↦ by cases h) (wellFormed_labels _) hloop).bind fun r hr ↦ ?_
  exact ensures_pure (wellFormed_elim_union hr (Ty.wellFormed_inst _))

theorem sound_evaluateFor (index collection : Node) (body : Option Node) :
    Sound Ty.WellFormed (evaluateFor task ev index collection body) := by
  refine (hev collection).bind fun t ht ↦ ?_
  refine (sound_nested (P := fun o ↦ ∀ t ∈ o, t.WellFormed) (fun _ h ↦ by cases h)
    (wellFormed_labels _) ?_).bind fun r hr ↦ ensures_pure (wellFormed_elim_union hr ht)
  refine (sound_partitionArrays ht "to_ary").bind fun parts hparts ↦ ?_
  refine (sound_assign hev index (Ty.wellFormed_union ?_)).bind fun _ _ ↦ sound_loopBody hev body
  exact List.forall_mem_append.mpr ⟨forall_mem_toList hparts.1, forall_mem_toList hparts.2⟩

omit hev in
theorem wellFormed_exceptionType (w : World) (classes : Ty) :
    (exceptionType w classes).WellFormed := by
  unfold exceptionType
  split
  · exact Ty.wellFormed_inst _
  · refine Ty.wellFormed_union fun t ht ↦ ?_
    obtain ⟨cls, -, rfl⟩ := List.mem_map.mp ht
    exact Ty.wellFormed_inst cls

theorem sound_evaluateRescue (exceptions : List Node) (reference body : Option Node) :
    Sound Ty.WellFormed (evaluateRescue task ev exceptions reference body) := by
  refine (sound_elementType hev exceptions).bind fun classes _ ↦ ?_
  cases reference with
  | none => exact sound_optional hev body
  | some target =>
    refine ensures_world.bind fun w _ ↦ ?_
    exact (sound_assign hev target (wellFormed_exceptionType w classes)).bind
      fun _ _ ↦ sound_optional hev body

omit hev in
theorem wellFormed_union_cons {t : Ty} (ht : t.WellFormed) {o : Option Ty}
    (ho : ∀ u ∈ o, u.WellFormed) : (Ty.union (t :: o.toList)).WellFormed :=
  Ty.wellFormed_union (List.forall_mem_cons.mpr ⟨ht, forall_mem_toList ho⟩)

theorem sound_evaluateBegin (body rescue otherwise ensure : Option Node) :
    Sound Ty.WellFormed (evaluateBegin ev body rescue otherwise ensure) := by
  have hensure (t : Ty) (ht : t.WellFormed) : Sound Ty.WellFormed (do
      let _ ← optional ev ensure
      return t) :=
    (sound_optional hev ensure).bind fun _ _ ↦ ensures_pure ht
  refine (sound_optional hev body).bind fun t ht ↦ ?_
  cases rescue with
  | none => exact (ensures_pure ht).bind hensure
  | some rescue =>
    cases otherwise with
    | none =>
      have hrescue : Sound Ty.WellFormed
          ((fun o ↦ Ty.union (t :: o.toList)) <$> conditional (ev rescue)) :=
        (sound_conditional (hev rescue)).map fun _ ho ↦ wellFormed_union_cons ht ho
      exact hrescue.bind hensure
    | some otherwise =>
      have hboth : Sound Ty.WellFormed (Ty.union <$> branches [ev rescue, ev otherwise]) :=
        (sound_pair (hev rescue) (hev otherwise)).map fun _ ↦ Ty.wellFormed_union
      exact hboth.bind hensure

theorem sound_evaluateMultiWrite (targets : List Node) (value : Node) :
    Sound Ty.WellFormed (evaluateMultiWrite task ev targets value) := by
  have hassign (r : List Ty × Ty) (hr : (∀ t ∈ r.1, t.WellFormed) ∧ r.2.WellFormed) :
      Sound Ty.WellFormed (do
        assignAll task ev targets r.1
        return r.2) :=
    (sound_assignEach hev _ _ (wellFormed_of_mem_distribute hr.1)).bind
      fun _ _ ↦ ensures_pure hr.2
  have hwhole : Sound (fun r ↦ (∀ t ∈ r.1, t.WellFormed) ∧ r.2.WellFormed) (do
      let t ← ev value
      return (← spreadValue task t targets.length, t)) :=
    (hev value).bind fun t ht ↦ (sound_spreadValue ht _).bind fun _ hvalues ↦
      ensures_pure ⟨hvalues, ht⟩
  rw [evaluateMultiWrite]
  split
  · split
    · exact hwhole.bind hassign
    · refine (Ensures.mapM fun n _ ↦ hev n).bind fun values hvalues ↦ ?_
      exact hassign (values, Ty.arrayOf values) ⟨hvalues, Ty.wellFormed_arrayOf hvalues⟩
  · exact hwhole.bind hassign

theorem sound_evaluateLambda (n : Node) (params : Parameters) (body : Option Node) :
    Sound Ty.WellFormed (evaluateLambda task ev n params body) := by
  have hbody : Sound Ty.WellFormed (do
      assignParameters task params []
      optional ev body) :=
    (sound_assignUnknown params).bind fun _ _ ↦ sound_optional hev body
  have hinside := (sound_conditional hbody).bind fun _ _ ↦ sound_mergeJumps
  exact (sound_nested (fun _ h ↦ by cases h) (wellFormed_declared _ _) hinside).bind fun _ _ ↦
    ensures_pure (Ty.wellFormed_inst _)

omit hev in
theorem sound_write (name : String) {t : Ty} (ht : t.WellFormed) :
    Sound Ty.WellFormed (write name t) :=
  (sound_set name ht).bind fun _ _ ↦ ensures_pure ht

theorem sound_evaluateKind (n : Node) : Sound Ty.WellFormed (evaluateKind task ev n) := by
  have hoptional (n : Option Node) : Sound Ty.WellFormed (optional ev n) := sound_optional hev n
  have hconditional (n : Node) := sound_conditional (hev n)
  have hinst {cls : ModuleId} : Sound Ty.WellFormed (pure (Ty.inst cls)) :=
    ensures_pure (Ty.wellFormed_inst cls)
  have hconstant {t : Option Ty} (ht : ∀ u ∈ t, u.WellFormed) :
      Sound Ty.WellFormed (pure (constantOr t)) :=
    ensures_pure (Ty.WellFormed.getD ht (Ty.wellFormed_inst _))
  unfold evaluateKind
  cases n.kind with
  | program body => exact hev body
  | statements items => exact sound_sequence hev items
  | parentheses inner | otherwise inner => exact hoptional inner
  | self => exact sound_selfType
  | interpolated quoting parts =>
    refine (sound_sequence hev parts).bind fun _ _ ↦ ?_
    cases quoting <;> exact hinst
  | array items =>
    exact (sound_elementType hev items).bind fun t ht ↦
      ensures_pure (wellFormed_arrayOf_singleton ht)
  | hash items | keywordHash items => exact sound_hashType hev items
  | range left right _ =>
    refine (Ensures.mapM fun n _ ↦ hev n).bind fun bounds hbounds ↦ ensures_pure ?_
    exact Ty.wellFormed_instWith
      (List.forall_mem_singleton.mpr (Ty.wellFormed_union hbounds).nonnillable)
  | varRead _ name | varTarget _ name => exact sound_read name
  | varWrite _ name value => exact (hev value).bind fun t ht ↦ sound_write name ht
  | varOpWrite _ name operator value =>
    refine (sound_read name).bind fun left hleft ↦ (hev value).bind fun right hright ↦ ?_
    have hargs : CallArguments.WellFormed { positional := [some right] } := by
      refine ⟨fun t ht ↦ ?_, nofun⟩
      exact Option.some.inj (List.mem_singleton.mp ht) ▸ hright
    exact (sound_call (fun _ hr ↦ by cases hr) hleft hargs operator false).bind
      fun t ht ↦ sound_write name ht
  | varOrWrite _ name value =>
    refine (sound_read name).bind fun left hleft ↦ (hconditional value).bind fun right hright ↦ ?_
    refine sound_write name (Ty.wellFormed_union (List.forall_mem_append.mpr
      ⟨fun t ht ↦ ?_, forall_mem_toList hright⟩))
    obtain ⟨x, hx, rfl⟩ := List.mem_map.mp ht
    exact hleft.ofMember (List.mem_filter.mp hx).1
  | varAndWrite _ name value =>
    refine (sound_read name).bind fun left hleft ↦ (hconditional value).bind fun right hright ↦ ?_
    exact sound_write name (wellFormed_union_cons hleft hright)
  | constRead name =>
    exact sound_scope.bind fun s hs ↦ ensures_world.bind fun w _ ↦
      hconstant (Scope.wellTyped_resolveConstant hs name)
  | constPath parent name =>
    cases parent with
    | none =>
      exact sound_scope.bind fun s hs ↦ ensures_world.bind fun w _ ↦
        hconstant (Scope.wellTyped_constant? hs _ name)
    | some parent =>
      refine (hev parent).bind fun t _ ↦ sound_scope.bind fun s hs ↦ ?_
      refine ensures_world.bind fun w _ ↦ hconstant fun u hu ↦ ?_
      obtain ⟨m, -, hu⟩ := Option.bind_eq_some_iff.mp hu
      exact Scope.wellTyped_constant? hs m name u hu
  | constWrite name value =>
    refine (hev value).bind fun t ht ↦ sound_constantOwner.bind fun owner _ ↦ ?_
    refine ensures_world.bind fun w _ ↦ ?_
    exact (sound_setConstant w owner name ht).bind fun _ _ ↦ ensures_pure ht
  | call receiver operator name arguments block _ =>
    exact sound_evaluateCall hev n receiver operator name arguments block
  | arguments items => exact (sound_sequence hev items).bind fun _ _ ↦ hinst
  | blockArgument inner => exact (hoptional inner).bind fun _ _ ↦ hinst
  | lambda params body => exact sound_evaluateLambda hev n params body
  | yield arguments | super arguments => exact (hoptional arguments).bind fun _ _ ↦ hinst
  | ifThen predicate body contrary | unlessThen predicate body contrary =>
    exact (hev predicate).bind fun _ _ ↦ sound_evaluateBranches hev body contrary
  | caseOf subject conditions contrary =>
    refine (hoptional subject).bind fun _ _ ↦ (sound_branches fun body hbody ↦ ?_).bind
      fun _ hresults ↦ ensures_pure (Ty.wellFormed_union hresults)
    rcases List.mem_append.mp hbody with hbody | hbody
    · obtain ⟨c, -, rfl⟩ := List.mem_map.mp hbody
      exact hev c
    · obtain rfl := List.mem_singleton.mp hbody
      exact hoptional contrary
  | whenClause conditions body =>
    exact (sound_sequence hev conditions).bind fun _ _ ↦ hoptional body
  | whileLoop predicate body | untilLoop predicate body =>
    exact sound_evaluateLoop hev predicate body
  | forLoop index collection body => exact sound_evaluateFor hev index collection body
  | and left right =>
    refine (hev left).bind fun _ _ ↦ (hconditional right).bind fun o ho ↦ ensures_pure ?_
    refine Ty.wellFormed_union (List.forall_mem_append.mpr ⟨forall_mem_toList ho, ?_⟩)
    exact Ty.wellFormed_of_mem_pair (Ty.wellFormed_inst _) (Ty.wellFormed_inst _)
  | or left right =>
    refine (hev left).bind fun t ht ↦ (hconditional right).bind fun o ho ↦ ?_
    exact ensures_pure (wellFormed_union_cons ht ho)
  | jump jump value =>
    refine (sound_jumpValue hev value).bind fun t ht ↦ ?_
    exact (sound_change fun s hs ↦ Scope.wellTyped_jump hs ht jump.label).bind fun _ _ ↦ hinst
  | beginBlock body rescue contrary ensure =>
    exact sound_evaluateBegin hev body rescue contrary ensure
  | rescue exceptions reference body subsequent =>
    have hclause : Sound Ty.WellFormed (evaluateRescue task ev exceptions reference body) :=
      sound_evaluateRescue hev exceptions reference body
    cases subsequent with
    | none => exact hclause
    | some next =>
      exact (sound_pair hclause (hev next)).bind fun _ hresults ↦
        ensures_pure (Ty.wellFormed_union hresults)
  | rescueModifier expression fallback =>
    refine (hev expression).bind fun t ht ↦ (hconditional fallback).bind fun o ho ↦ ?_
    exact ensures_pure (wellFormed_union_cons ht ho)
  | methodDef _ receiver params body => exact sound_evaluateMethodDef hev n receiver params body
  | classDef path superclass body =>
    exact sound_evaluateModuleDef hev path superclass body true
  | moduleDef path body => exact sound_evaluateModuleDef hev path none body false
  | multiWrite targets value => exact sound_evaluateMultiWrite hev targets value
  | defined inner =>
    refine (hconditional inner).bind fun _ _ ↦ ensures_pure (Ty.wellFormed_union ?_)
    exact Ty.wellFormed_of_mem_pair (Ty.wellFormed_inst _) (Ty.wellFormed_inst _)
  | assoc _ _ | assocSplat _ | splat _ | block _ _ =>
    exact (sound_sequence hev n.children).bind fun _ _ ↦ hinst
  | nil | missing | constTarget _ | bool _ | integer _ | float _ | rational _ | imaginary _
  | string _ _ | shell _ | symbol _ _ | regexp _ => exact hinst

end nodes

theorem sound_evaluate (depth : Nat) (n : Node) :
    Sound Ty.WellFormed (evaluate task depth n) := by
  -- By depth: each kind of node is sound over a sound evaluator of the nodes below.
  induction depth generalizing n with
  | zero => exact ensures_throw trivial
  | succ depth ih =>
    have hstop (t : Ty) (ht : t.WellFormed) : Sound Ty.WellFormed (do
        stopAt task n.index t
        return t) :=
      (sound_stopAt task n.index ht).bind fun _ _ ↦ ensures_pure ht
    refine (sound_evaluateKind ih n).bind fun t ht ↦ ?_
    dsimp only
    split
    · refine (ensures_modify fun f hf ↦ ?_).bind fun _ _ ↦ hstop t ht
      exact ⟨hf.scope, fun _ ↦ ht.of_mem_some⟩
    · exact hstop t ht

end Eval

namespace Flow

def start (w : World) (binding : Binding) (root : Node) : Flow where
  world := w
  scope := Scope.enter ⟨{ binding, declared := root.declaredLocals }, []⟩ {} Eval.allLabels

theorem wellTyped_start (w : World) (binding : Binding) (root : Node) :
    (start w binding root).WellTyped := by
  refine ⟨Scope.wellTyped_enter nofun (fun _ h ↦ by cases h) (Eval.wellFormed_labels _), ?_⟩
  exact fun _ h ↦ by cases h

end Flow

theorem exists_stops_of_findTarget {task : Task} {w : World} {binding : Binding} {root : Node}
    {found : Found} (h : findTarget task w binding root = .ok (some found)) :
    ∃ flow, Eval.Stops (Eval.evaluate task task.maxDepth root) (.start w binding root)
        (.found found.type) flow ∧
      found = ⟨found.type, flow.scope.snapshot flow.world, flow.probed, flow.world⟩ := by
  unfold findTarget at h
  cases hrun : (Eval.evaluate task task.maxDepth root).run.run (.start w binding root) with
  | mk outcome flow =>
    rw [Flow.start] at hrun
    simp only [hrun] at h
    cases outcome with
    | ok t => cases h
    | error halt =>
      cases halt with
      | found t =>
        cases h
        exact ⟨flow, hrun, rfl⟩
      | tooDeep span => cases h

/-- Whatever is known at a target is in normal form to any depth: its type, the type of the probe,
the receiver and all variables. -/
theorem found_in_normal_form (task : Task) (w : World) (binding : Binding) (root : Node)
    (found : Found) (h : findTarget task w binding root = .ok (some found)) :
    (∀ u, found.type.Holds found.world u → u.WellFormed) ∧
      (∀ t ∈ found.probed, ∀ u, t.Holds found.world u → u.WellFormed) ∧
      (∀ u, found.scope.selfType.Holds found.world u → u.WellFormed) ∧
      ∀ p ∈ found.scope.types, ∀ u, p.2.Holds found.world u → u.WellFormed := by
  obtain ⟨flow, hstops, heq⟩ := exists_stops_of_findTarget h
  have hstart := Flow.wellTyped_start w binding root
  obtain ⟨hflow, htype⟩ := (Eval.sound_evaluate _ root).stops hstart hstops
  rw [heq]
  refine ⟨fun u hu ↦ ?_, fun t ht u hu ↦ ?_, fun u hu ↦ ?_, fun p hp u hu ↦ ?_⟩
  · exact Ty.WellFormed.holds htype hu
  · exact (hflow.probed t ht).holds hu
  · exact (Scope.wellFormed_selfType hflow.scope flow.world).holds hu
  · exact (Scope.wellFormed_of_mem_snapshot hflow.scope hp).holds hu

/-- One branch makes `a` an array of an integer, the other one of `nil`; then `a` is read. -/
def arraysRoot : Node :=
  let write (n : Nat) (item : NodeKind) : Node :=
    .mk {} n (.varWrite .lvar "a" (.mk {} (n + 1) (.array [.mk {} (n + 2) item])))
  .mk {} 0 (.statements [
    .mk {} 1 (.ifThen (.mk {} 2 .self) (some (write 3 (.integer 1))) (some (write 6 .nil))),
    .mk {} 9 (.varRead .lvar "a")])

def arraysTask : Task := { target := 9, probe := some 1, maxDepth := 8 }

theorem found_in_normal_form_arrays :
    ∃ found, findTarget arraysTask {} { receiver := .ofModule .object } arraysRoot =
        .ok (some found) ∧
      (found.type.param? found.world "Elem").map Ty.kinds =
        some [.instanceOf .integer, .instanceOf .nilClass] ∧
      found.probed.map Ty.kinds = some [.instanceOf .array] ∧
      found.scope.types.map Prod.fst = ["a"] ∧
      found.type.WellFormed ∧ (∀ t ∈ found.probed, t.WellFormed) ∧
      found.scope.selfType.WellFormed ∧ ∀ p ∈ found.scope.types, p.2.WellFormed := by
  have hruns : (findTarget arraysTask {} { receiver := .ofModule .object }
      arraysRoot).toOption.join.map (fun found ↦
        ((found.type.param? found.world "Elem").map Ty.kinds, found.probed.map Ty.kinds,
          found.scope.types.map Prod.fst)) =
      some (some [.instanceOf .integer, .instanceOf .nilClass], some [.instanceOf .array],
        ["a"]) := by
    decide +kernel
  obtain ⟨found, hfound, hshape⟩ := Option.map_eq_some_iff.mp hruns
  simp only [Prod.mk.injEq] at hshape
  have hresult : findTarget arraysTask {} { receiver := .ofModule .object } arraysRoot =
      .ok (some found) := by
    cases hresult : findTarget arraysTask {} { receiver := .ofModule .object } arraysRoot with
    | error e =>
      rw [hresult] at hfound
      cases hfound
    | ok result =>
      rw [hresult] at hfound
      exact congrArg Except.ok hfound
  obtain ⟨htype, hprobed, hself, hvariables⟩ := found_in_normal_form _ _ _ _ found hresult
  exact ⟨found, hresult, hshape.1, hshape.2.1, hshape.2.2, htype _ (.refl _),
    fun t ht ↦ hprobed t ht t (.refl t), hself _ (.refl _),
    fun p hp ↦ hvariables p hp p.2 (.refl p.2)⟩

end FlowCompletion
