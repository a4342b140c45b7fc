import FlowCompletion.Proofs.Flow.Outcomes
import FlowCompletion.Proofs.Resolution.NormalForm
import FlowCompletion.Proofs.Scope.WellTyped

namespace FlowCompletion

structure Flow.WellTyped (f : Flow) : Prop where
  scope : f.scope.WellTyped
  probed : ∀ t ∈ f.probed, t.WellFormed

def Halt.WellTyped : Halt → Prop
  | .found t => t.WellFormed
  | .tooDeep _ => True

namespace Eval

variable {α : Type} {P : α → Prop}

abbrev Sound (P : α → Prop) (m : Eval α) : Prop := Ensures Flow.WellTyped Halt.WellTyped P m

theorem sound_change {op : Scope → Scope} (h : ∀ s : Scope, s.WellTyped → (op s).WellTyped) :
    Sound (fun _ ↦ True) (change op) :=
  ensures_modify fun f hf ↦ ⟨h f.scope hf.scope, hf.probed⟩

theorem sound_scope : Sound Scope.WellTyped scope := ensures_scope fun _ hf ↦ hf.scope

theorem sound_read (name : String) : Sound Ty.WellFormed (read name) := by
  refine sound_scope.bind fun s hs ↦ ensures_world.bind fun w _ ↦ ensures_pure ?_
  exact Ty.WellFormed.getD (Scope.wellTyped_lookup hs _) (Ty.wellFormed_inst _)

theorem sound_selfType : Sound Ty.WellFormed selfType :=
  sound_scope.bind fun _ hs ↦ ensures_world.bind fun w _ ↦
    ensures_pure (Scope.wellFormed_selfType hs w)

theorem sound_constantOwner : Sound (fun _ ↦ True) constantOwner :=
  sound_scope.bind fun _ _ ↦ ensures_pure trivial

theorem sound_stopAt (task : Task) (index : Nat) {t : Ty} (ht : t.WellFormed) :
    Sound (fun _ ↦ True) (stopAt task index t) := by
  rw [stopAt]
  split
  · exact ensures_throw ht
  · exact ensures_pure trivial

theorem sound_set (name : String) {t : Ty} (ht : t.WellFormed) :
    Sound (fun _ ↦ True) (change (·.set name t)) :=
  sound_change fun _ hs ↦ Scope.wellTyped_set hs ht name

theorem sound_setConstant (w : World) (m : ModuleId) (name : String) {t : Ty}
    (ht : t.WellFormed) : Sound (fun _ ↦ True) (change (·.setConstant w m name t)) :=
  sound_change fun _ hs ↦ Scope.wellTyped_setConstant hs ht w m name

theorem sound_mergeJumps : Sound (fun _ ↦ True) mergeJumps :=
  ensures_world.bind fun w _ ↦ sound_change fun _ hs ↦ Scope.wellTyped_mergeJumps hs w

theorem sound_get? (name : String) :
    Sound (fun t ↦ ∀ u ∈ t, u.WellFormed) (return (← scope).get? (← world) name) :=
  sound_scope.bind fun _ hs ↦ ensures_world.bind fun _ _ ↦
    ensures_pure (Scope.wellTyped_lookup hs _)

theorem wellFormed_labels (names : List String) : ∀ d ∈ labels names, ∀ t ∈ d.2, t.WellFormed := by
  intro d hd t ht
  obtain ⟨name, -, rfl⟩ := List.mem_map.mp hd
  cases ht

theorem wellFormed_unwritten (names : List String) :
    ∀ d ∈ unwritten names, ∀ t ∈ d.2, t.WellFormed := by
  intro d hd t ht
  obtain ⟨name, -, rfl⟩ := List.mem_map.mp hd
  exact (Ty.wellFormed_inst _).of_mem_some ht

theorem wellFormed_declared (locals names : List String) :
    ∀ d ∈ unwritten locals ++ labels names, ∀ t ∈ d.2, t.WellFormed :=
  List.forall_mem_append.mpr ⟨wellFormed_unwritten locals, wellFormed_labels names⟩

section frames

variable {frame : Frame} {declared : List (String × Option Ty)} {body : Eval α}
  (hself : ∀ t ∈ frame.selfType, t.WellFormed)
  (hdeclared : ∀ d ∈ declared, ∀ t ∈ d.2, t.WellFormed) (hbody : Sound P body)

include hself hdeclared hbody

theorem sound_inFrame :
    Sound (fun r ↦ P r.1 ∧ r.2.WellTyped) (inFrame frame declared body) := by
  refine (sound_change fun s hs ↦ Scope.wellTyped_enter hs hself hdeclared).bind fun _ _ ↦ ?_
  refine hbody.bind fun a ha ↦ sound_scope.bind fun s hs ↦ ?_
  refine (sound_change fun _ _ ↦ Scope.wellTyped_outer hs).bind fun _ _ ↦ ensures_pure ?_
  exact ⟨ha, Scope.wellTyped_leave hs⟩

theorem sound_nested : Sound (fun r ↦ P r.1) (nested frame declared body) := by
  refine (sound_inFrame hself hdeclared hbody).bind fun r hr ↦ ?_
  have hupdate : Sound (fun _ ↦ True) (change (·.update r.2.changes)) :=
    sound_change fun s hs ↦ Scope.wellTyped_update hs hr.2.entries.changes
  exact hupdate.bind fun _ _ ↦ ensures_pure hr.1

end frames

theorem sound_branches {bodies : List (Eval α)} (hbodies : ∀ body ∈ bodies, Sound P body) :
    Sound (fun as ↦ ∀ a ∈ as, P a) (branches bodies) := by
  have hruns : Sound (fun rs ↦ ∀ r ∈ rs, P r.1 ∧ r.2.WellTyped) (bodies.mapM (inFrame {} [])) :=
    Ensures.mapM fun body hbody ↦ sound_inFrame nofun nofun (hbodies body hbody)
  rw [branches]
  refine hruns.bind fun runs hruns ↦ ensures_world.bind fun w _ ↦ ?_
  refine (sound_change fun s hs ↦ Scope.wellTyped_joinBranches hs w fun f hf ↦ ?_).bind
    fun _ _ ↦ ensures_pure fun a ha ↦ ?_
  · obtain ⟨r, hr, rfl⟩ := List.mem_map.mp hf
    exact (hruns r hr).2
  · obtain ⟨r, hr, rfl⟩ := List.mem_map.mp ha
    exact (hruns r (List.mem_filter.mp hr).1).1

theorem sound_pair {first second : Eval α} (hfirst : Sound P first) (hsecond : Sound P second) :
    Sound (fun as ↦ ∀ a ∈ as, P a) (branches [first, second]) :=
  sound_branches (List.forall_mem_cons.mpr ⟨hfirst, List.forall_mem_singleton.mpr hsecond⟩)

theorem sound_conditional {body : Eval α} (hbody : Sound P body) :
    Sound (fun o ↦ ∀ a ∈ o, P a) (conditional body) := by
  have hsome : Sound (fun o ↦ ∀ a ∈ o, P a) (some <$> body) :=
    hbody.map fun a ha b hb ↦ Option.mem_some.mp hb ▸ ha
  have hnone : Sound (fun o ↦ ∀ a ∈ o, P a) (pure none) := ensures_pure fun a ha ↦ by cases ha
  refine (sound_pair hsome hnone).bind fun results hresults ↦ ensures_pure ?_
  intro a ha
  obtain ⟨o, ho, ha⟩ := List.exists_of_findSome?_eq_some ha
  exact hresults o ho a ha

theorem sound_optional {ev : Node → Eval Ty} (hev : ∀ n, Sound Ty.WellFormed (ev n))
    (n : Option Node) : Sound Ty.WellFormed (optional ev n) := by
  cases n with
  | none => exact ensures_pure (Ty.wellFormed_inst _)
  | some n => exact hev n

def BlockRun.Sound (run : BlockRun) : Prop :=
  ∀ args self, (∀ t ∈ args, t.WellFormed) → (∀ t ∈ self, t.WellFormed) →
    Eval.Sound (fun r ↦ r.1.WellFormed ∧ ∀ t ∈ r.2, t.WellFormed) (run args self)

structure CallResult.WellFormed (c : CallResult) : Prop where
  result : ∀ t ∈ c.result, t.WellFormed
  breaks : ∀ t ∈ c.breaks, t.WellFormed

variable {task : Task}

theorem wellFormed_ownVars {w : World} {receiver : Ty} (h : receiver.WellFormed) :
    ∀ v ∈ Table.ofList ((receiver.instance?.map (·.params w)).getD []), v.2.WellFormed := by
  intro v hv
  have hmem := Table.mem_of_mem_ofList hv
  cases hx : receiver.instance? with
  | none =>
    rw [hx] at hmem
    cases hmem
  | some x =>
    rw [hx] at hmem
    exact Member.wellFormed_of_mem_params (h.ofMember (Ty.mem_members_of_instance? hx)) v hmem

theorem wellFormed_of_mem_extend {vars more : TypeVars} (hvars : ∀ v ∈ vars, v.2.WellFormed)
    (hmore : ∀ v ∈ more, v.2.WellFormed) : ∀ v ∈ Table.extend vars more, v.2.WellFormed := by
  intro v hv
  rcases Table.mem_of_mem_extend hv with hv | hv
  · exact hvars v hv
  · exact hmore v hv

theorem sound_callMatch {run : Option BlockRun} (hrun : ∀ r ∈ run, BlockRun.Sound r)
    {m : MethodMatch} (hm : m.WellFormed) :
    Sound CallResult.WellFormed (callMatch task run m) := by
  have hresult (r : Resolver) {vars : TypeVars} (hvars : ∀ v ∈ vars, v.2.WellFormed) :
      ∀ t ∈ (if m.method.returnsBottom then none
        else some (r.read m.receiver vars m.method.function.result)), t.WellFormed := by
    intro t ht
    split at ht
    · cases ht
    · exact (Resolver.wellFormed_read hm.receiver hvars _).of_mem_some ht
  rw [callMatch]
  refine (ensures_resolver task).bind fun r _ ↦ ?_
  have hvars (free : List String) : ∀ v ∈ Table.extend
      (Table.ofList ((m.receiver.instance?.map (·.params r.world)).getD []))
      (r.unify free m.expected m.given), v.2.WellFormed :=
    wellFormed_of_mem_extend (wellFormed_ownVars hm.receiver)
      (Resolver.wellFormed_of_mem_unify hm.given)
  dsimp only
  split
  next run block hblock =>
    refine (hrun run rfl _ _ (fun t ht ↦ ?_) fun t ht ↦ ?_).bind fun response hresponse ↦
      (ensures_resolver task).bind fun r' _ ↦ ensures_pure ⟨hresult r' ?_, fun t ht ↦ ?_⟩
    · obtain ⟨e, -, rfl⟩ := List.mem_map.mp ht
      exact Resolver.wellFormed_read hm.receiver (hvars _) e
    · obtain ⟨e, -, rfl⟩ := Option.map_eq_some_iff.mp ht
      exact Resolver.wellFormed_read hm.receiver (hvars _) e
    · exact wellFormed_of_mem_extend (hvars _)
        (Resolver.wellFormed_of_mem_unify (List.forall_mem_singleton.mpr hresponse.1))
    · exact hresponse.2 t (Option.mem_toList.mp ht)
  next => exact ensures_pure ⟨hresult r (hvars _), List.forall_mem_nil _⟩

theorem sound_runUnselected {run : Option BlockRun} (hrun : ∀ r ∈ run, BlockRun.Sound r)
    (calls : List CallResult) :
    Sound (fun ts ↦ ∀ t ∈ ts, t.WellFormed) (runUnselected run calls) := by
  cases run with
  | none => exact ensures_pure (List.forall_mem_nil _)
  | some run =>
    rw [runUnselected]
    split
    · exact ensures_pure (List.forall_mem_nil _)
    · have hself : ∀ t ∈ (none : Option Ty), t.WellFormed := fun t ht ↦ by cases ht
      refine (hrun run rfl [] none (List.forall_mem_nil _) hself).map fun r hr t ht ↦ ?_
      exact hr.2 t (Option.mem_toList.mp ht)

theorem wellFormed_of_mem_newInstances {w : World} {receiver t : Ty}
    (ht : t ∈ newInstances w receiver) : t.WellFormed := by
  obtain ⟨m, -, rfl⟩ := List.mem_map.mp ht
  exact Ty.wellFormed_inst m

theorem wellFormed_of_mem_guess? {w : World} {receiver t : Ty} {name : String}
    (ht : t ∈ guess? w receiver name) : t.WellFormed := by
  rw [guess?, Option.orElse_eq_orElse, Option.orElse_eq_or] at ht
  rcases Option.or_eq_some_iff.mp ht with ht | ⟨-, ht⟩
  · exact Ty.wellFormed_of_mem_ofConversion? ht
  · exact Ty.wellFormed_of_mem_ofReader? ht

theorem sound_call {run : Option BlockRun} (hrun : ∀ r ∈ run, BlockRun.Sound r) {receiver : Ty}
    (hreceiver : receiver.WellFormed) {args : CallArguments} (hargs : args.WellFormed)
    (name : String) (guesses : Bool) :
    Sound Ty.WellFormed (call task receiver name args run guesses) := by
  have hnew (w : World) :
      ∀ t ∈ if name = "new" then newInstances w receiver else [], t.WellFormed := by
    split
    · exact fun t ↦ wellFormed_of_mem_newInstances
    · exact nofun
  have hguess (w : World) (guesses : Bool) :
      ∀ t ∈ if guesses then (guess? w receiver name).toList else [], t.WellFormed := by
    split
    · exact fun t ht ↦ wellFormed_of_mem_guess? (Option.mem_toList.mp ht)
    · exact nofun
  rw [call]
  refine (ensures_resolver task).bind fun r _ ↦ ?_
  have hfound : ∀ m ∈ r.resolveMethod receiver name { args with hasBlock := run.isSome },
      m.WellFormed :=
    Resolver.wellFormed_of_mem_resolveMethod hreceiver ⟨hargs.positional, hargs.keywords⟩
  refine (Ensures.mapM fun m hm ↦ sound_callMatch hrun (hfound m hm)).bind fun calls hcalls ↦ ?_
  refine (sound_runUnselected hrun calls).bind fun unselected hunselected ↦ ?_
  refine ensures_world.bind fun w _ ↦ ?_
  have hresults : ∀ t ∈ calls.filterMap CallResult.result, t.WellFormed := by
    intro t ht
    obtain ⟨c, hc, ht⟩ := List.mem_filterMap.mp ht
    exact (hcalls c hc).result t ht
  have hbreaks : ∀ t ∈ calls.flatMap CallResult.breaks, t.WellFormed := by
    intro t ht
    obtain ⟨c, hc, ht⟩ := List.mem_flatMap.mp ht
    exact (hcalls c hc).breaks t ht
  have hunion (guesses : Bool) := Ty.wellFormed_union <| List.forall_mem_append.mpr
    ⟨List.forall_mem_append.mpr ⟨List.forall_mem_append.mpr ⟨hresults, hnew w⟩, hguess w guesses⟩,
      List.forall_mem_append.mpr ⟨hbreaks, hunselected⟩⟩
  dsimp only
  split
  · exact (sound_change fun _ ↦ Scope.wellTyped_terminate).bind fun _ _ ↦ ensures_pure (hunion _)
  · exact ensures_pure (hunion _)

theorem wellFormed_noArguments : CallArguments.WellFormed {} := by
  constructor <;> intro _ h <;> cases h

theorem sound_convert {t : Ty} (ht : t.WellFormed) (method : String) :
    Sound Ty.WellFormed (convert task t method) :=
  sound_call (fun _ hr ↦ by cases hr) ht wellFormed_noArguments method false

theorem wellFormed_of_mem_flatMap {parts : List (List Ty × List Ty)}
    (h : ∀ r ∈ parts, (∀ t ∈ r.1, t.WellFormed) ∧ ∀ t ∈ r.2, t.WellFormed) :
    (∀ t ∈ parts.flatMap Prod.fst, t.WellFormed) ∧
      ∀ t ∈ parts.flatMap Prod.snd, t.WellFormed := by
  refine ⟨fun t ht ↦ ?_, fun t ht ↦ ?_⟩
  · obtain ⟨r, hr, ht⟩ := List.mem_flatMap.mp ht
    exact (h r hr).1 t ht
  · obtain ⟨r, hr, ht⟩ := List.mem_flatMap.mp ht
    exact (h r hr).2 t ht

theorem sound_splitArrays {convert : Ty → Eval Ty}
    (hconvert : ∀ t, t.WellFormed → Sound Ty.WellFormed (convert t)) {t : Ty} (ht : t.WellFormed) :
    Sound (fun r ↦ (∀ t ∈ r.1, t.WellFormed) ∧ ∀ t ∈ r.2, t.WellFormed)
      (splitArrays convert t) := by
  have helements (w : World) {t : Ty} (ht : t.WellFormed) :
      ∀ u ∈ [(t.param? w "Elem").getD Ty.object], u.WellFormed :=
    List.forall_mem_singleton.mpr
      (Ty.WellFormed.getD (fun _ ↦ Ty.wellFormed_of_mem_param? ht) (Ty.wellFormed_inst _))
  have hparts : Sound
      (fun parts ↦ ∀ r ∈ parts, (∀ t ∈ r.1, t.WellFormed) ∧ ∀ t ∈ r.2, t.WellFormed)
      (t.members.mapM fun m ↦ do
        let member := Ty.ofMember m
        let elements := fun (w : World) (t : Ty) => (t.param? w "Elem").getD Ty.object
        if member.isInstanceOf .array then return ([elements (← world) member], [])
        let converted ← convert member
        if converted.isInstanceOf .array then return ([elements (← world) converted], [])
        return ([], [member])) := by
    refine Ensures.mapM fun x hx ↦ ?_
    have hmember := ht.ofMember hx
    dsimp only
    split
    · exact ensures_world.bind fun w _ ↦ ensures_pure ⟨helements w hmember, nofun⟩
    refine (hconvert _ hmember).bind fun converted hconverted ↦ ?_
    split
    · exact ensures_world.bind fun w _ ↦ ensures_pure ⟨helements w hconverted, nofun⟩
    · exact ensures_pure ⟨nofun, List.forall_mem_singleton.mpr hmember⟩
  exact hparts.bind fun parts hparts ↦ ensures_pure (wellFormed_of_mem_flatMap hparts)

theorem wellFormed_of_mem_unionOf? {types : List Ty} (h : ∀ t ∈ types, t.WellFormed) :
    ∀ t ∈ unionOf? types, t.WellFormed := by
  intro t ht
  unfold unionOf? at ht
  split at ht
  · cases ht
  · exact (Ty.wellFormed_union h).of_mem_some ht

theorem sound_partitionArrays {t : Ty} (ht : t.WellFormed) (method : String) :
    Sound (fun r ↦ (∀ t ∈ r.1, t.WellFormed) ∧ ∀ t ∈ r.2, t.WellFormed)
      (partitionArrays task t method) := by
  refine (sound_splitArrays (fun u hu ↦ sound_convert hu method) ht).bind fun r hr ↦ ?_
  exact ensures_pure ⟨wellFormed_of_mem_unionOf? hr.1, wellFormed_of_mem_unionOf? hr.2⟩

theorem forall_mem_toList {o : Option Ty} (h : ∀ t ∈ o, t.WellFormed) :
    ∀ t ∈ o.toList, t.WellFormed :=
  fun t ht ↦ h t (Option.mem_toList.mp ht)

theorem wellFormed_of_mem_spread {element : Option Ty} {others : List Ty}
    (helement : ∀ t ∈ element, t.WellFormed) (hothers : ∀ t ∈ others, t.WellFormed) (size : Nat) :
    ∀ t ∈ spread element others size, t.WellFormed := by
  have helement := forall_mem_toList helement
  refine List.forall_mem_cons.mpr ⟨?_, fun t ht ↦ ?_⟩
  · exact Ty.wellFormed_union (List.forall_mem_append.mpr ⟨helement, hothers⟩)
  · obtain ⟨u, hu, ht⟩ := List.mem_flatMap.mp ht
    rw [List.eq_of_mem_replicate ht]
    exact helement u hu

theorem sound_spreadValue {t : Ty} (ht : t.WellFormed) (size : Nat) :
    Sound (fun ts ↦ ∀ t ∈ ts, t.WellFormed) (spreadValue task t size) :=
  (sound_partitionArrays ht "to_ary").bind fun _ hr ↦
    ensures_pure (wellFormed_of_mem_spread hr.1 (forall_mem_toList hr.2) size)

end Eval

end FlowCompletion
