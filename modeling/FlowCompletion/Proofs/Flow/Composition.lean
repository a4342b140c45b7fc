import FlowCompletion.Proofs.Flow.Outcomes
import FlowCompletion.Proofs.Scope.Declared
import FlowCompletion.Proofs.Source.Operands

namespace FlowCompletion

/-- Labels come with the frames that jumps can leave; other names come from the code. -/
def Declarable (V : Node → Prop) (name : String) : Prop :=
  (∃ jump : JumpKind, name = jump.label) ∨ Node.Introduces V name

def Node.calledName? (n : Node) : Option String :=
  match n.kind with
  | .call _ _ name _ _ _ => some name
  | .symbol name _ => some name
  | .varOpWrite _ _ operator _ => some operator
  | _ => none

def Callable (V : Node → Prop) (name : String) : Prop :=
  name ∈ ["to_a", "to_ary", "to_hash"] ∨ ∃ c, V c ∧ c.calledName? = some name

/-- A call of the name may find overloads only that never return. -/
def Task.NeverReturns (task : Task) (name : String) : Prop :=
  ∃ r : Resolver, r.database = task.database ∧ r.binding = task.binding ∧
    ∃ receiver args, r.resolveMethod receiver name args ≠ [] ∧
      ∀ m ∈ r.resolveMethod receiver name args, m.method.returnsBottom = true

def Halt.ComesFrom (task : Task) (V : Node → Prop) : Halt → Prop
  | .found _ => ∃ c, V c ∧ c.index = task.target
  | .tooDeep span => ∃ c, V c ∧ c.span = span

namespace Eval

/-- Computations that do what the nodes with `V` ask for, and stop for reasons with `H` only. The
names in `own` are declared by frames that were entered on the way, and `merging` tells that the
innermost frame is such a frame, where jumps come together. -/
inductive Steps (task : Task) (V : Node → Prop) (H : Halt → Prop) :
    List String → Bool → {α : Type} → Eval α → Prop
  | pure {own merging} {α : Type} (a : α) :
      Steps task V H own merging (pure a)
  | bind {own merging} {α β : Type} {m : Eval α} {k : α → Eval β}
      (hm : Steps task V H own merging m) (hk : ∀ a, Steps task V H own merging (k a)) :
      Steps task V H own merging (m >>= k)
  | world {own merging} : Steps task V H own merging world
  | scope {own merging} {α : Type} {k : Scope → Eval α}
      (hk : ∀ s, Steps task V H own merging (k s))
      (hdeclared : ∀ (s : Scope) (names : List String), k (s.declaring names) = k s) :
      Steps task V H own merging (scope >>= k)
  | found {own merging} {α : Type} (t : Ty) (h : H (.found t)) :
      Steps task V H own merging (throw (.found t) : Eval α)
  | tooDeep {own merging} {α : Type} (span : Span) (h : H (.tooDeep span)) :
      Steps task V H own merging (throw (.tooDeep span) : Eval α)
  | probe {own merging} (t : Ty) :
      Steps task V H own merging (modify fun flow ↦ { flow with probed := some t })
  | write {own merging} (c : Node) (hc : V c) (name : String)
      (hname : c.writtenVariable? = some name) (t : Ty) :
      Steps task V H own merging (change (·.set name t))
  | setAll {own merging} (types : List (String × Ty))
      (htypes : ∀ p ∈ types, p.1 ∈ own ∨ p.1 ∈ Node.implicitNames) :
      Steps task V H own merging (setAll types)
  | setConstant {own merging} (w : World) (m : ModuleId) (name : String) (t : Ty) :
      Steps task V H own merging (change (·.setConstant w m name t))
  | defineModule {own merging} (owner : ModuleId) (name : String)
      (isClass : Bool) (superclass : Option ModuleId) :
      Steps task V H own merging (defineModule owner name isClass superclass)
  | terminate {own merging} (name : String) (hname : Callable V name)
      (hnever : task.NeverReturns name) :
      Steps task V H own merging (change Scope.terminate)
  | jump {own merging} (c : Node) (hc : V c) (jump : JumpKind) (value : Option Node)
      (hkind : c.kind = .jump jump value) (t : Ty) :
      Steps task V H own merging (change (·.jump jump.label t))
  | mergeJumps {own} : Steps task V H own true mergeJumps
  | branches {own merging} {α : Type} {bodies : List (Eval α)} (hne : bodies ≠ [])
      (h : ∀ body ∈ bodies, Steps task V H own false body) :
      Steps task V H own merging (branches bodies)
  | nested {own merging} {α : Type} {body : Eval α} (frame : Frame)
      (declared : List (String × Option Ty)) (hdeclared : ∀ d ∈ declared, Declarable V d.1)
      (hbody : Steps task V H (declared.map Prod.fst ++ own) true body) :
      Steps task V H own merging (nested frame declared body)

abbrev Composed (task : Task) (V : Node → Prop) (own : List String) (merging : Bool) {α : Type}
    (m : Eval α) : Prop :=
  Steps task V (Halt.ComesFrom task V) own merging m

/-- Nodes with `V` are the code, and those with `F` are the ones that are followed on the way. Some
of them may be the target only if that is a reason to stop. -/
structure Traverses (task : Task) (V F : Node → Prop) (H : Halt → Prop) : Prop where
  descends : Node.Descends V
  within : ∀ n, F n → V n
  operands : ∀ n, F n → ∀ c ∈ n.kind.operands, F c
  found : ∀ n, F n → task.target = n.index → ∀ t, H (.found t)

variable {task : Task} {V F : Node → Prop} {H : Halt → Prop} {own : List String} {merging : Bool}
  {α β : Type}

namespace Steps

theorem map {m : Eval α} (hm : Steps task V H own merging m) (k : α → β) :
    Steps task V H own merging (k <$> m) := by
  rw [map_eq_pure_bind]
  exact hm.bind fun a ↦ .pure _

theorem mapM {k : α → Eval β} {l : List α} (hk : ∀ a ∈ l, Steps task V H own merging (k a)) :
    Steps task V H own merging (l.mapM k) := by
  induction l with
  | nil => exact .pure []
  | cons a l ih =>
    obtain ⟨ha, hl⟩ := List.forall_mem_cons.mp hk
    rw [List.mapM_cons]
    exact ha.bind fun b ↦ (ih hl).bind fun bs ↦ .pure _

theorem foldlM {k : β → α → Eval β} {l : List α}
    (hk : ∀ a ∈ l, ∀ b, Steps task V H own merging (k b a)) (b : β) :
    Steps task V H own merging (l.foldlM k b) := by
  induction l generalizing b with
  | nil => exact .pure b
  | cons a l ih =>
    obtain ⟨ha, hl⟩ := List.forall_mem_cons.mp hk
    rw [List.foldlM_cons]
    exact (ha b).bind (ih hl)

theorem pair {first second : Eval α} (hfirst : Steps task V H own false first)
    (hsecond : Steps task V H own false second) :
    Steps task V H own merging (Eval.branches [first, second]) :=
  .branches (List.cons_ne_nil _ _)
    (List.forall_mem_cons.mpr ⟨hfirst, List.forall_mem_singleton.mpr hsecond⟩)

theorem conditional {body : Eval α} (hbody : Steps task V H own false body) :
    Steps task V H own merging (conditional body) :=
  (pair (hbody.map some) (.pure none)).bind fun _ ↦ .pure _

theorem read (name : String) : Steps task V H own merging (read name) :=
  .scope (fun s ↦ world.bind fun w ↦ .pure _) fun s names ↦ by simp only [Scope.get?_declaring]

theorem selfType : Steps task V H own merging selfType :=
  .scope (fun _ ↦ world.bind fun _ ↦ .pure _) fun _ _ ↦ rfl

theorem constantOwner : Steps task V H own merging constantOwner :=
  .scope (fun _ ↦ .pure _) fun _ _ ↦ rfl

theorem resolver : Steps task V H own merging (resolver task) :=
  world.bind fun _ ↦ .pure _

theorem stopAt {c : Node} (hT : Traverses task V F H) (hc : F c) (t : Ty) :
    Steps task V H own merging (stopAt task c.index t) := by
  rw [Eval.stopAt]
  split
  case isTrue h => exact .found t (hT.found c hc h t)
  case isFalse => exact .pure ()

theorem bind_of_gives [Inhabited β] {m : Eval α} {k : α → Eval β} {P : α → Prop}
    (hm : Steps task V H own merging m) (hP : ∀ f a g, m.Gives f a g → P a)
    (hk : ∀ a, P a → Steps task V H own merging (k a)) :
    Steps task V H own merging (m >>= k) := by
  classical
  have heq : m >>= k = m >>= fun a ↦ if P a then k a else Pure.pure default :=
    bind_congr_of_gives fun f a g hgives ↦ (if_pos (hP f a g hgives)).symm
  rw [heq]
  refine hm.bind fun a ↦ ?_
  split
  case isTrue h => exact hk a h
  case isFalse => exact .pure default

theorem callMatch {run : Option BlockRun}
    (hrun : ∀ r ∈ run, ∀ args self, Steps task V H own merging (r args self)) (m : MethodMatch) :
    Steps task V H own merging (callMatch task run m) := by
  rw [Eval.callMatch]
  refine resolver.bind fun r ↦ ?_
  dsimp only
  split
  · exact (hrun _ rfl _ _).bind fun response ↦ resolver.bind fun r ↦ .pure _
  · exact .pure _

theorem runUnselected {run : Option BlockRun}
    (hrun : ∀ r ∈ run, ∀ args self, Steps task V H own merging (r args self))
    (calls : List CallResult) : Steps task V H own merging (runUnselected run calls) := by
  cases run with
  | none => exact .pure _
  | some run =>
    rw [Eval.runUnselected]
    split
    · exact .pure _
    · exact (hrun run rfl _ _).map _

theorem all_eq_of_forall₂ {p : α → Bool} {q : β → Bool} {l : List α} {l' : List β}
    (h : List.Forall₂ (fun a b ↦ q b = p a) l l') : l'.all q = l.all p := by
  induction h with
  | nil => rfl
  | cons hab _ ih => rw [List.all_cons, List.all_cons, hab, ih]

theorem isNone_result {run : Option BlockRun} {m : MethodMatch} {f g : Flow} {c : CallResult}
    (hgives : Gives (Eval.callMatch task run m) f c g) :
    c.result.isNone = m.method.returnsBottom := by
  rw [Eval.callMatch] at hgives
  obtain ⟨r, _, -, hgives⟩ := gives_bind.mp hgives
  dsimp only at hgives
  split at hgives
  · obtain ⟨_, _, -, hgives⟩ := gives_bind.mp hgives
    obtain ⟨_, _, -, hgives⟩ := gives_bind.mp hgives
    obtain ⟨rfl, -⟩ := gives_pure.mp hgives
    cases m.method.returnsBottom <;> rfl
  · obtain ⟨rfl, -⟩ := gives_pure.mp hgives
    cases m.method.returnsBottom <;> rfl

/-- A call does what its block does, and it ends control only if no overload returns. -/
theorem call {run : Option BlockRun}
    (hrun : ∀ r ∈ run, ∀ args self, Steps task V H own merging (r args self))
    (receiver : Ty) {name : String} (hname : Callable V name) (args : CallArguments)
    (guesses : Bool) : Steps task V H own merging (call task receiver name args run guesses) := by
  rw [Eval.call]
  refine resolver.bind_of_gives (P := fun r ↦ r.database = task.database ∧ r.binding = task.binding)
    (fun f r g hgives ↦ ?_) fun r hr ↦ ?_
  · obtain ⟨w, _, -, hgives⟩ := gives_bind.mp hgives
    obtain ⟨rfl, -⟩ := gives_pure.mp hgives
    exact ⟨rfl, rfl⟩
  generalize { args with hasBlock := run.isSome } = args
  dsimp only
  generalize hfound : r.resolveMethod receiver name args = found
  refine (mapM fun m _ ↦ callMatch hrun m).bind_of_gives
    (P := fun calls ↦ calls.all (·.result.isNone) = found.all (·.method.returnsBottom))
    (fun f calls g hgives ↦ ?_) fun calls hcalls ↦ ?_
  · refine all_eq_of_forall₂ (hgives.forall₂_mapM.imp ?_)
    rintro m c ⟨_, _, hmatch⟩
    exact isNone_result hmatch
  refine (runUnselected hrun calls).bind fun more ↦ world.bind fun w ↦ ?_
  split
  case isTrue hends =>
    refine (terminate name hname ⟨r, hr.1, hr.2, receiver, args, ?_⟩).bind fun _ ↦ .pure _
    simp only [Bool.and_eq_true, Bool.not_eq_true', List.isEmpty_eq_false_iff, hcalls,
      List.all_eq_true] at hends
    rw [hfound]
    exact hends.1
  case isFalse => exact .pure _

theorem callWithout (receiver : Ty) {name : String} (hname : Callable V name)
    (args : CallArguments) (guesses : Bool) :
    Steps task V H own merging (Eval.call task receiver name args none guesses) :=
  call (fun _ hr ↦ by cases hr) receiver hname args guesses

theorem convert (t : Ty) {method : String} (hmethod : method ∈ ["to_a", "to_ary", "to_hash"]) :
    Steps task V H own merging (convert task t method) :=
  callWithout t (.inl hmethod) {} false

theorem splitArrays {convert : Ty → Eval Ty}
    (hconvert : ∀ t, Steps task V H own merging (convert t)) (t : Ty) :
    Steps task V H own merging (splitArrays convert t) := by
  rw [Eval.splitArrays]
  refine (mapM fun m _ ↦ ?_).bind fun parts ↦ .pure _
  dsimp only
  split
  · exact world.bind fun w ↦ .pure _
  · refine (hconvert _).bind fun converted ↦ ?_
    split
    · exact world.bind fun w ↦ .pure _
    · exact .pure _

theorem partitionArrays (t : Ty) {method : String}
    (hmethod : method ∈ ["to_a", "to_ary", "to_hash"]) :
    Steps task V H own merging (partitionArrays task t method) :=
  (splitArrays (fun t ↦ convert t hmethod) t).bind fun _ ↦ .pure _

theorem spreadValue (t : Ty) (size : Nat) :
    Steps task V H own merging (spreadValue task t size) :=
  (partitionArrays t (by simp)).bind fun _ ↦ .pure _

theorem spreadArgument (p : Parameters) (args : List Ty) :
    Steps task V H own merging (spreadArgument task p args) := by
  unfold Eval.spreadArgument
  split
  · split
    · exact resolver.bind fun r ↦ (splitArrays (fun t ↦ .pure _) _).bind fun _ ↦ .pure _
    · exact .pure _
  · exact .pure _

theorem assignParameters {p : Parameters} (hown : ∀ name ∈ p.names, name ∈ own) (args : List Ty) :
    Steps task V H own merging (assignParameters task p args) :=
  (spreadArgument p args).bind fun args ↦
    .setAll _ fun q hq ↦ .inl (hown _ (p.assign_subset_names args q hq))

variable {ev : Node → Eval Ty}

abbrev Follows (task : Task) (V F : Node → Prop) (H : Halt → Prop) (ev : Node → Eval Ty) : Prop :=
  ∀ c, F c → ∀ own merging, Steps task V H own merging (ev c)

mutual

theorem assign (hev : Follows task V F H ev) (hV : Node.Descends V) :
    (n : Node) → V n → (∀ c ∈ n.receivers, F c) → (value : Ty) →
      Steps task V H own merging (assign task ev n value)
  | .mk _ _ kind, hn, hreceivers, value => assignKind hev hV kind hn hreceivers value

theorem assignKind (hev : Follows task V F H ev) (hV : Node.Descends V) {span : Span} {index : Nat}
    (kind : NodeKind) (hn : V (.mk span index kind)) (hreceivers : ∀ c ∈ kind.receivers, F c)
    (value : Ty) : Steps task V H own merging (assignKind task ev kind value) := by
  have hsub : ∀ c ∈ kind.subnodes, V c := hV.subnodes hn
  unfold Eval.assignKind
  split
  · exact .write _ hn _ rfl value
  · exact constantOwner.bind fun owner ↦ world.bind fun w ↦ .setConstant w owner _ _
  · exact assignOptional hev hV _ (fun c hc ↦ hsub c (by simpa using hc)) hreceivers _
  · refine (spreadValue value _).bind fun values ↦ ?_
    exact assignEach hev hV _ _ (fun c hc ↦ hsub c (by simp [hc])) hreceivers _
  · exact (hev _ (hreceivers _ List.mem_cons_self) _ _).bind fun _ ↦ .pure _
  · exact .pure _

theorem assignOptional (hev : Follows task V F H ev) (hV : Node.Descends V) :
    (n : Option Node) → (∀ c ∈ n, V c) → (∀ c ∈ NodeKind.receiversOptional n, F c) →
      (value : Ty) → Steps task V H own merging (assignOptional task ev n value)
  | none, _, _, _ => .pure _
  | some n, hn, hreceivers, value => assign hev hV n (hn n rfl) hreceivers value

theorem assignEach (hev : Follows task V F H ev) (hV : Node.Descends V) (splatSeen : Bool)
    (targets : List Node) (h : ∀ c ∈ targets, V c)
    (hreceivers : ∀ c ∈ NodeKind.receiversEach targets, F c) (values : List Ty) :
    Steps task V H own merging (assignEach task ev splatSeen targets values) := by
  unfold Eval.assignEach
  split
  case h_1 inner rest value values =>
    obtain ⟨hfirst, hrest⟩ := List.forall_mem_cons.mp h
    obtain ⟨hinner, hlater⟩ := List.forall_mem_append.mp hreceivers
    have hsub : ∀ c ∈ inner, V c := fun c hc ↦
      hV.subnodes hfirst c (Option.mem_toList.mpr hc)
    exact (assignOptional hev hV inner hsub hinner _).bind fun _ ↦
      assignEach hev hV _ _ hrest hlater _
  case h_2 =>
    obtain ⟨hfirst, hrest⟩ := List.forall_mem_cons.mp h
    obtain ⟨hnow, hlater⟩ := List.forall_mem_append.mp hreceivers
    exact (assign hev hV _ hfirst hnow _).bind fun _ ↦ assignEach hev hV _ _ hrest hlater _
  case h_3 => exact .pure _

end

variable (hev : Follows task V F H ev)

include hev

theorem optional {n : Option Node} (hn : ∀ c ∈ n, F c) :
    Steps task V H own merging (optional ev n) := by
  cases n with
  | none => exact .pure _
  | some n => exact hev n (hn n rfl) _ _

theorem sequence {items : List Node} (h : ∀ c ∈ items, F c) :
    Steps task V H own merging (sequence ev items) :=
  foldlM (fun c hc _ ↦ hev c (h c hc) _ _) _

theorem branchesOf {whenTrue whenFalse : Option Node} (htrue : ∀ c ∈ whenTrue, F c)
    (hfalse : ∀ c ∈ whenFalse, F c) :
    Steps task V H own merging (evaluateBranches ev whenTrue whenFalse) :=
  (pair (optional hev htrue) (optional hev hfalse)).bind fun _ ↦ .pure _

variable (hT : Traverses task V F H)

include hT

theorem elementType {items : List Node} (h : ∀ c ∈ items, F c) :
    Steps task V H own merging (elementType task ev items) := by
  refine (mapM fun item hitem ↦ ?_).bind fun types ↦ .pure _
  have hsub := hT.operands _ (h item hitem)
  rw [itemTypes]
  split
  case h_1 => exact .pure _
  case h_2 inner hkind =>
    have hinner : F inner := hsub inner (by simp [hkind])
    exact (hev inner hinner _ _).bind fun t ↦ (partitionArrays _ (by simp)).bind fun _ ↦ .pure _
  case h_3 => exact (hev item (h item hitem) _ _).bind fun t ↦ .pure _

theorem hashType {items : List Node} (h : ∀ c ∈ items, F c) :
    Steps task V H own merging (hashType task ev items) := by
  have hpair (item : Node) (hitem : item ∈ items) :
      Steps task V H own merging (pairTypes task ev item) := by
    have hsub := hT.operands _ (h item hitem)
    rw [pairTypes]
    split
    case h_1 key value hkind =>
      have hkey : F key := hsub key (by simp [hkind])
      have hvalue : F value := hsub value (by simp [hkind])
      exact (hev key hkey _ _).bind fun _ ↦ (hev value hvalue _ _).bind fun _ ↦ .pure _
    case h_2 => exact .pure _
    case h_3 inner hkind =>
      have hinner : F inner := hsub inner (by simp [hkind])
      refine (hev inner hinner _ _).bind fun t ↦ (convert t (by simp)).bind fun hash ↦ ?_
      exact world.bind fun w ↦ .pure _
    case h_4 => exact (hev item (h item hitem) _ _).bind fun t ↦ .pure _
  refine (mapM fun item hitem ↦ hpair item hitem).bind fun pairs ↦ ?_
  dsimp only
  split <;> exact .pure _

theorem jumpValue {value : Option Node} (h : ∀ c ∈ value, F c) :
    Steps task V H own merging (jumpValue task ev value) := by
  unfold Eval.jumpValue
  split
  case h_1 => exact .pure _
  case h_2 n =>
    have hsub := hT.operands _ (h n rfl)
    split
    case h_1 only hkind =>
      have honly : ∀ c ∈ [only], F c := fun c hc ↦ hsub c (by simpa [hkind] using hc)
      split
      · exact (elementType hev hT honly).bind fun t ↦ .pure _
      · exact hev only (honly only List.mem_cons_self) _ _
    case h_2 items _ hkind =>
      refine (elementType hev hT fun c hc ↦ hsub c ?_).bind fun t ↦ .pure _
      simpa [hkind] using hc
    case h_3 => exact hev n (h n rfl) _ _

omit hev in
theorem of_argumentItems {arguments : Option Node} (h : ∀ c ∈ arguments, F c) :
    ∀ c ∈ Node.argumentItems arguments, F c := by
  unfold Node.argumentItems
  split
  case h_1 items hitems =>
    obtain ⟨n, rfl, hkind⟩ := Option.map_eq_some_iff.mp hitems
    intro c hc
    exact hT.operands _ (h n rfl) c (by simpa [hkind] using hc)
  case h_2 => exact fun c hc ↦ by cases hc

omit hev in
theorem of_splitKeywords {items : List Node} (h : ∀ c ∈ items, F c) :
    (∀ c ∈ (splitKeywords items).1, F c) ∧ ∀ c ∈ (splitKeywords items).2, F c := by
  unfold splitKeywords
  split
  case h_1 keywords hlast =>
    obtain ⟨n, hn, hkind⟩ := Option.map_eq_some_iff.mp hlast
    refine ⟨fun c hc ↦ h c (List.dropLast_subset _ hc), fun c hc ↦ ?_⟩
    have hsub := hT.operands _ (h n (List.mem_of_getLast? hn))
    exact hsub c (by simpa [hkind] using hc)
  case h_2 => exact ⟨h, fun c hc ↦ by cases hc⟩

theorem callArguments {arguments : Option Node} (h : ∀ c ∈ arguments, F c) :
    Steps task V H own merging (callArguments ev arguments) := by
  obtain ⟨hpositional, hkeywords⟩ := of_splitKeywords hT (of_argumentItems hT h)
  rw [Eval.callArguments]
  refine (mapM fun c hc ↦ ?_).bind fun positional ↦ (mapM fun c hc ↦ ?_).bind fun _ ↦ .pure _
  · have hsub := hT.operands _ (hpositional c hc)
    rw [argumentType]
    split
    case h_1 inner hkind =>
      refine (optional hev fun d hd ↦ hsub d ?_).bind fun _ ↦ .pure _
      simpa [hkind] using hd
    case h_2 => exact (hev c (hpositional c hc) _ _).bind fun t ↦ .pure _
  · have hsub := hT.operands _ (hkeywords c hc)
    rw [keywordType]
    split
    case h_1 key value hkind =>
      have hkey : F key := hsub key (by simp [hkind])
      have hvalue : F value := hsub value (by simp [hkind])
      split
      · exact (hev value hvalue _ _).bind fun t ↦ .pure _
      · exact (hev key hkey _ _).bind fun _ ↦ (hev value hvalue _ _).bind fun _ ↦ .pure _
    case h_2 => exact (hev c (hkeywords c hc) _ _).bind fun _ ↦ .pure _

omit hev in
theorem declarable_locals {n : Node} (hn : V n) {others : List (String × Option Ty)}
    (hothers : ∀ d ∈ others, ∃ jump : JumpKind, d.1 = jump.label) :
    ∀ d ∈ unwritten n.declaredLocals ++ others, Declarable V d.1 := by
  intro d hd
  rcases List.mem_append.mp hd with hd | hd
  · obtain ⟨name, hname, rfl⟩ := List.mem_map.mp hd
    exact .inr (hT.descends.declaredLocals hn hname)
  · exact .inl (hothers d hd)

omit hev hT in
theorem labels_allLabels : ∀ d ∈ allLabels, ∃ jump : JumpKind, d.1 = jump.label := by
  intro d hd
  simp only [allLabels, labels, List.map_cons, List.map_nil, List.mem_cons, List.not_mem_nil,
    or_false] at hd
  rcases hd with rfl | rfl | rfl
  · exact ⟨.toBreak, rfl⟩
  · exact ⟨.toNext, rfl⟩
  · exact ⟨.toReturn, rfl⟩

omit hev hT in
theorem labels_loopLabels : ∀ d ∈ loopLabels, ∃ jump : JumpKind, d.1 = jump.label :=
  fun d hd ↦ labels_allLabels d (List.mem_append_left [(Label.toReturn, none)] hd)

omit hev hT in
theorem mem_own_of_parameter {n : Node} {params : Parameters} (h : n.parameterNames = params.names)
    (others : List (String × Option Ty)) (own : List String) :
    ∀ name ∈ params.names, name ∈ (unwritten n.declaredLocals ++ others).map Prod.fst ++ own := by
  intro name hname
  refine List.mem_append_left _ (List.mem_map.mpr ⟨(name, some .nil), ?_, rfl⟩)
  refine List.mem_append_left _ (List.mem_map.mpr ⟨name, ?_, rfl⟩)
  exact n.parameterNames_subset_declaredLocals name (h ▸ hname)

omit hT in
theorem insideBlock {params : Parameters} {body : Option Node}
    (hown : ∀ name ∈ params.names, name ∈ own) (hbody : ∀ c ∈ body, F c) (args : List Ty) :
    Steps task V H own true (insideBlock task ev params body args) := by
  have hfollow : Steps task V H own true (blockBody task ev params body args) := by
    rw [blockBody]
    split
    · refine Steps.bind (.setAll _ fun p hp ↦ .inr ?_) fun _ ↦ optional hev hbody
      exact Node.implicitArguments_subset p hp
    · exact (assignParameters hown args).bind fun _ ↦ optional hev hbody
  refine hfollow.bind fun result ↦ mergeJumps.bind fun _ ↦ ?_
  refine .scope (fun s ↦ world.bind fun w ↦ .pure _) fun s names ↦ ?_
  simp only [Scope.get?_declaring]

theorem runLiteral {n : Node} {params : Parameters} {body : Option Node} (hn : F n)
    (hkind : n.kind = .block params body) (args : List Ty) (self : Option Ty) :
    Steps task V H own merging (runLiteral task ev n params body args self) := by
  refine (conditional ?_).bind fun ran ↦ .pure _
  have hparams : n.parameterNames = params.names := by rw [Node.parameterNames, hkind]
  have hbody : ∀ c ∈ body, F c := fun c hc ↦ hT.operands n hn c (by simpa [hkind] using hc)
  have hdeclarable := declarable_locals hT (hT.within n hn) labels_loopLabels
  refine (nested _ _ hdeclarable ?_).bind fun r ↦ .pure _
  exact insideBlock hev (mem_own_of_parameter hparams _ _) hbody args

omit hev in
theorem runSymbol {c : Node} (hc : F c) {name : String} (hname : c.calledName? = some name)
    (args : List Ty) (self : Option Ty) :
    Steps task V H own merging (runSymbol task name c.index args self) := by
  refine (stopAt hT hc _).bind fun _ ↦ ?_
  exact (callWithout _ (.inr ⟨c, hT.within c hc, hname⟩) _ _).bind fun _ ↦ .pure _

theorem blockOf_bind {block : Option Node} (hblock : ∀ c ∈ block, F c)
    {k : Option BlockRun → Eval α}
    (hk : ∀ run : Option BlockRun,
      (∀ r ∈ run, ∀ args self, Steps task V H own merging (r args self)) →
      Steps task V H own merging (k run)) :
    Steps task V H own merging (blockOf task ev block >>= k) := by
  have hnone : Steps task V H own merging (k none) := hk none fun _ hr ↦ by cases hr
  have hsome {run : BlockRun} (hrun : ∀ args self, Steps task V H own merging (run args self)) :
      Steps task V H own merging (k (some run)) := by
    refine hk (some run) fun r hr ↦ ?_
    obtain rfl := Option.mem_some.mp hr
    exact hrun
  cases block with
  | none => simpa only [blockOf, pure_bind] using hnone
  | some n =>
    have hsub := hT.operands _ (hblock n rfl)
    simp only [blockOf]
    split
    case h_1 params body hkind =>
      rw [pure_bind]
      exact hsome (runLiteral hev hT (hblock n rfl) hkind)
    case h_2 =>
      rw [pure_bind]
      exact hsome fun _ _ ↦ .pure _
    case h_3 inner hkind =>
      have hinner : F inner := hsub inner (by simp [hkind])
      split
      case h_1 name _ hsymbol =>
        rw [pure_bind]
        exact hsome (runSymbol hT hinner (by rw [Node.calledName?, hsymbol]))
      case h_2 =>
        rw [bind_assoc]
        refine (hev inner hinner _ _).bind fun _ ↦ ?_
        rw [pure_bind]
        exact hsome fun _ _ ↦ .pure _
    case h_4 =>
      rw [pure_bind]
      exact hnone

theorem callNode {arguments block : Option Node} (harguments : ∀ c ∈ arguments, F c)
    (hblock : ∀ c ∈ block, F c) (n : Node) {name : String} (hname : Callable V name)
    (receiver : Ty) :
    Steps task V H own merging (callNode task ev n name arguments block receiver) := by
  rw [Eval.callNode]
  refine (callArguments hev hT harguments).bind fun args ↦ ?_
  refine blockOf_bind hev hT hblock fun run hrun ↦ ?_
  refine (call hrun receiver hname args true).bind fun result ↦ ?_
  split <;> exact .pure _

theorem evaluateCall {receiver arguments block : Option Node} (hreceiver : ∀ c ∈ receiver, F c)
    (harguments : ∀ c ∈ arguments, F c) (hblock : ∀ c ∈ block, F c) (n : Node)
    (operator : Option CallOperator) {name : String} (hname : Callable V name) :
    Steps task V H own merging
      (evaluateCall task ev n receiver operator name arguments block) := by
  have hrest (receiver : Ty) : Steps task V H own merging (do
      if operator = some .safeNav then
        let result ← Eval.conditional
          (Eval.callNode task ev n name arguments block receiver.nonnillable)
        return Ty.union (result.toList ++ if receiver.nillable then [Ty.nil] else [])
      Eval.callNode task ev n name arguments block receiver) := by
    split
    · exact (conditional (callNode hev hT harguments hblock n hname _)).bind fun _ ↦ .pure _
    · exact callNode hev hT harguments hblock n hname receiver
  cases receiver with
  | none => exact selfType.bind hrest
  | some c => exact (hev c (hreceiver c rfl) _ _).bind hrest

theorem evaluateMultiWrite {targets : List Node} {value : Node} (htargets : ∀ c ∈ targets, V c)
    (hreceivers : ∀ c ∈ NodeKind.receiversEach targets, F c) (hvalue : F value) :
    Steps task V H own merging (evaluateMultiWrite task ev targets value) := by
  have hassign (values : List Ty) (result : Ty) : Steps task V H own merging (do
      assignAll task ev targets values
      return result) :=
    (assignEach hev hT.descends _ _ htargets hreceivers _).bind fun _ ↦ .pure _
  have hwhole : Steps task V H own merging (do
      let t ← ev value
      return (← Eval.spreadValue task t targets.length, t)) :=
    (hev value hvalue _ _).bind fun t ↦ (spreadValue t _).bind fun _ ↦ .pure _
  rw [Eval.evaluateMultiWrite]
  split
  case h_1 items hkind =>
    split
    · exact hwhole.bind fun r ↦ hassign r.1 r.2
    · refine (mapM fun c hc ↦ hev c (hT.operands _ hvalue c ?_) _ _).bind fun values ↦ ?_
      · simpa [hkind] using hc
      · exact (Steps.pure _).bind fun r ↦ hassign r.1 r.2
  case h_2 => exact hwhole.bind fun r ↦ hassign r.1 r.2

omit hev hT in
theorem of_bodyToDig {body : Option Node} (h : ∀ c ∈ body, F c) : ∀ c ∈ bodyToDig task body, F c :=
  fun c hc ↦ h c (Option.mem_filter_iff.mp hc).1

theorem methodBody {n : Node} {params : Parameters} (hn : V n)
    (hparams : n.parameterNames = params.names) (receiver : Ty) {body : Option Node}
    (hbody : ∀ c ∈ body, F c) :
    Steps task V H own merging (methodBody task ev n params receiver body) := by
  cases body with
  | none => exact .pure _
  | some body =>
    refine (nested _ _ (declarable_locals hT hn labels_allLabels) ?_).bind fun _ ↦ .pure _
    refine (assignParameters (mem_own_of_parameter hparams _ _) []).bind fun _ ↦ ?_
    exact (conditional (hev body (hbody body rfl) _ _)).bind fun _ ↦ mergeJumps

theorem evaluateMethodDef {n : Node} {params : Parameters} {receiver body : Option Node} (hn : V n)
    (hparams : n.parameterNames = params.names) (hreceiver : ∀ c ∈ receiver, F c)
    (hbody : ∀ c ∈ body, F c) :
    Steps task V H own merging (evaluateMethodDef task ev n receiver params body) := by
  have hrest (self : Ty) : Steps task V H own merging (do
      Eval.methodBody task ev n params self (bodyToDig task body)
      return Ty.symbol) :=
    (methodBody hev hT hn hparams self (of_bodyToDig hbody)).bind fun _ ↦ .pure _
  rw [Eval.evaluateMethodDef]
  refine world.bind fun w ↦ ?_
  cases receiver with
  | none => exact (selfType.map _).bind hrest
  | some c => exact (hev c (hreceiver c rfl) _ _).bind hrest

theorem definitionPlace {path : Node} (hpath : F path) :
    Steps task V H own merging (definitionPlace ev path) := by
  rw [Eval.definitionPlace]
  split
  case h_1 => exact constantOwner.bind fun _ ↦ .pure _
  case h_2 parent name hkind =>
    have hparent : F parent := hT.operands _ hpath parent (by simp [hkind])
    exact (hev parent hparent _ _).bind fun _ ↦ .pure _
  case h_3 => exact .pure _
  case h_4 => exact (hev path hpath _ _).bind fun _ ↦ .pure _

omit hT in
theorem superclassOf {superclass : Option Node} (h : ∀ c ∈ superclass, F c) :
    Steps task V H own merging (superclassOf ev superclass) := by
  cases superclass with
  | none => exact .pure _
  | some n => exact (hev n (h n rfl) _ _).bind fun t ↦ world.bind fun w ↦ .pure _

omit hev hT in
theorem openModule (owner : ModuleId) (name : String) (isClass : Bool)
    (superclass : Option ModuleId) (known : Ty) :
    Steps task V H own merging (openModule owner name isClass superclass known) := by
  rw [Eval.openModule]
  refine world.bind fun w ↦ ?_
  split
  · exact .pure _
  · exact .defineModule owner name isClass superclass

theorem moduleBody (m : ModuleId) {body : Option Node} (hbody : ∀ c ∈ body, F c) :
    Steps task V H own merging (moduleBody ev m body) := by
  cases body with
  | none => exact .pure _
  | some body =>
    have hdeclared : ∀ d ∈ unwritten body.declaredLocals ++ [], Declarable V d.1 :=
      declarable_locals hT (hT.within body (hbody body rfl)) fun d hd ↦ by cases hd
    rw [List.append_nil] at hdeclared
    exact (nested _ _ hdeclared (hev body (hbody body rfl) _ _)).bind fun _ ↦ .pure _

theorem evaluateModuleDef {path : Node} {superclass body : Option Node} (hpath : F path)
    (hsuperclass : ∀ c ∈ superclass, F c) (hbody : ∀ c ∈ body, F c) (isClass : Bool) :
    Steps task V H own merging (evaluateModuleDef task ev path superclass body isClass) := by
  rw [Eval.evaluateModuleDef]
  refine (definitionPlace hev hT hpath).bind fun place ↦ ?_
  split
  · exact .pure _
  · refine (hev path hpath _ _).bind fun known ↦ (superclassOf hev hsuperclass).bind fun cls ↦ ?_
    exact (openModule _ _ _ _ _).bind fun m ↦ moduleBody hev hT m (of_bodyToDig hbody)

omit hT in
theorem loopBody {body : Option Node} (hbody : ∀ c ∈ body, F c) :
    Steps task V H own true (loopBody ev body) := by
  have hrest : Steps task V H own true (do
      Eval.mergeJumps
      return (← Eval.scope).get? (← Eval.world) Label.toBreak) :=
    mergeJumps.bind fun _ ↦ .scope (fun s ↦ world.bind fun w ↦ .pure _) fun s names ↦ by
      simp only [Scope.get?_declaring]
  cases body with
  | none => exact hrest
  | some n => exact (conditional (hev n (hbody n rfl) _ _)).bind fun _ ↦ hrest

omit hev hT in
theorem declarable_loopLabels : ∀ d ∈ loopLabels, Declarable V d.1 :=
  fun d hd ↦ .inl (labels_loopLabels d hd)

omit hT in
theorem evaluateLoop {predicate : Node} {body : Option Node} (hpredicate : F predicate)
    (hbody : ∀ c ∈ body, F c) : Steps task V H own merging (evaluateLoop ev predicate body) := by
  refine (nested _ _ declarable_loopLabels ?_).bind fun _ ↦ .pure _
  exact (hev predicate hpredicate _ _).bind fun _ ↦ loopBody hev hbody

theorem evaluateFor {index collection : Node} {body : Option Node} (hindex : V index)
    (hreceivers : ∀ c ∈ index.receivers, F c) (hcollection : F collection)
    (hbody : ∀ c ∈ body, F c) :
    Steps task V H own merging (evaluateFor task ev index collection body) := by
  refine (hev collection hcollection _ _).bind fun t ↦ ?_
  refine (nested _ _ declarable_loopLabels ?_).bind fun _ ↦ .pure _
  refine (partitionArrays t (by simp)).bind fun parts ↦ ?_
  exact (assign hev hT.descends index hindex hreceivers _).bind fun _ ↦ loopBody hev hbody

theorem evaluateRescue {exceptions : List Node} {reference body : Option Node}
    (hexceptions : ∀ c ∈ exceptions, F c) (hreference : ∀ c ∈ reference, V c)
    (hreceivers : ∀ c ∈ NodeKind.receiversOptional reference, F c) (hbody : ∀ c ∈ body, F c) :
    Steps task V H own merging (evaluateRescue task ev exceptions reference body) := by
  refine (elementType hev hT hexceptions).bind fun classes ↦ ?_
  cases reference with
  | none => exact optional hev hbody
  | some target =>
    refine world.bind fun w ↦ ?_
    refine (assign hev hT.descends target (hreference target rfl) hreceivers _).bind fun _ ↦ ?_
    exact optional hev hbody

omit hT in
theorem evaluateBegin {body rescue otherwise ensure : Option Node} (hbody : ∀ c ∈ body, F c)
    (hrescue : ∀ c ∈ rescue, F c) (hotherwise : ∀ c ∈ otherwise, F c)
    (hensure : ∀ c ∈ ensure, F c) :
    Steps task V H own merging (evaluateBegin ev body rescue otherwise ensure) := by
  have hend (result : Ty) : Steps task V H own merging (do
      let _ ← Eval.optional ev ensure
      return result) :=
    (optional hev hensure).bind fun _ ↦ .pure result
  refine (optional hev hbody).bind fun result ↦ ?_
  cases rescue with
  | none => exact (Steps.pure result).bind hend
  | some rescue =>
    have hrescue := hev rescue (hrescue rescue rfl) own false
    cases otherwise with
    | none => exact ((conditional hrescue).map _).bind hend
    | some otherwise =>
      exact ((pair hrescue (hev otherwise (hotherwise otherwise rfl) own false)).map _).bind hend

theorem evaluateLambda {n : Node} {params : Parameters} {body : Option Node} (hn : V n)
    (hparams : n.parameterNames = params.names) (hbody : ∀ c ∈ body, F c) :
    Steps task V H own merging (evaluateLambda task ev n params body) := by
  refine (nested _ _ (declarable_locals hT hn labels_allLabels) ?_).bind fun _ ↦ .pure _
  refine (conditional ?_).bind fun _ ↦ mergeJumps
  exact (assignParameters (mem_own_of_parameter hparams _ _) []).bind fun _ ↦ optional hev hbody

theorem evaluateKind {n : Node} (hn : V n) (hsub : ∀ c ∈ n.kind.operands, F c) :
    Steps task V H own merging (evaluateKind task ev n) := by
  have hheld : ∀ c ∈ n.kind.subnodes, V c := hT.descends.subnodes hn
  have hwritten (name : String) (h : n.writtenVariable? = some name) (t : Ty) :
      Steps task V H own merging (Eval.write name t) :=
    Steps.bind (.write n hn name h t) fun _ ↦ .pure _
  have hconditional {c : Node} (hc : F c) : Steps task V H own merging (Eval.conditional (ev c)) :=
    conditional (hev c hc _ _)
  unfold Eval.evaluateKind
  generalize hkind : n.kind = kind at hsub hheld ⊢
  cases kind with
  | program body => exact hev body (hsub body (by simp)) _ _
  | statements items => exact sequence hev hsub
  | parentheses inner | otherwise inner => exact optional hev fun c hc ↦ hsub c (by simpa using hc)
  | self => exact selfType
  | interpolated quoting parts => exact (sequence hev hsub).bind fun _ ↦ .pure _
  | array items => exact (elementType hev hT hsub).bind fun _ ↦ .pure _
  | hash items | keywordHash items => exact hashType hev hT hsub
  | range left right _ => exact (mapM fun c hc ↦ hev c (hsub c hc) _ _).bind fun _ ↦ .pure _
  | varRead _ name | varTarget _ name => exact read name
  | varWrite _ name value =>
    have hname := hwritten name (by simp [Node.writtenVariable?, hkind])
    exact (hev value (hsub value (by simp)) _ _).bind hname
  | varOpWrite _ name operator value =>
    refine (read name).bind fun left ↦ (hev value (hsub value (by simp)) _ _).bind fun right ↦ ?_
    have hoperator : Callable V operator := .inr ⟨n, hn, by rw [Node.calledName?, hkind]⟩
    refine (callWithout _ hoperator _ _).bind (hwritten name ?_)
    simp [Node.writtenVariable?, hkind]
  | varOrWrite _ name value | varAndWrite _ name value =>
    refine (read name).bind fun left ↦ (hconditional (hsub value (by simp))).bind fun _ ↦ ?_
    exact hwritten name (by simp [Node.writtenVariable?, hkind]) _
  | constRead name =>
    refine .scope (fun s ↦ world.bind fun w ↦ .pure _) fun s names ↦ ?_
    simp only [Scope.resolveConstant_declaring]
  | constPath parent name =>
    cases parent with
    | none =>
      refine .scope (fun s ↦ world.bind fun w ↦ .pure _) fun s names ↦ ?_
      simp only [Scope.constant?_declaring]
    | some parent =>
      refine (hev parent (hsub parent (by simp)) _ _).bind fun t ↦ ?_
      refine .scope (fun s ↦ world.bind fun w ↦ .pure _) fun s names ↦ ?_
      simp only [Scope.constant?_declaring]
  | constWrite name value =>
    refine (hev value (hsub value (by simp)) _ _).bind fun t ↦ constantOwner.bind fun owner ↦ ?_
    exact world.bind fun w ↦ (Steps.setConstant w owner name t).bind fun _ ↦ .pure _
  | call receiver operator name arguments block _ =>
    have hname : Callable V name := .inr ⟨n, hn, by rw [Node.calledName?, hkind]⟩
    refine evaluateCall hev hT ?_ ?_ ?_ n operator hname <;>
      exact fun c hc ↦ hsub c (by simp_all)
  | arguments items => exact (sequence hev hsub).bind fun _ ↦ .pure _
  | blockArgument inner =>
    exact (optional hev fun c hc ↦ hsub c (by simpa using hc)).bind fun _ ↦ .pure _
  | lambda params body =>
    have hparams : n.parameterNames = params.names := by rw [Node.parameterNames, hkind]
    exact evaluateLambda hev hT hn hparams fun c hc ↦ hsub c (by simpa using hc)
  | yield arguments | super arguments =>
    exact (optional hev fun c hc ↦ hsub c (by simpa using hc)).bind fun _ ↦ .pure _
  | ifThen predicate body contrary | unlessThen predicate body contrary =>
    refine (hev predicate (hsub predicate (by simp)) _ _).bind fun _ ↦ branchesOf hev ?_ ?_ <;>
      exact fun c hc ↦ hsub c (by simp_all)
  | caseOf subject conditions contrary =>
    refine (optional hev fun c hc ↦ hsub c (by simp_all)).bind fun _ ↦ ?_
    refine (branches (by simp) fun body hbody ↦ ?_).bind fun _ ↦ .pure _
    rcases List.mem_append.mp hbody with hbody | hbody
    · obtain ⟨c, hc, rfl⟩ := List.mem_map.mp hbody
      exact hev c (hsub c (by simp [hc])) _ _
    · obtain rfl := List.mem_singleton.mp hbody
      exact optional hev fun c hc ↦ hsub c (by simp_all)
  | whenClause conditions body =>
    refine (sequence hev fun c hc ↦ hsub c (by simp [hc])).bind fun _ ↦ optional hev ?_
    exact fun c hc ↦ hsub c (by simp_all)
  | whileLoop predicate body | untilLoop predicate body =>
    exact evaluateLoop hev (hsub predicate (by simp)) fun c hc ↦ hsub c (by simp_all)
  | forLoop index collection body =>
    refine evaluateFor hev hT (hheld index (by simp)) ?_ (hsub collection (by simp)) ?_ <;>
      exact fun c hc ↦ hsub c (by simp_all)
  | and left right | or left right =>
    refine (hev left (hsub left (by simp)) _ _).bind fun _ ↦ ?_
    exact (hconditional (hsub right (by simp))).bind fun _ ↦ .pure _
  | jump jump value =>
    refine (jumpValue hev hT fun c hc ↦ hsub c (by simpa using hc)).bind fun t ↦ ?_
    exact (Steps.jump n hn jump value hkind t).bind fun _ ↦ .pure _
  | beginBlock body rescue contrary ensure =>
    refine evaluateBegin hev ?_ ?_ ?_ ?_ <;> exact fun c hc ↦ hsub c (by simp_all)
  | rescue exceptions reference body subsequent =>
    have hclause (merging : Bool) :
        Steps task V H own merging (Eval.evaluateRescue task ev exceptions reference body) := by
      refine evaluateRescue hev hT ?_ (fun c hc ↦ hheld c (by simp_all)) ?_ ?_ <;>
        exact fun c hc ↦ hsub c (by simp_all)
    cases subsequent with
    | none => exact hclause merging
    | some next =>
      exact (pair (hclause false) (hev next (hsub next (by simp)) _ _)).bind fun _ ↦ .pure _
  | rescueModifier expression fallback =>
    refine (hev expression (hsub expression (by simp)) _ _).bind fun t ↦ ?_
    exact (hconditional (hsub fallback (by simp))).bind fun _ ↦ .pure _
  | methodDef _ receiver params body =>
    have hparams : n.parameterNames = params.names := by rw [Node.parameterNames, hkind]
    refine evaluateMethodDef hev hT hn hparams ?_ ?_ <;> exact fun c hc ↦ hsub c (by simp_all)
  | classDef path superclass body =>
    refine evaluateModuleDef hev hT (hsub path (by simp)) ?_ ?_ true <;>
      exact fun c hc ↦ hsub c (by simp_all)
  | moduleDef path body =>
    refine evaluateModuleDef hev hT (hsub path (by simp)) (by simp) ?_ false
    exact fun c hc ↦ hsub c (by simp_all)
  | multiWrite targets value =>
    refine evaluateMultiWrite hev hT (fun c hc ↦ hheld c (by simp [hc])) ?_ (hsub value (by simp))
    exact fun c hc ↦ hsub c (by simp [hc])
  | defined inner => exact (hconditional (hsub inner (by simp))).bind fun _ ↦ .pure _
  | assoc _ _ | assocSplat _ | splat _ | block _ _ =>
    rw [n.children_eq_subnodes, hkind]
    exact (sequence hev hsub).bind fun _ ↦ .pure _
  | nil | missing | constTarget _ | bool _ | integer _ | float _ | rational _ | imaginary _
  | string _ _ | shell _ | symbol _ _ | regexp _ => exact .pure _

end Steps

/-- Following a node comes down to what the nodes below it ask for. At each depth there may be fewer
nodes to follow, and those that are left at the end are too deep. -/
theorem steps_evaluate {F : Nat → Node → Prop} (hT : ∀ depth, Traverses task V (F depth) H)
    (hdown : ∀ depth n, F (depth + 1) n → ∀ c ∈ n.kind.operands, F depth c)
    (hdeep : ∀ n, F 0 n → H (.tooDeep n.span)) (depth : Nat) :
    Steps.Follows task V (F depth) H (evaluate task depth) := by
  induction depth with
  | zero => exact fun n hn own merging ↦ .tooDeep n.span (hdeep n hn)
  | succ depth ih =>
    intro n hn own merging
    have hstop (t : Ty) : Steps task V H own merging (do
        stopAt task n.index t
        return t) :=
      (Steps.stopAt (hT (depth + 1)) hn t).bind fun _ ↦ .pure t
    have hkind : Steps task V H own merging (evaluateKind task (evaluate task depth) n) :=
      Steps.evaluateKind ih (hT depth) ((hT (depth + 1)).within n hn) (hdown depth n hn)
    refine hkind.bind fun t ↦ ?_
    dsimp only
    split
    · exact (Steps.probe t).bind fun _ ↦ hstop t
    · exact hstop t

theorem traverses_all (hV : Node.Descends V) : Traverses task V V (Halt.ComesFrom task V) where
  descends := hV
  within := fun _ hn ↦ hn
  operands := fun n hn ↦ hV.operands (hV n hn)
  found := fun n hn htarget _ ↦ ⟨n, hn, htarget.symm⟩

abbrev Composed.Follows (task : Task) (V : Node → Prop) (ev : Node → Eval Ty) : Prop :=
  ∀ c, V c → ∀ own merging, Composed task V own merging (ev c)

theorem composed_evaluate (hV : Node.Descends V) (depth : Nat) :
    Composed.Follows task V (evaluate task depth) :=
  steps_evaluate (F := fun _ ↦ V) (fun _ ↦ traverses_all hV)
    (fun _ n hn ↦ hV.operands (hV n hn)) (fun n hn ↦ ⟨n, hn, rfl⟩) depth

theorem Steps.haltsWithin {m : Eval α} (h : Steps task V H own merging m) : HaltsWithin H m := by
  induction h with
  | pure a => exact ensures_pure trivial
  | bind _ _ hm hk => exact hm.bind fun a _ ↦ hk a
  | world => exact ensures_world
  | scope _ _ hk => exact (ensures_scope fun _ _ ↦ trivial).bind fun s (_ : True) ↦ hk s
  | found t h => exact ensures_throw h
  | tooDeep span h => exact ensures_throw h
  | probe t => exact ensures_modify fun _ _ ↦ trivial
  | write | setAll | setConstant | terminate | jump => exact haltsWithin_change _
  | defineModule owner name isClass superclass =>
    refine ensures_world.bind fun w _ ↦ ?_
    exact (ensures_modify fun _ _ ↦ trivial).bind fun _ _ ↦ ensures_pure trivial
  | mergeJumps => exact ensures_world.bind fun w _ ↦ haltsWithin_change _
  | branches _ _ hbodies =>
    refine (Ensures.mapM fun body hbody ↦ (hbodies body hbody).inFrame {} []).bind fun runs _ ↦ ?_
    refine ensures_world.bind fun w _ ↦ (haltsWithin_change _).bind fun _ _ ↦ ensures_pure trivial
  | nested frame declared _ _ hbody =>
    refine (hbody.inFrame frame declared).bind fun r _ ↦ ?_
    exact (haltsWithin_change _).bind fun _ _ ↦ ensures_pure trivial

end Eval

end FlowCompletion
