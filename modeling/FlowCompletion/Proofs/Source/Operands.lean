import FlowCompletion.Proofs.Source.Names

namespace FlowCompletion

mutual

def Node.receivers : Node → List Node
  | .mk _ _ kind => NodeKind.receivers kind

def NodeKind.receivers : NodeKind → List Node
  | .splat inner => NodeKind.receiversOptional inner
  | .multiWrite targets _ => NodeKind.receiversEach targets
  | .call (some receiver) _ _ _ _ _ => [receiver]
  | _ => []

def NodeKind.receiversOptional : Option Node → List Node
  | none => []
  | some n => n.receivers

def NodeKind.receiversEach : List Node → List Node
  | [] => []
  | n :: rest => n.receivers ++ NodeKind.receiversEach rest

end

namespace NodeKind

theorem receiversOptional_eq_flatMap (n : Option Node) :
    receiversOptional n = n.toList.flatMap Node.receivers := by
  cases n with
  | none => rfl
  | some n => rw [receiversOptional, Option.toList_some, List.flatMap_singleton]

theorem receiversEach_eq_flatMap (ns : List Node) :
    receiversEach ns = ns.flatMap Node.receivers := by
  induction ns with
  | nil => rfl
  | cons n rest ih => rw [receiversEach, ih, List.flatMap_cons]

def targets : NodeKind → List Node
  | .forLoop index _ _ => [index]
  | .rescue _ reference _ _ => reference.toList
  | .multiWrite targets _ => targets
  | _ => []

def code : NodeKind → List Node
  | .forLoop _ collection body => collection :: body.toList
  | .rescue exceptions _ body subsequent => exceptions ++ body.toList ++ subsequent.toList
  | .multiWrite _ value => [value]
  | kind => kind.subnodes

/-- The nodes that are followed for a node. -/
@[simp] def operands : NodeKind → List Node
  | .forLoop index collection body => collection :: (body.toList ++ index.receivers)
  | .rescue exceptions reference body subsequent =>
    exceptions ++ body.toList ++ subsequent.toList ++ receiversOptional reference
  | .multiWrite targets value => value :: receiversEach targets
  | kind => kind.subnodes

theorem subnodes_perm (kind : NodeKind) : kind.subnodes.Perm (kind.targets ++ kind.code) := by
  cases kind with
  | rescue exceptions reference body subsequent =>
    simp only [subnodes, targets, code, ← List.append_assoc]
    exact (List.perm_append_comm.append_right _).append_right _
  | _ => exact .refl _

theorem mem_operands {kind : NodeKind} {c : Node} :
    c ∈ kind.operands ↔ c ∈ kind.code ∨ ∃ t ∈ kind.targets, c ∈ t.receivers := by
  cases kind with
  | forLoop | rescue | multiWrite =>
    simp [targets, code, receiversOptional_eq_flatMap, receiversEach_eq_flatMap, or_assoc]
  | _ => simp [targets, code]

end NodeKind

namespace Node

def receiver? (n : Node) : Option Node :=
  match n.kind with
  | .call receiver _ _ _ _ _ => receiver
  | _ => none

theorem mem_children_of_receiver? {n c : Node} (h : n.receiver? = some c) : c ∈ n.children := by
  rw [children_eq_subnodes]
  unfold receiver? at h
  split at h
  next hkind => simp [hkind, h]
  next => cases h

variable {V : Node → Prop}

theorem Descends.subnodes (hV : Descends V) {n : Node} (hn : V n) : ∀ c ∈ n.kind.subnodes, V c := by
  rw [← n.children_eq_subnodes]
  exact hV n hn

mutual

theorem Descends.receivers (hV : Descends V) :
    (n : Node) → V n → ∀ c ∈ n.receivers, ∃ q, V q ∧ q.receiver? = some c
  | .mk _ _ kind, hn => Descends.receiversKind hV kind hn

theorem Descends.receiversKind (hV : Descends V) {span : Span} {index : Nat} (kind : NodeKind)
    (hn : V (.mk span index kind)) : ∀ c ∈ kind.receivers, ∃ q, V q ∧ q.receiver? = some c := by
  have hsub : ∀ c ∈ kind.subnodes, V c := hV.subnodes hn
  unfold NodeKind.receivers
  split
  · exact Descends.receiversOptional hV _ fun c hc ↦ hsub c (by simpa using hc)
  · exact Descends.receiversEach hV _ fun c hc ↦ hsub c (by simp [hc])
  · intro c hc
    obtain rfl := List.mem_singleton.mp hc
    exact ⟨_, hn, rfl⟩
  · exact fun c hc ↦ by cases hc

theorem Descends.receiversOptional (hV : Descends V) :
    (n : Option Node) → (∀ c ∈ n, V c) →
      ∀ c ∈ NodeKind.receiversOptional n, ∃ q, V q ∧ q.receiver? = some c
  | none, _ => fun _ hc ↦ by cases hc
  | some n, h => Descends.receivers hV n (h n rfl)

theorem Descends.receiversEach (hV : Descends V) :
    (ns : List Node) → (∀ c ∈ ns, V c) →
      ∀ c ∈ NodeKind.receiversEach ns, ∃ q, V q ∧ q.receiver? = some c
  | [], _ => fun _ hc ↦ by cases hc
  | n :: rest, h => by
    obtain ⟨hn, hrest⟩ := List.forall_mem_cons.mp h
    intro c hc
    rw [NodeKind.receiversEach] at hc
    rcases List.mem_append.mp hc with hc | hc
    · exact Descends.receivers hV n hn c hc
    · exact Descends.receiversEach hV rest hrest c hc

end

theorem mem_children_of_mem_targets {n c : Node} (h : c ∈ n.kind.targets) : c ∈ n.children := by
  rw [children_eq_subnodes]
  exact n.kind.subnodes_perm.mem_iff.mpr (List.mem_append_left _ h)

theorem mem_children_of_mem_code {n c : Node} (h : c ∈ n.kind.code) : c ∈ n.children := by
  rw [children_eq_subnodes]
  exact n.kind.subnodes_perm.mem_iff.mpr (List.mem_append_right _ h)

theorem Descends.operands (hV : Descends V) {n : Node} (h : ∀ c ∈ n.children, V c) :
    ∀ c ∈ n.kind.operands, V c := by
  intro c hc
  rcases NodeKind.mem_operands.mp hc with hc | ⟨t, ht, hc⟩
  · exact h c (mem_children_of_mem_code hc)
  · obtain ⟨q, hq, hreceiver⟩ := hV.receivers t (h t (mem_children_of_mem_targets ht)) c hc
    exact hV q hq c (mem_children_of_receiver? hreceiver)

end Node

end FlowCompletion
