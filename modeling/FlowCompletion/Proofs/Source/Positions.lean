import FlowCompletion.Proofs.Source.Layout
import FlowCompletion.Proofs.Source.Operands
import Mathlib.Data.List.Nodup
import Mathlib.Data.List.Pairwise
import Mathlib.Data.List.Perm.Basic

namespace FlowCompletion

namespace Node

@[elab_as_elim]
theorem children_induction {P : Node → Prop} (step : ∀ n, (∀ c ∈ n.children, P c) → P n)
    (n : Node) : P n := by
  induction hsize : sizeOf n using Nat.strongRecOn generalizing n with
  | ind size ih =>
    apply step
    intro c hc
    exact ih (sizeOf c) (hsize ▸ sizeOf_lt_of_mem_children hc) c rfl

theorem preorder_eq (n : Node) : n.preorder = n :: n.children.flatMap preorder := by
  have hattach : n.children.attach.flatMap (fun c ↦ c.1.preorder) =
      n.children.flatMap preorder := by
    rw [← List.flatMap_map, List.attach_map_subtype_val]
  rw [preorder]
  exact congrArg (n :: ·) hattach

theorem preorder_perm (n : Node) : n.preorder.Perm (n :: n.preorder.flatMap children) := by
  induction n using children_induction with
  | step n ih =>
    have hbelow : (n.children.flatMap preorder).Perm
        (n.children.flatMap fun c ↦ c :: c.preorder.flatMap children) :=
      List.Perm.flatMap_left _ ih
    have hheld := List.map_append_flatMap_perm n.children id fun c ↦ c.preorder.flatMap children
    rw [List.map_id] at hheld
    rw [preorder_eq, List.flatMap_cons, List.flatMap_assoc]
    exact (hbelow.trans hheld.symm).cons n

theorem locate_eq (offset : Nat) (n : Node) :
    n.locate offset =
      (n.children.findSome? (locate offset)).elim
        (if n.span.stop = offset then some [n] else none) (some <| n :: ·) := by
  have hattach : n.children.attach.findSome? (locate offset ∘ Subtype.val) =
      n.children.findSome? (locate offset) := by
    rw [← List.findSome?_map, List.attach_map_subtype_val]
  rw [locate, ← hattach]
  change _ = (n.children.attach.findSome? fun c ↦ c.1.locate offset).elim _ _
  split
  next h => rw [h, Option.elim_some]
  next h => rw [h, Option.elim_none]

/-- No two nodes of the tree have the same number. -/
def Distinct (root : Node) : Prop := (root.preorder.map index).Nodup

variable {root n m c : Node}

theorem Distinct.eq_of_index_eq (h : root.Distinct) (hn : n ∈ root.preorder)
    (hm : m ∈ root.preorder) (heq : n.index = m.index) : n = m :=
  List.inj_on_of_nodup_map h hn hm heq

theorem Distinct.nodup (h : root.Distinct) : (root :: root.preorder.flatMap children).Nodup :=
  root.preorder_perm.nodup_iff.mp (List.Nodup.of_map index h)

theorem Distinct.not_mem_children (h : root.Distinct) (hn : n ∈ root.preorder) :
    root ∉ n.children := by
  intro hroot
  have hbelow := (List.nodup_cons.mp h.nodup).1
  exact hbelow (List.mem_flatMap.mpr ⟨n, hn, hroot⟩)

theorem Distinct.nodup_children (h : root.Distinct) (hn : n ∈ root.preorder) :
    n.children.Nodup :=
  (List.nodup_flatMap.mp (List.nodup_cons.mp h.nodup).2).1 n hn

theorem Distinct.parent_unique (h : root.Distinct) (hn : n ∈ root.preorder)
    (hm : m ∈ root.preorder) (hcn : c ∈ n.children) (hcm : c ∈ m.children) : n = m := by
  by_contra hne
  have hdisjoint := (List.nodup_flatMap.mp (List.nodup_cons.mp h.nodup).2).2
  have hsymm : Std.Symm (Function.onFun List.Disjoint children) :=
    ⟨fun _ _ h _ hleft hright ↦ h hright hleft⟩
  exact hdisjoint.forall hn hm hne hcn hcm

theorem Distinct.not_mem_code (h : root.Distinct) (hn : n ∈ root.preorder)
    (hc : c ∈ n.kind.targets) : c ∉ n.kind.code := by
  have hnodup := h.nodup_children hn
  rw [children_eq_subnodes, n.kind.subnodes_perm.nodup_iff, List.nodup_append'] at hnodup
  exact hnodup.2.2 hc

def numberAll : Nat → List Node → List Node × Nat
  | next, [] => ([], next)
  | next, c :: rest =>
    ((c.numbered next).1 :: (numberAll (c.numbered next).2 rest).1,
      (numberAll (c.numbered next).2 rest).2)

theorem length_numberAll (next : Nat) (ns : List Node) :
    (numberAll next ns).1.length = ns.length := by
  induction ns generalizing next with
  | nil => rfl
  | cons n rest ih => rw [numberAll, List.length_cons, ih, List.length_cons]

theorem numbered_eq (first : Nat) (n : Node) :
    n.numbered first =
      (.mk n.span first (n.kind.withChildren (numberAll (first + 1) n.children).1),
        (numberAll (first + 1) n.children).2) := by
  have hfold (ns done : List Node) (next : Nat) :
      ns.foldl (fun (p : List Node × Nat) c ↦
        (p.1 ++ [(c.numbered p.2).1], (c.numbered p.2).2)) (done, next) =
        (done ++ (numberAll next ns).1, (numberAll next ns).2) := by
    induction ns generalizing done next with
    | nil => rw [numberAll, List.append_nil, List.foldl_nil]
    | cons n rest ih =>
      rw [List.foldl_cons, ih, numberAll, List.append_assoc, List.singleton_append]
  have hattach : n.children.attach.foldl (fun (p : List Node × Nat) c ↦
      (p.1 ++ [(c.1.numbered p.2).1], (c.1.numbered p.2).2)) ([], first + 1) =
        numberAll (first + 1) n.children :=
    (foldl_attach_eq (fun _ _ ↦ rfl) _).trans (hfold n.children [] (first + 1))
  rw [numbered]
  dsimp only
  rw [hattach]

theorem children_numbered (first : Nat) (n : Node) :
    (n.numbered first).1.children = (numberAll (first + 1) n.children).1 := by
  have hlength : (numberAll (first + 1) n.children).1.length = n.kind.subnodes.length := by
    rw [length_numberAll, children_eq_subnodes]
  rw [numbered_eq, children_eq_subnodes, kind, NodeKind.subnodes_withChildren hlength]

theorem indices_numbered (n : Node) (first : Nat) :
    (n.numbered first).1.preorder.map index = List.range' first n.preorder.length ∧
      (n.numbered first).2 = first + n.preorder.length := by
  induction n using children_induction generalizing first with
  | step n ih =>
    have hall (ns : List Node) (hns : ∀ c ∈ ns, c ∈ n.children) (next : Nat) :
        ((numberAll next ns).1.flatMap preorder).map index =
            List.range' next (ns.flatMap preorder).length ∧
          (numberAll next ns).2 = next + (ns.flatMap preorder).length := by
      induction ns generalizing next with
      | nil => exact ⟨rfl, rfl⟩
      | cons c rest ihrest =>
        obtain ⟨hc, hrest⟩ := List.forall_mem_cons.mp hns
        obtain ⟨hindices, hnext⟩ := ih c hc next
        obtain ⟨hlater, hstop⟩ := ihrest hrest (c.numbered next).2
        rw [numberAll, List.flatMap_cons, List.map_append, hindices, hlater, hstop, hnext,
          List.flatMap_cons, List.length_append]
        exact ⟨List.range'_append_1, Nat.add_assoc ..⟩
    obtain ⟨hindices, hstop⟩ := hall n.children (fun _ hc ↦ hc) (first + 1)
    rw [preorder_eq, preorder_eq n, List.map_cons, children_numbered, hindices, numbered_eq, index,
      hstop, List.length_cons]
    exact ⟨rfl, by omega⟩

theorem distinct_numbered (n : Node) (first : Nat) : (n.numbered first).1.Distinct := by
  rw [Distinct, (n.indices_numbered first).1]
  exact List.nodup_range'

/-- A node of the tree that is assigned to. -/
inductive Assigned (root : Node) : Node → Prop
  | target {n c : Node} (hn : n ∈ root.preorder) (hc : c ∈ n.kind.targets) : Assigned root c
  | splat {n c : Node} (h : Assigned root n) (hkind : n.kind = .splat (some c)) : Assigned root c

theorem Assigned.mem_preorder (h : root.Assigned n) : n ∈ root.preorder := by
  induction h with
  | target hn hc => exact root.descends_preorder _ hn _ (mem_children_of_mem_targets hc)
  | splat _ hkind ih =>
    refine root.descends_preorder _ ih _ ?_
    simp [children_eq_subnodes, hkind]

theorem Assigned.exists_parent (h : root.Assigned c) :
    ∃ n ∈ root.preorder, c ∈ n.children ∧
      (c ∈ n.kind.targets ∨ root.Assigned n ∧ n.kind = .splat (some c)) := by
  cases h with
  | @target n _ hn hc => exact ⟨n, hn, mem_children_of_mem_targets hc, .inl hc⟩
  | @splat n _ h hkind =>
    refine ⟨n, h.mem_preorder, ?_, .inr ⟨h, hkind⟩⟩
    simp [children_eq_subnodes, hkind]

theorem Distinct.not_assigned_root (h : root.Distinct) : ¬ root.Assigned root := by
  intro hroot
  obtain ⟨n, hn, hchild, -⟩ := hroot.exists_parent
  exact h.not_mem_children hn hchild

/-- What is followed for a node that is not a target is no target either. -/
theorem Distinct.not_assigned_operand (h : root.Distinct) (hn : n ∈ root.preorder)
    (hcode : ¬ root.Assigned n) (hc : c ∈ n.kind.operands) : ¬ root.Assigned c := by
  intro hassigned
  obtain ⟨p, hp, hcp, hplace⟩ := hassigned.exists_parent
  rcases NodeKind.mem_operands.mp hc with hc | ⟨t, ht, hc⟩
  · obtain rfl := h.parent_unique hp hn hcp (mem_children_of_mem_code hc)
    rcases hplace with htarget | ⟨hsplat, -⟩
    · exact h.not_mem_code hn htarget hc
    · exact hcode hsplat
  · -- the receiver of an attribute is held by a call, which holds no targets
    have htree : t ∈ root.preorder :=
      root.descends_preorder n hn t (mem_children_of_mem_targets ht)
    obtain ⟨q, hq, hreceiver⟩ := root.descends_preorder.receivers t htree c hc
    obtain rfl := h.parent_unique hp hq hcp (mem_children_of_receiver? hreceiver)
    unfold receiver? at hreceiver
    split at hreceiver
    next hkind => simp [hkind, NodeKind.targets] at hplace
    next => cases hreceiver

def nesting (n : Node) : Nat :=
  (n.children.attach.map fun ⟨c, _⟩ => c.nesting + 1).foldl max 0
termination_by sizeOf n
decreasing_by exact sizeOf_lt_of_mem_children (by assumption)

theorem nesting_lt_of_mem_children (h : c ∈ n.children) : c.nesting < n.nesting := by
  rw [nesting.eq_def n]
  refine le_foldl_max (.inr ?_)
  exact List.mem_map.mpr ⟨⟨c, h⟩, List.mem_attach _ _, rfl⟩

theorem nesting_lt_of_mem_operands (h : c ∈ n.kind.operands) : c.nesting < n.nesting := by
  have hdescends : Descends fun m ↦ m.nesting < n.nesting := by
    intro m hm d hd
    have hlt := nesting_lt_of_mem_children hd
    omega
  exact hdescends.operands (fun m hm ↦ nesting_lt_of_mem_children hm) c h

end Node

end FlowCompletion
