import FlowCompletion.Proofs.Flow.LaterStatements
import FlowCompletion.Proofs.Flow.Locality

namespace FlowCompletion

namespace Node

/-- A node of a tree and the nodes around it, from the inside to the root. -/
inductive Below (root : Node) : List Node → Node → Prop
  | root : Below root [] root
  | child {above : List Node} {n c : Node} (h : Below root above n) (hc : c ∈ n.children) :
      Below root (n :: above) c

def Deep (root : Node) (depth : Nat) (n : Node) : Prop :=
  ∃ above, root.Below above n ∧ depth ≤ above.length

variable {root n c : Node} {depth : Nat}

theorem deep_root (root : Node) : root.Deep 0 root := ⟨[], .root, Nat.le_refl _⟩

theorem Deep.child (h : root.Deep depth n) (hc : c ∈ n.children) : root.Deep (depth + 1) c := by
  obtain ⟨above, hbelow, hle⟩ := h
  exact ⟨n :: above, hbelow.child hc, Nat.succ_le_succ hle⟩

theorem Deep.mono {less : Nat} (h : root.Deep depth n) (hle : less ≤ depth) : root.Deep less n := by
  obtain ⟨above, hbelow, hdepth⟩ := h
  exact ⟨above, hbelow, Nat.le_trans hle hdepth⟩

theorem descends_deep (root : Node) (depth : Nat) : Descends (root.Deep depth) :=
  fun _ h _ hc ↦ (h.child hc).mono (Nat.le_succ _)

theorem Deep.operand (h : root.Deep depth n) (hc : c ∈ n.kind.operands) :
    root.Deep (depth + 1) c :=
  (root.descends_deep (depth + 1)).operands (fun _ hchild ↦ h.child hchild) c hc

end Node

def Halt.OnlyBelow (root : Node) (depth : Nat) : Halt → Prop
  | .found _ => True
  | .tooDeep span => ∃ n, root.Deep depth n ∧ n.span = span

namespace Eval

variable {task : Task} {root n : Node}

theorem traverses_deep {H : Halt → Prop} (hfound : ∀ t, H (.found t)) (depth : Nat) :
    Traverses task (root.Deep 0) (root.Deep depth) H where
  descends := root.descends_deep 0
  within := fun _ h ↦ h.mono (Nat.zero_le _)
  operands := fun _ h _ hc ↦ (h.operand hc).mono (Nat.le_succ _)
  found := fun _ _ _ ↦ hfound

theorem haltsWithin_deep (task : Task) (root : Node) :
    HaltsWithin (Halt.OnlyBelow root task.maxDepth) (evaluate task task.maxDepth root) := by
  have hroot : root.Deep (task.maxDepth - task.maxDepth) root := by
    rw [Nat.sub_self]
    exact root.deep_root
  -- with less depth left more nodes lie around the current one
  refine (steps_evaluate (F := fun remaining ↦ root.Deep (task.maxDepth - remaining))
    (fun _ ↦ traverses_deep (fun _ ↦ trivial) _) (fun remaining n h c hc ↦ ?_)
    (fun n h ↦ ⟨n, h, rfl⟩) task.maxDepth root hroot [] false).haltsWithin
  exact (h.operand hc).mono (by omega)

/-- Evaluation with a counter of the nodes that it is in. Whatever watches the counter is told of
every node, before the limit is looked at. -/
def watched (task : Task) (watch : Nat → Node → Eval Unit) (depth : Nat) (n : Node) : Eval Ty := do
  watch depth n
  if h : depth < task.maxDepth then
    evaluateKind task (watched task watch (depth + 1)) n >>= finish task n
  else throw (.tooDeep n.span)
termination_by task.maxDepth - depth

/-- A watch that leaves counters alone, if they are at most the limit and the number of nodes around
the current one, has nothing to do. -/
theorem watched_eq {watch : Nat → Node → Eval Unit}
    (hwatch : ∀ depth n, depth ≤ task.maxDepth → root.Deep depth n → watch depth n = pure ())
    {remaining depth : Nat} (hsum : depth + remaining = task.maxDepth) (hn : root.Deep depth n) :
    watched task watch depth n = evaluate task remaining n := by
  induction remaining generalizing depth n with
  | zero =>
    rw [watched, hwatch depth n (by omega) hn, pure_bind, dif_neg (by omega)]
    rfl
  | succ remaining ih =>
    have hT : Traverses task (root.Deep 0) (root.Deep (depth + 1)) fun _ ↦ True :=
      traverses_deep (fun _ ↦ trivial) _
    rw [watched, hwatch depth n (by omega) hn, pure_bind, dif_pos (by omega), evaluate_succ,
      evaluateKind_congr (fun c hc ↦ ih (by omega) hc) hT fun c hc ↦ hn.operand hc]

end Eval

open Eval

variable {task : Task} {w : World} {binding : Binding} {root : Node}

theorem deep_of_error {e : DepthError} (hfind : findTarget task w binding root = .error e) :
    e.limit = task.maxDepth ∧
      ∃ above n, root.Below above n ∧ task.maxDepth ≤ above.length ∧ n.span = e.span := by
  rw [findTarget] at hfind
  split at hfind
  next outcome flow hrun =>
    cases outcome with
    | ok t => cases hfind
    | error reason =>
      obtain ⟨-, hreason⟩ := (haltsWithin_deep task root).stops trivial hrun
      cases reason with
      | found t => cases hfind
      | tooDeep span =>
        obtain ⟨n, ⟨above, hbelow, hle⟩, hspan⟩ := hreason
        cases hfind
        exact ⟨rfl, above, n, hbelow, hle, hspan⟩

/-- The depth limit is about the tree. An error tells the limit, and the place of a node with at
least so many nodes around it; a tree that nests less deep gives none. And the counter is never
above the limit, nor above the number of nodes around the current one: what watches it, and would
act in those cases only, never acts. -/
theorem findTarget_depth_exact (task : Task) (w : World) (binding : Binding) (root : Node) :
    (∀ e, findTarget task w binding root = .error e → e.limit = task.maxDepth ∧
      ∃ above n, root.Below above n ∧ task.maxDepth ≤ above.length ∧ n.span = e.span) ∧
    ((∀ above n, root.Below above n → above.length < task.maxDepth) →
      ∃ found, findTarget task w binding root = .ok found) ∧
    ∀ watch : Nat → Node → Eval Unit,
      (∀ depth above n, depth ≤ task.maxDepth → root.Below above n → depth ≤ above.length →
        watch depth n = pure ()) →
      watched task watch 0 root = evaluate task task.maxDepth root := by
  refine ⟨fun e ↦ deep_of_error, fun hshallow ↦ ?_, fun watch hwatch ↦ ?_⟩
  · cases hfind : findTarget task w binding root with
    | ok found => exact ⟨found, rfl⟩
    | error e =>
      obtain ⟨-, above, n, hbelow, hle, -⟩ := deep_of_error hfind
      exact absurd (hshallow above n hbelow) (Nat.not_lt_of_le hle)
  · refine watched_eq (fun depth n hdepth hn ↦ ?_) (Nat.zero_add _) root.deep_root
    obtain ⟨above, hbelow, hle⟩ := hn
    exact hwatch depth above n hdepth hbelow hle

/-- `(nil)` -/
def nilInParentheses : Node :=
  .mk ⟨0, 5⟩ 0 (.program (.mk ⟨0, 5⟩ 1 (.parentheses (some (.mk ⟨1, 4⟩ 2 .nil)))))

theorem findTarget_depth_exact_parentheses :
    findTarget { target := 3, maxDepth := 2 } {} { receiver := .nil } nilInParentheses =
        .error { limit := 2, span := ⟨1, 4⟩ } ∧
      ∃ above n, nilInParentheses.Below above n ∧ 2 ≤ above.length ∧ n.span = ⟨1, 4⟩ := by
  have herror : findTarget { target := 3, maxDepth := 2 } {} { receiver := .nil } nilInParentheses =
      .error { limit := 2, span := ⟨1, 4⟩ } := rfl
  exact ⟨herror, ((findTarget_depth_exact _ _ _ _).1 _ herror).2⟩

end FlowCompletion
