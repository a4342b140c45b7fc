import FlowCompletion.Scope.Flow

namespace FlowCompletion

namespace Scope

def declaring (s : Scope) (names : List String) : Scope :=
  { s with root := { s.root with declared := names } }

variable (s : Scope) (names : List String) (w : World)

@[simp] theorem level_declaring : (s.declaring names).level = s.level := rfl

@[simp] theorem isTerminated_declaring : (s.declaring names).isTerminated = s.isTerminated := rfl

@[simp] theorem constant?_declaring (m : ModuleId) (name : String) :
    (s.declaring names).constant? w m name = s.constant? w m name :=
  rfl

@[simp] theorem resolveConstant_declaring (name : String) :
    (s.declaring names).resolveConstant w name = s.resolveConstant w name :=
  rfl

theorem lookupIn_declaring (root : Root) (key : Key) (frames : List Frame) :
    lookupIn w { root with declared := names } key frames = lookupIn w root key frames := by
  induction frames with
  | nil => rfl
  | cons f rest ih =>
    simp only [lookupIn, ih]
    rfl

@[simp] theorem lookup_declaring (key : Key) : (s.declaring names).lookup w key = s.lookup w key :=
  lookupIn_declaring names w s.root key s.frames

@[simp] theorem get?_declaring (name : String) : (s.declaring names).get? w name = s.get? w name :=
  s.lookup_declaring names w _

@[simp] theorem ivars_declaring : (s.declaring names).ivars w = s.ivars w := by
  have hframes (frames : List Frame) :
      ivarsIn w { s.root with declared := names } frames = ivarsIn w s.root frames := by
    induction frames with
    | nil => rfl
    | cons f rest ih =>
      simp only [ivarsIn, ih]
      rfl
  exact congrArg sortedNames (hframes s.frames)

theorem modifyFrame_declaring (f : Frame → Frame) :
    (s.declaring names).modifyFrame f = (s.modifyFrame f).declaring names := by
  obtain ⟨root, _ | ⟨frame, outer⟩⟩ := s <;> rfl

theorem setEntry_declaring (key : Key) (e : Entry) :
    (s.declaring names).setEntry key e = (s.setEntry key e).declaring names :=
  s.modifyFrame_declaring names _

theorem setKey_declaring (key : Key) (value : Option Ty) :
    (s.declaring names).setKey key value = (s.setKey key value).declaring names :=
  s.setEntry_declaring names key _

theorem set_declaring (name : String) (t : Ty) :
    (s.declaring names).set name t = (s.set name t).declaring names :=
  s.setKey_declaring names _ _

theorem setConstant_declaring (m : ModuleId) (name : String) (t : Ty) :
    (s.declaring names).setConstant w m name t = (s.setConstant w m name t).declaring names :=
  s.setEntry_declaring names _ _

theorem terminate_declaring : (s.declaring names).terminate = s.terminate.declaring names :=
  s.modifyFrame_declaring names _

theorem foldl_declaring {β : Type} {f : Scope → β → Scope}
    (h : ∀ s b, f (s.declaring names) b = (f s b).declaring names) (l : List β) :
    l.foldl f (s.declaring names) = (l.foldl f s).declaring names := by
  induction l generalizing s with
  | nil => rfl
  | cons b l ih => rw [List.foldl_cons, h, ih, List.foldl_cons]

theorem update_declaring (changes : Changes) :
    (s.declaring names).update changes = (s.update changes).declaring names := by
  refine s.foldl_declaring names (fun s entry ↦ ?_) changes
  simp only [level_declaring, setKey_declaring]
  split <;> rfl

theorem mergedValue_declaring (branches : List Changes) (key : Key) :
    (s.declaring names).mergedValue w branches key = s.mergedValue w branches key := by
  simp only [mergedValue, level_declaring, lookup_declaring]
  rfl

theorem merge_declaring (branches : List Changes) :
    (s.declaring names).merge w branches = (s.merge w branches).declaring names := by
  simp only [merge, mergedValue_declaring]
  refine s.foldl_declaring names (fun t key ↦ ?_) (s.mergedKeys branches)
  split
  · rfl
  · exact t.setKey_declaring names _ _

theorem joinBranches_declaring (branches : List Frame) :
    (s.declaring names).joinBranches w branches = (s.joinBranches w branches).declaring names := by
  rw [joinBranches, joinBranches, ← merge_declaring]
  split
  · rw [terminate_declaring]
  · rfl

theorem jump_declaring (label : String) (t : Ty) :
    (s.declaring names).jump label t = (s.jump label t).declaring names := by
  obtain ⟨root, frames⟩ := s
  unfold jump
  rw [isTerminated_declaring]
  split
  · rfl
  · dsimp only [declaring]
    cases (storeJump label t ((frames.head?.map Frame.table).getD []) frames).2 with
    | none => exact terminate_declaring ⟨root, _⟩ names
    | some level =>
      exact (congrArg terminate (setEntry_declaring ⟨root, _⟩ names _ _)).trans
        (terminate_declaring _ names)

theorem mergeJumps_declaring :
    (s.declaring names).mergeJumps w = (s.mergeJumps w).declaring names := by
  unfold mergeJumps
  dsimp only
  rw [modifyFrame_declaring, isTerminated_declaring, modifyFrame_declaring]
  split
  · exact merge_declaring _ names w _
  · exact merge_declaring _ names w _

end Scope

end FlowCompletion
