import FlowCompletion.Signature.Store

namespace FlowCompletion

namespace Store

/-- A program that uses one store and goes on from what it is answered. A loader is one too; what
it loads is its result. -/
inductive Script where
  | done (result : Except LoadError Database)
  | look (next : Store → Script)
  | loadWith (loader : Script) (next : Except LoadError Unit → Script)
  | loadPaths (files : FileSystem) (paths : List String) (next : Except LoadError Unit → Script)
  | preload (files : FileSystem) (paths : List String) (next : Bool → Script)

/-- A store at a time when some number of its loaders run. -/
structure Moment where
  store : Store
  running : Nat

abbrev Watched := StateT Store (StateM (List Moment))

def note (running : Nat) : Watched Unit := do
  let store ← get
  modifyThe (List Moment) (· ++ [⟨store, running⟩])

def loading (running : Nat) (loader : Watched (Except LoadError Database)) :
    Watched (Except LoadError Database) := do
  note running
  let result ← loader
  note running
  return result

namespace Script

def run (running : Nat) : Script → Watched (Except LoadError Database)
  | .done result => return result
  | .look next => do
    let store ← get
    run running (next store)
  | .loadWith loader next => do
    let answer ← Store.loadWith (loading (running + 1) (run (running + 1) loader))
    note running
    run running (next answer)
  | .loadPaths files paths next => do
    let answer ← Store.loadWith (loading (running + 1) (pure (Database.load files paths)))
    note running
    run running (next answer)
  | .preload files paths next => do
    let started ← Store.preloadWith (loading (running + 1) (pure (Database.load files paths)))
    note running
    run running (next started)

def moments (script : Script) (store : Store) : List Moment :=
  (((script.run 0).run store).run [⟨store, 0⟩]).2

end Script

variable {α β : Type} {s t : Store} {running : Nat}

theorem loadPaths_eq (files : FileSystem) (paths : List String) (seen : List Moment) :
    (loadWith (loading running (pure (Database.load files paths))) s seen).1 =
      s.loadPaths files paths := by
  rw [loadPaths, loadWith, loadWith]
  cases s.start? <;> rfl

theorem preload_eq (files : FileSystem) (paths : List String) (seen : List Moment) :
    (preloadWith (loading running (pure (Database.load files paths))) s seen).1 =
      s.preload files paths := by
  rw [preload, preloadWith, preloadWith]
  by_cases h : s.state = .notStarted
  · rw [if_pos h, if_pos h]
    rfl
  · rw [if_neg h, if_neg h]
    rfl

def Quiet (s : Store) (running : Nat) (x : Watched α) : Prop :=
  ∀ seen, ∃ a ms, x s seen = ((a, s), seen ++ ms) ∧ ∀ m ∈ ms, m = ⟨s, running⟩

theorem quiet_pure (a : α) : Quiet s running (pure a) := by
  intro seen
  exact ⟨a, [], by rw [List.append_nil]; rfl, List.forall_mem_nil _⟩

theorem quiet_note : Quiet s running (note running) := by
  intro seen
  exact ⟨(), [⟨s, running⟩], rfl, List.forall_mem_singleton.mpr rfl⟩

theorem Quiet.bind {x : Watched α} {f : α → Watched β} (hx : Quiet s running x)
    (hf : ∀ a, Quiet s running (f a)) : Quiet s running (x >>= f) := by
  intro seen
  obtain ⟨a, ms, hrun, hms⟩ := hx seen
  obtain ⟨b, ns, hrest, hns⟩ := hf a (seen ++ ms)
  refine ⟨b, ms ++ ns, ?_, ?_⟩
  · rw [← List.append_assoc, ← hrest]
    simp only [Bind.bind, StateT.bind, hrun]
  · intro m hm
    rcases List.mem_append.mp hm with hm | hm
    · exact hms m hm
    · exact hns m hm

theorem Quiet.loading {loader : Watched (Except LoadError Database)}
    (h : Quiet s running loader) : Quiet s running (loading running loader) :=
  quiet_note.bind fun _ ↦ h.bind fun result ↦ quiet_note.bind fun _ ↦ quiet_pure result

theorem quiet_loadWith (hs : s.state = .inProgress)
    (loader : Watched (Except LoadError Database)) : Quiet s running (loadWith loader) := by
  have hstart : s.start? = none := by simp [start?, hs]
  intro seen
  refine ⟨.ok (), [], ?_, List.forall_mem_nil _⟩
  rw [loadWith, hstart, List.append_nil]
  rfl

theorem quiet_preloadWith (hs : s.state = .inProgress)
    (loader : Watched (Except LoadError Database)) : Quiet s running (preloadWith loader) := by
  intro seen
  refine ⟨false, [], ?_, List.forall_mem_nil _⟩
  rw [preloadWith, if_neg (by simp [hs]), List.append_nil]
  rfl

theorem quiet_run (hs : s.state = .inProgress) (running : Nat) (script : Script) :
    Quiet s running (script.run running) := by
  induction script with
  | done result => exact quiet_pure result
  | look next ih =>
    intro seen
    exact ih s seen
  | loadWith loader next _ ih =>
    exact (quiet_loadWith hs _).bind fun answer ↦ quiet_note.bind fun _ ↦ ih answer
  | loadPaths files paths next ih =>
    exact (quiet_loadWith hs _).bind fun answer ↦ quiet_note.bind fun _ ↦ ih answer
  | preload files paths next ih =>
    exact (quiet_preloadWith hs _).bind fun started ↦ quiet_note.bind fun _ ↦ ih started

def Settled (s : Store) : Prop :=
  (s.state = .ready ↔ s.database.isSome) ∧ s.state ≠ .inProgress

def Keeps (s t : Store) : Prop := ∀ db, s.database = some db → t.database = some db

theorem Keeps.refl (s : Store) : Keeps s s := fun _ ↦ id

theorem Keeps.trans {u : Store} (h : Keeps s t) (h' : Keeps t u) : Keeps s u :=
  fun db hdb ↦ h' db (h db hdb)

theorem Keeps.append {before after : List Store} (h : (before ++ [t]).Pairwise Keeps)
    (h' : (t :: after).Pairwise Keeps) : (before ++ after).Pairwise Keeps := by
  obtain ⟨hbefore, -, hto⟩ := List.pairwise_append.mp h
  obtain ⟨hfrom, hafter⟩ := List.pairwise_cons.mp h'
  refine List.pairwise_append.mpr ⟨hbefore, hafter, fun s hs u hu ↦ ?_⟩
  exact (hto s hs t (List.mem_singleton_self t)).trans (hfrom u hu)

/-- What may be seen of a store at a moment. -/
structure Moment.Sound (m : Moment) : Prop where
  alone : m.running ≤ 1
  empty : 0 < m.running → m.store.database = none
  settled : m.running = 0 → m.store.Settled

def Passes (s : Store) (x : Watched α) : Prop :=
  ∀ seen, ∃ a t ms, x s seen = ((a, t), seen ++ ms) ∧ t.Settled ∧ (∀ m ∈ ms, m.Sound) ∧
    (s :: ms.map Moment.store ++ [t]).Pairwise Keeps

theorem passes_pure (hs : s.Settled) (a : α) : Passes s (pure a) := by
  intro seen
  exact ⟨a, s, [], by rw [List.append_nil]; rfl, hs, List.forall_mem_nil _, by simp [Keeps.refl]⟩

theorem passes_note (hs : s.Settled) : Passes s (note 0) := by
  intro seen
  have hsound : Moment.Sound ⟨s, 0⟩ :=
    ⟨Nat.zero_le 1, fun h ↦ absurd h (Nat.lt_irrefl 0), fun _ ↦ hs⟩
  exact ⟨(), s, [⟨s, 0⟩], rfl, hs, List.forall_mem_singleton.mpr hsound, by simp [Keeps.refl]⟩

theorem Passes.bind {x : Watched α} {f : α → Watched β} (hx : Passes s x)
    (hf : ∀ a t, t.Settled → Passes t (f a)) : Passes s (x >>= f) := by
  intro seen
  obtain ⟨a, t, ms, hrun, ht, hms, hkeeps⟩ := hx seen
  obtain ⟨b, u, ns, hrest, hu, hns, hkeeps'⟩ := hf a t ht (seen ++ ms)
  refine ⟨b, u, ms ++ ns, ?_, hu, List.forall_mem_append.mpr ⟨hms, hns⟩, ?_⟩
  · rw [← List.append_assoc, ← hrest]
    simp only [Bind.bind, StateT.bind, hrun]
  · rw [List.map_append, ← List.cons_append, List.append_assoc]
    exact Keeps.append hkeeps hkeeps'

theorem passes_load {x : Watched α} {loader : Watched (Except LoadError Database)}
    (answer : Except LoadError Database → α) (hs : s.database = none)
    (hloader : Quiet { s with state := .inProgress } 1 loader)
    (hx : x s = do
      let p ← loader { s with state := .inProgress }
      pure (answer p.1, p.2.finish p.1)) : Passes s x := by
  intro seen
  obtain ⟨result, ms, hrun, hms⟩ := hloader seen
  refine ⟨answer result, finish { s with state := .inProgress } result, ms, ?_, ?_, ?_, ?_⟩
  · rw [hx]
    simp only [Bind.bind, StateT.bind, hrun]
    rfl
  · cases result <;> simp [Settled, finish, install, hs]
  · intro m hm
    rw [hms m hm]
    exact ⟨Nat.le_refl 1, fun _ ↦ hs, fun h ↦ absurd h Nat.one_ne_zero⟩
  · have hempty : ∀ t ∈ s :: ms.map Moment.store, t.database = none := by
      refine List.forall_mem_cons.mpr ⟨hs, List.forall_mem_map.mpr fun m hm ↦ ?_⟩
      rw [hms m hm]
      exact hs
    have hkeeps : ∀ t ∈ s :: ms.map Moment.store, ∀ u, Keeps t u := by
      intro t ht u db hdb
      cases (hempty t ht).symm.trans hdb
    refine List.pairwise_append.mpr ⟨?_, List.pairwise_singleton _ _, fun t ht u _ ↦ hkeeps t ht u⟩
    exact List.pairwise_of_forall_mem_list fun t ht u _ ↦ hkeeps t ht u

theorem passes_loadWith (hs : s.Settled) {loader : Watched (Except LoadError Database)}
    (hloader : Quiet { s with state := .inProgress } 1 loader) : Passes s (loadWith loader) := by
  cases hdb : s.database with
  | none =>
    have hstart : s.start? = some { s with state := .inProgress } := by
      simp [start?, hdb, hs.2]
    refine passes_load (fun result ↦ result.map fun _ ↦ ()) hdb hloader ?_
    rw [loadWith, hstart]
  | some db =>
    have hstart : s.start? = none := by simp [start?, hdb]
    have hpure : loadWith loader s = pure (f := Watched) (.ok ()) s := by
      rw [loadWith, hstart]
      rfl
    intro seen
    rw [hpure]
    exact passes_pure hs _ seen

theorem passes_preloadWith (hs : s.Settled) {loader : Watched (Except LoadError Database)}
    (hloader : Quiet { s with state := .inProgress } 1 loader) : Passes s (preloadWith loader) := by
  by_cases hstate : s.state = .notStarted
  case pos =>
    have hdb : s.database = none := by
      have hready : ¬ s.database.isSome := fun h ↦ by simp [hs.1.mpr h] at hstate
      simpa using hready
    refine passes_load (fun _ ↦ true) hdb hloader ?_
    rw [preloadWith, if_pos hstate]
  case neg =>
    have hpure : preloadWith loader s = pure (f := Watched) false s := by
      rw [preloadWith, if_neg hstate]
      rfl
    intro seen
    rw [hpure]
    exact passes_pure hs _ seen

theorem passes_run (hs : s.Settled) (script : Script) : Passes s (script.run 0) := by
  induction script generalizing s with
  | done result => exact passes_pure hs result
  | look next ih =>
    intro seen
    exact ih s hs seen
  | loadWith loader next _ ih =>
    refine (passes_loadWith hs (quiet_run rfl _ _).loading).bind fun answer t ht ↦ ?_
    exact (passes_note ht).bind fun _ u hu ↦ ih answer hu
  | loadPaths files paths next ih =>
    refine (passes_loadWith hs (quiet_pure _).loading).bind fun answer t ht ↦ ?_
    exact (passes_note ht).bind fun _ u hu ↦ ih answer hu
  | preload files paths next ih =>
    refine (passes_preloadWith hs (quiet_pure _).loading).bind fun started t ht ↦ ?_
    exact (passes_note ht).bind fun _ u hu ↦ ih started hu

theorem settled_ofDatabase (db : Database) : (ofDatabase db).Settled := by
  simp [Settled, ofDatabase, install]

theorem settled_empty : Settled {} := by
  simp [Settled]

/-- Whatever programs and loaders do with a store: its database is set at most once, a loader runs
only alone and while there is none, and between loads the state tells whether there is one. -/
theorem reentrant_loads (given : Option Database) (script : Script) :
    (script.moments (given.elim {} ofDatabase)).Pairwise
        (fun earlier later ↦ ∀ db, earlier.store.database = some db →
          later.store.database = some db) ∧
      ∀ m ∈ script.moments (given.elim {} ofDatabase),
        m.running ≤ 1 ∧ (0 < m.running → m.store.database = none) ∧
          (m.running = 0 →
            (m.store.state = .ready ↔ m.store.database.isSome) ∧ m.store.state ≠ .inProgress) := by
  have hstart : (given.elim {} ofDatabase : Store).Settled := by
    cases given with
    | none => exact settled_empty
    | some db => exact settled_ofDatabase db
  generalize (given.elim {} ofDatabase : Store) = s at hstart
  obtain ⟨result, t, ms, hrun, -, hsound, hkeeps⟩ := passes_run hstart script [⟨s, 0⟩]
  have hmoments : script.moments s = ⟨s, 0⟩ :: ms := congrArg Prod.snd hrun
  rw [hmoments]
  refine ⟨?_, List.forall_mem_cons.mpr ⟨?_, fun m hm ↦ ?_⟩⟩
  · have hstores : ((⟨s, 0⟩ :: ms).map Moment.store).Pairwise Keeps :=
      (List.pairwise_append.mp hkeeps).1
    exact List.pairwise_map.mp hstores
  · exact ⟨Nat.zero_le 1, fun h ↦ absurd h (Nat.lt_irrefl 0), fun _ ↦ hstart⟩
  · exact ⟨(hsound m hm).alone, (hsound m hm).empty, (hsound m hm).settled⟩

-- The loader tries to load once more while it runs, and nothing comes of that.
example (db other : Database) :
    (((Script.loadWith (.loadWith (.done (.ok other)) fun _ ↦ .done (.ok db))
        fun _ ↦ .done (.ok other)).moments {}).map fun m ↦ (m.running, m.store.database)) =
      [(0, none), (1, none), (1, none), (1, none), (0, some db)] := rfl

end Store

end FlowCompletion
