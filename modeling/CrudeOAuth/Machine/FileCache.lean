import CrudeOAuth.Machine.FileSystem
import CrudeOAuth.Machine.Run
import CrudeOAuth.Rust.Outcome

/-!
# Caches of values computed from files

A `FileCache` keeps a value for each of its keys, computed from the text of a file, and
the stamp of the file that it was computed from. A call for a key stats the file, takes
the lock of the key, and returns the value it finds if the stamps agree; otherwise it
opens the file, stats and reads it, computes the value and stores it, with a stamp only if
the stamp has settled at that time. A key without a file has its value computed once.

Any number of threads make calls, each step of a call an atomic step of the machine,
while files change and time goes on.

Every value that a call returns is computed from a text of the file of its key, read
after the file was found acceptable (`FileCache.sound_of_run`).
-/

namespace Machine

open Rust

/-- A call of the operating system about a file. -/
inductive FileCall
  | stat
  | open'
  | fstat
  | read
  deriving DecidableEq, Repr

structure FileCache (κ ℓ τ ε α : Type) where
  /-- the file that the value of a key is computed from, if there is one -/
  path : κ → Outcome ε (Option String)
  lock : κ → ℓ
  stamp : Metadata → τ
  /-- the stamp to keep at a time -/
  settled : Nat → Metadata → Option τ
  /-- whether a file that was opened may be read -/
  accept : κ → String → Metadata → Except ε Unit
  load : κ → Option (String × List UInt8) → Outcome ε α
  /-- the error for a failure of the operating system -/
  fileError : κ → String → FileCall → String → ε
  /-- whether the mode of the file matters as its content does -/
  usesMode : κ → Bool

/-- What a value was computed from: the metadata of the opened file, and its content
    when it was read. -/
structure Origin where
  path : String
  metadata : Metadata
  content : List UInt8
  deriving DecidableEq, Repr

/-- What a call found when it statted the file; the file itself is not known to the call. -/
structure Seen (τ : Type) where
  path : String
  stamp : τ
  file : File
  deriving DecidableEq, Repr

/-- A value in the cache. Its number tells it apart from all others; its origin is not
    known to the program. -/
structure Entry (τ α : Type) where
  stamp : Option τ
  serial : Nat
  value : α
  origin : Option Origin
  deriving DecidableEq, Repr

inductive Result (τ ε α : Type)
  | hit (entry : Entry τ α) (seen : Option (Seen τ))
  | made (entry : Entry τ α)
  | failed (e : ε)
  | panicked
  deriving DecidableEq, Repr

/-- What a thread does next. -/
inductive Phase (κ τ ε α : Type)
  | idle
  | toStat (key : κ) (path : String)
  | toLookUp (key : κ) (seen : Option (Seen τ))
  | toOpen (key : κ) (path : String)
  | toFstat (key : κ) (path : String) (id : FileId)
  | toRead (key : κ) (path : String) (metadata : Metadata)
  | toSample (key : κ) (origin : Origin) (value : α)
  | toStore (key : κ) (stamp : Option τ) (origin : Option Origin) (value : α)
  | done (key : κ) (result : Result τ ε α)
  deriving DecidableEq, Repr

/-- The key whose lock is held. -/
def Phase.holds {κ τ ε α : Type} : Phase κ τ ε α → Option κ
  | .toOpen key _ | .toFstat key _ _ | .toRead key _ _ | .toSample key _ _ | .toStore key _ _ _ => some key
  | .idle | .toStat _ _ | .toLookUp _ _ | .done _ _ => none

structure CacheState (κ ℓ τ ε α : Type) where
  clock : Nat
  fs : FileSystem
  cells : κ → Option (Entry τ α)
  locks : ℓ → Option Nat
  threads : Nat → Phase κ τ ε α
  serial : Nat

inductive Act (κ : Type)
  | call (key : κ)
  | advance
  /-- the call of the operating system fails, with a text -/
  | fail (e : String)
  deriving DecidableEq, Repr

inductive Label (κ : Type)
  | file (op : FileOp)
  | clock (now : Nat)
  | thread (tid : Nat) (act : Act κ)
  deriving DecidableEq, Repr

variable {κ ℓ τ ε α : Type}

/-- No thread has made a call yet. -/
def CacheState.initial (fs : FileSystem) (clock : Nat) : CacheState κ ℓ τ ε α where
  clock := clock
  fs := fs
  cells := fun _ => none
  locks := fun _ => none
  threads := fun _ => .idle
  serial := 0

namespace FileCache

variable (cache : FileCache κ ℓ τ ε α)

/-! ## Steps -/

/-- What a call does with the outcome of a computation. -/
def afterLoad (key : κ) (outcome : Outcome ε α) (next : α → Phase κ τ ε α) : Phase κ τ ε α :=
  match outcome with
  | .ok value => next value
  | .err e => .done key (.failed e)
  | .panic => .done key .panicked

def start (key : κ) : Phase κ τ ε α :=
  match cache.path key with
  | .ok (some path) => .toStat key path
  | .ok none => .toLookUp key none
  | .err e => .done key (.failed e)
  | .panic => .done key .panicked

/-- The entry need not be computed anew. -/
def fresh [DecidableEq τ] (seen : Option (Seen τ)) (entry : Entry τ α) : Bool :=
  match seen with
  | some seen => entry.stamp = some seen.stamp
  | none => true

/-- What a thread does next after its next step; `none` if the step is not possible. -/
def next [DecidableEq τ] (s : CacheState κ ℓ τ ε α) : Act κ → Phase κ τ ε α → Option (Phase κ τ ε α)
  | .call key, .idle | .call key, .done _ _ => some (cache.start key)
  | .advance, .toStat key path =>
    (s.fs.find path).map fun (id, file) =>
      .toLookUp key (some { path, stamp := cache.stamp (file.metadata id), file })
  | .advance, .toLookUp key seen =>
    if (s.locks (cache.lock key)).isSome then none
    else
      match (s.cells key).filter (fresh seen) with
      | some entry => some (.done key (.hit entry seen))
      | none =>
        match seen with
        | some seen => some (.toOpen key seen.path)
        | none => some (afterLoad key (cache.load key none) (.toStore key none none))
  | .advance, .toOpen key path => (s.fs.find path).map fun (id, _) => .toFstat key path id
  | .advance, .toFstat key path id =>
    (s.fs.files id).map fun file =>
      match cache.accept key path (file.metadata id) with
      | .ok () => .toRead key path (file.metadata id)
      | .error e => .done key (.failed e)
  | .advance, .toRead key path metadata =>
    (s.fs.files metadata.id).map fun file =>
      afterLoad key (cache.load key (some (path, file.content)))
        (.toSample key { path, metadata, content := file.content })
  | .advance, .toSample key origin value =>
    some (.toStore key (cache.settled s.clock origin.metadata) (some origin) value)
  | .advance, .toStore key stamp origin value =>
    some (.done key (.made { stamp, serial := s.serial, value, origin }))
  | .fail e, .toStat key path => some (.done key (.failed (cache.fileError key path .stat e)))
  | .fail e, .toOpen key path => some (.done key (.failed (cache.fileError key path .open' e)))
  | .fail e, .toFstat key path _ => some (.done key (.failed (cache.fileError key path .fstat e)))
  | .fail e, .toRead key path _ => some (.done key (.failed (cache.fileError key path .read e)))
  | _, _ => none

/-- What a thread may go on to from a phase. -/
inductive Moves [DecidableEq τ] (s : CacheState κ ℓ τ ε α) :
    Phase κ τ ε α → Phase κ τ ε α → Prop
  | start {phase key} : Moves s phase (cache.start key)
  | stat {key path id file} (h : s.fs.find path = some (id, file)) :
    Moves s (.toStat key path)
      (.toLookUp key (some { path, stamp := cache.stamp (file.metadata id), file }))
  | hit {key seen entry} (h : s.cells key = some entry) (hfresh : fresh seen entry = true) :
    Moves s (.toLookUp key seen) (.done key (.hit entry seen))
  | miss {key seen} : Moves s (.toLookUp key (some seen)) (.toOpen key seen.path)
  | compute {key value} (h : cache.load key none = .ok value) :
    Moves s (.toLookUp key none) (.toStore key none none value)
  | opened {key path id file} (h : s.fs.find path = some (id, file)) :
    Moves s (.toOpen key path) (.toFstat key path id)
  | fstat {key path id file} (h : s.fs.files id = some file)
    (haccept : cache.accept key path (file.metadata id) = .ok ()) :
    Moves s (.toFstat key path id) (.toRead key path (file.metadata id))
  | read {key path metadata file value} (h : s.fs.files metadata.id = some file)
    (hload : cache.load key (some (path, file.content)) = .ok value) :
    Moves s (.toRead key path metadata)
      (.toSample key { path, metadata, content := file.content } value)
  | sample {key origin value} :
    Moves s (.toSample key origin value)
      (.toStore key (cache.settled s.clock origin.metadata) (some origin) value)
  | store {key stamp origin value} :
    Moves s (.toStore key stamp origin value)
      (.done key (.made { stamp, serial := s.serial, value, origin }))
  | failed {phase key e} : Moves s phase (.done key (.failed e))
  | panicked {phase key} : Moves s phase (.done key .panicked)

end FileCache

namespace CacheState

/-- Stores the value of a thread that is about to store one. -/
def commit [DecidableEq κ] (s : CacheState κ ℓ τ ε α) : Phase κ τ ε α → CacheState κ ℓ τ ε α
  | .toStore key stamp origin value =>
    { s with
      cells := Function.update s.cells key (some { stamp, serial := s.serial, value, origin })
      serial := s.serial + 1 }
  | _ => s

/-- The thread goes on to the phase, with the lock that it holds there. -/
def enter [DecidableEq ℓ] (cache : FileCache κ ℓ τ ε α) (s : CacheState κ ℓ τ ε α) (tid : Nat) (phase : Phase κ τ ε α) :
    CacheState κ ℓ τ ε α :=
  let setLock (locks : ℓ → Option Nat) (key : Option κ) (holder : Option Nat) : ℓ → Option Nat :=
    match key with
    | some key => Function.update locks (cache.lock key) holder
    | none => locks
  { s with
    threads := Function.update s.threads tid phase
    locks := setLock (setLock s.locks (s.threads tid).holds none) phase.holds (some tid) }

end CacheState

namespace FileCache

variable [DecidableEq κ] [DecidableEq ℓ] [DecidableEq τ] (cache : FileCache κ ℓ τ ε α)

def step (tick : Nat) (s : CacheState κ ℓ τ ε α) : Label κ → Option (CacheState κ ℓ τ ε α)
  | .file op => (op.run tick s.clock s.fs).map fun fs => { s with fs }
  | .clock now => if s.clock ≤ now then some { s with clock := now } else none
  | .thread tid act =>
    (cache.next s act (s.threads tid)).map fun phase => (s.commit (s.threads tid)).enter cache tid phase

/-- The steps of the machine as a relation. -/
def Step (tick : Nat) (s : CacheState κ ℓ τ ε α) (label : Label κ) (s' : CacheState κ ℓ τ ε α) : Prop :=
  cache.step tick s label = some s'

end FileCache

/-! ## What a step changes -/

section

variable {cache : FileCache κ ℓ τ ε α} {tick : Nat} {s s' : CacheState κ ℓ τ ε α} {label : Label κ}
  {tid : Nat} {key : κ} {act : Act κ} {phase phase' : Phase κ τ ε α}

section Commit

variable [DecidableEq κ]

@[simp] theorem commit_clock : (s.commit phase).clock = s.clock := by cases phase <;> rfl

@[simp] theorem commit_fs : (s.commit phase).fs = s.fs := by cases phase <;> rfl

@[simp] theorem commit_threads : (s.commit phase).threads = s.threads := by cases phase <;> rfl

/-- An entry that is in the cache after a commit is the one stored, or was there before. -/
theorem commit_cells {entry : Entry τ α} (h : (s.commit phase).cells key = some entry) :
    s.cells key = some entry ∨ ∃ stamp origin value, phase = .toStore key stamp origin value ∧
      entry = { stamp, serial := s.serial, value, origin } := by
  cases phase with
  | toStore key' stamp origin value =>
    dsimp only [CacheState.commit] at h
    rw [Function.update_apply] at h
    split at h
    · rename_i hkey
      subst hkey
      exact .inr ⟨_, _, _, rfl, (Option.some.inj h).symm⟩
    · exact .inl h
  | _ => exact .inl h

end Commit

section Enter

variable [DecidableEq ℓ]

@[simp] theorem enter_clock : (s.enter cache tid phase).clock = s.clock := rfl

@[simp] theorem enter_fs : (s.enter cache tid phase).fs = s.fs := rfl

@[simp] theorem enter_cells : (s.enter cache tid phase).cells = s.cells := rfl

theorem enter_threads (tid' : Nat) :
    (s.enter cache tid phase).threads tid' = if tid' = tid then phase else s.threads tid' :=
  Function.update_apply _ _ _ _

end Enter

/-! ## What a thread comes to -/

theorem afterLoad_eq {outcome : Outcome ε α} {next : α → Phase κ τ ε α} {phase : Phase κ τ ε α}
    (h : FileCache.afterLoad key outcome next = phase) :
    (∃ value, outcome = .ok value ∧ phase = next value) ∨ (∃ e, phase = .done key (.failed e)) ∨
      phase = .done key .panicked := by
  subst h
  cases outcome with
  | ok value => exact .inl ⟨value, rfl, rfl⟩
  | err e => exact .inr (.inl ⟨e, rfl⟩)
  | panic => exact .inr (.inr rfl)

/-- The value is what the origin gives for the key. -/
def FileCache.Computes (cache : FileCache κ ℓ τ ε α) (key : κ) (origin : Option Origin) (value : α) : Prop :=
  cache.path key = .ok (origin.map Origin.path) ∧
    (∀ o, origin = some o → cache.accept key o.path o.metadata = .ok ()) ∧
    cache.load key (origin.map fun o => (o.path, o.content)) = .ok value

/-- What a thread knows in a phase of a call. -/
def FileCache.Knows (cache : FileCache κ ℓ τ ε α) : Phase κ τ ε α → Prop
  | .idle => True
  | .toStat key path | .toOpen key path | .toFstat key path _ => cache.path key = .ok (some path)
  | .toLookUp key seen => cache.path key = .ok (seen.map Seen.path)
  | .toRead key path metadata =>
    cache.path key = .ok (some path) ∧ cache.accept key path metadata = .ok ()
  | .toSample key origin value => cache.Computes key (some origin) value
  | .toStore key _ origin value => cache.Computes key origin value
  | .done key (.hit entry _) | .done key (.made entry) => cache.Computes key entry.origin entry.value
  | .done _ (.failed _) | .done _ .panicked => True

/-- What the threads know, and the cache holds, in any state that is reached. -/
structure FileCache.Sound (cache : FileCache κ ℓ τ ε α) (s : CacheState κ ℓ τ ε α) : Prop where
  threads : ∀ tid, cache.Knows (s.threads tid)
  cells : ∀ key entry, s.cells key = some entry → cache.Computes key entry.origin entry.value

theorem knows_start : cache.Knows (cache.start key) := by
  unfold FileCache.start
  split
  · rename_i h
    exact h
  · rename_i h
    exact h
  · trivial
  · trivial

theorem sound_initial (fs : FileSystem) (clock : Nat) :
    cache.Sound (CacheState.initial fs clock : CacheState κ ℓ τ ε α) :=
  ⟨fun _ => trivial, fun _ _ h => by cases h⟩

variable [DecidableEq τ]

theorem moves_of_next (h : cache.next s act phase = some phase') : cache.Moves s phase phase' := by
  unfold FileCache.next at h
  split at h
  case h_1 | h_2 =>
    obtain rfl := Option.some.inj h
    exact .start
  case h_3 =>
    obtain ⟨⟨id, file⟩, hfind, rfl⟩ := Option.map_eq_some_iff.1 h
    exact .stat hfind
  case h_4 key seen =>
    -- Where the lock is free, the entry has the stamp of the file, or a value has to be made.
    split at h
    · cases h
    · split at h
      · rename_i entry hentry
        obtain rfl := Option.some.inj h
        exact .hit (Option.eq_some_of_filter_eq_some hentry) (Option.filter_eq_some_iff.1 hentry).2
      · split at h
        · obtain rfl := Option.some.inj h
          exact .miss
        · rcases afterLoad_eq (Option.some.inj h) with ⟨value, hload, rfl⟩ | ⟨e, rfl⟩ | rfl
          · exact .compute hload
          · exact .failed
          · exact .panicked
  case h_5 =>
    obtain ⟨⟨id, file⟩, hfind, rfl⟩ := Option.map_eq_some_iff.1 h
    exact .opened hfind
  case h_6 =>
    obtain ⟨file, hfile, rfl⟩ := Option.map_eq_some_iff.1 h
    split
    · rename_i haccept
      exact .fstat hfile haccept
    · exact .failed
  case h_7 =>
    obtain ⟨file, hfile, h⟩ := Option.map_eq_some_iff.1 h
    rcases afterLoad_eq h with ⟨value, hload, rfl⟩ | ⟨e, rfl⟩ | rfl
    · exact .read hfile hload
    · exact .failed
    · exact .panicked
  case h_8 =>
    obtain rfl := Option.some.inj h
    exact .sample
  case h_9 =>
    obtain rfl := Option.some.inj h
    exact .store
  case h_14 => cases h
  -- In the remaining cases a call of the operating system fails.
  all_goals
    obtain rfl := Option.some.inj h
    exact .failed

theorem knows_of_moves (h : cache.Moves s phase phase') (hphase : cache.Knows phase)
    (hcells : ∀ key entry, s.cells key = some entry → cache.Computes key entry.origin entry.value) :
    cache.Knows phase' := by
  cases h with
  | start => exact knows_start
  | hit hentry => exact hcells _ _ hentry
  | compute hload => exact ⟨hphase, by simp, hload⟩
  | fstat hfile haccept => exact ⟨hphase, haccept⟩
  | read hfile hload =>
    refine ⟨hphase.1, ?_, hload⟩
    rintro o ⟨⟩
    exact hphase.2
  | stat | miss | opened | sample | store => exact hphase
  | failed | panicked => trivial

variable [DecidableEq κ] [DecidableEq ℓ]

theorem step_thread (h : cache.Step tick s (.thread tid act) s') :
    ∃ phase, cache.next s act (s.threads tid) = some phase ∧
      s' = (s.commit (s.threads tid)).enter cache tid phase := by
  obtain ⟨phase, hnext, rfl⟩ := Option.map_eq_some_iff.1 h
  exact ⟨phase, hnext, rfl⟩

/-- A step changes only the files and the clock, or it is that of a thread. -/
theorem step_cases (h : cache.Step tick s label s') : (∃ fs clock, s' = { s with fs, clock }) ∨
    ∃ tid act phase, label = .thread tid act ∧ cache.next s act (s.threads tid) = some phase ∧
      s' = (s.commit (s.threads tid)).enter cache tid phase := by
  cases label with
  | file op =>
    obtain ⟨fs, -, rfl⟩ := Option.map_eq_some_iff.1 h
    exact .inl ⟨fs, s.clock, rfl⟩
  | clock now =>
    obtain ⟨-, rfl⟩ : s.clock ≤ now ∧ _ = s' := by simpa [FileCache.Step, FileCache.step] using h
    exact .inl ⟨s.fs, now, rfl⟩
  | thread tid act =>
    obtain ⟨phase, hnext, rfl⟩ := step_thread h
    exact .inr ⟨tid, act, phase, rfl, hnext, rfl⟩

/-- A step of others leaves a thread where it is. -/
theorem threads_of_step (h : cache.Step tick s label s') (hother : ∀ act, label ≠ .thread tid act) :
    s'.threads tid = s.threads tid := by
  rcases step_cases h with ⟨fs, clock, rfl⟩ | ⟨tid', act, phase, rfl, -, rfl⟩
  · rfl
  · rw [enter_threads, commit_threads, if_neg]
    rintro rfl
    exact hother act rfl

/-- A run of others leaves a thread where it is. -/
theorem threads_of_run {tr : List (Taken (CacheState κ ℓ τ ε α) (Label κ))}
    (hrun : Run (cache.Step tick) s tr s') (hother : ∀ t ∈ tr, ∀ act, t.label ≠ .thread tid act) :
    ∀ t ∈ tr, t.before.threads tid = s.threads tid := by
  have hstep : ∀ s₁ label s₂, cache.Step tick s₁ label s₂ → (∀ act, label ≠ .thread tid act) →
      s₁.threads tid = s.threads tid → s₂.threads tid = s.threads tid :=
    fun _ _ _ hstep hother h => (threads_of_step hstep hother).trans h
  exact (hrun.invariant hstep hother rfl).2

theorem sound_of_step (h : cache.Step tick s label s') (hs : cache.Sound s) : cache.Sound s' := by
  rcases step_cases h with ⟨fs, clock, rfl⟩ | ⟨tid, act, phase, rfl, hnext, rfl⟩
  · exact ⟨hs.threads, hs.cells⟩
  · refine ⟨fun tid' => ?_, fun key entry hentry => ?_⟩
    · rw [enter_threads]
      split
      · exact knows_of_moves (moves_of_next hnext) (hs.threads tid) hs.cells
      · rw [commit_threads]
        exact hs.threads tid'
    · rw [enter_cells] at hentry
      rcases commit_cells hentry with hentry | ⟨stamp, origin, value, hphase, rfl⟩
      · exact hs.cells _ _ hentry
      · -- What is stored is what the thread knew about.
        have hknown := hs.threads tid
        rw [hphase] at hknown
        exact hknown

/-- In every run, every value that is kept or returned is computed from a text of the file of
    its key, opened while it was acceptable. -/
theorem FileCache.sound_of_run {tr : List (Taken (CacheState κ ℓ τ ε α) (Label κ))} {fs : FileSystem}
    {clock : Nat} (hrun : Run (cache.Step tick) (CacheState.initial fs clock) tr s') :
    cache.Sound s' ∧ ∀ t ∈ tr, cache.Sound t.before := by
  have hstep : ∀ s label s', cache.Step tick s label s' → True → cache.Sound s → cache.Sound s' :=
    fun _ _ _ h _ => sound_of_step h
  exact hrun.invariant hstep (fun _ _ => trivial) (sound_initial fs clock)

end

end Machine
