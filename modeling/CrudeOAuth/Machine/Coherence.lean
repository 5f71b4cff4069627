import CrudeOAuth.Machine.FileCache

/-!
# Coherence of caches of values computed from files

A value found in a cache ought to be computed from what the file was when the call
statted it. The stamps promise as much if a stamp tells which file it is of and when that
was changed, and is kept only once its time of change is a tick old
(`FileCache.Lawful`): from then on the file has that stamp only as long as it is not
changed.

What they do not promise is that the file was not changed in the tick of its last change,
after it was read. So the condition on a run is that a stamp, when it settles, still
stands for what was read (`FileCache.SettlesSafely`); then all values found in the cache
are coherent (`FileCache.coherent_of_run`). Where a stamp settles that does not, the run can
go on to a value that is not coherent (`FileCache.exists_incoherent`).
-/

namespace Machine

open Rust

variable {κ ℓ τ ε α : Type}

namespace FileCache

/-- A stamp tells which file it is of and when that was changed, and it is kept only when
    that is a tick ago. -/
structure Lawful (cache : FileCache κ ℓ τ ε α) (tick : Nat) : Prop where
  id_eq : ∀ {m m'}, cache.stamp m = cache.stamp m' → m.id = m'.id
  ctime_eq : ∀ {m m'}, cache.stamp m = cache.stamp m' → m.ctime = m'.ctime
  settled : ∀ {now m stamp}, cache.settled now m = some stamp →
    stamp = cache.stamp m ∧ m.ctime + tick ≤ now

variable (cache : FileCache κ ℓ τ ε α)

/-- What was read is what the file is, as far as it matters for the key. -/
def Matches (key : κ) (origin : Origin) (file : File) : Prop :=
  origin.content = file.content ∧ (cache.usesMode key = true → origin.metadata.mode = file.mode)

/-- The values found in the cache are computed from what the file was at the stat of the call. -/
def Coherent (s : CacheState κ ℓ τ ε α) : Prop :=
  ∀ tid key entry seen, s.threads tid = .done key (.hit entry (some seen)) →
    ∃ origin, entry.origin = some origin ∧ cache.Matches key origin seen.file

/-- The stamp stands for the origin: a file that has the stamp is as it was read, and so was the
    file of every call that waits with that stamp. -/
structure StandsFor (s : CacheState κ ℓ τ ε α) (key : κ) (stamp : τ) (origin : Origin) : Prop where
  file : ∀ file, s.fs.files origin.metadata.id = some file →
    cache.stamp (file.metadata origin.metadata.id) = stamp → cache.Matches key origin file
  waiting : ∀ tid seen, s.threads tid = .toLookUp key (some seen) → seen.stamp = stamp →
    cache.Matches key origin seen.file

/-- If the step finds that a stamp has settled, the stamp stands for what was read. -/
def SettlesSafely (s : CacheState κ ℓ τ ε α) (label : Label κ) : Prop :=
  ∀ tid key origin value stamp, label = .thread tid .advance → s.threads tid = .toSample key origin value →
    cache.settled s.clock origin.metadata = some stamp → cache.StandsFor s key stamp origin

/-- A stamp that is kept is a tick old, and stands for what was read. -/
structure Settled (tick : Nat) (s : CacheState κ ℓ τ ε α) (key : κ) (stamp : τ) (origin : Origin) :
    Prop where
  stamp_eq : stamp = cache.stamp origin.metadata
  old : origin.metadata.ctime + tick ≤ s.clock
  stands : cache.StandsFor s key stamp origin

/-- The stamp is none, or a settled one. -/
def Kept (tick : Nat) (s : CacheState κ ℓ τ ε α) (key : κ) (stamp : Option τ) (origin : Option Origin) :
    Prop :=
  ∀ st, stamp = some st → ∃ o, origin = some o ∧ cache.Settled tick s key st o

/-- The invariant of the runs in which stamps settle safely. -/
structure Inv (tick : Nat) (s : CacheState κ ℓ τ ε α) : Prop where
  cells : ∀ key entry, s.cells key = some entry → cache.Kept tick s key entry.stamp entry.origin
  storing : ∀ tid key stamp origin value, s.threads tid = .toStore key stamp origin value →
    cache.Kept tick s key stamp origin
  coherent : cache.Coherent s

end FileCache

section

variable {cache : FileCache κ ℓ τ ε α} {tick : Nat} {s s' : CacheState κ ℓ τ ε α} {label : Label κ}
  {tid : Nat} {key : κ} {act : Act κ} {phase : Phase κ τ ε α}

theorem inv_initial (fs : FileSystem) (clock : Nat) :
    cache.Inv tick (CacheState.initial fs clock : CacheState κ ℓ τ ε α) :=
  ⟨fun _ _ h => (by cases h), fun _ _ _ _ _ h => (by cases h), fun _ _ _ _ h => (by cases h)⟩

/-! ## Where the phases come from -/

theorem start_ne_toStore {stamp : Option τ} {origin : Option Origin} {value : α} {key' : κ} :
    cache.start key ≠ .toStore key' stamp origin value := by
  unfold FileCache.start
  split <;> simp

theorem start_ne_hit {entry : Entry τ α} {seen : Option (Seen τ)} {key' : κ} :
    cache.start key ≠ .done key' (.hit entry seen) := by
  unfold FileCache.start
  split <;> simp

theorem start_ne_toLookUp {seen : Seen τ} {key' : κ} : cache.start key ≠ .toLookUp key' (some seen) := by
  unfold FileCache.start
  split <;> simp

variable [DecidableEq τ]

/-- A call waits with a stamp after it statted the file. -/
theorem moves_toLookUp {seen : Seen τ} (h : cache.Moves s phase (.toLookUp key (some seen))) :
    ∃ id, s.fs.files id = some seen.file ∧ seen.stamp = cache.stamp (seen.file.metadata id) := by
  generalize hphase : Phase.toLookUp key (some seen) = phase' at h
  cases h with
  | start => exact absurd hphase.symm start_ne_toLookUp
  | stat hfind =>
    cases hphase
    exact ⟨_, (FileSystem.find_eq_some.1 hfind).2, rfl⟩
  | hit | miss | compute | opened | fstat | read | sample | store | failed | panicked => cases hphase

/-- A call stores a stamp after it found that the stamp has settled. -/
theorem moves_toStore {stamp : τ} {origin : Option Origin} {value : α}
    (h : cache.Moves s phase (.toStore key (some stamp) origin value)) :
    ∃ o, origin = some o ∧ phase = .toSample key o value ∧
      cache.settled s.clock o.metadata = some stamp := by
  generalize hphase : Phase.toStore key (some stamp) origin value = phase' at h
  cases h with
  | start => exact absurd hphase.symm start_ne_toStore
  | sample =>
    obtain ⟨rfl, hstamp, rfl, rfl⟩ := Phase.toStore.inj hphase
    exact ⟨_, rfl, rfl, hstamp.symm⟩
  | stat | hit | miss | compute | opened | fstat | read | store | failed | panicked => cases hphase

/-- A call finds an entry that has the stamp of the file that it statted. -/
theorem moves_hit {entry : Entry τ α} {seen : Seen τ}
    (h : cache.Moves s phase (.done key (.hit entry (some seen)))) :
    phase = .toLookUp key (some seen) ∧ s.cells key = some entry ∧ entry.stamp = some seen.stamp := by
  generalize hphase : Phase.done key (.hit entry (some seen)) = phase' at h
  cases h with
  | start => exact absurd hphase.symm start_ne_hit
  | hit hentry hfresh =>
    cases hphase
    exact ⟨rfl, hentry, of_decide_eq_true hfresh⟩
  | stat | miss | compute | opened | fstat | read | sample | store | failed | panicked => cases hphase

/-- What a thread may go on to store is kept, if stamps settle safely. -/
theorem kept_of_moves (hlaw : cache.Lawful tick) (hnext : cache.next s act (s.threads tid) = some phase)
    (hsafe : cache.SettlesSafely s (.thread tid act)) {stamp : Option τ} {origin : Option Origin} {value : α}
    (hphase : phase = .toStore key stamp origin value) : cache.Kept tick s key stamp origin := by
  subst hphase
  intro st hst
  subst hst
  -- A stamp is only stored after a look at the clock, and there it settled safely.
  obtain ⟨o, rfl, hsample, hsettled⟩ := moves_toStore (moves_of_next hnext)
  obtain ⟨rfl, hold⟩ := hlaw.settled hsettled
  have hact : act = .advance := by
    rw [hsample] at hnext
    cases act with
    | advance => rfl
    | call | fail => cases hnext
  subst hact
  exact ⟨o, rfl, rfl, hold, hsafe tid key o value _ rfl hsample hsettled⟩

/-! ## Steps -/

variable [DecidableEq κ] [DecidableEq ℓ] {stamp : τ} {origin : Origin}

/-- A settled stamp stays settled. -/
theorem settled_of_step (hlaw : cache.Lawful tick) (htick : 0 < tick) (h : cache.Step tick s label s')
    (hs : cache.Settled tick s key stamp origin) : cache.Settled tick s' key stamp origin := by
  cases label with
  | file op =>
    obtain ⟨fs, hop, rfl⟩ := Option.map_eq_some_iff.1 h
    refine ⟨hs.stamp_eq, hs.old, fun file hfile hstamp => ?_, hs.stands.waiting⟩
    -- The stamp is too old to be that of a file that was changed just now.
    have hctime : file.ctime = origin.metadata.ctime := hlaw.ctime_eq (hstamp.trans hs.stamp_eq)
    have hbefore := FileOp.run_files_of_old htick hop hfile (hctime ▸ hs.old)
    exact hs.stands.file file hbefore hstamp
  | clock now =>
    obtain ⟨hle, rfl⟩ : s.clock ≤ now ∧ _ = s' := by simpa [FileCache.Step, FileCache.step] using h
    have hold := hs.old
    exact ⟨hs.stamp_eq, by dsimp only; omega, hs.stands.file, hs.stands.waiting⟩
  | thread tid act =>
    obtain ⟨phase, hnext, rfl⟩ := step_thread h
    refine ⟨hs.stamp_eq, ?_, ?_, fun tid' seen hphase hstamp => ?_⟩
    · rw [enter_clock, commit_clock]
      exact hs.old
    · rw [enter_fs, commit_fs]
      exact hs.stands.file
    · rw [enter_threads, commit_threads] at hphase
      split at hphase
      · -- A call that has just statted the file found it as it is now.
        subst hphase
        obtain ⟨id, hfile, hseen⟩ := moves_toLookUp (moves_of_next hnext)
        have hid : id = origin.metadata.id := hlaw.id_eq (hseen ▸ hstamp.trans hs.stamp_eq)
        subst hid
        exact hs.stands.file _ hfile (hseen ▸ hstamp)
      · exact hs.stands.waiting tid' seen hphase hstamp

theorem kept_of_step (hlaw : cache.Lawful tick) (htick : 0 < tick) (h : cache.Step tick s label s')
    {stamp : Option τ} {origin : Option Origin} (hs : cache.Kept tick s key stamp origin) :
    cache.Kept tick s' key stamp origin := by
  intro st hst
  obtain ⟨o, ho, hsettled⟩ := hs st hst
  exact ⟨o, ho, settled_of_step hlaw htick h hsettled⟩

theorem inv_of_step (hlaw : cache.Lawful tick) (htick : 0 < tick) (h : cache.Step tick s label s')
    (hsafe : cache.SettlesSafely s label) (hs : cache.Inv tick s) : cache.Inv tick s' := by
  have hkept {key : κ} {stamp : Option τ} {origin : Option Origin}
      (hkept : cache.Kept tick s key stamp origin) : cache.Kept tick s' key stamp origin :=
    kept_of_step hlaw htick h hkept
  rcases step_cases h with ⟨fs, clock, rfl⟩ | ⟨tid, act, phase, rfl, hnext, rfl⟩
  · exact ⟨fun key entry hentry => hkept (hs.cells key entry hentry),
      fun tid key stamp origin value hphase => hkept (hs.storing tid key stamp origin value hphase),
      hs.coherent⟩
  · refine ⟨fun key entry hentry => ?_, fun tid' key stamp origin value hphase => ?_,
      fun tid' key entry seen hphase => ?_⟩
    · rw [enter_cells] at hentry
      rcases commit_cells hentry with hentry | ⟨stamp, origin, value, hphase, rfl⟩
      · exact hkept (hs.cells key entry hentry)
      · exact hkept (hs.storing tid key stamp origin value hphase)
    · rw [enter_threads, commit_threads] at hphase
      split at hphase
      · exact hkept (kept_of_moves hlaw hnext hsafe hphase)
      · exact hkept (hs.storing tid' key stamp origin value hphase)
    · rw [enter_threads, commit_threads] at hphase
      split at hphase
      · -- The entry that is found stands for the file of every call that waits, this one too.
        subst hphase
        obtain ⟨hwaiting, hentry, hstamp⟩ := moves_hit (moves_of_next hnext)
        obtain ⟨origin, horigin, hsettled⟩ := hs.cells key entry hentry seen.stamp hstamp
        exact ⟨origin, horigin, hsettled.stands.waiting tid seen hwaiting rfl⟩
      · exact hs.coherent tid' key entry seen hphase

/-- In the runs in which stamps settle safely, all values found in the cache are coherent. -/
theorem FileCache.coherent_of_run (hlaw : cache.Lawful tick) (htick : 0 < tick)
    {tr : List (Taken (CacheState κ ℓ τ ε α) (Label κ))} {fs : FileSystem} {clock : Nat}
    (hrun : Run (cache.Step tick) (CacheState.initial fs clock) tr s')
    (hsafe : ∀ t ∈ tr, cache.SettlesSafely t.before t.label) :
    cache.Coherent s' ∧ ∀ t ∈ tr, cache.Coherent t.before := by
  have hstep : ∀ s label s', cache.Step tick s label s' → cache.SettlesSafely s label →
      cache.Inv tick s → cache.Inv tick s' := fun _ _ _ h => inv_of_step hlaw htick h
  obtain ⟨hlast, hall⟩ := hrun.invariant hstep hsafe (inv_initial fs clock)
  exact ⟨hlast.coherent, fun t ht => (hall t ht).coherent⟩

end

section

variable [DecidableEq κ] [DecidableEq ℓ] [DecidableEq τ] {cache : FileCache κ ℓ τ ε α} {tick : Nat}
  {s : CacheState κ ℓ τ ε α} {tid : Nat} {key : κ} {origin : Origin} {value : α} {stamp : τ}

/-! ## Stamps that settle unsafely -/

theorem step_of_next {act : Act κ} {phase : Phase κ τ ε α}
    (h : cache.next s act (s.threads tid) = some phase) :
    cache.Step tick s (.thread tid act) ((s.commit (s.threads tid)).enter cache tid phase) :=
  Option.map_eq_some_iff.2 ⟨phase, h, rfl⟩

/-- A step between phases without a lock leaves everything else as it is. -/
theorem step_of_free {act : Act κ} {phase phase' : Phase κ τ ε α} (hphase : s.threads tid = phase)
    (hfree : phase.holds = none) (hfree' : phase'.holds = none) (h : cache.next s act phase = some phase') :
    cache.Step tick s (.thread tid act) { s with threads := Function.update s.threads tid phase' } := by
  subst hphase
  have hcommit : s.commit (s.threads tid) = s := by
    revert hfree
    cases s.threads tid <;> simp [CacheState.commit, Phase.holds]
  have henter : s.enter cache tid phase' = { s with threads := Function.update s.threads tid phase' } := by
    simp only [CacheState.enter, hfree, hfree']
  have hstep := @step_of_next _ _ _ _ _ _ _ _ cache tick _ _ _ _ h
  rwa [hcommit, henter] at hstep

/-- A call that has read the file stores the value with the stamp, and is done. -/
theorem exists_stored (hphase : s.threads tid = .toSample key origin value)
    (hsettled : cache.settled s.clock origin.metadata = some stamp) :
    ∃ tr s' entry, Run (cache.Step tick) s tr s' ∧ s'.fs = s.fs ∧ s'.locks (cache.lock key) = none ∧
      s'.cells key = some entry ∧ entry.stamp = some stamp ∧ entry.origin = some origin ∧
      s'.threads = Function.update s.threads tid (.done key (.made entry)) := by
  have hsample := @step_of_next _ _ _ _ _ _ _ _ cache tick s tid .advance
    (.toStore key (some stamp) (some origin) value) (by rw [hphase, ← hsettled]; rfl)
  have hstore := @step_of_next _ _ _ _ _ _ _ _ cache tick
    (s.enter cache tid (.toStore key (some stamp) (some origin) value)) tid .advance
    (.done key (.made { stamp := some stamp, serial := s.serial, value, origin := some origin }))
    (by rw [enter_threads, if_pos rfl]; rfl)
  rw [hphase] at hsample
  rw [enter_threads, if_pos rfl] at hstore
  refine ⟨_, _, { stamp := some stamp, serial := s.serial, value, origin := some origin },
    .cons hsample (.cons hstore .nil), rfl, ?_, ?_, rfl, rfl, ?_⟩
  · simp [CacheState.enter, CacheState.commit, Phase.holds]
  · rw [enter_cells]
    exact Function.update_self _ _ _
  · funext tid'
    rw [enter_threads, commit_threads, enter_threads, Function.update_apply]
    split <;> rfl

/-- A call that waits with the stamp of the entry finds it. -/
theorem exists_hit {seen : Seen τ} {entry : Entry τ α} (hwaiting : s.threads tid = .toLookUp key (some seen))
    (hlock : s.locks (cache.lock key) = none) (hentry : s.cells key = some entry)
    (hstamp : entry.stamp = some seen.stamp) :
    ∃ s', cache.Step tick s (.thread tid .advance) s' ∧ s'.threads tid = .done key (.hit entry (some seen)) := by
  have hfresh : (s.cells key).filter (FileCache.fresh (some seen)) = some entry := by
    rw [hentry, Option.filter_some_pos (by simpa [FileCache.fresh] using hstamp)]
  refine ⟨_, step_of_free hwaiting rfl rfl ?_, Function.update_self _ _ _⟩
  simp only [FileCache.next, hlock, Option.isSome_none, Bool.false_eq_true, if_false, hfresh]

/-- If the stamp does not stand for what was read, for a call that waits or for the file that
    is there, the run can go on to a value that is not coherent. -/
theorem FileCache.exists_incoherent (hphase : s.threads tid = .toSample key origin value)
    (hsettled : cache.settled s.clock origin.metadata = some stamp) {file : File}
    (hno : ¬cache.Matches key origin file)
    (h : (∃ tid' path, s.threads tid' = .toLookUp key (some { path, stamp, file })) ∨
      ∃ path id, cache.path key = .ok (some path) ∧ s.fs.find path = some (id, file) ∧
        cache.stamp (file.metadata id) = stamp) :
    ∃ tr s', Run (cache.Step tick) s tr s' ∧ ¬cache.Coherent s' := by
  obtain ⟨tr, s₁, entry, hrun, hfs, hlock, hentry, hstamp, horigin, hthreads⟩ :=
    @exists_stored _ _ _ _ _ _ _ _ cache tick s tid key origin value stamp hphase hsettled
  -- A call that waits with the stamp ends the run.
  have hwait : ∀ (s₂ : CacheState κ ℓ τ ε α) tr₂ tid' path, Run (cache.Step tick) s₁ tr₂ s₂ →
      s₂.locks = s₁.locks → s₂.cells = s₁.cells →
      s₂.threads tid' = .toLookUp key (some { path, stamp, file }) →
      ∃ tr s', Run (cache.Step tick) s tr s' ∧ ¬cache.Coherent s' := by
    intro s₂ tr₂ tid' path hrun₂ hlocks hcells hwaiting
    obtain ⟨s', hstep, hhit⟩ := @exists_hit _ _ _ _ _ _ _ _ cache tick s₂ tid' key { path, stamp, file }
      entry hwaiting (hlocks ▸ hlock) (hcells ▸ hentry) hstamp
    refine ⟨_, s', Run.append_iff.2 ⟨s₁, hrun, Run.append_iff.2 ⟨s₂, hrun₂, .cons hstep .nil⟩⟩, ?_⟩
    intro hcoherent
    obtain ⟨o, ho, hmatches⟩ := hcoherent tid' key entry _ hhit
    obtain rfl := Option.some.inj (horigin.symm.trans ho)
    exact hno hmatches
  rcases h with ⟨tid', path, hwaiting⟩ | ⟨path, id, hpath, hfind, hfile⟩
  · refine hwait s₁ [] tid' path .nil rfl rfl ?_
    rw [hthreads, Function.update_of_ne, hwaiting]
    rintro rfl
    rw [hphase] at hwaiting
    cases hwaiting
  · -- The thread that stored the value makes the call.
    have hdone : s₁.threads tid = .done key (.made entry) := by rw [hthreads, Function.update_self]
    have hcall := @step_of_free _ _ _ _ _ _ _ _ cache tick s₁ tid (.call key) _ (.toStat key path) hdone
      rfl rfl (by simp only [FileCache.next, FileCache.start, hpath])
    have hstat := @step_of_free _ _ _ _ _ _ _ _ cache tick
      { s₁ with threads := Function.update s₁.threads tid (.toStat key path) } tid .advance _
      (.toLookUp key (some { path, stamp, file })) (Function.update_self _ _ _) rfl rfl
      (by simp only [FileCache.next, hfs, hfind, Option.map_some, hfile])
    exact hwait _ _ tid path (.cons hcall (.cons hstat .nil)) rfl rfl (Function.update_self _ _ _)

end

end Machine
