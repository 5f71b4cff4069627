import CrudeOAuth.Machine.Provenance

/-!
# Calls that fail

A call of a cache that fails leaves no trace. None of its steps changes what is kept
(`cells_of_failing`), and the run without these steps is a run as well, in which all other
calls end as they did (`FileCache.exists_run_withoutFailing`).

Whether a step belongs to a call that fails is seen from the steps after it: the next call of
the thread that ends does so in failure (`fails`). The two runs are alike (`Alike`) but for
the threads that are in such a call, and the locks that these hold; that a lock is held by
no one but the thread that works under it (`FileCache.Locked`) makes them go on alike.
-/

namespace Machine

variable {κ ℓ τ ε α : Type}

/-- The thread is in a call. -/
def Phase.running : Phase κ τ ε α → Bool
  | .idle | .done _ _ => false
  | _ => true

def Result.isFailed : Result τ ε α → Bool
  | .failed _ => true
  | _ => false

/-- The key and the result of a call that is over. -/
def Phase.result : Phase κ τ ε α → Option (κ × Result τ ε α)
  | .done key result => some (key, result)
  | _ => none

/-- The thread, the key and the result of a call that ends with the step. -/
def ending (t : Taken (CacheState κ ℓ τ ε α) (Label κ)) : Option (Nat × κ × Result τ ε α) :=
  match t.label with
  | .thread tid _ => (t.after.threads tid).result.map (tid, ·)
  | _ => none

/-- The calls that end in the steps, with their results. -/
def endings (tr : History κ ℓ τ ε α) : List (Nat × κ × Result τ ε α) := tr.filterMap ending

/-- The first call of the thread that ends in the steps fails. -/
def fails (tid : Nat) (tr : History κ ℓ τ ε α) : Bool :=
  ((endings tr).find? fun e => e.1 = tid).any fun e => e.2.2.isFailed

/-- The first of the steps is one of a call that fails. -/
def startsFailing : History κ ℓ τ ε α → Bool
  | [] => false
  | t :: tr =>
    match t.label with
    | .thread tid _ => fails tid (t :: tr)
    | _ => false

/-- What happens in the steps but for the calls that fail. -/
def withoutFailing : History κ ℓ τ ε α → List (Label κ)
  | [] => []
  | t :: tr => if startsFailing (t :: tr) then withoutFailing tr else t.label :: withoutFailing tr

/-- The call is one that fails, if `failing` tells whether those that are not over do. -/
def Phase.lost (failing : Bool) : Phase κ τ ε α → Bool
  | .idle => false
  | .done _ result => result.isFailed
  | _ => failing

/-- The second state is that of a machine without the calls that fail in the steps, or have
    failed. -/
structure Alike (tr : History κ ℓ τ ε α) (s s' : CacheState κ ℓ τ ε α) : Prop where
  clock : s'.clock = s.clock
  fs : s'.fs = s.fs
  cells : s'.cells = s.cells
  serial : s'.serial = s.serial
  locks : ∀ l, s'.locks l = (s.locks l).filter fun tid => !fails tid tr
  others : ∀ tid, (s.threads tid).lost (fails tid tr) = false → s'.threads tid = s.threads tid
  lost : ∀ tid, (s.threads tid).lost (fails tid tr) = true → (s'.threads tid).running = false

/-- A lock is held by the thread that works under it. -/
def FileCache.Locked (cache : FileCache κ ℓ τ ε α) (s : CacheState κ ℓ τ ε α) : Prop :=
  ∀ l tid, s.locks l = some tid ↔ (s.threads tid).holds.map cache.lock = some l

variable {cache : FileCache κ ℓ τ ε α} {tick tid : Nat} {s s' s₁ : CacheState κ ℓ τ ε α} {label : Label κ}
  {act : Act κ} {phase phase' : Phase κ τ ε α} {t : Taken (CacheState κ ℓ τ ε α) (Label κ)}
  {tr : History κ ℓ τ ε α}

theorem running_of_not_lost (h : phase.lost true = false) : phase.running = false := by
  cases phase <;> first | rfl | cases h

theorem failed_of_lost (h : phase.lost false = true) : ∃ key e, phase = .done key (.failed e) := by
  cases phase with
  | done key result =>
    cases result with
    | failed e => exact ⟨key, e, rfl⟩
    | _ => cases h
  | _ => cases h

theorem lost_of_holds {l : ℓ} (h : phase.holds.map cache.lock = some l) (failing : Bool) : phase.lost failing = failing := by
  cases phase <;> first | rfl | cases h

theorem filter_ne_self {p : Nat → Bool} (h : p tid = false) (o : Option Nat) :
    (o.filter p).filter (· ≠ tid) = o.filter p := by
  cases o with
  | none => rfl
  | some tid' =>
    rw [Option.filter_filter, Option.filter_some, Option.filter_some]
    by_cases htid : tid' = tid
    · simp [htid, h]
    · simp [htid]

theorem filter_congr_of_ne {p q : Nat → Bool} (h : ∀ tid', tid' ≠ tid → p tid' = q tid') (o : Option Nat) :
    (o.filter (· ≠ tid)).filter p = (o.filter q).filter (· ≠ tid) := by
  cases o with
  | none => rfl
  | some tid' =>
    rw [Option.filter_filter, Option.filter_filter, Option.filter_some, Option.filter_some]
    by_cases htid : tid' = tid
    · simp [htid]
    · simp [htid, h tid' htid]

/-! ## Locks -/

section Locks

theorem locked_initial (fs : FileSystem) (clock : Nat) :
    cache.Locked (CacheState.initial fs clock : CacheState κ ℓ τ ε α) :=
  fun _ _ => iff_of_false (fun h => by cases h) (fun h => by cases h)

theorem holds_start {key : κ} : (cache.start key).holds = none := by
  unfold FileCache.start
  split <;> rfl

theorem enter_locks [DecidableEq ℓ] (l : ℓ) : (s.enter cache tid phase).locks l =
    if phase.holds.map cache.lock = some l then some tid
    else if (s.threads tid).holds.map cache.lock = some l then none
    else s.locks l := by
  unfold CacheState.enter
  cases phase.holds <;> cases (s.threads tid).holds <;> simp [Function.update_apply, eq_comm]

theorem commit_locks [DecidableEq κ] : (s.commit phase).locks = s.locks := by cases phase <;> rfl

/-- The locks after a step of a thread: it has that of its phase, and no other. -/
theorem locks_of_step [DecidableEq κ] [DecidableEq ℓ] (hs : cache.Locked s) (l : ℓ) :
    ((s.commit (s.threads tid)).enter cache tid phase).locks l =
      if phase.holds.map cache.lock = some l then some tid else (s.locks l).filter (· ≠ tid) := by
  rw [enter_locks, commit_locks, commit_threads]
  refine if_congr Iff.rfl rfl ?_
  split
  · rename_i hholds
    rw [(hs l tid).2 hholds]
    simp [Option.filter]
  · rename_i hholds
    rw [← hs l tid] at hholds
    cases hlock : s.locks l with
    | none => rfl
    | some tid' =>
      have hne : tid' ≠ tid := by
        rintro rfl
        exact hholds hlock
      simp [Option.filter, hne]

theorem holds_afterLoad {outcome : Rust.Outcome ε α} {next : α → Phase κ τ ε α} {key key' : κ}
    (hnext : ∀ value, (next value).holds = some key')
    (h : (FileCache.afterLoad key' outcome next).holds = some key) : key = key' := by
  rcases afterLoad_eq (rfl : FileCache.afterLoad key' outcome next = _) with ⟨value, -, hphase⟩ | ⟨e, hphase⟩ | hphase
  · rw [hphase, hnext] at h
    exact (Option.some.inj h).symm
  · rw [hphase] at h
    cases h
  · rw [hphase] at h
    cases h

variable [DecidableEq τ]

/-- A thread works under the lock that it has, or takes one that is free. -/
theorem holds_of_next (h : cache.next s act phase = some phase') {key : κ} (hholds : phase'.holds = some key) :
    phase.holds = some key ∨ s.locks (cache.lock key) = none := by
  unfold FileCache.next at h
  split at h
  case h_1 | h_2 =>
    obtain rfl := Option.some.inj h
    rw [holds_start] at hholds
    cases hholds
  case h_3 =>
    obtain ⟨⟨id, file⟩, -, rfl⟩ := Option.map_eq_some_iff.1 h
    cases hholds
  case h_4 key' seen =>
    -- The lock is free, and it is the one that is taken.
    split at h
    · cases h
    · rename_i hfree
      right
      suffices hkey : key = key' by
        rw [hkey]
        exact Option.not_isSome_iff_eq_none.1 hfree
      split at h
      · obtain rfl := Option.some.inj h
        cases hholds
      · split at h
        · obtain rfl := Option.some.inj h
          exact (Option.some.inj hholds).symm
        · obtain rfl := Option.some.inj h
          exact holds_afterLoad (fun _ => rfl) hholds
  case h_5 =>
    obtain ⟨⟨id, file⟩, -, rfl⟩ := Option.map_eq_some_iff.1 h
    exact .inl hholds
  case h_6 =>
    obtain ⟨file, -, rfl⟩ := Option.map_eq_some_iff.1 h
    left
    split at hholds
    · exact hholds
    · cases hholds
  case h_7 key' path metadata =>
    obtain ⟨file, -, rfl⟩ := Option.map_eq_some_iff.1 h
    rw [holds_afterLoad (fun _ => rfl) hholds]
    exact .inl rfl
  case h_8 =>
    obtain rfl := Option.some.inj h
    exact .inl hholds
  case h_14 => cases h
  all_goals
    obtain rfl := Option.some.inj h
    cases hholds

/-- No other thread has the lock that a thread comes to work under. -/
theorem locks_of_holds (hs : cache.Locked s) (hnext : cache.next s act (s.threads tid) = some phase) {l : ℓ}
    (hholds : phase.holds.map cache.lock = some l) : s.locks l = some tid ∨ s.locks l = none := by
  obtain ⟨key, hkey, rfl⟩ := Option.map_eq_some_iff.1 hholds
  rcases holds_of_next hnext hkey with hheld | hfree
  · exact .inl ((hs _ _).2 (by rw [hheld]; rfl))
  · exact .inr hfree

section Step

variable [DecidableEq κ] [DecidableEq ℓ]

theorem locked_of_step (h : cache.Step tick s label s') (hs : cache.Locked s) : cache.Locked s' := by
  rcases step_cases h with ⟨fs, clock, rfl⟩ | ⟨tid, act, phase, rfl, hnext, rfl⟩
  · exact hs
  intro l tid'
  rw [locks_of_step hs, enter_threads, commit_threads]
  by_cases hholds : phase.holds.map cache.lock = some l
  · rw [if_pos hholds]
    by_cases htid : tid' = tid
    · rw [if_pos htid, htid]
      exact iff_of_true rfl hholds
    · rw [if_neg htid, ← hs l tid']
      refine iff_of_false (fun heq => htid (Option.some.inj heq).symm) fun hlock => ?_
      rcases locks_of_holds hs hnext hholds with heq | heq
      · exact htid (Option.some.inj (hlock.symm.trans heq))
      · rw [heq] at hlock
        cases hlock
  · rw [if_neg hholds, Option.filter_eq_some_iff]
    by_cases htid : tid' = tid
    · rw [if_pos htid]
      exact iff_of_false (fun hlock => by simp [htid] at hlock) hholds
    · rw [if_neg htid, ← hs l tid']
      simp [htid]

end Step

end Locks

/-! ## Endings -/

theorem ending_thread (hlabel : t.label = .thread tid act) :
    ending t = (t.after.threads tid).result.map (tid, ·) := by
  rw [ending, hlabel]

theorem ending_of_ne (hlabel : ∀ tid act, t.label ≠ .thread tid act) : ending t = none := by
  unfold ending
  split
  · rename_i tid act heq
    exact absurd heq (hlabel tid act)
  · rfl

theorem endings_cons : endings (t :: tr) = (ending t).toList ++ endings tr := by
  rw [endings, List.filterMap_cons]
  cases ending t <;> rfl

/-- The call that ends is one of the thread that takes the step. -/
theorem label_of_ending {e : Nat × κ × Result τ ε α} (h : ending t = some e) : ∃ act, t.label = .thread e.1 act := by
  unfold ending at h
  split at h
  · rename_i tid act hlabel
    obtain ⟨r, -, rfl⟩ := Option.map_eq_some_iff.1 h
    exact ⟨act, hlabel⟩
  · cases h

/-- The steps of others do not matter for a thread. -/
theorem fails_cons_of_ne (h : ∀ act, t.label ≠ .thread tid act) : fails tid (t :: tr) = fails tid tr := by
  rw [fails, endings, List.filterMap_cons]
  cases hend : ending t with
  | none => rfl
  | some e =>
    have hne : e.1 ≠ tid := by
      rintro rfl
      obtain ⟨act, hlabel⟩ := label_of_ending hend
      exact h act hlabel
    dsimp only
    rw [List.find?_cons_of_neg (by simpa using hne)]
    rfl

/-- A call fails if it has failed with the step, or is not over and fails. -/
theorem fails_cons_self (hlabel : t.label = .thread tid act) (hidle : t.after.threads tid ≠ .idle) :
    fails tid (t :: tr) = (t.after.threads tid).lost (fails tid tr) := by
  rw [fails, endings, List.filterMap_cons, ending_thread hlabel]
  cases hphase : t.after.threads tid with
  | idle => exact absurd hphase hidle
  | done key result =>
    dsimp only [Phase.result, Option.map_some]
    rw [List.find?_cons_of_pos (by simp)]
    rfl
  | _ => rfl

theorem startsFailing_of_ne (hlabel : ∀ tid act, t.label ≠ .thread tid act) : startsFailing (t :: tr) = false := by
  rw [startsFailing]
  split
  · rename_i tid act heq
    exact absurd heq (hlabel tid act)
  · rfl

/-! ## Steps -/

section Commit

variable [DecidableEq κ]

theorem commit_of_not_running (h : phase.running = false) : s.commit phase = s := by
  cases phase <;> first | rfl | cases h

theorem commit_congr (hcells : s'.cells = s.cells) (hserial : s'.serial = s.serial) :
    (s'.commit phase).cells = (s.commit phase).cells ∧ (s'.commit phase).serial = (s.commit phase).serial := by
  cases phase with
  | toStore key stamp origin value =>
    simp only [CacheState.commit, hcells, hserial]
    exact ⟨trivial, trivial⟩
  | _ => exact ⟨hcells, hserial⟩

end Commit

section Taken

variable [DecidableEq κ] [DecidableEq ℓ]

/-- The step of the thread, to the phase. -/
def taken (cache : FileCache κ ℓ τ ε α) (s : CacheState κ ℓ τ ε α) (tid : Nat) (act : Act κ) (phase : Phase κ τ ε α) :
    Taken (CacheState κ ℓ τ ε α) (Label κ) :=
  ⟨s, .thread tid act, (s.commit (s.threads tid)).enter cache tid phase⟩

theorem fails_taken_of_ne {tid' : Nat} (h : tid' ≠ tid) :
    fails tid' (taken cache s tid act phase :: tr) = fails tid' tr := by
  refine fails_cons_of_ne fun act' hlabel => h ?_
  exact (Label.thread.inj hlabel).1.symm

theorem filter_fails (o : Option Nat) :
    (o.filter (· ≠ tid)).filter (fun tid' => !fails tid' tr) =
      (o.filter fun tid' => !fails tid' (taken cache s tid act phase :: tr)).filter (· ≠ tid) := by
  refine filter_congr_of_ne (fun tid' hne => ?_) o
  rw [fails_taken_of_ne hne]

theorem ending_taken : ending (taken cache s tid act phase) = phase.result.map (tid, ·) := by
  refine (ending_thread rfl).trans ?_
  rw [taken, enter_threads, if_pos rfl]

end Taken

theorem alike_initial (fs : FileSystem) (clock : Nat) :
    Alike tr (CacheState.initial fs clock : CacheState κ ℓ τ ε α) (.initial fs clock) :=
  ⟨rfl, rfl, rfl, rfl, fun _ => rfl, fun _ _ => rfl, fun _ _ => rfl⟩

theorem start_ne_idle {key : κ} : cache.start key ≠ .idle := by
  unfold FileCache.start
  split <;> simp

variable [DecidableEq τ]

theorem ne_idle_of_next (h : cache.next s act phase = some phase') : phase' ≠ .idle := by
  cases moves_of_next h with
  | start => exact start_ne_idle
  | _ => simp

theorem next_call {key : κ} (h : phase.running = false) : cache.next s (.call key) phase = some (cache.start key) := by
  cases phase <;> first | rfl | cases h

/-- A thread that is in no call makes one. -/
theorem next_of_not_running (h : phase.running = false) (hnext : cache.next s act phase = some phase') :
    ∃ key, act = .call key ∧ phase' = cache.start key := by
  cases act with
  | call key =>
    rw [next_call h] at hnext
    exact ⟨key, rfl, (Option.some.inj hnext).symm⟩
  | advance | fail =>
    cases phase with
    | idle | done => cases hnext
    | _ => cases h

/-- What a thread does next depends on the state, of the locks on those only that are free. -/
theorem next_congr (hclock : s'.clock = s.clock) (hfs : s'.fs = s.fs) (hcells : s'.cells = s.cells)
    (hserial : s'.serial = s.serial) (hlocks : ∀ l, s.locks l = none → s'.locks l = none)
    (h : cache.next s act phase = some phase') : cache.next s' act phase = some phase' := by
  unfold FileCache.next at h ⊢
  rw [hclock, hfs, hcells, hserial]
  split at h
  case h_4 key seen =>
    split at h
    · cases h
    · rename_i hfree
      rw [if_neg (by rw [hlocks _ (Option.not_isSome_iff_eq_none.1 hfree)]; simp)]
      exact h
  case h_14 => cases h
  all_goals exact h

/-- A step of a call that fails stores nothing. -/
theorem commit_of_lost [DecidableEq κ] (hnext : cache.next s act (s.threads tid) = some phase) {failing : Bool}
    (hlost : phase.lost failing = true) : s.commit (s.threads tid) = s := by
  cases hphase : s.threads tid with
  | toStore key stamp origin value =>
    rw [hphase] at hnext
    cases act with
    | advance =>
      obtain rfl := Option.some.inj hnext
      cases hlost
    | call | fail => cases hnext
  | _ => rfl

/-! ## Both runs -/

variable [DecidableEq κ] [DecidableEq ℓ]

theorem fails_taken_self (hnext : cache.next s act (s.threads tid) = some phase) :
    fails tid (taken cache s tid act phase :: tr) = phase.lost (fails tid tr) := by
  have hphase : (taken cache s tid act phase).after.threads tid = phase := by
    rw [taken, enter_threads, if_pos rfl]
  rw [fails_cons_self rfl (hphase.symm ▸ ne_idle_of_next hnext), hphase]

/-- A step of a call that fails changes nothing that is kept. -/
theorem cells_of_failing (hnext : cache.next s act (s.threads tid) = some phase)
    (hfails : fails tid (taken cache s tid act phase :: tr) = true) :
    (taken cache s tid act phase).after.cells = s.cells ∧ (taken cache s tid act phase).after.serial = s.serial := by
  rw [fails_taken_self hnext] at hfails
  rw [taken, commit_of_lost hnext hfails]
  exact ⟨rfl, rfl⟩

/-- Without a step of a call that fails, the machines go on alike. -/
theorem alike_of_failing (hlocked : cache.Locked s) (hnext : cache.next s act (s.threads tid) = some phase)
    (h : Alike (taken cache s tid act phase :: tr) s s')
    (hfails : fails tid (taken cache s tid act phase :: tr) = true) :
    Alike tr (taken cache s tid act phase).after s' := by
  have hlost : phase.lost (fails tid tr) = true := fails_taken_self hnext ▸ hfails
  rw [taken, commit_of_lost hnext hlost]
  refine ⟨h.clock, h.fs, h.cells, h.serial, fun l => ?_, fun tid' htid' => ?_, fun tid' htid' => ?_⟩
  · have hlocks : (s.enter cache tid phase).locks l = if phase.holds.map cache.lock = some l then some tid
        else (s.locks l).filter (· ≠ tid) := by
      rw [← locks_of_step hlocked, commit_of_lost hnext hlost]
    rw [h.locks, hlocks]
    split
    · rename_i hholds
      -- The lock is that of the call that fails, and no one has it without that.
      have hnone : (s.locks l).filter (fun tid' => !fails tid' (taken cache s tid act phase :: tr)) = none := by
        rcases locks_of_holds hlocked hnext hholds with hlock | hlock
        · rw [hlock, Option.filter_some_neg (by rw [hfails]; rfl)]
        · rw [hlock, Option.filter_none]
      have hrest : fails tid tr = true := (lost_of_holds hholds _).symm.trans hlost
      rw [hnone, Option.filter_some_neg (by rw [hrest]; rfl)]
    · rw [filter_fails, filter_ne_self]
      rw [hfails]
      rfl
  · rw [enter_threads] at htid' ⊢
    split at htid'
    · rename_i heq
      rw [heq, hlost] at htid'
      cases htid'
    · rename_i hne
      rw [if_neg hne]
      exact h.others tid' (by rwa [fails_taken_of_ne hne])
  · rw [enter_threads] at htid'
    split at htid'
    · rename_i heq
      rw [heq]
      -- Before the call, or in it, the second thread is in none.
      by_cases hbefore : (s.threads tid).lost (fails tid (taken cache s tid act phase :: tr)) = true
      · exact h.lost tid hbefore
      · rw [Bool.not_eq_true] at hbefore
        rw [h.others tid hbefore]
        rw [hfails] at hbefore
        exact running_of_not_lost hbefore
    · rename_i hne
      exact h.lost tid' (by rwa [fails_taken_of_ne hne])

/-- A thread takes a step of a call that does not fail in both machines. -/
theorem next_of_kept (hnext : cache.next s act (s.threads tid) = some phase)
    (h : Alike (taken cache s tid act phase :: tr) s s')
    (hfails : fails tid (taken cache s tid act phase :: tr) = false) :
    cache.next s' act (s'.threads tid) = some phase ∧
      (s'.commit (s'.threads tid)).cells = (s.commit (s.threads tid)).cells ∧
      (s'.commit (s'.threads tid)).serial = (s.commit (s.threads tid)).serial := by
  by_cases hbefore : (s.threads tid).lost (fails tid (taken cache s tid act phase :: tr)) = true
  · -- The call before has failed: this is a new one.
    have hrunning := h.lost tid hbefore
    obtain ⟨key, e, hdone⟩ := failed_of_lost (hfails ▸ hbefore)
    rw [hdone] at hnext ⊢
    obtain ⟨key', rfl, rfl⟩ := next_of_not_running rfl hnext
    rw [commit_of_not_running hrunning]
    exact ⟨next_call hrunning, h.cells, h.serial⟩
  · rw [h.others tid (Bool.not_eq_true _ ▸ hbefore)]
    refine ⟨next_congr h.clock h.fs h.cells h.serial (fun l hfree => ?_) hnext, commit_congr h.cells h.serial⟩
    rw [h.locks, hfree, Option.filter_none]

theorem alike_of_kept (hlocked : cache.Locked s) (hlocked' : cache.Locked s')
    (hnext : cache.next s act (s.threads tid) = some phase) (h : Alike (taken cache s tid act phase :: tr) s s')
    (hfails : fails tid (taken cache s tid act phase :: tr) = false) :
    Alike tr (taken cache s tid act phase).after (taken cache s' tid act phase).after := by
  have hrest : phase.lost (fails tid tr) = false := fails_taken_self hnext ▸ hfails
  obtain ⟨-, hcells, hserial⟩ := next_of_kept hnext h hfails
  refine ⟨?_, ?_, hcells, hserial, fun l => ?_, fun tid' htid' => ?_, fun tid' htid' => ?_⟩
  · simpa [taken] using h.clock
  · simpa [taken] using h.fs
  · rw [taken, taken, locks_of_step hlocked, locks_of_step hlocked']
    split
    · rename_i hholds
      have hnot : fails tid tr = false := (lost_of_holds hholds _).symm.trans hrest
      rw [Option.filter_some_pos (by rw [hnot]; rfl)]
    · rw [h.locks, filter_fails]
  · rw [taken, enter_threads, commit_threads] at htid' ⊢
    rw [taken, enter_threads, commit_threads]
    split at htid'
    · rename_i heq
      rw [if_pos heq, if_pos heq]
    · rename_i hne
      rw [if_neg hne, if_neg hne]
      exact h.others tid' (by rwa [fails_taken_of_ne hne])
  · rw [taken, enter_threads, commit_threads] at htid' ⊢
    split at htid'
    · rename_i heq
      rw [heq, hrest] at htid'
      cases htid'
    · rename_i hne
      rw [if_neg hne]
      exact h.lost tid' (by rwa [fails_taken_of_ne hne])

/-- A step that is of no thread is one of both machines. -/
theorem alike_of_env (h : cache.Step tick s label s₁) (hlabel : ∀ tid act, label ≠ .thread tid act)
    (halike : Alike (⟨s, label, s₁⟩ :: tr) s s') : ∃ s₁', cache.Step tick s' label s₁' ∧ Alike tr s₁ s₁' := by
  have hfails : ∀ tid, fails tid (⟨s, label, s₁⟩ :: tr) = fails tid tr := fun tid => fails_cons_of_ne (hlabel tid)
  obtain ⟨hclock, hfs, hcells, hserial, hlocks, hothers, hlost⟩ := halike
  simp only [hfails] at hlocks hothers hlost
  cases label with
  | file op =>
    obtain ⟨fs, hop, rfl⟩ := Option.map_eq_some_iff.1 h
    refine ⟨{ s' with fs }, ?_, hclock, rfl, hcells, hserial, hlocks, hothers, hlost⟩
    rw [FileCache.Step, FileCache.step, hclock, hfs, hop]
    rfl
  | clock now =>
    obtain ⟨hle, rfl⟩ : s.clock ≤ now ∧ _ = s₁ := by simpa [FileCache.Step, FileCache.step] using h
    refine ⟨{ s' with clock := now }, ?_, rfl, hfs, hcells, hserial, hlocks, hothers, hlost⟩
    rw [FileCache.Step, FileCache.step, hclock, if_pos hle]
  | thread tid act => exact absurd rfl (hlabel tid act)

/-- What ends with a step of a call ends in failure if the call fails. -/
theorem filter_ending_taken (hnext : cache.next s act (s.threads tid) = some phase) (tr : History κ ℓ τ ε α) :
    (ending (taken cache s tid act phase)).toList.filter (fun e => !e.2.2.isFailed) =
      if fails tid (taken cache s tid act phase :: tr) then [] else (ending (taken cache s tid act phase)).toList := by
  rw [ending_taken, fails_taken_self hnext]
  cases phase with
  | done key result => cases h : result.isFailed <;> simp [Phase.result, Phase.lost, h]
  | _ => simp [Phase.result]

/-- The run of a machine without the calls that fail: they leave out what they do, and the
    others end as before. -/
theorem FileCache.exists_run_withoutFailing (hrun : Run (cache.Step tick) s tr s₁) (hlocked : cache.Locked s)
    (hlocked' : cache.Locked s') (h : Alike tr s s') :
    ∃ tr' s₁', Run (cache.Step tick) s' tr' s₁' ∧ tr'.map Taken.label = withoutFailing tr ∧
      endings tr' = (endings tr).filter (fun e => !e.2.2.isFailed) ∧ Alike [] s₁ s₁' := by
  induction hrun generalizing s' with
  | nil => exact ⟨[], s', .nil, rfl, rfl, h⟩
  | @cons s s₂ s₁ label tr hstep hrest ih =>
    by_cases hlabel : ∃ tid act, label = .thread tid act
    · obtain ⟨tid, act, rfl⟩ := hlabel
      obtain ⟨phase, hnext, rfl⟩ := step_thread hstep
      have hlocked₂ := locked_of_step hstep hlocked
      by_cases hfails : fails tid (taken cache s tid act phase :: tr) = true
      · -- The second machine does not take the step.
        obtain ⟨tr', s₁', hrun', hlabels, hendings, halike⟩ :=
          ih hlocked₂ hlocked' (alike_of_failing hlocked hnext h hfails)
        refine ⟨tr', s₁', hrun', ?_, ?_, halike⟩
        · rw [hlabels]
          exact (if_pos hfails).symm
        · have hnone := filter_ending_taken hnext tr
          rw [if_pos hfails] at hnone
          rw [endings_cons, List.filter_append, hendings]
          exact (congrArg (· ++ _) hnone).symm
      · rw [Bool.not_eq_true] at hfails
        obtain ⟨hnext', -⟩ := next_of_kept hnext h hfails
        have hstep' : cache.Step tick s' (.thread tid act) (taken cache s' tid act phase).after := by
          rw [FileCache.Step, FileCache.step, hnext']
          rfl
        obtain ⟨tr', s₁', hrun', hlabels, hendings, halike⟩ :=
          ih hlocked₂ (locked_of_step hstep' hlocked') (alike_of_kept hlocked hlocked' hnext h hfails)
        refine ⟨taken cache s' tid act phase :: tr', s₁', .cons hstep' hrun', ?_, ?_, halike⟩
        · rw [List.map_cons, hlabels]
          exact (if_neg (Bool.eq_false_iff.1 hfails)).symm
        · have hall := filter_ending_taken hnext tr
          rw [if_neg (by rw [hfails]; simp)] at hall
          rw [endings_cons, endings_cons, List.filter_append, hendings]
          refine congrArg (· ++ _) (Eq.trans ?_ hall.symm)
          rw [ending_taken, ending_taken]
    · push Not at hlabel
      obtain ⟨s₂', hstep', halike⟩ := alike_of_env hstep hlabel h
      obtain ⟨tr', s₁', hrun', hlabels, hendings, halike⟩ :=
        ih (locked_of_step hstep hlocked) (locked_of_step hstep' hlocked') halike
      refine ⟨⟨s', label, s₂'⟩ :: tr', s₁', .cons hstep' hrun', ?_, ?_, halike⟩
      · rw [List.map_cons, hlabels]
        exact (if_neg (Bool.eq_false_iff.1 (startsFailing_of_ne hlabel))).symm
      · rw [endings_cons, endings_cons, ending_of_ne hlabel, ending_of_ne hlabel]
        exact hendings

/-- A step of a call that fails changes nothing that is kept. -/
theorem FileCache.cells_of_startsFailing (h : cache.Step tick t.before t.label t.after)
    (hfails : startsFailing (t :: tr) = true) :
    t.after.cells = t.before.cells ∧ t.after.serial = t.before.serial := by
  obtain ⟨s, label, s₁⟩ := t
  dsimp only at h ⊢
  by_cases hlabel : ∃ tid act, label = .thread tid act
  · obtain ⟨tid, act, rfl⟩ := hlabel
    obtain ⟨phase, hnext, rfl⟩ := step_thread h
    exact cells_of_failing hnext hfails
  · push Not at hlabel
    rw [startsFailing_of_ne hlabel] at hfails
    cases hfails

end Machine
