import CrudeOAuth.Machine.Failures

/-!
# Calls that end

Every step of a call of a cache takes it closer to its end (`left_of_next`), so it takes but a
few. And no call is stuck: where it waits for a lock, the thread that has the lock can give it
back, as no thread waits under a lock. So from any state in which locks are held by those
that work under them, every call can be brought to its end, without a new call, a change of a
file or of the time (`FileCache.exists_finish`).
-/

namespace Machine

variable {κ ℓ τ ε α : Type}

/-- At most so many steps of the call are left. -/
def Phase.left : Phase κ τ ε α → Nat
  | .idle | .done _ _ => 0
  | .toStore _ _ _ _ => 1
  | .toSample _ _ _ => 2
  | .toRead _ _ _ => 3
  | .toFstat _ _ _ => 4
  | .toOpen _ _ => 5
  | .toLookUp _ _ => 6
  | .toStat _ _ => 7

/-- A step within a call. A call of the operating system fails only if there is no file. -/
def FileCache.Works [DecidableEq τ] (cache : FileCache κ ℓ τ ε α) (t : Taken (CacheState κ ℓ τ ε α) (Label κ)) : Prop :=
  ∃ tid, t.label = .thread tid .advance ∨
    ∃ e, t.label = .thread tid (.fail e) ∧ cache.next t.before .advance (t.before.threads tid) = none

variable {cache : FileCache κ ℓ τ ε α} {tick tid : Nat} {s s' : CacheState κ ℓ τ ε α} {key : κ} {act : Act κ}
  {phase phase' : Phase κ τ ε α}

theorem left_start : (cache.start key).left ≤ 7 := by
  unfold FileCache.start
  split <;> simp [Phase.left]

theorem left_afterLoad {outcome : Rust.Outcome ε α} {next : α → Phase κ τ ε α} {n : Nat}
    (hnext : ∀ value, (next value).left ≤ n) : (FileCache.afterLoad key outcome next).left ≤ n := by
  cases outcome with
  | ok value => exact hnext value
  | err | panic => exact Nat.zero_le n

theorem running_of_holds (h : phase.holds = some key) : phase.running = true := by
  cases phase <;> first | rfl | cases h

/-! ## One step -/

section Next

variable [DecidableEq τ]

theorem left_of_next (h : cache.next s act phase = some phase') (hrunning : phase.running = true) :
    phase'.left < phase.left := by
  unfold FileCache.next at h
  split at h
  case h_1 | h_2 => cases hrunning
  case h_4 =>
    split at h
    · cases h
    · split at h
      · obtain rfl := Option.some.inj h
        simp [Phase.left]
      · split at h
        · obtain rfl := Option.some.inj h
          simp [Phase.left]
        · obtain rfl := Option.some.inj h
          exact Nat.lt_of_le_of_lt (left_afterLoad fun _ => Nat.le_refl 1) (by simp [Phase.left])
  case h_6 =>
    obtain ⟨file, -, rfl⟩ := Option.map_eq_some_iff.1 h
    split <;> simp [Phase.left]
  case h_7 =>
    obtain ⟨file, -, rfl⟩ := Option.map_eq_some_iff.1 h
    exact Nat.lt_of_le_of_lt (left_afterLoad fun _ => Nat.le_refl 2) (by simp [Phase.left])
  case h_3 | h_5 =>
    obtain ⟨⟨id, file⟩, -, rfl⟩ := Option.map_eq_some_iff.1 h
    simp [Phase.left]
  case h_14 => cases h
  all_goals
    obtain rfl := Option.some.inj h
    simp [Phase.left]

/-- What is done under a lock is done until the end of the call. -/
theorem holds_or_ends (h : cache.next s act phase = some phase') (hholds : phase.holds = some key) :
    phase'.running = false ∨ phase'.holds = some key := by
  unfold FileCache.next at h
  split at h
  case h_1 | h_2 | h_3 | h_4 => cases hholds
  case h_5 =>
    obtain ⟨⟨id, file⟩, -, rfl⟩ := Option.map_eq_some_iff.1 h
    exact .inr hholds
  case h_6 =>
    obtain ⟨file, -, rfl⟩ := Option.map_eq_some_iff.1 h
    split
    · exact .inr hholds
    · exact .inl rfl
  case h_7 =>
    obtain ⟨file, -, h⟩ := Option.map_eq_some_iff.1 h
    rcases afterLoad_eq h with ⟨value, -, rfl⟩ | ⟨e, rfl⟩ | rfl
    · exact .inr hholds
    · exact .inl rfl
    · exact .inl rfl
  case h_8 =>
    obtain rfl := Option.some.inj h
    exact .inr hholds
  case h_14 => cases h
  all_goals
    obtain rfl := Option.some.inj h
    exact .inl rfl

/-- A thread in a call can go on, unless it waits for a lock. -/
theorem exists_next (hrunning : phase.running = true)
    (hfree : ∀ key seen, phase = .toLookUp key seen → s.locks (cache.lock key) = none) :
    (∃ phase', cache.next s .advance phase = some phase') ∨
      cache.next s .advance phase = none ∧ ∃ e phase', cache.next s (.fail e) phase = some phase' := by
  cases phase with
  | idle | done => cases hrunning
  | toStat key path | toOpen key path =>
    cases hfind : s.fs.find path with
    | none => exact .inr ⟨congrArg (Option.map _) hfind, "", _, rfl⟩
    | some found => exact .inl ⟨_, congrArg (Option.map _) hfind⟩
  | toLookUp key seen =>
    have hlock : ¬(s.locks (cache.lock key)).isSome = true := by rw [hfree key seen rfl]; simp
    left
    simp only [FileCache.next, if_neg hlock]
    split
    · exact ⟨_, rfl⟩
    · split <;> exact ⟨_, rfl⟩
  | toFstat key path id =>
    cases hfile : s.fs.files id with
    | none => exact .inr ⟨congrArg (Option.map _) hfile, "", _, rfl⟩
    | some file => exact .inl ⟨_, congrArg (Option.map _) hfile⟩
  | toRead key path metadata =>
    cases hfile : s.fs.files metadata.id with
    | none => exact .inr ⟨congrArg (Option.map _) hfile, "", _, rfl⟩
    | some file => exact .inl ⟨_, congrArg (Option.map _) hfile⟩
  | toSample | toStore => exact .inl ⟨_, rfl⟩

end Next

section Step

variable [DecidableEq κ] [DecidableEq ℓ] [DecidableEq τ] {label : Label κ}

/-- A thread that was called does not become idle again. -/
theorem ne_idle_of_step (h : cache.Step tick s label s') (hidle : s.threads tid ≠ .idle) : s'.threads tid ≠ .idle := by
  rcases step_cases h with ⟨fs, clock, rfl⟩ | ⟨tid', act, phase, rfl, hnext, rfl⟩
  · exact hidle
  · rw [enter_threads, commit_threads]
    split
    · exact ne_idle_of_next hnext
    · exact hidle

theorem thread_of_call (h : cache.Step tick s (.thread tid (.call key)) s') : s'.threads tid = cache.start key := by
  obtain ⟨phase, hnext, rfl⟩ := step_thread h
  rw [enter_threads, if_pos rfl]
  -- A thread in a call makes no other one.
  cases hphase : s.threads tid <;> rw [hphase] at hnext <;> cases hnext <;> rfl

/-- A step within a call of the thread takes it closer to its end. -/
theorem left_of_step (h : cache.Step tick s (.thread tid act) s') (hact : ∀ key, act ≠ .call key) :
    (s'.threads tid).left < (s.threads tid).left := by
  obtain ⟨phase, hnext, rfl⟩ := step_thread h
  rw [enter_threads, if_pos rfl]
  cases hrunning : (s.threads tid).running with
  | false =>
    obtain ⟨key, rfl, -⟩ := next_of_not_running hrunning hnext
    exact absurd rfl (hact key)
  | true => exact left_of_next hnext hrunning

/-- A lock is given back before another thread has it. -/
theorem lock_of_step {l : ℓ} {holder : Nat} (h : cache.Step tick s label s') (hs : cache.Locked s)
    (hlock : s.locks l = some holder) : s'.locks l = some holder ∨ s'.locks l = none := by
  rcases step_cases h with ⟨fs, clock, rfl⟩ | ⟨tid', act, phase, rfl, hnext, rfl⟩
  · exact .inl hlock
  rw [locks_of_step hs]
  split
  · rename_i hholds
    rcases locks_of_holds hs hnext hholds with hheld | hfree
    · exact .inl (hheld.symm.trans hlock)
    · cases hlock.symm.trans hfree
  · rw [hlock, Option.filter_some]
    split
    · exact .inl rfl
    · exact .inr rfl

end Step

/-! ## Bringing calls to their end -/

section Finish

variable [DecidableEq κ] [DecidableEq ℓ] [DecidableEq τ]

/-- From the state, steps within calls lead to the other. -/
def FileCache.Leads (cache : FileCache κ ℓ τ ε α) (tick : Nat) (s s' : CacheState κ ℓ τ ε α) : Prop :=
  ∃ tr, Run (cache.Step tick) s tr s' ∧ ∀ t ∈ tr, cache.Works t

theorem FileCache.Leads.cons {s₁ : CacheState κ ℓ τ ε α} {label : Label κ} (h : cache.Step tick s label s₁)
    (hworks : cache.Works ⟨s, label, s₁⟩) (hrest : cache.Leads tick s₁ s') : cache.Leads tick s s' := by
  obtain ⟨tr, hrun, hall⟩ := hrest
  exact ⟨_, .cons h hrun, List.forall_mem_cons.2 ⟨hworks, hall⟩⟩

theorem FileCache.Leads.trans {s₁ : CacheState κ ℓ τ ε α} (h : cache.Leads tick s s₁) (h' : cache.Leads tick s₁ s') :
    cache.Leads tick s s' := by
  obtain ⟨tr, hrun, hworks⟩ := h
  obtain ⟨tr', hrun', hworks'⟩ := h'
  exact ⟨tr ++ tr', Run.append_iff.2 ⟨s₁, hrun, hrun'⟩, List.forall_mem_append.2 ⟨hworks, hworks'⟩⟩

/-- A thread that does not wait takes a step, which changes no other thread. -/
theorem exists_step (hrunning : (s.threads tid).running = true)
    (hfree : ∀ key seen, s.threads tid = .toLookUp key seen → s.locks (cache.lock key) = none) :
    ∃ label s', cache.Step tick s label s' ∧ cache.Works ⟨s, label, s'⟩ ∧
      (∃ act, cache.next s act (s.threads tid) = some (s'.threads tid)) ∧
        ∀ tid', tid' ≠ tid → s'.threads tid' = s.threads tid' := by
  obtain ⟨act, phase', hnext, hact⟩ : ∃ act phase', cache.next s act (s.threads tid) = some phase' ∧
      ∀ s', cache.Works ⟨s, .thread tid act, s'⟩ := by
    rcases @exists_next _ _ _ _ _ cache s _ _ hrunning hfree with ⟨phase', hnext⟩ | ⟨hnone, e, phase', hnext⟩
    · exact ⟨.advance, phase', hnext, fun s' => ⟨tid, .inl rfl⟩⟩
    · exact ⟨.fail e, phase', hnext, fun s' => ⟨tid, .inr ⟨e, rfl, hnone⟩⟩⟩
  refine ⟨.thread tid act, _, congrArg (Option.map _) hnext, hact _, ⟨act, ?_⟩, fun tid' hne => ?_⟩
  · rw [hnext, enter_threads, if_pos rfl]
  · rw [enter_threads, if_neg hne, commit_threads]

/-- A thread that has a lock gives it back. -/
theorem exists_unlock (hs : cache.Locked s) (hholds : (s.threads tid).holds = some key) :
    ∃ s', cache.Leads tick s s' ∧ cache.Locked s' ∧ (s'.threads tid).running = false ∧
      ∀ tid', tid' ≠ tid → s'.threads tid' = s.threads tid' := by
  induction hleft : (s.threads tid).left using Nat.strongRecOn generalizing s with
  | ind n ih =>
    obtain ⟨label, s₁, hstep, hworks, ⟨act, hnext⟩, hothers⟩ := @exists_step _ _ _ _ _ cache tick tid s _ _ _
      (running_of_holds hholds) (fun key' seen hphase => by rw [hphase] at hholds; cases hholds)
    have hs₁ := locked_of_step hstep hs
    rcases holds_or_ends hnext hholds with hends | hholds₁
    · exact ⟨s₁, .cons hstep hworks ⟨[], .nil, by simp⟩, hs₁, hends, hothers⟩
    · have hless := left_of_next hnext (running_of_holds hholds)
      obtain ⟨s', hleads, hs', hends, hothers'⟩ := ih _ (hleft ▸ hless) hs₁ hholds₁ rfl
      exact ⟨s', .cons hstep hworks hleads, hs', hends, fun tid' hne => (hothers' tid' hne).trans (hothers tid' hne)⟩

/-- The lock that a thread waits for is given back. -/
theorem exists_free (hs : cache.Locked s) {seen : Option (Seen τ)} (hphase : s.threads tid = .toLookUp key seen) :
    ∃ s', cache.Leads tick s s' ∧ cache.Locked s' ∧ s'.threads tid = s.threads tid ∧ s'.locks (cache.lock key) = none := by
  cases hlock : s.locks (cache.lock key) with
  | none => exact ⟨s, ⟨[], .nil, by simp⟩, hs, rfl, hlock⟩
  | some holder =>
    obtain ⟨key', hholds, hkey'⟩ := Option.map_eq_some_iff.1 ((hs _ _).1 hlock)
    have hne : tid ≠ holder := by
      rintro rfl
      rw [hphase] at hholds
      cases hholds
    obtain ⟨s', hleads, hs', hends, hothers⟩ := @exists_unlock _ _ _ _ _ cache tick holder s key' _ _ _ hs hholds
    refine ⟨s', hleads, hs', hothers tid hne, ?_⟩
    -- Nobody has it now: the holder is in no call, and the others have what they had.
    by_contra hsome
    obtain ⟨tid', hlock'⟩ := Option.ne_none_iff_exists'.1 hsome
    have hholds' := (hs' _ _).1 hlock'
    by_cases hholder : tid' = holder
    · subst hholder
      obtain ⟨key'', hholds'', -⟩ := Option.map_eq_some_iff.1 hholds'
      rw [running_of_holds hholds''] at hends
      cases hends
    · rw [hothers tid' hholder, ← hs, hlock] at hholds'
      exact hholder (Option.some.inj hholds').symm

/-- Every call can be brought to its end. -/
theorem FileCache.exists_finish (hs : cache.Locked s) (hidle : s.threads tid ≠ .idle) :
    ∃ s', cache.Leads tick s s' ∧ cache.Locked s' ∧ ∃ key result, s'.threads tid = .done key result := by
  induction hleft : (s.threads tid).left using Nat.strongRecOn generalizing s with
  | ind n ih =>
    cases hrunning : (s.threads tid).running with
    | false =>
      cases hphase : s.threads tid with
      | idle => exact absurd hphase hidle
      | done key result => exact ⟨s, ⟨[], .nil, by simp⟩, hs, key, result, hphase⟩
      | _ => rw [hphase] at hrunning; cases hrunning
    | true =>
      -- First the lock that it may wait for is given back, then it takes a step.
      obtain ⟨s₁, hleads₁, hs₁, hsame, hfree⟩ : ∃ s₁, cache.Leads tick s s₁ ∧ cache.Locked s₁ ∧
          s₁.threads tid = s.threads tid ∧
          ∀ key seen, s₁.threads tid = .toLookUp key seen → s₁.locks (cache.lock key) = none := by
        by_cases hwaits : ∃ key seen, s.threads tid = .toLookUp key seen
        · obtain ⟨key, seen, hphase⟩ := hwaits
          obtain ⟨s₁, hleads₁, hs₁, hsame, hfree⟩ := @exists_free _ _ _ _ _ cache tick tid s key _ _ _ hs seen hphase
          refine ⟨s₁, hleads₁, hs₁, hsame, fun key' seen' hphase' => ?_⟩
          rw [hsame, hphase] at hphase'
          cases hphase'
          exact hfree
        · exact ⟨s, ⟨[], .nil, by simp⟩, hs, rfl, fun key seen hphase => absurd ⟨key, seen, hphase⟩ hwaits⟩
      obtain ⟨label, s₂, hstep, hworks, ⟨act, hnext⟩, -⟩ := @exists_step _ _ _ _ _ cache tick tid s₁ _ _ _
        (hsame ▸ hrunning) hfree
      have hless : (s₂.threads tid).left < n := by
        rw [← hleft, ← hsame]
        exact left_of_next hnext (hsame ▸ hrunning)
      obtain ⟨s', hleads, hs', hdone⟩ := ih _ hless (locked_of_step hstep hs₁) (ne_idle_of_next hnext) rfl
      exact ⟨s', hleads₁.trans (.cons hstep hworks hleads), hs', hdone⟩

end Finish

end Machine
