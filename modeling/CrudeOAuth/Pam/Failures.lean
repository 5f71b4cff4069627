import CrudeOAuth.Machine.Failures
import CrudeOAuth.Pam.Isolation

/-!
# Calls of the cache that fail

A call of `cache::config` or `Config::verifier` that returns an error changes nothing, whatever
the error is and whatever others do in the meantime, and without all such calls the others
return what they did (`no_trace_of_failing`).
-/

namespace CrudeOAuth.Pam

open Rust Machine

variable {Jwk Key : Type} {jose : Jose Jwk Key} {tick clock : Nat} {fs : FileSystem} {tr : PamHistory Key}
  {s : State Key}

/-- In every run, no step of a call that fails changes a configuration or a verifier that is
    kept; and what happens but for these calls is a run, in which all other calls return what
    they did, and after which the same is kept. -/
theorem no_trace_of_failing (hrun : Run ((cache jose).Step tick) (.initial fs clock) tr s) :
    (∀ pre t post, tr = pre ++ t :: post → startsFailing (t :: post) = true →
      t.after.cells = t.before.cells ∧ t.after.serial = t.before.serial) ∧
    ∃ tr' s', Run ((cache jose).Step tick) (.initial fs clock) tr' s' ∧
      tr'.map Taken.label = withoutFailing tr ∧
      endings tr' = (endings tr).filter (fun e => !e.2.2.isFailed) ∧
      s'.cells = s.cells ∧ s'.serial = s.serial ∧ s'.fs = s.fs ∧ s'.clock = s.clock := by
  constructor
  · rintro pre t post rfl hfails
    exact FileCache.cells_of_startsFailing (Run.of_append_cons hrun).2.1 hfails
  · obtain ⟨tr', s', hrun', hlabels, hendings, halike⟩ := FileCache.exists_run_withoutFailing hrun
      (locked_initial fs clock) (locked_initial fs clock) (alike_initial fs clock)
    exact ⟨tr', s', hrun', hlabels, hendings, halike.cells, halike.serial, halike.fs, halike.clock⟩

/-- A thread asks for the configuration, and another one for its verifier. -/
def Fixture.verifierSteps : List (Label CacheKey) :=
  [.thread 0 (.call (.config stack)), .thread 0 .advance, .thread 0 .advance,
    .thread 1 (.call (.verifier ⟨0, args⟩))] ++ List.replicate 7 (.thread 1 .advance)

/-- After the verifier is made, its file is spoilt; calls for it, and for a file that is
    missing, fail. -/
def Fixture.failingSteps : List (Label CacheKey) :=
  verifierSteps ++ [.file (.write configId (utf8 "spoilt")), .thread 1 (.call (.verifier ⟨0, args⟩))] ++
    List.replicate 4 (.thread 1 .advance) ++
    [.thread 2 (.call (.config configRaw)), .thread 0 (.call (.config stack)), .thread 1 .advance,
      .thread 2 (.fail "No such file or directory"), .thread 0 .advance]

theorem no_trace_of_failing_fixture : ∃ tr tr' : PamHistory (String × String),
    (endings tr).map (fun e => (e.1, e.2.2.isFailed)) =
        [(0, false), (1, false), (1, true), (2, true), (0, false)] ∧
      tr'.map Taken.label = withoutFailing tr ∧ endings tr' = (endings tr).filter fun e => !e.2.2.isFailed := by
  have hrun : (exec ((cache CrudeOAuth.Fixture.jose).step (4 * 10 ^ 6))
      (.initial Fixture.keysFs (13 * 10 ^ 9)) Fixture.failingSteps).any
        (fun r => (endings r.1).map (fun e => (e.1, e.2.2.isFailed)) ==
          [(0, false), (1, false), (1, true), (2, true), (0, false)]) = true := by
    decide +kernel
  obtain ⟨⟨tr, s⟩, hexec, hcheck⟩ := (Option.any_eq_true _ _).1 hrun
  obtain ⟨-, tr', s', -, hlabels, hendings, -⟩ := no_trace_of_failing (Run.of_exec hexec)
  exact ⟨tr, tr', beq_iff_eq.1 hcheck, hlabels, hendings⟩

end CrudeOAuth.Pam
