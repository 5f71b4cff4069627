import CrudeOAuth.Machine.Run
import CrudeOAuth.Sasl.Server

/-!
# Runs of the server

The server as a machine: its state is the context of the connection together with the
output parameters, and an input brings whatever the client sent and the framework
answers in that step. The inputs of a run are arbitrary.

* `server_safe`: in every run, each step that accepts has verified its token and had
  the names accepted; the mechanism is marked done, and output is published, in the
  steps that are meant to do so and in no others.
* `error_phase_iff`: an exchange that failed stays failed exactly as long as nothing
  acceptable is received after the error document. The context holds the document,
  but no step asks whether it does.
-/

namespace CrudeOAuth.Sasl

open Rust Machine

section

variable {Jwk Key : Type} (jose : Jose Jwk Key) (config : ServerConfig Key)

/-- The server: an input is labelled with what its step leaves behind. -/
def serverMachine (s : ServerState) (l : ServerInput × ServerResult) (s' : ServerState) : Prop :=
  l.2 = l.1.step jose config s ∧ s' = { ctx := l.2.ctx, oparams := l.2.oparams }

variable {jose config} in
theorem served_of_machine {s s' : ServerState} {l : ServerInput × ServerResult}
    (h : serverMachine jose config s l s') : Served jose config l.1 s l.2 := by
  rw [h.1]
  exact served_step l.1 s

/-! ## Safety -/

/-- The callback answers with `SASL_OK` or a negative code. -/
def Tame (canon : Option CanonUser) : Prop :=
  ∀ f, canon = some f → ∀ call, f call = saslOk ∨ f call < 0

/-- A step found in the state `s` and leaving behind `r` is safe. -/
structure SafeStep (s : ServerState) (i : ServerInput) (r : ServerResult) : Prop where
  /-- what it takes to accept -/
  accepts : r.rc = some saslOk → ∃ response u, i.Carries config response ∧
    config.verifier.verify jose i.now response.token = .ok u ∧
    CanonicalizedAs u response.authzid r.calls
  /-- the one-byte response ends an error exchange -/
  aborts : i.Aborts config → r.rc = some saslBadauth
  /-- the steps that mark the mechanism done -/
  done : r.rc = some saslOk ∨ i.Aborts config → r.oparams = s.oparams.finish
  /-- the steps that do not -/
  notDone : ¬(r.rc = some saslOk ∨ i.Aborts config) → r.oparams = s.oparams
  /-- which steps publish output -/
  output : r.out = if r.rc = some saslContinue then some (utf8 invalidTokenJson) else none
  /-- no step panics -/
  noPanic : r.rc ≠ none
  /-- no verified name contains a NUL: the code for one comes from the callback only -/
  nouser : r.rc = some saslNouser → ∃ call ∈ r.calls, call.2 = saslNouser

variable {jose config}

theorem safeStep_of_served {s : ServerState} {i : ServerInput} {r : ServerResult} (htame : Tame i.canon)
    (h : Served jose config i s r) : SafeStep jose config s i r := by
  have hcode : ∀ {rc : Int}, rc < 0 → rc ≠ saslOk ∧ rc ≠ saslContinue := by
    intro rc h
    constructor <;> rintro rfl <;> exact absurd h (by decide)
  cases h with
  | refused rc hrc hne habort =>
    obtain ⟨hok, hcont⟩ := hcode hrc
    constructor <;> simp [hok, hcont, hne, habort]
  | aborted habort =>
    constructor <;> simp [saslBadauth, saslOk, saslContinue, saslNouser, habort]
  | rejected response e habort =>
    constructor <;> simp [saslOk, saslContinue, saslNouser, habort]
  | canonRefused canon rc hrc habort calls hcanon hcall hanswers =>
    obtain ⟨call, hmem⟩ := hcall
    have hneg : rc < 0 := (hanswers _ hmem ▸ htame canon hcanon call).resolve_left hrc
    obtain ⟨hok, hcont⟩ := hcode hneg
    refine ⟨?_, ?_, ?_, ?_, ?_, ?_, fun h => ⟨_, hmem, Option.some.inj h⟩⟩ <;> simp [hok, hcont, habort]
  | accepted response u hcarries hverify canon calls hcanon hcalls =>
    refine ⟨fun _ => ⟨response, u, hcarries, hverify, hcalls⟩, fun habort => ?_, ?_, ?_, ?_, ?_, ?_⟩
    · exact absurd habort.2 hcarries.ne_abort
    all_goals simp [saslOk, saslContinue, saslNouser]

/-- In every run, each step is safe. -/
theorem server_safe {s s' : ServerState} {tr : List (Taken ServerState (ServerInput × ServerResult))}
    (hrun : Run (serverMachine jose config) s tr s') (htame : ∀ t ∈ tr, Tame t.label.1.canon) :
    ∀ t ∈ tr, SafeStep jose config t.before t.label.1 t.label.2 :=
  fun t ht => safeStep_of_served (htame t ht) (served_of_machine (hrun.step_of_mem ht))

end

/-! ## A connection -/

namespace Fixture

/-- A server that requires TLS. -/
def config : ServerConfig (String × String) where
  tlsRequired := true
  verifier := CrudeOAuth.Fixture.verifier

/-- The services on a connection secured by TLS, without callbacks. -/
def utils : Utils where
  getopt := none
  getprop := some (saslOk, some 256)
  getcallback := none
  malloc := none

/-- The output parameters before the first step. -/
def oparams : OutParams := ⟨0, 0, 0, 0, 0, 0, 0, 0⟩

def initial : ServerState := ⟨.new, oparams⟩

/-- The input of a client with a token, where every name is accepted. -/
def input (authzid : Option String) (token : String) : ServerInput where
  now := some 1000
  utils := utils
  input := buildClientResponse authzid token
  canon := some fun _ => saslOk

/-- The run for some inputs. -/
def serve : ServerState → List ServerInput → List (Taken ServerState (ServerInput × ServerResult))
  | _, [] => []
  | s, i :: is =>
    let r := i.step CrudeOAuth.Fixture.jose config s
    ⟨s, (i, r), ⟨r.ctx, r.oparams⟩⟩ :: serve ⟨r.ctx, r.oparams⟩ is

theorem run_serve (s : ServerState) (is : List ServerInput) :
    ∃ s', Run (serverMachine CrudeOAuth.Fixture.jose config) s (serve s is) s' := by
  induction is generalizing s with
  | nil => exact ⟨s, .nil⟩
  | cons i is ih =>
    obtain ⟨s', h⟩ := ih ⟨(i.step CrudeOAuth.Fixture.jose config s).ctx, _⟩
    exact ⟨s', .cons ⟨rfl, rfl⟩ h⟩

end Fixture

/-- A verified token with an authorization identity. -/
theorem server_safe_fixture :
    ∃ calls, CanonicalizedAs "administrator" (some "a,b") calls ∧
      (Fixture.input (some "a,b") CrudeOAuth.Fixture.token).Carries Fixture.config
        { authzid := some "a,b", token := CrudeOAuth.Fixture.token } := by
  obtain ⟨s', hrun⟩ := Fixture.run_serve Fixture.initial [Fixture.input (some "a,b") CrudeOAuth.Fixture.token]
  have hsafe := server_safe hrun (by
    intro t ht
    rw [List.mem_singleton.1 ht]
    rintro _ ⟨⟩ call
    exact .inl rfl) _ (List.mem_singleton_self _)
  obtain ⟨response, u, hcarries, hverify, hcalls⟩ := hsafe.accepts (by decide +kernel)
  have hparse : parseClientResponse (buildClientResponse (some "a,b") CrudeOAuth.Fixture.token) =
      .ok { authzid := some "a,b", token := CrudeOAuth.Fixture.token } := by decide +kernel
  obtain rfl := Outcome.ok.inj (hcarries.parse.symm.trans hparse)
  obtain rfl := Except.ok.inj (hverify.symm.trans CrudeOAuth.Fixture.verify_token)
  exact ⟨_, hcalls, hcarries⟩

/-! ## The error phase -/

/-- The step answers a rejected token with the error document. -/
def ServerResult.Rejects (r : ServerResult) : Prop :=
  r.rc = some saslContinue ∧ r.out = some (utf8 invalidTokenJson)

/-- The error document has been sent. -/
def ServerState.ErrorPhase (s : ServerState) : Prop := s.ctx.serverOut ≠ none

/-- The input is a client response with a token that the verifier accepts, for names that
    `canon_user` accepts. -/
def ServerInput.Acceptable {Jwk Key : Type} (jose : Jose Jwk Key) (config : ServerConfig Key)
    (i : ServerInput) : Prop :=
  ∃ response u canon calls, i.Carries config response ∧
    config.verifier.verify jose i.now response.token = .ok u ∧ i.canon = some canon ∧
    CanonicalizedAs u response.authzid calls ∧ ∀ c ∈ calls, canon c.1 = c.2

/-- After the error document no step accepts, and only the one-byte response finishes the
    exchange. -/
def StaysFailed (tr : List (Taken ServerState (ServerInput × ServerResult))) : Prop :=
  ∀ pre t post, tr = pre ++ t :: post → t.label.2.Rejects → ∀ t' ∈ post,
    t'.label.2.rc ≠ some saslOk ∧ (t'.label.2.oparams = t'.before.oparams ∨
      t'.label.2.rc = some saslBadauth ∧ t'.label.1.input = [0x01])

section

variable {Jwk Key : Type} {jose : Jose Jwk Key} {config : ServerConfig Key} {s s' : ServerState} {i : ServerInput} {r : ServerResult}

theorem acceptable_of_served (h : Served jose config i s r) (hrc : r.rc = some saslOk) :
    i.Acceptable jose config := by
  cases h with
  | accepted response u hcarries hverify canon calls hcanon hcalls hanswers =>
    exact ⟨response, u, canon, calls, hcarries, hverify, hcanon, hcalls, hanswers⟩
  | refused rc hneg =>
    obtain rfl := Option.some.inj hrc
    exact absurd hneg (by decide)
  | canonRefused canon rc hne => exact absurd (Option.some.inj hrc) hne
  | aborted | rejected => exact absurd (Option.some.inj hrc) (by decide)

theorem finishes_of_served (h : Served jose config i s r) (hrc : r.rc ≠ some saslOk) :
    r.oparams = s.oparams ∨ r.rc = some saslBadauth ∧ i.input = [0x01] := by
  cases h with
  | aborted habort => exact .inr ⟨rfl, habort.2⟩
  | accepted => exact absurd rfl hrc
  | refused | rejected | canonRefused => exact .inl rfl

/-- The error phase is entered in the steps that reject, -/
theorem errorPhase_of_rejects (h : serverMachine jose config s (i, r) s') (hr : r.Rejects) : s'.ErrorPhase := by
  have hserved : Served jose config i s r := served_of_machine h
  rw [h.2]
  cases hserved with
  | rejected => exact Option.some_ne_none _
  | refused | aborted | canonRefused | accepted => exact absurd hr.2 (Option.some_ne_none _).symm

/-- in no others, -/
theorem rejects_of_errorPhase (h : serverMachine jose config s (i, r) s') (hs : ¬s.ErrorPhase)
    (hs' : s'.ErrorPhase) : r.Rejects := by
  have hserved : Served jose config i s r := served_of_machine h
  rw [h.2] at hs'
  cases hserved with
  | rejected => exact ⟨rfl, rfl⟩
  | refused | aborted | canonRefused | accepted => exact absurd hs' hs

/-- and never left. -/
theorem errorPhase_step {l : ServerInput × ServerResult} (h : serverMachine jose config s l s')
    (hs : s.ErrorPhase) : s'.ErrorPhase := by
  obtain ⟨i, r⟩ := l
  have hserved : Served jose config i s r := served_of_machine h
  rw [h.2]
  cases hserved with
  | rejected => exact Option.some_ne_none _
  | refused | aborted | canonRefused | accepted => exact hs

/-- In a run of a new connection, a failed exchange stays failed exactly if no input of the
    error phase is acceptable. -/
theorem error_phase_iff {op : OutParams} {tr : List (Taken ServerState (ServerInput × ServerResult))}
    (hrun : Run (serverMachine jose config) ⟨.new, op⟩ tr s') :
    StaysFailed tr ↔ ∀ t ∈ tr, t.before.ErrorPhase → ¬t.label.1.Acceptable jose config := by
  constructor
  · rintro hfailed t ht hphase ⟨response, u, canon, calls, hcarries, hverify, hcanon, hcalls, hanswers⟩
    obtain ⟨before, after, rfl⟩ := List.append_of_mem ht
    obtain ⟨hbefore, hstep, -⟩ := hrun.of_append_cons
    -- The error phase was entered by an earlier step, which rejected a token.
    have hnew : ¬(⟨.new, op⟩ : ServerState).ErrorPhase := fun h => h rfl
    obtain ⟨pre, t0, post, rfl, hno, hyes⟩ := hbefore.exists_turn hnew hphase
    have hrejects := rejects_of_errorPhase (hbefore.of_append_cons).2.1 hno hyes
    refine (hfailed pre t0 (post ++ t :: after) (by simp) hrejects t (by simp)).1 ?_
    rw [hstep.1, step_accepted hcarries hverify hcanon hcalls hanswers]
  · intro hcond pre t post htr hrejects t' ht'
    subst htr
    have hphase := hrun.forall_after (fun _ _ _ h => errorPhase_step h)
      (errorPhase_of_rejects hrun.of_append_cons.2.1 hrejects) t' ht'
    have hmem : t' ∈ pre ++ t :: post := List.mem_append_right _ (List.mem_cons_of_mem _ ht')
    have hserved := served_of_machine (hrun.step_of_mem hmem)
    have hrc := fun h => hcond t' hmem hphase (acceptable_of_served hserved h)
    exact ⟨hrc, finishes_of_served hserved hrc⟩

end

/-- A rejected token is followed by an accepted one on the same connection. -/
theorem error_phase_counterexample :
    ∃ tr s', Run (serverMachine CrudeOAuth.Fixture.jose Fixture.config) Fixture.initial tr s' ∧
      ¬StaysFailed tr := by
  obtain ⟨s', hrun⟩ := Fixture.run_serve Fixture.initial
    [Fixture.input none "revoked", Fixture.input none CrudeOAuth.Fixture.token]
  refine ⟨_, s', hrun, fun h => ?_⟩
  exact (h [] _ [_] rfl ⟨by decide +kernel, by decide +kernel⟩ _ (List.mem_singleton_self _)).1
    (by decide +kernel)

/-- A rejected token is followed by the one-byte response. -/
theorem error_phase_iff_fixture :
    ∃ tr s', Run (serverMachine CrudeOAuth.Fixture.jose Fixture.config) Fixture.initial tr s' ∧
      StaysFailed tr := by
  obtain ⟨s', hrun⟩ := Fixture.run_serve Fixture.initial
    [Fixture.input none "revoked", { Fixture.input none "" with input := [0x01] }]
  refine ⟨_, s', hrun, (error_phase_iff hrun).2 ?_⟩
  rintro t ht hphase ⟨response, u, canon, calls, hcarries, -⟩
  rcases List.mem_cons.1 ht with rfl | ht
  · exact hphase rfl
  · obtain rfl := List.mem_singleton.1 ht
    exact hcarries.ne_abort rfl

end CrudeOAuth.Sasl
