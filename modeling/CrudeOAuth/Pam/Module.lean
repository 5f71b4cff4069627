import CrudeOAuth.Pam.Isolation
import CrudeOAuth.Pam.Plain

/-!
# Authentications by many threads

The module as a whole: any number of threads are in calls of `pam_sm_authenticate`, each of
which makes a call of `cache::config`, gathers the user and the token (`PamHandle.gather`),
makes a call of `Config::verifier`, and judges the token (`judge`). In between, the caches
take their steps, files change and time goes on.

A run of the module is one of the caches as well (`run_caches`), so what holds in all runs
of the caches holds of what an authentication is answered (`Got`). What a thread has come to
is known from that (`came_of_run`).
-/

namespace CrudeOAuth.Pam

open Rust Machine

variable {Jwk Key : Type}

/-! ## Parts of an authentication -/

/-- What `authenticate` does between its calls of the cache: it ends with a code, or goes on with
    the user and the token. -/
def PamHandle.gather (pam : PamHandle) (args : PamArgs) : Except Int (CString × String) :=
  if !(pam.rhostAllowed args.onlyFrom).1 then .error pamIgnore
  else
  match pam.user with
  | .error rc => .error (if rc = pamSuccess then pamAuthErr else rc)
  | .ok user =>
  match accountExists pam user with
  | .error rc => .error rc
  | .ok _ =>
  match pam.token.1 with
  | .error rc => .error rc
  | .ok token => .ok (user, token)

/-- What `authenticate` does with what it is answered when it asks for the verifier. -/
def judge (jose : Jose Jwk Key) (now : Option UInt64) (user : CString) (token : String)
    (answer : Except CacheError (JwtVerifier Key)) : Int :=
  match answer with
  | .error (.build _) => pamSystemErr
  | .error _ => pamOpenErr
  | .ok verifier =>
  match verifier.verify jose now token with
  | .error _ => pamAuthErr
  | .ok oauthUser => if utf8 oauthUser ≠ user.bytes then pamAuthErr else pamSuccess

section

variable {jose : Jose Jwk Key} {now : Option UInt64} {pam : PamHandle} {raw : List String}

theorem authenticate_of_gather_error {config : Config raw Key} {rc : Int}
    (h : pam.gather config.args = .error rc) : (authenticate jose now pam (.ok config)).rc = some rc := by
  cases hallowed : (pam.rhostAllowed config.args.onlyFrom).1 with
  | false =>
    obtain rfl : pamIgnore = rc := by simpa [PamHandle.gather, hallowed] using h
    simp [authenticate, hallowed]
  | true =>
    cases huser : pam.user with
    | error rc' =>
      obtain rfl : (if rc' = pamSuccess then pamAuthErr else rc') = rc := by
        simpa [PamHandle.gather, hallowed, huser] using h
      simp [authenticate, hallowed, huser]
    | ok user =>
      cases haccount : accountExists pam user with
      | error rc' =>
        obtain rfl : rc' = rc := by simpa [PamHandle.gather, hallowed, huser, haccount] using h
        simp [authenticate, hallowed, huser, haccount]
      | ok found =>
        cases htoken : pam.token.1 with
        | error rc' =>
          obtain rfl : rc' = rc := by simpa [PamHandle.gather, hallowed, huser, haccount, htoken] using h
          simp [authenticate, hallowed, huser, haccount, htoken]
        | ok token => simp [PamHandle.gather, hallowed, huser, haccount, htoken] at h

theorem PamHandle.gather_eq_ok {args : PamArgs} {user : CString} {token : String}
    (h : pam.gather args = .ok (user, token)) : (pam.rhostAllowed args.onlyFrom).1 = true ∧ pam.user = .ok user ∧
      (∃ found, accountExists pam user = .ok found) ∧ pam.token.1 = .ok token := by
  cases hallowed : (pam.rhostAllowed args.onlyFrom).1 with
  | false => simp [PamHandle.gather, hallowed] at h
  | true =>
    cases huser : pam.user with
    | error rc => simp [PamHandle.gather, hallowed, huser] at h
    | ok user' =>
      cases haccount : accountExists pam user' with
      | error rc => simp [PamHandle.gather, hallowed, huser, haccount] at h
      | ok found =>
        cases htoken : pam.token.1 with
        | error rc => simp [PamHandle.gather, hallowed, huser, haccount, htoken] at h
        | ok token' =>
          obtain ⟨rfl, rfl⟩ : user' = user ∧ token' = token := by
            simpa [PamHandle.gather, hallowed, huser, haccount, htoken] using h
          exact ⟨rfl, rfl, ⟨found, haccount⟩, rfl⟩

theorem authenticate_of_gather_ok {config : Config raw Key} {user : CString} {token : String}
    (h : pam.gather config.args = .ok (user, token)) :
    (authenticate jose now pam (.ok config)).rc = some (judge jose now user token config.verifier) := by
  obtain ⟨hallowed, huser, ⟨found, haccount⟩, htoken⟩ := PamHandle.gather_eq_ok h
  rcases hverifier : config.verifier with (_ | _ | _) | verifier
  · simp [authenticate, judge, hallowed, huser, haccount, htoken, hverifier]
  · simp [authenticate, judge, hallowed, huser, haccount, htoken, hverifier]
  · simp [authenticate, judge, hallowed, huser, haccount, htoken, hverifier]
  · cases hverify : verifier.verify jose now token with
    | error e => simp [authenticate, judge, hallowed, huser, haccount, htoken, hverifier, hverify]
    | ok u =>
      by_cases hname : utf8 u = user.bytes <;>
        simp [authenticate, judge, hallowed, huser, haccount, htoken, hverifier, hverify, hname]

end

/-! ## Steps -/

/-- What a call of `cache::config` returns. -/
def returnedConfig : Result Stamp CallError (CacheValue Key) → Outcome PamError ConfigRef
  | .hit { serial, value := .config args, .. } _ | .made { serial, value := .config args, .. } => .ok { serial, args }
  | .failed (.config e) => .err e
  -- A call of the other kind returns the others.
  | .hit _ _ | .made _ | .failed _ | .panicked => .panic

/-- What a call of `Config::verifier` returns; none if it panics. -/
def returnedVerifier : Result Stamp CallError (CacheValue Key) → Option (Except CacheError (JwtVerifier Key))
  | .hit { value := .verifier verifier, .. } _ | .made { value := .verifier verifier, .. } => some (.ok verifier)
  | .failed (.verifier e) => some (.error e)
  | .hit _ _ | .made _ | .failed _ | .panicked => none

/-- What `authenticate` does with what `cache::config` returns: it ends with a code, or panics, or
    goes on to ask for the verifier of the configuration. -/
def PamHandle.prepare (pam : PamHandle) (config : Outcome PamError ConfigRef) :
    Except (Option Int) (ConfigRef × CString × String) :=
  match config with
  | .panic => .error none
  | .err _ => .error (some pamSystemErr)
  | .ok config =>
    match pam.gather config.args with
    | .error rc => .error (some rc)
    | .ok (user, token) => .ok (config, user, token)

/-- How far a thread has come with `authenticate`. -/
inductive Stage
  | idle
  | configuring (pam : PamHandle) (raw : List String)
  | verifying (pam : PamHandle) (raw : List String) (config : ConfigRef) (user : CString) (token : String)
  /-- it has returned the code, or has panicked -/
  | done (pam : PamHandle) (raw : List String) (rc : Option Int)

/-- The thread may be called. -/
def Stage.free : Stage → Bool
  | .idle | .done _ _ _ => true
  | .configuring _ _ | .verifying _ _ _ _ _ => false

structure Module (Key : Type) where
  caches : State Key
  stages : Nat → Stage

inductive ModuleLabel
  /-- the thread is called, with the arguments of the stack -/
  | call (tid : Nat) (pam : PamHandle) (raw : List String)
  /-- a step of the caches, of a file or of the clock -/
  | cache (label : Label CacheKey)
  /-- the thread goes on after its call of the cache -/
  | resume (tid : Nat)

/-- What `SystemTime::now` says, in seconds. -/
def State.now (s : State Key) : Option UInt64 := some (UInt64.ofNat (s.clock / 10 ^ 9))

namespace Module

/-- No thread was called yet. -/
def initial (fs : FileSystem) (clock : Nat) : Module Key where
  caches := .initial fs clock
  stages := fun _ => .idle

def setStage (m : Module Key) (tid : Nat) (stage : Stage) : Module Key :=
  { m with stages := Function.update m.stages tid stage }

/-- A step of the caches. -/
def withCaches (jose : Jose Jwk Key) (tick : Nat) (m : Module Key) (label : Label CacheKey) : Option (Module Key) :=
  ((cache jose).step tick m.caches label).map fun caches => { m with caches }

def step (jose : Jose Jwk Key) (tick : Nat) (m : Module Key) : ModuleLabel → Option (Module Key)
  | .call tid pam raw =>
    if (m.stages tid).free then
      (m.withCaches jose tick (.thread tid (.call (.config raw)))).map (·.setStage tid (.configuring pam raw))
    else none
  | .cache (.thread _ (.call _)) => none
  | .cache label => m.withCaches jose tick label
  | .resume tid =>
    match m.stages tid, m.caches.threads tid with
    | .configuring pam raw, .done _ result =>
      match pam.prepare (returnedConfig result) with
      | .error rc => some (m.setStage tid (.done pam raw rc))
      | .ok (config, user, token) =>
        (m.withCaches jose tick (.thread tid (.call (.verifier config)))).map
          (·.setStage tid (.verifying pam raw config user token))
    | .verifying pam raw _ user token, .done _ result =>
      let rc := (returnedVerifier result).map (judge jose m.caches.now user token)
      some (m.setStage tid (.done pam raw rc))
    | _, _ => none

/-- The steps of the module as a relation. -/
def Step (jose : Jose Jwk Key) (tick : Nat) (m : Module Key) (label : ModuleLabel) (m' : Module Key) : Prop :=
  m.step jose tick label = some m'

end Module

section

variable {jose : Jose Jwk Key} {now : Option UInt64} {pam : PamHandle} {raw : List String}

theorem PamHandle.prepare_eq_ok {config : Outcome PamError ConfigRef} {prepared : ConfigRef × CString × String} :
    pam.prepare config = .ok prepared ↔ config = .ok prepared.1 ∧ pam.gather prepared.1.args = .ok prepared.2 := by
  unfold PamHandle.prepare
  split
  · simp
  · simp
  · rename_i ref
    obtain ⟨ref', user, token⟩ := prepared
    split
    · rename_i rc hgather
      refine iff_of_false (by simp) ?_
      rintro ⟨hok, hgather'⟩
      obtain rfl := Outcome.ok.inj hok
      rw [hgather] at hgather'
      cases hgather'
    · rename_i user' token' hgather
      constructor
      · rintro ⟨⟩
        exact ⟨rfl, hgather⟩
      · rintro ⟨hok, hgather'⟩
        obtain rfl := Outcome.ok.inj hok
        obtain ⟨rfl, rfl⟩ := Prod.mk.inj (Except.ok.inj (hgather.symm.trans hgather'))
        rfl

/-- An authentication that ends without a verifier ends as it would with any. -/
theorem authenticate_of_prepare_error {ref : Outcome PamError ConfigRef} {rc : Option Int}
    (h : pam.prepare ref = .error rc) {config : Outcome PamError (Config raw Key)}
    (hargs : Config.args <$> config = ConfigRef.args <$> ref) : (authenticate jose now pam config).rc = rc := by
  unfold PamHandle.prepare at h
  split at h
  · cases config with
    | panic => exact Except.error.inj h
    | ok | err => cases hargs
  · cases config with
    | err => exact Except.error.inj h
    | ok | panic => cases hargs
  · rename_i ref
    cases config with
    | err | panic => cases hargs
    | ok config =>
      obtain hargs : config.args = ref.args := Outcome.ok.inj hargs
      split at h
      · rename_i rc' hgather
        rw [authenticate_of_gather_error (hargs ▸ hgather)]
        exact Except.error.inj h
      · cases h

/-- With options an authentication asks for no verifier only if it stops before. -/
theorem gather_of_prepare_error {ref : Outcome PamError ConfigRef} {rc : Option Int} (h : pam.prepare ref = .error rc)
    {args : PamArgs} (hargs : .ok args = ConfigRef.args <$> ref) : ∃ code, pam.gather args = .error code := by
  cases ref with
  | err | panic => cases hargs
  | ok ref =>
    obtain rfl : args = ref.args := Outcome.ok.inj hargs
    cases hgather : pam.gather ref.args with
    | error code => exact ⟨code, rfl⟩
    | ok prepared =>
      have hok : pam.prepare (.ok ref) = .ok (ref, prepared) := PamHandle.prepare_eq_ok.2 ⟨rfl, hgather⟩
      cases hok.symm.trans h

end

/-! ## What a step changes -/

/-- What a step of the module may be. -/
inductive Module.Moves (jose : Jose Jwk Key) (tick : Nat) (m : Module Key) : ModuleLabel → Module Key → Prop
  | call {tid pam raw caches} (hfree : (m.stages tid).free = true)
    (h : (cache jose).Step tick m.caches (.thread tid (.call (.config raw))) caches) :
    Moves jose tick m (.call tid pam raw) ({ m with caches }.setStage tid (.configuring pam raw))
  | cache {label caches} (hcall : ∀ tid key, label ≠ .thread tid (.call key))
    (h : (cache jose).Step tick m.caches label caches) : Moves jose tick m (.cache label) { m with caches }
  | ask {tid pam raw key result config user token caches} (hstage : m.stages tid = .configuring pam raw)
    (hdone : m.caches.threads tid = .done key result)
    (hprepare : pam.prepare (returnedConfig result) = .ok (config, user, token))
    (h : (cache jose).Step tick m.caches (.thread tid (.call (.verifier config))) caches) :
    Moves jose tick m (.resume tid) ({ m with caches }.setStage tid (.verifying pam raw config user token))
  | refuse {tid pam raw key result rc} (hstage : m.stages tid = .configuring pam raw)
    (hdone : m.caches.threads tid = .done key result) (hprepare : pam.prepare (returnedConfig result) = .error rc) :
    Moves jose tick m (.resume tid) (m.setStage tid (.done pam raw rc))
  | judge {tid pam raw config user token key result} (hstage : m.stages tid = .verifying pam raw config user token)
    (hdone : m.caches.threads tid = .done key result) :
    Moves jose tick m (.resume tid)
      (m.setStage tid (.done pam raw ((returnedVerifier result).map (judge jose m.caches.now user token))))

variable {jose : Jose Jwk Key} {tick : Nat} {m m' : Module Key} {label : ModuleLabel}

theorem withCaches_eq_some {l : Label CacheKey} :
    m.withCaches jose tick l = some m' ↔ ∃ caches, (cache jose).Step tick m.caches l caches ∧ { m with caches } = m' :=
  Option.map_eq_some_iff

theorem module_moves (h : m.Step jose tick label m') : m.Moves jose tick label m' := by
  unfold Module.Step Module.step at h
  split at h
  · split at h
    · rename_i hfree
      obtain ⟨m₁, hm₁, rfl⟩ := Option.map_eq_some_iff.1 h
      obtain ⟨caches, hcaches, rfl⟩ := withCaches_eq_some.1 hm₁
      exact .call hfree hcaches
    · cases h
  · cases h
  · rename_i label hcall
    obtain ⟨caches, hcaches, rfl⟩ := withCaches_eq_some.1 h
    exact .cache hcall hcaches
  · split at h
    · rename_i pam raw key result hstage hdone
      split at h
      · rename_i rc hprepare
        obtain rfl := Option.some.inj h
        exact .refuse hstage hdone hprepare
      · rename_i config user token hprepare
        obtain ⟨m₁, hm₁, rfl⟩ := Option.map_eq_some_iff.1 h
        obtain ⟨caches, hcaches, rfl⟩ := withCaches_eq_some.1 hm₁
        exact .ask hstage hdone hprepare hcaches
    · rename_i pam raw config user token key result hstage hdone
      obtain rfl := Option.some.inj h
      exact .judge hstage hdone
    · cases h

/-! ## The caches in a run -/

/-- The steps of a run of the module. -/
abbrev ModuleHistory (Key : Type) := List (Taken (Module Key) ModuleLabel)

/-- The step of the caches that a step of the module makes. -/
def cacheLabel (t : Taken (Module Key) ModuleLabel) : Option (Label CacheKey) :=
  match t.label with
  | .call tid _ raw => some (.thread tid (.call (.config raw)))
  | .cache label => some label
  | .resume tid =>
    match t.after.stages tid with
    | .verifying _ _ config _ _ => some (.thread tid (.call (.verifier config)))
    | _ => none

def cacheHistory (tr : ModuleHistory Key) : PamHistory Key := tr.filterMap (Taken.project Module.caches cacheLabel)

/-- The step calls the thread. -/
def callsThread (tid : Nat) (t : Taken (Module Key) ModuleLabel) : Bool :=
  match t.label with
  | .call tid' _ _ => tid' = tid
  | _ => false

/-- The steps since the thread was called last. -/
abbrev lastAuthentication (tid : Nat) (tr : ModuleHistory Key) : ModuleHistory Key := since (callsThread tid) tr

/-- What happens to the caches and the files in these steps. -/
abbrev during (tid : Nat) (tr : ModuleHistory Key) : PamHistory Key := cacheHistory (lastAuthentication tid tr)

variable {fs : FileSystem} {clock : Nat} {tr pre post : ModuleHistory Key} {tid : Nat}

@[simp] theorem setStage_stages (stage : Stage) (tid' : Nat) :
    (m.setStage tid stage).stages tid' = if tid' = tid then stage else m.stages tid' :=
  Function.update_apply _ _ _ _

@[simp] theorem setStage_caches (stage : Stage) : (m.setStage tid stage).caches = m.caches := rfl

theorem cacheHistory_append : cacheHistory (pre ++ post) = cacheHistory pre ++ cacheHistory post :=
  List.filterMap_append

/-- A step of the module is one of the caches, or leaves them as they are. -/
theorem caches_of_step (h : m.Step jose tick label m') :
    (∀ l, cacheLabel ⟨m, label, m'⟩ = some l → (cache jose).Step tick m.caches l m'.caches) ∧
      (cacheLabel ⟨m, label, m'⟩ = none → m'.caches = m.caches) := by
  cases module_moves h with
  | call _ hcaches | cache _ hcaches =>
    refine ⟨fun l hl => ?_, fun hno => by cases hno⟩
    obtain rfl := Option.some.inj hl
    exact hcaches
  | ask _ _ _ hcaches =>
    simp only [cacheLabel, setStage_stages, if_pos]
    refine ⟨fun l hl => ?_, fun hno => by cases hno⟩
    obtain rfl := Option.some.inj hl
    exact hcaches
  | refuse | judge =>
    simp only [cacheLabel, setStage_stages, if_pos]
    exact ⟨fun l hl => (by cases hl), fun _ => rfl⟩

/-- A run of the module is a run of its caches. -/
theorem run_caches (hrun : Run (Module.Step jose tick) (.initial fs clock) tr m) :
    Run ((cache jose).Step tick) (.initial fs clock) (cacheHistory tr) m.caches :=
  hrun.project fun _ h => caches_of_step h

/-- A call of the thread makes a call of the cache. -/
theorem calls_of_callsThread {t : Taken (Module Key) ModuleLabel} (h : callsThread tid t = true) :
    ∃ raw, cacheLabel t = some (.thread tid (.call (.config raw))) := by
  unfold callsThread at h
  split at h
  · rename_i tid' pam raw ht
    obtain rfl := of_decide_eq_true h
    exact ⟨raw, by rw [cacheLabel, ht]⟩
  · cases h

/-- The last call of the cache was made during the authentication. -/
theorem lastCall_suffix (tid : Nat) (tr : ModuleHistory Key) : lastCall tid (cacheHistory tr) <:+ during tid tr := by
  induction tr using List.reverseRecOn with
  | nil => exact List.suffix_refl _
  | append_singleton tr t ih =>
    obtain ⟨more, hmore⟩ := ih
    rw [lastCall, during, lastAuthentication, cacheHistory_append, since_append]
    cases hlabel : cacheLabel t with
    | none =>
      have hnone : cacheHistory [t] = [] := by simp [cacheHistory, Taken.project, hlabel]
      rw [if_neg, cacheHistory_append, hnone, List.append_nil, List.append_nil]
      · exact ⟨more, hmore⟩
      · intro hcalls
        obtain ⟨raw, hcall⟩ := calls_of_callsThread hcalls
        rw [hlabel] at hcall
        cases hcall
    | some l =>
      have hone : cacheHistory [t] = [⟨t.before.caches, l, t.after.caches⟩] := by
        simp [cacheHistory, Taken.project, hlabel]
      rw [hone, since_append]
      split
      · -- The last step calls the cache.
        split
        · rw [hone]
        · rw [cacheHistory_append, hone]
          exact List.suffix_append _ _
      · rename_i hno
        rw [if_neg, cacheHistory_append, hone]
        · exact ⟨more, by rw [← List.append_assoc]; exact congrArg (· ++ _) hmore⟩
        · intro hcalls
          obtain ⟨raw, hcall⟩ := calls_of_callsThread hcalls
          rw [hlabel] at hcall
          obtain rfl := Option.some.inj hcall
          exact hno (calls_eq_true.2 ⟨_, rfl⟩)

/-! ## What the caches answer -/

section

variable {result : Result Stamp CallError (CacheValue Key)}

theorem returnedConfig_eq_ok {config : ConfigRef} : returnedConfig result = .ok config ↔
    ∃ entry, result.entry = some entry ∧ entry.serial = config.serial ∧ entry.value = .config config.args := by
  constructor
  · intro h
    unfold returnedConfig at h
    split at h <;> cases h
    · exact ⟨_, rfl, rfl, rfl⟩
    · exact ⟨_, rfl, rfl, rfl⟩
  · rintro ⟨⟨stamp, serial, value, origin⟩, hentry, hserial, hvalue⟩
    dsimp only at hserial hvalue
    subst hserial hvalue
    cases result <;> cases hentry <;> rfl

theorem returnedConfig_of_outcome {args : Outcome PamError PamArgs} (h : result.outcome = ofConfig .config args) :
    ConfigRef.args <$> returnedConfig result = args := by
  cases args with
  | ok args =>
    obtain ⟨entry, hentry, hvalue⟩ : ∃ entry, result.entry = some entry ∧ entry.value = .config args := by
      cases result with
      | hit entry | made entry => exact ⟨entry, rfl, Outcome.ok.inj h⟩
      | failed | panicked => cases h
    have hreturned : returnedConfig result = .ok { serial := entry.serial, args } :=
      returnedConfig_eq_ok.2 ⟨entry, hentry, rfl, hvalue⟩
    rw [hreturned]
    rfl
  | err e =>
    cases result with
    | failed e' =>
      obtain rfl := Outcome.err.inj h
      rfl
    | hit | made | panicked => cases h
  | panic =>
    cases result with
    | panicked => rfl
    | hit | made | failed => cases h

theorem returnedVerifier_eq_ok {verifier : JwtVerifier Key} : returnedVerifier result = some (.ok verifier) ↔
    ∃ entry, result.entry = some entry ∧ entry.value = .verifier verifier := by
  constructor
  · intro h
    unfold returnedVerifier at h
    split at h <;> cases h
    · exact ⟨_, rfl, rfl⟩
    · exact ⟨_, rfl, rfl⟩
  · rintro ⟨⟨stamp, serial, value, origin⟩, hentry, hvalue⟩
    dsimp only at hvalue
    subst hvalue
    cases result <;> cases hentry <;> rfl

theorem returnedVerifier_of_outcome {answer : Except CacheError (JwtVerifier Key)}
    (h : result.outcome = ofVerifier .verifier answer) : returnedVerifier result = some answer := by
  cases answer with
  | ok verifier =>
    cases result with
    | hit entry | made entry =>
      exact returnedVerifier_eq_ok.2 ⟨entry, rfl, Outcome.ok.inj h⟩
    | failed | panicked => cases h
  | error e =>
    cases result with
    | failed e' =>
      obtain rfl := Outcome.err.inj h
      rfl
    | hit | made | panicked => cases h

variable {s : State Key} {tr : PamHistory Key}

/-- A value that was returned is what was computed from an origin that was read. -/
theorem computes_of_done (hrun : Run ((cache jose).Step tick) (.initial fs clock) tr s) {key : CacheKey}
    (hdone : s.threads tid = .done key result) {entry : Entry Stamp (CacheValue Key)} (hentry : result.entry = some entry) :
    (cache jose).Computes key entry.origin entry.value ∧ OriginRead tr entry.origin := by
  have hholds : Holds s key entry := by
    cases result with
    | hit entry' seen =>
      obtain rfl := Option.some.inj hentry
      exact .inr ⟨tid, .inl ⟨seen, hdone⟩⟩
    | made entry' =>
      obtain rfl := Option.some.inj hentry
      exact .inr ⟨tid, .inr hdone⟩
    | failed | panicked => cases hentry
  exact ⟨(FileCache.sound_of_run hrun).1.of_holds hholds, (FileCache.traced_of_run hrun).of_holds hholds⟩

/-- A call for a verifier does not panic. -/
theorem exists_returnedVerifier (hrun : Run ((cache jose).Step tick) (.initial fs clock) tr s) {config : ConfigRef}
    (hdone : s.threads tid = .done (.verifier config) result) : ∃ answer, returnedVerifier result = some answer := by
  have hjudged := FileCache.records_of_run hrun tid
  rw [hdone] at hjudged
  have hvalue : ∀ entry, result.entry = some entry → ∃ answer, returnedVerifier result = some answer := by
    intro entry hentry
    obtain ⟨-, -, -, verifier, -, -, -, -, hvalue⟩ := computes_verifier (computes_of_done hrun hdone hentry).1
    exact ⟨_, returnedVerifier_eq_ok.2 ⟨entry, hentry, hvalue⟩⟩
  cases hjudged with
  | @found entry | @made entry => exact hvalue entry rfl
  | noPath hno h hfailed =>
    cases hsource : config.args.source with
    | ok source => exact absurd (congrArg (ofVerifier _) hsource) (hno _)
    | error e =>
      have houtcome := (h (.verifier e)).2 (congrArg (ofVerifier _) hsource)
      exact ⟨.error e, returnedVerifier_of_outcome houtcome⟩
  | faulted => exact ⟨_, rfl⟩
  | refused hpath h haccept => cases haccept
  | spoilt origin hpath haccept h hload hfailed =>
    cases origin with
    | none =>
      obtain ⟨source, -, hsome⟩ := ofVerifier_eq_ok.1 hpath
      cases hsome
    | some o => exact ⟨_, returnedVerifier_of_outcome hload⟩

end

/-! ## Authentications -/

/-- Since it was called last, the thread has been answered in the state `m`. -/
def Got (tr : ModuleHistory Key) (tid : Nat) (m : Module Key) (key : CacheKey)
    (result : Result Stamp CallError (CacheValue Key)) : Prop :=
  ∃ pre t post, tr = pre ++ t :: post ∧ t.before = m ∧ m.caches.threads tid = .done key result ∧
    ∀ t' ∈ t :: post, callsThread tid t' = false

/-- How an authentication has ended with the code, or in a panic. -/
inductive Ended (jose : Jose Jwk Key) (tr : ModuleHistory Key) (tid : Nat) (pam : PamHandle) (raw : List String) :
    Option Int → Prop
  | refused {m result rc} (hgot : Got tr tid m (.config raw) result)
    (hprepare : pam.prepare (returnedConfig result) = .error rc) : Ended jose tr tid pam raw rc
  | judged {m result config user token m' result'} (hgot : Got tr tid m (.config raw) result)
    (hprepare : pam.prepare (returnedConfig result) = .ok (config, user, token))
    (hgot' : Got tr tid m' (.verifier config) result') :
    Ended jose tr tid pam raw ((returnedVerifier result').map (judge jose m'.caches.now user token))

/-- How the thread has come to the stage. -/
def Came (jose : Jose Jwk Key) (tr : ModuleHistory Key) (m : Module Key) (tid : Nat) : Stage → Prop
  | .idle => True
  | .configuring _ raw => (m.caches.threads tid).key = some (.config raw)
  | .verifying pam raw config user token => (m.caches.threads tid).key = some (.verifier config) ∧
    ∃ m' result, Got tr tid m' (.config raw) result ∧
      pam.prepare (returnedConfig result) = .ok (config, user, token)
  | .done pam raw rc => Ended jose tr tid pam raw rc

section

variable {m₁ : Module Key} {key : CacheKey} {result : Result Stamp CallError (CacheValue Key)}
  {t : Taken (Module Key) ModuleLabel} {stage : Stage}

theorem Got.append (h : Got tr tid m₁ key result) (hno : callsThread tid t = false) :
    Got (tr ++ [t]) tid m₁ key result := by
  obtain ⟨pre, t', post, rfl, hbefore, hdone, hcalls⟩ := h
  refine ⟨pre, t', post ++ [t], by simp, hbefore, hdone, ?_⟩
  rw [← List.cons_append]
  exact List.forall_mem_append.2 ⟨hcalls, List.forall_mem_singleton.2 hno⟩

theorem got_now {label : ModuleLabel} {m' : Module Key} (hdone : m.caches.threads tid = .done key result)
    (hno : callsThread tid ⟨m, label, m'⟩ = false) : Got (tr ++ [⟨m, label, m'⟩]) tid m key result :=
  ⟨tr, _, [], rfl, rfl, hdone, List.forall_mem_singleton.2 hno⟩

theorem Ended.append {pam : PamHandle} {raw : List String} {rc : Option Int} (h : Ended jose tr tid pam raw rc)
    (hno : callsThread tid t = false) : Ended jose (tr ++ [t]) tid pam raw rc := by
  cases h with
  | refused hgot hprepare => exact .refused (hgot.append hno) hprepare
  | judged hgot hprepare hgot' => exact .judged (hgot.append hno) hprepare (hgot'.append hno)

/-- A thread that stays in its stage, and goes on with its key, has come there as before. -/
theorem Came.append (h : Came jose tr m tid stage) (hno : callsThread tid t = false)
    (hkey : ∀ key, (m.caches.threads tid).key = some key → (m'.caches.threads tid).key = some key) :
    Came jose (tr ++ [t]) m' tid stage := by
  cases stage with
  | idle => trivial
  | configuring pam raw => exact hkey _ h
  | verifying pam raw config user token =>
    obtain ⟨hold, m₁, result, hgot, hprepare⟩ := h
    exact ⟨hkey _ hold, m₁, result, hgot.append hno, hprepare⟩
  | done => exact Ended.append h hno

/-- A step of the caches leaves a thread with its key, if it does not call it. -/
theorem key_of_step {s s' : State Key} {l : Label CacheKey} (h : (cache jose).Step tick s l s')
    (hcall : ∀ key, l ≠ .thread tid (.call key)) (hkey : (s.threads tid).key = some key) :
    (s'.threads tid).key = some key := by
  by_cases hown : ∃ act, l = .thread tid act
  · obtain ⟨act, rfl⟩ := hown
    obtain ⟨phase, hnext, rfl⟩ := step_thread h
    rw [enter_threads, if_pos rfl]
    obtain ⟨key', hkey'⟩ := exists_key_of_next hnext
    rcases key_of_next hnext hkey' with rfl | hold
    · exact absurd rfl (hcall _)
    · rw [hkey', ← hold, hkey]
  · rwa [threads_of_step h fun act hact => hown ⟨act, hact⟩]

/-- A call sets the key of its thread. -/
theorem key_of_call {s s' : State Key} (h : (cache jose).Step tick s (.thread tid (.call key)) s') :
    (s'.threads tid).key = some key := by
  obtain ⟨phase, hnext, rfl⟩ := step_thread h
  rw [enter_threads, if_pos rfl, start_of_next hnext, key_start]

/-- In every run, every thread has come to its stage. -/
theorem came_of_run (hrun : Run (Module.Step jose tick) (.initial fs clock) tr m) (tid : Nat) :
    Came jose tr m tid (m.stages tid) := by
  refine hrun.history (P := fun tr m => Came jose tr m tid (m.stages tid)) ?_ fun tr m label m' hrun hm h => ?_
  · exact trivial
  -- A call of another thread neither calls this one nor touches its key.
  have hother : ∀ {tid' key s'}, tid ≠ tid' → (cache jose).Step tick m.caches (.thread tid' (.call key)) s' →
      ∀ key', (m.caches.threads tid).key = some key' → (s'.threads tid).key = some key' := by
    intro tid' key s' hne hcaches key'
    refine key_of_step hcaches ?_
    rintro key' hlabel
    cases hlabel
    exact hne rfl
  cases module_moves h with
  | @call tid' pam raw caches _ hcaches =>
    rw [setStage_stages]
    split
    · rename_i htid
      subst htid
      exact key_of_call hcaches
    · rename_i hne
      exact hm.append (by simpa [callsThread] using Ne.symm hne) (hother hne hcaches)
  | cache hcall hcaches => exact hm.append rfl fun key => key_of_step hcaches fun key => hcall tid key
  | @ask tid' pam raw key result config user token caches hstage hdone hprepare hcaches =>
    rw [setStage_stages]
    split
    · rename_i htid
      subst htid
      rw [hstage] at hm
      have hkey : (m.caches.threads tid).key = some (.config raw) := hm
      rw [hdone] at hkey
      obtain rfl := Option.some.inj hkey
      exact ⟨key_of_call hcaches, m, result, got_now hdone rfl, hprepare⟩
    · rename_i hne
      exact hm.append rfl (hother hne hcaches)
  | @refuse tid' pam raw key result rc hstage hdone hprepare =>
    rw [setStage_stages]
    split
    · rename_i htid
      subst htid
      rw [hstage] at hm
      have hkey : (m.caches.threads tid).key = some (.config raw) := hm
      rw [hdone] at hkey
      obtain rfl := Option.some.inj hkey
      exact .refused (got_now hdone rfl) hprepare
    · exact hm.append rfl fun key hkey => hkey
  | @judge tid' pam raw config user token key result hstage hdone =>
    rw [setStage_stages]
    split
    · rename_i htid
      subst htid
      rw [hstage] at hm
      obtain ⟨hkey, m₁, result₁, hgot, hprepare⟩ := hm
      rw [hdone] at hkey
      obtain rfl := Option.some.inj hkey
      exact .judged (hgot.append rfl) hprepare (got_now hdone rfl)
    · exact hm.append rfl fun key hkey => hkey

/-- An answer was returned in a run of the caches, by a call that the authentication made. -/
theorem Got.run (h : Got tr tid m₁ key result) (hrun : Run (Module.Step jose tick) (.initial fs clock) tr m) :
    ∃ pre, Run ((cache jose).Step tick) (.initial fs clock) pre m₁.caches ∧ m₁.caches.threads tid = .done key result ∧
      pre <+: cacheHistory tr ∧ lastCall tid pre <:+: during tid tr := by
  obtain ⟨pre, t, post, rfl, rfl, hdone, hcalls⟩ := h
  refine ⟨cacheHistory pre, run_caches hrun.of_append_cons.1, hdone, ?_, ?_⟩
  · rw [cacheHistory_append]
    exact List.prefix_append _ _
  · rw [during, lastAuthentication, since_append_of_forall pre hcalls, cacheHistory_append]
    exact (lastCall_suffix tid pre).isInfix.trans (List.prefix_append _ _).isInfix

theorem Got.mem (h : Got tr tid m₁ key result) : ∃ t ∈ lastAuthentication tid tr, t.before = m₁ := by
  obtain ⟨pre, t, post, rfl, hbefore, -, hcalls⟩ := h
  refine ⟨t, ?_, hbefore⟩
  rw [lastAuthentication, since_append_of_forall pre hcalls]
  exact List.mem_append_right _ List.mem_cons_self

end

end CrudeOAuth.Pam
