import CrudeOAuth.Core.Jwt.Verify
import CrudeOAuth.Core.Rfc7628.Grammar
import CrudeOAuth.Sasl.Config

/-!
# The server mechanism

One step of the OAUTHBEARER server (`sasl/src/server.rs`): the client response is
parsed, its token verified, and the names handed to `canon_user`.

Everything a step can do is listed by `Served`, and `served_step` says that it does
nothing else. What a step does for the inputs that matter most is computed by
`step_accepted`, `step_rejected` and `step_aborts`.
-/

namespace CrudeOAuth.Sasl

open Rust

variable {Jwk Key : Type}

def maxClientinLen : Nat := 65536

def invalidTokenJson : String := "\x7b\"status\":\"invalid_token\"\x7d"

structure ServerContext where
  serverOut : Option CString
  deriving DecidableEq, Repr

/-- The context of a new connection. -/
def ServerContext.new : ServerContext := { serverOut := none }

/-- What a step leaves behind: its return code, or `none` if it panics, and what it did
    with the output, the output parameters and the `canon_user` callback. -/
structure ServerResult where
  rc : Option Int
  ctx : ServerContext
  out : OutBuf
  oparams : OutParams
  calls : List (CanonCall × Int)
  deriving DecidableEq, Repr

/-- The TLS check, with the return code of its failure. -/
def checkTls (utils : Utils) (config : ServerConfig Key) : Except Int Unit :=
  if config.tlsRequired then
    match utils.externalSsf with
    | .error _ => .error saslBadparam
    | .ok ssf => if ssf < 256 then .error saslEncrypt else .ok ()
  else .ok ()

/-- Hands the names to `canon_user`, the authorization identity first. -/
def canonicalize (canon : CanonUser) (authcid : CString) (authzid : Option CString) :
    Int × List (CanonCall × Int) :=
  match authzid with
  | some authzid =>
    let call := canonCall authzid saslCuAuthzid
    let rc := canon call
    if rc ≠ saslOk then (rc, [(call, rc)])
    else
      let call' := canonCall authcid saslCuAuthid
      (canon call', [(call, rc), (call', canon call')])
  | none =>
    let call := canonCall authcid (saslCuAuthid ||| saslCuAuthzid)
    (canon call, [(call, canon call)])

def serverStep (jose : Jose Jwk Key) (now : Option UInt64) (utils : Utils) (config : ServerConfig Key)
    (ctx : ServerContext) (input : Bytes) (canon : Option CanonUser) (oparams : OutParams) : ServerResult :=
  let stop (rc : Option Int) : ServerResult := { rc, ctx, out := .cleared, oparams, calls := [] }
  let conclude (answer : Int × List (CanonCall × Int)) : ServerResult :=
    if answer.1 ≠ saslOk then { stop (some answer.1) with calls := answer.2 }
    else { stop (some saslOk) with calls := answer.2, oparams := oparams.finish }
  match checkTls utils config with
  | .error rc => stop (some rc)
  | .ok () =>
  if maxClientinLen < input.length then stop (some saslBadprot)
  -- The one-byte response completes an error exchange.
  else if input = [0x01] then { stop (some saslBadauth) with oparams := oparams.finish }
  else
  match parseClientResponse input with
  | .panic => stop none
  | .err _ => stop (some saslBadprot)
  | .ok response =>
  match config.verifier.verify jose now response.token with
  | .error _ =>
    let serverOut := CString.new (utf8 invalidTokenJson)
    { stop (some saslContinue) with
      ctx := { serverOut }
      out := (serverOut.map fun json => OutBuf.publish json.bytes).getD .cleared }
  | .ok authcid =>
  match canon with
  | none => stop (some saslFail)
  | some canon =>
  match CString.new (utf8 authcid) with
  | none => stop (some saslNouser)
  | some authcid =>
  match response.authzid.filter (· ≠ "") with
  | some authzid =>
    match CString.new (utf8 authzid) with
    | none => stop (some saslBadprot)
    | some authzid => conclude (canonicalize canon authcid (some authzid))
  | none => conclude (canonicalize canon authcid none)

/-! ## What a step can do -/

/-- The connection is as secure as the server requires. -/
def TlsMet (config : ServerConfig Key) (utils : Utils) : Prop :=
  config.tlsRequired = true → ∃ ssf, utils.externalSsf = .ok ssf ∧ 256 ≤ ssf

theorem checkTls_eq_ok {utils : Utils} {config : ServerConfig Key} :
    checkTls utils config = .ok () ↔ TlsMet config utils := by
  unfold checkTls TlsMet
  cases config.tlsRequired with
  | false => simp
  | true => cases utils.externalSsf <;> simp

theorem checkTls_eq_error {utils : Utils} {config : ServerConfig Key} {rc : Int}
    (h : checkTls utils config = .error rc) : rc = saslBadparam ∨ rc = saslEncrypt := by
  unfold checkTls at h
  split at h
  · split at h
    · cases h
      exact .inl rfl
    · split at h <;> cases h
      exact .inr rfl
  · cases h

/-- The calls of `canon_user` for the name `u` and an optional authorization identity, all
    of which succeed. -/
def CanonicalizedAs (u : String) (authzid : Option String) (calls : List (CanonCall × Int)) : Prop :=
  ∃ authcid : CString, authcid.bytes = utf8 u ∧
    match authzid.filter (· ≠ "") with
    | none => calls = [(canonCall authcid (saslCuAuthid ||| saslCuAuthzid), saslOk)]
    | some a => ∃ name : CString, name.bytes = utf8 a ∧
        calls = [(canonCall name saslCuAuthzid, saslOk), (canonCall authcid saslCuAuthid, saslOk)]

theorem CanonicalizedAs.names {u : String} {authzid : Option String} {calls : List (CanonCall × Int)}
    (h : CanonicalizedAs u authzid calls) : ∃ authcid : CString, authcid.bytes = utf8 u ∧
      ∃ name : Option CString, name.map CString.bytes = (authzid.filter (· ≠ "")).map utf8 := by
  obtain ⟨authcid, hu, h⟩ := h
  refine ⟨authcid, hu, ?_⟩
  cases ha : authzid.filter (· ≠ "") with
  | none => exact ⟨none, rfl⟩
  | some a =>
    rw [ha] at h
    obtain ⟨name, hname, -⟩ := h
    exact ⟨some name, congrArg some hname⟩

/-- What the framework gives to a step. -/
structure ServerInput where
  now : Option UInt64
  utils : Utils
  input : Bytes
  canon : Option CanonUser

/-- What a step finds, and the next one after it. -/
structure ServerState where
  ctx : ServerContext
  oparams : OutParams

variable (jose : Jose Jwk Key) (config : ServerConfig Key)

/-- The step for an input. -/
def ServerInput.step (i : ServerInput) (s : ServerState) : ServerResult :=
  serverStep jose i.now i.utils config s.ctx i.input i.canon s.oparams

/-- The input completes an error exchange. -/
def ServerInput.Aborts (i : ServerInput) : Prop := TlsMet config i.utils ∧ i.input = [0x01]

/-- The input is a client response with the token and the identity of `response`. -/
structure ServerInput.Carries (i : ServerInput) (response : ClientResponse) : Prop where
  tls : TlsMet config i.utils
  length : i.input.length ≤ maxClientinLen
  parse : parseClientResponse i.input = .ok response

/-- What a step can do. -/
inductive Served (i : ServerInput) (s : ServerState) : ServerResult → Prop
  | refused (rc : Int) (hrc : rc < 0) (hne : rc ≠ saslNouser) (habort : ¬i.Aborts config) :
    Served i s { rc := some rc, ctx := s.ctx, out := none, oparams := s.oparams, calls := [] }
  | aborted (habort : i.Aborts config) :
    Served i s
      { rc := some saslBadauth, ctx := s.ctx, out := none, oparams := s.oparams.finish, calls := [] }
  | rejected (response : ClientResponse) (e : OAuthError) (habort : ¬i.Aborts config)
    (hcarries : i.Carries config response)
    (hverify : config.verifier.verify jose i.now response.token = .error e) (json : CString)
    (hjson : json.bytes = utf8 invalidTokenJson) :
    Served i s
      { rc := some saslContinue, ctx := { serverOut := some json }, out := some (utf8 invalidTokenJson)
        oparams := s.oparams, calls := [] }
  | canonRefused (canon : CanonUser) (rc : Int) (hrc : rc ≠ saslOk) (habort : ¬i.Aborts config)
    (calls : List (CanonCall × Int)) (hcanon : i.canon = some canon) (hcall : ∃ call, (call, rc) ∈ calls)
    (hanswers : ∀ c ∈ calls, canon c.1 = c.2) :
    Served i s { rc := some rc, ctx := s.ctx, out := none, oparams := s.oparams, calls }
  | accepted (response : ClientResponse) (u : String) (hcarries : i.Carries config response)
    (hverify : config.verifier.verify jose i.now response.token = .ok u) (canon : CanonUser)
    (calls : List (CanonCall × Int)) (hcanon : i.canon = some canon)
    (hcalls : CanonicalizedAs u response.authzid calls) (hanswers : ∀ c ∈ calls, canon c.1 = c.2) :
    Served i s { rc := some saslOk, ctx := s.ctx, out := none, oparams := s.oparams.finish, calls }

theorem answers_of_canonicalize (canon : CanonUser) (authcid : CString) (authzid : Option CString) :
    ∀ c ∈ (canonicalize canon authcid authzid).2, canon c.1 = c.2 := by
  cases authzid with
  | none => simp [canonicalize]
  | some authzid =>
    rw [canonicalize]
    by_cases hrc : canon (canonCall authzid saslCuAuthzid) = saslOk <;> simp [hrc]

/-- The code that ends the calls is that of one of them. -/
theorem exists_call_of_canonicalize (canon : CanonUser) (authcid : CString) (authzid : Option CString) :
    ∃ call, (call, (canonicalize canon authcid authzid).1) ∈ (canonicalize canon authcid authzid).2 := by
  cases authzid with
  | none => exact ⟨_, List.mem_singleton_self _⟩
  | some authzid =>
    rw [canonicalize]
    by_cases hrc : canon (canonCall authzid saslCuAuthzid) = saslOk
    · simp only [hrc, ne_eq, not_true_eq_false, if_false]
      exact ⟨_, List.mem_cons_of_mem _ (List.mem_singleton_self _)⟩
    · simp only [ne_eq, hrc, not_false_eq_true, if_true]
      exact ⟨_, List.mem_singleton_self _⟩

/-! ## What a step does -/

variable {jose config} {i : ServerInput} {response : ClientResponse}

theorem ServerInput.Carries.ne_abort (h : i.Carries config response) : i.input ≠ [0x01] := fun hin => by
  have hparse := h.parse
  rw [hin] at hparse
  exact absurd hparse (by simp [show parseClientResponse [0x01] = .err .invalidGs2Header from rfl])

theorem step_aborts (h : i.Aborts config) (s : ServerState) :
    i.step jose config s =
      { rc := some saslBadauth, ctx := s.ctx, out := none, oparams := s.oparams.finish, calls := [] } := by
  have hlen : ¬maxClientinLen < i.input.length := by
    rw [h.2]
    decide
  simp only [ServerInput.step, serverStep, checkTls_eq_ok.2 h.1, if_neg hlen, if_pos h.2]
  rfl

theorem step_rejected (h : i.Carries config response) {e : OAuthError}
    (hverify : config.verifier.verify jose i.now response.token = .error e) (s : ServerState) :
    i.step jose config s =
      { rc := some saslContinue, ctx := { serverOut := CString.new (utf8 invalidTokenJson) }
        out := some (utf8 invalidTokenJson), oparams := s.oparams, calls := [] } := by
  simp only [ServerInput.step, serverStep, checkTls_eq_ok.2 h.tls, if_neg (Nat.not_lt.2 h.length),
    if_neg h.ne_abort, h.parse, hverify]
  rfl

/-- The step for a client response whose token is accepted, for names without NULs. -/
theorem step_verified (h : i.Carries config response) {u : String}
    (hverify : config.verifier.verify jose i.now response.token = .ok u) {canon : CanonUser}
    (hcanon : i.canon = some canon) {authcid : CString} (hu : authcid.bytes = utf8 u)
    {name : Option CString} (hname : name.map CString.bytes = (response.authzid.filter (· ≠ "")).map utf8)
    (s : ServerState) :
    i.step jose config s =
      if (canonicalize canon authcid name).1 ≠ saslOk then
        { rc := some (canonicalize canon authcid name).1, ctx := s.ctx, out := none, oparams := s.oparams
          calls := (canonicalize canon authcid name).2 }
      else
        { rc := some saslOk, ctx := s.ctx, out := none, oparams := s.oparams.finish
          calls := (canonicalize canon authcid name).2 } := by
  simp only [ServerInput.step, serverStep, checkTls_eq_ok.2 h.tls, if_neg (Nat.not_lt.2 h.length),
    if_neg h.ne_abort, h.parse, hverify, hcanon, CString.new_eq_some.2 hu]
  cases ha : response.authzid.filter (· ≠ "") with
  | none =>
    rw [ha] at hname
    obtain rfl := Option.map_eq_none_iff.1 hname
    rfl
  | some a =>
    rw [ha] at hname
    obtain ⟨name, rfl, hbytes⟩ := Option.map_eq_some_iff.1 hname
    simp only [CString.new_eq_some.2 hbytes]
    rfl

/-- The calls for a name are made until one fails. -/
theorem calls_of_canonicalize {u : String} {authzid : Option String} {authcid : CString}
    (hu : authcid.bytes = utf8 u) {name : Option CString}
    (hname : name.map CString.bytes = (authzid.filter (· ≠ "")).map utf8) (canon : CanonUser) :
    ∃ calls, CanonicalizedAs u authzid calls ∧
      (canonicalize canon authcid name).2.map Prod.fst <+: calls.map Prod.fst ∧
      (canonicalize canon authcid name).2 ≠ [] ∧
      ((∀ c ∈ calls, canon c.1 = c.2) → canonicalize canon authcid name = (saslOk, calls)) := by
  cases ha : authzid.filter (· ≠ "") with
  | none =>
    rw [ha] at hname
    obtain rfl := Option.map_eq_none_iff.1 hname
    refine ⟨[(canonCall authcid (saslCuAuthid ||| saslCuAuthzid), saslOk)], ⟨authcid, hu, by rw [ha]⟩,
      by simp [canonicalize], by simp [canonicalize], fun hok => ?_⟩
    simp [canonicalize, hok _ (List.mem_singleton_self _)]
  | some a =>
    rw [ha] at hname
    obtain ⟨name, rfl, hbytes⟩ := Option.map_eq_some_iff.1 hname
    refine ⟨[(canonCall name saslCuAuthzid, saslOk), (canonCall authcid saslCuAuthid, saslOk)],
      ⟨authcid, hu, by rw [ha]; exact ⟨name, hbytes, rfl⟩⟩, ?_, ?_, fun hok => ?_⟩
    · by_cases hrc : canon (canonCall name saslCuAuthzid) = saslOk <;> simp [canonicalize, hrc]
    · by_cases hrc : canon (canonCall name saslCuAuthzid) = saslOk <;> simp [canonicalize, hrc]
    · have h1 := hok _ List.mem_cons_self
      have h2 := hok _ (List.mem_cons_of_mem _ (List.mem_singleton_self _))
      simp [canonicalize, h1, h2]

theorem CanonicalizedAs.unique {u : String} {authzid : Option String} {calls calls' : List (CanonCall × Int)}
    (h : CanonicalizedAs u authzid calls) (h' : CanonicalizedAs u authzid calls') : calls = calls' := by
  obtain ⟨⟨b, hb⟩, rfl, h⟩ := h
  obtain ⟨⟨b', hb'⟩, rfl, h'⟩ := h'
  cases ha : authzid.filter (· ≠ "") with
  | none =>
    rw [ha] at h h'
    rw [h, h']
  | some a =>
    rw [ha] at h h'
    obtain ⟨⟨c, hc⟩, rfl, rfl⟩ := h
    obtain ⟨⟨c', hc'⟩, rfl, rfl⟩ := h'
    rfl

/-- The step for a client response whose token is accepted, and whose names are. -/
theorem step_accepted (h : i.Carries config response) {u : String}
    (hverify : config.verifier.verify jose i.now response.token = .ok u) {canon : CanonUser}
    (hcanon : i.canon = some canon) {calls : List (CanonCall × Int)}
    (hcalls : CanonicalizedAs u response.authzid calls) (hanswers : ∀ c ∈ calls, canon c.1 = c.2)
    (s : ServerState) :
    i.step jose config s =
      { rc := some saslOk, ctx := s.ctx, out := none, oparams := s.oparams.finish, calls } := by
  obtain ⟨authcid, hu, name, hname⟩ := hcalls.names
  obtain ⟨calls', hcalls', -, -, hok⟩ := calls_of_canonicalize hu hname canon
  obtain rfl := hcalls.unique hcalls'
  rw [step_verified h hverify hcanon hu hname, hok hanswers]
  simp

/-! ## A step does nothing else -/

/-- The calls that end with `SASL_OK` are those for the names. -/
theorem canonicalizedAs_of_canonicalize {u : String} {authzid : Option String} {authcid : CString}
    (hu : authcid.bytes = utf8 u) {name : Option CString}
    (hname : name.map CString.bytes = (authzid.filter (· ≠ "")).map utf8) {canon : CanonUser}
    (h : (canonicalize canon authcid name).1 = saslOk) :
    CanonicalizedAs u authzid (canonicalize canon authcid name).2 := by
  refine ⟨authcid, hu, ?_⟩
  cases ha : authzid.filter (· ≠ "") with
  | none =>
    rw [ha] at hname
    obtain rfl := Option.map_eq_none_iff.1 hname
    simp only [canonicalize] at h ⊢
    rw [h]
  | some a =>
    rw [ha] at hname
    obtain ⟨name, rfl, hbytes⟩ := Option.map_eq_some_iff.1 hname
    refine ⟨name, hbytes, ?_⟩
    simp only [canonicalize] at h ⊢
    by_cases hrc : canon (canonCall name saslCuAuthzid) = saslOk
    · simp only [hrc, ne_eq, not_true_eq_false, if_false] at h ⊢
      rw [h]
    · simp only [ne_eq, hrc, not_false_eq_true, if_true] at h

/-- A step whose token is accepted leaves the outcome to the `canon_user` callback. -/
theorem served_of_canonicalize (h : i.Carries config response) {u : String}
    (hverify : config.verifier.verify jose i.now response.token = .ok u) {canon : CanonUser}
    (hcanon : i.canon = some canon) {name : Option CString}
    (hname : name.map CString.bytes = (response.authzid.filter (· ≠ "")).map utf8) (s : ServerState) :
    Served jose config i s (i.step jose config s) := by
  have hu : (⟨utf8 u, JwtVerifier.nul_notMem_of_verify hverify⟩ : CString).bytes = utf8 u := rfl
  rw [step_verified h hverify hcanon hu hname]
  split
  · rename_i hrc
    exact .canonRefused canon _ hrc (fun habort => h.ne_abort habort.2) _ hcanon
      (exists_call_of_canonicalize _ _ _) (answers_of_canonicalize _ _ _)
  · rename_i hrc
    exact .accepted response u h hverify canon _ hcanon
      (canonicalizedAs_of_canonicalize hu hname (not_not.1 hrc)) (answers_of_canonicalize _ _ _)

theorem served_of_verified (h : i.Carries config response) {u : String}
    (hverify : config.verifier.verify jose i.now response.token = .ok u) (s : ServerState) :
    Served jose config i s (i.step jose config s) := by
  have hno : ¬i.Aborts config := fun habort => h.ne_abort habort.2
  have hnew : CString.new (utf8 u) = some ⟨utf8 u, JwtVerifier.nul_notMem_of_verify hverify⟩ :=
    CString.new_eq_some.2 rfl
  cases hcanon : i.canon with
  | none =>
    simp only [ServerInput.step, serverStep, checkTls_eq_ok.2 h.tls, if_neg (Nat.not_lt.2 h.length),
      if_neg h.ne_abort, h.parse, hverify, hcanon]
    exact .refused _ (by decide) (by decide) hno
  | some canon =>
    cases ha : response.authzid.filter (· ≠ "") with
    | none => exact @served_of_canonicalize _ _ _ _ _ _ h _ hverify _ hcanon none (by rw [ha]; rfl) s
    | some a =>
      cases hname : CString.new (utf8 a) with
      | none =>
        simp only [ServerInput.step, serverStep, checkTls_eq_ok.2 h.tls, if_neg (Nat.not_lt.2 h.length),
          if_neg h.ne_abort, h.parse, hverify, hcanon, hnew, ha, hname]
        exact .refused _ (by decide) (by decide) hno
      | some name =>
        refine @served_of_canonicalize _ _ _ _ _ _ h _ hverify _ hcanon (some name) ?_ s
        rw [ha, Option.map_some, Option.map_some, CString.new_eq_some.1 hname]

/-- A step does nothing else; in particular it never panics, and never finds a NUL in a name
    that the verifier returned. -/
theorem served_step (i : ServerInput) (s : ServerState) :
    Served jose config i s (i.step jose config s) := by
  cases htls : checkTls i.utils config with
  | error rc =>
    have hno : ¬i.Aborts config := fun h => by
      rw [checkTls_eq_ok.2 h.1] at htls
      cases htls
    simp only [ServerInput.step, serverStep, htls]
    rcases checkTls_eq_error htls with rfl | rfl <;> exact .refused _ (by decide) (by decide) hno
  | ok v =>
    -- The cases are the exits of the step, in its order; only the last two verify the token.
    have hmet := checkTls_eq_ok.1 htls
    by_cases hlen : maxClientinLen < i.input.length
    · simp only [ServerInput.step, serverStep, htls, if_pos hlen]
      refine .refused _ (by decide) (by decide) fun h => ?_
      rw [h.2] at hlen
      exact absurd hlen (by decide)
    by_cases hin : i.input = [0x01]
    · rw [step_aborts ⟨hmet, hin⟩]
      exact .aborted ⟨hmet, hin⟩
    have hno : ¬i.Aborts config := fun h => hin h.2
    cases hparse : parseClientResponse i.input with
    | panic => exact absurd hparse (parseClientResponse_ne_panic _)
    | err e =>
      simp only [ServerInput.step, serverStep, htls, if_neg hlen, if_neg hin, hparse]
      exact .refused _ (by decide) (by decide) hno
    | ok response =>
      have hcarries : i.Carries config response := ⟨hmet, Nat.not_lt.1 hlen, hparse⟩
      cases hverify : config.verifier.verify jose i.now response.token with
      | error e =>
        rw [step_rejected hcarries hverify]
        exact .rejected response e hno hcarries hverify ⟨utf8 invalidTokenJson, by decide⟩ rfl
      | ok u => exact served_of_verified hcarries hverify s

end CrudeOAuth.Sasl
