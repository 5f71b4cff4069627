import CrudeOAuth.Core.Rfc7628.Message
import CrudeOAuth.Sasl.Ffi

/-!
# The client mechanism

One step of the OAUTHBEARER client (`sasl/src/client.rs`). The initial step gets an
authorization name and a token from the application, by callbacks or by prompts, and
sends the client response; the final step answers the error document of a server
with the byte `0x01`.

An initial step that sends a response has found everything it asks for
(`ClientStep.Sends`), and then the response is the one built of the values it got
(`run_of_sends`, `sends_of_run`).
-/

namespace CrudeOAuth.Sasl

open Rust

def maxServerinLen : Nat := 65536

structure ClientContext where
  output : Bytes
  deriving DecidableEq, Repr

/-- The context of a new connection. -/
def ClientContext.new : ClientContext := { output := [] }

/-- One client step, translated out of the raw interface by `clientMechStep`. -/
structure ClientStep where
  utils : Utils
  ctx : ClientContext
  serverIn : Bytes
  isFinal : Bool
  ssfTooWeak : Bool
  prompts : Prompts
  canon : Option CanonUser
  out : OutBuf
  oparams : OutParams

/-- What a step leaves behind: its return code, or `none` if it panics, and what it did
    with the prompts, the output, the output parameters and the `canon_user` callback. -/
structure ClientResult where
  rc : Option Int
  ctx : ClientContext
  prompts : Prompts
  out : OutBuf
  oparams : OutParams
  calls : List (CanonCall × Int)
  deriving DecidableEq, Repr

/-- The placeholder for the identity that the server derives from the token. -/
def anonymous : CString := ⟨utf8 "anonymous", by decide⟩

/-- The authorization name as a string, an empty one being none; `none` if it is not UTF-8. -/
def readAuthzid (authzid : Option Bytes) : Option (Option String) :=
  match authzid.filter (· ≠ []) with
  | none => some none
  | some v => (fromUtf8 v).map some

/-- The name that is canonicalized as the authorization identity; `none` if it contains a
    NUL. -/
def authzidName (authzid : Option String) : Option CString :=
  match authzid with
  | some authzid => CString.new (utf8 authzid)
  | none => some anonymous

def ClientStep.run (self : ClientStep) : ClientResult :=
  let stop (rc : Option Int) : ClientResult :=
    { rc, ctx := self.ctx, prompts := self.prompts, out := self.out, oparams := self.oparams, calls := [] }
  if maxServerinLen < self.serverIn.length % 2 ^ 32 then stop (some saslBadprot)
  else if self.isFinal then
    -- The server rejected the token; the byte completes the error exchange.
    { stop (some saslOk) with
      ctx := { output := [0x01] }, out := .publish [0x01], oparams := self.oparams.finish }
  else
  let stop (rc : Option Int) : ClientResult := { stop rc with out := .cleared }
  if self.ssfTooWeak then stop (some saslTooweak)
  else
  let user := self.utils.getSimple self.prompts saslCbUser
  let pass := self.utils.getPassword self.prompts
  let stop (rc : Option Int) : ClientResult := { stop rc with prompts := self.prompts.release }
  let wantUser := user.isNeedPrompt
  let wantPass := pass.isNeedPrompt
  if wantUser || wantPass then
    let (rc, prompts) := self.prompts.release.request self.utils wantUser wantPass
    { stop (some rc) with prompts }
  else
  match user with
  | .fail rc => stop (some rc)
  | .needPrompt => stop none
  | .value authzid =>
  match pass with
  | .value none => stop (some saslBadparam)
  | .fail rc => stop (some rc)
  | .needPrompt => stop none
  | .value (some token) =>
  match fromUtf8 token with
  | none => stop (some saslBadparam)
  | some token =>
  match self.canon with
  | none => stop (some saslFail)
  | some canon =>
  match readAuthzid authzid with
  | none => stop (some saslBadparam)
  | some authzid =>
  let call := canonCall anonymous saslCuAuthid
  if canon call ≠ saslOk then { stop (some (canon call)) with calls := [(call, canon call)] }
  else
  match authzidName authzid with
  | none => { stop (some saslBadparam) with calls := [(call, canon call)] }
  | some name =>
  let call' := canonCall name saslCuAuthzid
  let calls := [(call, canon call), (call', canon call')]
  if canon call' ≠ saslOk then { stop (some (canon call')) with calls }
  else
    let output := buildClientResponse authzid token
    { stop (some saslContinue) with ctx := { output }, out := .publish output, calls }

/-! ## The entry point -/

/-- The parameters of the client mechanism, `sasl_client_params`. -/
structure ClientParams where
  utils : Option Utils
  canonUser : Option CanonUser
  minSsf : Nat
  externalSsf : Nat

/-- The step for a call whose pointers are not NULL. -/
def ClientStep.ofCall (utils : Utils) (ctx : ClientContext) (params : ClientParams)
    (serverIn : Option Bytes) (serverInLen : Nat) (promptNeed : Prompts) (out : OutBuf)
    (oparams : OutParams) : ClientStep where
  utils := utils
  ctx := ctx
  serverIn := (serverIn.map (·.take serverInLen)).getD []
  isFinal := serverInLen ≠ 0
  ssfTooWeak := params.externalSsf < params.minSsf
  prompts := promptNeed
  canon := params.canonUser
  out := out
  oparams := oparams

/-- A call of the framework, with the memory the pointers refer to. There is no step, and
    no result of it, if the call is refused for a NULL pointer. -/
def clientMechStep (context : Option ClientContext) (params : Option ClientParams) (serverIn : Option Bytes)
    (serverInLen : Nat) (promptNeed : Prompts) (clientOut : Option OutBuf) (oparams : Option OutParams) :
    Int × Option ClientResult :=
  match context, params with
  | some ctx, some params =>
    match params.utils, clientOut, oparams with
    | some utils, some out, some oparams =>
      let result := (ClientStep.ofCall utils ctx params serverIn serverInLen promptNeed out oparams).run
      (guard result.rc, some result)
    | _, _, _ => (saslBadparam, none)
  | _, _ => (saslBadparam, none)

/-! ## Sending -/

/-- The initial step finds all it asks for, and sends a response with the authorization name
    and the token. -/
structure ClientStep.Sends (step : ClientStep) (authzid : Option String) (token : String) : Prop where
  short : step.serverIn.length % 2 ^ 32 ≤ maxServerinLen
  initial : step.isFinal = false
  ssf : step.ssfTooWeak = false
  user : ∃ v, step.utils.getSimple step.prompts saslCbUser = .value v ∧ readAuthzid v = some authzid
  pass : step.utils.getPassword step.prompts = .value (some (utf8 token))
  names : ∃ canon name, step.canon = some canon ∧ authzidName authzid = some name ∧
    canon (canonCall anonymous saslCuAuthid) = saslOk ∧ canon (canonCall name saslCuAuthzid) = saslOk

/-- No callback answers with `SASL_CONTINUE`, which is an answer of a mechanism. -/
structure ClientStep.NoContinue (step : ClientStep) : Prop where
  canon : ∀ f, step.canon = some f → ∀ call, f call ≠ saslContinue
  lookup : ∀ g, step.utils.getcallback = some g → ∀ id, (g id).1 ≠ saslContinue
  callback : ∀ g, step.utils.getcallback = some g → ∀ id cb, (g id).2 = some cb → cb.rc ≠ saslContinue

variable {self : ClientStep}

theorem ne_of_getSimple_fail (h : self.NoContinue) {prompts : Prompts} {id : Nat} {rc : Int}
    (hfail : self.utils.getSimple prompts id = .fail rc) : rc ≠ saslContinue := by
  unfold Utils.getSimple at hfail
  split at hfail
  · cases hfail
  split at hfail
  · cases hfail
    decide
  rename_i g hg
  have hlookup := h.lookup g hg id
  have hcallback := h.callback g hg id
  rcases hgi : g id with ⟨rc', proc⟩
  simp only [hgi] at hfail hlookup hcallback
  split at hfail
  · cases proc with
    | none =>
      cases hfail
      decide
    | some cb =>
      simp only at hfail
      split at hfail <;> cases hfail
      exact hcallback cb rfl
  split at hfail
  · cases hfail
  split at hfail <;> cases hfail
  exact hlookup

theorem ne_of_getPassword_fail (h : self.NoContinue) {prompts : Prompts} {rc : Int}
    (hfail : self.utils.getPassword prompts = .fail rc) : rc ≠ saslContinue := by
  unfold Utils.getPassword at hfail
  split at hfail
  · split at hfail <;> cases hfail
    decide
  split at hfail
  · cases hfail
    decide
  rename_i g hg
  have hlookup := h.lookup g hg saslCbPass
  have hcallback := h.callback g hg saslCbPass
  rcases hgi : g saslCbPass with ⟨rc', proc⟩
  simp only [hgi] at hfail hlookup hcallback
  split at hfail
  · cases proc with
    | none =>
      cases hfail
      decide
    | some cb =>
      simp only at hfail
      split at hfail <;> cases hfail
      exact hcallback cb rfl
  split at hfail <;> cases hfail
  exact hlookup

/-- A request for prompts is not answered with `SASL_CONTINUE`. -/
theorem request_ne (prompts : Prompts) (utils : Utils) (wantUser wantPass : Bool) :
    (prompts.request utils wantUser wantPass).1 ≠ saslContinue := by
  unfold Prompts.request
  split
  · exact (by decide : saslFail ≠ saslContinue)
  · simp only
    split
    · exact (by decide : saslNomem ≠ saslContinue)
    · exact (by decide : saslInteract ≠ saslContinue)

/-- A step that sends does so with the response built of the two values. -/
theorem run_of_sends {authzid : Option String} {token : String} (h : self.Sends authzid token) :
    ∃ calls, self.run =
      { rc := some saslContinue, ctx := { output := buildClientResponse authzid token }
        prompts := self.prompts.release, out := .publish (buildClientResponse authzid token)
        oparams := self.oparams, calls } := by
  obtain ⟨v, huser, hv⟩ := h.user
  obtain ⟨canon, name, hcanon, hname, h1, h2⟩ := h.names
  simp only [ClientStep.run, if_neg (Nat.not_lt.2 h.short), h.initial, h.ssf, huser, h.pass, fromUtf8_utf8,
    hcanon, hv, hname, h1, h2]
  exact ⟨_, rfl⟩

/-- The code of a failure is not `SASL_CONTINUE`. -/
theorem false_of_ne {rc : Int} (hne : rc ≠ saslContinue) (h : some rc = some saslContinue) : False :=
  hne (Option.some.inj h)

/-- An initial step that answers `SASL_CONTINUE` has found both values. -/
theorem values_of_run (hinit : self.isFinal = false) (hno : self.NoContinue)
    (h : self.run.rc = some saslContinue) :
    self.serverIn.length % 2 ^ 32 ≤ maxServerinLen ∧ self.ssfTooWeak = false ∧
      ∃ v t, self.utils.getSimple self.prompts saslCbUser = .value v ∧
        self.utils.getPassword self.prompts = .value (some t) := by
  unfold ClientStep.run at h
  by_cases hshort : maxServerinLen < self.serverIn.length % 2 ^ 32
  · simp only [if_pos hshort] at h
    exact (false_of_ne (by decide) h).elim
  simp only [if_neg hshort, hinit, Bool.false_eq_true, if_false] at h
  by_cases hssf : self.ssfTooWeak = true
  · simp only [if_pos hssf] at h
    exact (false_of_ne (by decide) h).elim
  simp only [if_neg hssf] at h
  refine ⟨Nat.not_lt.1 hshort, Bool.not_eq_true _ ▸ hssf, ?_⟩
  -- A value that needs a prompt is asked for before any failure of the other is passed on.
  cases huser : self.utils.getSimple self.prompts saslCbUser with
  | needPrompt =>
    simp only [huser, CbValue.isNeedPrompt, Bool.true_or, if_true] at h
    exact (false_of_ne (request_ne _ _ _ _) h).elim
  | fail rc =>
    cases hpass : self.utils.getPassword self.prompts with
    | needPrompt =>
      simp only [huser, hpass, CbValue.isNeedPrompt, Bool.or_true, if_true] at h
      exact (false_of_ne (request_ne _ _ _ _) h).elim
    | value _ | fail _ =>
      simp only [huser, hpass, CbValue.isNeedPrompt, Bool.or_false, Bool.false_eq_true, if_false] at h
      exact (false_of_ne (ne_of_getSimple_fail hno huser) h).elim
  | value v =>
    cases hpass : self.utils.getPassword self.prompts with
    | needPrompt =>
      simp only [huser, hpass, CbValue.isNeedPrompt, Bool.or_true, if_true] at h
      exact (false_of_ne (request_ne _ _ _ _) h).elim
    | fail rc =>
      simp only [huser, hpass, CbValue.isNeedPrompt, Bool.or_false, Bool.false_eq_true, if_false] at h
      exact (false_of_ne (ne_of_getPassword_fail hno hpass) h).elim
    | value t =>
      simp only [huser, hpass, CbValue.isNeedPrompt, Bool.or_false, Bool.false_eq_true, if_false] at h
      cases t with
      | none => exact (false_of_ne (by decide) h).elim
      | some t => exact ⟨v, t, rfl, rfl⟩

/-- An initial step answers `SASL_CONTINUE` only if it sends. -/
theorem sends_of_run (hinit : self.isFinal = false) (hno : self.NoContinue)
    (h : self.run.rc = some saslContinue) : ∃ authzid token, self.Sends authzid token := by
  obtain ⟨hshort, hssf, v, t, huser, hpass⟩ := values_of_run hinit hno h
  simp only [ClientStep.run, if_neg (Nat.not_lt.2 hshort), hinit, hssf, huser, hpass,
    CbValue.isNeedPrompt, Bool.or_false, Bool.false_eq_true, if_false] at h
  -- The values are there: what is left are the checks made on them, in the order of the step.
  cases htoken : fromUtf8 t with
  | none =>
    simp only [htoken] at h
    exact (false_of_ne (by decide) h).elim
  | some token =>
    obtain rfl := fromUtf8_eq_some.1 htoken
    cases hcanon : self.canon with
    | none =>
      simp only [htoken, hcanon] at h
      exact (false_of_ne (by decide) h).elim
    | some canon =>
      cases hv : readAuthzid v with
      | none =>
        simp only [htoken, hcanon, hv] at h
        exact (false_of_ne (by decide) h).elim
      | some authzid =>
        simp only [htoken, hcanon, hv] at h
        by_cases h1 : canon (canonCall anonymous saslCuAuthid) = saslOk
        · simp only [h1, ne_eq, not_true_eq_false, if_false] at h
          cases hname : authzidName authzid with
          | none =>
            simp only [hname] at h
            exact (false_of_ne (by decide) h).elim
          | some name =>
            simp only [hname] at h
            by_cases h2 : canon (canonCall name saslCuAuthzid) = saslOk
            · exact ⟨authzid, token, hshort, hinit, hssf, ⟨v, huser, hv⟩, hpass, canon, name, hcanon,
                hname, h1, h2⟩
            · simp only [h2, not_false_eq_true, if_true] at h
              exact (false_of_ne (hno.canon _ hcanon _) h).elim
        · simp only [ne_eq, h1, not_false_eq_true, if_true] at h
          exact (false_of_ne (hno.canon _ hcanon _) h).elim

end CrudeOAuth.Sasl
