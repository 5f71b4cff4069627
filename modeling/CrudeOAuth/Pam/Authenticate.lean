import CrudeOAuth.Core.Jwt.Verify
import CrudeOAuth.Pam.Config
import CrudeOAuth.Pam.Ffi

/-!
# Authentication

The logic of the PAM module (`authenticate` in `pam/src/lib.rs`): a token for the PAM
user is taken from the stack or asked for, verified, and its name compared with that
of the user.

`authenticate_iff` says when the answer is `PAM_SUCCESS`, and what else the module
does: it asks for a token only if the stack has none, and stores the answer.
-/

namespace CrudeOAuth.Pam

open Rust

variable {Jwk Key : Type} {raw : List String}

def onlyFromAllows (lists : List (List String)) (host : String) : Bool :=
  lists.all fun hosts => hosts.any (· == host)

/-- What a call of the module leaves behind: its return code, or `none` if it panics, and
    the calls it made. -/
structure PamResult where
  rc : Option Int
  calls : Calls
  deriving DecidableEq, Repr

/-- Returns at once. -/
def PamResult.ret (rc : Option Int) : PamResult := { rc, calls := [] }

/-- The result of going on after some calls. -/
def PamResult.after (calls : Calls) (result : PamResult) : PamResult :=
  { result with calls := calls ++ result.calls }

@[simp] theorem PamResult.ret_rc (rc : Option Int) : (PamResult.ret rc).rc = rc := rfl

@[simp] theorem PamResult.ret_calls (rc : Option Int) : (PamResult.ret rc).calls = [] := rfl

@[simp] theorem PamResult.after_rc (calls : Calls) (result : PamResult) :
    (result.after calls).rc = result.rc := rfl

@[simp] theorem PamResult.after_calls (calls : Calls) (result : PamResult) :
    (result.after calls).calls = calls ++ result.calls := rfl

def accessTokenPrompt : Bytes := utf8 "Access Token: "

/-- The token, from the stack or from the conversation. -/
def PamHandle.token (pam : PamHandle) : Except Int String × Calls :=
  let got : Calls := [(.getItem pamAuthtok, (pam.getItem pamAuthtok).1)]
  match pam.itemStr pamAuthtok with
  | .error rc => (.error rc, got)
  | .ok (some token) => (.ok token, got)
  | .ok none =>
    match pam.converseSecret accessTokenPrompt with
    | (.error rc, calls) => (.error rc, got ++ calls)
    | (.ok token, calls) =>
      -- Later stack modules must see the answer byte for byte.
      let stored : Calls := [(.setItem pamAuthtok token.bytes, pam.setItem pamAuthtok token.bytes)]
      (okOrElse (fromUtf8 token.bytes) pamAuthErr, got ++ calls ++ stored)

/-- The remote host is in every list, and the calls made to know it. -/
def PamHandle.rhostAllowed (pam : PamHandle) (onlyFrom : List (List String)) : Bool × Calls :=
  if onlyFrom = [] then (true, [])
  else
    let rhost := (pam.itemStr pamRhost).toOption.join
    (rhost.any (onlyFromAllows onlyFrom), [(.getItem pamRhost, (pam.getItem pamRhost).1)])

def authenticate (jose : Jose Jwk Key) (now : Option UInt64) (pam : PamHandle)
    (config : Outcome PamError (Config raw Key)) : PamResult :=
  match config with
  | .panic => .ret none
  | .err _ => .ret (some pamSystemErr)
  | .ok config =>
  let (allowed, calls) := pam.rhostAllowed config.args.onlyFrom
  .after calls <|
  if !allowed then .ret (some pamIgnore)
  else
  .after [(.getUser, pam.getUser.1)] <|
  match pam.user with
  | .error rc => .ret (some (if rc = pamSuccess then pamAuthErr else rc))
  | .ok user =>
  .after [(.getpwnam user.bytes, (pam.getpwnam user).1)] <|
  match accountExists pam user with
  | .error rc => .ret (some rc)
  | .ok _ =>
  let (token, calls) := pam.token
  .after calls <|
  match token with
  | .error rc => .ret (some rc)
  | .ok token =>
  match config.verifier with
  | .error (.build _) => .ret (some pamSystemErr)
  | .error _ => .ret (some pamOpenErr)
  | .ok verifier =>
  match verifier.verify jose now token with
  | .error _ => .ret (some pamAuthErr)
  | .ok oauthUser =>
    if utf8 oauthUser ≠ user.bytes then .ret (some pamAuthErr) else .ret (some pamSuccess)

/-- The entry point: a panic must not unwind into libpam. -/
def pamSmAuthenticate (jose : Jose Jwk Key) (now : Option UInt64) (pam : Option PamHandle) (argc : Int)
    (argv : Option (List (Option CString)))
    (config : ∀ raw, Outcome PamError (Config raw Key)) : Int :=
  match pam with
  | none => pamSystemErr
  | some pam => (authenticate jose now pam (config (collectArgs argc argv))).rc.getD pamSystemErr

/-! ## What the steps give -/

section

variable {pam : PamHandle} {rc : Int}

/-- The token is the item, or else the answer of the conversation if it is a text. -/
def PamHandle.GivesToken (pam : PamHandle) (token : String) : Prop :=
  pam.Shows pamAuthtok token ∨
    pam.getItem pamAuthtok = (pamSuccess, none) ∧
      ∃ secret, pam.Answers accessTokenPrompt secret ∧ utf8 token = secret.bytes

/-- The values of the `only_from` arguments let the remote host through. -/
def PamHandle.FromAllowedHost (pam : PamHandle) (values : List String) : Prop :=
  values = [] ∨ ∃ host, pam.Shows pamRhost host ∧
    ∀ value ∈ values, host ≠ "" ∧ host ∈ splitWhere (· == ',') value

theorem onlyFromAllows_iff {values : List String} {host : String} :
    onlyFromAllows (values.map onlyFromHosts) host = true ↔
      ∀ value ∈ values, host ≠ "" ∧ host ∈ splitWhere (· == ',') value := by
  simp [onlyFromAllows, onlyFromHosts, and_comm]

theorem rhostAllowed_iff {values : List String} :
    (pam.rhostAllowed (values.map onlyFromHosts)).1 = true ↔ pam.FromAllowedHost values := by
  unfold PamHandle.rhostAllowed PamHandle.FromAllowedHost
  by_cases h : values = []
  · simp [h]
  · simp only [List.map_eq_nil_iff, h, if_false, false_or, Option.any_eq_true, onlyFromAllows_iff,
      ← PamHandle.itemStr_eq_some]
    refine exists_congr fun host => and_congr_left fun _ => ?_
    rcases pam.itemStr pamRhost with e | _ | s <;> simp [Except.toOption]

theorem converseSecret_eq_ok {prompt : Bytes} {secret : CString} :
    (pam.converseSecret prompt).1 = .ok secret ↔ pam.Answers prompt secret := by
  unfold PamHandle.converseSecret PamHandle.Answers
  rcases pam.getConv with ⟨rc, _ | _ | conv⟩
  · by_cases h : rc = pamSuccess <;> simp [h]
  · by_cases h : rc = pamSuccess <;> simp [h]
  · by_cases h : rc = pamSuccess
    · rcases hconv : conv pamPromptEchoOff prompt with ⟨convRc, _ | _ | s⟩ <;>
        by_cases h' : convRc = pamSuccess <;> simp [h, h', hconv, okOrElse]
    · simp [h]

theorem converseSecret_eq_error {prompt : Bytes} (h : (pam.converseSecret prompt).1 = .error rc) :
    rc ≠ pamSuccess := by
  unfold PamHandle.converseSecret at h
  split at h
  · split at h
    · rename_i hrc
      exact Except.error.inj h ▸ hrc
    · split at h
      · exact Except.error.inj h ▸ (by decide : pamConvErr ≠ pamSuccess)
      · split at h
        · split at h
          · rename_i hrc
            exact Except.error.inj h ▸ hrc
          · exact (okOrElse_eq_error.1 h).2 ▸ (by decide : pamConvErr ≠ pamSuccess)

theorem token_eq_ok {token : String} : pam.token.1 = .ok token ↔ pam.GivesToken token := by
  unfold PamHandle.token PamHandle.GivesToken
  rw [← PamHandle.itemStr_eq_some, ← PamHandle.itemStr_eq_none]
  simp only [← converseSecret_eq_ok]
  rcases pam.itemStr pamAuthtok with e | _ | s
  · simp
  · rcases pam.converseSecret accessTokenPrompt with ⟨e | secret, calls⟩
    · simp
    · simp [fromUtf8_eq_some]
  · simp

theorem token_eq_error (h : pam.token.1 = .error rc) : rc ≠ pamSuccess := by
  unfold PamHandle.token at h
  split at h
  · rename_i hitem
    exact Except.error.inj h ▸ (PamHandle.itemStr_eq_error hitem).2
  · cases h
  · split at h
    · rename_i hconv
      exact Except.error.inj h ▸ converseSecret_eq_error (congrArg Prod.fst hconv)
    · exact (okOrElse_eq_error.1 h).2 ▸ (by decide : pamAuthErr ≠ pamSuccess)

/-! ## The calls -/

/-- A call made before the token is asked for. -/
def PamCall.Early (call : PamCall) : Prop :=
  call = .getItem pamRhost ∨ call = .getUser ∨ ∃ user, call = .getpwnam user

theorem early_of_rhostAllowed {onlyFrom : List (List String)} :
    ∀ c ∈ (pam.rhostAllowed onlyFrom).2, c.1.Early := by
  unfold PamHandle.rhostAllowed
  split
  · simp
  · simp [PamCall.Early]

/-- The calls are early ones, and then those for the token, if it comes to that. -/
theorem authenticate_calls (jose : Jose Jwk Key) (now : Option UInt64) (pam : PamHandle)
    (config : Outcome PamError (Config raw Key)) :
    ∃ pre : Calls, (∀ c ∈ pre, c.1.Early) ∧
      ((authenticate jose now pam config).calls = pre ∨
        (authenticate jose now pam config).calls = pre ++ pam.token.2) := by
  cases config with
  | panic => exact ⟨[], by simp, .inl rfl⟩
  | err e => exact ⟨[], by simp, .inl rfl⟩
  | ok config =>
    have hrhost := @early_of_rhostAllowed pam config.args.onlyFrom
    have huser : ((.getUser, pam.getUser.1) : PamCall × Int).1.Early := .inr (.inl rfl)
    simp only [authenticate, PamResult.after_calls]
    split
    · exact ⟨_, hrhost, .inl (List.append_nil _)⟩
    · rw [PamResult.after_calls]
      split
      · refine ⟨_ ++ [_], ?_, .inl rfl⟩
        exact List.forall_mem_append.2 ⟨hrhost, List.forall_mem_singleton.2 huser⟩
      · rename_i user _
        have hfound : ((.getpwnam user.bytes, (pam.getpwnam user).1) : PamCall × Int).1.Early :=
          .inr (.inr ⟨_, rfl⟩)
        rw [PamResult.after_calls]
        have hpre : ∀ c ∈ (pam.rhostAllowed config.args.onlyFrom).2 ++
            [((.getUser, pam.getUser.1) : PamCall × Int), (.getpwnam user.bytes, (pam.getpwnam user).1)],
            c.1.Early :=
          List.forall_mem_append.2 ⟨hrhost, List.forall_mem_cons.2
            ⟨huser, List.forall_mem_singleton.2 hfound⟩⟩
        split
        · exact ⟨_, hpre, .inl rfl⟩
        · refine ⟨_, hpre, .inr ?_⟩
          -- Nothing is called after the token is there.
          have hrest : ∀ result : PamResult, result.calls = [] →
              (result.after pam.token.2).calls = pam.token.2 := fun result h => by simp [h]
          rw [List.append_assoc]
          refine congrArg _ (congrArg _ (congrArg _ (hrest _ ?_)))
          split
          · rfl
          · split
            · rfl
            · rfl
            · split
              · rfl
              · split <;> rfl

theorem mem_converseSecret_calls {prompt : Bytes} {result : Except Int CString × Calls}
    (hresult : pam.converseSecret prompt = result) {c : PamCall × Int} (h : c ∈ result.2) :
    c.1 = .getItem pamConv ∨ c.1 = .converse pamPromptEchoOff prompt := by
  subst hresult
  unfold PamHandle.converseSecret at h
  rcases pam.getConv with ⟨rc, conv⟩
  dsimp only at h
  split at h
  · exact .inl (congrArg Prod.fst (List.mem_singleton.1 h))
  · split at h
    · exact .inl (congrArg Prod.fst (List.mem_singleton.1 h))
    · rename_i conv _
      rcases hconv : conv pamPromptEchoOff prompt with ⟨convRc, resp⟩
      rw [hconv] at h
      dsimp only at h
      split at h <;> simpa using Or.imp (congrArg Prod.fst) (congrArg Prod.fst) (by simpa using h)

theorem converseSecret_calls {prompt : Bytes} {secret : CString} (h : pam.Answers prompt secret) :
    (pam.converseSecret prompt).2 =
      [(.getItem pamConv, pamSuccess), (.converse pamPromptEchoOff prompt, pamSuccess)] := by
  obtain ⟨conv, hget, hconv⟩ := h
  simp [PamHandle.converseSecret, hget, hconv]

/-- An answer is stored as soon as it is given. -/
theorem token_calls {secret : CString} (hunset : pam.getItem pamAuthtok = (pamSuccess, none))
    (h : pam.Answers accessTokenPrompt secret) :
    pam.token.2 = [(.getItem pamAuthtok, pamSuccess), (.getItem pamConv, pamSuccess),
      (.converse pamPromptEchoOff accessTokenPrompt, pamSuccess),
      (.setItem pamAuthtok secret.bytes, pam.setItem pamAuthtok secret.bytes)] := by
  rw [PamHandle.token, PamHandle.itemStr_eq_none.2 hunset, hunset]
  have hcalls := converseSecret_calls h
  have hsecret := converseSecret_eq_ok.2 h
  rcases hconv : pam.converseSecret accessTokenPrompt with ⟨answer, calls⟩
  rw [hconv] at hcalls hsecret
  dsimp only at hcalls hsecret
  subst hcalls hsecret
  rfl

/-- What is called for the token: the item is read, and if it is unset the conversation is
    held and its answer stored. -/
theorem mem_token_calls {c : PamCall × Int} (h : c ∈ pam.token.2) :
    c = (.getItem pamAuthtok, (pam.getItem pamAuthtok).1) ∨
      pam.getItem pamAuthtok = (pamSuccess, none) ∧
        (c.1 = .getItem pamConv ∨ c.1 = .converse pamPromptEchoOff accessTokenPrompt ∨
          ∃ secret, pam.Answers accessTokenPrompt secret ∧ c.1 = .setItem pamAuthtok secret.bytes) := by
  unfold PamHandle.token at h
  split at h
  · exact .inl (List.mem_singleton.1 h)
  · exact .inl (List.mem_singleton.1 h)
  · rename_i hitem
    have hunset := PamHandle.itemStr_eq_none.1 hitem
    split at h
    · rename_i hconv
      rcases List.mem_append.1 h with h | h
      · exact .inl (List.mem_singleton.1 h)
      · refine .inr ⟨hunset, ?_⟩
        rcases mem_converseSecret_calls hconv h with h | h
        · exact .inl h
        · exact .inr (.inl h)
    · rename_i secret calls hconv
      rcases List.mem_append.1 h with h | h
      · rcases List.mem_append.1 h with h | h
        · exact .inl (List.mem_singleton.1 h)
        · refine .inr ⟨hunset, ?_⟩
          rcases mem_converseSecret_calls hconv h with h | h
          · exact .inl h
          · exact .inr (.inl h)
      · have hanswers := converseSecret_eq_ok.1 (congrArg Prod.fst hconv)
        exact .inr ⟨hunset, .inr (.inr ⟨secret, hanswers, congrArg Prod.fst (List.mem_singleton.1 h)⟩)⟩

theorem mem_token_calls_of_mem {jose : Jose Jwk Key} {now : Option UInt64}
    {config : Outcome PamError (Config raw Key)} {c : PamCall × Int}
    (h : c ∈ (authenticate jose now pam config).calls) (hearly : ¬c.1.Early) : c ∈ pam.token.2 := by
  obtain ⟨pre, hpre, hcalls | hcalls⟩ := authenticate_calls jose now pam config
  · exact absurd (hpre c (hcalls ▸ h)) hearly
  · rw [hcalls, List.mem_append] at h
    exact h.resolve_left fun hc => hearly (hpre c hc)

/-! ## Success -/

/-- What has to be the case for the answer to be `PAM_SUCCESS`. -/
structure Admits (jose : Jose Jwk Key) (now : Option UInt64) (pam : PamHandle) (config : Config raw Key) :
    Prop where
  rhost : pam.FromAllowedHost (onlyFromArgs raw)
  token : ∃ user token verifier oauthUser, pam.getUser = (pamSuccess, some user) ∧
    (pam.getpwnam user).1 = 0 ∧ pam.GivesToken token ∧ config.verifier = .ok verifier ∧
    verifier.verify jose now token = .ok oauthUser ∧ utf8 oauthUser = user.bytes

theorem authenticate_of_admits {jose : Jose Jwk Key} {now : Option UInt64} {config : Config raw Key}
    (h : Admits jose now pam config) :
    ∃ user, authenticate jose now pam (.ok config) =
      { rc := some pamSuccess
        calls := (pam.rhostAllowed config.args.onlyFrom).2 ++
          ((.getUser, pamSuccess) :: (.getpwnam user, pamSuccess) :: pam.token.2) } := by
  obtain ⟨hrhost, user, token, verifier, oauthUser, huser, hfound, htoken, hverifier, hverify, hname⟩ := h
  obtain ⟨found, haccount⟩ := PamHandle.exists_accountExists.2 hfound
  have hallowed := rhostAllowed_iff.2 hrhost
  rw [← config.loaded.onlyFrom_eq] at hallowed
  refine ⟨user.bytes, ?_⟩
  simp only [authenticate, hallowed, PamHandle.user_eq_ok.2 huser, haccount, token_eq_ok.2 htoken,
    hverifier, hverify, hname, huser, hfound]
  simp [PamResult.after, PamResult.ret, pamSuccess]

theorem admits_of_authenticate {jose : Jose Jwk Key} {now : Option UInt64} {config : Config raw Key}
    (h : (authenticate jose now pam (.ok config)).rc = some pamSuccess) : Admits jose now pam config := by
  -- Each exit but the last returns a code of the module, or one that is not `PAM_SUCCESS`.
  simp only [authenticate, PamResult.after_rc] at h
  split at h
  · exact absurd (Option.some.inj h) (by decide)
  rename_i hallowed
  simp only [Bool.not_eq_true, Bool.not_eq_false', config.loaded.onlyFrom_eq, rhostAllowed_iff] at hallowed
  simp only [PamResult.after_rc] at h
  split at h
  · rename_i rc _
    -- A NULL user returned with `PAM_SUCCESS` is refused.
    have := Option.some.inj h
    split at this
    · exact absurd this (by decide)
    · contradiction
  rename_i user huser
  simp only [PamResult.after_rc] at h
  split at h
  · rename_i haccount
    have := PamHandle.accountExists_eq_error haccount ▸ Option.some.inj h
    exact absurd this (by decide)
  rename_i found haccount
  simp only [PamResult.after_rc] at h
  split at h
  · rename_i htoken
    exact absurd (Option.some.inj h) (token_eq_error htoken)
  rename_i token htoken
  split at h
  · exact absurd (Option.some.inj h) (by decide)
  · exact absurd (Option.some.inj h) (by decide)
  rename_i verifier hverifier
  split at h
  · exact absurd (Option.some.inj h) (by decide)
  rename_i oauthUser hverify
  split at h
  · exact absurd (Option.some.inj h) (by decide)
  rename_i hname
  exact ⟨hallowed, user, token, verifier, oauthUser, PamHandle.user_eq_ok.1 huser,
    PamHandle.exists_accountExists.1 ⟨found, haccount⟩, token_eq_ok.1 htoken, hverifier, hverify,
    not_not.1 hname⟩

theorem authenticate_eq_success {jose : Jose Jwk Key} {now : Option UInt64}
    {config : Outcome PamError (Config raw Key)} :
    (authenticate jose now pam config).rc = some pamSuccess ↔
      ∃ loaded, config = .ok loaded ∧ Admits jose now pam loaded := by
  constructor
  · intro h
    cases config with
    | ok loaded => exact ⟨loaded, rfl, admits_of_authenticate h⟩
    | err e => exact absurd (Option.some.inj h) (by decide)
    | panic => cases h
  · rintro ⟨loaded, rfl, h⟩
    obtain ⟨user, h⟩ := authenticate_of_admits h
    rw [h]

theorem code_of_mem_rhostAllowed {values : List String} (h : pam.FromAllowedHost values) {c : PamCall × Int}
    (hc : c ∈ (pam.rhostAllowed (values.map onlyFromHosts)).2) : c.2 = pamSuccess := by
  unfold PamHandle.rhostAllowed at hc
  rcases h with rfl | ⟨host, ⟨value, hget, -⟩, -⟩
  · cases hc
  · split at hc
    · cases hc
    · rw [List.mem_singleton.1 hc, hget]

theorem code_of_mem_token {token : String} (h : pam.GivesToken token) {c : PamCall × Int}
    (hc : c ∈ pam.token.2) (hcode : c.2 ≠ pamSuccess) : ∃ value, c.1 = .setItem pamAuthtok value := by
  rcases h with hshows | ⟨hunset, secret, hanswers, -⟩
  -- The token of the stack takes one call, that of the conversation four.
  · obtain ⟨value, hget, -⟩ := hshows
    rcases mem_token_calls hc with rfl | ⟨hunset, -⟩
    · exact absurd (congrArg Prod.fst hget) hcode
    · rw [hget] at hunset
      cases hunset
  · rw [token_calls hunset hanswers] at hc
    simp only [List.mem_cons, List.not_mem_nil, or_false] at hc
    rcases hc with rfl | rfl | rfl | rfl
    · exact absurd rfl hcode
    · exact absurd rfl hcode
    · exact absurd rfl hcode
    · exact ⟨_, rfl⟩

/-- A code that is not `PAM_SUCCESS` keeps the result from being it; only that of storing the
    answer is ignored. -/
theorem setItem_of_failed_call {jose : Jose Jwk Key} {now : Option UInt64}
    {config : Outcome PamError (Config raw Key)}
    (h : (authenticate jose now pam config).rc = some pamSuccess) {c : PamCall × Int}
    (hc : c ∈ (authenticate jose now pam config).calls) (hcode : c.2 ≠ pamSuccess) :
    ∃ value, c.1 = .setItem pamAuthtok value := by
  obtain ⟨loaded, rfl, hadmits⟩ := authenticate_eq_success.1 h
  obtain ⟨user, hresult⟩ := authenticate_of_admits hadmits
  obtain ⟨hrhost, -, token, -, -, -, -, htoken, -⟩ := hadmits
  -- On success the calls are known one by one, and so are their codes.
  rw [hresult, loaded.loaded.onlyFrom_eq] at hc
  rcases List.mem_append.1 hc with hc | hc
  · exact absurd (code_of_mem_rhostAllowed hrhost hc) hcode
  · rcases List.mem_cons.1 hc with rfl | hc
    · exact absurd rfl hcode
    · rcases List.mem_cons.1 hc with rfl | hc
      · exact absurd rfl hcode
      · exact code_of_mem_token htoken hc hcode

/-- The answer of the conversation is stored at once, as it is. -/
theorem calls_of_converse {jose : Jose Jwk Key} {now : Option UInt64}
    {config : Outcome PamError (Config raw Key)} {style code : Int} {msg : Bytes} {secret : CString}
    (hc : (.converse style msg, code) ∈ (authenticate jose now pam config).calls)
    (hanswers : pam.Answers accessTokenPrompt secret) :
    ∃ pre, (authenticate jose now pam config).calls =
      pre ++ [(.converse pamPromptEchoOff accessTokenPrompt, pamSuccess),
        (.setItem pamAuthtok secret.bytes, pam.setItem pamAuthtok secret.bytes)] := by
  have hlate : ¬(PamCall.converse style msg).Early := by simp [PamCall.Early]
  have htoken := mem_token_calls_of_mem hc hlate
  have hunset : pam.getItem pamAuthtok = (pamSuccess, none) := by
    rcases mem_token_calls htoken with h | ⟨hunset, -⟩
    · cases h
    · exact hunset
  obtain ⟨pre, hpre, hcalls | hcalls⟩ := authenticate_calls jose now pam config
  · exact absurd (hpre _ (hcalls ▸ hc)) hlate
  · rw [hcalls, token_calls hunset hanswers]
    exact ⟨pre ++ [(.getItem pamAuthtok, pamSuccess), (.getItem pamConv, pamSuccess)], by simp⟩

end

/-- The answer is `PAM_SUCCESS` if and only if the options load, the remote host is let through,
    and the token on the stack, or the answer of the conversation, is verified to be for the
    user. No other code comes out as `PAM_SUCCESS`. The conversation is held only when the
    stack has no token, and then its answer becomes the token on the stack. -/
theorem authenticate_iff (jose : Jose Jwk Key) (now : Option UInt64) (pam : PamHandle)
    (config : Outcome PamError (Config raw Key)) :
    ((authenticate jose now pam config).rc = some pamSuccess ↔
      ∃ loaded, config = .ok loaded ∧
        (onlyFromArgs raw = [] ∨ ∃ host, pam.Shows pamRhost host ∧
          ∀ value ∈ onlyFromArgs raw, host ≠ "" ∧ host ∈ splitWhere (· == ',') value) ∧
        ∃ user, pam.getUser = (pamSuccess, some user) ∧ (pam.getpwnam user).1 = 0 ∧
          ∃ token, (pam.Shows pamAuthtok token ∨
              pam.getItem pamAuthtok = (pamSuccess, none) ∧
                ∃ secret, pam.Answers accessTokenPrompt secret ∧ utf8 token = secret.bytes) ∧
            ∃ verifier, loaded.verifier = .ok verifier ∧
              ∃ u, verifier.verify jose now token = .ok u ∧ utf8 u = user.bytes) ∧
    (∀ c ∈ (authenticate jose now pam config).calls, c.2 ≠ pamSuccess →
      (∃ value, c.1 = .setItem pamAuthtok value) ∨
        (authenticate jose now pam config).rc ≠ some pamSuccess) ∧
    (∀ style msg code, (.converse style msg, code) ∈ (authenticate jose now pam config).calls →
      pam.getItem pamAuthtok = (pamSuccess, none) ∧
        ∀ secret, pam.Answers accessTokenPrompt secret →
          ∃ pre, (authenticate jose now pam config).calls =
            pre ++ [(.converse pamPromptEchoOff accessTokenPrompt, pamSuccess),
              (.setItem pamAuthtok secret.bytes, pam.setItem pamAuthtok secret.bytes)]) ∧
    ∀ item value code, (.setItem item value, code) ∈ (authenticate jose now pam config).calls →
      item = pamAuthtok ∧ pam.getItem pamAuthtok = (pamSuccess, none) ∧
        ∃ secret, pam.Answers accessTokenPrompt secret ∧ value = secret.bytes := by
  refine ⟨?_, fun c hc hcode => ?_, fun style msg code hc => ⟨?_, fun secret => calls_of_converse hc⟩,
    fun item value code hc => ?_⟩
  · rw [authenticate_eq_success]
    refine exists_congr fun loaded => and_congr_right fun _ => ?_
    constructor
    · rintro ⟨hrhost, user, token, verifier, u, huser, hfound, htoken, hverifier, hverify, hname⟩
      exact ⟨hrhost, user, huser, hfound, token, htoken, verifier, hverifier, u, hverify, hname⟩
    · rintro ⟨hrhost, user, huser, hfound, token, htoken, verifier, hverifier, u, hverify, hname⟩
      exact ⟨hrhost, user, token, verifier, u, huser, hfound, htoken, hverifier, hverify, hname⟩
  · exact or_iff_not_imp_right.2 fun h => setItem_of_failed_call (not_not.1 h) hc hcode
  · rcases mem_token_calls (mem_token_calls_of_mem hc (by simp [PamCall.Early])) with h | ⟨hunset, -⟩
    · cases h
    · exact hunset
  · rcases mem_token_calls (mem_token_calls_of_mem hc (by simp [PamCall.Early])) with h | ⟨hunset, h⟩
    · cases h
    · rcases h with h | h | ⟨secret, hanswers, h⟩
      · cases h
      · cases h
      · cases h
        exact ⟨rfl, hunset, secret, hanswers, rfl⟩

namespace Fixture

def stack : List String :=
  ["iss=https://sso.example.org/realms/master", "jwks=keys.json", "trusted_aud=ldaps://example.org/",
    "only_from=,ldap1,ldap2"]

def args : PamArgs := { defaultArgs with
  iss := some "https://sso.example.org/realms/master", jwks := some "keys.json"
  trustedAud := ["ldaps://example.org/"], onlyFrom := [["ldap1", "ldap2"]] }

/-- A stack without a token, and an application that answers the prompt with one. -/
def pam : PamHandle where
  getUser := (pamSuccess, CString.new (utf8 "administrator"))
  getItem item := (pamSuccess, if item = pamRhost then CString.new (utf8 "ldap2") else none)
  getConv := (pamSuccess, some (some fun _ _ =>
    (pamSuccess, some (CString.new (utf8 CrudeOAuth.Fixture.token)))))
  setItem _ _ := pamSystemErr
  getpwnam _ := (0, true)

def config : Config stack (String × String) where
  args := args
  loaded := .inl (by decide +kernel)
  verifier := args.verifier CrudeOAuth.Fixture.jose fun _ => .ok CrudeOAuth.Fixture.jwksJson

example : (authenticate CrudeOAuth.Fixture.jose (some 1000) pam (.ok config)).rc = some pamSuccess := by
  decide +kernel

end Fixture

/-- The entry point succeeds if the logic does, and not when it panics. -/
theorem pamSmAuthenticate_eq_success {jose : Jose Jwk Key} {now : Option UInt64} {pam : Option PamHandle}
    {argc : Int} {argv : Option (List (Option CString))}
    {config : ∀ raw, Outcome PamError (Config raw Key)} :
    pamSmAuthenticate jose now pam argc argv config = pamSuccess ↔
      ∃ handle, pam = some handle ∧
        (authenticate jose now handle (config (collectArgs argc argv))).rc = some pamSuccess := by
  unfold pamSmAuthenticate
  cases pam with
  | none => simp [pamSystemErr, pamSuccess]
  | some handle =>
    cases hrc : (authenticate jose now handle (config (collectArgs argc argv))).rc with
    | none => simp [hrc, pamSystemErr, pamSuccess]
    | some rc => simp [hrc]

end CrudeOAuth.Pam
