import CrudeOAuth.Sasl.ClientMessage
import CrudeOAuth.Sasl.ServerRun

/-!
# The exchange

A client and a server that follow the protocol agree on its outcome
(`exchange_agrees`). The client sends one message. If the server accepts the token in
it, it asks `canon_user` for the name in the token and for the authorization name of
the client, and the exchange is over. If it rejects the token, it sends the error
document, the client answers with the byte `0x01`, and the exchange is over with
`SASL_BADAUTH`.
-/

namespace CrudeOAuth.Sasl

open Rust

section

variable {Jwk Key : Type} {jose : Jose Jwk Key} {config : ServerConfig Key}

/-! ## The client -/

theorem readAuthzid_utf8 (authzid : Option String) :
    readAuthzid (authzid.map utf8) = some (authzid.filter (· ≠ "")) := by
  unfold readAuthzid
  cases authzid with
  | none => rfl
  | some a =>
    by_cases ha : a = ""
    · subst ha
      rfl
    · rw [Option.map_some, Option.filter_some_pos (by simpa using ha),
        Option.filter_some_pos (by simpa using ha)]
      simp

theorem buildClientResponse_filter (authzid : Option String) (token : String) :
    buildClientResponse (authzid.filter (· ≠ "")) token = buildClientResponse authzid token := by
  unfold buildClientResponse
  rw [Option.filter_filter]
  simp

/-- An authorization name without NULs can be given to `canon_user`. -/
theorem exists_bytes_of_nul {authzid : Option String} (hnul : ∀ a, authzid = some a → '\x00' ∉ a.toList) :
    ∃ name : Option CString, name.map CString.bytes = (authzid.filter (· ≠ "")).map utf8 := by
  cases ha : authzid.filter (· ≠ "") with
  | none => exact ⟨none, rfl⟩
  | some a =>
    obtain ⟨name, hname⟩ := CString.exists_utf8 (hnul a (Option.eq_some_of_filter_eq_some ha))
    exact ⟨some name, congrArg some hname⟩

theorem exists_authzidName {authzid : Option String} (hnul : ∀ a, authzid = some a → '\x00' ∉ a.toList) :
    ∃ name, authzidName (authzid.filter (· ≠ "")) = some name := by
  obtain ⟨name, hname⟩ := exists_bytes_of_nul hnul
  cases ha : authzid.filter (· ≠ "") with
  | none => exact ⟨_, rfl⟩
  | some a =>
    rw [ha] at hname
    obtain ⟨name, -, hbytes⟩ := Option.map_eq_some_iff.1 hname
    exact ⟨name, CString.new_eq_some.2 hbytes⟩

/-- A client of the application: it is ready to send its values. -/
structure ClientReady (params : ClientParams) (prompts : Prompts) (authzid : Option String)
    (token : String) : Prop where
  utils : ∃ utils, params.utils = some utils ∧
    utils.getSimple prompts saslCbUser = .value (authzid.map utf8) ∧
    utils.getPassword prompts = .value (some (utf8 token))
  ssf : params.minSsf ≤ params.externalSsf
  canon : ∃ canon, params.canonUser = some canon ∧ ∀ call, canon call = saslOk

variable {params : ClientParams} {prompts : Prompts} {authzid : Option String} {token : String}

/-- A client that is ready sends the response built of its values. -/
theorem ClientReady.initial (h : ClientReady params prompts authzid token)
    (hnul : ∀ a, authzid = some a → '\x00' ∉ a.toList) (ctx : ClientContext) (out : OutBuf)
    (oparams : OutParams) :
    ∃ result, clientMechStep (some ctx) (some params) none 0 prompts (some out) (some oparams) =
        (saslContinue, some result) ∧
      result.out = OutBuf.publish (buildClientResponse authzid token) := by
  obtain ⟨utils, hutils, huser, hpass⟩ := h.utils
  obtain ⟨canon, hcanon, hok⟩ := h.canon
  obtain ⟨name, hname⟩ := exists_authzidName hnul
  have hsends : (ClientStep.ofCall utils ctx params none 0 prompts out oparams).Sends
      (authzid.filter (· ≠ "")) token :=
    ⟨Nat.zero_le _, rfl, decide_eq_false (Nat.not_lt.2 h.ssf), ⟨_, huser, readAuthzid_utf8 authzid⟩, hpass,
      canon, name, hcanon, hname, hok _, hok _⟩
  obtain ⟨calls, hrun⟩ := run_of_sends hsends
  rw [buildClientResponse_filter] at hrun
  refine ⟨_, ?_, congrArg ClientResult.out hrun⟩
  simp only [clientMechStep, hutils, hrun]
  rfl

/-- A client that receives a document answers with the one byte. -/
theorem clientMechStep_final {utils : Utils} (hutils : params.utils = some utils) (ctx : ClientContext)
    {doc : Bytes} (hne : doc ≠ []) (hlen : doc.length ≤ maxServerinLen) (prompts : Prompts) (out : OutBuf)
    (oparams : OutParams) :
    ∃ result, clientMechStep (some ctx) (some params) (some doc) doc.length prompts (some out)
        (some oparams) = (saslOk, some result) ∧ result.out = some [0x01] := by
  have hshort : ¬maxServerinLen < doc.length % 2 ^ 32 := by
    have := Nat.mod_le doc.length (2 ^ 32)
    omega
  have hfinal : decide (doc.length ≠ 0) = true := by simpa using hne
  simp only [clientMechStep, hutils, ClientStep.ofCall, ClientStep.run, Option.map_some, Option.getD_some,
    List.take_length, if_neg hshort, hfinal, if_true]
  exact ⟨_, rfl, rfl⟩

/-! ## Both sides -/

theorem CanonicalizedAs.all_ok {u : String} {calls : List (CanonCall × Int)}
    (h : CanonicalizedAs u authzid calls) : ∀ c ∈ calls, saslOk = c.2 := by
  obtain ⟨authcid, -, h⟩ := h
  cases ha : authzid.filter (· ≠ "") with
  | none =>
    rw [ha] at h
    simp [h]
  | some a =>
    rw [ha] at h
    obtain ⟨name, -, rfl⟩ := h
    simp

/-- The step of the server for a message. -/
def serverAnswer (jose : Jose Jwk Key) (config : ServerConfig Key) (now : Option UInt64) (utils : Utils)
    (canon : CanonUser) (msg : Bytes) (s : ServerState) : ServerResult :=
  ServerInput.step jose config { now, utils, input := msg, canon := some canon } s

variable {utils : Utils} {now : Option UInt64} {canon : CanonUser}

/-- The server finds the client response in the message of the client. -/
theorem carries_buildClientResponse (hauthzid : ∀ a, authzid = some a → '\x01' ∉ a.toList) (hne : token ≠ "")
    (htoken : '\x01' ∉ token.toList) (hlen : (buildClientResponse authzid token).length ≤ maxClientinLen)
    (htls : TlsMet config utils) :
    ServerInput.Carries config
      { now, utils, input := buildClientResponse authzid token, canon := some canon }
      { authzid := authzid.filter (· ≠ ""), token } :=
  ⟨htls, hlen, parseClientResponse_buildClientResponse_iff.2 ⟨hne, htoken, hauthzid⟩⟩

/-- The answer to a message with an accepted token: `canon_user` is asked for the names until
    one is refused, and if none is, the server accepts. -/
theorem serverAnswer_verified (hnul : ∀ a, authzid = some a → '\x00' ∉ a.toList) {msg : Bytes}
    (hcarries : ServerInput.Carries config { now, utils, input := msg, canon := some canon }
      { authzid := authzid.filter (· ≠ ""), token })
    {u : String} (hverify : config.verifier.verify jose now token = .ok u) (s : ServerState) :
    ∃ calls, CanonicalizedAs u authzid calls ∧
      (serverAnswer jose config now utils canon msg s).calls.map Prod.fst <+: calls.map Prod.fst ∧
      (serverAnswer jose config now utils canon msg s).calls ≠ [] ∧
      ((∀ c ∈ calls, canon c.1 = c.2) →
        (serverAnswer jose config now utils canon msg s).calls = calls ∧
        (serverAnswer jose config now utils canon msg s).rc = some saslOk ∧
        (serverAnswer jose config now utils canon msg s).out = none) := by
  obtain ⟨name, hname⟩ := exists_bytes_of_nul hnul
  -- The verifier returns no name with a NUL, so `canon_user` can be asked for it.
  obtain ⟨authcid, hu⟩ : ∃ authcid : CString, authcid.bytes = utf8 u :=
    ⟨⟨utf8 u, JwtVerifier.nul_notMem_of_verify hverify⟩, rfl⟩
  obtain ⟨calls, hcalls, hprefix, hsome, hok⟩ := calls_of_canonicalize hu hname canon
  have hstep := step_verified hcarries hverify rfl hu (by rw [Option.filter_filter]; simpa using hname) s
  have hanswered : (serverAnswer jose config now utils canon msg s).calls =
      (canonicalize canon authcid name).2 := by
    rw [serverAnswer, hstep]
    split <;> rfl
  refine ⟨calls, hcalls, hanswered ▸ hprefix, hanswered ▸ hsome, fun hanswers => ?_⟩
  rw [serverAnswer, hstep, hok hanswers]
  exact ⟨rfl, rfl, rfl⟩

/-- Client and server agree on every exchange that follows the protocol: after the one message
    of the client the server asks for the names in it, and accepts if these are accepted; or
    it rejects the token, and the answer of the client to the error document completes the
    failed exchange. -/
theorem exchange_agrees (hnul : ∀ a, authzid = some a → '\x00' ∉ a.toList)
    (hauthzid : ∀ a, authzid = some a → '\x01' ∉ a.toList) (hne : token ≠ "")
    (htoken : '\x01' ∉ token.toList) (hlen : (buildClientResponse authzid token).length ≤ maxClientinLen)
    (hclient : ClientReady params prompts authzid token) (ctx : ClientContext) (out : OutBuf)
    (oparams : OutParams) {utils : Utils} (htls : TlsMet config utils) (now : Option UInt64)
    (canon : CanonUser) (s : ServerState) :
    ∃ result msg, clientMechStep (some ctx) (some params) none 0 prompts (some out) (some oparams) =
        (saslContinue, some result) ∧ result.out = some msg ∧
      (∀ u, config.verifier.verify jose now token = .ok u →
        ∃ calls, CanonicalizedAs u authzid calls ∧
          (serverAnswer jose config now utils canon msg s).calls.map Prod.fst <+: calls.map Prod.fst ∧
          (serverAnswer jose config now utils canon msg s).calls ≠ [] ∧
          ((∀ c ∈ calls, canon c.1 = c.2) →
            (serverAnswer jose config now utils canon msg s).calls = calls ∧
            (serverAnswer jose config now utils canon msg s).rc = some saslOk ∧
            (serverAnswer jose config now utils canon msg s).out = none)) ∧
      ∀ e, config.verifier.verify jose now token = .error e →
        ∃ doc, (serverAnswer jose config now utils canon msg s).rc = some saslContinue ∧
          (serverAnswer jose config now utils canon msg s).out = some doc ∧ doc ≠ [] ∧
          ∀ prompts' out' oparams', ∃ result',
            clientMechStep (some result.ctx) (some params) (some doc) doc.length prompts' (some out')
              (some oparams') = (saslOk, some result') ∧ result'.out = some [0x01] ∧
            ∀ now' canon' s', (serverAnswer jose config now' utils canon' [0x01] s').rc =
              some saslBadauth := by
  obtain ⟨result, hstep, hout⟩ := hclient.initial hnul ctx out oparams
  rw [OutBuf.publish_eq (Nat.lt_of_le_of_lt hlen (by decide))] at hout
  have hcarries := @carries_buildClientResponse _ config _ _ utils now canon hauthzid hne htoken hlen htls
  refine ⟨result, _, hstep, hout, fun u hverify => serverAnswer_verified hnul hcarries hverify s,
    fun e hverify => ?_⟩
  have hanswer := step_rejected hcarries hverify s
  refine ⟨utf8 invalidTokenJson, ?_, ?_, by decide, fun prompts' out' oparams' => ?_⟩
  · rw [serverAnswer, hanswer]
  · rw [serverAnswer, hanswer]
  · -- The document is not empty, so the framework makes the next step of the client its final one.
    obtain ⟨utils', hutils, -⟩ := hclient.utils
    obtain ⟨result', hfinal, hout'⟩ :=
      @clientMechStep_final params _ hutils result.ctx (utf8 invalidTokenJson) (by decide) (by decide)
        prompts' out' oparams'
    refine ⟨result', hfinal, hout', fun now' canon' s' => ?_⟩
    rw [serverAnswer, step_aborts ⟨htls, rfl⟩]

end

/-- A client with a token that the server accepts. -/
theorem exchange_agrees_fixture :
    ∃ msg, (serverAnswer CrudeOAuth.Fixture.jose Fixture.config (some 1000) Fixture.utils (fun _ => saslOk)
      msg Fixture.initial).rc = some saslOk := by
  have hclient : ClientReady
      { utils := some (Fixture.clientUtils (utf8 "a,b") (utf8 CrudeOAuth.Fixture.token))
        canonUser := some fun _ => saslOk, minSsf := 0, externalSsf := 256 }
      (some none) (some "a,b") CrudeOAuth.Fixture.token :=
    ⟨⟨_, rfl, by decide +kernel, rfl⟩, by decide, ⟨_, rfl, fun _ => rfl⟩⟩
  have htls : TlsMet Fixture.config Fixture.utils := fun _ => ⟨256, rfl, Nat.le_refl _⟩
  obtain ⟨result, msg, -, -, haccept, -⟩ := @exchange_agrees _ _ CrudeOAuth.Fixture.jose _ _ _ _ _
    (by rintro _ ⟨⟩; decide) (by rintro _ ⟨⟩; decide) (by decide) (by decide) (by decide +kernel) hclient
    .new none Fixture.oparams _ htls (some 1000) (fun _ => saslOk) Fixture.initial
  obtain ⟨calls, hcalls, -, -, hok⟩ := haccept _ CrudeOAuth.Fixture.verify_token
  exact ⟨msg, (hok hcalls.all_ok).2.1⟩

end CrudeOAuth.Sasl
