import CrudeOAuth.Pam.Answers
import CrudeOAuth.SamePolicy
import CrudeOAuth.Sasl.ServerRun

/-!
# One login for two services

Where the PAM module and the server plugin share a configuration file, a token logs a user in to
one of the services exactly if it does to the other, at any time; and if one of them cannot be
configured, nobody can log in to the other (`same_logins`).
-/

namespace CrudeOAuth

open Rust Rust.Outcome Machine

variable {Jwk Key : Type} {jose : Jose Jwk Key} {raw : List String} {files : String → FileId × File}
  {utils : Sasl.Utils} {path contents : String} {entries : List (String × String)}

/-- Reads a file as a text. -/
def readFile (files : String → FileId × File) (path : String) : Except String String :=
  Pam.readToString (files path).2.content

/-- The stack arguments select a file that the module accepts, and the plugin is given the options
    that the file says. -/
structure Shares (raw : List String) (files : String → FileId × File) (utils : Sasl.Utils) (path contents : String)
    (entries : List (String × String)) : Prop where
  selected : Pam.configPath raw = .ok (some path)
  isFile : (files path).2.isFile = true
  mode : (files path).2.mode &&& 0o022 = 0
  content : (files path).2.content = utf8 contents
  nul : '\x00' ∉ contents.toList
  lines : Pam.parseLines contents path = .ok entries
  serves : Serves utils entries

/-- The module loads the options that the plugin reads. -/
theorem Shares.loadConfig_eq_ok (h : Shares raw files utils path contents entries) {args : Pam.PamArgs} :
    Pam.loadConfig raw files = .ok args ↔
      ∃ options, PolicyOptions.read utils.option = .ok options ∧ args = .ofOptions options := by
  have haccept : Pam.acceptConfigFile path ((files path).2.metadata (files path).1) = .ok () :=
    Pam.acceptConfigFile_eq_ok.2 ⟨h.isFile, h.mode⟩
  rw [read_option_eq h.nul h.lines h.serves, ← Pam.parseConfig_eq_ok h.lines, Pam.loadConfig, h.selected, ok_bind]
  dsimp only
  rw [haccept]
  dsimp only
  rw [Pam.readConfigFile_eq_ok]
  constructor
  · rintro ⟨text, htext, hparse⟩
    obtain rfl := utf8_injective (htext.symm.trans h.content)
    exact hparse
  · exact fun hparse => ⟨contents, h.content, hparse⟩

theorem Shares.noTls (h : Shares raw files utils path contents entries) :
    getOption utils.option "oauthbearer_no_tls" = .ok (entries.lookup "oauthbearer_no_tls") :=
  getOption_eq_ok.2 (option_eq_lookupEntry h.serves (fun _ _ => nul_notMem_of_parseLines h.nul h.lines) (by decide))

/-- Both services get verifiers that give the same results, or none gets one. -/
theorem Shares.verifiers (jose : Jose Jwk Key) (h : Shares raw files utils path contents entries) :
    (∃ args verifier server, Pam.loadConfig raw files = .ok args ∧ Pam.loadVerifier jose args files = .ok verifier ∧
        Sasl.ServerConfig.fromSasl jose (readFile files) utils = .ok server ∧
        ∀ now token, verifier.verify jose now token = server.verifier.verify jose now token) ∨
      (∀ args, Pam.loadConfig raw files = .ok args → ∃ e, Pam.loadVerifier jose args files = .error e) ∧
        ∀ server, Sasl.ServerConfig.fromSasl jose (readFile files) utils ≠ .ok server := by
  have hnone : (∃ e, Sasl.ServerConfig.fromSasl jose (readFile files) utils = .err e) →
      ∀ server, Sasl.ServerConfig.fromSasl jose (readFile files) utils ≠ .ok server := by
    rintro ⟨e, he⟩ server hserver
    cases he.symm.trans hserver
  rcases hread : PolicyOptions.read utils.option with options | e | _
  · have hload := h.loadConfig_eq_ok.2 ⟨options, hread, rfl⟩
    have honly : ∀ args, Pam.loadConfig raw files = .ok args → args = .ofOptions options := fun args hargs =>
      Outcome.ok.inj (hargs.symm.trans hload)
    by_cases hmissing : options.trustedIssuer = none ∨ options.jwksPath = none
    · refine .inr ⟨fun args hargs => ?_, hnone (fromSasl_eq_err hread h.noTls hmissing _)⟩
      rw [honly args hargs]
      exact ⟨_, verifier_eq_missing hmissing _⟩
    · rw [not_or] at hmissing
      obtain ⟨iss, hiss⟩ := Option.ne_none_iff_exists'.1 hmissing.1
      obtain ⟨jwksPath, hjwks⟩ := Option.ne_none_iff_exists'.1 hmissing.2
      rcases verifiers_of_options hread h.noTls hiss hjwks (readFile files) with
        ⟨verifier, server, hverifier, hserver, hsame⟩ | ⟨⟨e, he⟩, hserver⟩
      · exact .inl ⟨_, verifier, server, hload, hverifier, hserver, hsame⟩
      · refine .inr ⟨fun args hargs => ?_, hnone hserver⟩
        rw [honly args hargs]
        exact ⟨e, he⟩
  all_goals
    refine .inr ⟨fun args hargs => ?_, fun server hserver => ?_⟩
    · obtain ⟨options, hoptions, -⟩ := h.loadConfig_eq_ok.1 hargs
      cases hread.symm.trans hoptions
    · rw [fromSasl_eq, hread] at hserver
      cases hserver

/-- The environment of the module is in order: the remote host is allowed, the account can be looked
    up, and there is a token. -/
structure Pam.PamHandle.Presents (pam : Pam.PamHandle) (raw : List String) (user : CString) (token : String) : Prop where
  rhost : pam.FromAllowedHost (Pam.onlyFromArgs raw)
  getUser : pam.getUser = (Pam.pamSuccess, some user)
  getpwnam : (pam.getpwnam user).1 = 0
  givesToken : pam.GivesToken token

/-- A token logs a user in to the module. -/
theorem authenticate_plain_iff {pam : Pam.PamHandle} {user : CString} {token : String}
    (hpam : pam.Presents raw user token) {now : Option UInt64} :
    (Pam.authenticate jose now pam (Pam.plainConfig jose raw files)).rc = some Pam.pamSuccess ↔
      ∃ args verifier u, Pam.loadConfig raw files = .ok args ∧ Pam.loadVerifier jose args files = .ok verifier ∧
        verifier.verify jose now token = .ok u ∧ utf8 u = user.bytes := by
  rw [Pam.authenticate_eq_success]
  constructor
  · rintro ⟨config, hconfig, -, user', token', verifier, u, huser, -, htoken, hverifier, hverify, hname⟩
    obtain ⟨-, huser⟩ := Prod.mk.inj (hpam.getUser.symm.trans huser)
    obtain rfl := Option.some.inj huser
    obtain rfl := Except.ok.inj ((Pam.token_eq_ok.2 hpam.givesToken).symm.trans (Pam.token_eq_ok.2 htoken))
    have hload : Pam.loadConfig raw files = .ok config.args := by
      have hargs := @Pam.args_plainConfig _ _ jose raw files
      rw [hconfig] at hargs
      exact hargs.symm
    rw [Pam.plainConfig_of_loadConfig hload] at hconfig
    refine ⟨config.args, verifier, u, hload, ?_, hverify, hname⟩
    rw [← hverifier, ← Outcome.ok.inj hconfig]
  · rintro ⟨args, verifier, u, hload, hverifier, hverify, hname⟩
    exact ⟨_, Pam.plainConfig_of_loadConfig hload, hpam.rhost, user, token, verifier, u, hpam.getUser, hpam.getpwnam,
      hpam.givesToken, hverifier, hverify, hname⟩

/-- What the server makes of a token without an authorization name: it accepts exactly if the token is
    that of a name, and then it has asked for this name. -/
theorem step_iff {server : Sasl.ServerConfig Key} {i : Sasl.ServerInput} {token : String} {user : CString}
    {canon : Sasl.CanonUser} (hcarries : i.Carries server { authzid := none, token }) (hcanon : i.canon = some canon)
    (hok : canon (Sasl.canonCall user (Sasl.saslCuAuthid ||| Sasl.saslCuAuthzid)) = Sasl.saslOk) (s : Sasl.ServerState) :
    ((i.step jose server s).rc = some Sasl.saslOk ∧
        (i.step jose server s).calls = [(Sasl.canonCall user (Sasl.saslCuAuthid ||| Sasl.saslCuAuthzid), Sasl.saslOk)]) ↔
      ∃ u, server.verifier.verify jose i.now token = .ok u ∧ utf8 u = user.bytes := by
  constructor
  · rintro ⟨hrc, hcalls⟩
    have hserved : Sasl.Served jose server i s (i.step jose server s) := Sasl.served_step i s
    generalize i.step jose server s = r at hserved hrc hcalls
    cases hserved with
    | accepted response u hcarries' hverify canon' calls hcanon' hnames hanswers =>
      obtain rfl := Outcome.ok.inj (hcarries.parse.symm.trans hcarries'.parse)
      obtain ⟨authcid, hauthcid, hnames⟩ := hnames
      obtain rfl : calls = [(Sasl.canonCall authcid (Sasl.saslCuAuthid ||| Sasl.saslCuAuthzid), Sasl.saslOk)] := hnames
      have hname : authcid = user :=
        congrArg Sasl.CanonCall.name (Prod.mk.inj (List.cons.inj hcalls).1).1
      exact ⟨u, hverify, hname ▸ hauthcid.symm⟩
    | refused | aborted | rejected => cases hcalls
    | canonRefused canon' rc hne => exact absurd (Option.some.inj hrc) hne
  · rintro ⟨u, hverify, hu⟩
    have hcalls : Sasl.CanonicalizedAs u none
        [(Sasl.canonCall user (Sasl.saslCuAuthid ||| Sasl.saslCuAuthzid), Sasl.saslOk)] := ⟨user, hu.symm, rfl⟩
    rw [Sasl.step_accepted hcarries hverify hcanon hcalls (by simpa using hok)]
    exact ⟨rfl, rfl⟩

/-- The services share their logins: a token logs a user in to the module exactly if it does to the
    plugin, on a connection secured by TLS. -/
theorem same_logins (h : Shares raw files utils path contents entries) {pam : Pam.PamHandle} {user : CString}
    {token : String} (hpam : pam.Presents raw user token) {i : Sasl.ServerInput}
    (hssf : ∃ ssf, i.utils.externalSsf = .ok ssf ∧ 256 ≤ ssf) (hlength : i.input.length ≤ Sasl.maxClientinLen)
    (hparse : parseClientResponse i.input = .ok { authzid := none, token }) {canon : Sasl.CanonUser}
    (hcanon : i.canon = some canon)
    (hok : canon (Sasl.canonCall user (Sasl.saslCuAuthid ||| Sasl.saslCuAuthzid)) = Sasl.saslOk) (s : Sasl.ServerState) :
    (Pam.authenticate jose i.now pam (Pam.plainConfig jose raw files)).rc = some Pam.pamSuccess ↔
      ∃ server, Sasl.ServerConfig.fromSasl jose (readFile files) utils = .ok server ∧
        (i.step jose server s).rc = some Sasl.saslOk ∧
        (i.step jose server s).calls =
          [(Sasl.canonCall user (Sasl.saslCuAuthid ||| Sasl.saslCuAuthzid), Sasl.saslOk)] := by
  have hstep : ∀ server : Sasl.ServerConfig Key, ((i.step jose server s).rc = some Sasl.saslOk ∧
      (i.step jose server s).calls = [(Sasl.canonCall user (Sasl.saslCuAuthid ||| Sasl.saslCuAuthzid), Sasl.saslOk)]) ↔
        ∃ u, server.verifier.verify jose i.now token = .ok u ∧ utf8 u = user.bytes :=
    fun server => step_iff ⟨fun _ => hssf, hlength, hparse⟩ hcanon hok s
  simp only [hstep, authenticate_plain_iff hpam]
  rcases h.verifiers jose with ⟨args, verifier, server, hload, hverifier, hserver, hsame⟩ | ⟨hnone, hnone'⟩
  · constructor
    · rintro ⟨args', verifier', u, hload', hverifier', hverify, hu⟩
      obtain rfl := Outcome.ok.inj (hload.symm.trans hload')
      obtain rfl := Except.ok.inj (hverifier.symm.trans hverifier')
      exact ⟨server, hserver, u, (hsame _ _).symm.trans hverify, hu⟩
    · rintro ⟨server', hserver', u, hverify, hu⟩
      obtain rfl := Outcome.ok.inj (hserver.symm.trans hserver')
      exact ⟨args, verifier, u, hload, hverifier, (hsame _ _).trans hverify, hu⟩
  · constructor
    · rintro ⟨args, verifier, -, hload, hverifier, -⟩
      obtain ⟨e, he⟩ := hnone args hload
      cases he.symm.trans hverifier
    · rintro ⟨server, hserver, -⟩
      exact absurd hserver (hnone' server)

namespace Fixture

def loginFiles (path : String) : FileId × File :=
  (⟨2049, 12⟩, { content := utf8 (if path = "oauth.conf" then loginText else jwksJson), mode := 0o600, isFile := true
                 mtime := 0, ctime := 0 })

def loginInput : Sasl.ServerInput where
  now := some 1000
  utils := { utilsOf loginEntries with getprop := some (Sasl.saslOk, some 256) }
  input := buildClientResponse none token
  canon := some fun _ => Sasl.saslOk

theorem shares : Shares ["config=oauth.conf"] loginFiles (utilsOf loginEntries) "oauth.conf" loginText loginEntries where
  selected := by decide +kernel
  isFile := rfl
  mode := by decide +kernel
  content := by rw [loginFiles, if_pos rfl]
  nul := by decide +kernel
  lines := by decide +kernel
  serves := serves_utilsOf _

end Fixture

/-- The administrator logs in to the module, and so to the plugin. -/
theorem same_logins_fixture : ∃ server,
    Sasl.ServerConfig.fromSasl Fixture.jose (readFile Fixture.loginFiles) (Fixture.utilsOf Fixture.loginEntries) = .ok server ∧
      (Fixture.loginInput.step Fixture.jose server ⟨.new, ⟨0, 0, 0, 0, 0, 0, 0, 0⟩⟩).rc = some Sasl.saslOk := by
  have hpam : Pam.Fixture.pam.Presents ["config=oauth.conf"] ⟨utf8 "administrator", by decide⟩ Fixture.token :=
    ⟨.inl (by decide +kernel), rfl, rfl, .inr ⟨rfl, ⟨utf8 Fixture.token, by decide⟩, ⟨_, rfl, rfl⟩, rfl⟩⟩
  have hlogin : (Pam.authenticate Fixture.jose (some 1000) Pam.Fixture.pam
      (Pam.plainConfig Fixture.jose ["config=oauth.conf"] Fixture.loginFiles)).rc = some Pam.pamSuccess := by
    decide +kernel
  obtain ⟨server, hserver, hrc, -⟩ := (same_logins (i := Fixture.loginInput) Fixture.shares hpam ⟨256, rfl, Nat.le_refl _⟩
    (by decide +kernel) (by decide +kernel) rfl rfl _).1 hlogin
  exact ⟨server, hserver, hrc⟩

end CrudeOAuth
