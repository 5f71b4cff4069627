import CrudeOAuth.Core.Options
import CrudeOAuth.Pam.Authenticate
import CrudeOAuth.Pam.Lines
import CrudeOAuth.Sasl.Config

/-!
# One policy for two services

The PAM module with a `config=` file and the server plugin apply the same policy
(`samePolicy`), where the options that the plugin looks up are those that the file says
(`Serves`).

Their options are the same, as the two lookups agree on names without NUL. From there
the policy goes on through two records; the module finds out last that the issuer or the
path of the keys is missing, and the plugin first.
-/

namespace CrudeOAuth

open Rust Rust.Outcome

variable {Jwk Key : Type} {jose : Jose Jwk Key} {contents path : String} {entries : List (String × String)}
  {utils : Sasl.Utils}

/-- For each name, `getopt` returns the value of the first entry with the name, as a C string. -/
def Serves (utils : Sasl.Utils) (entries : List (String × String)) : Prop :=
  ∃ getopt, utils.getopt = some getopt ∧ ∀ (name : String) (c : CString), c.bytes = utf8 name →
    match entries.lookup name with
    | some v => ∃ rest, getopt c = (Sasl.saslOk, some (utf8 v ++ 0 :: rest))
    | none => (getopt c).1 ≠ 0 ∨ (getopt c).2 = none

/-! ## The same options -/

/-- The value of an entry is a part of its line. -/
theorem mem_of_entryOf {line k v : String} {c : Char} (h : Pam.entryOf line = some (k, v)) (hc : c ∈ v.toList) :
    c ∈ line.toList := by
  rw [Pam.entryOf] at h
  split at h
  · cases h
  · obtain ⟨⟨key, rest⟩, hsplit, hentry⟩ := Option.map_eq_some_iff.1 h
    obtain ⟨-, rfl⟩ := Prod.mk.inj hentry
    refine mem_of_mem_trimStart ?_
    rw [(splitOnce_eq_some.1 hsplit).1, String.toList_append]
    exact List.mem_append_right _ (mem_of_mem_trim hc)

/-- A file without NULs has no values with NULs. -/
theorem nul_notMem_of_parseLines (hnul : '\x00' ∉ contents.toList)
    (h : Pam.parseLines contents path = .ok entries) {k v : String} (hv : (k, v) ∈ entries) :
    '\x00' ∉ v.toList := by
  obtain ⟨-, rfl⟩ := Pam.parseLines_eq_ok.1 h
  obtain ⟨line, hline, hentry⟩ := List.mem_filterMap.1 hv
  exact fun hc => hnul (mem_of_mem_lines hline (mem_of_entryOf hentry hc))

theorem option_eq_lookupEntry (hserves : Serves utils entries)
    (hvalues : ∀ k v, (k, v) ∈ entries → '\x00' ∉ v.toList) {name : String} (hname : '\x00' ∉ name.toList) :
    utils.option name = Pam.lookupEntry entries name := by
  obtain ⟨getopt, hgetopt, hanswers⟩ := hserves
  obtain ⟨c, hc⟩ := CString.exists_utf8 hname
  have hanswer := hanswers name c hc
  rw [Sasl.Utils.option, hgetopt]
  dsimp only
  rw [CString.new_eq_some.2 hc]
  dsimp only
  rw [Pam.lookupEntry]
  cases hlookup : entries.lookup name with
  | some v =>
    rw [hlookup] at hanswer
    obtain ⟨rest, hanswer⟩ := hanswer
    obtain ⟨before, after, hentries, -⟩ := List.lookup_eq_some_iff.1 hlookup
    have hv : '\x00' ∉ v.toList :=
      hvalues name v (hentries ▸ List.mem_append_right _ List.mem_cons_self)
    have hmemory : (CString.ofMemory (utf8 v ++ 0 :: rest)).bytes = utf8 v := CString.ofMemory_utf8 hv rest
    rw [hanswer]
    dsimp only
    rw [if_neg (by decide), Option.map_some, hmemory, fromUtf8Lossy_utf8]
  | none =>
    rw [hlookup] at hanswer
    rcases hanswer with hrc | hnull
    · rw [if_pos hrc]
    · rw [hnull]
      split <;> rfl

/-- The plugin reads what the file says. -/
theorem read_option_eq (hnul : '\x00' ∉ contents.toList) (hlines : Pam.parseLines contents path = .ok entries)
    (hserves : Serves utils entries) :
    PolicyOptions.read utils.option = PolicyOptions.read (Pam.lookupEntry entries) :=
  PolicyOptions.read_congr fun _ hname =>
    option_eq_lookupEntry hserves (fun _ _ => nul_notMem_of_parseLines hnul hlines) hname

/-! ## The same policy -/

/-- The policy of the server plugin. -/
def serverPolicy (options : PolicyOptions) (trustedIssuer : String) : JwtPolicy where
  uidAttr := options.uidAttr
  grace := options.grace
  trustedIssuer := trustedIssuer
  trustedAudiences := options.trustedAudiences
  trustedAuthorizedParties := options.trustedAuthorizedParties
  requiredScopes := options.requiredScopes
  disallowedUsernames := options.disallowedUsernames
  allowedAlgorithms := options.allowedAlgorithms
  disallowedAlgorithms := options.disallowedAlgorithms

/-- The plugin is configured with a verifier of this policy, and no other. -/
theorem fromSasl_eq (readFile : String → Except String String) : Sasl.ServerConfig.fromSasl jose readFile utils = (do
    let options ← Sasl.ofOptions (PolicyOptions.read utils.option)
    let noTls ← Sasl.ofOptions (getOption utils.option "oauthbearer_no_tls")
    let trustedIssuer ← okOr options.trustedIssuer .noTrustedIssuer
    let jwksFilename ← okOr options.jwksPath .noJwks
    match readFile jwksFilename with
    | .error e => .err (.readJwks jwksFilename e)
    | .ok jwksJson =>
      match JwtVerifier.fromJwksJson jose (serverPolicy options trustedIssuer) jwksJson with
      | .ok verifier => .ok { tlsRequired := noTls ≠ some "1", verifier }
      | .error e => .err (.verifier e)) := by
  rw [Sasl.ServerConfig.fromSasl]
  refine congrArg _ (funext fun options => congrArg _ (funext fun noTls => congrArg _ (funext fun iss =>
    congrArg _ (funext fun jwksPath => ?_))))
  cases readFile jwksPath <;> rfl

section Options

variable {options : PolicyOptions} {noTls : Option String}

theorem verifier_eq_missing (hmissing : options.trustedIssuer = none ∨ options.jwksPath = none)
    (readFile : String → Except String String) :
    (Pam.PamArgs.ofOptions options).verifier jose readFile = .error .missing := by
  have hargs : (Pam.PamArgs.ofOptions options).iss = none ∨ (Pam.PamArgs.ofOptions options).jwks = none := hmissing
  rw [Pam.PamArgs.verifier, Pam.PamArgs.source]
  rcases hargs with hnone | hnone
  · rw [hnone]
    rfl
  · rw [hnone]
    cases (Pam.PamArgs.ofOptions options).iss <;> rfl

variable (hoptions : PolicyOptions.read utils.option = .ok options)
  (hnoTls : getOption utils.option "oauthbearer_no_tls" = .ok noTls)
include hoptions hnoTls

/-- With an issuer and the path of the keys, both load the keys under the same policy. -/
theorem verifiers_of_options {iss jwksPath : String} (hiss : options.trustedIssuer = some iss)
    (hjwks : options.jwksPath = some jwksPath) (readFile : String → Except String String) :
    (∃ verifier config, (Pam.PamArgs.ofOptions options).verifier jose readFile = .ok verifier ∧
        Sasl.ServerConfig.fromSasl jose readFile utils = .ok config ∧
        ∀ now token, verifier.verify jose now token = config.verifier.verify jose now token) ∨
      (∃ e, (Pam.PamArgs.ofOptions options).verifier jose readFile = .error e) ∧
        ∃ e, Sasl.ServerConfig.fromSasl jose readFile utils = .err e := by
  have hargsIss : (Pam.PamArgs.ofOptions options).iss = some iss := hiss
  have hargsJwks : (Pam.PamArgs.ofOptions options).jwks = some jwksPath := hjwks
  have hpolicy : (Pam.PamArgs.ofOptions options).policy iss = serverPolicy options iss := rfl
  rw [Pam.PamArgs.verifier, Pam.PamArgs.source, hargsIss, hargsJwks, fromSasl_eq, hoptions, hnoTls]
  simp only [Sasl.ofOptions, ok_bind, except_ok_bind, hiss, hjwks, okOr_some, Pam.PamArgs.build, hpolicy]
  cases readFile jwksPath with
  | error e => exact .inr ⟨⟨_, rfl⟩, _, rfl⟩
  | ok jwksJson =>
    simp only [Except.mapError, except_ok_bind]
    cases JwtVerifier.fromJwksJson jose (serverPolicy options iss) jwksJson with
    | error e => exact .inr ⟨⟨_, rfl⟩, _, rfl⟩
    | ok verifier => exact .inl ⟨verifier, _, rfl, rfl, fun _ _ => rfl⟩

theorem fromSasl_eq_err (hmissing : options.trustedIssuer = none ∨ options.jwksPath = none)
    (readFile : String → Except String String) :
    ∃ e, Sasl.ServerConfig.fromSasl jose readFile utils = .err e := by
  rw [fromSasl_eq, hoptions, hnoTls]
  simp only [Sasl.ofOptions, ok_bind]
  rcases hmissing with hnone | hnone
  · rw [hnone]
    exact ⟨_, rfl⟩
  · rw [hnone]
    cases options.trustedIssuer with
    | none => exact ⟨_, rfl⟩
    | some iss => exact ⟨_, rfl⟩

end Options

/-- The services apply the same policy. -/
structure SamePolicy (jose : Jose Jwk Key) (contents path : String) (utils : Sasl.Utils) : Prop where
  /-- both are refused their options, or none -/
  read : (∃ args, Pam.parseConfig contents path = .ok args) ↔
    ∃ options, PolicyOptions.read utils.option = .ok options
  /-- with an issuer and the path of the keys, they load the keys under the same policy -/
  policy : ∀ args options iss jwksPath, Pam.parseConfig contents path = .ok args →
    PolicyOptions.read utils.option = .ok options → args.iss = some iss → args.jwks = some jwksPath →
    options.trustedIssuer = some iss ∧ options.jwksPath = some jwksPath ∧
      serverPolicy options iss = args.policy iss
  /-- and then both have verifiers, which give the same results, or none has one -/
  verifier : ∀ args iss jwksPath, Pam.parseConfig contents path = .ok args →
    args.iss = some iss → args.jwks = some jwksPath → ∀ readFile,
    (∃ verifier config, args.verifier jose readFile = .ok verifier ∧
        Sasl.ServerConfig.fromSasl jose readFile utils = .ok config ∧
        ∀ now token, verifier.verify jose now token = config.verifier.verify jose now token) ∨
      (∃ e, args.verifier jose readFile = .error e) ∧
        ∃ e, Sasl.ServerConfig.fromSasl jose readFile utils = .err e
  /-- without one of these, neither has a verifier, and the module lets nobody in -/
  missing : ∀ args, Pam.parseConfig contents path = .ok args → args.iss = none ∨ args.jwks = none →
    ∀ readFile, args.verifier jose readFile = .error .missing ∧
      (∃ e, Sasl.ServerConfig.fromSasl jose readFile utils = .err e) ∧
      ∀ (raw : List String) (config : Pam.Config raw Key) now pam,
        config.verifier = args.verifier jose readFile →
          (Pam.authenticate jose now pam (.ok config)).rc ≠ some Pam.pamSuccess

/-- The services apply the same policy if the plugin is asked for the options of the file. -/
theorem samePolicy (hnul : '\x00' ∉ contents.toList) (hlines : Pam.parseLines contents path = .ok entries)
    (hserves : Serves utils entries) : SamePolicy jose contents path utils := by
  have hread := read_option_eq hnul hlines hserves
  have hnoTls : getOption utils.option "oauthbearer_no_tls" = .ok (entries.lookup "oauthbearer_no_tls") :=
    getOption_eq_ok.2 (option_eq_lookupEntry hserves (fun _ _ => nul_notMem_of_parseLines hnul hlines) (by decide))
  have hargs : ∀ args, Pam.parseConfig contents path = .ok args ↔
      ∃ options, PolicyOptions.read utils.option = .ok options ∧ args = .ofOptions options := by
    intro args
    rw [hread]
    exact Pam.parseConfig_eq_ok hlines
  constructor
  · constructor
    · rintro ⟨args, h⟩
      obtain ⟨options, hoptions, -⟩ := (hargs args).1 h
      exact ⟨options, hoptions⟩
    · rintro ⟨options, h⟩
      exact ⟨_, (hargs _).2 ⟨options, h, rfl⟩⟩
  · intro args options iss jwksPath h hoptions hiss hjwks
    obtain ⟨options', hoptions', rfl⟩ := (hargs args).1 h
    obtain rfl := Outcome.ok.inj (hoptions.symm.trans hoptions')
    exact ⟨hiss, hjwks, rfl⟩
  · intro args iss jwksPath h hiss hjwks readFile
    obtain ⟨options, hoptions, rfl⟩ := (hargs args).1 h
    exact verifiers_of_options hoptions hnoTls hiss hjwks readFile
  · intro args h hmissing readFile
    obtain ⟨options, hoptions, rfl⟩ := (hargs args).1 h
    have hverifier := @verifier_eq_missing _ _ jose _ hmissing readFile
    refine ⟨hverifier, fromSasl_eq_err hoptions hnoTls hmissing readFile, fun raw config now pam hconfig hsuccess => ?_⟩
    obtain ⟨-, -, -, verifier, -, -, -, -, hok, -⟩ := Pam.admits_of_authenticate hsuccess
    rw [hconfig, hverifier] at hok
    cases hok

namespace Fixture

def loginEntries : List (String × String) :=
  [("oauthbearer_trusted_iss0", "https://sso.example.org/realms/master"), ("oauthbearer_trusted_jwks0", "keys.json"),
    ("oauthbearer_trusted_aud0", "ldaps://example.org/")]

/-- The configuration file of both services. -/
def loginText : String :=
  "# shared\nOAuthBearer_Trusted_Iss0: https://sso.example.org/realms/master\r\n" ++
    "oauthbearer_trusted_jwks0:keys.json\noauthbearer_trusted_aud0: ldaps://example.org/\n"

/-- Services that look options up in some entries. -/
def utilsOf (entries : List (String × String)) : Sasl.Utils where
  getopt := some fun c =>
    match (fromUtf8 c.bytes).bind fun name => entries.lookup name with
    | some v => (Sasl.saslOk, some (utf8 v ++ [0]))
    | none => (Sasl.saslFail, none)
  getprop := none
  getcallback := none
  malloc := none

theorem serves_utilsOf (entries : List (String × String)) : Serves (utilsOf entries) entries := by
  refine ⟨_, rfl, fun name c hc => ?_⟩
  rw [hc, fromUtf8_utf8, Option.bind_some]
  cases entries.lookup name with
  | some v => exact ⟨[], rfl⟩
  | none => exact .inr rfl

end Fixture

theorem samePolicy_fixture :
    SamePolicy Fixture.jose Fixture.loginText "oauth.conf" (Fixture.utilsOf Fixture.loginEntries) :=
  samePolicy (by decide +kernel) (by decide +kernel : Pam.parseLines Fixture.loginText _ = .ok Fixture.loginEntries)
    (Fixture.serves_utilsOf _)

end CrudeOAuth
