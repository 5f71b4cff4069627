import CrudeOAuth.Sasl.ServerRun

/-!
# The deny-list of the server

The deny-list is compared with the name in a token before `canon_user` gets to see it, and
`canon_user` may strip whitespace from a name, and change its case. The names that the
verifier returns have no whitespace to strip, and are compared without regard to case: what
becomes of an accepted name is not on the deny-list (`denyList_survives`).
-/

namespace CrudeOAuth.Sasl

open Rust

variable {Jwk Key : Type} {jose : Jose Jwk Key} {config : ServerConfig Key}

/-- What may become of a name: whitespace around it is stripped, and letters of ASCII change
    their case. -/
def Becomes (name w : String) : Prop :=
  ∃ before stripped after, name = before ++ stripped ++ after ∧
    (∀ c ∈ before.toList, isWhitespace c = true) ∧ (∀ c ∈ after.toList, isWhitespace c = true) ∧
    stripped.toList.map Char.toLower = w.toList.map Char.toLower

/-- A text with nothing to strip keeps its letters. -/
theorem Becomes.eqIgnoreCase {name w : String} (h : Becomes name w) (htrimmed : Trimmed name) :
    eqIgnoreCase w name = true := by
  obtain ⟨before, stripped, after, rfl, hbefore, hafter, hcase⟩ := h
  have hnil : before.toList = [] := by
    cases hl : before.toList with
    | nil => rfl
    | cons c l =>
      have hfirst := htrimmed.1 c (by simp [hl])
      rw [hbefore c (hl ▸ List.mem_cons_self)] at hfirst
      cases hfirst
  have hnil' : after.toList = [] := by
    rcases List.eq_nil_or_concat after.toList with hl | ⟨l, c, hl⟩
    · exact hl
    · have hlast := htrimmed.2 c (by simp [hl])
      rw [hafter c (by simp [hl])] at hlast
      cases hlast
  rw [eqIgnoreCase_iff, toAsciiLowercase, toAsciiLowercase, String.toList_append, String.toList_append,
    hnil, hnil', List.nil_append, List.append_nil, hcase]

/-- The names that a token is accepted for do not become names of the deny-list. -/
theorem notMem_of_becomes {self : JwtVerifier Key} {now : Option UInt64} {token u w : String}
    (hverify : self.verify jose now token = .ok u) (h : Becomes u w) :
    w ∉ self.policy.disallowedUsernames := by
  obtain ⟨claims, -, hacceptable⟩ := JwtVerifier.verify_eq_ok_iff.1 hverify
  intro hmem
  have hallowed := hacceptable.allowed w hmem
  rw [h.eqIgnoreCase hacceptable.clean.1] at hallowed
  cases hallowed

/-- The client sent no authorization identity, or an empty one. -/
def NoAuthzid (input : Bytes) : Prop :=
  ∃ response, parseClientResponse input = .ok response ∧
    (response.authzid = none ∨ response.authzid = some "")

/-- The call is for the name of the token: it is for the authentication identity, or for the
    authorization identity where the client sent none. -/
def ForToken (input : Bytes) (call : CanonCall) : Prop :=
  call.flags &&& saslCuAuthid ≠ 0 ∨ call.flags &&& saslCuAuthzid ≠ 0 ∧ NoAuthzid input

/-- In a step that accepts, `canon_user` is called for the name of the token, and what may
    become of this name is not on the deny-list. -/
theorem denyList_survives {i : ServerInput} {s : ServerState}
    (h : (i.step jose config s).rc = some saslOk) :
    (∃ c ∈ (i.step jose config s).calls, c.1.flags &&& saslCuAuthid ≠ 0) ∧
      ∀ c ∈ (i.step jose config s).calls, ForToken i.input c.1 →
        ∃ name : String, c.1.name.bytes = utf8 name ∧
          ∀ w, Becomes name w → w ∉ config.verifier.policy.disallowedUsernames := by
  obtain ⟨response, u, canon, calls, hcarries, hverify, hcanon, hcalls, hanswers⟩ :=
    acceptable_of_served (served_step i s) h
  rw [step_accepted hcarries hverify hcanon hcalls hanswers]
  have hnot := fun w (hw : Becomes u w) => notMem_of_becomes hverify hw
  obtain ⟨authcid, hu, hcalls⟩ := hcalls
  cases ha : response.authzid.filter (· ≠ "") with
  | none =>
    rw [ha] at hcalls
    dsimp only at hcalls
    subst hcalls
    have hboth : (saslCuAuthid ||| saslCuAuthzid) &&& saslCuAuthid ≠ 0 := by decide
    refine ⟨⟨_, List.mem_singleton_self _, hboth⟩, fun c hc _ => ⟨u, ?_, hnot⟩⟩
    rw [List.mem_singleton.1 hc]
    exact hu
  | some a =>
    rw [ha] at hcalls
    obtain ⟨name, -, rfl⟩ := hcalls
    have hself : saslCuAuthid &&& saslCuAuthid ≠ 0 := by decide
    have hother : saslCuAuthzid &&& saslCuAuthid = 0 := by decide
    refine ⟨⟨_, List.mem_cons_of_mem _ (List.mem_singleton_self _), hself⟩, fun c hc htoken => ?_⟩
    rcases List.mem_cons.1 hc with rfl | hc
    · -- This call is for the identity that the client sent.
      rcases htoken with hflags | ⟨-, response', hparse, hnone⟩
      · exact absurd hother hflags
      · obtain rfl := Outcome.ok.inj (hcarries.parse.symm.trans hparse)
        rcases hnone with hnone | hnone <;> simp [hnone] at ha
    · rw [List.mem_singleton.1 hc]
      exact ⟨u, hu, hnot⟩

/-- A token for `administrator`, where `root` is on the deny-list. -/
theorem denyList_survives_fixture :
    ∃ name : String, (∃ c ∈ ((Fixture.input none CrudeOAuth.Fixture.token).step CrudeOAuth.Fixture.jose
        Fixture.config Fixture.initial).calls, c.1.name.bytes = utf8 name) ∧
      ∀ w, Becomes name w → w ∉ Fixture.config.verifier.policy.disallowedUsernames := by
  obtain ⟨⟨c, hc, hflags⟩, hcalls⟩ := @denyList_survives _ _ CrudeOAuth.Fixture.jose Fixture.config
    (Fixture.input none CrudeOAuth.Fixture.token) Fixture.initial (by decide +kernel)
  obtain ⟨name, hname, hnot⟩ := hcalls c hc (.inl hflags)
  exact ⟨name, ⟨c, hc, hname⟩, hnot⟩

end CrudeOAuth.Sasl
