import CrudeOAuth.Core.Rfc7628.RoundTrip
import CrudeOAuth.Sasl.Client

/-!
# What the client sends

The server should read from the response of a client exactly the authorization name
and the token that the application supplied. It does for the values the framing can
carry, in a message whose length fits its length field, and for no others
(`sendsFaithfully_iff`): the client checks that its values are UTF-8 and that the name
contains no NUL, but neither that the token is there nor that the separator is not.
-/

namespace CrudeOAuth.Sasl

open Rust

/-! ## Published messages -/

/-- A message of two parts without separators ends with two of them nowhere but at its end. -/
theorem eq_of_prefix_of_terminated {gs2 field p : Bytes} (hgs2 : kvsep ∉ gs2) (hfield : kvsep ∉ field)
    (hne : field ≠ []) (hp : p <+: gs2 ++ kvsep :: (field ++ [kvsep, kvsep])) (hend : [kvsep, kvsep] <:+ p) :
    p = gs2 ++ kvsep :: (field ++ [kvsep, kvsep]) := by
  obtain ⟨rest, hrest⟩ := hp
  rcases List.eq_nil_or_concat rest with rfl | ⟨rest, x, rfl⟩
  · rw [← hrest, List.append_nil]
  · obtain ⟨q, rfl⟩ := hend
    -- Without its last byte the message has two separators, and these are not adjacent.
    have hinit : (q ++ kvsep :: (kvsep :: rest)) ++ [x] =
        (gs2 ++ kvsep :: (field ++ [kvsep])) ++ [kvsep] := by
      simpa using hrest
    have h := (List.append_inj' hinit rfl).1
    have hq : kvsep ∉ q := by
      have hcount := congrArg (List.count kvsep) h
      simp only [List.count_append, List.count_cons_self, List.count_nil, List.count_eq_zero.2 hgs2,
        List.count_eq_zero.2 hfield] at hcount
      exact List.count_eq_zero.1 (by omega)
    obtain ⟨-, h⟩ := split_unique h hq hgs2
    cases field with
    | nil => exact absurd rfl hne
    | cons y field => exact absurd (List.cons.inj h).1 fun e => hfield (e ▸ List.mem_cons_self)

theorem buildClientResponse_eq {authzid : Option String} (h : ∀ a, authzid = some a → SepFree a)
    (token : String) : ∃ gs2, kvsep ∉ gs2 ∧ buildClientResponse authzid token =
      gs2 ++ kvsep :: (utf8 "auth=Bearer " ++ utf8 token ++ [kvsep, kvsep]) := by
  rw [buildClientResponse]
  cases ha : authzid.filter (· ≠ "") with
  | none => exact ⟨utf8 "n,,", by decide, by simp⟩
  | some a =>
    have hsep := sepFree_iff.1 (sepFree_encodeSaslname (h a (Option.eq_some_of_filter_eq_some ha)))
    refine ⟨utf8 "n,a=" ++ utf8 (encodeSaslname a) ++ utf8 ",", ?_, by simp⟩
    simp only [List.mem_append, not_or]
    exact ⟨⟨by decide, hsep⟩, by decide⟩

/-- What is published of a response is read back as built exactly if the framing can carry
    its content and the length field its length. -/
theorem parse_publish_iff {authzid : Option String} {token : String} {out : Bytes}
    (hout : OutBuf.publish (buildClientResponse authzid token) = some out) :
    parseClientResponse out = .ok { authzid := authzid.filter (· ≠ ""), token } ↔
      Carriable authzid token ∧ (buildClientResponse authzid token).length < 2 ^ 32 := by
  constructor
  · intro h
    have hresponse := parseClientResponse_eq_ok.1 h
    have hc := carriable_of_filter hresponse.carriable
    obtain ⟨gs2, hgs2, hbuild⟩ := buildClientResponse_eq hc.2.2 token
    have hfield : kvsep ∉ utf8 "auth=Bearer " ++ utf8 token := by
      rw [List.mem_append, not_or]
      exact ⟨by decide, sepFree_iff.1 hc.2.1⟩
    have htake := Option.some.inj hout
    have hp : out <+: gs2 ++ kvsep :: (utf8 "auth=Bearer " ++ utf8 token ++ [kvsep, kvsep]) := by
      rw [← hbuild, ← htake]
      exact List.take_prefix _ _
    have hall := eq_of_prefix_of_terminated hgs2 hfield (by simp) hp hresponse.1
    rw [← hbuild, ← htake] at hall
    have hlen := congrArg List.length hall
    rw [List.length_take] at hlen
    refine ⟨hc, ?_⟩
    have := Nat.mod_lt (buildClientResponse authzid token).length (show 0 < 2 ^ 32 by decide)
    omega
  · rintro ⟨hc, hlen⟩
    rw [OutBuf.publish_eq hlen] at hout
    rw [← Option.some.inj hout]
    exact parseClientResponse_buildClientResponse_iff.2 hc

/-! ## The values of the application -/

/-- The name that is sent is the one that was supplied, unless that is empty. -/
theorem map_utf8_of_readAuthzid {v : Option Bytes} {authzid : Option String}
    (h : readAuthzid v = some authzid) : authzid.map utf8 = v.filter (· ≠ []) := by
  unfold readAuthzid at h
  cases hv : v.filter (· ≠ []) with
  | none =>
    rw [hv] at h
    cases h
    rfl
  | some b =>
    rw [hv] at h
    obtain ⟨a, ha, rfl⟩ := Option.map_eq_some_iff.1 h
    rw [Option.map_some, fromUtf8_eq_some.1 ha]

theorem filter_of_readAuthzid {v : Option Bytes} {authzid : Option String}
    (h : readAuthzid v = some authzid) : authzid.filter (· ≠ "") = authzid := by
  cases authzid with
  | none => rfl
  | some a =>
    have hmap := map_utf8_of_readAuthzid h
    have hne : utf8 a ≠ [] := by
      simpa using (Option.filter_eq_some_iff.1 hmap.symm).2
    simpa using hne

/-- If the step answers `SASL_CONTINUE`, the server reads from the published bytes exactly
    the token, and the non-empty authorization name, that the application supplied. -/
def ClientStep.SendsFaithfully (step : ClientStep) : Prop :=
  step.run.rc = some saslContinue → ∃ v t out r,
    step.utils.getSimple step.prompts saslCbUser = .value v ∧
    step.utils.getPassword step.prompts = .value (some t) ∧
    step.run.out = some out ∧ parseClientResponse out = .ok r ∧
    utf8 r.token = t ∧ r.authzid.map utf8 = v.filter (· ≠ [])

variable {self : ClientStep}

/-- The initial step sends faithfully exactly if the values, unless it refuses them, can be
    carried by the framing, in a message whose length fits its length field. -/
theorem sendsFaithfully_iff (hinit : self.isFinal = false) (hno : self.NoContinue) :
    self.SendsFaithfully ↔ ∀ authzid token, self.Sends authzid token →
      Carriable authzid token ∧ (buildClientResponse authzid token).length < 2 ^ 32 := by
  constructor
  · intro h authzid token hsends
    obtain ⟨calls, hrun⟩ := run_of_sends hsends
    obtain ⟨v', huser', hv'⟩ := hsends.user
    obtain ⟨v, t, out, r, huser, hpass, hout, hparse, htoken, hauthzid⟩ := h (by rw [hrun])
    obtain rfl := CbValue.value.inj (huser'.symm.trans huser)
    have ht := Option.some.inj (CbValue.value.inj (hpass.symm.trans hsends.pass))
    have hr : r = { authzid := authzid.filter (· ≠ ""), token } := by
      have h1 : r.authzid = authzid := by
        rw [← map_utf8_of_readAuthzid hv'] at hauthzid
        exact Option.map_injective utf8_injective hauthzid
      have h2 : r.token = token := utf8_injective (htoken.trans ht)
      rw [filter_of_readAuthzid hv', ← h1, ← h2]
    rw [hrun] at hout
    exact (parse_publish_iff hout).1 (hr ▸ hparse)
  · intro h hrc
    obtain ⟨authzid, token, hsends⟩ := sends_of_run hinit hno hrc
    obtain ⟨calls, hrun⟩ := run_of_sends hsends
    obtain ⟨v, huser, hv⟩ := hsends.user
    refine ⟨v, _, _, _, huser, hsends.pass, by rw [hrun]; rfl, (parse_publish_iff rfl).2 (h _ _ hsends),
      rfl, ?_⟩
    rw [filter_of_readAuthzid hv]
    exact map_utf8_of_readAuthzid hv

/-! ## An application -/

namespace Fixture

/-- The services of an application whose callbacks supply a name and a token. -/
def clientUtils (authzid token : Bytes) : Utils where
  getopt := none
  getprop := none
  getcallback := some fun id =>
    if id = saslCbUser then (saslOk, some ⟨saslOk, some (authzid ++ [0])⟩)
    else if id = saslCbPass then (saslOk, some ⟨saslOk, some token⟩)
    else (saslFail, none)
  malloc := some fun _ => true

def client (authzid token : Bytes) : ClientStep where
  utils := clientUtils authzid token
  ctx := .new
  serverIn := []
  isFinal := false
  ssfTooWeak := false
  prompts := some none
  canon := some fun _ => saslOk
  out := none
  oparams := ⟨0, 0, 0, 0, 0, 0, 0, 0⟩

theorem saslOk_ne : saslOk ≠ saslContinue := by decide

theorem noContinue_client (authzid token : Bytes) : (client authzid token).NoContinue where
  canon := by
    rintro _ ⟨⟩ call
    exact saslOk_ne
  lookup := by
    rintro _ ⟨⟩ id
    simp only
    split
    · exact saslOk_ne
    split
    · exact saslOk_ne
    · exact (by decide : saslFail ≠ saslContinue)
  callback := by
    rintro _ ⟨⟩ id cb hcb
    simp only at hcb
    split at hcb
    · cases hcb
      exact saslOk_ne
    split at hcb <;> cases hcb
    exact saslOk_ne

end Fixture

theorem sendsFaithfully_iff_fixture :
    (Fixture.client (utf8 "a,b") (utf8 "t.o.k")).SendsFaithfully := by
  refine (sendsFaithfully_iff rfl (Fixture.noContinue_client _ _)).2 fun authzid token h => ?_
  obtain ⟨v, huser, hv⟩ := h.user
  have hv' : v = some (utf8 "a,b") :=
    (CbValue.value.inj (huser.symm.trans (by decide +kernel :
      (Fixture.client (utf8 "a,b") (utf8 "t.o.k")).utils.getSimple (some none) saslCbUser =
        .value (some (utf8 "a,b")))))
  have ht : utf8 token = utf8 "t.o.k" := Option.some.inj (CbValue.value.inj h.pass).symm
  obtain rfl := utf8_injective ht
  rw [hv'] at hv
  obtain rfl : authzid = some "a,b" := (Option.some.inj hv).symm
  exact ⟨⟨by decide, by decide, by rintro _ ⟨⟩; decide⟩, by decide +kernel⟩

/-- A token with the separator in it makes the server read another token. -/
theorem sendsFaithfully_counterexample :
    ¬(Fixture.client [] (utf8 "t.o.k\x01auth=Bearer o.t.h")).SendsFaithfully := by
  intro h
  obtain ⟨v, t, out, r, -, hpass, hout, hparse, htoken, -⟩ := h (by decide +kernel)
  have ht := Option.some.inj (CbValue.value.inj hpass)
  have hr : parseClientResponse
      (buildClientResponse none "t.o.k\x01auth=Bearer o.t.h") = .ok { authzid := none, token := "o.t.h" } := by
    decide +kernel
  have hout' : (Fixture.client [] (utf8 "t.o.k\x01auth=Bearer o.t.h")).run.out =
      some (buildClientResponse none "t.o.k\x01auth=Bearer o.t.h") := by decide +kernel
  rw [← Option.some.inj (hout'.symm.trans hout)] at hparse
  obtain rfl := Outcome.ok.inj (hr.symm.trans hparse)
  exact absurd (htoken.trans ht.symm) (by decide)

end CrudeOAuth.Sasl
