import CrudeOAuth.Core.Options

/-!
# The allow-list of algorithms

Who sets `oauthbearer_allowed_alg`, with or without a number, should never get the
algorithms that are accepted when it is omitted (`KeepsAllowList`). An empty value with a
number is refused. But a value without a number that has no words in it, such as `,`, is
like an omitted one, and this is the only way to lose an allow-list
(`keepsAllowList_iff`).
-/

namespace CrudeOAuth

open Rust

variable {get : Getter} {options : PolicyOptions}

/-- An allow-list is configured. -/
def AllowListSet (get : Getter) : Prop :=
  (∃ text, get "oauthbearer_allowed_alg" = .ok (some text)) ∨
    ∃ text, get "oauthbearer_allowed_alg0" = .ok (some text)

/-- The list is that of the algorithms that the option names, each of them once. -/
structure AllowList (get : Getter) (algs : List Algorithm) : Prop where
  ne_nil : algs ≠ []
  nodup : algs.Nodup
  names : ∃ names, Listed get "oauthbearer_allowed_alg" names ∧
    ∀ name, name ∈ names ↔ ∃ a ∈ algs, algorithmName a = name

/-- A configured allow-list is the one that is returned, if the options are not refused; none
    is returned only if none is configured. -/
structure KeepsAllowList (get : Getter) : Prop where
  kept : ∀ options, PolicyOptions.read get = .ok options → AllowListSet get →
    ∃ algs, options.allowedAlgorithms = some algs ∧ AllowList get algs
  omitted : ∀ options, PolicyOptions.read get = .ok options → options.allowedAlgorithms = none →
    ¬AllowListSet get

theorem namedAlgorithms_eq_none {parsed : List Algorithm} : namedAlgorithms parsed = none ↔ parsed = [] := by
  unfold namedAlgorithms
  split <;> simp_all

theorem allowList_distinctAlgorithms {parsed : List Algorithm} (hne : parsed ≠ [])
    (h : Listed get "oauthbearer_allowed_alg" (parsed.map algorithmName)) :
    AllowList get (distinctAlgorithms parsed) where
  ne_nil hnil := hne <| List.eq_nil_iff_forall_not_mem.2 fun a ha => by
    rw [← mem_distinctAlgorithms, hnil] at ha
    cases ha
  nodup := nodup_distinctAlgorithms parsed
  names := ⟨_, h, fun name => by simp only [List.mem_map, mem_distinctAlgorithms]⟩

/-- The list is omitted, though configured, if the value without a number has no words. -/
theorem exists_text_of_listed_nil {values : List String} (h : Listed get "oauthbearer_allowed_alg" values)
    (hnil : values = []) (hset : AllowListSet get) :
    ∃ text, get "oauthbearer_allowed_alg0" = .ok none ∧
      get "oauthbearer_allowed_alg" = .ok (some text) ∧ optionWords text = [] := by
  cases h with
  | numbered h hne => exact absurd hnil hne
  | words h htext => exact ⟨_, numbered_nil.1 h, htext, hnil⟩
  | unset h hunset =>
    have hfirst : get "oauthbearer_allowed_alg0" = .ok none := numbered_nil.1 h
    rcases hset with ⟨text, htext⟩ | ⟨text, htext⟩
    · rw [hunset] at htext
      cases htext
    · rw [hfirst] at htext
      cases htext

/-- The options that are read with an allow-list are read without one, where it has no words. -/
theorem exists_read_none {text : String} (hfirst : get "oauthbearer_allowed_alg0" = .ok none)
    (htext : get "oauthbearer_allowed_alg" = .ok (some text)) (hwords : optionWords text = [])
    (hrest : ReadsRest get options) :
    ∃ read, PolicyOptions.read get = .ok read ∧ read.allowedAlgorithms = none := by
  refine ⟨{ options with allowedAlgorithms := none }, PolicyOptions.read_eq_ok.2 ⟨⟨[], ?_, rfl⟩, ?_⟩, rfl⟩
  · have hlisted : Listed get "oauthbearer_allowed_alg" (optionWords text) :=
      .words (numbered_nil.2 hfirst) htext
    rw [hwords] at hlisted
    exact hlisted
  · exact ⟨hrest.userid, hrest.grace, hrest.disallowed, hrest.iss, hrest.jwks, hrest.aud, hrest.azp,
      hrest.scope, hrest.username⟩

/-- An allow-list is kept unless it has no number and no words, and the other options are not
    refused. -/
theorem keepsAllowList_iff : KeepsAllowList get ↔
    ∀ text, get "oauthbearer_allowed_alg0" = .ok none → get "oauthbearer_allowed_alg" = .ok (some text) →
      (∃ options, ReadsRest get options) → ∃ c ∈ text.toList, ¬(c = ',' ∨ isAsciiWhitespace c = true) := by
  constructor
  · rintro h text hfirst htext ⟨options, hrest⟩
    by_contra hsep
    push Not at hsep
    obtain ⟨read, hread, hnone⟩ := exists_read_none hfirst htext (optionWords_eq_nil.2 hsep) hrest
    exact h.omitted read hread hnone (.inl ⟨text, htext⟩)
  · intro h
    have hset : ∀ options, PolicyOptions.read get = .ok options → options.allowedAlgorithms = none →
        ¬AllowListSet get := by
      intro options hread hnone hset
      obtain ⟨⟨parsed, hlisted, halgs⟩, hrest⟩ := PolicyOptions.read_eq_ok.1 hread
      have hnil := namedAlgorithms_eq_none.1 (halgs.symm.trans hnone)
      obtain ⟨text, hfirst, htext, hwords⟩ := exists_text_of_listed_nil hlisted (hnil ▸ rfl) hset
      obtain ⟨c, hc, hsep⟩ := h text hfirst htext ⟨options, hrest⟩
      exact hsep (optionWords_eq_nil.1 hwords c hc)
    refine ⟨fun options hread hconfigured => ?_, hset⟩
    obtain ⟨⟨parsed, hlisted, halgs⟩, -⟩ := PolicyOptions.read_eq_ok.1 hread
    by_cases hnil : parsed = []
    · exact absurd hconfigured (hset options hread (halgs.trans (namedAlgorithms_eq_none.2 hnil)))
    · exact ⟨_, halgs.trans (if_neg hnil), allowList_distinctAlgorithms hnil hlisted⟩

/-- The allow-list is a comma, and all other options are omitted. -/
def Fixture.commaOption : Getter := fun name =>
  .ok (if name = "oauthbearer_allowed_alg" then some "," else none)

/-- This list is omitted, though it is configured. -/
theorem keepsAllowList_counterexample : ¬KeepsAllowList Fixture.commaOption := by
  intro h
  have hread : PolicyOptions.read Fixture.commaOption = .ok {
      uidAttr := "preferred_username"
      grace := 3
      trustedIssuer := none
      jwksPath := none
      trustedAudiences := []
      trustedAuthorizedParties := []
      requiredScopes := []
      disallowedUsernames := []
      allowedAlgorithms := none
      disallowedAlgorithms := [] } := by
    decide +kernel
  exact h.omitted _ hread rfl (.inl ⟨",", rfl⟩)

end CrudeOAuth
