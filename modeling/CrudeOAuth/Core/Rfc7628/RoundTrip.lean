import CrudeOAuth.Core.Rfc7628.Grammar

/-!
# Building and parsing

What `buildClientResponse` writes, `parseClientResponse` reads back, for every
identity and every token the framing can carry: a token must not be empty, and
neither may contain the separator (`parseClientResponse_buildClientResponse_iff`).
An empty identity is not written, and read back as none.

The condition is necessary because of what the parser can return at all
(`IsResponse.carriable`): the separator ends the header and every field, and an
empty token is refused.
-/

namespace CrudeOAuth

open Rust Rust.Outcome

/-- The text does not contain the separator `U+0001`. -/
def SepFree (s : String) : Prop := '\x01' ∉ s.toList

instance (s : String) : Decidable (SepFree s) := inferInstanceAs (Decidable (_ ∉ _))

/-- The framing can carry the identity and the token. -/
def Carriable (authzid : Option String) (token : String) : Prop :=
  token ≠ "" ∧ SepFree token ∧ ∀ a, authzid = some a → SepFree a

theorem sepFree_iff {s : String} : SepFree s ↔ kvsep ∉ utf8 s :=
  not_congr (mem_utf8_ascii (a := '\x01') (by decide)).symm

/-! ## What is read is carriable -/

theorem mem_of_mem_replaceEscapes {l : List Char} {c : Char} (h : c ∈ replaceEscapes l) :
    c = ',' ∨ c = '=' ∨ c ∈ l := by
  induction l using replaceEscapes.induct with
  | case1 => exact absurd h List.not_mem_nil
  | case2 l ih =>
    rcases List.mem_cons.1 h with rfl | h
    · exact .inl rfl
    · exact (ih h).imp id (.imp id (List.mem_append_right ['=', '2', 'C']))
  | case3 l ih =>
    rcases List.mem_cons.1 h with rfl | h
    · exact .inr (.inl rfl)
    · exact (ih h).imp id (.imp id (List.mem_append_right ['=', '3', 'D']))
  | case4 d l h2 h3 ih =>
    rw [replaceEscapes.eq_4 d l h2 h3] at h
    rcases List.mem_cons.1 h with rfl | h
    · exact .inr (.inr List.mem_cons_self)
    · exact (ih h).imp id (.imp id (List.mem_cons_of_mem _))

theorem IsGs2.sepFree {gs2 : Bytes} {a : String} (h : IsGs2 gs2 (some a)) (hsep : kvsep ∉ gs2) :
    SepFree a := by
  rcases h with ⟨-, h⟩ | ⟨E, rfl, -, h⟩
  · cases h
  · cases h
    have hE : SepFree E := sepFree_iff.2 fun hm => hsep (by simp [hm])
    intro hm
    rw [String.toList_ofList] at hm
    rcases mem_of_mem_replaceEscapes hm with h | h | h
    · exact absurd h (by decide)
    · exact absurd h (by decide)
    · exact hE h

theorem HoldsToken.sepFree {body : Bytes} {token : String} (h : HoldsToken body token) :
    SepFree token := by
  obtain ⟨pre, f, post, value, scheme, hsplit, hf, -, hvalue, -⟩ := h.bearer
  have hmem : f ∈ body.splitOn kvsep := by simp [hsplit]
  rw [sepFree_iff]
  intro hm
  refine not_mem_of_mem_splitOn hmem ?_
  rw [hf, hvalue]
  simp [hm]

theorem IsResponse.carriable {input : Bytes} {r : ClientResponse} (h : IsResponse input r) :
    Carriable r.authzid r.token := by
  obtain ⟨-, gs2, body, -, hsep, hheader, hbody⟩ := h
  obtain ⟨_, _, _, _, _, _, _, _, _, _, hne⟩ := hbody.bearer
  exact ⟨hne, hbody.sepFree, fun a ha => (ha ▸ hheader).sepFree hsep⟩

/-! ## What is carriable is read back -/

theorem sepFree_encodeSaslname {a : String} (h : SepFree a) : SepFree (encodeSaslname a) := by
  intro hm
  rw [encodeSaslname, String.toList_ofList, List.mem_flatMap] at hm
  obtain ⟨c, hc, hm⟩ := hm
  rw [encodeChar] at hm
  split at hm
  · exact absurd hm (by decide)
  · split at hm
    · exact absurd hm (by decide)
    · exact h (List.mem_singleton.1 hm ▸ hc)

theorem isGs2_encodeSaslname (a : String) :
    IsGs2 (utf8 "n,a=" ++ utf8 (encodeSaslname a) ++ utf8 ",") (some a) := by
  obtain ⟨he, hr⟩ := decodeSaslname_eq_ok.1 (decodeSaslname_encodeSaslname a)
  exact .inr ⟨_, rfl, he, by rw [hr, String.ofList_toList]⟩

theorem holdsToken_build {token : String} (hne : token ≠ "") (h : SepFree token) :
    HoldsToken (utf8 "auth=Bearer " ++ utf8 token ++ [kvsep]) token := by
  have hsep : kvsep ∉ utf8 "auth=Bearer " ++ utf8 token := by
    rw [List.mem_append, not_or]
    exact ⟨by decide, sepFree_iff.1 h⟩
  -- The terminator leaves an empty field behind that of the token, and empty fields are skipped.
  have hsplit : (utf8 "auth=Bearer " ++ utf8 token ++ [kvsep]).splitOn kvsep =
      [utf8 "auth=Bearer " ++ utf8 token, []] :=
    List.splitOn_append_cons_self_of_not_mem hsep []
  have hauth : IsAuth (utf8 "auth=Bearer " ++ utf8 token) (utf8 "Bearer " ++ utf8 token) := rfl
  constructor
  · rw [hsplit]
    intro f hf hne
    rcases List.mem_cons.1 hf with rfl | hf
    · rw [hauth]
      simp
    · exact absurd (List.mem_singleton.1 hf) hne
  · refine ⟨[], _, [[]], _, utf8 "Bearer ", hsplit, hauth, ?_, rfl, eqIgnoreAsciiCase_self _, hne⟩
    intro g hg v hv
    rw [List.mem_singleton.1 hg] at hv
    exact absurd hv (by simp [IsAuth])

theorem isResponse_build {authzid : Option String} {token : String} (h : Carriable authzid token) :
    IsResponse (buildClientResponse authzid token) { authzid := authzid.filter (· ≠ ""), token } := by
  obtain ⟨hne, htoken, hauthzid⟩ := h
  -- The identity is in the header only, and all headers are followed by the same field.
  have hframe : ∀ gs2 : Bytes, kvsep ∉ gs2 → IsGs2 gs2 (authzid.filter (· ≠ "")) →
      IsResponse (gs2 ++ [kvsep] ++ utf8 "auth=Bearer " ++ utf8 token ++ [kvsep, kvsep])
        { authzid := authzid.filter (· ≠ ""), token } := fun gs2 hsep hgs2 =>
    ⟨List.suffix_append _ _, gs2, utf8 "auth=Bearer " ++ utf8 token ++ [kvsep], by simp, hsep, hgs2,
      holdsToken_build hne htoken⟩
  rw [buildClientResponse]
  cases ha : authzid.filter (· ≠ "") with
  | none =>
    rw [ha] at hframe
    exact hframe _ (by decide) (.inl ⟨rfl, rfl⟩)
  | some a =>
    rw [ha] at hframe
    have hsep := sepFree_iff.1 (sepFree_encodeSaslname (hauthzid a (Option.eq_some_of_filter_eq_some ha)))
    refine hframe _ ?_ (isGs2_encodeSaslname a)
    simp only [List.mem_append, not_or]
    exact ⟨⟨by decide, hsep⟩, by decide⟩

/-- An empty identity contains no separator. -/
theorem carriable_of_filter {authzid : Option String} {token : String}
    (h : Carriable (authzid.filter (· ≠ "")) token) : Carriable authzid token := by
  obtain ⟨hne, htoken, hauthzid⟩ := h
  refine ⟨hne, htoken, fun a ha => ?_⟩
  by_cases he : a = ""
  · rw [he]
    decide
  · exact hauthzid a (by simp [ha, he])

/-- A message is read back as built exactly if the framing can carry its content. -/
theorem parseClientResponse_buildClientResponse_iff {authzid : Option String} {token : String} :
    parseClientResponse (buildClientResponse authzid token) =
      .ok { authzid := authzid.filter (· ≠ ""), token } ↔ Carriable authzid token := by
  rw [parseClientResponse_eq_ok]
  exact ⟨fun h => carriable_of_filter h.carriable, isResponse_build⟩

/-- Parsing undoes building, an empty identity being read back as none. -/
theorem parseClientResponse_buildClientResponse (authzid : Option String) {token : String}
    (hne : token ≠ "") (hauthzid : ∀ a, authzid = some a → '\x01' ∉ a.toList)
    (htoken : '\x01' ∉ token.toList) :
    parseClientResponse (buildClientResponse authzid token) =
      .ok { authzid := authzid.filter (· ≠ ""), token } :=
  parseClientResponse_buildClientResponse_iff.2 ⟨hne, htoken, hauthzid⟩

theorem parseClientResponse_buildClientResponse_escapes :
    parseClientResponse (buildClientResponse (some "a,b=2C\x00é") "=3D,t.o.k") =
      .ok { authzid := some "a,b=2C\x00é", token := "=3D,t.o.k" } :=
  parseClientResponse_buildClientResponse (some "a,b=2C\x00é") (by decide)
    (by rintro _ ⟨⟩; decide) (by decide)

end CrudeOAuth
