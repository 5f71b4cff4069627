import CrudeOAuth.Core.Rfc7628.Message

/-!
# The grammar of client responses

The messages `parseClientResponse` accepts, as a grammar (`IsResponse`): the parser
returns an identity and a token exactly for the messages that carry them
(`parseClientResponse_eq_ok`), and an error for all others; it never panics. The
separator may not occur in a header, so a message has one header only, and the
identity and the token of a message are unique.

The terminator is two separators, and the first separator of a message may be the
first of these two: then there are no fields, and the message is no response.
-/

namespace CrudeOAuth

open Rust Rust.Outcome

/-- The `0x01`-separated fields of `body` hold the token: every non-empty one has an `=`,
    some have the key `auth`, and the last of these holds `token` as a bearer token. -/
structure HoldsToken (body : Bytes) (token : String) : Prop where
  keyed : ∀ f ∈ body.splitOn kvsep, f ≠ [] → '='.toUInt8 ∈ f
  bearer : ∃ pre f post value scheme, body.splitOn kvsep = pre ++ f :: post ∧ IsAuth f value ∧
    (∀ g ∈ post, ∀ v, ¬IsAuth g v) ∧ value = scheme ++ utf8 token ∧
    eqIgnoreAsciiCase scheme (utf8 "Bearer ") = true ∧ token ≠ ""

/-- The message `input` is a client response carrying `r`: it ends with two separators, and
    is cut by its first and its last separator into a header and the fields. -/
def IsResponse (input : Bytes) (r : ClientResponse) : Prop :=
  [kvsep, kvsep] <:+ input ∧ ∃ gs2 body, input = gs2 ++ kvsep :: (body ++ [kvsep]) ∧ kvsep ∉ gs2 ∧
    IsGs2 gs2 r.authzid ∧ HoldsToken body r.token

/-- In a message ending with two separators, the last one comes after the first. -/
theorem exists_body {gs2 rest : Bytes} (hgs2 : kvsep ∉ gs2)
    (h : [kvsep, kvsep] <:+ gs2 ++ kvsep :: rest) : ∃ body, rest = body ++ [kvsep] := by
  obtain ⟨u, hu⟩ := h
  rcases List.eq_nil_or_concat rest with rfl | ⟨body, x, rfl⟩
  · -- Otherwise the header would end with a separator.
    have : u ++ [kvsep] = gs2 := by
      rw [show u ++ [kvsep, kvsep] = (u ++ [kvsep]) ++ [kvsep] from by simp] at hu
      exact List.append_cancel_right hu
    exact absurd (this ▸ List.mem_append_right _ (List.mem_singleton_self _)) hgs2
  · rw [List.concat_eq_append] at hu ⊢
    have hx : [kvsep] = [x] := by
      rw [show u ++ [kvsep, kvsep] = (u ++ [kvsep]) ++ [kvsep] from by simp,
        show gs2 ++ kvsep :: (body ++ [x]) = (gs2 ++ kvsep :: body) ++ [x] from by simp] at hu
      exact (List.append_inj' hu rfl).2
    exact ⟨body, by rw [hx]⟩

/-- The parser on a message cut at its first separator and at its end. -/
theorem parseClientResponse_cut {gs2 body : Bytes} (hgs2 : kvsep ∉ gs2)
    (hend : [kvsep, kvsep] <:+ gs2 ++ kvsep :: (body ++ [kvsep])) :
    parseClientResponse (gs2 ++ kvsep :: (body ++ [kvsep])) =
      (parseGs2 gs2 >>= fun authzid => (body.splitOn kvsep).foldlM authStep none >>= fun auth =>
        okOr auth .missingAuth >>= fun auth => parseBearer auth >>= fun token =>
        .ok { authzid, token }) := by
  have hheader : (slice (gs2 ++ kvsep :: (body ++ [kvsep])) 0 gs2.length : Outcome Rfc7628Error Bytes) =
      .ok gs2 := slice_append [] gs2 _ rfl (by simp)
  have hstop : (sub (gs2 ++ kvsep :: (body ++ [kvsep])).length 1 : Outcome Rfc7628Error Nat) =
      .ok (gs2.length + 1 + body.length) := by
    rw [sub_eq_ok]
    simp only [List.length_append, List.length_cons, List.length_nil]
    omega
  have hbody : (slice (gs2 ++ kvsep :: (body ++ [kvsep])) (gs2.length + 1) (gs2.length + 1 + body.length) :
      Outcome Rfc7628Error Bytes) = .ok body := by
    rw [show gs2 ++ kvsep :: (body ++ [kvsep]) = (gs2 ++ [kvsep]) ++ (body ++ [kvsep]) from by simp]
    exact slice_append _ _ _ (by simp) (by simp)
  rw [parseClientResponse, position_append hgs2]
  simp only [okOr_some, ok_bind, hheader, List.isSuffixOf_iff_suffix.2 hend, ensure_true, hstop, hbody]

/-- A message is refused, or it can be cut. -/
theorem parseClientResponse_err_or_cut (input : Bytes) :
    (∃ e, parseClientResponse input = .err e) ∨
      ∃ gs2 body, input = gs2 ++ kvsep :: (body ++ [kvsep]) ∧ kvsep ∉ gs2 ∧ [kvsep, kvsep] <:+ input := by
  cases hpos : position kvsep input with
  | none => exact .inl ⟨.invalidGs2Header, by simp [parseClientResponse, hpos]⟩
  | some i =>
    obtain ⟨gs2, rest, rfl, hgs2, rfl⟩ := position_eq_some.1 hpos
    by_cases hend : [kvsep, kvsep] <:+ gs2 ++ kvsep :: rest
    · obtain ⟨body, rfl⟩ := exists_body hgs2 hend
      exact .inr ⟨gs2, body, rfl, hgs2, hend⟩
    · have hgs2s : (slice (gs2 ++ kvsep :: rest) 0 gs2.length : Outcome Rfc7628Error Bytes) = .ok gs2 :=
        slice_append [] gs2 _ rfl (by simp)
      have hend' : [kvsep, kvsep].isSuffixOf (gs2 ++ kvsep :: rest) = false := by
        rw [Bool.eq_false_iff, ne_eq, List.isSuffixOf_iff_suffix]
        exact hend
      -- The header is parsed before the terminator is looked for, so its error comes first.
      rw [parseClientResponse, hpos]
      simp only [okOr_some, ok_bind, hgs2s, hend', ensure_false, err_bind]
      cases h : parseGs2 gs2 with
      | ok a => exact .inl ⟨_, rfl⟩
      | err e => exact .inl ⟨e, rfl⟩
      | panic => exact absurd h (parseGs2_ne_panic gs2)

/-- The parser never panics. -/
theorem parseClientResponse_ne_panic (input : Bytes) : parseClientResponse input ≠ .panic := by
  rcases parseClientResponse_err_or_cut input with ⟨e, h⟩ | ⟨gs2, body, rfl, hgs2, hend⟩
  · simp [h]
  · rw [parseClientResponse_cut hgs2 hend]
    exact bind_ne_panic (parseGs2_ne_panic _) fun _ _ =>
      bind_ne_panic (foldlM_authStep_ne_panic _ _) fun _ _ =>
      bind_ne_panic (okOr_ne_panic _ _) fun _ _ => bind_ne_panic (parseBearer_ne_panic _) fun _ _ => by simp

/-- The parser returns what the message carries. -/
theorem parseClientResponse_eq_ok {input : Bytes} {r : ClientResponse} :
    parseClientResponse input = .ok r ↔ IsResponse input r := by
  constructor
  · intro h
    rcases parseClientResponse_err_or_cut input with ⟨e, he⟩ | ⟨gs2, body, rfl, hgs2, hend⟩
    · rw [he] at h
      cases h
    · rw [parseClientResponse_cut hgs2 hend] at h
      obtain ⟨authzid, hheader, h⟩ := bind_eq_ok.1 h
      obtain ⟨auth, hauth, h⟩ := bind_eq_ok.1 h
      obtain ⟨value, hvalue, h⟩ := bind_eq_ok.1 h
      obtain ⟨token, htoken, h⟩ := bind_eq_ok.1 h
      cases h
      rw [okOr_eq_ok] at hvalue
      obtain ⟨hkeyed, hlast⟩ := foldlM_authStep_eq_ok.1 hauth
      obtain ⟨pre, f, post, hsplit, hf, hpost⟩ := lastAuth_eq_some.1 (hlast.trans hvalue)
      obtain ⟨scheme, hv, hscheme, hne⟩ := parseBearer_eq_ok.1 htoken
      exact ⟨hend, gs2, body, rfl, hgs2, parseGs2_eq_ok.1 hheader, hkeyed,
        pre, f, post, value, scheme, hsplit, hf, hpost, hv, hscheme, hne⟩
  · rintro ⟨hend, gs2, body, rfl, hgs2, hheader, hkeyed, pre, f, post, value, scheme, hsplit, hf, hpost,
      hvalue, hscheme, hne⟩
    have hauth : lastAuth (body.splitOn kvsep) = some value :=
      lastAuth_eq_some.2 ⟨pre, f, post, hsplit, hf, hpost⟩
    rw [parseClientResponse_cut hgs2 hend, parseGs2_eq_ok.2 hheader, ok_bind,
      foldlM_authStep_eq_ok.2 ⟨hkeyed, hauth⟩, ok_bind, okOr_eq_ok.2 rfl, ok_bind,
      parseBearer_eq_ok.2 ⟨scheme, hvalue, hscheme, hne⟩, ok_bind]

/-- The parser accepts the grammar of client responses, with what they carry, and returns
    an error for every other message. -/
theorem parseClientResponse_grammar (input : Bytes) :
    (∀ r, parseClientResponse input = .ok r ↔ IsResponse input r) ∧
      ((∀ r, ¬IsResponse input r) → ∃ e, parseClientResponse input = .err e) := by
  refine ⟨fun r => parseClientResponse_eq_ok, fun hno => ?_⟩
  cases h : parseClientResponse input with
  | ok r => exact absurd (parseClientResponse_eq_ok.1 h) (hno r)
  | err e => exact ⟨e, rfl⟩
  | panic => exact absurd h (parseClientResponse_ne_panic input)

end CrudeOAuth
