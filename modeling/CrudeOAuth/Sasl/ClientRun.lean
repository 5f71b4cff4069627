import CrudeOAuth.Sasl.Prompting

/-!
# What a step of the client does

A step of the client refuses its input, completes an error exchange, asks for prompts, or sends
the response; `Stepped` lists what it leaves behind in each case (`stepped_run`).

The token is opaque to the client: with another token in the place of the one that the
application supplies, a step does the same, but for the token in the response (`token_forwarded`).
-/

namespace CrudeOAuth.Sasl

open Rust

variable {self : ClientStep}

/-- What a step leaves behind, if it does not get as far as to release the prompts. -/
def ClientStep.stopped (self : ClientStep) (rc : Int) (out : OutBuf) : ClientResult :=
  { rc := some rc, ctx := self.ctx, prompts := self.prompts, out, oparams := self.oparams, calls := [] }

/-- What an initial step leaves behind that does not send. -/
def ClientStep.failed (self : ClientStep) (rc : Int) (prompts : Prompts) (calls : List (CanonCall × Int)) :
    ClientResult :=
  { rc := some rc, ctx := self.ctx, prompts, out := none, oparams := self.oparams, calls }

/-- A step with what it leaves behind. -/
inductive Stepped (self : ClientStep) : ClientResult → Prop
  | tooBig (h : maxServerinLen < self.serverIn.length % 2 ^ 32) : Stepped self (self.stopped saslBadprot self.out)
  | completed (h : self.serverIn.length % 2 ^ 32 ≤ maxServerinLen) (hfinal : self.isFinal = true) :
    Stepped self { self.stopped saslOk (.publish [0x01]) with
      ctx := { output := [0x01] }, oparams := self.oparams.finish }
  | weak (h : self.serverIn.length % 2 ^ 32 ≤ maxServerinLen) (hinit : self.isFinal = false)
    (hssf : self.ssfTooWeak = true) : Stepped self (self.stopped saslTooweak none)
  | asked (wantUser wantPass : Bool) (h : self.serverIn.length % 2 ^ 32 ≤ maxServerinLen)
    (hinit : self.isFinal = false) (hssf : self.ssfTooWeak = false) (hslot : self.prompts ≠ none)
    (huser : (self.utils.getSimple self.prompts saslCbUser).isNeedPrompt = wantUser)
    (hpass : (self.utils.getPassword self.prompts).isNeedPrompt = wantPass) (hwant : (wantUser || wantPass) = true) :
    Stepped self (self.failed saslInteract (some (some (requested wantUser wantPass))) [])
  | refused (rc : Int) (calls : List (CanonCall × Int)) (h : self.serverIn.length % 2 ^ 32 ≤ maxServerinLen)
    (hinit : self.isFinal = false) (hssf : self.ssfTooWeak = false) (hrc : rc ≠ saslOk) :
    Stepped self (self.failed rc self.prompts.release calls)
  | sent (authzid : Option String) (token : String) (calls : List (CanonCall × Int))
    (h : self.Sends authzid token) : Stepped self
      { self.failed saslContinue self.prompts.release calls with
        ctx := { output := buildClientResponse authzid token }, out := .publish (buildClientResponse authzid token) }

theorem ne_ok_of_getSimple {utils : Utils} {prompts : Prompts} {id : Nat} {rc : Int}
    (h : utils.getSimple prompts id = .fail rc) : rc ≠ saslOk := by
  unfold Utils.getSimple at h
  split at h
  · cases h
  split at h
  · cases h
    decide
  rename_i g _
  rcases hg : g id with ⟨rc', proc⟩
  simp only [hg] at h
  split at h
  · cases proc with
    | none =>
      cases h
      decide
    | some cb =>
      simp only at h
      split at h <;> cases h
      assumption
  · rename_i hne
    split at h
    · cases h
    · split at h <;> cases h
      exact hne

theorem ne_ok_of_getPassword {utils : Utils} {prompts : Prompts} {rc : Int}
    (h : utils.getPassword prompts = .fail rc) : rc ≠ saslOk := by
  unfold Utils.getPassword at h
  split at h
  · split at h <;> cases h
    decide
  split at h
  · cases h
    decide
  rename_i g _
  rcases hg : g saslCbPass with ⟨rc', proc⟩
  simp only [hg] at h
  split at h
  · cases proc with
    | none =>
      cases h
      decide
    | some cb =>
      simp only at h
      split at h <;> cases h
      assumption
  · rename_i hne
    split at h <;> cases h
    exact hne

/-- A request is refused, or puts the array into the slot. -/
theorem request_cases (prompts : Prompts) (utils : Utils) (wantUser wantPass : Bool) :
    (∃ rc, rc ≠ saslOk ∧ prompts.request utils wantUser wantPass = (rc, prompts)) ∨
      prompts ≠ none ∧
        prompts.request utils wantUser wantPass = (saslInteract, some (some (requested wantUser wantPass))) := by
  unfold Prompts.request
  split
  · exact .inl ⟨_, by decide, rfl⟩
  · rename_i hslot
    dsimp only
    split
    · exact .inl ⟨_, by decide, rfl⟩
    · exact .inr ⟨hslot, rfl⟩

/-- An initial step that has both values sends, or is refused. -/
theorem stepped_of_values {v : Option Bytes} {t : Bytes} (hshort : self.serverIn.length % 2 ^ 32 ≤ maxServerinLen)
    (hinit : self.isFinal = false) (hssf : self.ssfTooWeak = false)
    (huser : self.utils.getSimple self.prompts saslCbUser = .value v)
    (hpass : self.utils.getPassword self.prompts = .value (some t)) : Stepped self self.run := by
  have hrefused : ∀ rc calls, rc ≠ saslOk → Stepped self (self.failed rc self.prompts.release calls) :=
    fun rc calls hrc => .refused rc calls hshort hinit hssf hrc
  simp only [ClientStep.run, if_neg (Nat.not_lt.2 hshort), hinit, hssf, Bool.false_eq_true, if_false, huser,
    hpass, CbValue.isNeedPrompt, Bool.or_false]
  -- What is left are the checks of the values, in the order of the step.
  cases htoken : fromUtf8 t with
  | none => exact hrefused _ _ (by decide)
  | some token =>
    obtain rfl := fromUtf8_eq_some.1 htoken
    cases hcanon : self.canon with
    | none => exact hrefused _ _ (by decide)
    | some canon =>
      cases hv : readAuthzid v with
      | none => exact hrefused _ _ (by decide)
      | some authzid =>
        dsimp only
        split
        · exact hrefused _ _ (by assumption)
        · rename_i h1
          cases hname : authzidName authzid with
          | none => exact hrefused _ _ (by decide)
          | some name =>
            dsimp only
            split
            · exact hrefused _ _ (by assumption)
            · rename_i h2
              exact .sent authzid token _ ⟨hshort, hinit, hssf, ⟨v, huser, hv⟩, hpass, canon, name, hcanon, hname,
                not_not.1 h1, not_not.1 h2⟩

/-- Each step is one of these. -/
theorem stepped_run (self : ClientStep) : Stepped self self.run := by
  by_cases hshort : maxServerinLen < self.serverIn.length % 2 ^ 32
  · rw [ClientStep.run, if_pos hshort]
    exact .tooBig hshort
  have hle := Nat.not_lt.1 hshort
  by_cases hfinal : self.isFinal = true
  · rw [ClientStep.run, if_neg hshort, if_pos hfinal]
    exact .completed hle hfinal
  have hinit := Bool.not_eq_true _ ▸ hfinal
  by_cases hssf : self.ssfTooWeak = true
  · rw [ClientStep.run, if_neg hshort, if_neg hfinal]
    dsimp only
    rw [if_pos hssf]
    exact .weak hle hinit hssf
  have hstrong := Bool.not_eq_true _ ▸ hssf
  have hrefused : ∀ rc calls, rc ≠ saslOk → Stepped self (self.failed rc self.prompts.release calls) :=
    fun rc calls hrc => .refused rc calls hle hinit hstrong hrc
  cases hneed : (self.utils.getSimple self.prompts saslCbUser).isNeedPrompt ||
      (self.utils.getPassword self.prompts).isNeedPrompt with
  | true =>
    rw [ClientStep.run, if_neg hshort, if_neg hfinal]
    dsimp only
    rw [if_neg hssf, if_pos hneed]
    rcases request_cases self.prompts.release self.utils _ _ with ⟨rc, hrc, hreq⟩ | ⟨hslot, hreq⟩
    · rw [hreq]
      exact hrefused rc [] hrc
    · rw [hreq]
      exact .asked _ _ hle hinit hstrong (fun h => hslot (by rw [h]; rfl)) rfl rfl hneed
  | false =>
    rw [Bool.or_eq_false_iff] at hneed
    obtain ⟨hneed, hneed'⟩ := hneed
    cases huser : self.utils.getSimple self.prompts saslCbUser with
    | needPrompt =>
      rw [huser] at hneed
      cases hneed
    | fail rc =>
      rw [ClientStep.run, if_neg hshort, if_neg hfinal]
      dsimp only
      rw [if_neg hssf, if_neg (by rw [hneed, hneed']; decide), huser]
      exact hrefused rc [] (ne_ok_of_getSimple huser)
    | value v =>
      cases hpass : self.utils.getPassword self.prompts with
      | needPrompt =>
        rw [hpass] at hneed'
        cases hneed'
      | fail rc =>
        rw [ClientStep.run, if_neg hshort, if_neg hfinal]
        dsimp only
        rw [if_neg hssf, if_neg (by rw [hneed, hneed']; decide), huser, hpass]
        exact hrefused rc [] (ne_ok_of_getPassword hpass)
      | value t =>
        cases t with
        | some t => exact stepped_of_values hle hinit hstrong huser hpass
        | none =>
          rw [ClientStep.run, if_neg hshort, if_neg hfinal]
          dsimp only
          rw [if_neg hssf, if_neg (by rw [hneed, hneed']; decide), huser, hpass]
          exact hrefused saslBadparam [] (by decide)

/-! ## Another token -/

/-- The callback supplies another token, if it supplies one. -/
def Callback.withToken (t : Bytes) (cb : Callback) : Callback := { cb with result := cb.result.map fun _ => t }

/-- The prompt for the token is answered with another one, if it is answered. -/
def Interact.withToken (t : Bytes) (entry : Interact) : Interact :=
  if entry.id = saslCbPass ∧ entry.result.isSome then { entry with result := some t, len := t.length } else entry

def Prompts.withToken (t : Bytes) (prompts : Prompts) : Prompts := prompts.map (·.map (·.map (Interact.withToken t)))

def Utils.withToken (t : Bytes) (utils : Utils) : Utils :=
  { utils with getcallback := utils.getcallback.map fun g id =>
      if id = saslCbPass then ((g id).1, (g id).2.map (Callback.withToken t)) else g id }

/-- The step of an application that has another token. -/
def ClientStep.withToken (t : String) (step : ClientStep) : ClientStep :=
  { step with utils := step.utils.withToken (utf8 t), prompts := step.prompts.withToken (utf8 t) }

def CbValue.withToken (t : Bytes) : CbValue → CbValue
  | value v => value (v.map fun _ => t)
  | v => v

variable {step : ClientStep} {t : Bytes} {prompts : Prompts} {utils : Utils} {id : Nat}

theorem findEntry_withToken (entries : List Interact) :
    findEntry id (entries.map (Interact.withToken t)) = (findEntry id entries).map (Interact.withToken t) := by
  induction entries with
  | nil => rfl
  | cons entry rest ih =>
    have hid : (entry.withToken t).id = entry.id := by
      unfold Interact.withToken
      split <;> rfl
    rw [List.map_cons, findEntry, findEntry, hid]
    split
    · rfl
    · split
      · rfl
      · exact ih

theorem find_withToken : (prompts.withToken t).find id = (prompts.find id).map (Interact.withToken t) := by
  rcases prompts with _ | _ | entries
  · rfl
  · rfl
  · exact findEntry_withToken entries

theorem id_of_findEntry {entries : List Interact} {entry : Interact} (h : findEntry id entries = some entry) :
    entry.id = id := by
  induction entries with
  | nil => cases h
  | cons e rest ih =>
    rw [findEntry] at h
    split at h
    · cases h
    · split at h
      · cases h
        assumption
      · exact ih h

theorem id_of_find {entry : Interact} (h : prompts.find id = some entry) : entry.id = id := by
  rcases prompts with _ | _ | entries
  · cases h
  · cases h
  · exact id_of_findEntry h

/-- The authorization name is found as it was, -/
theorem getSimple_withToken :
    (utils.withToken t).getSimple (prompts.withToken t) saslCbUser = utils.getSimple prompts saslCbUser := by
  rw [Utils.getSimple, Utils.getSimple, find_withToken]
  cases hfind : prompts.find saslCbUser with
  | some entry =>
    have hne : ¬(entry.id = saslCbPass ∧ entry.result.isSome) := by
      rw [id_of_find hfind]
      exact fun h => absurd h.1 (by decide)
    rw [Option.map_some, Interact.withToken, if_neg hne]
  | none =>
    have hne : saslCbUser ≠ saslCbPass := by decide
    cases hg : utils.getcallback with
    | none => simp [Utils.withToken, hg]
    | some g => simp [Utils.withToken, hg, hne]

/-- and of the token it is found whether there is one. -/
theorem getPassword_withToken :
    (utils.withToken t).getPassword (prompts.withToken t) = (utils.getPassword prompts).withToken t := by
  rw [Utils.getPassword, Utils.getPassword, find_withToken]
  cases hfind : prompts.find saslCbPass with
  | some entry =>
    rw [Option.map_some, Interact.withToken, id_of_find hfind]
    cases hresult : entry.result with
    | none => simp [hresult, CbValue.withToken]
    | some result => simp [hresult, CbValue.withToken]
  | none =>
    cases hg : utils.getcallback with
    | none => simp [Utils.withToken, hg, CbValue.withToken]
    | some g =>
      rcases hgi : g saslCbPass with ⟨rc, proc⟩
      simp only [Utils.withToken, hg, Option.map_some, Option.map_none, if_true, hgi]
      split
      · cases proc with
        | none => rfl
        | some cb =>
          simp only [Option.map_some, Callback.withToken]
          split <;> rfl
      · split <;> rfl

theorem release_withToken : (prompts.withToken t).release = prompts.release := by
  cases prompts <;> rfl

/-- A prompt that is not answered is left as it is. -/
theorem requested_withToken (wantUser wantPass : Bool) :
    Prompts.withToken t (some (some (requested wantUser wantPass))) = some (some (requested wantUser wantPass)) := by
  cases wantUser <;> cases wantPass <;> rfl

theorem withToken_release : prompts.release.withToken t = prompts.release := by
  cases prompts <;> rfl

theorem withToken_withToken {t' : Bytes} : (prompts.withToken t).withToken t' = prompts.withToken t' := by
  have hentry : ∀ entry : Interact, (entry.withToken t).withToken t' = entry.withToken t' := by
    intro entry
    unfold Interact.withToken
    split
    · rename_i h
      simp [h.1]
    · rfl
  rcases prompts with _ | _ | entries
  · rfl
  · rfl
  · simp [Prompts.withToken, Function.comp_def, hentry]

/-- The application supplies no token but a text. -/
def ClientStep.TokenIsText (step : ClientStep) : Prop :=
  ∀ b, step.utils.getPassword step.prompts = .value (some b) → ∃ t, b = utf8 t

/-- What a step leaves behind is the same with any token, but for the prompts that it leaves as
    they are. -/
def Ignores (step : ClientStep) : Prop :=
  ∃ r : ClientResult, (step.TokenIsText → step.run = r) ∧
    ∀ t, (step.withToken t).run = { r with prompts := r.prompts.withToken (utf8 t) }

/-- A step sends with any token, and what it leaves behind is the same but for the token in the
    response. -/
def Forwards (step : ClientStep) : Prop :=
  ∃ (r : ClientResult) (authzid : Option String),
    (step.TokenIsText → ∃ t, step.Sends authzid t ∧ step.run = { r with
      ctx := { output := buildClientResponse authzid t }, out := .publish (buildClientResponse authzid t) }) ∧
    ∀ t, (step.withToken t).Sends authzid t ∧ (step.withToken t).run = { r with
      ctx := { output := buildClientResponse authzid t }, out := .publish (buildClientResponse authzid t) }

/-- With its own token in the place of this, a step does the same. -/
theorem run_withToken {t : String}
    (h : (step.utils.getPassword step.prompts).withToken (utf8 t) = step.utils.getPassword step.prompts) :
    (step.withToken t).run = { step.run with prompts := step.run.prompts.withToken (utf8 t) } := by
  have huser : (step.withToken t).utils.getSimple (step.withToken t).prompts saslCbUser =
      step.utils.getSimple step.prompts saslCbUser := getSimple_withToken
  have hpass : (step.withToken t).utils.getPassword (step.withToken t).prompts =
      step.utils.getPassword step.prompts := getPassword_withToken.trans h
  have hrelease : (step.withToken t).prompts.release = step.prompts.release := release_withToken
  have hrequest : ∀ prompts wantUser wantPass, Prompts.request prompts (step.withToken t).utils wantUser wantPass =
      prompts.request step.utils wantUser wantPass := fun _ _ _ => rfl
  have hserver : (step.withToken t).serverIn = step.serverIn := rfl
  have hfinal : (step.withToken t).isFinal = step.isFinal := rfl
  have hssf : (step.withToken t).ssfTooWeak = step.ssfTooWeak := rfl
  have hcanon : (step.withToken t).canon = step.canon := rfl
  simp only [ClientStep.run, huser, hpass, hrelease, hrequest, hserver, hfinal, hssf, hcanon]
  -- Up to here the prompts are left as they are, and from here on they are released.
  split
  · rfl
  split
  · rfl
  split
  · rfl
  split
  · rcases request_cases step.prompts.release step.utils (step.utils.getSimple step.prompts saslCbUser).isNeedPrompt
      (step.utils.getPassword step.prompts).isNeedPrompt with ⟨rc, -, hreq⟩ | ⟨-, hreq⟩
    · simp only [hreq, withToken_release]
      rfl
    · simp only [hreq, requested_withToken]
      rfl
  repeat' split
  all_goals
    simp only [withToken_release]
    rfl

/-- A token that is a text, or none, is that of the step itself. -/
theorem exists_own (h : step.TokenIsText) :
    ∃ t, (step.utils.getPassword step.prompts).withToken (utf8 t) = step.utils.getPassword step.prompts := by
  cases hpass : step.utils.getPassword step.prompts with
  | needPrompt | fail => exact ⟨"", rfl⟩
  | value v =>
    cases v with
    | none => exact ⟨"", rfl⟩
    | some b =>
      obtain ⟨t, rfl⟩ := h b hpass
      exact ⟨t, rfl⟩

/-- What a step ignores in the tokens of others it ignores in its own. -/
theorem ignores_of_others {r : ClientResult}
    (h : ∀ t, (step.withToken t).run = { r with prompts := r.prompts.withToken (utf8 t) }) : Ignores step := by
  by_cases htext : step.TokenIsText
  · obtain ⟨t₀, ht₀⟩ := exists_own htext
    refine ⟨step.run, fun _ => rfl, fun t => ?_⟩
    have hown := (run_withToken ht₀).symm.trans (h t₀)
    rw [h t]
    simp only [ClientResult.mk.injEq] at hown ⊢
    obtain ⟨hrc, hctx, hprompts, hout, hoparams, hcalls⟩ := hown
    refine ⟨hrc.symm, hctx.symm, ?_, hout.symm, hoparams.symm, hcalls.symm⟩
    rw [← @withToken_withToken (utf8 t₀) r.prompts, ← hprompts, withToken_withToken]
  · exact ⟨r, fun htext' => absurd htext' htext, h⟩

/-- An initial step that is refused whatever the token is. -/
theorem ignores_of_failed {rc : Int} {calls : List (CanonCall × Int)}
    (h : ∀ t, (step.withToken t).run = (step.withToken t).failed rc (step.withToken t).prompts.release calls) :
    Ignores step := by
  refine @ignores_of_others _ (step.failed rc step.prompts.release calls) fun t => (h t).trans ?_
  simp only [ClientStep.failed, withToken_release]
  simp only [ClientStep.withToken, release_withToken]

/-- A step sends the token that it finds. -/
theorem run_eq_of_sends {authzid : Option String} {t : String} (h : step.Sends authzid t) :
    ∃ name, authzidName authzid = some name ∧ step.run =
      { step.failed saslContinue step.prompts.release
          [(canonCall anonymous saslCuAuthid, saslOk), (canonCall name saslCuAuthzid, saslOk)] with
        ctx := { output := buildClientResponse authzid t }, out := .publish (buildClientResponse authzid t) } := by
  obtain ⟨v, huser, hv⟩ := h.user
  obtain ⟨canon, name, hcanon, hname, h1, h2⟩ := h.names
  refine ⟨name, hname, ?_⟩
  simp only [ClientStep.run, if_neg (Nat.not_lt.2 h.short), h.initial, h.ssf, huser, h.pass, hcanon, hv, hname, h1, h2,
    fromUtf8_utf8]
  rfl

/-- A step that finds the authorization name as it does, and has another token, sends that one. -/
theorem sends_withToken {authzid : Option String} {v : Option Bytes} {b : Bytes} {canon : CanonUser} {name : CString}
    (hshort : step.serverIn.length % 2 ^ 32 ≤ maxServerinLen) (hinit : step.isFinal = false)
    (hssf : step.ssfTooWeak = false) (huser : step.utils.getSimple step.prompts saslCbUser = .value v)
    (hpass : step.utils.getPassword step.prompts = .value (some b)) (hv : readAuthzid v = some authzid)
    (hcanon : step.canon = some canon) (hname : authzidName authzid = some name)
    (h1 : canon (canonCall anonymous saslCuAuthid) = saslOk) (h2 : canon (canonCall name saslCuAuthzid) = saslOk)
    (t : String) : (step.withToken t).Sends authzid t where
  short := hshort
  initial := hinit
  ssf := hssf
  user := ⟨v, getSimple_withToken.trans huser, hv⟩
  pass := getPassword_withToken.trans (by rw [hpass]; rfl)
  names := ⟨canon, name, hcanon, hname, h1, h2⟩

/-- So it sends any token, and its own if it is a text. -/
theorem forwards_of_sends {authzid : Option String} (hown : step.TokenIsText → ∃ t, step.Sends authzid t)
    (h : ∀ t, (step.withToken t).Sends authzid t) : Forwards step := by
  obtain ⟨name, hname, -⟩ := run_eq_of_sends (h "")
  refine ⟨step.failed saslContinue step.prompts.release
    [(canonCall anonymous saslCuAuthid, saslOk), (canonCall name saslCuAuthzid, saslOk)], authzid,
    fun htext => ?_, fun t => ⟨h t, ?_⟩⟩
  · obtain ⟨t, hsends⟩ := hown htext
    obtain ⟨name', hname', hrun⟩ := run_eq_of_sends hsends
    obtain rfl := Option.some.inj (hname.symm.trans hname')
    exact ⟨t, hsends, hrun⟩
  · obtain ⟨name', hname', hrun⟩ := run_eq_of_sends (h t)
    obtain rfl := Option.some.inj (hname.symm.trans hname')
    rw [hrun]
    simp only [ClientStep.failed, ClientStep.withToken, release_withToken]

/-- A step that has both values ignores the token or sends it. -/
theorem forwards_of_values {v : Option Bytes} {b : Bytes} (hshort : step.serverIn.length % 2 ^ 32 ≤ maxServerinLen)
    (hinit : step.isFinal = false) (hssf : step.ssfTooWeak = false)
    (huser : step.utils.getSimple step.prompts saslCbUser = .value v)
    (hpass : step.utils.getPassword step.prompts = .value (some b)) : Ignores step ∨ Forwards step := by
  have hvalues : ∀ t, (step.withToken t).utils.getSimple (step.withToken t).prompts saslCbUser = .value v ∧
      (step.withToken t).utils.getPassword (step.withToken t).prompts = .value (some (utf8 t)) := fun t =>
    ⟨getSimple_withToken.trans huser, getPassword_withToken.trans (hpass ▸ rfl)⟩
  have hshort' : ∀ t, ¬maxServerinLen < (step.withToken t).serverIn.length % 2 ^ 32 := fun t => Nat.not_lt.2 hshort
  have hinit' : ∀ t, (step.withToken t).isFinal = false := fun t => hinit
  have hssf' : ∀ t, (step.withToken t).ssfTooWeak = false := fun t => hssf
  have hcanon' : ∀ t, (step.withToken t).canon = step.canon := fun t => rfl
  cases hcanon : step.canon with
  | none =>
    refine .inl (@ignores_of_failed _ saslFail [] fun t => ?_)
    simp only [ClientStep.run, hshort', hinit', hssf', hvalues, hcanon', hcanon, fromUtf8_utf8, if_false,
      Bool.false_eq_true, CbValue.isNeedPrompt, Bool.or_false]
    rfl
  | some canon =>
    cases hv : readAuthzid v with
    | none =>
      refine .inl (@ignores_of_failed _ saslBadparam [] fun t => ?_)
      simp only [ClientStep.run, hshort', hinit', hssf', hvalues, hcanon', hcanon, hv, fromUtf8_utf8, if_false,
        Bool.false_eq_true, CbValue.isNeedPrompt, Bool.or_false]
      rfl
    | some authzid =>
      by_cases h1 : canon (canonCall anonymous saslCuAuthid) = saslOk
      · cases hname : authzidName authzid with
        | none =>
          refine .inl (@ignores_of_failed _ saslBadparam [(canonCall anonymous saslCuAuthid, saslOk)] fun t => ?_)
          simp only [ClientStep.run, hshort', hinit', hssf', hvalues, hcanon', hcanon, hv, h1, hname, fromUtf8_utf8,
            if_false, Bool.false_eq_true, CbValue.isNeedPrompt, Bool.or_false, ne_eq, not_true_eq_false]
          rfl
        | some name =>
          by_cases h2 : canon (canonCall name saslCuAuthzid) = saslOk
          · refine .inr (forwards_of_sends (fun htext => ?_)
              (sends_withToken hshort hinit hssf huser hpass hv hcanon hname h1 h2))
            obtain ⟨t, rfl⟩ := htext b hpass
            exact ⟨t, hshort, hinit, hssf, ⟨v, huser, hv⟩, hpass, canon, name, hcanon, hname, h1, h2⟩
          · refine .inl (@ignores_of_failed _ (canon (canonCall name saslCuAuthzid))
              [(canonCall anonymous saslCuAuthid, saslOk), (canonCall name saslCuAuthzid, canon (canonCall name saslCuAuthzid))] fun t => ?_)
            simp only [ClientStep.run, hshort', hinit', hssf', hvalues, hcanon', hcanon, hv, h1, hname, h2,
              fromUtf8_utf8, if_false, Bool.false_eq_true, CbValue.isNeedPrompt, Bool.or_false, ne_eq,
              not_true_eq_false, not_false_eq_true, if_true]
            rfl
      · refine .inl (@ignores_of_failed _ (canon (canonCall anonymous saslCuAuthid))
          [(canonCall anonymous saslCuAuthid, canon (canonCall anonymous saslCuAuthid))] fun t => ?_)
        simp only [ClientStep.run, hshort', hinit', hssf', hvalues, hcanon', hcanon, hv, h1, fromUtf8_utf8, if_false,
          Bool.false_eq_true, CbValue.isNeedPrompt, Bool.or_false, ne_eq, not_false_eq_true, if_true]
        rfl

theorem isNeedPrompt_withToken (v : CbValue) : (v.withToken t).isNeedPrompt = v.isNeedPrompt := by
  cases v <;> rfl

/-- A step that asks for one of the values ignores the token. -/
theorem ignores_of_asked (hshort : step.serverIn.length % 2 ^ 32 ≤ maxServerinLen) (hinit : step.isFinal = false)
    (hssf : step.ssfTooWeak = false)
    (hneed : ((step.utils.getSimple step.prompts saslCbUser).isNeedPrompt ||
      (step.utils.getPassword step.prompts).isNeedPrompt) = true) : Ignores step := by
  have huser : ∀ t, ((step.withToken t).utils.getSimple (step.withToken t).prompts saslCbUser).isNeedPrompt =
      (step.utils.getSimple step.prompts saslCbUser).isNeedPrompt := fun t => congrArg _ getSimple_withToken
  have hpass : ∀ t, ((step.withToken t).utils.getPassword (step.withToken t).prompts).isNeedPrompt =
      (step.utils.getPassword step.prompts).isNeedPrompt := fun t =>
    (congrArg _ getPassword_withToken).trans (isNeedPrompt_withToken _)
  have hshort' : ∀ t, ¬maxServerinLen < (step.withToken t).serverIn.length % 2 ^ 32 := fun t => Nat.not_lt.2 hshort
  have hinit' : ∀ t, (step.withToken t).isFinal = false := fun t => hinit
  have hssf' : ∀ t, (step.withToken t).ssfTooWeak = false := fun t => hssf
  have hrelease : ∀ t, (step.withToken t).prompts.release = step.prompts.release := fun t => release_withToken
  have hutils : ∀ t prompts wantUser wantPass, Prompts.request prompts (step.withToken t).utils wantUser wantPass =
      prompts.request step.utils wantUser wantPass := fun t prompts wantUser wantPass => rfl
  rcases request_cases step.prompts.release step.utils (step.utils.getSimple step.prompts saslCbUser).isNeedPrompt
    (step.utils.getPassword step.prompts).isNeedPrompt with ⟨rc, -, hreq⟩ | ⟨-, hreq⟩
  · refine @ignores_of_failed _ rc [] fun t => ?_
    simp only [ClientStep.run, hshort', hinit', hssf', huser, hpass, hneed, hrelease, hutils, hreq, if_false, if_true,
      Bool.false_eq_true]
    rfl
  · refine @ignores_of_others _ (step.failed saslInteract (some (some (requested
      (step.utils.getSimple step.prompts saslCbUser).isNeedPrompt
      (step.utils.getPassword step.prompts).isNeedPrompt))) []) fun t => ?_
    simp only [ClientStep.run, hshort', hinit', hssf', huser, hpass, hneed, hrelease, hutils, hreq, if_false, if_true,
      Bool.false_eq_true]
    simp only [ClientStep.failed, requested_withToken]
    rfl

/-- A step that has not both values, and asks for none of them, ignores the token. -/
theorem ignores_of_missing (hshort : step.serverIn.length % 2 ^ 32 ≤ maxServerinLen) (hinit : step.isFinal = false)
    (hssf : step.ssfTooWeak = false) (huser : (step.utils.getSimple step.prompts saslCbUser).isNeedPrompt = false)
    (hpass : (step.utils.getPassword step.prompts).isNeedPrompt = false)
    (h : ¬∃ v b, step.utils.getSimple step.prompts saslCbUser = .value v ∧
      step.utils.getPassword step.prompts = .value (some b)) : Ignores step := by
  have hshort' : ∀ t, ¬maxServerinLen < (step.withToken t).serverIn.length % 2 ^ 32 := fun t => Nat.not_lt.2 hshort
  have hinit' : ∀ t, (step.withToken t).isFinal = false := fun t => hinit
  have hssf' : ∀ t, (step.withToken t).ssfTooWeak = false := fun t => hssf
  cases hu : step.utils.getSimple step.prompts saslCbUser with
  | needPrompt =>
    rw [hu] at huser
    cases huser
  | fail rc =>
    refine @ignores_of_failed _ rc [] fun t => ?_
    have hu' : (step.withToken t).utils.getSimple (step.withToken t).prompts saslCbUser = .fail rc :=
      getSimple_withToken.trans hu
    have hp' : ((step.withToken t).utils.getPassword (step.withToken t).prompts).isNeedPrompt = false :=
      (congrArg _ getPassword_withToken).trans ((isNeedPrompt_withToken _).trans hpass)
    have hf : (CbValue.fail rc).isNeedPrompt = false := rfl
    simp only [ClientStep.run, hshort', hinit', hssf', hu', hp', hf, if_false, Bool.false_eq_true, Bool.or_false]
    rfl
  | value v =>
    cases hp : step.utils.getPassword step.prompts with
    | needPrompt =>
      rw [hp] at hpass
      cases hpass
    | fail rc =>
      refine @ignores_of_failed _ rc [] fun t => ?_
      have hu' : (step.withToken t).utils.getSimple (step.withToken t).prompts saslCbUser = .value v :=
        getSimple_withToken.trans hu
      have hp' : (step.withToken t).utils.getPassword (step.withToken t).prompts = .fail rc :=
        getPassword_withToken.trans (by rw [hp]; rfl)
      simp only [ClientStep.run, hshort', hinit', hssf', hu', hp', if_false, Bool.false_eq_true, CbValue.isNeedPrompt,
        Bool.or_false]
      rfl
    | value b =>
      cases b with
      | some b => exact absurd ⟨v, b, hu, hp⟩ h
      | none =>
        refine @ignores_of_failed _ saslBadparam [] fun t => ?_
        have hu' : (step.withToken t).utils.getSimple (step.withToken t).prompts saslCbUser = .value v :=
          getSimple_withToken.trans hu
        have hp' : (step.withToken t).utils.getPassword (step.withToken t).prompts = .value none :=
          getPassword_withToken.trans (by rw [hp]; rfl)
        simp only [ClientStep.run, hshort', hinit', hssf', hu', hp', if_false, Bool.false_eq_true,
          CbValue.isNeedPrompt, Bool.or_false]
        rfl

/-- The token is opaque: a step ignores it or sends it, whatever token there is in the place of that
    of the application, and does nothing else with it. -/
theorem token_forwarded (step : ClientStep) :
    (Ignores step ∨ Forwards step) ∧
      ∀ authzid t, step.Sends authzid t → Forwards step ∧ (step.withToken t).run = step.run := by
  refine ⟨?_, fun authzid t h => ?_⟩
  · by_cases hshort : maxServerinLen < step.serverIn.length % 2 ^ 32
    · exact .inl (@ignores_of_others _ (step.stopped saslBadprot step.out) fun t => if_pos hshort)
    have hle := Nat.not_lt.1 hshort
    by_cases hfinal : step.isFinal = true
    · refine .inl (@ignores_of_others _ step.run fun t => ?_)
      simp only [ClientStep.run, if_neg hshort, if_pos hfinal]
      exact (if_neg hshort).trans (if_pos hfinal)
    have hinit := Bool.not_eq_true _ ▸ hfinal
    by_cases hssf : step.ssfTooWeak = true
    · exact .inl (@ignores_of_others _ (step.stopped saslTooweak none) fun t =>
        (if_neg hshort).trans ((if_neg hfinal).trans (if_pos hssf)))
    have hstrong := Bool.not_eq_true _ ▸ hssf
    by_cases hneed : ((step.utils.getSimple step.prompts saslCbUser).isNeedPrompt ||
        (step.utils.getPassword step.prompts).isNeedPrompt) = true
    · exact .inl (ignores_of_asked hle hinit hstrong hneed)
    obtain ⟨huser, hpass⟩ := Bool.or_eq_false_iff.1 (Bool.not_eq_true _ ▸ hneed)
    by_cases hvalues : ∃ v b, step.utils.getSimple step.prompts saslCbUser = .value v ∧
        step.utils.getPassword step.prompts = .value (some b)
    · obtain ⟨v, b, hu, hp⟩ := hvalues
      exact forwards_of_values hle hinit hstrong hu hp
    · exact .inl (ignores_of_missing hle hinit hstrong huser hpass hvalues)
  · obtain ⟨v, hu, hv⟩ := h.user
    obtain ⟨canon, name, hcanon, hname, h1, h2⟩ := h.names
    have hsends := sends_withToken h.short h.initial h.ssf hu h.pass hv hcanon hname h1 h2
    refine ⟨forwards_of_sends (fun _ => ⟨t, h⟩) hsends, ?_⟩
    obtain ⟨name', hname', hrun⟩ := run_eq_of_sends h
    obtain ⟨name'', hname'', hrun'⟩ := run_eq_of_sends (hsends t)
    obtain rfl := Option.some.inj (hname'.symm.trans hname'')
    rw [hrun, hrun']
    simp only [ClientStep.failed, ClientStep.withToken, release_withToken]

theorem Fixture.sends_firstCall :
    (firstCall (application name (saslOk, some ⟨saslOk, some (utf8 "t.o.k")⟩))).Sends (some "admin") "t.o.k" where
  short := by decide
  initial := rfl
  ssf := rfl
  user := ⟨some (utf8 "admin"), by decide +kernel, by decide +kernel⟩
  pass := by decide +kernel
  names := ⟨_, ⟨utf8 "admin", by decide⟩, rfl, by decide +kernel, rfl, rfl⟩

theorem token_forwarded_fixture : Forwards
    (Fixture.firstCall (Fixture.application Fixture.name (saslOk, some ⟨saslOk, some (utf8 "t.o.k")⟩))) :=
  ((token_forwarded _).2 _ _ Fixture.sends_firstCall).1

end CrudeOAuth.Sasl
