import CrudeOAuth.Sasl.Client

/-!
# Prompting

Each of the two values of a client has a `Source`: a callback that supplies it or fails, no
callback, or a prompt. A step asks for a prompt if some source is one, and then for these
values only; once the array is filled in, the next step gives the result of a step whose
callbacks had supplied the answers (`run_prompting`).

The two values are found by different functions, and a step treats one of them as optional
and the other as required. What it does depends on what they find, after which no token is
a bad parameter (`CbValue.required`).
-/

namespace CrudeOAuth.Sasl

open Rust

/-! ## Sources -/

/-- Where the application has a value from. -/
inductive Source
  /-- a callback that supplies a result, or NULL -/
  | callback (result : Option Bytes)
  | failing (rc : Int) (h : rc < 0)
  | missing
  | prompting

def Source.isPrompting : Source → Bool
  | prompting => true
  | _ => false

/-- What `getcallback` answers for a value with the source. -/
inductive Source.Registered : Source → Int × Option Callback → Prop
  | callback (result) : Registered (.callback result) (saslOk, some ⟨saslOk, result⟩)
  | failing (rc h result) : Registered (.failing rc h) (saslOk, some ⟨rc, result⟩)
  | missing (proc) : Registered .missing (saslFail, proc)
  | prompting (proc) : Registered .prompting (saslInteract, proc)

/-- The authorization name and the token are from these sources. -/
def Utils.Asks (utils : Utils) (user token : Source) : Prop :=
  ∃ getcallback, utils.getcallback = some getcallback ∧ user.Registered (getcallback saslCbUser) ∧
    token.Registered (getcallback saslCbPass)

/-- A callback with the result in place of a prompt. -/
def Source.answered (result : Option Bytes) : Source → Source
  | prompting => .callback result
  | source => source

/-- What is found if the source is that of an optional string. -/
def Source.simple : Source → CbValue
  | callback result => .value (result.map fun result => (CString.ofMemory result).bytes)
  | failing rc _ => .fail rc
  | missing => .value none
  | prompting => .needPrompt

/-- What is found if the source is that of the token. -/
def Source.password : Source → CbValue
  | callback result => .value result
  | failing rc _ => .fail rc
  | missing => .fail saslFail
  | prompting => .needPrompt

/-- The value is there, or the step fails for want of it. -/
def CbValue.Settled : CbValue → Prop
  | value _ => True
  | needPrompt => False
  | fail rc => rc < 0

/-- A value that is required: none is a bad parameter. -/
def CbValue.required : CbValue → CbValue
  | value none => .fail saslBadparam
  | v => v

variable {source user token : Source} {utils : Utils} {prompts : Prompts} {id : Nat}
  {getcallback : Nat → Int × Option Callback}

theorem getSimple_eq (hfind : prompts.find id = none) (hcallback : utils.getcallback = some getcallback)
    (h : source.Registered (getcallback id)) : utils.getSimple prompts id = source.simple := by
  rw [Utils.getSimple, hfind]
  dsimp only
  rw [hcallback]
  dsimp only
  generalize getcallback id = answer at h
  cases h with
  | callback result => rfl
  | failing rc hrc result =>
    have hne : rc ≠ saslOk := Int.ne_of_lt hrc
    simp only [if_true, hne, not_false_eq_true, ne_eq]
    rfl
  | missing proc | prompting proc => rfl

theorem getPassword_eq (hfind : prompts.find saslCbPass = none)
    (hcallback : utils.getcallback = some getcallback) (h : source.Registered (getcallback saslCbPass)) :
    utils.getPassword prompts = source.password := by
  rw [Utils.getPassword, hfind]
  dsimp only
  rw [hcallback]
  dsimp only
  generalize getcallback saslCbPass = answer at h
  cases h with
  | callback result => rfl
  | failing rc hrc result =>
    have hne : rc ≠ saslOk := Int.ne_of_lt hrc
    simp only [if_true, hne, not_false_eq_true, ne_eq]
    rfl
  | missing proc | prompting proc => rfl

/-- The values that are found, with no answers to prompts. -/
theorem Utils.Asks.values (h : utils.Asks user token) (hfind : ∀ id, prompts.find id = none) :
    utils.getSimple prompts saslCbUser = user.simple ∧ utils.getPassword prompts = token.password := by
  obtain ⟨getcallback, hcallback, huser, htoken⟩ := h
  exact ⟨getSimple_eq (hfind _) hcallback huser, getPassword_eq (hfind _) hcallback htoken⟩

theorem Source.settled_simple (h : source.isPrompting = false) : source.simple.Settled := by
  cases source with
  | callback result | missing => trivial
  | failing rc hrc => exact hrc
  | prompting => cases h

theorem Source.settled_password (h : source.isPrompting = false) : source.password.Settled := by
  cases source with
  | callback result => trivial
  | failing rc hrc => exact hrc
  | missing => exact (by decide : saslFail < 0)
  | prompting => cases h

theorem Source.isPrompting_iff : source.isPrompting = true ↔ source = .prompting := by
  cases source <;> simp [isPrompting]

theorem Source.isNeedPrompt_simple : source.simple.isNeedPrompt = source.isPrompting := by
  cases source <;> rfl

theorem Source.isNeedPrompt_password : source.password.isNeedPrompt = source.isPrompting := by
  cases source <;> rfl

theorem Source.isPrompting_answered {result : Option Bytes} : (source.answered result).isPrompting = false := by
  cases source <;> rfl

theorem Source.answered_eq {result : Option Bytes} (h : source.isPrompting = false) :
    source.answered result = source := by
  cases source with
  | prompting => cases h
  | _ => rfl

/-! ## Prompts -/

/-- The array that is requested from the application. -/
def requested (wantUser wantPass : Bool) : List Interact :=
  (if wantUser then [request saslCbUser "Authorization Name" "Please enter an authorization name"] else []) ++
    (if wantPass then [request saslCbPass "Access Token" "Please enter Access Token (as JWT)"] else []) ++
    [request saslCbListEnd "" ""]

/-- The ids of the values that are prompted for. -/
def promptingIds (user token : Source) : List Nat :=
  (if user.isPrompting then [saslCbUser] else []) ++ if token.isPrompting then [saslCbPass] else []

/-- The memory starts with the answer. An answer of length 0 is a string that ends there. -/
structure Holds (memory : Bytes) (answer : CString) : Prop where
  begins : answer.bytes <+: memory
  ends : answer.bytes = [] → memory.head? = some 0

/-- The entry has the answer with its length, or no answer. -/
def Interact.Answered (entry : Interact) : Option CString → Prop
  | none => entry.result = none
  | some answer => ∃ memory, entry.result = some memory ∧ Holds memory answer ∧ entry.len = answer.bytes.length

/-- The application answers an entry, if it is not the end of the array. -/
structure Filled (answer : Nat → Option CString) (entry entry' : Interact) : Prop where
  id : entry'.id = entry.id
  answered : entry.id ≠ saslCbListEnd → entry'.Answered (answer entry.id)

theorem request_eq (hmalloc : ∃ malloc, utils.malloc = some malloc ∧ ∀ size, malloc size = true)
    (wantUser wantPass : Bool) :
    Prompts.request (some none) utils wantUser wantPass = (saslInteract, some (some (requested wantUser wantPass))) := by
  obtain ⟨malloc, hmalloc, hok⟩ := hmalloc
  simp only [Prompts.request, hmalloc, Option.any_some, hok]
  rfl

theorem ids_requested : (requested user.isPrompting token.isPrompting).map Interact.id =
    promptingIds user token ++ [saslCbListEnd] := by
  rw [requested, promptingIds]
  cases user.isPrompting <;> cases token.isPrompting <;> rfl

variable {answer : Nat → Option CString} {arr arr' : List Interact}

/-- The entries that are found in the array are those that were requested. -/
theorem findEntry_filled (h : List.Forall₂ (Filled answer) arr arr') :
    (findEntry id arr = none ∧ findEntry id arr' = none) ∨
      ((findEntry id arr).isSome ∧ ∃ entry', findEntry id arr' = some entry' ∧ entry'.Answered (answer id)) := by
  induction h with
  | nil => exact .inl ⟨rfl, rfl⟩
  | @cons entry entry' rest rest' hfilled _ ih =>
    rw [findEntry, findEntry, hfilled.id]
    by_cases hend : entry.id = saslCbListEnd
    · rw [if_pos hend, if_pos hend]
      exact .inl ⟨rfl, rfl⟩
    · rw [if_neg hend, if_neg hend]
      by_cases hid : entry.id = id
      · rw [if_pos hid, if_pos hid]
        exact .inr ⟨rfl, entry', rfl, hid ▸ hfilled.answered hend⟩
      · rw [if_neg hid, if_neg hid]
        exact ih

theorem isSome_findEntry_user (wantUser wantPass : Bool) :
    (findEntry saslCbUser (requested wantUser wantPass)).isSome = wantUser := by
  cases wantUser <;> cases wantPass <;> rfl

theorem isSome_findEntry_pass (wantUser wantPass : Bool) :
    (findEntry saslCbPass (requested wantUser wantPass)).isSome = wantPass := by
  cases wantUser <;> cases wantPass <;> rfl

theorem Holds.take {memory : Bytes} {a : CString} (h : Holds memory a) : memory.take a.bytes.length = a.bytes :=
  (List.prefix_iff_eq_take.1 h.begins).symm

/-- An answer to a prompt is found as it is. -/
theorem getSimple_answered {entry : Interact} {a : Option CString} (hfind : prompts.find id = some entry)
    (h : entry.Answered a) : utils.getSimple prompts id = .value (a.map CString.bytes) := by
  rw [Utils.getSimple, hfind]
  cases a with
  | none =>
    have hresult : entry.result = none := h
    simp only [hresult, Option.map_none]
  | some a =>
    obtain ⟨memory, hresult, hholds, hlen⟩ := h
    simp only [hresult, Option.map_some, hlen]
    by_cases hpos : 0 < a.bytes.length
    · rw [if_pos hpos, hholds.take]
    · have hnil : a.bytes = [] := List.length_eq_zero_iff.1 (by omega)
      obtain ⟨rest, rfl⟩ : ∃ rest, memory = 0 :: rest := by
        have hhead := hholds.ends hnil
        cases memory with
        | nil => cases hhead
        | cons b rest => exact ⟨rest, by rw [Option.some.inj hhead]⟩
      rw [if_neg hpos, hnil]
      rfl

theorem getPassword_answered {entry : Interact} {a : Option CString} (hfind : prompts.find saslCbPass = some entry)
    (h : entry.Answered a) : utils.getPassword prompts = (CbValue.value (a.map CString.bytes)).required := by
  rw [Utils.getPassword, hfind]
  cases a with
  | none =>
    have hresult : entry.result = none := h
    simp only [hresult]
    rfl
  | some a =>
    obtain ⟨memory, hresult, hholds, hlen⟩ := h
    simp only [hresult, hlen, hholds.take]
    rfl

/-! ## Steps -/

/-- A first step of a client. An input that is too long is refused before anything is asked
    for; that of a first call is empty. -/
structure ClientStep.Initial (step : ClientStep) : Prop where
  initial : step.isFinal = false
  short : step.serverIn.length % 2 ^ 32 ≤ maxServerinLen
  ssf : step.ssfTooWeak = false
  prompts : step.prompts = some none
  malloc : ∃ malloc, step.utils.malloc = some malloc ∧ ∀ size, malloc size = true
  canon : ∀ canon, step.canon = some canon → ∀ call, canon call = saslOk ∨ canon call < 0

/-- The step of the next call, with what the step left behind and the prompts that are answered. -/
def ClientStep.next (step : ClientStep) (arr : List Interact) : ClientStep :=
  { step with ctx := step.run.ctx, prompts := some (some arr), out := step.run.out, oparams := step.run.oparams }

variable {step : ClientStep} {u t t' : CbValue} {utils' : Utils} {prompts' : Prompts} {out : OutBuf}

/-- A step without one of the values asks for it. -/
theorem run_of_needPrompt (h : step.Initial) (huser : step.utils.getSimple step.prompts saslCbUser = u)
    (hpass : step.utils.getPassword step.prompts = t) (hneed : (u.isNeedPrompt || t.isNeedPrompt) = true) :
    step.run = { rc := some saslInteract, ctx := step.ctx, out := none, oparams := step.oparams, calls := [],
                 prompts := some (some (requested u.isNeedPrompt t.isNeedPrompt)) } := by
  have hrelease : step.prompts.release = some none := by
    rw [h.prompts]
    rfl
  simp only [ClientStep.run, if_neg (Nat.not_lt.2 h.short), h.initial, h.ssf, Bool.false_eq_true, if_false, huser,
    hpass, hneed, if_true, hrelease, request_eq h.malloc]
  rfl

/-- A step with both values does not ask for another, and does not panic. -/
theorem run_of_settled (h : step.Initial) (huser : step.utils.getSimple prompts saslCbUser = u)
    (hpass : step.utils.getPassword prompts = t) (hu : u.Settled) (ht : t.Settled) :
    ∃ rc, ({ step with prompts := prompts, out := out } : ClientStep).run.rc = some rc ∧ rc ≠ saslInteract := by
  have hne : ∀ rc : Int, rc < 0 → rc ≠ saslInteract := by
    rintro _ hneg rfl
    exact absurd hneg (by decide)
  have hcanonical : ∀ canon, step.canon = some canon → ∀ call, canon call ≠ saslInteract := by
    intro canon hcanon call
    rcases h.canon canon hcanon call with hok | hneg
    · rw [hok]
      decide
    · exact hne _ hneg
  simp only [ClientStep.run, if_neg (Nat.not_lt.2 h.short), h.initial, h.ssf, Bool.false_eq_true, if_false, huser, hpass]
  cases u with
  | needPrompt => exact hu.elim
  | fail rc =>
    cases t with
    | needPrompt => exact ht.elim
    | value _ | fail _ => exact ⟨rc, rfl, hne rc hu⟩
  | value v =>
    cases t with
    | needPrompt => exact ht.elim
    | fail rc => exact ⟨rc, rfl, hne rc ht⟩
    | value token =>
      simp only [CbValue.isNeedPrompt, Bool.or_false, Bool.false_eq_true, if_false]
      -- What is left are the checks of the step, in its order.
      cases token with
      | none => exact ⟨_, rfl, by decide⟩
      | some token =>
        dsimp only
        cases fromUtf8 token with
        | none => exact ⟨_, rfl, by decide⟩
        | some token =>
          cases hcanon : step.canon with
          | none => exact ⟨_, rfl, by decide⟩
          | some canon =>
            cases readAuthzid v with
            | none => exact ⟨_, rfl, by decide⟩
            | some authzid =>
              dsimp only
              split
              · exact ⟨_, rfl, hcanonical canon hcanon _⟩
              · cases authzidName authzid with
                | none => exact ⟨_, rfl, by decide⟩
                | some name =>
                  dsimp only
                  split
                  · exact ⟨_, rfl, hcanonical canon hcanon _⟩
                  · exact ⟨_, rfl, by decide⟩

/-- What a step does depends on the values that it finds; no token is a bad parameter. -/
theorem run_congr (h : step.Initial) (hrelease : prompts.release = prompts'.release)
    (huser : utils.getSimple prompts saslCbUser = u) (huser' : utils'.getSimple prompts' saslCbUser = u)
    (hpass : utils.getPassword prompts = t) (hpass' : utils'.getPassword prompts' = t')
    (hsame : t.required = t'.required) (hu : u.Settled) (ht : t.Settled) (ht' : t'.Settled) :
    ({ step with utils := utils, prompts := prompts, out := out } : ClientStep).run =
      ({ step with utils := utils', prompts := prompts' } : ClientStep).run := by
  simp only [ClientStep.run, if_neg (Nat.not_lt.2 h.short), h.initial, h.ssf, Bool.false_eq_true, if_false, huser,
    huser', hpass, hpass', hrelease]
  cases u with
  | needPrompt => exact hu.elim
  | fail rc =>
    cases t with
    | needPrompt => exact ht.elim
    | value _ | fail _ =>
      cases t' with
      | needPrompt => exact ht'.elim
      | value _ | fail _ => rfl
  | value v =>
    cases t with
    | needPrompt => exact ht.elim
    | fail rc =>
      cases t' with
      | needPrompt => exact ht'.elim
      | fail rc' =>
        obtain rfl : rc = rc' := CbValue.fail.inj hsame
        rfl
      | value token =>
        cases token with
        | none =>
          obtain rfl : rc = saslBadparam := CbValue.fail.inj hsame
          rfl
        | some token => cases hsame
    | value token =>
      cases t' with
      | needPrompt => exact ht'.elim
      | fail rc =>
        cases token with
        | none =>
          obtain rfl : saslBadparam = rc := CbValue.fail.inj hsame
          rfl
        | some token => cases hsame
      | value token' =>
        obtain rfl : token = token' := by
          cases token <;> cases token' <;> cases hsame <;> rfl
        rfl

/-! ## Both ways -/

/-- An answer can be supplied by a callback. -/
theorem exists_memory (a : Option CString) : ∃ memory : Option Bytes, memory.map CString.ofMemory = a := by
  cases a with
  | none => exact ⟨none, rfl⟩
  | some a => exact ⟨some (a.bytes ++ [0]), congrArg some (CString.ofMemory_bytes a [])⟩

/-- The value that the next step finds is that of a callback with the answer. -/
theorem getSimple_filled (hfill : List.Forall₂ (Filled answer) (requested user.isPrompting token.isPrompting) arr')
    (hasks : utils.Asks user token) {result : Option Bytes}
    (hresult : result.map CString.ofMemory = answer saslCbUser) :
    utils.getSimple (some (some arr')) saslCbUser = (user.answered result).simple := by
  obtain ⟨getcallback, hcallback, huser, -⟩ := hasks
  have hsome := isSome_findEntry_user user.isPrompting token.isPrompting
  rcases findEntry_filled hfill with ⟨hnone, hfind⟩ | ⟨hfound, entry', hfind, hanswer⟩
  · rw [hnone] at hsome
    rw [Source.answered_eq hsome.symm]
    exact getSimple_eq hfind hcallback huser
  · obtain rfl : user = .prompting := Source.isPrompting_iff.1 (hsome.symm.trans hfound)
    have hentry : Prompts.find (some (some arr')) saslCbUser = some entry' := hfind
    rw [getSimple_answered hentry hanswer, ← hresult, Option.map_map]
    rfl

/-- The token that the next step finds is, as one that is required, that of a callback with the
    answer. -/
theorem getPassword_filled (hfill : List.Forall₂ (Filled answer) (requested user.isPrompting token.isPrompting) arr')
    (hasks : utils.Asks user token) :
    (utils.getPassword (some (some arr'))).required =
        (token.answered ((answer saslCbPass).map CString.bytes)).password.required ∧
      (utils.getPassword (some (some arr'))).Settled := by
  obtain ⟨getcallback, hcallback, -, htoken⟩ := hasks
  have hsome := isSome_findEntry_pass user.isPrompting token.isPrompting
  rcases findEntry_filled hfill with ⟨hnone, hfind⟩ | ⟨hfound, entry', hfind, hanswer⟩
  · rw [hnone] at hsome
    have hnone' : Prompts.find (some (some arr')) saslCbPass = none := hfind
    rw [Source.answered_eq hsome.symm, getPassword_eq hnone' hcallback htoken]
    exact ⟨rfl, Source.settled_password hsome.symm⟩
  · obtain rfl : token = .prompting := Source.isPrompting_iff.1 (hsome.symm.trans hfound)
    have hentry : Prompts.find (some (some arr')) saslCbPass = some entry' := hfind
    rw [getPassword_answered hentry hanswer]
    cases answer saslCbPass with
    | none => exact ⟨rfl, (by decide : saslBadparam < 0)⟩
    | some a => exact ⟨rfl, trivial⟩

/-- A step prompts if a source is a prompt, and then for the values that have one. The next
    step, with the answers, neither prompts nor panics, and gives what a single step gives
    whose callbacks supply the answers. -/
theorem run_prompting (h : step.Initial) (hasks : step.utils.Asks user token) :
    step.run.rc ≠ none ∧ (step.run.rc = some saslInteract ↔ user = .prompting ∨ token = .prompting) ∧
      (step.run.rc = some saslInteract →
        ∃ arr, step.run.prompts = some (some arr) ∧
          arr.map Interact.id = promptingIds user token ++ [saslCbListEnd] ∧
          ∀ (answer : Nat → Option CString) (arr' : List Interact), List.Forall₂ (Filled answer) arr arr' →
            (step.next arr').run.rc ≠ none ∧ (step.next arr').run.rc ≠ some saslInteract ∧
            ∀ (utils : Utils) (name : Option Bytes), name.map CString.ofMemory = answer saslCbUser →
              utils.Asks (user.answered name) (token.answered ((answer saslCbPass).map CString.bytes)) →
              (step.next arr').run = ({ step with utils := utils } : ClientStep).run) := by
  have hfind : ∀ id, step.prompts.find id = none := fun id => by
    rw [h.prompts]
    rfl
  obtain ⟨huser, htoken⟩ := hasks.values hfind
  by_cases hneed : user.isPrompting = true ∨ token.isPrompting = true
  · have hrun := run_of_needPrompt h huser htoken
      (by rwa [Source.isNeedPrompt_simple, Source.isNeedPrompt_password, Bool.or_eq_true])
    rw [Source.isNeedPrompt_simple, Source.isNeedPrompt_password] at hrun
    have hrc : step.run.rc = some saslInteract := congrArg ClientResult.rc hrun
    have hiff : user = .prompting ∨ token = .prompting := by
      rwa [Source.isPrompting_iff, Source.isPrompting_iff] at hneed
    refine ⟨by rw [hrc]; simp, iff_of_true hrc hiff, fun _ => ?_⟩
    refine ⟨_, congrArg ClientResult.prompts hrun, ids_requested, fun answer arr' hfill => ?_⟩
    have hnext : step.next arr' = { step with prompts := some (some arr'), out := none } := by
      rw [ClientStep.next, hrun]
    obtain ⟨htoken', htokenSettled⟩ := getPassword_filled hfill hasks
    obtain ⟨rc, hnextRc, hne⟩ : ∃ rc, (step.next arr').run.rc = some rc ∧ rc ≠ saslInteract := by
      rw [hnext]
      obtain ⟨name, hname⟩ := exists_memory (answer saslCbUser)
      exact run_of_settled h (getSimple_filled hfill hasks hname) rfl
        (Source.settled_simple Source.isPrompting_answered) htokenSettled
    refine ⟨by simp [hnextRc], by simpa [hnextRc] using hne, fun utils name hname hanswered => ?_⟩
    obtain ⟨huser', hpass'⟩ := hanswered.values hfind
    rw [hnext]
    exact run_congr h (by rw [h.prompts]; rfl) (getSimple_filled hfill hasks hname) huser' rfl hpass' htoken'
      (Source.settled_simple Source.isPrompting_answered) htokenSettled
      (Source.settled_password Source.isPrompting_answered)
  · rw [not_or, Bool.not_eq_true, Bool.not_eq_true] at hneed
    obtain ⟨rc, hrc, hne⟩ : ∃ rc, step.run.rc = some rc ∧ rc ≠ saslInteract :=
      run_of_settled h huser htoken (Source.settled_simple hneed.1) (Source.settled_password hneed.2)
    have hnot : step.run.rc ≠ some saslInteract := by simpa [hrc] using hne
    refine ⟨by simp [hrc], iff_of_false hnot ?_, fun hinteract => absurd hinteract hnot⟩
    rw [← Source.isPrompting_iff, ← Source.isPrompting_iff, hneed.1, hneed.2]
    simp

/-- A step of a call without data from the server, in a connection that is strong enough, is a
    first one. -/
theorem initial_ofCall {params : ClientParams} (ctx : ClientContext) (serverIn : Option Bytes) (oparams : OutParams)
    (hssf : params.minSsf ≤ params.externalSsf)
    (hmalloc : ∃ malloc, utils.malloc = some malloc ∧ ∀ size, malloc size = true)
    (hcanon : ∀ canon, params.canonUser = some canon → ∀ call, canon call = saslOk ∨ canon call < 0) :
    (ClientStep.ofCall utils ctx params serverIn 0 (some none) out oparams).Initial where
  initial := rfl
  short := by
    have hnil : (ClientStep.ofCall utils ctx params serverIn 0 (some none) out oparams).serverIn = [] := by
      cases serverIn <;> rfl
    rw [hnil]
    exact Nat.zero_le _
  ssf := decide_eq_false (Nat.not_lt.2 hssf)
  prompts := rfl
  malloc := hmalloc
  canon := hcanon

namespace Fixture

/-- The services of an application with these answers for the name and the token. -/
def application (user token : Int × Option Callback) : Utils where
  getopt := none
  getprop := none
  getcallback := some fun id => if id = saslCbUser then user else token
  malloc := some fun _ => true

/-- The name is from a callback. -/
def name : Int × Option Callback := (saslOk, some ⟨saslOk, some (utf8 "admin\x00")⟩)

def firstCall (utils : Utils) : ClientStep :=
  .ofCall utils .new ⟨some utils, some fun _ => saslOk, 0, 0⟩ none 0 (some none) none ⟨0, 0, 0, 0, 0, 0, 0, 0⟩

/-- The array with an answer to the prompt for the token. -/
def answers : List Interact :=
  [{ request saslCbPass "Access Token" "Please enter Access Token (as JWT)" with
      result := some (utf8 "t.o.k\x00"), len := 5 },
    request saslCbListEnd "" ""]

end Fixture

theorem run_prompting_fixture :
    (Fixture.firstCall (Fixture.application Fixture.name (saslInteract, none))).run.rc = some saslInteract ∧
      ((Fixture.firstCall (Fixture.application Fixture.name (saslInteract, none))).next Fixture.answers).run =
        (Fixture.firstCall (Fixture.application Fixture.name (saslOk, some ⟨saslOk, some (utf8 "t.o.k")⟩))).run := by
  have hinit : (Fixture.firstCall (Fixture.application Fixture.name (saslInteract, none))).Initial :=
    initial_ofCall _ _ _ (Nat.le_refl _) ⟨_, rfl, fun _ => rfl⟩ fun canon hcanon call =>
      .inl (Option.some.inj hcanon ▸ rfl)
  have hasks : ∀ token answer, token.Registered answer →
      (Fixture.application Fixture.name answer).Asks (.callback (some (utf8 "admin\x00"))) token :=
    fun token answer htoken => ⟨_, rfl, .callback _, htoken⟩
  obtain ⟨-, hiff, hnext⟩ := run_prompting hinit (hasks _ _ (.prompting none))
  have hrc := hiff.2 (.inr rfl)
  obtain ⟨arr, harr, -, hfilled⟩ := hnext hrc
  obtain rfl : arr = requested false true :=
    Option.some.inj (Option.some.inj (harr.symm.trans (by decide +kernel)))
  -- The answer has the end of the string after it.
  let answer : Nat → Option CString := fun id => CString.new (if id = saslCbUser then utf8 "admin" else utf8 "t.o.k")
  have hfill : List.Forall₂ (Filled answer) (requested false true) Fixture.answers := by
    refine .cons ⟨rfl, fun _ => ?_⟩ (.cons ⟨rfl, fun hne => absurd rfl hne⟩ .nil)
    exact ⟨utf8 "t.o.k\x00", rfl, ⟨by decide, by decide⟩, rfl⟩
  obtain ⟨-, -, hsame⟩ := hfilled answer _ hfill
  exact ⟨hrc, hsame _ (some (utf8 "admin\x00")) (by decide) (hasks _ _ (.callback _))⟩

end CrudeOAuth.Sasl
