import CrudeOAuth.Sasl.ClientRun
import CrudeOAuth.Sasl.Plugin

/-!
# The client plugin

The plugin as it is loaded (`sasl/src/client.rs`), with the memory of its entry points. A
context owns the buffer of the output that it has published. A prompt array is handed to the
host, which fills it in and passes it to a later step, possibly of another connection; the step
frees it.

A context is changed, and a prompt array comes and goes, in one of a few ways each
(`ClientHost.Moves`), and what the memory is like (`ClientHost.Safe`) is kept by each of them.
-/

namespace CrudeOAuth.Sasl

open Rust Machine

def saslClientPlugVersion : Int := 4

/-! ## Memory -/

/-- An entry of the plugin list. The callbacks in it are the entry points below. -/
structure ClientPlug where
  mechName : Bytes
  maxSsf : Nat
  securityFlags : Nat
  features : Nat
  requiredPrompts : Option Address
  globContext : Option Address
  deriving DecidableEq, Repr

def makeClientPlugin : ClientPlug where
  mechName := mechName
  maxSsf := 0
  securityFlags := saslSecNoplaintext ||| saslSecNoanonymous
  features := saslFeatWantClientFirst ||| saslFeatAllowsProxy
  requiredPrompts := none
  globContext := none

/-- What the plugin allocates. -/
inductive ClientBlock
  | plugin (plugin : ClientPlug)
  /-- the buffer of the output, once there is one -/
  | context (output : Option Address)
  | buffer (data : Bytes)
  | prompts (entries : List Interact)

def ClientBlock.owns : ClientBlock → Option Address
  | context output => output
  | plugin _ | buffer _ | prompts _ => none

abbrev ClientHeap := Memory ClientBlock

namespace ClientHeap

/-- The output of the context that a pointer points to. -/
def context (m : ClientHeap) (a : Address) : Option (Option Address) :=
  match m a with
  | some (.context output) => some output
  | _ => none

def buffer (m : ClientHeap) (a : Address) : Option Bytes :=
  match m a with
  | some (.buffer data) => some data
  | _ => none

/-- The array that a pointer points to. It is searched up to its end, so it must have one. -/
def prompts (m : ClientHeap) (a : Address) : Option (List Interact) :=
  match m a with
  | some (.prompts entries) => if entries.any (·.id == saslCbListEnd) then some entries else none
  | _ => none

/-- `Prompts::from_raw`, where the slot is NULL or holds NULL or an array. -/
def readPrompts (m : ClientHeap) : Option (Option Address) → Option Prompts
  | none => some none
  | some none => some (some none)
  | some (some a) => (m.prompts a).map fun entries => some (some entries)

/-- Frees the array in the slot, if the service table has `free`. -/
def release (m : ClientHeap) (free : Bool) (slot : Option (Option Address)) : Option ClientHeap :=
  match slot with
  | some (some a) => if free then m.drop ClientBlock.owns a else some m
  | _ => some m

end ClientHeap

/-! ## Entry points

A pointer that is only checked for NULL is a `Bool`. The result is `none` if memory is looked into
that is not live, or not what it is taken for. -/

/-- The plugin comes to the address `plugin`. -/
def saslClientPlugInit (utils : Option Utils) (maxvers : Int) (outvers pluglist plugcount : Bool) (plugin : Address)
    (m : ClientHeap) : Int × Option PlugList × ClientHeap :=
  if !outvers || !pluglist || !plugcount then (saslBadparam, none, m)
  else if utils.isNone then (saslBadparam, none, m)
  else if maxvers < saslClientPlugVersion then (saslBadvers, none, m)
  else
    (saslOk, some { outvers := saslClientPlugVersion, pluglist := plugin, plugcount := 1 },
      m.alloc plugin (.plugin makeClientPlugin))

/-- The context comes to the address `fresh`. -/
def clientMechNew (connContext : Bool) (fresh : Address) (m : ClientHeap) : Int × Option Address × ClientHeap :=
  if !connContext then (saslBadparam, none, m) else (saslOk, some fresh, m.alloc fresh (.context none))

structure ClientCall where
  params : Option ClientParams
  serverIn : Option Bytes
  serverInLen : Nat
  promptNeed : Option (Option Address)
  clientOut : Bool
  clientOutLen : Bool
  oparams : Option OutParams
  /-- the service table has `free` -/
  free : Bool

/-- What the call passes on, if none of its pointers is NULL that must not be. -/
def ClientCall.pointers (call : ClientCall) : Option (Utils × ClientParams × OutParams) := do
  let params ← call.params
  let utils ← params.utils
  let oparams ← call.oparams
  if call.clientOut && call.clientOutLen then some (utils, params, oparams) else none

structure ClientAnswer where
  rc : Int
  memory : ClientHeap
  promptNeed : Option (Option Address)
  oparams : Option OutParams
  published : Published

/-- `ClientStep::run` in memory, for the context at `conn`. A new buffer comes to the address
    `output`, and a new array to `array`. -/
def ClientStep.runIn (step : ClientStep) (conn : Address) (old : Option Address) (call : ClientCall)
    (output array : Address) (m : ClientHeap) : Option ClientAnswer :=
  let result := step.run
  let answer : ClientAnswer :=
    { rc := guard result.rc, memory := m, promptNeed := call.promptNeed, oparams := some result.oparams
      published := .left }
  let replace (m : ClientHeap) :=
    m.assign ClientBlock.owns conn (.context (some output)) output (.buffer result.ctx.output)
  if maxServerinLen < step.serverIn.length % 2 ^ 32 then some answer
  else if step.isFinal then
    match old with
    -- The buffer is cleared, and has room for the byte.
    | some a => (m.write a (.buffer result.ctx.output)).map fun memory => { answer with memory, published := .at a }
    | none => (replace m).map fun memory => { answer with memory, published := .at output }
  else if step.ssfTooWeak then some { answer with published := .cleared }
  else do
    let memory ← m.release call.free call.promptNeed
    let promptNeed := call.promptNeed.map fun _ => none
    match result.prompts, result.out with
    | some (some entries), _ => some { answer with
        memory := memory.alloc array (.prompts entries)
        promptNeed := some (some array)
        published := .cleared }
    | _, some _ => (replace memory).map fun memory => { answer with memory, promptNeed, published := .at output }
    | _, none => some { answer with memory, promptNeed, published := .cleared }

def clientMechStepIn (context : Option Address) (call : ClientCall) (output array : Address) (m : ClientHeap) :
    Option ClientAnswer :=
  match context, call.pointers with
  | some conn, some (utils, params, oparams) => do
    let old ← m.context conn
    let prompts ← m.readPrompts call.promptNeed
    let ctx : ClientContext := { output := (old.bind m.buffer).getD [] }
    (ClientStep.ofCall utils ctx params call.serverIn call.serverInLen prompts none oparams).runIn conn old call
      output array m
  | _, _ => some { rc := saslBadparam, memory := m, promptNeed := call.promptNeed, oparams := call.oparams
                   published := .left }

def clientMechDispose (context : Option Address) (m : ClientHeap) : Option ClientHeap :=
  match context with
  | none => some m
  | some conn => do
    let _ ← m.context conn
    m.drop ClientBlock.owns conn

/-! ## The host -/

/-- A connection as the host knows it. -/
structure ClientConnection where
  oparams : OutParams
  /-- where the output is that was published last, and what it was -/
  published : Option (Address × Bytes)
  deriving DecidableEq, Repr

structure ClientHost where
  memory : ClientHeap
  /-- the plugins that were listed -/
  plugins : Address → Bool
  /-- the prompt arrays that the host has -/
  arrays : Address → Bool
  /-- the connections that were not disposed of -/
  conns : Address → Option ClientConnection

inductive ClientHostCall
  | init (utils : Option Utils) (maxvers : Int) (outvers pluglist plugcount : Bool) (plugin : Address)
  | mechNew (connContext : Bool) (oparams : OutParams) (fresh : Address)
  | mechStep (context : Option Address) (call : ClientCall) (output array : Address)
  | mechDispose (context : Option Address)
  /-- the host fills in an array, -/
  | fill (array : Address) (entries : List Interact)
  /-- or frees it -/
  | free (array : Address)

/-- The array that the step frees. -/
def ClientCall.releases (call : ClientCall) : Option Address := do
  let (_, params, _) ← call.pointers
  if call.serverInLen = 0 ∧ params.minSsf ≤ params.externalSsf then call.promptNeed.join else none

/-- The output that a step leaves for the host to read. -/
def Published.readIn (m : ClientHeap) (before : Option (Address × Bytes)) : Published → Option (Address × Bytes)
  | .left => before
  | .cleared => none
  | .at a => (m.buffer a).map fun data => (a, data)

/-- The array in a slot is one that the host has, or has no longer. -/
def holds (arrays : Address → Bool) (slot : Option (Option Address)) (b : Bool) : Address → Bool :=
  slot.join.elim arrays fun a => Function.update arrays a b

namespace ClientHost

def initial : ClientHost where
  memory := .empty
  plugins := fun _ => false
  arrays := fun _ => false
  conns := fun _ => none

/-- The host may make the call: it brings back what it was handed and has not given up, its
    table has `free`, and it keeps the `id`s of an array. What is allocated comes to free addresses,
    or to that of an array which the step has freed before. -/
def Allows (s : ClientHost) : ClientHostCall → Prop
  | .init _ _ _ _ _ plugin => s.memory plugin = none
  | .mechNew _ _ fresh => s.memory fresh = none
  | .mechStep context call output array =>
    (s.memory output = none ∨ call.releases = some output) ∧ (s.memory array = none ∨ call.releases = some array) ∧
      call.free = true ∧ (∀ a, call.promptNeed = some (some a) → s.arrays a = true) ∧
      ∀ conn, context = some conn → ∃ c, s.conns conn = some c ∧ ∀ oparams, call.oparams = some oparams → oparams = c.oparams
  | .mechDispose context => ∀ conn, context = some conn → (s.conns conn).isSome
  | .fill array entries => s.arrays array = true ∧
    ∀ old, s.memory array = some (.prompts old) → entries.map Interact.id = old.map Interact.id
  | .free array => s.arrays array = true

/-- What a step leaves of a connection, and of the arrays. -/
def addStep (s : ClientHost) (context : Option Address) (call : ClientCall) (answer : ClientAnswer) : ClientHost :=
  let step (c : ClientConnection) : ClientConnection :=
    { oparams := answer.oparams.getD c.oparams, published := answer.published.readIn answer.memory c.published }
  { s with
    memory := answer.memory
    arrays := holds (holds s.arrays call.promptNeed false) answer.promptNeed true
    conns := context.elim s.conns fun conn => Function.update s.conns conn ((s.conns conn).map step) }

/-- What the host has after a call; `none` if it goes wrong. -/
def call (s : ClientHost) : ClientHostCall → Option ClientHost
  | .init utils maxvers outvers pluglist plugcount plugin =>
    match saslClientPlugInit utils maxvers outvers pluglist plugcount plugin s.memory with
    | (_, none, memory) => some { s with memory }
    | (_, some list, memory) => some { s with memory, plugins := Function.update s.plugins list.pluglist true }
  | .mechNew connContext oparams fresh =>
    match clientMechNew connContext fresh s.memory with
    | (_, none, memory) => some { s with memory }
    | (_, some conn, memory) =>
      some { s with memory, conns := Function.update s.conns conn (some { oparams, published := none }) }
  | .mechStep context call output array =>
    (clientMechStepIn context call output array s.memory).map (s.addStep context call)
  | .mechDispose context =>
    (clientMechDispose context s.memory).map fun memory =>
      { s with memory, conns := context.elim s.conns fun conn => Function.update s.conns conn none }
  | .fill array entries => (s.memory.write array (.prompts entries)).map fun memory => { s with memory }
  | .free array => (s.memory.drop ClientBlock.owns array).map fun memory =>
      { s with memory, arrays := Function.update s.arrays array false }

/-- The calls that the host may make as a relation. -/
def Step (s : ClientHost) (call : ClientHostCall) (s' : ClientHost) : Prop := s.Allows call ∧ s.call call = some s'

/-- The addresses that the host holds. -/
def roots (s : ClientHost) : Set Address :=
  {a | s.plugins a = true ∨ s.arrays a = true ∨ (s.conns a).isSome}

end ClientHost

/-! ## What a call does -/

/-- What a client puts on the wire. -/
inductive Wire : Bytes → Prop
  /-- the answer to the error document -/
  | abort : Wire [0x01]
  | response (authzid : Option String) (token : String) : Wire (buildClientResponse authzid token)

/-- The array has an end. -/
def Ended (entries : List Interact) : Prop := saslCbListEnd ∈ entries.map Interact.id

/-- One thing that a call does. -/
inductive ClientHost.Moves (s : ClientHost) : ClientHost → Prop
  | listed {a} (hfresh : s.memory a = none) : Moves s { s with
      memory := s.memory.alloc a (.plugin makeClientPlugin), plugins := Function.update s.plugins a true }
  | opened {a oparams} (hfresh : s.memory a = none) : Moves s { s with
      memory := s.memory.alloc a (.context none)
      conns := Function.update s.conns a (some { oparams, published := none }) }
  | stepped {conn c c'} (hc : s.conns conn = some c) (hpublished : c'.published = none ∨ c'.published = c.published) :
    Moves s { s with conns := Function.update s.conns conn (some c') }
  | released {a memory} (harray : s.arrays a = true) (hmemory : s.memory.drop ClientBlock.owns a = some memory) :
    Moves s { s with memory, arrays := Function.update s.arrays a false }
  | handed {a entries} (hfresh : s.memory a = none) (hended : Ended entries) : Moves s { s with
      memory := s.memory.alloc a (.prompts entries), arrays := Function.update s.arrays a true }
  | filled {a old entries} (harray : s.arrays a = true) (hold : s.memory a = some (.prompts old))
    (hids : entries.map Interact.id = old.map Interact.id) :
    Moves s { s with memory := s.memory.alloc a (.prompts entries) }
  | replaced {conn c x data oparams memory} (hc : s.conns conn = some c) (hfresh : s.memory x = none) (hwire : Wire data)
    (hmemory : s.memory.assign ClientBlock.owns conn (.context (some x)) x (.buffer data) = some memory) :
    Moves s { s with memory, conns := Function.update s.conns conn (some { oparams, published := some (x, data) }) }
  | rewritten {conn c x old data oparams} (hc : s.conns conn = some c)
    (hcontext : s.memory conn = some (.context (some x))) (hold : s.memory x = some (.buffer old)) (hwire : Wire data) :
    Moves s { s with
      memory := s.memory.alloc x (.buffer data)
      conns := Function.update s.conns conn (some { oparams, published := some (x, data) }) }
  | disposed {conn c memory} (hc : s.conns conn = some c) (hmemory : s.memory.drop ClientBlock.owns conn = some memory) :
    Moves s { s with memory, conns := Function.update s.conns conn none }

/-- The memory of a connection: its context owns a buffer, if any, which is where the output is that
    was published, if any was, and is what it was then. -/
def ClientHost.ConnSafe (s : ClientHost) (a : Address) (c : ClientConnection) : Prop :=
  ∃ output, s.memory a = some (.context output) ∧ (∀ x, output = some x → ∃ data, s.memory x = some (.buffer data)) ∧
    ∀ x data, c.published = some (x, data) → output = some x ∧ s.memory x = some (.buffer data) ∧ Wire data

/-- What is at an address that the host holds is what it takes it for. -/
structure ClientHost.SafeAt (s : ClientHost) (a : Address) : Prop where
  plugin : s.plugins a = true → s.memory a = some (.plugin makeClientPlugin)
  array : s.arrays a = true → ∃ entries, s.memory a = some (.prompts entries) ∧ Ended entries
  conn : ∀ c, s.conns a = some c → s.ConnSafe a c

/-- What the memory of a host is like. -/
structure ClientHost.Safe (s : ClientHost) : Prop where
  tidy : Memory.Tidy ClientBlock.owns s.roots s.memory
  safeAt : ∀ a, s.SafeAt a

/-- Only the root `t`, and what it owns, may be different in `s'`. -/
structure ClientHost.ChangesAt (s s' : ClientHost) (t : Address) : Prop where
  root : s.memory t = none ∨ t ∈ s.roots
  plugins : ∀ a, a ≠ t → s'.plugins a = s.plugins a
  arrays : ∀ a, a ≠ t → s'.arrays a = s.arrays a
  conns : ∀ a, a ≠ t → s'.conns a = s.conns a
  memory : ∀ x b, s.memory x = some b → x ≠ t → (∀ d, s.memory t = some d → d.owns ≠ some x) → s'.memory x = some b

namespace ClientHost

variable {s s' : ClientHost} {t a : Address} {c : ClientConnection}

theorem mem_roots_of_plugin (h : s.plugins a = true) : a ∈ s.roots := .inl h

theorem mem_roots_of_array (h : s.arrays a = true) : a ∈ s.roots := .inr (.inl h)

theorem mem_roots_of_conn (h : s.conns a = some c) : a ∈ s.roots := .inr (.inr (by rw [h]; rfl))

/-- A root is not what another one owns. -/
theorem Safe.not_owned (hs : s.Safe) (ha : a ∈ s.roots) {d : ClientBlock} (hd : s.memory t = some d) :
    d.owns ≠ some a := fun hown => (hs.tidy.owned _ _ _ hd hown).1 ha

/-- What is changed at one root leaves the others as they are. -/
theorem Safe.safeAt_of_changesAt (hs : s.Safe) (h : s.ChangesAt s' t) (hne : a ≠ t) : s'.SafeAt a where
  plugin ha := by
    rw [h.plugins a hne] at ha
    exact h.memory _ _ ((hs.safeAt a).plugin ha) hne fun d hd => hs.not_owned (mem_roots_of_plugin ha) hd
  array ha := by
    rw [h.arrays a hne] at ha
    obtain ⟨entries, hentries, hended⟩ := (hs.safeAt a).array ha
    exact ⟨entries, h.memory _ _ hentries hne fun d hd => hs.not_owned (mem_roots_of_array ha) hd, hended⟩
  conn c hc := by
    rw [h.conns a hne] at hc
    obtain ⟨output, hcontext, hbuffer, hpublished⟩ := (hs.safeAt a).conn c hc
    have hkeep : ∀ x b, output = some x → s.memory x = some b → s'.memory x = some b := by
      intro x b hx hb
      refine h.memory x b hb ?_ fun d hd hown => hne ?_
      · rintro rfl
        rcases h.root with hnone | hroot
        · cases hnone.symm.trans hb
        · exact hs.not_owned hroot hcontext hx
      · exact hs.tidy.unique _ _ _ _ x hcontext hd hx hown
    refine ⟨output, h.memory _ _ hcontext hne fun d hd => hs.not_owned (mem_roots_of_conn hc) hd, fun x hx => ?_,
      fun x data hx => ?_⟩
    · obtain ⟨data, hdata⟩ := hbuffer x hx
      exact ⟨data, hkeep x _ hx hdata⟩
    · obtain ⟨hout, hdata, hwire⟩ := hpublished x data hx
      exact ⟨hout, hkeep x _ hout hdata, hwire⟩

theorem Safe.of_changesAt (hs : s.Safe) (h : s.ChangesAt s' t)
    (htidy : Memory.Tidy ClientBlock.owns s'.roots s'.memory) (ht : s'.SafeAt t) : s'.Safe where
  tidy := htidy
  safeAt a := by
    by_cases hne : a = t
    · exact hne ▸ ht
    · exact hs.safeAt_of_changesAt h hne

/-- At an address that is free, the host holds nothing. -/
theorem Safe.nothing_at (hs : s.Safe) (ht : s.memory t = none) :
    s.plugins t = false ∧ s.arrays t = false ∧ s.conns t = none := by
  refine ⟨Bool.eq_false_iff.2 fun h => ?_, Bool.eq_false_iff.2 fun h => ?_, Option.eq_none_iff_forall_ne_some.2 fun c h => ?_⟩
  · exact hs.tidy.notMem_of_fresh ht (mem_roots_of_plugin h)
  · exact hs.tidy.notMem_of_fresh ht (mem_roots_of_array h)
  · exact hs.tidy.notMem_of_fresh ht (mem_roots_of_conn h)

/-- At the address of an array, the host holds nothing else, -/
theorem Safe.only_array (hs : s.Safe) (ht : s.arrays t = true) : s.plugins t = false ∧ s.conns t = none := by
  obtain ⟨entries, hentries, -⟩ := (hs.safeAt t).array ht
  refine ⟨Bool.eq_false_iff.2 fun h => ?_, Option.eq_none_iff_forall_ne_some.2 fun c h => ?_⟩
  · cases hentries.symm.trans ((hs.safeAt t).plugin h)
  · obtain ⟨output, hcontext, -⟩ := (hs.safeAt t).conn c h
    cases hentries.symm.trans hcontext

/-- and nothing at that of a context. -/
theorem Safe.only_conn (hs : s.Safe) (ht : s.conns t = some c) : s.plugins t = false ∧ s.arrays t = false := by
  obtain ⟨output, hcontext, -⟩ := (hs.safeAt t).conn c ht
  refine ⟨Bool.eq_false_iff.2 fun h => ?_, Bool.eq_false_iff.2 fun h => ?_⟩
  · cases hcontext.symm.trans ((hs.safeAt t).plugin h)
  · obtain ⟨entries, hentries, -⟩ := (hs.safeAt t).array h
    cases hcontext.symm.trans hentries

/-- A new block leaves all others as they are. -/
theorem alloc_of_some {m : ClientHeap} {x : Address} {b d : ClientBlock} (ht : m t = none) (hx : m x = some b) :
    m.alloc t d x = some b := by
  rw [Memory.alloc_apply, if_neg, hx]
  rintro rfl
  cases ht.symm.trans hx

theorem Safe.listed (hs : s.Safe) (ht : s.memory t = none) : ({ s with
    memory := s.memory.alloc t (.plugin makeClientPlugin)
    plugins := Function.update s.plugins t true } : ClientHost).Safe := by
  refine hs.of_changesAt ⟨.inl ht, fun a ha => Function.update_of_ne ha _ _, fun _ _ => rfl, fun _ _ => rfl,
    fun x b hx _ _ => alloc_of_some ht hx⟩ ?_ ⟨fun _ => ?_, fun h => ?_, fun c h => ?_⟩
  · convert hs.tidy.alloc ht (b := .plugin makeClientPlugin) rfl using 1
    ext y
    by_cases hy : y = t <;> simp [roots, Function.update_apply, hy]
  · exact (Memory.alloc_apply t).trans (if_pos rfl)
  · cases (hs.nothing_at ht).2.1.symm.trans h
  · cases (hs.nothing_at ht).2.2.symm.trans h

theorem Safe.opened (hs : s.Safe) (ht : s.memory t = none) (oparams : OutParams) : ({ s with
    memory := s.memory.alloc t (.context none)
    conns := Function.update s.conns t (some { oparams, published := none }) } : ClientHost).Safe := by
  refine hs.of_changesAt ⟨.inl ht, fun _ _ => rfl, fun _ _ => rfl, fun a ha => Function.update_of_ne ha _ _,
    fun x b hx _ _ => alloc_of_some ht hx⟩ ?_ ⟨fun h => ?_, fun h => ?_, fun c h => ?_⟩
  · convert hs.tidy.alloc ht (b := .context none) rfl using 1
    ext y
    by_cases hy : y = t <;> simp [roots, Function.update_apply, hy]
  · cases (hs.nothing_at ht).1.symm.trans h
  · cases (hs.nothing_at ht).2.1.symm.trans h
  · dsimp only at h
    rw [Function.update_self, Option.some.injEq] at h
    subst h
    exact ⟨none, (Memory.alloc_apply t).trans (if_pos rfl), fun x hx => (by cases hx), fun x data hx => (by cases hx)⟩

theorem Safe.handed (hs : s.Safe) (ht : s.memory t = none) {entries : List Interact} (hended : Ended entries) :
    ({ s with
      memory := s.memory.alloc t (.prompts entries)
      arrays := Function.update s.arrays t true } : ClientHost).Safe := by
  refine hs.of_changesAt ⟨.inl ht, fun _ _ => rfl, fun a ha => Function.update_of_ne ha _ _, fun _ _ => rfl,
    fun x b hx _ _ => alloc_of_some ht hx⟩ ?_ ⟨fun h => ?_, fun _ => ?_, fun c h => ?_⟩
  · convert hs.tidy.alloc ht (b := .prompts entries) rfl using 1
    ext y
    by_cases hy : y = t <;> simp [roots, Function.update_apply, hy]
  · cases (hs.nothing_at ht).1.symm.trans h
  · exact ⟨entries, (Memory.alloc_apply t).trans (if_pos rfl), hended⟩
  · cases (hs.nothing_at ht).2.2.symm.trans h

theorem Safe.stepped (hs : s.Safe) (hc : s.conns t = some c) {c' : ClientConnection}
    (hpublished : c'.published = none ∨ c'.published = c.published) :
    ({ s with conns := Function.update s.conns t (some c') } : ClientHost).Safe := by
  refine hs.of_changesAt ⟨.inr (mem_roots_of_conn hc), fun _ _ => rfl, fun _ _ => rfl,
    fun a ha => Function.update_of_ne ha _ _, fun x b hx _ _ => hx⟩ ?_ ⟨(hs.safeAt t).plugin, (hs.safeAt t).array,
    fun c'' h => ?_⟩
  · convert hs.tidy using 1
    ext y
    by_cases hy : y = t <;> simp [roots, Function.update_apply, hy, hc]
  · dsimp only at h
    rw [Function.update_self, Option.some.injEq] at h
    subst h
    obtain ⟨output, hcontext, hbuffer, hout⟩ := (hs.safeAt t).conn c hc
    refine ⟨output, hcontext, hbuffer, fun x data hx => ?_⟩
    rcases hpublished with hnone | hsame
    · cases hnone.symm.trans hx
    · exact hout x data (hsame ▸ hx)

/-- A root is dropped, and what it owns. -/
theorem Safe.dropped (hs : s.Safe) (ht : t ∈ s.roots) {memory : ClientHeap}
    (hmemory : s.memory.drop ClientBlock.owns t = some memory) {arrays : Address → Bool}
    {conns : Address → Option ClientConnection} (hplugin : s.plugins t = false)
    (harrays : arrays = Function.update s.arrays t false) (hconns : conns = Function.update s.conns t none) :
    ({ s with memory, arrays, conns } : ClientHost).Safe := by
  obtain ⟨d, hd⟩ := hs.tidy.root t ht
  obtain ⟨memory', hmemory', happly, htidy⟩ := hs.tidy.drop ht hd
  obtain rfl := Option.some.inj (hmemory'.symm.trans hmemory)
  subst harrays hconns
  refine hs.of_changesAt ⟨.inr ht, fun _ _ => rfl, fun a ha => Function.update_of_ne ha _ _,
    fun a ha => Function.update_of_ne ha _ _, fun x b hx hne hown => ?_⟩ ?_ ⟨fun h => ?_, fun h => ?_, fun c h => ?_⟩
  · dsimp only
    rw [happly, if_neg, hx]
    rintro (heq | hown')
    · exact hne heq
    · exact hown d hd hown'
  · convert htidy using 1
    ext y
    by_cases hy : y = t <;> simp [roots, Function.update_apply, hy, hplugin]
  · cases hplugin.symm.trans h
  · dsimp only at h
    rw [Function.update_self] at h
    cases h
  · dsimp only at h
    rw [Function.update_self] at h
    cases h

theorem Safe.released (hs : s.Safe) (ht : s.arrays t = true) {memory : ClientHeap}
    (hmemory : s.memory.drop ClientBlock.owns t = some memory) :
    ({ s with memory, arrays := Function.update s.arrays t false } : ClientHost).Safe := by
  obtain ⟨hplugin, hconn⟩ := hs.only_array ht
  refine hs.dropped (mem_roots_of_array ht) hmemory hplugin rfl ?_
  rw [← hconn, Function.update_eq_self]

theorem Safe.disposed (hs : s.Safe) (hc : s.conns t = some c) {memory : ClientHeap}
    (hmemory : s.memory.drop ClientBlock.owns t = some memory) :
    ({ s with memory, conns := Function.update s.conns t none } : ClientHost).Safe := by
  obtain ⟨hplugin, harray⟩ := hs.only_conn hc
  refine hs.dropped (mem_roots_of_conn hc) hmemory hplugin ?_ rfl
  rw [← harray, Function.update_eq_self]

theorem Safe.filled (hs : s.Safe) (ht : s.arrays t = true) {old entries : List Interact}
    (hold : s.memory t = some (.prompts old)) (hids : entries.map Interact.id = old.map Interact.id) :
    ({ s with memory := s.memory.alloc t (.prompts entries) } : ClientHost).Safe := by
  obtain ⟨hplugin, hconn⟩ := hs.only_array ht
  refine hs.of_changesAt ⟨.inr (mem_roots_of_array ht), fun _ _ => rfl, fun _ _ => rfl, fun _ _ => rfl,
    fun x b hx hne _ => ?_⟩ (hs.tidy.write hold rfl) ⟨fun h => ?_, fun _ => ?_, fun c h => ?_⟩
  · exact (Memory.alloc_apply x).trans ((if_neg hne).trans hx)
  · cases hplugin.symm.trans h
  · obtain ⟨old', hold', hended⟩ := (hs.safeAt t).array ht
    obtain rfl := ClientBlock.prompts.inj (Option.some.inj (hold.symm.trans hold'))
    refine ⟨entries, (Memory.alloc_apply t).trans (if_pos rfl), ?_⟩
    rw [Ended, hids]
    exact hended
  · cases hconn.symm.trans h

theorem Safe.rewritten (hs : s.Safe) (hc : s.conns t = some c) {x : Address} {old data : Bytes}
    (hcontext : s.memory t = some (.context (some x))) (hold : s.memory x = some (.buffer old)) (hwire : Wire data)
    (oparams : OutParams) : ({ s with
      memory := s.memory.alloc x (.buffer data)
      conns := Function.update s.conns t (some { oparams, published := some (x, data) }) } : ClientHost).Safe := by
  obtain ⟨hplugin, harray⟩ := hs.only_conn hc
  have htx : t ≠ x := by
    rintro rfl
    cases hcontext.symm.trans hold
  refine hs.of_changesAt ⟨.inr (mem_roots_of_conn hc), fun _ _ => rfl, fun _ _ => rfl,
    fun a ha => Function.update_of_ne ha _ _, fun y b hy _ hown => ?_⟩ ?_ ⟨fun h => ?_, fun h => ?_, fun c' h => ?_⟩
  · have hyx : y ≠ x := fun heq => hown _ hcontext (heq ▸ rfl)
    exact (Memory.alloc_apply y).trans ((if_neg hyx).trans hy)
  · have htidy : Memory.Tidy ClientBlock.owns s.roots (s.memory.alloc x (.buffer data)) :=
      hs.tidy.write hold (by rfl)
    convert htidy using 1
    ext y
    by_cases hy : y = t <;> simp [roots, Function.update_apply, hy, hc]
  · cases hplugin.symm.trans h
  · cases harray.symm.trans h
  · dsimp only at h
    rw [Function.update_self, Option.some.injEq] at h
    subst h
    have hx : s.memory.alloc x (.buffer data) x = some (.buffer data) := (Memory.alloc_apply x).trans (if_pos rfl)
    refine ⟨some x, (Memory.alloc_apply t).trans ((if_neg htx).trans hcontext), ?_, ?_⟩
    · rintro _ ⟨⟩
      exact ⟨data, hx⟩
    · rintro _ _ ⟨⟩
      exact ⟨rfl, hx, hwire⟩

theorem Safe.replaced (hs : s.Safe) (hc : s.conns t = some c) {x : Address} {data : Bytes} (hfresh : s.memory x = none)
    (hwire : Wire data) (oparams : OutParams) {memory : ClientHeap}
    (hmemory : s.memory.assign ClientBlock.owns t (.context (some x)) x (.buffer data) = some memory) :
    ({ s with memory, conns := Function.update s.conns t (some { oparams, published := some (x, data) }) } :
      ClientHost).Safe := by
  obtain ⟨hplugin, harray⟩ := hs.only_conn hc
  obtain ⟨output, hcontext, hbuffer, -⟩ := (hs.safeAt t).conn c hc
  obtain ⟨memory', hmemory', happly, htidy⟩ := hs.tidy.assign (mem_roots_of_conn hc) hcontext hfresh
    (b := .context (some x)) (d := .buffer data) rfl rfl
  obtain rfl := Option.some.inj (hmemory'.symm.trans hmemory)
  have hnot : output ≠ some t := fun hown => hs.not_owned (mem_roots_of_conn hc) hcontext hown
  have hnew : output ≠ some x := by
    intro hown
    obtain ⟨data', hdata'⟩ := hbuffer x hown
    cases hfresh.symm.trans hdata'
  have hxt : x ≠ t := by
    rintro rfl
    cases hfresh.symm.trans hcontext
  refine hs.of_changesAt ⟨.inr (mem_roots_of_conn hc), fun _ _ => rfl, fun _ _ => rfl,
    fun a ha => Function.update_of_ne ha _ _, fun y b hy hne hown => ?_⟩ ?_ ⟨fun h => ?_, fun h => ?_, fun c' h => ?_⟩
  · have hyx : y ≠ x := by
      rintro rfl
      cases hfresh.symm.trans hy
    exact (happly y).trans ((if_neg (hown _ hcontext)).trans ((if_neg hne).trans ((if_neg hyx).trans hy)))
  · convert htidy using 1
    ext y
    by_cases hy : y = t <;> simp [roots, Function.update_apply, hy, hc]
  · cases hplugin.symm.trans h
  · cases harray.symm.trans h
  · dsimp only at h
    rw [Function.update_self, Option.some.injEq] at h
    subst h
    have hx : memory' x = some (.buffer data) :=
      (happly x).trans ((if_neg hnew).trans ((if_neg hxt).trans (if_pos rfl)))
    refine ⟨some x, (happly t).trans ((if_neg hnot).trans (if_pos rfl)), ?_, ?_⟩
    · rintro _ ⟨⟩
      exact ⟨data, hx⟩
    · rintro _ _ ⟨⟩
      exact ⟨rfl, hx, hwire⟩

/-- Whatever a call does, the memory stays safe. -/
theorem Safe.of_moves (hs : s.Safe) (h : s.Moves s') : s'.Safe := by
  cases h with
  | listed hfresh => exact hs.listed hfresh
  | opened hfresh => exact hs.opened hfresh _
  | stepped hc hpublished => exact hs.stepped hc hpublished
  | released harray hmemory => exact hs.released harray hmemory
  | handed hfresh hended => exact hs.handed hfresh hended
  | filled harray hold hids => exact hs.filled harray hold hids
  | replaced hc hfresh hwire hmemory => exact hs.replaced hc hfresh hwire _ hmemory
  | rewritten hc hcontext hold hwire => exact hs.rewritten hc hcontext hold hwire _
  | disposed hc hmemory => exact hs.disposed hc hmemory

end ClientHost

end CrudeOAuth.Sasl
