import CrudeOAuth.Machine.Memory
import CrudeOAuth.Sasl.ServerRun

/-!
# The server plugin

The plugin as it is loaded (`sasl/src/server.rs`). Its entry points allocate a configuration
for the plugin, a context for each connection and the text of an error document, and hand
their addresses to the host, which brings them back in later calls. The address that an
allocation comes to is up to the allocator.

A host keeps to some rules (`Host.Allows`): it brings back what it was handed and has not
given up, and frees a configuration when no connection uses it. Between any calls for one
connection there may be any for others.

In a safe state (`Host.Safe`), no call that the host may make goes wrong, and what it does is
listed by `Host.Moves` (`Host.Safe.moves`).
-/

namespace CrudeOAuth.Sasl

open Rust Machine

variable {Jwk Key : Type}

def saslBadvers : Int := -23
def saslConfigerr : Int := -100

def saslServerPlugVersion : Int := 4

def saslSecNoplaintext : Nat := 0x0001
def saslSecNoanonymous : Nat := 0x0010
def saslFeatWantClientFirst : Nat := 0x0002
def saslFeatAllowsProxy : Nat := 0x0020

def mechName : Bytes := utf8 "OAUTHBEARER" ++ [0]

/-! ## Memory -/

/-- An entry of the plugin list. The callbacks in it are the entry points below. -/
structure ServerPlug where
  mechName : Bytes
  maxSsf : Nat
  securityFlags : Nat
  features : Nat
  globContext : Address
  deriving DecidableEq, Repr

/-- The configuration has come to the address `globContext`. -/
def makeServerPlugin (globContext : Address) : ServerPlug where
  mechName := mechName
  maxSsf := 0
  securityFlags := saslSecNoplaintext ||| saslSecNoanonymous
  features := saslFeatWantClientFirst ||| saslFeatAllowsProxy
  globContext

/-- What the plugin allocates. -/
inductive Block (Key : Type)
  | plugin (plugin : ServerPlug)
  | config (config : ServerConfig Key)
  | context (config : Address) (serverOut : Option Address)
  /-- the buffer of a `CString` -/
  | text (s : CString)

/-- A context owns the document that it points to, but not the configuration. -/
def Block.owns : Block Key → Option Address
  | .context _ serverOut => serverOut
  | .plugin _ | .config _ | .text _ => none

abbrev Heap (Key : Type) := Memory (Block Key)

/-- The configuration that a pointer points to. -/
def Heap.config (m : Heap Key) (a : Address) : Option (ServerConfig Key) :=
  match m a with
  | some (.config config) => some config
  | _ => none

/-- The fields of the context that a pointer points to. -/
def Heap.context (m : Heap Key) (a : Address) : Option (Address × Option Address) :=
  match m a with
  | some (.context config serverOut) => some (config, serverOut)
  | _ => none

def Heap.text (m : Heap Key) (a : Address) : Option CString :=
  match m a with
  | some (.text s) => some s
  | _ => none

/-! ## Entry points

A pointer that is only checked for NULL is a `Bool`. The result is `none` if memory is looked into
that is not live, or not what it is taken for. -/

structure InitCall where
  utils : Option Utils
  maxvers : Int
  outvers : Bool
  pluglist : Bool
  plugcount : Bool
  /-- what the file system answers -/
  readFile : String → Except String String

/-- What `sasl_server_plug_init` writes. -/
structure PlugList where
  outvers : Int
  pluglist : Address
  plugcount : Int
  deriving DecidableEq, Repr

/-- The configuration comes to the address `glob`, and the plugin to `plugin`. -/
def saslServerPlugInit (jose : Jose Jwk Key) (call : InitCall) (glob plugin : Address) (m : Heap Key) :
    Int × Option PlugList × Heap Key :=
  if !call.outvers || !call.pluglist || !call.plugcount then (saslBadparam, none, m)
  else
  match call.utils with
  | none => (saslBadparam, none, m)
  | some utils =>
  if call.maxvers < saslServerPlugVersion then (saslBadvers, none, m)
  else
  match ServerConfig.fromSasl jose call.readFile utils with
  | .panic => (guard none, none, m)
  | .err _ => (saslConfigerr, none, m)
  | .ok config =>
    (saslOk, some { outvers := saslServerPlugVersion, pluglist := plugin, plugcount := 1 },
      (m.alloc glob (.config config)).alloc plugin (.plugin (makeServerPlugin glob)))

/-- The context comes to the address `fresh`. -/
def serverMechNew (globContext : Option Address) (params connContext : Bool) (fresh : Address) (m : Heap Key) :
    Int × Option Address × Heap Key :=
  match globContext with
  | none => (saslBadparam, none, m)
  | some glob =>
    if !params || !connContext then (saslBadparam, none, m)
    else (saslOk, some fresh, m.alloc fresh (.context glob none))

/-- The parameters of the server mechanism, `sasl_server_params`. -/
structure ServerParams where
  utils : Option Utils
  canonUser : Option CanonUser

structure StepCall where
  now : Option UInt64
  params : Option ServerParams
  clientIn : Option Bytes
  clientInLen : Nat
  serverOut : Bool
  serverOutLen : Bool
  oparams : Option OutParams

/-- What a step does to the output: it leaves it, clears it or publishes what is at an address. -/
inductive Published
  | left
  | cleared
  | at (a : Address)
  deriving DecidableEq, Repr

structure StepAnswer (Key : Type) where
  rc : Int
  memory : Heap Key
  oparams : Option OutParams
  published : Published

/-- A new document comes to the address `fresh`. -/
def serverMechStep (jose : Jose Jwk Key) (connContext : Option Address) (call : StepCall) (fresh : Address)
    (m : Heap Key) : Option (StepAnswer Key) :=
  let refused : StepAnswer Key := { rc := saslBadparam, memory := m, oparams := call.oparams, published := .left }
  match connContext, call.params with
  | some conn, some params =>
    match params.utils, call.oparams with
    | some utils, some oparams =>
      if !call.serverOut || !call.serverOutLen then some refused
      else do
      let (glob, serverOut) ← m.context conn
      let config ← m.config glob
      if call.clientIn.isNone && call.clientInLen != 0 then some refused
      else
      let i : ServerInput :=
        { now := call.now, utils, input := (call.clientIn.getD []).take call.clientInLen, canon := params.canonUser }
      let result := i.step jose config { ctx := { serverOut := serverOut.bind m.text }, oparams }
      let answer : StepAnswer Key :=
        { rc := guard result.rc, memory := m, oparams := some result.oparams, published := .cleared }
      match result.out, result.ctx.serverOut with
      -- What is published is the document that the context comes to own.
      | some _, some json =>
        let memory ← m.assign Block.owns conn (.context glob (some fresh)) fresh (.text json)
        some { answer with memory, published := .at fresh }
      | _, _ => some answer
    | _, _ => some refused
  | _, _ => some refused

def serverMechDispose (connContext : Option Address) (m : Heap Key) : Option (Heap Key) :=
  match connContext with
  | none => some m
  | some conn => do
    let _ ← m.context conn
    m.drop Block.owns conn

def serverMechFree (globContext : Option Address) (m : Heap Key) : Option (Heap Key) :=
  match globContext with
  | none => some m
  | some glob => do
    let _ ← m.config glob
    m.drop Block.owns glob

/-! ## The host -/

/-- A connection as the host knows it. -/
structure Connection where
  glob : Address
  oparams : OutParams
  /-- what the last step has published -/
  published : Option Address
  deriving DecidableEq, Repr

structure Host (Key : Type) where
  memory : Heap Key
  /-- the plugins that were listed -/
  plugins : Address → Bool
  /-- the configurations that were not freed -/
  globs : Address → Bool
  /-- the connections that were not disposed of -/
  conns : Address → Option Connection

inductive HostCall
  | init (call : InitCall) (glob plugin : Address)
  | mechNew (globContext : Option Address) (params connContext : Bool) (oparams : OutParams) (fresh : Address)
  | mechStep (connContext : Option Address) (call : StepCall) (fresh : Address)
  | mechDispose (connContext : Option Address)
  | mechFree (globContext : Option Address)

/-- The output that a step leaves for the host to read. -/
def Published.read (before : Option Address) : Published → Option Address
  | .left => before
  | .cleared => none
  | .at a => some a

namespace Host

def initial : Host Key where
  memory := .empty
  plugins := fun _ => false
  globs := fun _ => false
  conns := fun _ => none

/-- The host may make the call, where these addresses are free. It passes on the output parameters
    of a connection as they are. -/
def Allows (s : Host Key) : HostCall → Prop
  | .init _ glob plugin => s.memory glob = none ∧ s.memory plugin = none ∧ glob ≠ plugin
  | .mechNew globContext _ _ _ fresh => s.memory fresh = none ∧ ∀ glob, globContext = some glob → s.globs glob = true
  | .mechStep connContext call fresh => s.memory fresh = none ∧ ∀ conn, connContext = some conn →
    ∃ c, s.conns conn = some c ∧ ∀ oparams, call.oparams = some oparams → oparams = c.oparams
  | .mechDispose connContext => ∀ conn, connContext = some conn → (s.conns conn).isSome
  | .mechFree globContext => ∀ glob, globContext = some glob →
    s.globs glob = true ∧ ∀ a c, s.conns a = some c → c.glob ≠ glob

def addConn (s : Host Key) (globContext : Option Address) (oparams : OutParams) (conn : Address) : Host Key :=
  { s with conns := Function.update s.conns conn (globContext.map fun glob => { glob, oparams, published := none }) }

/-- What a step leaves of a connection. -/
def addStep (s : Host Key) (connContext : Option Address) (answer : StepAnswer Key) : Host Key :=
  let step (c : Connection) : Connection :=
    { c with oparams := answer.oparams.getD c.oparams, published := answer.published.read c.published }
  { s with
    memory := answer.memory
    conns := connContext.elim s.conns fun conn => Function.update s.conns conn ((s.conns conn).map step) }

/-- What the host has after a call; `none` if it goes wrong. -/
def call (jose : Jose Jwk Key) (s : Host Key) : HostCall → Option (Host Key)
  | .init call glob plugin =>
    match saslServerPlugInit jose call glob plugin s.memory with
    | (_, none, memory) => some { s with memory }
    | (_, some list, memory) => some { s with
        memory
        plugins := Function.update s.plugins list.pluglist true
        globs := Function.update s.globs glob true }
  | .mechNew globContext params connContext oparams fresh =>
    match serverMechNew globContext params connContext fresh s.memory with
    | (_, none, memory) => some { s with memory }
    | (_, some conn, memory) => some ({ s with memory }.addConn globContext oparams conn)
  | .mechStep connContext call fresh => (serverMechStep jose connContext call fresh s.memory).map (s.addStep connContext)
  | .mechDispose connContext =>
    (serverMechDispose connContext s.memory).map fun memory =>
      { s with memory, conns := connContext.elim s.conns fun conn => Function.update s.conns conn none }
  | .mechFree globContext =>
    (serverMechFree globContext s.memory).map fun memory =>
      { s with memory, globs := globContext.elim s.globs fun glob => Function.update s.globs glob false }

/-- The calls that the host may make as a relation. -/
def Step (jose : Jose Jwk Key) (s : Host Key) (call : HostCall) (s' : Host Key) : Prop :=
  s.Allows call ∧ s.call jose call = some s'

/-- The addresses that the host holds. -/
def roots (s : Host Key) : Set Address :=
  {a | s.plugins a = true ∨ s.globs a = true ∨ (s.conns a).isSome}

end Host

/-! ## What a call does -/

/-- The input of a step that is not refused for a NULL pointer. -/
def StepCall.input (call : StepCall) : Option ServerInput :=
  match call.params, call.oparams with
  | some params, some _ =>
    match params.utils with
    | some utils =>
      if call.serverOut && call.serverOutLen && !(call.clientIn.isNone && call.clientInLen != 0) then
        some { now := call.now, utils, input := (call.clientIn.getD []).take call.clientInLen, canon := params.canonUser }
      else none
    | none => none
  | _, _ => none

/-- The document of a context. -/
def document : CString := ⟨utf8 invalidTokenJson, by decide⟩

/-- The state of a connection as that of the server. -/
def Host.view (s : Host Key) (a : Address) : Option ServerState := do
  let c ← s.conns a
  let (_, serverOut) ← s.memory.context a
  some { ctx := { serverOut := serverOut.bind s.memory.text }, oparams := c.oparams }

/-- The configuration of a connection. -/
def Host.configOf (s : Host Key) (a : Address) : Option (ServerConfig Key) := do
  let c ← s.conns a
  s.memory.config c.glob

/-- The call may be refused, or fail. -/
def HostCall.Idle : HostCall → Prop
  | .init _ _ _ => True
  | .mechNew globContext params connContext _ _ => globContext = none ∨ params = false ∨ connContext = false
  | .mechStep connContext call _ => connContext = none ∨ call.input = none
  | .mechDispose connContext => connContext = none
  | .mechFree globContext => globContext = none

/-- What a call that the host may make does. -/
inductive Host.Moves (jose : Jose Jwk Key) (s : Host Key) : HostCall → Host Key → Prop
  | left {call} (hidle : call.Idle) : Moves jose s call s
  | listed {call glob plugin utils} (config : ServerConfig Key) (hutils : call.utils = some utils)
    (hload : ServerConfig.fromSasl jose call.readFile utils = .ok config) (hglob : s.memory glob = none)
    (hplugin : s.memory plugin = none) (hne : glob ≠ plugin) : Moves jose s (.init call glob plugin) { s with
      memory := (s.memory.alloc glob (.config config)).alloc plugin (.plugin (makeServerPlugin glob))
      plugins := Function.update s.plugins plugin true
      globs := Function.update s.globs glob true }
  | opened {glob oparams conn} (hglob : s.globs glob = true) (hfresh : s.memory conn = none) :
    Moves jose s (.mechNew (some glob) true true oparams conn) { s with
      memory := s.memory.alloc conn (.context glob none)
      conns := Function.update s.conns conn (some { glob, oparams, published := none }) }
  | answered {conn c call fresh i view config} (hconn : s.conns conn = some c) (hi : call.input = some i)
    (hview : s.view conn = some view) (hconfig : s.configOf conn = some config)
    (hctx : (i.step jose config view).ctx = view.ctx) :
    Moves jose s (.mechStep (some conn) call fresh) { s with
      conns := Function.update s.conns conn
        (some { c with oparams := (i.step jose config view).oparams, published := none }) }
  | rejected {conn c call fresh i view config memory} (hconn : s.conns conn = some c) (hi : call.input = some i)
    (hview : s.view conn = some view) (hconfig : s.configOf conn = some config)
    (hctx : (i.step jose config view).ctx.serverOut = some document) (hfresh : s.memory fresh = none)
    (hmemory : s.memory.assign Block.owns conn (.context c.glob (some fresh)) fresh (.text document) = some memory) :
    Moves jose s (.mechStep (some conn) call fresh) { s with
      memory
      conns := Function.update s.conns conn
        (some { c with oparams := (i.step jose config view).oparams, published := some fresh }) }
  | disposed {conn c memory} (hconn : s.conns conn = some c) (hmemory : s.memory.drop Block.owns conn = some memory) :
    Moves jose s (.mechDispose (some conn)) { s with memory, conns := Function.update s.conns conn none }
  | freed {glob memory} (hglob : s.globs glob = true) (hunused : ∀ a c, s.conns a = some c → c.glob ≠ glob)
    (hmemory : s.memory.drop Block.owns glob = some memory) :
    Moves jose s (.mechFree (some glob)) { s with memory, globs := Function.update s.globs glob false }

/-- The memory of a connection: its context points to a configuration that was not freed, and owns
    a document, if any, which is what is published, if anything is. -/
def Host.ConnSafe (s : Host Key) (a : Address) (c : Connection) : Prop :=
  ∃ serverOut, s.memory a = some (.context c.glob serverOut) ∧ s.globs c.glob = true ∧
    (∀ x, serverOut = some x → s.memory x = some (.text document)) ∧ ∀ x, c.published = some x → serverOut = some x

/-- What the memory of a host is like. -/
structure Host.Safe (s : Host Key) : Prop where
  tidy : Memory.Tidy Block.owns s.roots s.memory
  plugins : ∀ a, s.plugins a = true → ∃ glob, s.memory a = some (.plugin (makeServerPlugin glob))
  globs : ∀ a, s.globs a = true → ∃ config, s.memory a = some (.config config)
  conns : ∀ a c, s.conns a = some c → s.ConnSafe a c

section

variable {jose : Jose Jwk Key} {s s' : Host Key} {m : Heap Key}

theorem served_ctx {i : ServerInput} {config : ServerConfig Key} {view : ServerState} {r : ServerResult}
    (h : Served jose config i view r) :
    r.out = none ∧ r.ctx = view.ctx ∨
      (∃ out, r.out = some out) ∧ r.rc = some saslContinue ∧ r.ctx.serverOut = some document := by
  cases h with
  | rejected response e habort hcarries hverify json hjson =>
    refine .inr ⟨⟨_, rfl⟩, rfl, congrArg some ?_⟩
    cases json
    obtain rfl := hjson
    rfl
  | refused | aborted | canonRefused | accepted => exact .inl ⟨rfl, rfl⟩

theorem context_eq_some {a glob : Address} {serverOut : Option Address} :
    m.context a = some (glob, serverOut) ↔ m a = some (.context glob serverOut) := by
  unfold Heap.context
  rcases m a with _ | (_ | _ | _ | _) <;> simp

theorem config_eq_some {a : Address} {config : ServerConfig Key} :
    m.config a = some config ↔ m a = some (.config config) := by
  unfold Heap.config
  rcases m a with _ | (_ | _ | _ | _) <;> simp

theorem text_of_some {a : Address} {text : CString} (h : m a = some (.text text)) : m.text a = some text := by
  rw [Heap.text, h]

theorem saslServerPlugInit_cases (call : InitCall) (glob plugin : Address) :
    (∃ rc, saslServerPlugInit jose call glob plugin m = (rc, none, m)) ∨
      ∃ utils config, call.utils = some utils ∧ ServerConfig.fromSasl jose call.readFile utils = .ok config ∧
        saslServerPlugInit jose call glob plugin m =
          (saslOk, some { outvers := saslServerPlugVersion, pluglist := plugin, plugcount := 1 },
            (m.alloc glob (.config config)).alloc plugin (.plugin (makeServerPlugin glob))) := by
  unfold saslServerPlugInit
  split
  · exact .inl ⟨_, rfl⟩
  · split
    · exact .inl ⟨_, rfl⟩
    · rename_i utils hutils
      split
      · exact .inl ⟨_, rfl⟩
      · split
        · exact .inl ⟨_, rfl⟩
        · exact .inl ⟨_, rfl⟩
        · rename_i config hload
          exact .inr ⟨utils, config, hutils, hload, rfl⟩

theorem serverMechNew_cases (globContext : Option Address) (params connContext : Bool) (fresh : Address) :
    ((globContext = none ∨ params = false ∨ connContext = false) ∧
        ∃ rc, serverMechNew globContext params connContext fresh m = (rc, none, m)) ∨
      ∃ glob, globContext = some glob ∧ params = true ∧ connContext = true ∧
        serverMechNew globContext params connContext fresh m =
          (saslOk, some fresh, m.alloc fresh (.context glob none)) := by
  cases globContext with
  | none => exact .inl ⟨.inl rfl, _, rfl⟩
  | some glob =>
    cases params with
    | false => exact .inl ⟨.inr (.inl rfl), _, rfl⟩
    | true =>
      cases connContext with
      | false => exact .inl ⟨.inr (.inr rfl), _, rfl⟩
      | true => exact .inr ⟨glob, rfl, rfl, rfl, rfl⟩

/-- A step is refused, or is one of the server; only where that rejects does it touch the memory. -/
theorem serverMechStep_cases {conn glob : Address} {serverOut : Option Address} {config : ServerConfig Key}
    (hcontext : m.context conn = some (glob, serverOut)) (hconfig : m.config glob = some config) (call : StepCall)
    (fresh : Address) :
    call.input = none ∧ serverMechStep jose (some conn) call fresh m =
        some { rc := saslBadparam, memory := m, oparams := call.oparams, published := .left } ∨
      ∃ i oparams r, call.input = some i ∧ call.oparams = some oparams ∧
        i.step jose config { ctx := { serverOut := serverOut.bind m.text }, oparams } = r ∧
        (r.ctx.serverOut = serverOut.bind m.text ∧ serverMechStep jose (some conn) call fresh m =
            some { rc := guard r.rc, memory := m, oparams := some r.oparams, published := .cleared } ∨
          r.rc = some saslContinue ∧ r.ctx.serverOut = some document ∧ serverMechStep jose (some conn) call fresh m =
            (m.assign Block.owns conn (.context glob (some fresh)) fresh (.text document)).map fun memory =>
              { rc := guard r.rc, memory, oparams := some r.oparams, published := .at fresh }) := by
  cases hoparams : call.oparams with
  | none =>
    refine .inl ⟨by cases call.params <;> simp [StepCall.input, hoparams], ?_⟩
    cases hparams : call.params <;> simp [serverMechStep, hoparams, hparams]
  | some oparams =>
    rcases hparams : call.params with _ | ⟨_ | utils, canonUser⟩
    · exact .inl (by simp [StepCall.input, serverMechStep, hparams, hoparams])
    · exact .inl (by simp [StepCall.input, serverMechStep, hparams, hoparams])
    · by_cases hout : (!call.serverOut || !call.serverOutLen) = true
      · refine .inl ⟨?_, by simp [serverMechStep, hparams, hoparams, hout]⟩
        simp only [Bool.or_eq_true, Bool.not_eq_true'] at hout
        rcases hout with hout | hout <;> simp [StepCall.input, hparams, hoparams, hout]
      · by_cases hin : (call.clientIn.isNone && call.clientInLen != 0) = true
        · exact .inl (by simp [StepCall.input, serverMechStep, hparams, hoparams, hout, hcontext, hconfig, hin])
        · have hi : call.input = some
              { now := call.now
                utils
                input := (call.clientIn.getD []).take call.clientInLen
                canon := canonUser } := by
            simp only [Bool.or_eq_true, Bool.not_eq_true', not_or, Bool.not_eq_false] at hout
            simp [StepCall.input, hparams, hoparams, hout, hin]
          refine .inr ⟨_, oparams, _, hi, rfl, rfl, ?_⟩
          -- A step that publishes has put the document into the context.
          rcases served_ctx (served_step _ _) with ⟨hnone, hctx⟩ | ⟨⟨out, hsome⟩, hrc, hctx⟩
          · exact .inl ⟨congrArg _ hctx, by simp [serverMechStep, hparams, hoparams, hout, hcontext, hconfig, hin, hnone]⟩
          · refine .inr ⟨hrc, hctx, ?_⟩
            simp [serverMechStep, hparams, hoparams, hout, hcontext, hconfig, hin, hsome, hctx,
              Option.map_eq_bind]

theorem addStep_some {conn : Address} {c : Connection} (hc : s.conns conn = some c) (answer : StepAnswer Key) :
    s.addStep (some conn) answer = { s with
      memory := answer.memory
      conns := Function.update s.conns conn (some { c with
        oparams := answer.oparams.getD c.oparams, published := answer.published.read c.published }) } := by
  simp [Host.addStep, hc]

/-- No call that the host may make goes wrong, and each does one of these things. -/
theorem Host.Safe.moves (hs : s.Safe) {call : HostCall} (h : s.Allows call) :
    ∃ s', s.call jose call = some s' ∧ s.Moves jose call s' := by
  cases call with
  | init call glob plugin =>
    obtain ⟨hglob, hplugin, hne⟩ := h
    rcases @saslServerPlugInit_cases _ _ jose s.memory call glob plugin with
      ⟨rc, hinit⟩ | ⟨utils, config, hutils, hload, hinit⟩
    · exact ⟨s, by rw [Host.call, hinit], .left trivial⟩
    · exact ⟨_, by rw [Host.call, hinit], .listed config hutils hload hglob hplugin hne⟩
  | mechNew globContext params connContext oparams fresh =>
    obtain ⟨hfresh, hglob⟩ := h
    rcases @serverMechNew_cases _ s.memory globContext params connContext fresh with
      ⟨hidle, rc, hnew⟩ | ⟨glob, rfl, rfl, rfl, hnew⟩
    · exact ⟨s, by rw [Host.call, hnew], .left hidle⟩
    · exact ⟨_, by rw [Host.call, hnew]; rfl, .opened (hglob glob rfl) hfresh⟩
  | mechStep connContext call fresh =>
    obtain ⟨hfresh, hconn⟩ := h
    cases connContext with
    | none => exact ⟨s, rfl, .left (.inl rfl)⟩
    | some conn =>
      obtain ⟨c, hc, hoparams⟩ := hconn conn rfl
      obtain ⟨serverOut, hcontext, hglob, -⟩ := hs.conns conn c hc
      obtain ⟨config, hconfig⟩ := hs.globs c.glob hglob
      have hview : s.view conn = some { ctx := { serverOut := serverOut.bind s.memory.text }, oparams := c.oparams } := by
        simp [Host.view, hc, context_eq_some.2 hcontext]
      have hconfigOf : s.configOf conn = some config := by
        simp [Host.configOf, hc, config_eq_some.2 hconfig]
      rcases @serverMechStep_cases _ _ jose s.memory _ _ _ _ (context_eq_some.2 hcontext) (config_eq_some.2 hconfig)
        call fresh with ⟨hinput, hstep⟩ | ⟨i, oparams, r, hi, hop, rfl, ⟨hctx, hstep⟩ | ⟨-, hctx, hstep⟩⟩
      · refine ⟨s, ?_, .left (.inr hinput)⟩
        have hsame : call.oparams.getD c.oparams = c.oparams := by
          cases hop : call.oparams with
          | none => rfl
          | some oparams => exact hoparams oparams hop
        rw [Host.call, hstep, Option.map_some, addStep_some hc]
        dsimp only [Published.read]
        rw [hsame, ← hc, Function.update_eq_self]
      · obtain rfl := hoparams oparams hop
        refine ⟨_, ?_, .answered hc hi hview hconfigOf (congrArg ServerContext.mk hctx)⟩
        rw [Host.call, hstep, Option.map_some, addStep_some hc]
        rfl
      · obtain rfl := hoparams oparams hop
        obtain ⟨memory, hmemory, -⟩ := hs.tidy.assign (.inr (.inr (by rw [hc]; rfl))) hcontext hfresh
          (b := .context c.glob (some fresh)) (d := .text document) rfl rfl
        refine ⟨_, ?_, .rejected hc hi hview hconfigOf hctx hfresh hmemory⟩
        rw [Host.call, hstep, hmemory, Option.map_some, Option.map_some, addStep_some hc]
        rfl
  | mechDispose connContext =>
    cases connContext with
    | none => exact ⟨s, rfl, .left rfl⟩
    | some conn =>
      obtain ⟨c, hc⟩ := Option.isSome_iff_exists.1 (h conn rfl)
      obtain ⟨serverOut, hcontext, -⟩ := hs.conns conn c hc
      obtain ⟨memory, hmemory, -⟩ := hs.tidy.drop (.inr (.inr (by rw [hc]; rfl))) hcontext
      refine ⟨_, ?_, .disposed hc hmemory⟩
      simp [Host.call, serverMechDispose, context_eq_some.2 hcontext, hmemory]
  | mechFree globContext =>
    cases globContext with
    | none => exact ⟨s, rfl, .left rfl⟩
    | some glob =>
      obtain ⟨hglob, hunused⟩ := h glob rfl
      obtain ⟨config, hconfig⟩ := hs.globs glob hglob
      obtain ⟨memory, hmemory, -⟩ := hs.tidy.drop (.inr (.inl hglob)) hconfig
      refine ⟨_, ?_, .freed hglob hunused hmemory⟩
      simp [Host.call, serverMechFree, config_eq_some.2 hconfig, hmemory]

end

end CrudeOAuth.Sasl
