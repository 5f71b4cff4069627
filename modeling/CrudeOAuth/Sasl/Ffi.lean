import CrudeOAuth.Rust.Bytes

/-!
# The plugin interface

What the mechanisms share with `libsasl2` (`sasl/src/ffi.rs`). A function pointer the
framework hands over is `none` when it is NULL, and otherwise what the function
answers during one step; a pointer to data is `none` when it is NULL, and otherwise
the memory it points to. Return codes are integers.

Messages to the log and to `seterror` are not kept.
-/

namespace CrudeOAuth.Sasl

open Rust

/-! ## Codes -/

def saslOk : Int := 0
def saslContinue : Int := 1
def saslInteract : Int := 2
def saslFail : Int := -1
def saslNomem : Int := -2
def saslBadprot : Int := -5
def saslBadparam : Int := -7
def saslBadauth : Int := -13
def saslTooweak : Int := -15
def saslEncrypt : Int := -16
def saslNouser : Int := -20

def saslCuAuthid : Nat := 1
def saslCuAuthzid : Nat := 2

def saslCbListEnd : Nat := 0
def saslCbUser : Nat := 0x4001
def saslCbPass : Nat := 0x4004

/-- What becomes of the return code of a step: a panic must not unwind into `libsasl2`. -/
def guard (rc : Option Int) : Int := rc.getD saslFail

/-! ## Services of the framework -/

/-- What an application callback does: its return code, and the memory its result points
    to. Of a secret this is the data, as long as its length says. -/
structure Callback where
  rc : Int
  result : Option Bytes
  deriving DecidableEq, Repr

/-- The `sasl_utils_t` service table. -/
structure Utils where
  /-- the answer for an option: a return code and the value -/
  getopt : Option (CString → Int × Option Bytes)
  /-- the answer for `SASL_SSF_EXTERNAL`: a return code and the factor -/
  getprop : Option (Int × Option Nat)
  /-- the answer for a callback: a return code and the callback -/
  getcallback : Option (Nat → Int × Option Callback)
  /-- whether some memory is allocated -/
  malloc : Option (Nat → Bool)

/-- Looks up a configuration option; `none` is an unset option. -/
def Utils.option (utils : Utils) (name : String) : Except String (Option String) :=
  match utils.getopt with
  | none => .error "sasl_utils.getopt is NULL"
  | some getopt =>
    match CString.new (utf8 name) with
    | none => .error "invalid SASL option name"
    | some name =>
      let (rc, value) := getopt name
      if rc ≠ 0 then .ok none
      else .ok (value.map fun value => fromUtf8Lossy (CString.ofMemory value).bytes)

/-- The external security strength factor of the connection. -/
def Utils.externalSsf (utils : Utils) : Except String Nat :=
  match utils.getprop with
  | none => .error "sasl_utils.getprop is NULL"
  | some (rc, prop) =>
    if rc ≠ saslOk then .error "could not get SASL_SSF_EXTERNAL" else .ok (prop.getD 0)

/-! ## Prompts -/

/-- An entry of a prompt array, `sasl_interact_t`. -/
structure Interact where
  id : Nat
  challenge : String
  prompt : String
  defresult : Option Bytes
  result : Option Bytes
  len : Nat
  deriving DecidableEq, Repr

/-- The slot of the prompt array: NULL, or it holds NULL or an array. -/
abbrev Prompts := Option (Option (List Interact))

/-- The entry with an id before the end of the array. -/
def findEntry (id : Nat) : List Interact → Option Interact
  | [] => none
  | entry :: rest =>
    if entry.id = saslCbListEnd then none
    else if entry.id = id then some entry
    else findEntry id rest

def Prompts.find (prompts : Prompts) (id : Nat) : Option Interact :=
  match prompts with
  | some (some entries) => findEntry id entries
  | _ => none

/-- Frees a prompt array, and sets the slot to NULL. -/
def Prompts.release (prompts : Prompts) : Prompts := prompts.map fun _ => none

/-- An entry as it is requested from the application. -/
def request (id : Nat) (challenge prompt : String) : Interact where
  id := id
  challenge := challenge
  prompt := prompt
  defresult := none
  result := none
  len := 0

/-- The size of a `sasl_interact_t`. -/
def interactSize : Nat := 48

/-- Hands a new prompt array to the application. -/
def Prompts.request (prompts : Prompts) (utils : Utils) (wantUser wantPass : Bool) : Int × Prompts :=
  if prompts = none then (saslFail, prompts)
  else
    let count := wantUser.toNat + wantPass.toNat + 1
    if !utils.malloc.any (· (count * interactSize)) then (saslNomem, prompts)
    else
      let user := if wantUser then
        [Sasl.request saslCbUser "Authorization Name" "Please enter an authorization name"] else []
      let pass := if wantPass then
        [Sasl.request saslCbPass "Access Token" "Please enter Access Token (as JWT)"] else []
      (saslInteract, some (some (user ++ pass ++ [Sasl.request saslCbListEnd "" ""])))

/-! ## Values of the application -/

/-- The outcome of asking the application for a value. -/
inductive CbValue
  | value (v : Option Bytes)
  | needPrompt
  | fail (rc : Int)
  deriving DecidableEq, Repr

/-- `matches!(v, CbValue::NeedPrompt)` -/
def CbValue.isNeedPrompt : CbValue → Bool
  | needPrompt => true
  | _ => false

/-- Asks for a value that is optional: prompt results come first, then the callback. -/
def Utils.getSimple (utils : Utils) (prompts : Prompts) (id : Nat) : CbValue :=
  match prompts.find id with
  | some entry =>
    .value (entry.result.map fun result =>
      if 0 < entry.len then result.take entry.len else (CString.ofMemory result).bytes)
  | none =>
    match utils.getcallback with
    | none => .fail saslFail
    | some getcallback =>
      let (rc, proc) := getcallback id
      if rc = saslOk then
        match proc with
        | none => .fail saslFail
        | some cb =>
          if cb.rc ≠ saslOk then .fail cb.rc
          else .value (cb.result.map fun result => (CString.ofMemory result).bytes)
      else if rc = saslFail then .value none
      else if rc = saslInteract then .needPrompt
      else .fail rc

/-- Asks for the token, which is required: an empty prompt is an error, and so is a missing
    callback. -/
def Utils.getPassword (utils : Utils) (prompts : Prompts) : CbValue :=
  match prompts.find saslCbPass with
  | some entry =>
    match entry.result with
    | none => .fail saslBadparam
    | some result => .value (some (result.take entry.len))
  | none =>
    match utils.getcallback with
    | none => .fail saslFail
    | some getcallback =>
      let (rc, proc) := getcallback saslCbPass
      if rc = saslOk then
        match proc with
        | none => .fail saslFail
        | some cb => if cb.rc ≠ saslOk then .fail cb.rc else .value cb.result
      else if rc = saslInteract then .needPrompt
      else .fail rc

/-! ## Outputs -/

/-- The output parameters of a mechanism, `sasl_out_params_t`, with addresses as numbers. -/
structure OutParams where
  doneflag : Nat
  mechSsf : Nat
  maxoutbuf : Nat
  encodeContext : Nat
  encode : Nat
  decodeContext : Nat
  decode : Nat
  paramVersion : Nat
  deriving DecidableEq, Repr

/-- Marks the mechanism finished: no security layer, no output encoding. -/
def OutParams.finish (_ : OutParams) : OutParams where
  doneflag := 1
  mechSsf := 0
  maxoutbuf := 0
  encodeContext := 0
  encode := 0
  decodeContext := 0
  decode := 0
  paramVersion := 0

/-- A call of the `canon_user` callback. -/
structure CanonCall where
  name : CString
  len : Nat
  flags : Nat
  deriving DecidableEq, Repr

/-- The `canon_user` callback: its return codes. -/
abbrev CanonUser := CanonCall → Int

/-- The call that canonicalizes a name; its length is passed as a `c_uint`. -/
def canonCall (name : CString) (flags : Nat) : CanonCall where
  name := name
  len := name.bytes.length % 2 ^ 32
  flags := flags

/-- An output buffer: NULL, or the bytes that were published. -/
abbrev OutBuf := Option Bytes

/-- `out.clear()` -/
def OutBuf.cleared : OutBuf := none

/-- `out.publish(data)`; the length is passed as a `c_uint`. -/
def OutBuf.publish (data : Bytes) : OutBuf := some (data.take (data.length % 2 ^ 32))

theorem OutBuf.publish_eq {data : Bytes} (h : data.length < 2 ^ 32) : publish data = some data := by
  rw [publish, Nat.mod_eq_of_lt h, List.take_length]

end CrudeOAuth.Sasl
