import CrudeOAuth.Rust.Outcome
import CrudeOAuth.Rust.Text

/-!
# The boundary to PAM

The calls that `pam/src/ffi.rs` makes of libpam and libc. What they answer is the
environment of one call of the module, `PamHandle`: return codes of any value, and
pointers that may be NULL. The calls made are recorded, each with the code it
returned.
-/

namespace CrudeOAuth.Pam

open Rust

/-! ## Codes -/

def pamSuccess : Int := 0
def pamOpenErr : Int := 1
def pamSystemErr : Int := 4
def pamAuthErr : Int := 7
def pamConvErr : Int := 19
def pamTryAgain : Int := 24
def pamIgnore : Int := 25

def pamRhost : Int := 4
def pamConv : Int := 5
def pamAuthtok : Int := 6

def pamPromptEchoOff : Int := 1

/-! ## Calls -/

/-- A call of libpam, libc or the conversation function of the application. -/
inductive PamCall
  | getUser
  | getItem (item : Int)
  | setItem (item : Int) (value : Bytes)
  | getpwnam (user : Bytes)
  | converse (style : Int) (msg : Bytes)
  deriving DecidableEq, Repr

/-- The calls made, each with the code it returned. -/
abbrev Calls := List (PamCall × Int)

/-- `pam_conv::conv` for one message: its return code, and the response, which may be
    NULL as may the answer in it. -/
abbrev Conversation := Int → Bytes → Int × Option (Option CString)

/-- What libpam and libc answer to the calls of the module; a NULL pointer is `none`. -/
structure PamHandle where
  /-- `pam_get_user` -/
  getUser : Int × Option CString
  /-- `pam_get_item` of an item that is a string -/
  getItem : Int → Int × Option CString
  /-- `pam_get_item(PAM_CONV)`, of a structure with a pointer to a function -/
  getConv : Int × Option (Option Conversation)
  /-- `pam_set_item` -/
  setItem : Int → Bytes → Int
  /-- `getpwnam_r`, and whether it found an account -/
  getpwnam : CString → Int × Bool

/-- Whether a local account with this name exists; a failed lookup is `PAM_TRY_AGAIN`. -/
def accountExists (pam : PamHandle) (user : CString) : Except Int Bool :=
  if (pam.getpwnam user).1 ≠ 0 then .error pamTryAgain else .ok (pam.getpwnam user).2

namespace PamHandle

/-- The target user. `PAM_SUCCESS` as the error means that a NULL user was returned. -/
def user (pam : PamHandle) : Except Int CString :=
  match pam.getUser with
  | (rc, some user) => if rc ≠ pamSuccess then .error rc else .ok user
  | (rc, none) => .error rc

def itemStr (pam : PamHandle) (item : Int) : Except Int (Option String) :=
  if (pam.getItem item).1 ≠ pamSuccess then .error (pam.getItem item).1
  else .ok ((pam.getItem item).2.map fun s => fromUtf8Lossy s.bytes)

/-- Asks the application for a secret via the conversation, with the calls made. -/
def converseSecret (pam : PamHandle) (prompt : Bytes) : Except Int CString × Calls :=
  let (rc, conv) := pam.getConv
  if rc ≠ pamSuccess then (.error rc, [(.getItem pamConv, rc)])
  else
    match conv.join with
    | none => (.error pamConvErr, [(.getItem pamConv, rc)])
    | some conv =>
      let (convRc, resp) := conv pamPromptEchoOff prompt
      let calls : Calls := [(.getItem pamConv, rc), (.converse pamPromptEchoOff prompt, convRc)]
      if convRc ≠ pamSuccess then (.error convRc, calls)
      else (okOrElse resp.join pamConvErr, calls)

end PamHandle

/-- Copies the PAM stack arguments; NULL arguments are passed over. -/
def collectArgs (argc : Int) (argv : Option (List (Option CString))) : List String :=
  match argv with
  | none => []
  | some argv => (argv.take argc.toNat).filterMap fun arg => arg.map fun s => fromUtf8Lossy s.bytes

/-! ## What the environment gives -/

namespace PamHandle

/-- The item is set, to a string that reads as `s`. -/
def Shows (pam : PamHandle) (item : Int) (s : String) : Prop :=
  ∃ c, pam.getItem item = (pamSuccess, some c) ∧ fromUtf8Lossy c.bytes = s

/-- The conversation can be held, and answers the prompt with the secret. -/
def Answers (pam : PamHandle) (prompt : Bytes) (secret : CString) : Prop :=
  ∃ conv, pam.getConv = (pamSuccess, some (some conv)) ∧
    conv pamPromptEchoOff prompt = (pamSuccess, some (some secret))

variable {pam : PamHandle} {item rc : Int} {s : String}

theorem user_eq_ok {user : CString} : pam.user = .ok user ↔ pam.getUser = (pamSuccess, some user) := by
  unfold PamHandle.user
  rcases pam.getUser with ⟨rc, _ | u⟩
  · simp
  · by_cases h : rc = pamSuccess <;> simp [h]

theorem itemStr_eq_some : pam.itemStr item = .ok (some s) ↔ pam.Shows item s := by
  unfold itemStr Shows
  rcases pam.getItem item with ⟨rc, value⟩
  by_cases h : rc = pamSuccess <;> simp [h]

theorem itemStr_eq_none : pam.itemStr item = .ok none ↔ pam.getItem item = (pamSuccess, none) := by
  unfold itemStr
  rcases pam.getItem item with ⟨rc, value⟩
  by_cases h : rc = pamSuccess <;> simp [h]

theorem itemStr_eq_error (h : pam.itemStr item = .error rc) :
    rc = (pam.getItem item).1 ∧ rc ≠ pamSuccess := by
  unfold itemStr at h
  split at h
  · rename_i hrc
    exact ⟨(Except.error.inj h).symm, Except.error.inj h ▸ hrc⟩
  · cases h

theorem accountExists_eq_error {user : CString} (h : accountExists pam user = .error rc) :
    rc = pamTryAgain := by
  unfold accountExists at h
  split at h
  · exact (Except.error.inj h).symm
  · cases h

theorem exists_accountExists {user : CString} :
    (∃ found, accountExists pam user = .ok found) ↔ (pam.getpwnam user).1 = 0 := by
  unfold accountExists
  split
  · rename_i h
    simpa using h
  · rename_i h
    simpa using h

end PamHandle

end CrudeOAuth.Pam
