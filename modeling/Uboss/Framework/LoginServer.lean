import Mathlib.Logic.Function.Basic
import Uboss.Math.Transition

/-!
# The login server

`accept` of `loginserver.lua`, which is run by one coroutine for every connection. It yields in the
call of a slave and in `login_handler`, and what it does in between is one step. It ends with the
connection closed, and the descriptor may then be used again. What is only passed on is left out:
the server and the secret that a slave replies, and the text that `login_handler` returns.
-/

namespace Uboss.Framework

open Math Function

/-- What a slave replies. -/
inductive AuthReply (Uid : Type)
  /-- `nil, "socket error"`, or the call raises an error. -/
  | socketError
  /-- `false` and an error. -/
  | refused
  /-- What `auth_handler` returns, which may be `nil`. -/
  | passed (uid : Option Uid)

/-- Where the coroutine of a connection is. -/
inductive LoginPc (Uid : Type)
  | closed
  /-- In `uboss.call`. -/
  | auth
  /-- In `conf.login_handler`. -/
  | login (uid : Option Uid)

/-- The responses. -/
inductive LoginStatus
  /-- `200` -/
  | success
  /-- `401` -/
  | unauthorized
  /-- `403` -/
  | forbidden
  /-- `406` -/
  | notAcceptable
  deriving DecidableEq, Repr

/-- How `login_handler` ends. -/
inductive HandlerEnd
  /-- With a string or a number, or with nothing. -/
  | subid
  /-- With another value, for which `crypt.base64encode` raises an error. -/
  | other
  /-- With an error. -/
  | raised
  deriving DecidableEq, Repr

/-- The response to the end of `login_handler`. -/
def HandlerEnd.status : HandlerEnd → Option LoginStatus
  | .subid => some .success
  | .other => none
  | .raised => some .forbidden

/-- The steps: a connection, the reply of a slave to it, and the end of `login_handler`. -/
inductive LoginAct (Fd Uid : Type)
  | accept (fd : Fd)
  | reply (fd : Fd) (r : AuthReply Uid)
  | handled (fd : Fd) (r : HandlerEnd)

/-- `conf.multilogin`, `user_login` and the coroutines of the connections. -/
structure LoginServer (Fd Uid : Type) where
  multilogin : Bool
  userLogin : Uid → Bool
  conn : Fd → LoginPc Uid
  /-- The responses, whether or not the client is still there. -/
  written : List (Fd × LoginStatus)

namespace LoginServer

variable {Fd Uid : Type}

/-- The server without a connection. -/
def start (multilogin : Bool) : LoginServer Fd Uid where
  multilogin
  userLogin _ := false
  conn _ := .closed
  written := []

/-- The response, if there is one, and the end of `accept`. -/
def close [DecidableEq Fd] (s : LoginServer Fd Uid) (fd : Fd) (status : Option LoginStatus) :
    LoginServer Fd Uid :=
  { s with
    conn := update s.conn fd .closed
    written := s.written ++ status.toList.map (fd, ·) }

variable [DecidableEq Fd] [DecidableEq Uid]

/-- `accept` up to `login_handler`. -/
def replied (s : LoginServer Fd Uid) (fd : Fd) : AuthReply Uid → LoginServer Fd Uid
  | .socketError => s.close fd none
  | .refused => s.close fd (some .unauthorized)
  | .passed uid =>
    if s.multilogin then { s with conn := update s.conn fd (.login uid) }
    else
      match uid with
      -- `user_login[uid] = true` raises an error
      | none => s.close fd none
      | some u =>
        if s.userLogin u then s.close fd (some .notAcceptable)
        else
          { s with
            userLogin := update s.userLogin u true
            conn := update s.conn fd (.login uid) }

/-- `accept` behind `login_handler`. -/
def handled (s : LoginServer Fd Uid) (fd : Fd) (r : HandlerEnd) : Option Uid → LoginServer Fd Uid
  -- `user_login[uid] = nil` raises an error
  | none => s.close fd none
  | some u =>
    { s with userLogin := update s.userLogin u false }.close fd r.status

/-- One step, if the coroutine of the connection is there. -/
def step (s : LoginServer Fd Uid) : LoginAct Fd Uid → Option (LoginServer Fd Uid)
  | .accept fd =>
    match s.conn fd with
    | .closed => some { s with conn := update s.conn fd .auth }
    | _ => none
  | .reply fd r =>
    match s.conn fd with
    | .auth => some (s.replied fd r)
    | _ => none
  | .handled fd r =>
    match s.conn fd with
    | .login uid => some (s.handled fd r uid)
    | _ => none

/-- Without `multilogin`, the users that are in `login_handler` are those that are locked. -/
structure Inv (s : LoginServer Fd Uid) : Prop where
  single : s.multilogin = false
  named : ∀ fd, s.conn fd ≠ .login none
  locked : ∀ u, s.userLogin u = true ↔ ∃ fd, s.conn fd = .login (some u)
  unique : ∀ u fd fd', s.conn fd = .login (some u) → s.conn fd' = .login (some u) → fd = fd'

variable {s s' : LoginServer Fd Uid} {fd : Fd} {u : Uid} {written : List (Fd × LoginStatus)}

omit [DecidableEq Uid] in
/-- A coroutine that is not in `login_handler` goes on to another place. -/
theorem Inv.go (h : s.Inv) {pc : LoginPc Uid} (hout : ∀ uid, s.conn fd ≠ .login uid)
    (hpc : ∀ uid, pc ≠ .login uid) :
    Inv { s with conn := update s.conn fd pc, written := written } := by
  have hsame : ∀ uid fd', update s.conn fd pc fd' = .login uid ↔ s.conn fd' = .login uid := by
    intro uid fd'
    rcases eq_or_ne fd' fd with rfl | hne
    · rw [update_self]
      exact iff_of_false (hpc uid) (hout uid)
    · rw [update_of_ne hne]
  obtain ⟨hsingle, hnamed, hlocked, hunique⟩ := h
  constructor <;> simp only [ne_eq, hsame] <;> assumption

/-- A user that is not locked is locked and enters `login_handler`. -/
theorem Inv.enter (h : s.Inv) (hout : ∀ uid, s.conn fd ≠ .login uid) (hfree : ¬ s.userLogin u) :
    Inv { s with
      userLogin := update s.userLogin u true
      conn := update s.conn fd (.login (some u)) } := by
  have hu := h.locked u
  obtain ⟨hsingle, hnamed, hlocked, hunique⟩ := h
  constructor <;> simp only [update_apply] <;> grind

/-- A user leaves `login_handler` and is not locked any more. -/
theorem Inv.leave (h : s.Inv) (hlogin : s.conn fd = .login (some u)) :
    Inv { s with
      userLogin := update s.userLogin u false
      conn := update s.conn fd .closed
      written := written } := by
  have hu := h.unique u fd
  obtain ⟨hsingle, hnamed, hlocked, hunique⟩ := h
  constructor <;> simp only [update_apply] <;> grind

/-- Whatever a slave replies. -/
theorem Inv.replied (h : s.Inv) (hout : ∀ uid, s.conn fd ≠ .login uid) (r : AuthReply Uid) :
    (s.replied fd r).Inv := by
  cases r with
  | socketError | refused => exact h.go hout nofun
  | passed uid =>
    have hsingle := Bool.eq_false_iff.mp h.single
    cases uid with
    | none =>
      rw [LoginServer.replied, if_neg hsingle]
      exact h.go hout nofun
    | some u =>
      rw [LoginServer.replied, if_neg hsingle]
      split
      · exact h.go hout nofun
      · exact h.enter hout ‹_›

/-- Every step. -/
theorem Inv.step {a : LoginAct Fd Uid} (h : s.Inv) (hstep : s.step a = some s') : s'.Inv := by
  cases a with
  | accept fd =>
    rw [LoginServer.step] at hstep
    split at hstep <;> cases hstep
    exact h.go (by simp [*]) nofun
  | reply fd r =>
    rw [LoginServer.step] at hstep
    split at hstep <;> cases hstep
    exact h.replied (by simp [*]) r
  | handled fd r =>
    rw [LoginServer.step] at hstep
    split at hstep <;> cases hstep
    rename_i uid hpc
    cases uid with
    | none => exact absurd hpc (h.named fd)
    | some u => exact h.leave hpc

/-- Without `multilogin`, in every run: a user is locked exactly while he is in `login_handler`, he
is there once at most, and nobody is there without a name. When a slave has passed a user he gets
406 if he is there, and gets in if he is not. -/
theorem login_exclusive (hreach : Reachable step (start false) s) :
    (∀ u, s.userLogin u = true ↔ ∃ fd, s.conn fd = .login (some u)) ∧
      (∀ u fd fd', s.conn fd = .login (some u) → s.conn fd' = .login (some u) → fd = fd') ∧
      (∀ fd, s.conn fd ≠ .login none) ∧
      ∀ fd u s', s.step (.reply fd (.passed (some u))) = some s' →
        ((∃ fd', s.conn fd' = .login (some u)) → s' = s.close fd (some .notAcceptable)) ∧
          ((∀ fd', s.conn fd' ≠ .login (some u)) →
            s'.conn fd = .login (some u) ∧ s'.written = s.written) := by
  have h : s.Inv := hreach.invariant
    ⟨rfl, nofun, fun _ => by simp [start], nofun⟩ fun hstep h => h.step hstep
  refine ⟨h.locked, h.unique, h.named, fun fd u s' hstep => ?_⟩
  rw [step] at hstep
  split at hstep <;> cases hstep
  rw [replied, if_neg (Bool.eq_false_iff.mp h.single), ← h.locked, ← not_exists, ← h.locked]
  cases s.userLogin u <;> simp

theorem login_exclusive_seven : ∃ s s' : LoginServer ℕ ℕ,
    s.step (.reply 2 (.passed (some 7))) = some s' ∧ s' = s.close 2 (some .notAcceptable) :=
  have hreach := reachable_of_exec (s := start false)
    (w := [.accept 1, .accept 2, .reply 1 (.passed (some 7))]) rfl
  ⟨_, _, rfl, ((login_exclusive hreach).2.2.2 2 7 _ rfl).1 ⟨1, rfl⟩⟩

end LoginServer

end Uboss.Framework
