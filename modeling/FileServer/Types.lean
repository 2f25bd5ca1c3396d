import Mathlib.Algebra.Group.Nat.Defs
import Mathlib.Data.List.Basic

/-!
# Records shared by the threads (types.h, priority.h, task.c)

C strings are byte lists without their terminating NUL, enumerations are
inductive types, and the object identifiers handed out by the server are
natural numbers. `Response.filepath` and `Response.size` are never read or
written by the server and are left out.
-/

namespace FileServer

set_option autoImplicit false

abbrev Byte := UInt8
abbrev CString := List Byte

def cstr (s : String) : CString := s.toList.map fun c => c.toNat.toUInt8

inductive TaskPriority where
  | low
  | normal
  | high
  deriving DecidableEq, Repr

/-- The enumerator values that C compares. -/
def TaskPriority.rank : TaskPriority → Nat
  | .low => 0
  | .normal => 1
  | .high => 2

theorem TaskPriority.rank_injective {a b : TaskPriority} (h : a.rank = b.rank) : a = b := by
  cases a <;> cases b <;> simp_all [rank]

inductive CommandType where
  | unknown
  | upload
  | download
  | delete
  | list
  | signup
  | login
  | quit
  deriving DecidableEq, Repr

structure Timespec where
  tvSec : Int
  tvNsec : Int
  deriving DecidableEq, Repr

structure ClientInfo where
  clientId : Nat
  socketFd : Nat
  deriving DecidableEq, Repr

structure Task where
  type : CommandType
  client : ClientInfo
  username : CString
  password : CString
  path : CString
  tmpfile : CString
  size : Nat
  priority : TaskPriority
  enqueueTime : Timespec
  deriving DecidableEq, Repr

inductive ResponseStatus where
  | ok
  | err
  deriving DecidableEq, Repr

structure Response where
  clientId : Nat
  status : ResponseStatus
  message : CString
  deriving DecidableEq, Repr

/-- `strncpy(dst, src, cap - 1)` into a zeroed buffer of `cap` bytes. -/
def strncpyZ (cap : Nat) (src : CString) : CString := src.take (cap - 1)

/-- What `snprintf` with a format that expands to `text` leaves in `cap` bytes. -/
def snprintf (cap : Nat) (text : CString) : CString := text.take (cap - 1)

/-- `task_create`: every string argument is cut to its field. -/
def taskCreate (type : CommandType) (client : ClientInfo)
    (username password path tmpfile : CString) (size : Nat)
    (priority : TaskPriority) (now : Timespec) : Task where
  type := type
  client := client
  username := strncpyZ 64 username
  password := strncpyZ 64 password
  path := strncpyZ 256 path
  tmpfile := strncpyZ 256 tmpfile
  size := size
  priority := priority
  enqueueTime := now

def taskComparePriority (a b : Task) : Int :=
  if a.priority.rank > b.priority.rank then -1
  else if a.priority.rank < b.priority.rank then 1
  else if a.enqueueTime.tvSec < b.enqueueTime.tvSec then -1
  else if a.enqueueTime.tvSec > b.enqueueTime.tvSec then 1
  else if a.enqueueTime.tvNsec < b.enqueueTime.tvNsec then -1
  else if a.enqueueTime.tvNsec > b.enqueueTime.tvNsec then 1
  else 0

end FileServer
