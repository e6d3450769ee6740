import MountRs.Library.Except

/-! # Filesystem errors and checked machine arithmetic

Unsigned 64-bit values are natural numbers; every addition, subtraction and
product that the source checks is checked against the same bound here. -/

namespace MountRs

/-- Linux/POSIX error codes used by the driver contract. -/
inductive ErrorCode
  | eperm | enoent | eintr | eio | enxio | ebadf | eagain | enomem | eacces | ebusy | eexist
  | exdev | enodev | enotdir | eisdir | einval | enfile | emfile | efbig | enospc | espipe
  | erofs | emlink | erange | enametoolong | enosys | enotempty | eloop | enodata | eproto
  | eoverflow | enotsup | estale | edquot
deriving DecidableEq

namespace ErrorCode

def asStr : ErrorCode → String
  | eperm => "EPERM"
  | enoent => "ENOENT"
  | eintr => "EINTR"
  | eio => "EIO"
  | enxio => "ENXIO"
  | ebadf => "EBADF"
  | eagain => "EAGAIN"
  | enomem => "ENOMEM"
  | eacces => "EACCES"
  | ebusy => "EBUSY"
  | eexist => "EEXIST"
  | exdev => "EXDEV"
  | enodev => "ENODEV"
  | enotdir => "ENOTDIR"
  | eisdir => "EISDIR"
  | einval => "EINVAL"
  | enfile => "ENFILE"
  | emfile => "EMFILE"
  | efbig => "EFBIG"
  | enospc => "ENOSPC"
  | espipe => "ESPIPE"
  | erofs => "EROFS"
  | emlink => "EMLINK"
  | erange => "ERANGE"
  | enametoolong => "ENAMETOOLONG"
  | enosys => "ENOSYS"
  | enotempty => "ENOTEMPTY"
  | eloop => "ELOOP"
  | enodata => "ENODATA"
  | eproto => "EPROTO"
  | eoverflow => "EOVERFLOW"
  | enotsup => "ENOTSUP"
  | estale => "ESTALE"
  | edquot => "EDQUOT"

def description : ErrorCode → String
  | eperm => "operation not permitted"
  | enoent => "no such file or directory"
  | eintr => "interrupted system call"
  | eio => "i/o error"
  | enxio => "no such device or address"
  | ebadf => "bad file descriptor"
  | eagain => "resource temporarily unavailable"
  | enomem => "not enough memory"
  | eacces => "permission denied"
  | ebusy => "resource busy or locked"
  | eexist => "file already exists"
  | exdev => "cross-device link not permitted"
  | enodev => "no such device"
  | enotdir => "not a directory"
  | eisdir => "illegal operation on a directory"
  | einval => "invalid argument"
  | enfile => "file table overflow"
  | emfile => "too many open files"
  | efbig => "file too large"
  | enospc => "no space left on device"
  | espipe => "invalid seek"
  | erofs => "read-only file system"
  | emlink => "too many links"
  | erange => "result too large"
  | enametoolong => "name too long"
  | enosys => "function not implemented"
  | enotempty => "directory not empty"
  | eloop => "too many symbolic links encountered"
  | enodata => "no data available"
  | eproto => "protocol error"
  | eoverflow => "value too large for defined data type"
  | enotsup => "operation not supported"
  | estale => "stale file handle"
  | edquot => "disk quota exceeded"

end ErrorCode

structure FsError where
  code : ErrorCode
  syscall : Option String
  path : Option String
  dest : Option String
  message : Option String
deriving DecidableEq

namespace FsError

def new (code : ErrorCode) : FsError := ⟨code, none, none, none, none⟩

def withSyscall (e : FsError) (syscall : String) : FsError := { e with syscall := some syscall }

def withPath (e : FsError) (path : String) : FsError := { e with path := some path }

def withDest (e : FsError) (dest : String) : FsError := { e with dest := some dest }

def withMessage (e : FsError) (message : String) : FsError := { e with message := some message }

def backend (message : String) : FsError := (new .eio).withMessage message

/-- `impl Display for FsError`: the message alone when there is one. -/
def display (e : FsError) : String :=
  match e.message with
  | some message => message
  | none =>
    e.code.asStr ++ ": " ++ e.code.description
      ++ (e.syscall.elim "" fun syscall => ", " ++ syscall)
      ++ (e.path.elim "" fun path => " '" ++ path ++ "'")
      ++ (e.dest.elim "" fun dest => " -> '" ++ dest ++ "'")

end FsError

abbrev Result (α : Type) := Except FsError α

def U64_MAX : ℕ := 2 ^ 64 - 1

/-- `a.checked_add(b)` on `u64` or, on a 64-bit target, `usize`. -/
def checkedAdd (a b : ℕ) : Option ℕ := if a + b ≤ U64_MAX then some (a + b) else none

def checkedSub (a b : ℕ) : Option ℕ := if b ≤ a then some (a - b) else none

def checkedMul (a b : ℕ) : Option ℕ := if a * b ≤ U64_MAX then some (a * b) else none

@[simp] theorem checkedAdd_eq_some {a b c : ℕ} :
    checkedAdd a b = some c ↔ a + b ≤ U64_MAX ∧ a + b = c := by
  simp [checkedAdd]

@[simp] theorem checkedSub_eq_some {a b c : ℕ} :
    checkedSub a b = some c ↔ b ≤ a ∧ a - b = c := by
  simp [checkedSub]

@[simp] theorem checkedMul_eq_some {a b c : ℕ} :
    checkedMul a b = some c ↔ a * b ≤ U64_MAX ∧ a * b = c := by
  simp [checkedMul]

end MountRs
