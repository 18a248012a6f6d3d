-- SUMMARY: Why a file operation failed, the kind of the failure and its wording.

/-!
# Failures of file operations

A file operation fails either because the system refuses it, and then with a numbered error, or
for a reason of its own that is given in words. The kind of a failure is what callers branch on.
-/

namespace Hardlinks

inductive IoKind where
  | notFound
  | permissionDenied
  | alreadyExists
  | crossesDevices
  | notADirectory
  | isADirectory
  | directoryNotEmpty
  | resourceBusy
  | invalidName
  | linkLoop
  | invalidInput
  | invalidData
  | unsupported
  | other
deriving DecidableEq, Repr

/-- The wording for a failure of which only the kind is known. -/
def IoKind.description : IoKind → String
  | .notFound => "entity not found"
  | .permissionDenied => "permission denied"
  | .alreadyExists => "entity already exists"
  | .crossesDevices => "cross-device link or rename"
  | .notADirectory => "not a directory"
  | .isADirectory => "is a directory"
  | .directoryNotEmpty => "directory not empty"
  | .resourceBusy => "resource busy"
  | .invalidName => "invalid filename"
  | .linkLoop => "filesystem loop or indirection limit (e.g. symlink loop)"
  | .invalidInput => "invalid input parameter"
  | .invalidData => "invalid data"
  | .unsupported => "unsupported"
  | .other => "other error"

/-- The numbered errors of the system that file operations meet. -/
inductive Errno where
  | notPermitted
  | noEntry
  | accessDenied
  | busy
  | exists
  | crossDevice
  | notDirectory
  | isDirectory
  | invalidArgument
  | nameTooLong
  | notEmpty
  | linkLoop
deriving DecidableEq, Repr

namespace Errno

def all : List Errno :=
  [.notPermitted, .noEntry, .accessDenied, .busy, .exists, .crossDevice, .notDirectory,
    .isDirectory, .invalidArgument, .nameTooLong, .notEmpty, .linkLoop]

def code : Errno → Nat
  | .notPermitted => 1
  | .noEntry => 2
  | .accessDenied => 13
  | .busy => 16
  | .exists => 17
  | .crossDevice => 18
  | .notDirectory => 20
  | .isDirectory => 21
  | .invalidArgument => 22
  | .nameTooLong => 36
  | .notEmpty => 39
  | .linkLoop => 40

def ofCode? (n : Nat) : Option Errno :=
  all.find? fun e => e.code == n

def kind : Errno → IoKind
  | .notPermitted => .permissionDenied
  | .noEntry => .notFound
  | .accessDenied => .permissionDenied
  | .busy => .resourceBusy
  | .exists => .alreadyExists
  | .crossDevice => .crossesDevices
  | .notDirectory => .notADirectory
  | .isDirectory => .isADirectory
  | .invalidArgument => .invalidInput
  | .nameTooLong => .invalidName
  | .notEmpty => .directoryNotEmpty
  | .linkLoop => .linkLoop

def description : Errno → String
  | .notPermitted => "Operation not permitted"
  | .noEntry => "No such file or directory"
  | .accessDenied => "Permission denied"
  | .busy => "Device or resource busy"
  | .exists => "File exists"
  | .crossDevice => "Invalid cross-device link"
  | .notDirectory => "Not a directory"
  | .isDirectory => "Is a directory"
  | .invalidArgument => "Invalid argument"
  | .nameTooLong => "File name too long"
  | .notEmpty => "Directory not empty"
  | .linkLoop => "Too many levels of symbolic links"

end Errno

inductive IoError where
  /-- The system refused the operation. -/
  | system (e : Errno)
  /-- A failure described in words. -/
  | described (kind : IoKind) (text : String)
  /-- A failure of which only the kind is known. -/
  | plain (kind : IoKind)
deriving DecidableEq, Repr

namespace IoError

/-- A path that holds a NUL byte, which no file call takes. -/
def nulInPath : IoError :=
  .described .invalidInput "file name contained an unexpected NUL byte"

/-- A file read as text that is not UTF-8. -/
def notText : IoError :=
  .described .invalidData "stream did not contain valid UTF-8"

/-- A copy of something that has no bytes to copy. -/
def notARegularFile : IoError :=
  .described .invalidInput
    "the source path is neither a regular file nor a symlink to a regular file"

def kind : IoError → IoKind
  | system e => e.kind
  | described k _ => k
  | plain k => k

def message : IoError → String
  | system e => e.description ++ " (os error " ++ String.ofList (Nat.toDigits 10 e.code) ++ ")"
  | described _ text => text
  | plain k => k.description

end IoError

end Hardlinks
