import IncludeMoves.Path.Basic
import IncludeMoves.Text.Quoted

/-!
# What can go wrong in a file system

`OsError` lists the refusals of the system with their numbers and texts; `IoError` adds what a
reader of files finds wrong by itself.
-/

namespace IncludeMoves

/-- A refusal of the operating system. -/
inductive OsError where
  | notFound
  | accessDenied
  | busy
  | notDirectory
  | isDirectory
  | invalidArgument
  | noSpace
  | nameTooLong
  | tooManyLinks
  deriving DecidableEq, Repr

namespace OsError

/-- The number of the error. -/
def code : OsError → Nat
  | notFound => 2
  | accessDenied => 13
  | busy => 16
  | notDirectory => 20
  | isDirectory => 21
  | invalidArgument => 22
  | noSpace => 28
  | nameTooLong => 36
  | tooManyLinks => 40

/-- The system's own words. -/
def text : OsError → String
  | notFound => "No such file or directory"
  | accessDenied => "Permission denied"
  | busy => "Device or resource busy"
  | notDirectory => "Not a directory"
  | isDirectory => "Is a directory"
  | invalidArgument => "Invalid argument"
  | noSpace => "No space left on device"
  | nameTooLong => "File name too long"
  | tooManyLinks => "Too many levels of symbolic links"

/-- The words and the number. -/
def message (e : OsError) : String :=
  e.text ++ " (os error " ++ toString e.code ++ ")"

end OsError

/-- Why a file operation failed. -/
inductive IoError where
  | os (e : OsError)
  | nulInName
  | notText
  | atPath (e : IoError) (path : Path)
  | other (text : String)
  deriving DecidableEq, Repr

/-- The text of the error. -/
def IoError.message : IoError → String
  | .os e => e.message
  | .nulInName => "file name contained an unexpected NUL byte"
  | .notText => "stream did not contain valid UTF-8"
  | .atPath e path => e.message ++ " at path " ++ Quoted.ofBytes path.bytes
  | .other text => text

end IncludeMoves
