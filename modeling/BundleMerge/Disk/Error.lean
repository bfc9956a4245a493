/-! Why an operation on files fails. -/
namespace BundleMerge

inductive DiskError where
  /-- A failed system call, by its number. -/
  | system (code : Nat)
  | notUtf8
  | nulInPath
  | other (text : String)
  deriving Repr, DecidableEq

namespace DiskError

def notPermitted : DiskError := .system 1
def notFound : DiskError := .system 2
def busy : DiskError := .system 16
def alreadyExists : DiskError := .system 17
def notDirectory : DiskError := .system 20
def isDirectory : DiskError := .system 21

/-- What Linux says of the first forty error numbers. -/
def systemTexts : List String :=
  ["Operation not permitted", "No such file or directory", "No such process",
   "Interrupted system call", "Input/output error", "No such device or address",
   "Argument list too long", "Exec format error", "Bad file descriptor", "No child processes",
   "Resource temporarily unavailable", "Cannot allocate memory", "Permission denied",
   "Bad address", "Block device required", "Device or resource busy", "File exists",
   "Invalid cross-device link", "No such device", "Not a directory", "Is a directory",
   "Invalid argument", "Too many open files in system", "Too many open files",
   "Inappropriate ioctl for device", "Text file busy", "File too large",
   "No space left on device", "Illegal seek", "Read-only file system", "Too many links",
   "Broken pipe", "Numerical argument out of domain", "Numerical result out of range",
   "Resource deadlock avoided", "File name too long", "No locks available",
   "Function not implemented", "Directory not empty", "Too many levels of symbolic links"]

def systemText (code : Nat) : String :=
  if code = 0 then "Success"
  else (systemTexts[code - 1]?).getD ("Unknown error " ++ toString code)

def message : DiskError → String
  | .system code => systemText code ++ " (os error " ++ toString code ++ ")"
  | .notUtf8 => "stream did not contain valid UTF-8"
  | .nulInPath => "file name contained an unexpected NUL byte"
  | .other text => text

end DiskError
end BundleMerge
