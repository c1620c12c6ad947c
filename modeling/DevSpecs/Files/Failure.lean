import DevSpecs.Text.Basic

/-!
# Failures of the operating system

An operation on files or programs fails with an error number, or for a reason
that has none.
-/

namespace DevSpecs

/-- Why an operation on files or programs fails. -/
inductive Failure where
  /-- The operating system reports an error number. -/
  | os (number : Int)
  /-- An empty path names no absolute one. -/
  | emptyPath
  /-- A file does not hold text. -/
  | notText
  /-- A path contains the character that ends one. -/
  | zeroInPath
  /-- A command contains the character that ends an argument. -/
  | zeroInCommand
  deriving DecidableEq, Repr

namespace Failure

/-! ## Numbers with a meaning of their own -/

def notFound : Failure := os 2

def notExecutable : Failure := os 8

def notPermitted : Failure := os 13

def fileExists : Failure := os 17

def notDirectory : Failure := os 20

def isDirectory : Failure := os 21

def nameTooLong : Failure := os 36

def tooManyLinks : Failure := os 40

/-! ## Wording -/

/-- The texts of the error numbers from zero on. -/
def osTexts : List String :=
  [ "Success", "Operation not permitted", "No such file or directory", "No such process",
    "Interrupted system call", "Input/output error", "No such device or address",
    "Argument list too long", "Exec format error", "Bad file descriptor", "No child processes",
    "Resource temporarily unavailable", "Cannot allocate memory", "Permission denied",
    "Bad address", "Block device required", "Device or resource busy", "File exists",
    "Invalid cross-device link", "No such device", "Not a directory", "Is a directory",
    "Invalid argument", "Too many open files in system", "Too many open files",
    "Inappropriate ioctl for device", "Text file busy", "File too large",
    "No space left on device", "Illegal seek", "Read-only file system", "Too many links",
    "Broken pipe", "Numerical argument out of domain", "Numerical result out of range",
    "Resource deadlock avoided", "File name too long", "No locks available",
    "Function not implemented", "Directory not empty", "Too many levels of symbolic links",
    "Unknown error 41", "No message of desired type", "Identifier removed",
    "Channel number out of range", "Level 2 not synchronized", "Level 3 halted", "Level 3 reset",
    "Link number out of range", "Protocol driver not attached", "No CSI structure available",
    "Level 2 halted", "Invalid exchange", "Invalid request descriptor", "Exchange full",
    "No anode", "Invalid request code", "Invalid slot", "Unknown error 58",
    "Bad font file format", "Device not a stream", "No data available", "Timer expired",
    "Out of streams resources", "Machine is not on the network", "Package not installed",
    "Object is remote", "Link has been severed", "Advertise error", "Srmount error",
    "Communication error on send", "Protocol error", "Multihop attempted", "RFS specific error",
    "Bad message", "Value too large for defined data type", "Name not unique on network",
    "File descriptor in bad state", "Remote address changed",
    "Can not access a needed shared library", "Accessing a corrupted shared library",
    ".lib section in a.out corrupted", "Attempting to link in too many shared libraries",
    "Cannot exec a shared library directly", "Invalid or incomplete multibyte or wide character",
    "Interrupted system call should be restarted", "Streams pipe error", "Too many users",
    "Socket operation on non-socket", "Destination address required", "Message too long",
    "Protocol wrong type for socket", "Protocol not available", "Protocol not supported",
    "Socket type not supported", "Operation not supported", "Protocol family not supported",
    "Address family not supported by protocol", "Address already in use",
    "Cannot assign requested address", "Network is down", "Network is unreachable",
    "Network dropped connection on reset", "Software caused connection abort",
    "Connection reset by peer", "No buffer space available",
    "Transport endpoint is already connected", "Transport endpoint is not connected",
    "Cannot send after transport endpoint shutdown", "Too many references: cannot splice",
    "Connection timed out", "Connection refused", "Host is down", "No route to host",
    "Operation already in progress", "Operation now in progress", "Stale file handle",
    "Structure needs cleaning", "Not a XENIX named type file", "No XENIX semaphores available",
    "Is a named type file", "Remote I/O error", "Disk quota exceeded", "No medium found",
    "Wrong medium type", "Operation canceled", "Required key not available", "Key has expired",
    "Key has been revoked", "Key was rejected by service", "Owner died", "State not recoverable",
    "Operation not possible due to RF-kill", "Memory page has hardware error" ]

/-- The text of an error number. -/
def osText (number : Int) : Text :=
  match number with
  | .ofNat n => ((osTexts[n]?).map String.toList).getD ("Unknown error " ++ Text.ofNat n)
  | n => "Unknown error " ++ Text.ofInt n

def message : Failure → Text
  | os number => osText number ++ " (os error " ++ Text.ofInt number ++ ")"
  | emptyPath => "cannot make an empty path absolute"
  | notText => "stream did not contain valid UTF-8"
  | zeroInPath => "file name contained an unexpected NUL byte"
  | zeroInCommand => "nul byte found in provided data"

end Failure

end DevSpecs
