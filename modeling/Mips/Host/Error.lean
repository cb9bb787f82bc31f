import Mips.Numeral.Int32
import Mips.Text.Quoted

namespace Mips

inductive Errno
  | noEntry
  | badDescriptor
  | accessDenied
  | notDirectory
  | isDirectory
  | nameTooLong
  deriving DecidableEq, Repr

namespace Errno

def number : Errno → Nat
  | noEntry => 2
  | badDescriptor => 9
  | accessDenied => 13
  | notDirectory => 20
  | isDirectory => 21
  | nameTooLong => 36

def text : Errno → String
  | noEntry => "No such file or directory"
  | badDescriptor => "Bad file descriptor"
  | accessDenied => "Permission denied"
  | notDirectory => "Not a directory"
  | isDirectory => "Is a directory"
  | nameTooLong => "File name too long"

def answer (e : Errno) : Int := -e.number

end Errno

inductive StreamError
  | refused (e : Errno)
  | inputFailed
  | outputFull
  | flushFailed
  | notText
  deriving DecidableEq, Repr

namespace StreamError

def message : StreamError → String
  | refused e => s!"{e.text} (os error {e.number})"
  | inputFailed => "input failed"
  | outputFull => "failed to write whole buffer"
  | flushFailed => "flush failed"
  | notText => "stream did not contain valid UTF-8"

def answer : StreamError → Int
  | refused e => e.answer
  | _ => -1

end StreamError

inductive HostError
  | stream (e : StreamError)
  | badInteger (token : List Char) (e : IntegerError)
  deriving DecidableEq, Repr

def HostError.message : HostError → String
  | stream e => e.message
  | badInteger token e =>
    s!"read_int: invalid integer {String.ofList (Text.quoted token)}: {e.message}"

end Mips
