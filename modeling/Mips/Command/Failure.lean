import Mips.Assembly.Error
import Mips.Command.Arguments
import Mips.Host.Error
import Mips.Memory
import Mips.Program.Listing

namespace Mips.Command

inductive Failure
  | usage (u : Usage)
  | cannotOpen (path : List Char) (e : StreamError)
  | badInput (e : StreamError)
  | badSource (path : Option (List Char)) (e : Assembly.Error)
  | unreadableConfig (path : List Char) (e : StreamError)
  | badConfig (path : List Char)
  | badListing (path : List Char) (e : BadLine)
  | refusedProgram (e : MemoryError)
  deriving DecidableEq, Repr

namespace Failure

def status : Failure → Nat
  | usage .describe => 0
  | usage .wrong => 2
  | _ => 1

def caused (error cause : String) : String := s!"Error: {error}\n\nCaused by:\n    {cause}\n"

def report : Failure → String
  | usage .describe => ""
  | usage .wrong => "error: wrong arguments\n"
  | cannotOpen path e => s!"{String.ofList path}: cannot open ({e.message})\n"
  | badInput e => caused "reading stdin" e.message
  | badSource none e => s!"{e.message}\n"
  | badSource (some path) e => s!"{String.ofList path}: {e.message}\n"
  | unreadableConfig path e => caused s!"reading config {String.ofList path}" e.message
  | badConfig path => caused s!"parsing config {String.ofList path}" "not the settings of a machine"
  | badListing path e => caused s!"parsing {String.ofList path}" e.message
  | refusedProgram e => s!"Error: {e.message}\n"

end Failure
end Mips.Command
