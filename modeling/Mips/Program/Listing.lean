import Mips.Program
import Mips.Text.Blank
import Mips.Text.Lines
import Mips.Text.Quoted

namespace Mips

def Segment.marker : Segment → List Char
  | data => ".data".toList
  | text => ".text".toList

structure BadLine where
  line : Nat
  found : List Char
  deriving DecidableEq, Repr

def BadLine.message (e : BadLine) : String :=
  s!"line {e.line}: expected 32 binary digits, found {String.ofList (Text.quoted e.found)}"

namespace Program

def wordLine (w : Word) : List Char := Numeral.binary32 w.toNat ++ ['\n']

def segmentLines (seg : Segment) (words : List Word) : List Char :=
  seg.marker ++ '\n' :: words.flatMap wordLine

def listing (p : Program) : List Char := segmentLines .data p.data ++ segmentLines .text p.text

def wordOfDigits? (s : List Char) : Option Word :=
  if s.length = 32 then (Numeral.value? 2 s).map Word.ofNat else none

inductive ListingLine
  | blank
  | marker (seg : Segment)
  | word (w : Word)
  | other
  deriving DecidableEq, Repr

def ListingLine.of (s : List Char) : ListingLine :=
  if s = [] then blank
  else if s = Segment.data.marker then marker .data
  else if s = Segment.text.marker then marker .text
  else
    match wordOfDigits? s with
    | some w => word w
    | none => other

def ofLines (seg : Segment) : List (Nat × List Char) → Except BadLine Program
  | [] => .ok {}
  | (n, l) :: ls =>
    match ListingLine.of (Text.trim l) with
    | .blank => ofLines seg ls
    | .marker s => ofLines s ls
    | .word w => (ofLines seg ls).map (·.cons seg w)
    | .other => .error ⟨n, Text.trim l⟩

/-- Reads a listing. Words before the first marker are text. -/
def ofListing (s : List Char) : Except BadLine Program :=
  ofLines .text (Text.numbered (Text.lines s))

end Program
end Mips
