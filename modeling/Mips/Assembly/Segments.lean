import Mips.Assembly.Symbols
import Mips.Program
import Mips.Text.Lines

/-!
Sources without comments, divided into their segments. A data line is one directive; a text line is
one instruction, with the labels that stand on lines of their own before it.
-/
namespace Mips.Assembly

structure Segments where
  data : List Line := []
  text : List Line := []
  deriving DecidableEq, Repr

/-- The text before a comment, inside a string literal or outside. In a literal a backslash takes
the next character with it, and no comment begins. -/
def beforeComment : Bool → List Char → List Char
  | _, [] => []
  | true, '\\' :: c :: r => '\\' :: c :: beforeComment true r
  | inside, '"' :: r => '"' :: beforeComment (!inside) r
  | false, '#' :: _ => []
  | inside, c :: r => c :: beforeComment inside r

def withoutComment (line : List Char) : List Char := beforeComment false line

/-- Whether a line begins with a word and then ends or goes on with a blank. -/
def beginsWith (word line : List Char) : Bool :=
  word.isPrefixOf line &&
    match line.drop word.length with
    | [] => true
    | c :: _ => Text.isBlank c

inductive Role
  | ignored
  | marker (seg : Segment)
  | statement (text : List Char)
  deriving DecidableEq, Repr

/-- The role of a line. Declarations of global labels have no effect. -/
def Role.of (line : List Char) : Role :=
  let text := Text.trim (withoutComment line)
  if text = [] then ignored
  else if beginsWith ".data".toList text then marker .data
  else if beginsWith ".text".toList text then marker .text
  else if beginsWith ".globl".toList text || beginsWith ".global".toList text then ignored
  else statement text

def statements (seg : Segment) : List (Nat × List Char) → List (Segment × Line)
  | [] => []
  | (n, l) :: ls =>
    match Role.of l with
    | .ignored => statements seg ls
    | .marker s => statements s ls
    | .statement t => (seg, ⟨n, t⟩) :: statements seg ls

def linesOf (seg : Segment) (ls : List (Segment × Line)) : List Line :=
  ls.filterMap fun (s, l) => if s = seg then some l else none

def spaced (s : List Char) : List Char := s.map fun c => if c = ',' ∨ c = '\t' then ' ' else c

/-- A text behind the lines of labels before it, the latest of which comes first. -/
def behind (labels : List Line) (text : List Char) : List Char :=
  labels.foldl (fun t l => l.text ++ ' ' :: t) text

/-- Joins lines that hold only labels with the line after them. Lines of labels are carried along,
the latest first, until one with an instruction comes. -/
def attachLabels : List Line → List Line → Except Error (List Line)
  | [], [] => .ok []
  | p :: _, [] => .error ⟨p.number, .danglingLabel (lastLabel p.text)⟩
  | held, l :: ls =>
    let (names, rest) := leadingLabels l.text
    if rest = [] ∧ names ≠ [] then attachLabels (l :: held) ls
    else (attachLabels [] ls).map (⟨l.number, spaced (behind held l.text)⟩ :: ·)

/-- The segments of a source text. Lines before the first marker are text. -/
def Segments.ofText (s : List Char) : Except Error Segments :=
  let ls := statements .text (Text.numbered (Text.lines s))
  (attachLabels [] (linesOf .text ls)).map fun text => ⟨linesOf .data ls, text⟩

end Mips.Assembly
