import Mips.Assembly.Error
import Mips.Text.Blank
import Mips.Word
import Std.Data.ExtTreeMap

namespace Mips.Assembly

structure Line where
  number : Nat
  text : List Char
  deriving DecidableEq, Repr

def isNameChar (c : Char) : Bool := c.isAlphanum || c == '_' || c == '.'

/-- Whether a text is the name of a label: letters, digits, underscores and dots, no digit first. -/
def isName (s : List Char) : Bool :=
  match s with
  | [] => false
  | c :: _ => !c.isDigit && s.all isNameChar

def firstLabel? (s : List Char) : Option (List Char × List Char) :=
  match Text.splitAtFirst (· == ':') s with
  | (before, some after) =>
    if isName (Text.trim before) then some (Text.trim before, Text.trimStart after) else none
  | (_, none) => none

theorem length_of_firstLabel? {s name rest : List Char} (h : firstLabel? s = some (name, rest)) :
    rest.length < s.length := by
  unfold firstLabel? Text.splitAtFirst at h
  have hd : (s.dropWhile fun c => !(c == ':')).length ≤ s.length :=
    (List.dropWhile_sublist _).length_le
  cases hs : s.dropWhile fun c => !(c == ':') with
  | nil => simp [hs] at h
  | cons c r =>
    simp only [hs] at h
    have ht : (Text.trimStart r).length ≤ r.length := (List.dropWhile_sublist _).length_le
    rw [hs] at hd
    simp only [List.length_cons] at hd
    split at h
    · simp only [Option.some.injEq, Prod.mk.injEq] at h
      rw [← h.2]
      omega
    · simp at h

/-- The labels at the start of a text that has no leading blanks, and the rest of it. -/
def peelFrom (s : List Char) : List (List Char) × List Char :=
  match _h : firstLabel? s with
  | some (name, rest) =>
    let peeled := peelFrom rest
    (name :: peeled.1, peeled.2)
  | none => ([], Text.trimEnd s)
termination_by s.length
decreasing_by exact length_of_firstLabel? _h

def leadingLabels (line : List Char) : List (List Char) × List Char :=
  peelFrom (Text.trimStart line)

def lastLabel (line : List Char) : List Char := (leadingLabels line).1.getLast?.getD []

structure Symbols where
  entries : Std.ExtTreeMap (List Char) Word := ∅

namespace Symbols

def address? (t : Symbols) (name : List Char) : Option Word := t.entries[name]?

def resolve (t : Symbols) (name : List Char) (line : Nat) : Except Error Word :=
  match t.address? name with
  | some addr => .ok addr
  | none => .error ⟨line, .unresolvedLabel name⟩

def size (t : Symbols) : Nat := t.entries.size

/-- Gives labels on one line an address. No label may have one already. -/
def define (t : Symbols) (line : Nat) (addr : Word) : List (List Char) → Except Error Symbols
  | [] => .ok t
  | name :: names =>
    match t.address? name with
    | some _ => .error ⟨line, .duplicateLabel name⟩
    | none => define ⟨t.entries.insert name addr⟩ line addr names

def addLines (t : Symbols) (addr : Word) : List Line → Except Error Symbols
  | [] => .ok t
  | l :: ls =>
    match t.define l.number addr (leadingLabels l.text).1 with
    | .error e => .error e
    | .ok t' => addLines t' (addr.add 4) ls

def ofLines (text : List Line) (start : Word) : Except Error Symbols :=
  addLines {} start text

end Symbols
end Mips.Assembly
