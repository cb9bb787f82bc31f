import Mips.Numeral
import Mips.Text.Blank
import Mips.Text.Utf8

namespace Mips.Assembly

def maxMagnitude : Nat := 0x7FFFFFFFFFFFFFFF

def magnitude? (s : List Char) : Option Nat :=
  match s with
  | '0' :: 'x' :: ds | '0' :: 'X' :: ds => Numeral.valueUpTo? 16 maxMagnitude ds
  | ds => Numeral.valueUpTo? 10 maxMagnitude ds

def integer? (s : List Char) : Option Int :=
  match s with
  | '-' :: r => (magnitude? r).map fun n => -(n : Int)
  | '+' :: r => (magnitude? r).map fun n => (n : Int)
  | r => (magnitude? r).map fun n => (n : Int)

def escapeByte? (c : Char) : Option UInt8 :=
  match c with
  | 'n' => some 10
  | 't' => some 9
  | '0' => some 0
  | '\'' => some 39
  | '"' => some 34
  | '\\' => some 92
  | _ => none

/-- The bytes of a string literal behind its opening quote. Behind the closing quote only blanks may
stand. -/
def stringBody? : List Char → Option (List UInt8)
  | [] => none
  | '"' :: r => if Text.trim r = [] then some [] else none
  | '\\' :: r =>
    match r with
    | [] => none
    | c :: r => (escapeByte? c).bind fun b => (stringBody? r).map (b :: ·)
  | c :: r => (stringBody? r).map (String.utf8EncodeChar c ++ ·)

def string? (s : List Char) : Option (List UInt8) :=
  match Text.trim s with
  | '"' :: r => stringBody? r
  | _ => none

end Mips.Assembly
