import Mips.Numeral
import Mips.Text.Blank

namespace Mips.Command

inductive ValueKind
  | none
  | path
  | number
  deriving DecidableEq, Repr

structure Known where
  name : String
  letter : Option Char := Option.none
  kind : ValueKind
  deriving DecidableEq, Repr

structure Grammar where
  known : List Known
  fewest : Nat
  most : Nat

structure Arguments where
  operands : List (List Char) := []
  options : List (String × List Char) := []
  deriving DecidableEq, Repr

inductive Usage
  | describe
  | wrong
  deriving DecidableEq, Repr

namespace ValueKind

def maxNumber : Nat := 0xFFFFFFFFFFFFFFFF

def number? (s : List Char) : Option Nat :=
  match s with
  | '+' :: ds => Numeral.valueUpTo? 10 maxNumber ds
  | ds => Numeral.valueUpTo? 10 maxNumber ds

def accepts : ValueKind → List Char → Bool
  | none, _ => false
  | path, s => s != []
  | number, s => (number? s).isSome

end ValueKind

namespace Arguments

def value? (a : Arguments) (name : String) : Option (List Char) := a.options.lookup name

def addOperand (g : Grammar) (a : Arguments) (s : List Char) : Except Usage Arguments :=
  if a.operands.length < g.most ∧ s ≠ [] then .ok { a with operands := a.operands ++ [s] }
  else .error .wrong

def addOperands (g : Grammar) (a : Arguments) : List (List Char) → Except Usage Arguments
  | [] => .ok a
  | s :: ss => (a.addOperand g s).bind (addOperands g · ss)

def addOption (a : Arguments) (o : Known) (value : List Char) : Except Usage Arguments :=
  if (a.value? o.name).isSome then .error .wrong
  else .ok { a with options := a.options ++ [(o.name, value)] }

def addValue (a : Arguments) (o : Known) (value : List Char) : Except Usage Arguments :=
  if o.kind.accepts value then a.addOption o value else .error .wrong

def looksLikeOption (s : List Char) : Bool :=
  match s with
  | '-' :: _ :: _ => true
  | _ => false

inductive Request
  | give (o : Known) (value : List Char)
  | takeNext (o : Known)
  | flag (o : Known)
  | stop (u : Usage)

def longRequest (g : Grammar) (s : List Char) : Request :=
  match Text.splitAtFirst (· == '=') s with
  | (name, value) =>
    if name = "help".toList ∨ name = "version".toList then
      .stop (if value.isNone then .describe else .wrong)
    else
      match g.known.find? (·.name.toList = name), value with
      | none, _ => .stop .wrong
      | some o, some v => if o.kind = .none then .stop .wrong else .give o v
      | some o, none => if o.kind = .none then .flag o else .takeNext o

def shortRequest (g : Grammar) (s : List Char) : Request :=
  match s with
  | [] => .stop .wrong
  | c :: r =>
    if c = 'h' ∨ c = 'V' then .stop .describe
    else
      match g.known.find? (·.letter = some c), r with
      | none, _ => .stop .wrong
      | some o, [] => .takeNext o
      | some o, '=' :: v => .give o v
      | some o, v => .give o v

def request (g : Grammar) (s : List Char) : Request :=
  match s with
  | '-' :: '-' :: r => longRequest g r
  | '-' :: r => shortRequest g r
  | _ => .stop .wrong

def readOnto (g : Grammar) (a : Arguments) : List (List Char) → Except Usage Arguments
  | [] => .ok a
  | s :: ss =>
    if s = ['-', '-'] then a.addOperands g ss
    else if looksLikeOption s then
      match request g s with
      | .stop u => .error u
      | .flag o => (a.addOption o []).bind (readOnto g · ss)
      | .give o v => (a.addValue o v).bind (readOnto g · ss)
      | .takeNext o =>
        match ss with
        | [] => .error .wrong
        | v :: rest =>
          if looksLikeOption v then .error .wrong
          else (a.addValue o v).bind (readOnto g · rest)
    else (a.addOperand g s).bind (readOnto g · ss)

def read (g : Grammar) (args : List (List Char)) : Except Usage Arguments :=
  (readOnto g {} args).bind fun a =>
    if a.operands.length < g.fewest then .error .wrong else .ok a

end Arguments
end Mips.Command
