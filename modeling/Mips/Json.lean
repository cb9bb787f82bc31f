import Mips.Numeral

/-!
JSON as far as settings need it. A number counts if it is a natural number of at most 64 bits in
plain digits, a string if its escapes spell a text; the others are read but have no value. A record
may be written as an object or as an array of its members in order.
-/
namespace Mips

inductive Json
  | null
  | bool (b : Bool)
  | number (value : Option Nat)
  | string (value : Option (List Char))
  | array (items : List Json)
  | object (members : List (Option (List Char) × Json))
  deriving Inhabited

namespace Json

def isBlank (c : Char) : Bool := c == ' ' || c == '\n' || c == '\t' || c == '\r'

def skip (s : List Char) : List Char := s.dropWhile isBlank

def after? (word s : List Char) : Option (List Char) :=
  if word.isPrefixOf s then some (s.drop word.length) else none

def digits (s : List Char) : List Char × List Char :=
  (s.takeWhile Char.isDigit, s.dropWhile Char.isDigit)

def fraction? (s : List Char) : Option (Bool × List Char) :=
  match s with
  | '.' :: r =>
    match digits r with
    | ([], _) => none
    | (_, r) => some (true, r)
  | _ => some (false, s)

def exponent? (s : List Char) : Option (Bool × List Char) :=
  let unsigned (r : List Char) : Option (Bool × List Char) :=
    match digits r with
    | ([], _) => none
    | (_, r) => some (true, r)
  match s with
  | 'e' :: '+' :: r | 'e' :: '-' :: r | 'E' :: '+' :: r | 'E' :: '-' :: r => unsigned r
  | 'e' :: r | 'E' :: r => unsigned r
  | _ => some (false, s)

def maxNumber : Nat := 0xFFFFFFFFFFFFFFFF

def magnitude? (s : List Char) : Option (Option Nat × List Char) := do
  let (ds, r) := digits s
  if ds = [] ∨ (ds.head? = some '0' ∧ ds ≠ ['0']) then none
  else
    let (frac, r) ← fraction? r
    let (expo, r) ← exponent? r
    some (if frac || expo then none else Numeral.valueUpTo? 10 maxNumber ds, r)

/-- A piece of a string: a character, or a UTF-16 unit written in four hexadecimal digits. -/
inductive Piece
  | char (c : Char)
  | unit (n : Nat)

def escaped? : Char → Option Char
  | '"' => some '"'
  | '\\' => some '\\'
  | '/' => some '/'
  | 'b' => some '\x08'
  | 'f' => some '\x0c'
  | 'n' => some '\n'
  | 'r' => some '\r'
  | 't' => some '\t'
  | _ => none

def pieces? : List Char → Option (List Piece × List Char)
  | [] => none
  | '"' :: r => some ([], r)
  | '\\' :: 'u' :: a :: b :: c :: d :: r =>
    (Numeral.value? 16 [a, b, c, d]).bind fun n => (pieces? r).map fun (ps, r) => (.unit n :: ps, r)
  | '\\' :: c :: r =>
    (escaped? c).bind fun c => (pieces? r).map fun (ps, r) => (.char c :: ps, r)
  | c :: r => if c.toNat < 0x20 then none else (pieces? r).map fun (ps, r) => (.char c :: ps, r)

def isHigh (n : Nat) : Bool := 0xD800 ≤ n && n < 0xDC00

def isLow (n : Nat) : Bool := 0xDC00 ≤ n && n < 0xE000

/-- The text that pieces spell, if every half finds its other half. -/
def text? : List Piece → Option (List Char)
  | [] => some []
  | .char c :: ps => (text? ps).map (c :: ·)
  | .unit n :: .unit m :: ps =>
    if isHigh n then
      if isLow m then
        (text? ps).map (Char.ofNat (0x10000 + (n - 0xD800) * 0x400 + (m - 0xDC00)) :: ·)
      else none
    else if isLow n then none
    else (text? (.unit m :: ps)).map (Char.ofNat n :: ·)
  | .unit n :: ps => if isHigh n || isLow n then none else (text? ps).map (Char.ofNat n :: ·)

def string? (s : List Char) : Option (Option (List Char) × List Char) :=
  (pieces? s).map fun (ps, r) => (text? ps, r)

mutual

/-- A value at the start of a text, and what follows it. The first argument bounds the depth and the
number of tokens. -/
def value? : Nat → List Char → Option (Json × List Char)
  | 0, _ => none
  | fuel + 1, s =>
    match skip s with
    | 'n' :: r => (after? "ull".toList r).map (null, ·)
    | 't' :: r => (after? "rue".toList r).map (bool true, ·)
    | 'f' :: r => (after? "alse".toList r).map (bool false, ·)
    | '"' :: r => (string? r).map fun (v, r) => (string v, r)
    | '-' :: r => (magnitude? r).map fun (_, r) => (number none, r)
    | '[' :: r =>
      match skip r with
      | ']' :: r => some (array [], r)
      | r => (items? fuel r).map fun (xs, r) => (array xs, r)
    | '\x7b' :: r =>
      match skip r with
      | '\x7d' :: r => some (object [], r)
      | r => (members? fuel r).map fun (ms, r) => (object ms, r)
    | r => (magnitude? r).map fun (v, r) => (number v, r)

def items? : Nat → List Char → Option (List Json × List Char)
  | 0, _ => none
  | fuel + 1, s =>
    (value? fuel s).bind fun (v, r) =>
      match skip r with
      | ',' :: r => (items? fuel r).map fun (vs, r) => (v :: vs, r)
      | ']' :: r => some ([v], r)
      | _ => none

def members? : Nat → List Char → Option (List (Option (List Char) × Json) × List Char)
  | 0, _ => none
  | fuel + 1, s =>
    match skip s with
    | '"' :: r =>
      (string? r).bind fun (k, r) =>
        match skip r with
        | ':' :: r =>
          (value? fuel r).bind fun (v, r) =>
            match skip r with
            | ',' :: r => (members? fuel r).map fun (ms, r) => ((k, v) :: ms, r)
            | '\x7d' :: r => some ([(k, v)], r)
            | _ => none
        | _ => none
    | _ => none

end

def parse? (s : List Char) : Option Json :=
  (value? (2 * s.length + 2) s).bind fun (v, r) => if skip r = [] then some v else none

/-- The members of a record, those left out as none. In an object each name of the record may occur
once, and other names are passed over. -/
def record? (names : List String) : Json → Option (List (Option Json))
  | array items =>
    if items.length ≤ names.length then some ((List.range names.length).map (items[·]?)) else none
  | object members =>
    if members.all (·.1.isSome) then
      names.mapM fun name =>
        match members.filter (·.1 = some name.toList) with
        | [] => some none
        | [(_, v)] => some (some v)
        | _ => none
    else none
  | _ => none

def nat? (limit : Nat) : Json → Option Nat
  | number (some n) => if n < limit then some n else none
  | _ => none

def bool? : Json → Option Bool
  | bool b => some b
  | _ => none

def orDefault {α : Type} (read : Json → Option α) (default : α) : Option Json → Option α
  | none => some default
  | some j => read j

end Json
end Mips
