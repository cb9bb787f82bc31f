import Mips.Numeral

namespace Mips

inductive IntegerError
  | empty
  | invalidDigit
  | tooLarge
  | tooSmall
  deriving DecidableEq, Repr

def IntegerError.message : IntegerError → String
  | empty => "cannot parse integer from empty string"
  | invalidDigit => "invalid digit found in string"
  | tooLarge => "number too large to fit in target type"
  | tooSmall => "number too small to fit in target type"

namespace Numeral

def upTo (limit : Nat) (past : IntegerError) : Nat → List Char → Except IntegerError Nat
  | n, [] => .ok n
  | n, c :: cs =>
    match digit? 10 c with
    | none => .error .invalidDigit
    | some d => if limit < n * 10 + d then .error past else upTo limit past (n * 10 + d) cs

def int32 (s : List Char) : Except IntegerError Int :=
  match s with
  | [] => .error .empty
  | ['+'] | ['-'] => .error .invalidDigit
  | '-' :: ds => (upTo 0x80000000 .tooSmall 0 ds).map fun n => -(n : Int)
  | '+' :: ds => (upTo 0x7FFFFFFF .tooLarge 0 ds).map fun n => (n : Int)
  | ds => (upTo 0x7FFFFFFF .tooLarge 0 ds).map fun n => (n : Int)

end Numeral
end Mips
