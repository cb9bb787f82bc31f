namespace Mips.Assembly

inductive Cause
  | unknownMnemonic (mnemonic : List Char)
  | unknownRegister (token : List Char)
  | badImmediate (token : List Char)
  | operandCount (mnemonic : List Char) (expected found : Nat)
  | badMemoryOperand (token : List Char)
  | unresolvedLabel (label : List Char)
  | duplicateLabel (label : List Char)
  | danglingLabel (label : List Char)
  | unknownDirective (directive : List Char)
  | spaceTooLarge (count : Int)
  | badString
  deriving DecidableEq, Repr

structure Error where
  line : Nat
  cause : Cause
  deriving DecidableEq, Repr

def quote (s : List Char) : String := "`" ++ String.ofList s ++ "`"

def Cause.message : Cause → String
  | unknownMnemonic mnemonic => s!"unknown mnemonic {quote mnemonic}"
  | unknownRegister token => s!"unknown register {quote token}"
  | badImmediate token => s!"bad immediate {quote token}"
  | operandCount mnemonic expected found =>
    s!"{quote mnemonic} expects {expected} operand(s), found {found}"
  | badMemoryOperand token => s!"bad memory operand {quote token}, expected imm($reg)"
  | unresolvedLabel label => s!"unresolved label {quote label}"
  | duplicateLabel label => s!"label {quote label} already defined"
  | danglingLabel label => s!"label {quote label} is not followed by an instruction"
  | unknownDirective directive => s!"unknown directive {quote directive}"
  | spaceTooLarge count => s!"`.space {count}` does not fit in simulated memory"
  | badString => "malformed string literal"

def Error.message (e : Error) : String := s!"line {e.line}: {e.cause.message}"

end Mips.Assembly
