import Mips.Numeral
import Mips.Word

namespace Mips

/-- A register number as an instruction carries it. The register file has 32 registers and reads the
low five bits. -/
abbrev Register := BitVec 8

namespace Register

def v0 : Register := 2
def a0 : Register := 4
def a1 : Register := 5
def a2 : Register := 6
def sp : Register := 29
def fp : Register := 30
def ra : Register := 31

def names : List (List Char) :=
  ["zero", "at", "v0", "v1", "a0", "a1", "a2", "a3", "t0", "t1", "t2", "t3", "t4", "t5", "t6", "t7",
    "s0", "s1", "s2", "s3", "s4", "s5", "s6", "s7", "t8", "t9", "k0", "k1", "gp", "sp", "fp",
    "ra"].map String.toList

@[inline] def index (r : Register) : Fin 32 := ⟨r.toNat % 32, Nat.mod_lt _ (by decide)⟩

def render (r : Register) : List Char := '$' :: names.getD (index r).val []

/-- The number below 32 written in digits, which one plus sign may precede. -/
def number? (s : List Char) : Option Nat :=
  match s with
  | '+' :: ds => Numeral.valueUpTo? 10 31 ds
  | ds => Numeral.valueUpTo? 10 31 ds

/-- The register that a token names: a dollar sign and a number below 32, a conventional name, or
`s8` for the frame pointer. -/
def ofToken? (token : List Char) : Option Register :=
  match token with
  | '$' :: name =>
    match number? name with
    | some n => some (BitVec.ofNat 8 n)
    | none =>
      if name = ['s', '8'] then some fp
      else (names.idxOf? name).map (BitVec.ofNat 8 ·)
  | _ => none

theorem length_names : names.length = 32 := rfl

end Register
end Mips
