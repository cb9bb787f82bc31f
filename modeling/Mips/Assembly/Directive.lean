import Mips.Assembly.Literal
import Mips.Assembly.Symbols
import Mips.Memory
import Mips.Word.Bytes

namespace Mips.Assembly

/-- Bytes as words, four at a time, the last ones filled up with zeros on the right. -/
def pack : List UInt8 → List Word
  | [] => []
  | a :: b :: c :: d :: r => Word.ofBytes [a, b, c, d] :: pack r
  | [a, b, c] => [Word.ofBytes [a, b, c, 0]]
  | [a, b] => [Word.ofBytes [a, b, 0, 0]]
  | [a] => [Word.ofBytes [a, 0, 0, 0]]

def packOnto : List Word → List UInt8 → List Word
  | ws, [] => ws.reverse
  | ws, a :: b :: c :: d :: r => packOnto (Word.ofBytes [a, b, c, d] :: ws) r
  | ws, [a, b, c] => (Word.ofBytes [a, b, c, 0] :: ws).reverse
  | ws, [a, b] => (Word.ofBytes [a, b, 0, 0] :: ws).reverse
  | ws, [a] => (Word.ofBytes [a, 0, 0, 0] :: ws).reverse

theorem packOnto_eq (ws : List Word) (bs : List UInt8) :
    packOnto ws bs = ws.reverse ++ pack bs := by
  fun_induction packOnto ws bs with
  | case1 => simp [pack]
  | case2 ws a b c d r ih => simp [pack, ih]
  | case3 => simp [pack]
  | case4 => simp [pack]
  | case5 => simp [pack]

def integers (line : Nat) (args : List Char) : Except Error (List Int) :=
  (Text.fields (fun c => c == ',' || Text.isBlank c) args).mapM fun tok =>
    match integer? tok with
    | some z => .ok z
    | none => .error ⟨line, .badImmediate tok⟩

def integerBytes (n : Nat) (z : Int) : List UInt8 := Word.lowBytes n (Word.ofInt z)

def string (line : Nat) (args : List Char) : Except Error (List UInt8) :=
  match string? args with
  | some bs => .ok bs
  | none => .error ⟨line, .badString⟩

/-- The most bytes that one directive may leave free: the size of memory by default. -/
def maxSpace : Nat := ({} : Layout).size.toNat

def space (line : Nat) (args : List Char) : Except Error Nat := do
  match ← integers line args with
  | [z] =>
    if z < 0 then .error ⟨line, .badImmediate (Text.trim args)⟩
    else if maxSpace < z then .error ⟨line, .spaceTooLarge z⟩
    else .ok z.toNat
  | _ => .error ⟨line, .badImmediate (Text.trim args)⟩

def directive (line : Nat) (name args : List Char) : Except Error (List UInt8) :=
  if name = ".word".toList then (integers line args).map (·.flatMap (integerBytes 4))
  else if name = ".half".toList then (integers line args).map (·.flatMap (integerBytes 2))
  else if name = ".byte".toList then (integers line args).map (·.flatMap (integerBytes 1))
  else if name = ".ascii".toList then string line args
  else if name = ".asciiz".toList then (string line args).map (· ++ [0])
  else if name = ".space".toList then (space line args).map (List.replicate · 0)
  else .error ⟨line, .unknownDirective name⟩

def dataBytes (l : Line) : Except Error (List UInt8) :=
  let rest := (leadingLabels l.text).2
  if rest = [] then .ok []
  else
    match Text.splitAtFirst Text.isBlank rest with
    | (name, some args) => directive l.number name args
    | (name, none) => directive l.number name []

def dataWords (ls : List Line) : Except Error (List Word) := do
  let chunks ← ls.mapM dataBytes
  return (chunks.map (packOnto [])).flatten

end Mips.Assembly
