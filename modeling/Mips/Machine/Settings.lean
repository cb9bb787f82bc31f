import Mips.Cpu
import Mips.Json
import Mips.Memory

namespace Mips

structure Machine.Settings where
  layout : Layout := {}
  cpu : Cpu.Settings := {}
  stepLimit : Option Nat := none
  deriving DecidableEq, Repr

def Word.ofJson? (j : Json) : Option Word := (j.nat? 0x100000000).map Word.ofNat

def Layout.ofJson? (j : Json) : Option Layout :=
  match j.record? ["base", "size", "static_offset"] with
  | some [base, size, offset] => do
    let d : Layout := {}
    some ⟨← Json.orDefault Word.ofJson? d.base base, ← Json.orDefault Word.ofJson? d.size size,
      ← Json.orDefault Word.ofJson? d.dataOffset offset⟩
  | _ => none

def Cpu.Settings.ofJson? (j : Json) : Option Cpu.Settings :=
  match j.record? ["hardwired_zero", "initial_sp"] with
  | some [zero, sp] => do
    let d : Cpu.Settings := {}
    some ⟨← Json.orDefault Json.bool? d.hardwiredZero zero,
      ← Json.orDefault Word.ofJson? d.initialSp sp⟩
  | _ => none

def Machine.Settings.limit? : Json → Option (Option Nat)
  | .null => some none
  | j => (j.nat? 0x10000000000000000).map some

def Machine.Settings.ofJson? (j : Json) : Option Machine.Settings :=
  match j.record? ["layout", "cpu", "max_steps"] with
  | some [layout, cpu, limit] => do
    some ⟨← Json.orDefault Layout.ofJson? {} layout, ← Json.orDefault Cpu.Settings.ofJson? {} cpu,
      ← Json.orDefault limit? none limit⟩
  | _ => none

def Machine.Settings.ofText? (s : List Char) : Option Machine.Settings :=
  (Json.parse? s).bind ofJson?

end Mips
