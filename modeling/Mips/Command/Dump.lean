import Mips.Cpu

namespace Mips.Cpu

def dumpWord (w : Word) : String := String.ofList (Numeral.decimal w.toNat)

def dumpLines (c : Cpu) : List String :=
  ["\x7b", s!"  \"pc\": {dumpWord c.pc},", "  \"gpr\": ["] ++
  c.gpr.toList.dropLast.map (fun w => s!"    {dumpWord w},") ++
  (c.gpr.toList.drop 31).map (fun w => s!"    {dumpWord w}") ++
  ["  ],", s!"  \"hi\": {dumpWord c.hi},", s!"  \"lo\": {dumpWord c.lo},", "  \"cfg\": \x7b",
    s!"    \"hardwired_zero\": {c.settings.hardwiredZero},",
    s!"    \"initial_sp\": {dumpWord c.settings.initialSp}", "  \x7d", "\x7d"]

def dump (c : Cpu) : String := String.join (c.dumpLines.map (· ++ "\n"))

end Mips.Cpu
