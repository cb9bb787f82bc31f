import Mips.Memory

namespace Mips

inductive Segment
  | data
  | text
  deriving DecidableEq, Repr

structure Program where
  data : List Word := []
  text : List Word := []
  deriving DecidableEq, Repr

namespace Program

def cons (p : Program) (seg : Segment) (w : Word) : Program :=
  match seg with
  | .data => { p with data := w :: p.data }
  | .text => { p with text := w :: p.text }

/-- Places the instructions, then the data. What was placed before a refusal stays. -/
def placeIn (p : Program) (m : Memory) : Memory × Option MemoryError :=
  match m.placeText p.text with
  | .error e => (m, some e)
  | .ok m₁ =>
    match m₁.placeData p.data with
    | .error e => (m₁, some e)
    | .ok m₂ => (m₂, none)

end Program
end Mips
