import Mips.Assembly.Directive
import Mips.Assembly.Segments
import Mips.Assembly.Statement

/-!
The assembler. The data is encoded first, then the labels of the text get their addresses, and last
the instructions are encoded; the first error ends it.
-/
namespace Mips.Assembly

def textBase : Word := 0x00400000

def Segments.assemble (s : Segments) : Except Error Program := do
  let data ← dataWords s.data
  let symbols ← Symbols.ofLines s.text textBase
  let text ← textWords symbols textBase s.text
  return { data, text }

def Segments.ofLines (data text : List (List Char)) : Segments :=
  let number (ls : List (List Char)) : List Line := (Text.numbered ls).map fun (n, l) => ⟨n, l⟩
  ⟨number data, number text⟩

def assemble (s : List Char) : Except Error Program := do (← Segments.ofText s).assemble

end Mips.Assembly
