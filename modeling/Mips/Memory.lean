import Mips.Block
import Mips.Numeral
import Mips.Word.Bytes

namespace Mips

/-- Where memory lies: its first address, its size, and how far behind the text the static data
begins. -/
structure Layout where
  base : Word := 0x00400000
  size : Word := 0x00600000
  dataOffset : Word := 0x00100000
  deriving DecidableEq, Repr

namespace Layout

def textBase (l : Layout) : Word := l.base

def dataBase (l : Layout) : Word := l.base + l.dataOffset

def stackTop (l : Layout) : Word := l.base + l.size

end Layout

inductive MemoryError
  | below (addr : Word)
  | beyond (addr : Word)
  | unterminated (addr : Word)
  | textTooLong (bytes : Nat)
  deriving DecidableEq, Repr

def MemoryError.message : MemoryError → String
  | below addr => s!"address {String.ofList (Numeral.hex8 addr.toNat)} below simulated memory"
  | beyond addr => s!"address {String.ofList (Numeral.hex8 addr.toNat)} beyond simulated memory"
  | unterminated addr => s!"unterminated string at {String.ofList (Numeral.hex8 addr.toNat)}"
  | textTooLong bytes => s!"text segment of {bytes} bytes overlaps static data"

structure Memory where
  layout : Layout
  contents : Contents
  textEnd : Word
  dataEnd : Word
  heapEnd : Word

namespace Memory

structure Marks where
  textEnd : Word
  dataEnd : Word
  heapEnd : Word
  deriving DecidableEq

def empty (l : Layout) : Memory where
  layout := l
  contents := ∅
  textEnd := l.textBase
  dataEnd := l.dataBase
  heapEnd := l.dataBase

def marks (m : Memory) : Marks := ⟨m.textEnd, m.dataEnd, m.heapEnd⟩

def byteAt (m : Memory) (off : Nat) : UInt8 := m.contents.byteAt off

/-- The offset of `len` bytes that begin at an address, if memory backs all of them. -/
@[inline] def offset? (m : Memory) (addr : Word) (len : Nat) : Except MemoryError Nat :=
  if addr.toNat < m.layout.base.toNat then .error (.below addr)
  else if addr.toNat - m.layout.base.toNat + len ≤ m.layout.size.toNat then
    .ok (addr.toNat - m.layout.base.toNat)
  else .error (.beyond addr)

def read (m : Memory) (addr : Word) (len : Nat) : Except MemoryError Block :=
  (m.offset? addr len).map fun off => ⟨m.contents, off, len⟩

def write (m : Memory) (addr : Word) (bs : List UInt8) : Except MemoryError Memory :=
  (m.offset? addr bs.length).map fun off => { m with contents := m.contents.write off bs }

def writeBlock (m : Memory) (addr : Word) (b : Block) : Except MemoryError Memory :=
  (m.offset? addr b.size).map fun off =>
    { m with contents := m.contents.copy off b.contents b.start b.size }

/-- The number that the `width` bytes from an address on spell, with no demand on alignment. -/
@[inline] def readWord (m : Memory) (addr : Word) (width : Nat) : Except MemoryError Word :=
  (m.offset? addr width).map fun off => Word.ofNat (m.contents.number off width)

def writeWord (m : Memory) (addr : Word) (width : Nat) (w : Word) : Except MemoryError Memory :=
  m.write addr (Word.lowBytes width w)

def readString (m : Memory) (addr : Word) : Except MemoryError Block :=
  (m.offset? addr 0).bind fun off =>
    match m.contents.firstZero? off (m.layout.size.toNat - off) with
    | some stop => .ok ⟨m.contents, off, stop - off⟩
    | none => .error (.unterminated addr)

@[inline] def isText (m : Memory) (pc : Word) : Bool :=
  m.layout.textBase.toNat ≤ pc.toNat && pc.toNat < m.textEnd.toNat

/-- Places instructions from the start of memory on. They may not reach the static data. -/
def placeText (m : Memory) (text : List Word) : Except MemoryError Memory :=
  if m.layout.dataOffset.toNat < 4 * text.length then .error (.textTooLong (4 * text.length))
  else
    (m.write m.layout.textBase (text.flatMap Word.bytes)).map fun m' =>
      { m' with textEnd := m.layout.textBase + Word.ofNat (4 * text.length) }

def placeData (m : Memory) (data : List Word) : Except MemoryError Memory :=
  (m.write m.layout.dataBase (data.flatMap Word.bytes)).map fun m' =>
    let stop := m.layout.dataBase + Word.ofNat (4 * data.length)
    { m' with dataEnd := stop, heapEnd := stop }

/-- The end of the heap after growth. It stops at the last address and never moves down. -/
def grown (m : Memory) (incr : Word) : Word :=
  Word.ofNat (min 0xFFFFFFFF (m.heapEnd.toNat + incr.signed.toNat))

def grow (m : Memory) (incr : Word) : Memory := { m with heapEnd := m.grown incr }

theorem readWord_eq (m : Memory) (addr : Word) (width : Nat) :
    m.readWord addr width = (m.read addr width).map fun b => Word.ofBytes b.toList := by
  unfold readWord read
  cases m.offset? addr width with
  | error e => rfl
  | ok off => exact congrArg (Except.ok <| Word.ofNat ·) (m.contents.number_eq off width)

end Memory
end Mips
