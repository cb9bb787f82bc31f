import Mips.Process

/-!
The services of the system. A program puts the number of a service into `$v0` and its arguments into
`$a0` to `$a2`; an answer comes back in `$v0`. A failing file answers with a negative number, all
other failures stop the program.
-/
namespace Mips

inductive Service
  | printInt
  | printString
  | readInt
  | readString
  | sbrk
  | exit
  | printChar
  | readChar
  | openFile
  | readBlock
  | writeBlock
  | closeFile
  | exitWith
  deriving DecidableEq, Repr

def Service.ofNumber? (n : Nat) : Option Service :=
  match n with
  | 1 => some printInt
  | 4 => some printString
  | 5 => some readInt
  | 8 => some readString
  | 9 => some sbrk
  | 10 => some exit
  | 11 => some printChar
  | 12 => some readChar
  | 13 => some openFile
  | 14 => some readBlock
  | 15 => some writeBlock
  | 16 => some closeFile
  | 17 => some exitWith
  | _ => none

/-- The flags with which a file is opened. Other bits mean nothing. -/
structure OpenMode where
  writing : Bool
  appending : Bool
  deriving DecidableEq, Repr

namespace OpenMode

def ofWord (w : Word) : OpenMode := ⟨w.toNat % 2 == 1, w.toNat / 8 % 2 == 1⟩

def bits (f : OpenMode) : Nat := (if f.writing then 1 else 0) + (if f.appending then 8 else 0)

end OpenMode

inductive Reply
  | resume
  | exit (code : Int)
  | fault (t : Trap)
  deriving DecidableEq, Repr

namespace Process

def answer (p : Process) (z : Int) : Process × Reply :=
  (p.setReg Register.v0 (Word.ofInt z), .resume)

def busFault (p : Process) (addr : Word) (e : MemoryError) : Process × Reply :=
  (p, .fault (.bus addr e))

def streamFault (p : Process) (e : StreamError) : Process × Reply :=
  (p, .fault (.host (.stream e)))

def print (p : Process) (b : Block) : Except StreamError Unit × Process :=
  let (r, files, out) := p.host.output.write p.host.files b
  (r, { p with host := { p.host with files := files, output := out } })

def printAll (p : Process) (b : Block) : Process × Reply :=
  match p.print b with
  | (.ok _, p') => (p', .resume)
  | (.error e, p') => p'.streamFault e

/-- Prints a number, a minus sign as a block of its own. -/
def printInt (p : Process) (z : Int) : Process × Reply :=
  match p.print (.ofList (if z < 0 then Text.utf8 ['-'] else [])) with
  | (.ok _, p') => p'.printAll (.ofList (Text.utf8 (Numeral.decimal z.natAbs)))
  | (.error e, p') => p'.streamFault e

def printString (p : Process) (addr : Word) : Process × Reply :=
  match p.hart.mem.readString addr with
  | .error e => p.busFault addr e
  | .ok b => p.printAll b

def tokenValue (tok : List UInt8) : Except HostError Int :=
  let text := Text.ofUtf8Lossy tok
  (Numeral.int32 (Text.trim text)).mapError (HostError.badInteger text)

def readInt (p : Process) : Process × Reply :=
  match p.host.input.token p.host.files with
  | (.error e, i) => (p.setInput i).streamFault e
  | (.ok tok, i) =>
    match tokenValue tok with
    | .error e => (p.setInput i, .fault (.host e))
    | .ok z => (p.setInput i).answer z

/-- Reads a line into a buffer of `len` bytes, a zero behind it. The line is read before the buffer
is looked at. -/
def readString (p : Process) (addr : Word) (len : Int) : Process × Reply :=
  if len < 1 then (p, .resume)
  else
    match p.host.input.line p.host.files (len - 1).toNat with
    | (.error e, i) => (p.setInput i).streamFault e
    | (.ok bs, i) =>
      match p.hart.mem.write addr (bs ++ [0]) with
      | .error e => (p.setInput i).busFault addr e
      | .ok m => ((p.setInput i).setMemory m, .resume)

def sbrk (p : Process) (incr : Word) : Process × Reply :=
  (p.setMemory (p.hart.mem.grow incr)).answer p.hart.mem.heapEnd.toNat

def readChar (p : Process) : Process × Reply :=
  match p.host.input.next p.host.files with
  | (.error e, i) => (p.setInput i).streamFault e
  | (.ok none, i) => (p.setInput i).answer (-1)
  | (.ok (some b), i) => (p.setInput i).answer b.toNat

/-- Opens a file and answers its descriptor. What stands for ill-formed bytes in a path is no
shorter than they are, so a path is too long if its bytes are too many. -/
def openFile (p : Process) (name flags mode : Word) : Process × Reply :=
  match p.hart.mem.readString name with
  | .error e => p.busFault name e
  | .ok b =>
    if Files.maxPath < b.size then p.answer Errno.nameTooLong.answer
    else
      let path := Text.ofUtf8Lossy b.toList
      let f := OpenMode.ofWord flags
      let opened :=
        if f.writing then p.host.files.openWrite path f.appending mode.toNat
        else (p.host.files.openRead path).map (·, p.host.files)
      match opened with
      | .error e => p.answer e.answer
      | .ok (handle, files) =>
        let (fd, host) := { p.host with files := files }.addHandle handle
        { p with host := host }.answer fd.toNat

def deliver (p : Process) (addr : Word) (b : Block) : Process × Reply :=
  match p.hart.mem.writeBlock addr b with
  | .error e => p.busFault addr e
  | .ok m => (p.setMemory m).answer b.size

/-- Reads a block from the input or an open file. The whole buffer must lie in memory. -/
def readBlock (p : Process) (fd addr len : Word) : Process × Reply :=
  match p.hart.mem.offset? addr len.toNat with
  | .error e => p.busFault addr e
  | .ok _ =>
    if fd = 0 then
      match p.host.input.read p.host.files len.toNat with
      | (.error e, i) => (p.setInput i).answer e.answer
      | (.ok b, i) => (p.setInput i).deliver addr b
    else
      match p.host.handle? fd with
      | none => p.answer Errno.badDescriptor.answer
      | some handle =>
        match p.host.files.read handle len.toNat with
        | .error e => p.answer e.answer
        | .ok (b, handle') => { p with host := p.host.setHandle fd handle' }.deliver addr b

def writeBlock (p : Process) (fd addr len : Word) : Process × Reply :=
  match p.hart.mem.read addr len.toNat with
  | .error e => p.busFault addr e
  | .ok b =>
    if fd = 1 then
      match p.print b with
      | (.ok _, p') => p'.answer len.toNat
      | (.error e, p') => p'.streamFault e
    else if fd = 2 then
      { p with host := { p.host with reports := p.host.reports.append b } }.answer len.toNat
    else
      match p.host.handle? fd with
      | none => p.answer Errno.badDescriptor.answer
      | some handle =>
        match p.host.files.write handle b with
        | .error e => p.answer e.answer
        | .ok (files, handle') =>
          { p with host := { p.host with files := files }.setHandle fd handle' }.answer len.toNat

/-- Closes a descriptor. Closing a stream does nothing. -/
def closeFile (p : Process) (fd : Word) : Process × Reply :=
  if fd.toNat < 3 then p.answer 0
  else
    match p.host.handle? fd with
    | none => p.answer Errno.badDescriptor.answer
    | some _ => { p with host := p.host.dropHandle fd }.answer 0

def perform (p : Process) (s : Service) : Process × Reply :=
  let a0 := p.reg Register.a0
  let a1 := p.reg Register.a1
  let a2 := p.reg Register.a2
  match s with
  | .printInt => p.printInt a0.signed
  | .printString => p.printString a0
  | .readInt => p.readInt
  | .readString => p.readString a0 a1.signed
  | .sbrk => p.sbrk a0
  | .exit => (p, .exit 0)
  | .printChar => p.printAll (.ofList [UInt8.ofNat a0.toNat])
  | .readChar => p.readChar
  | .openFile => p.openFile a0 a1 a2
  | .readBlock => p.readBlock a0 a1 a2
  | .writeBlock => p.writeBlock a0 a1 a2
  | .closeFile => p.closeFile a0
  | .exitWith => (p, .exit a0.signed)

def serve (p : Process) : Process × Reply :=
  match Service.ofNumber? (p.reg Register.v0).toNat with
  | none => (p, .fault (.unknownService (p.reg Register.v0)))
  | some s => p.perform s

end Process
end Mips
