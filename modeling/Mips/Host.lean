import Mips.Host.Files
import Mips.Host.Input
import Mips.Host.Output
import Mips.Word

namespace Mips

structure Host where
  input : Input
  output : Output
  reports : Output := {}
  files : Files
  handles : Std.ExtTreeMap Word Handle := ∅
  /-- The descriptor of the next file that is opened. Those below three are the streams. -/
  nextDescriptor : Word := 3

namespace Host

def handle? (h : Host) (fd : Word) : Option Handle := h.handles[fd]?

def setHandle (h : Host) (fd : Word) (file : Handle) : Host :=
  { h with handles := h.handles.insert fd file }

def addHandle (h : Host) (file : Handle) : Word × Host :=
  (h.nextDescriptor,
    { h.setHandle h.nextDescriptor file with nextDescriptor := h.nextDescriptor.add 1 })

def dropHandle (h : Host) (fd : Word) : Host := { h with handles := h.handles.erase fd }

theorem handle?_setHandle (h : Host) (fd other : Word) (file : Handle) :
    (h.setHandle fd file).handle? other = if other = fd then some file else h.handle? other := by
  simp [handle?, setHandle, Std.ExtTreeMap.getElem?_insert, @eq_comm _ other fd]

theorem handle?_dropHandle (h : Host) (fd other : Word) :
    (h.dropHandle fd).handle? other = if other = fd then none else h.handle? other := by
  simp [handle?, dropHandle, Std.ExtTreeMap.getElem?_erase, @eq_comm _ other fd]

end Host
end Mips
