import Mips.Proofs.Memory.Operations
import Mips.Proofs.Text.Bytes
import Mips.Service

namespace Mips

theorem Text.zero_not_mem_utf8 {s : List Char} (terminated : '\x00' ∉ s) : 0 ∉ Text.utf8 s := by
  intro there
  obtain ⟨c, within, zero⟩ := exists_of_mem_utf8 there (by decide)
  have same : c = '\x00' := by rw [← Char.ofNat_toNat c, zero]; rfl
  exact terminated (same ▸ within)

namespace Contents

theorem fetch_of_fetch_append {c : Contents} {off : Nat} {a x z : List UInt8}
    (all : c.fetch off (a ++ (x ++ z)).length = a ++ (x ++ z)) :
    c.fetch (off + a.length) x.length = x := by
  rw [List.length_append, List.length_append, fetch_add, fetch_add] at all
  have rest := (List.append_inj all (length_fetch ..)).2
  exact (List.append_inj rest (length_fetch ..)).1

end Contents

namespace Memory

theorem exists_readString {m : Memory} {addr : Word} {off : Nat} {bs : List UInt8}
    (backed : m.offset? addr 0 = .ok off) (within : off + bs.length < m.layout.size.toNat)
    (bytes : m.contents.fetch off (bs.length + 1) = bs ++ [0]) (zeroless : 0 ∉ bs) :
    ∃ b, m.readString addr = .ok b ∧ b.toList = bs := by
  have whole : m.contents.fetch off (bs.length + 1) =
      m.contents.fetch off bs.length ++ m.contents.fetch (off + bs.length) 1 :=
    Contents.fetch_add ..
  rw [whole] at bytes
  obtain ⟨string, zero⟩ := List.append_inj bytes (Contents.length_fetch ..)
  have ends : m.contents.byteAt (off + bs.length) = 0 := by
    rw [Contents.fetch_eq] at zero
    exact (List.cons.inj zero).1
  have stop : m.contents.firstZero? off (m.layout.size.toNat - off) = some (off + bs.length) := by
    refine Contents.firstZero?_eq_some_iff.mpr ⟨by omega, by omega, ends, fun k before behind => ?_⟩
    intro found
    apply zeroless
    rw [← string, Contents.fetch_eq, ← found]
    exact List.mem_map_of_mem (List.mem_range'_1.mpr ⟨before, behind⟩)
  refine ⟨⟨m.contents, off, bs.length⟩, ?_, string⟩
  rw [readString, backed]
  simp only [Except.bind, stop, Nat.add_sub_cancel_left]

end Memory

namespace Process

/-- A process whose call prints these bytes, as many of them as the output takes, and comes back
unless the output has a limit or a file. -/
structure Prints (p : Process) (bs : List UInt8) : Prop where
  block : ∃ b, p.serve = p.printAll b ∧ b.toList = bs
  written : p.serve.1.host.output.written =
    p.host.output.written ++ bs.take (p.host.output.room.getD bs.length)
  resumes : p.host.output.room = none → p.host.output.outlet = none → p.serve.2 = .resume

theorem prints_of_readString {p : Process} {b : Block}
    (service : (p.reg Register.v0).toNat = 4)
    (read : p.hart.mem.readString (p.reg Register.a0) = .ok b) : p.Prints b.toList := by
  have called : p.serve = p.printAll b := by
    rw [serve, service]
    simp only [Service.ofNumber?, perform, printString, read]
  have size := b.length_toList
  refine ⟨⟨b, called, rfl⟩, ?_, ?_⟩
  · have grown := Output.written_write p.host.files p.host.output b
    rw [called, size, ← grown, printAll]
    split
    · rename_i printed
      exact congrArg (·.2.host.output.written) printed.symm
    · rename_i printed
      exact congrArg (·.2.host.output.written) printed.symm
  · intro unlimited unfiled
    have wrote : (p.print b).1 = .ok () := by
      simp [print, Output.write, Output.append, Output.give, Block.take, unlimited, unfiled]
    rw [called, printAll]
    split
    · rfl
    · rename_i printed
      rw [printed] at wrote
      cases wrote

end Process

end Mips
