import Mips.Proofs.Instruction.Registers
import Mips.Proofs.Machine.Marks

namespace Mips

theorem Register.eq_of_index_eq {r s : Register} (hr : r.toNat < 32) (hs : s.toNat < 32)
    (same : r.index = s.index) : r = s := by
  apply BitVec.eq_of_toNat_eq
  have place : r.toNat % 32 = s.toNat % 32 := congrArg Fin.val same
  rwa [Nat.mod_eq_of_lt hr, Nat.mod_eq_of_lt hs] at place

/-- A processor that differs from another in one register at most, written as that register is, and
in no setting. -/
structure Cpu.Writes (c : Cpu) (dest : Option Register) (c' : Cpu) : Prop where
  settings : c'.settings = c.settings
  gpr : c'.gpr = c.gpr ∨ ∃ r ∈ dest, ∃ w, c'.gpr = (c.write r w).gpr

namespace Cpu

variable {c c' : Cpu} {dest : Option Register}

theorem settings_write (c : Cpu) (r : Register) (w : Word) :
    (c.write r w).settings = c.settings := by
  unfold write
  split <;> rfl

theorem write_eq (c : Cpu) (r : Register) (w : Word) :
    c.write r w = { c with gpr := (c.write r w).gpr } := by
  unfold write
  split <;> rfl

theorem read_congr {c : Cpu} {r s : Register} (place : r.index = s.index) :
    c.read r = c.read s := by
  simp only [read, place]

theorem gpr_eq_of_read {c c' : Cpu} (same : ∀ r : Register, c.read r = c'.read r) :
    c.gpr = c'.gpr := by
  apply Vector.ext
  intro n small
  have place : Register.index (BitVec.ofNat 8 n) = ⟨n, small⟩ := by
    apply Fin.ext
    simp only [Register.index, BitVec.toNat_ofNat]
    omega
  have entry := same (BitVec.ofNat 8 n)
  simp only [read, place] at entry
  exact entry

theorem Writes.read_eq (writes : Writes c dest c') (small : ∀ r ∈ dest, r.toNat < 32)
    {r : Register} (hr : r.toNat < 32) (apart : r ∈ dest → c.Discards r) :
    c'.read r = c.read r := by
  obtain same | ⟨d, among, w, same⟩ := writes.gpr
  · rw [read, read, same]
  · have kept : (c.write d w).read r = c.read r := by
      rw [read_write, if_pos]
      by_cases place : d.index = r.index
      · obtain rfl := Register.eq_of_index_eq (small d among) hr place
        exact .inl (apart among)
      · exact .inr place
    rw [← kept, read, read, same]

theorem Writes.refl (c : Cpu) (dest : Option Register) : Writes c dest c := ⟨rfl, .inl rfl⟩

theorem writes_write (c : Cpu) (r : Register) (w : Word) : Writes c (some r) (c.write r w) :=
  ⟨settings_write c r w, .inr ⟨r, rfl, w, rfl⟩⟩

theorem Writes.of_same {c₁ : Cpu} (writes : Writes c dest c₁) (gpr : c'.gpr = c₁.gpr)
    (settings : c'.settings = c₁.settings) : Writes c dest c' := by
  refine ⟨settings.trans writes.settings, ?_⟩
  rw [gpr]
  exact writes.gpr

end Cpu

open Cpu (Writes)

namespace Hart

theorem writes_link (h : Hart) (links : Bool) :
    Writes h.cpu (if links then some Register.ra else none) (h.link links).cpu := by
  cases links with
  | true => exact Cpu.writes_write h.cpu Register.ra h.cpu.pc
  | false => exact .refl h.cpu none

theorem gpr_branch (h : Hart) (taken : Bool) (imm : BitVec 16) :
    (h.branch taken imm).cpu.gpr = h.cpu.gpr ∧
      (h.branch taken imm).cpu.settings = h.cpu.settings := by
  cases taken <;> exact ⟨rfl, rfl⟩

theorem writes_attempt {h : Hart} {dest : Option Register} {x : Except Trap Hart}
    (done : ∀ h', x = .ok h' → Writes h.cpu dest h'.cpu) :
    Writes h.cpu dest (h.attempt x).1.cpu := by
  cases x with
  | error t => exact .refl h.cpu dest
  | ok h' => exact done h' rfl

theorem cpu_of_storeAt {h h' : Hart} {addr : Word} {width : Nat} {w : Word}
    (stored : h.storeAt addr width w = .ok h') : h'.cpu = h.cpu := by
  unfold storeAt at stored
  split at stored
  · obtain ⟨m, _, rfl⟩ := map_eq_ok_iff.mp stored
    rfl
  · cases stored

theorem writes_of_store {h h' : Hart} {op : Store} {rt : Register} {addr : Word}
    (stored : h.store op rt addr = .ok h') :
    Writes h.cpu (if op = .sc then some rt else none) h'.cpu := by
  obtain ⟨w, _, stored⟩ := bind_eq_ok_iff.mp stored
  obtain ⟨h₁, written, rfl⟩ := map_eq_ok_iff.mp stored
  have same := cpu_of_storeAt written
  split
  · rw [← same]
    exact Cpu.writes_write h₁.cpu rt 1
  · rw [same]
    exact .refl h.cpu none

/-- An instruction writes its destination, if it has one, and no other register. -/
theorem writes_exec (h : Hart) (i : Instruction) :
    Writes h.cpu i.destination? (h.exec i).1.cpu := by
  cases i with
  | alu op rd rs rt =>
    unfold exec
    dsimp only
    split
    · exact Cpu.writes_write h.cpu rd _
    · exact .refl h.cpu _
  | aluImm op rt rs imm =>
    unfold exec
    dsimp only
    split
    · exact Cpu.writes_write h.cpu rt _
    · exact .refl h.cpu _
  | moveFrom half rd => cases half <;> exact Cpu.writes_write h.cpu rd _
  | moveTo half rs => cases half <;> exact ⟨rfl, .inl rfl⟩
  | lui rt imm => exact Cpu.writes_write h.cpu rt _
  | shift op rd rt shamt => exact Cpu.writes_write h.cpu rd _
  | shiftVar op rd rt rs => exact Cpu.writes_write h.cpu rd _
  | count op rd rs => exact Cpu.writes_write h.cpu rd _
  | jalr rd rs => exact (Cpu.writes_write h.cpu rd h.cpu.pc).of_same rfl rfl
  | jump op target => exact (h.writes_link op.links).of_same rfl rfl
  | branchPair op rs rt imm =>
    obtain ⟨gpr, settings⟩ := h.gpr_branch (op.taken (h.cpu.read rs) (h.cpu.read rt)) imm
    exact ⟨settings, .inl gpr⟩
  | branchZero op rs imm =>
    obtain ⟨gpr, settings⟩ := (h.link op.links).gpr_branch (op.taken (h.cpu.read rs)) imm
    exact (h.writes_link op.links).of_same gpr settings
  | load op rt rs imm =>
    apply writes_attempt
    intro h' loaded
    obtain ⟨w, _, rfl⟩ := map_eq_ok_iff.mp loaded
    exact Cpu.writes_write h.cpu rt _
  | store op rt rs imm => exact writes_attempt fun h' stored => writes_of_store stored
  | mulDiv | trap | trapImm | breakpoint | syscall | jr => exact ⟨rfl, .inl rfl⟩

/-- An instruction succeeds, and all that it does is to put a word into a register. -/
structure Puts (h : Hart) (i : Instruction) (dest : Register) (w : Word) : Prop where
  quiet : (h.exec i).2 = none
  value : ¬h.cpu.Discards dest → (h.exec i).1.cpu.read dest = w
  others : ∀ r : Register, (r.index = dest.index → h.cpu.Discards dest) →
    (h.exec i).1.cpu.read r = h.cpu.read r
  rest : (h.exec i).1 = { h with cpu := { h.cpu with gpr := (h.exec i).1.cpu.gpr } }

theorem puts_iff {h : Hart} {i : Instruction} {dest : Register} {w : Word} :
    h.Puts i dest w ↔ h.exec i = (h.write dest w, none) := by
  constructor
  · rintro ⟨quiet, value, others, rest⟩
    have written : (h.exec i).1.cpu.gpr = (h.cpu.write dest w).gpr := by
      apply Cpu.gpr_eq_of_read
      intro r
      rw [Cpu.read_write]
      split
      · rename_i apart
        exact others r fun place => apart.resolve_right (not_not_intro place.symm)
      · rename_i there
        obtain ⟨kept, place⟩ := not_or.mp there
        rw [← value kept, Cpu.read_congr (Decidable.not_not.mp place)]
    rw [written, ← Cpu.write_eq] at rest
    exact Prod.ext rest quiet
  · intro done
    constructor
    · rw [done]
    · intro kept
      rw [done]
      exact h.cpu.read_write_self kept w
    · intro r apart
      rw [done]
      refine (h.cpu.read_write dest r w).trans (if_pos ?_)
      by_cases place : r.index = dest.index
      · exact .inl (apart place)
      · exact .inr (Ne.symm place)
    · rw [done]
      exact congrArg (Hart.mk · h.mem) (h.cpu.write_eq dest w)

end Hart

end Mips
