import Mips.Proofs.Assembly.Operands
import Mips.Proofs.Instruction.RoundTrip

namespace Mips.Assembly

open Register (ofToken?)

inductive Denotes (symbols : Symbols) (pc : Word) : List (List Char) → Instruction → Prop
  | alu {op a b c rd rs rt} (ha : ofToken? a = some rd) (hb : ofToken? b = some rs)
    (hc : ofToken? c = some rt) :
    Denotes symbols pc [(Op.alu op).name.toList, a, b, c] (.alu op rd rs rt)
  | aluImm {op a b c rt rs imm} (ha : ofToken? a = some rt) (hb : ofToken? b = some rs)
    (hc : GivesInteger 0x10000 c imm.toNat) :
    Denotes symbols pc [(Op.aluImm op).name.toList, a, b, c] (.aluImm op rt rs imm)
  | lui {a b rt imm} (ha : ofToken? a = some rt) (hb : GivesInteger 0x10000 b imm.toNat) :
    Denotes symbols pc [Op.lui.name.toList, a, b] (.lui rt imm)
  | shift {op a b c rd rt shamt} (ha : ofToken? a = some rd) (hb : ofToken? b = some rt)
    (hc : GivesInteger 32 c shamt.toNat) :
    Denotes symbols pc [(Op.shift op).name.toList, a, b, c] (.shift op rd rt shamt)
  | shiftVar {op a b c rd rt rs} (ha : ofToken? a = some rd) (hb : ofToken? b = some rt)
    (hc : ofToken? c = some rs) :
    Denotes symbols pc [(Op.shiftVar op).name.toList, a, b, c] (.shiftVar op rd rt rs)
  | mulDiv {op a b rs rt} (ha : ofToken? a = some rs) (hb : ofToken? b = some rt) :
    Denotes symbols pc [(Op.mulDiv op).name.toList, a, b] (.mulDiv op rs rt)
  | moveFrom {half a rd} (ha : ofToken? a = some rd) :
    Denotes symbols pc [(Op.moveFrom half).name.toList, a] (.moveFrom half rd)
  | moveTo {half a rs} (ha : ofToken? a = some rs) :
    Denotes symbols pc [(Op.moveTo half).name.toList, a] (.moveTo half rs)
  | count {op a b rd rs} (ha : ofToken? a = some rd) (hb : ofToken? b = some rs) :
    Denotes symbols pc [(Op.count op).name.toList, a, b] (.count op rd rs)
  | trap {rel a b rs rt} (ha : ofToken? a = some rs) (hb : ofToken? b = some rt) :
    Denotes symbols pc [(Op.trap rel).name.toList, a, b] (.trap rel rs rt)
  | trapImm {rel a b rs imm} (ha : ofToken? a = some rs)
    (hb : GivesInteger 0x10000 b imm.toNat) :
    Denotes symbols pc [(Op.trapImm rel).name.toList, a, b] (.trapImm rel rs imm)
  | breakpoint {a code} (ha : GivesInteger 0x100000 a code.toNat) :
    Denotes symbols pc [Op.breakpoint.name.toList, a] (.breakpoint code)
  | bareBreakpoint : Denotes symbols pc [Op.breakpoint.name.toList] (.breakpoint 0)
  | syscall : Denotes symbols pc [Op.syscall.name.toList] .syscall
  | jr {a rs} (ha : ofToken? a = some rs) : Denotes symbols pc [Op.jr.name.toList, a] (.jr rs)
  | jalr {a b rs rd} (ha : ofToken? a = some rs) (hb : ofToken? b = some rd) :
    Denotes symbols pc [Op.jalr.name.toList, a, b] (.jalr rd rs)
  | bareJalr {a rs} (ha : ofToken? a = some rs) :
    Denotes symbols pc [Op.jalr.name.toList, a] (.jalr Register.ra rs)
  | jump {op a target} (ha : GivesTarget symbols a target) :
    Denotes symbols pc [(Op.jump op).name.toList, a] (.jump op target)
  | branchPair {op a b c rs rt imm} (ha : ofToken? a = some rs) (hb : ofToken? b = some rt)
    (hc : GivesDistance symbols pc c imm) :
    Denotes symbols pc [(Op.branchPair op).name.toList, a, b, c] (.branchPair op rs rt imm)
  | branchZero {op a b rs imm} (ha : ofToken? a = some rs) (hb : GivesDistance symbols pc b imm) :
    Denotes symbols pc [(Op.branchZero op).name.toList, a, b] (.branchZero op rs imm)
  | load {op a b rt rs imm} (ha : ofToken? a = some rt) (hb : GivesMemory b rs imm) :
    Denotes symbols pc [(Op.load op).name.toList, a, b] (.load op rt rs imm)
  | store {op a b rt rs imm} (ha : ofToken? a = some rt) (hb : GivesMemory b rs imm) :
    Denotes symbols pc [(Op.store op).name.toList, a, b] (.store op rt rs imm)
  | nop : Denotes symbols pc [Mnemonic.nop.name.toList] .nop

theorem denotes_of_reads {p : Place} {o : Op} {ops : List (List Char)} {f : Fields}
    (reads : p.Reads o.shape ops f) :
    Denotes p.symbols p.pc (o.name.toList :: ops) (o.instruction f) := by
  cases o with
  | alu op =>
    cases reads with
    | rdRsRt ha hb hc => exact .alu ha hb hc
  | aluImm op =>
    cases reads with
    | rtRsImm ha hb hc => exact .aluImm ha hb hc
  | lui =>
    cases reads with
    | rtImm ha hb => exact .lui ha hb
  | shift op =>
    cases reads with
    | rdRtShamt ha hb hc => exact .shift ha hb hc
  | shiftVar op =>
    cases reads with
    | rdRtRs ha hb hc => exact .shiftVar ha hb hc
  | mulDiv op =>
    cases reads with
    | rsRt ha hb => exact .mulDiv ha hb
  | moveFrom half =>
    cases reads with
    | rd ha => exact .moveFrom ha
  | moveTo half =>
    cases reads with
    | rs ha => exact .moveTo ha
  | count op =>
    cases reads with
    | rdRs ha hb => exact .count ha hb
  | trap rel =>
    cases reads with
    | rsRt ha hb => exact .trap ha hb
  | trapImm rel =>
    cases reads with
    | rsImm ha hb => exact .trapImm ha hb
  | breakpoint =>
    cases reads with
    | code ha => exact .breakpoint ha
    | codeless => exact .bareBreakpoint
  | syscall =>
    cases reads with
    | empty => exact .syscall
  | jr =>
    cases reads with
    | rs ha => exact .jr ha
  | jalr =>
    cases reads with
    | rsRd ha hb => exact .jalr ha hb
    | rsRa ha => exact .bareJalr ha
  | jump op =>
    cases reads with
    | target ha => exact .jump ha
  | branchPair op =>
    cases reads with
    | rsRtLabel ha hb hc => exact .branchPair ha hb hc
  | branchZero op =>
    cases reads with
    | rsLabel ha hb => exact .branchZero ha hb
  | load op =>
    cases reads with
    | rtMem ha hb => exact .load ha hb
  | store op =>
    cases reads with
    | rtMem ha hb => exact .store ha hb

theorem lt_of_number? {name : List Char} {n : Nat} (h : Register.number? name = some n) :
    n < 32 := by
  have limited {ds : List Char} (h : Numeral.valueUpTo? 10 31 ds = some n) : n < 32 := by
    rw [Numeral.valueUpTo?_eq (by decide), Option.filter_eq_some_iff] at h
    have := h.2
    rw [decide_eq_true_eq] at this
    omega
  unfold Register.number? at h
  split at h <;> exact limited h

theorem toNat_lt_of_ofToken? {tok : List Char} {r : Register} (h : ofToken? tok = some r) :
    r.toNat < 32 := by
  unfold Register.ofToken? at h
  split at h
  · split at h
    · rename_i n numbered
      obtain rfl := Option.some.inj h
      have small := lt_of_number? numbered
      rwa [BitVec.toNat_ofNat, Nat.mod_eq_of_lt (by omega)]
    · split at h
      · obtain rfl := Option.some.inj h
        decide
      · obtain ⟨n, found, rfl⟩ := Option.map_eq_some_iff.mp h
        have small : n < Register.names.length := (List.idxOf?_eq_some_iff.mp found).1
        rw [Register.length_names] at small
        rwa [BitVec.toNat_ofNat, Nat.mod_eq_of_lt (by omega)]
  · cases h

theorem lt_of_givesInteger {size : Int} (positive : 0 < size) {tok : List Char} {n : Nat}
    (given : GivesInteger size tok n) : (n : Int) < size := by
  obtain ⟨z, _, residue⟩ := given
  rw [residue]
  exact Int.emod_lt_of_pos z positive

theorem lt_of_givesTarget {symbols : Symbols} {tok : List Char} {target : Word}
    (given : GivesTarget symbols tok target) : target.toNat < 0x4000000 := by
  rcases given with ⟨z, _, residue⟩ | ⟨_, addr, _, residue⟩ <;> omega

theorem fits_of_denotes {symbols : Symbols} {pc : Word} {toks : List (List Char)} {i : Instruction}
    (denotes : Denotes symbols pc toks i) : i.Fits := by
  have reg {tok : List Char} {r : Register} := @toNat_lt_of_ofToken? tok r
  cases denotes with
  | alu ha hb hc => exact ⟨reg ha, reg hb, reg hc⟩
  | aluImm ha hb _ => exact ⟨reg ha, reg hb⟩
  | lui ha _ => exact reg ha
  | shift ha hb hc =>
    have small := lt_of_givesInteger (by decide) hc
    exact ⟨reg ha, reg hb, by omega⟩
  | shiftVar ha hb hc => exact ⟨reg ha, reg hb, reg hc⟩
  | mulDiv ha hb => exact ⟨reg ha, reg hb⟩
  | moveFrom ha => exact reg ha
  | moveTo ha => exact reg ha
  | count ha hb => exact ⟨reg ha, reg hb⟩
  | trap ha hb => exact ⟨reg ha, reg hb⟩
  | trapImm ha _ => exact reg ha
  | breakpoint ha =>
    have small := lt_of_givesInteger (by decide) ha
    simp only [Instruction.Fits]
    omega
  | bareBreakpoint => exact (by decide : (0 : Word).toNat < 0x100000)
  | syscall => trivial
  | jr ha => exact reg ha
  | jalr ha hb => exact ⟨reg hb, reg ha⟩
  | bareJalr ha => exact ⟨by decide, reg ha⟩
  | jump ha => exact lt_of_givesTarget ha
  | branchPair ha hb _ => exact ⟨reg ha, reg hb⟩
  | branchZero ha _ => exact reg ha
  | load ha hb =>
    obtain ⟨_, _, _, _, base, _⟩ := hb
    exact ⟨reg ha, reg base⟩
  | store ha hb =>
    obtain ⟨_, _, _, _, base, _⟩ := hb
    exact ⟨reg ha, reg base⟩
  | nop => exact ⟨by decide, by decide, by decide⟩

theorem mem_all (m : Mnemonic) : m ∈ Mnemonic.all := by
  cases m with
  | op o => exact List.mem_append_left _ (List.mem_map_of_mem (Op.mem_all o))
  | nop => exact List.mem_append_right _ (by decide)
  | eret => exact List.mem_append_right _ (by decide)

theorem find?_name : ∀ m ∈ Mnemonic.all, Mnemonic.all.find? (·.name = m.name) = some m := by
  decide +kernel

theorem ofName?_name (m : Mnemonic) : Mnemonic.ofName? m.name.toList = some m := by
  rw [Mnemonic.ofName?, String.ofList_toList]
  exact find?_name m (mem_all m)

theorem name_of_ofName? {name : List Char} {m : Mnemonic} (h : Mnemonic.ofName? name = some m) :
    name = m.name.toList := by
  have same := List.find?_some h
  rw [decide_eq_true_eq] at same
  rw [same, String.toList_ofList]

theorem eq_of_name_eq {m n : Mnemonic} (same : m.name.toList = n.name.toList) : m = n := by
  have found := ofName?_name m
  rw [same, ofName?_name n] at found
  exact (Option.some.inj found).symm

theorem reads_of_denotes {p : Place} {toks : List (List Char)} {i : Instruction}
    (denotes : Denotes p.symbols p.pc toks i) :
    (∃ (o : Op) (ops : List (List Char)) (f : Fields), toks = o.name.toList :: ops ∧
      p.Reads o.shape ops f ∧ o.instruction f = i) ∨
      toks = [Mnemonic.nop.name.toList] ∧ i = .nop := by
  cases denotes with
  | @alu op _ _ _ _ _ _ ha hb hc => exact .inl ⟨.alu op, _, _, rfl, .rdRsRt ha hb hc, rfl⟩
  | @aluImm op _ _ _ _ _ _ ha hb hc => exact .inl ⟨.aluImm op, _, _, rfl, .rtRsImm ha hb hc, rfl⟩
  | lui ha hb => exact .inl ⟨.lui, _, _, rfl, .rtImm ha hb, rfl⟩
  | @shift op _ _ _ _ _ _ ha hb hc => exact .inl ⟨.shift op, _, _, rfl, .rdRtShamt ha hb hc, rfl⟩
  | @shiftVar op _ _ _ _ _ _ ha hb hc =>
    exact .inl ⟨.shiftVar op, _, _, rfl, .rdRtRs ha hb hc, rfl⟩
  | @mulDiv op _ _ _ _ ha hb => exact .inl ⟨.mulDiv op, _, _, rfl, .rsRt ha hb, rfl⟩
  | @moveFrom half _ _ ha => exact .inl ⟨.moveFrom half, _, _, rfl, .rd ha, rfl⟩
  | @moveTo half _ _ ha => exact .inl ⟨.moveTo half, _, _, rfl, .rs ha, rfl⟩
  | @count op _ _ _ _ ha hb => exact .inl ⟨.count op, _, _, rfl, .rdRs ha hb, rfl⟩
  | @trap rel _ _ _ _ ha hb => exact .inl ⟨.trap rel, _, _, rfl, .rsRt ha hb, rfl⟩
  | @trapImm rel _ _ _ _ ha hb => exact .inl ⟨.trapImm rel, _, _, rfl, .rsImm ha hb, rfl⟩
  | breakpoint ha => exact .inl ⟨.breakpoint, _, _, rfl, .code ha, rfl⟩
  | bareBreakpoint => exact .inl ⟨.breakpoint, _, _, rfl, .codeless, rfl⟩
  | syscall => exact .inl ⟨.syscall, _, _, rfl, .empty, rfl⟩
  | jr ha => exact .inl ⟨.jr, _, _, rfl, .rs ha, rfl⟩
  | jalr ha hb => exact .inl ⟨.jalr, _, _, rfl, .rsRd ha hb, rfl⟩
  | bareJalr ha => exact .inl ⟨.jalr, _, _, rfl, .rsRa ha, rfl⟩
  | @jump op _ _ ha => exact .inl ⟨.jump op, _, _, rfl, .target ha, rfl⟩
  | @branchPair op _ _ _ _ _ _ ha hb hc =>
    exact .inl ⟨.branchPair op, _, _, rfl, .rsRtLabel ha hb hc, rfl⟩
  | @branchZero op _ _ _ _ ha hb => exact .inl ⟨.branchZero op, _, _, rfl, .rsLabel ha hb, rfl⟩
  | @load op _ _ _ _ _ ha hb => exact .inl ⟨.load op, _, _, rfl, .rtMem ha hb, rfl⟩
  | @store op _ _ _ _ _ ha hb => exact .inl ⟨.store op, _, _, rfl, .rtMem ha hb, rfl⟩
  | nop => exact .inr ⟨rfl, rfl⟩

theorem mnemonicWord_of_denotes {p : Place} {toks : List (List Char)} {i : Instruction}
    (denotes : Denotes p.symbols p.pc toks i) :
    ∃ m ops, toks = m.name.toList :: ops ∧ mnemonicWord p m ops = .ok i.encode := by
  rcases reads_of_denotes denotes with ⟨o, ops, f, rfl, reads, rfl⟩ | ⟨rfl, rfl⟩
  · exact ⟨.op o, ops, rfl, map_eq_ok_iff.mpr ⟨f, operandFields_eq_ok_iff.mpr reads, rfl⟩⟩
  · exact ⟨.nop, [], rfl, rfl⟩

theorem lineWord_of_denotes {l : Line} {pc : Word} {symbols : Symbols} {i : Instruction}
    (denotes : Denotes symbols pc (tokens (leadingLabels l.text).2) i) :
    lineWord l pc symbols = .ok i.encode := by
  obtain ⟨m, ops, cut, made⟩ := mnemonicWord_of_denotes (p := ⟨l.number, pc, symbols⟩) denotes
  simp only [lineWord, cut, ofName?_name]
  exact made

theorem exists_mnemonic_of_lineWord {l : Line} {pc : Word} {symbols : Symbols} {w : Word}
    (encoded : lineWord l pc symbols = .ok w) :
    ∃ m ops, tokens (leadingLabels l.text).2 = m.name.toList :: ops ∧
      mnemonicWord ⟨l.number, pc, symbols⟩ m ops = .ok w := by
  unfold lineWord at encoded
  split at encoded
  · cases encoded
  · rename_i name ops cut
    split at encoded
    · cases encoded
    · rename_i m named
      exact ⟨m, ops, by rw [cut, name_of_ofName? named], encoded⟩

/-- The word of a line is decoded to the instruction that the line denotes; only the return from an
exception is no instruction. -/
theorem decode_lineWord {l : Line} {pc : Word} {symbols : Symbols} {w : Word}
    (encoded : lineWord l pc symbols = .ok w) :
    ∃ name ops, tokens (leadingLabels l.text).2 = name :: ops ∧
      (name ≠ "eret".toList →
        ∃ i, Instruction.decode w = some i ∧ Denotes symbols pc (name :: ops) i) ∧
      (name = "eret".toList → Instruction.decode w = none) := by
  obtain ⟨m, ops, cut, made⟩ := exists_mnemonic_of_lineWord encoded
  refine ⟨m.name.toList, ops, cut, ?_⟩
  obtain ⟨f, found, rfl⟩ := map_eq_ok_iff.mp made
  have reads := operandFields_eq_ok_iff.mp found
  cases m with
  | op o =>
    have denotes : Denotes symbols pc (o.name.toList :: ops) (o.instruction f) :=
      denotes_of_reads reads
    refine ⟨fun _ => ⟨_, Instruction.decode_encode (fits_of_denotes denotes), denotes⟩, ?_⟩
    intro isEret
    cases eq_of_name_eq (n := .eret) isEret
  | nop =>
    cases reads
    have denotes : Denotes symbols pc [Mnemonic.nop.name.toList] .nop := .nop
    refine ⟨fun _ => ⟨_, Instruction.decode_encode (fits_of_denotes denotes), denotes⟩, ?_⟩
    intro isEret
    cases eq_of_name_eq (n := .eret) isEret
  | eret =>
    have undecodable : Instruction.decode Mnemonic.eretWord = none := by decide
    exact ⟨fun other => absurd rfl other, fun _ => undecodable⟩

theorem decode_lineWord_load :
    lineWord ⟨1, "loop: lw $t0, -4($sp)".toList⟩ 0x00400000 {} =
        .ok (Instruction.load .lw 8 29 0xFFFC).encode ∧
      ∃ name ops, tokens (leadingLabels "loop: lw $t0, -4($sp)".toList).2 = name :: ops ∧
        (name ≠ "eret".toList →
          ∃ i, Instruction.decode (Instruction.load .lw 8 29 0xFFFC).encode = some i ∧
            Denotes {} 0x00400000 (name :: ops) i) ∧
        (name = "eret".toList →
          Instruction.decode (Instruction.load .lw 8 29 0xFFFC).encode = none) := by
  have cut : tokens (leadingLabels "loop: lw $t0, -4($sp)".toList).2 =
      [(Op.load .lw).name.toList, "$t0".toList, "-4($sp)".toList] := by decide +kernel
  have base : GivesMemory "-4($sp)".toList 29 0xFFFC :=
    ⟨"-4".toList, "$sp".toList, by decide, by decide, by decide,
      .inr ⟨by decide, -4, by decide, by decide⟩⟩
  have encoded : lineWord ⟨1, "loop: lw $t0, -4($sp)".toList⟩ 0x00400000 {} =
      .ok (Instruction.load .lw 8 29 0xFFFC).encode := by
    apply lineWord_of_denotes
    rw [cut]
    exact .load (by decide) base
  exact ⟨encoded, decode_lineWord encoded⟩

end Mips.Assembly
