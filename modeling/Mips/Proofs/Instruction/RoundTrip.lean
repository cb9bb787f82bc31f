import Mips.Instruction.Encoding

namespace Mips

namespace Word

theorem toNat_fields_rs (w : Word) : (fields w).rs.toNat = w.toNat >>> 21 % 32 := rfl

theorem toNat_fields_rt (w : Word) : (fields w).rt.toNat = w.toNat >>> 16 % 32 := rfl

theorem toNat_fields_rd (w : Word) : (fields w).rd.toNat = w.toNat >>> 11 % 32 := rfl

theorem toNat_fields_shamt (w : Word) : (fields w).shamt.toNat = w.toNat >>> 6 % 32 := rfl

theorem toNat_fields_imm (w : Word) : (fields w).imm.toNat = w.toNat % 0x10000 := rfl

theorem toNat_fields_target (w : Word) : (fields w).target.toNat = w.toNat % 0x4000000 := rfl

theorem toNat_fields_code (w : Word) : (fields w).code.toNat = w.toNat >>> 6 % 0x100000 := rfl

end Word

namespace Code

def SelectsRegisters : Code → Prop
  | special f => f < 64 ∧ f ≠ 12
  | special2 f => f < 64
  | _ => False

def SelectsImmediate : Code → Prop
  | regimm t => t < 32
  | primary o => o < 64 ∧ o ≠ specialOpcode ∧ o ≠ special2Opcode ∧ o ≠ regimmOpcode
  | _ => False

instance (c : Code) : Decidable c.SelectsRegisters :=
  match c with
  | special _ => inferInstanceAs (Decidable (_ ∧ _))
  | special2 _ => inferInstanceAs (Decidable (_ < _))
  | whole _ | regimm _ | primary _ => .isFalse id

instance (c : Code) : Decidable c.SelectsImmediate :=
  match c with
  | regimm _ => inferInstanceAs (Decidable (_ < _))
  | primary _ => inferInstanceAs (Decidable (_ ∧ _))
  | whole _ | special _ | special2 _ => .isFalse id

theorem ofWord_special {w : Word} (op : Word.opcode w = specialOpcode)
    (other : Word.funct w ≠ 12) : ofWord w = special (Word.funct w) := by
  have call : w ≠ callWord := by
    intro h
    subst h
    exact other rfl
  rw [ofWord, if_neg call, if_pos op]

theorem ofWord_special2 {w : Word} (op : Word.opcode w = special2Opcode) :
    ofWord w = special2 (Word.funct w) := by
  have call : w ≠ callWord := by
    intro h
    subst h
    cases op
  rw [ofWord, if_neg call, if_neg (by rw [op]; decide), if_pos op]

theorem ofWord_regimm {w : Word} (op : Word.opcode w = regimmOpcode) :
    ofWord w = regimm (w.toNat >>> 16 % 32) := by
  have call : w ≠ callWord := by
    intro h
    subst h
    cases op
  rw [ofWord, if_neg call, if_neg (by rw [op]; decide), if_neg (by rw [op]; decide), if_pos op]

theorem ofWord_primary {w : Word} (special : Word.opcode w ≠ specialOpcode)
    (special2 : Word.opcode w ≠ special2Opcode) (regimm : Word.opcode w ≠ regimmOpcode) :
    ofWord w = primary (Word.opcode w) := by
  have call : w ≠ callWord := by
    intro h
    subst h
    exact special rfl
  rw [ofWord, if_neg call, if_neg special, if_neg special2, if_neg regimm]

theorem bits_special (f : Nat) : (special f).bits = f := by
  show specialOpcode <<< 26 + f = f
  rw [specialOpcode]
  omega

theorem bits_special2 (f : Nat) : (special2 f).bits = 0x70000000 + f := rfl

theorem bits_regimm (t : Nat) : (regimm t).bits = 0x4000000 + t * 0x10000 := by
  show regimmOpcode <<< 26 + t <<< 16 = 0x4000000 + t * 0x10000
  rw [regimmOpcode]
  omega

theorem bits_primary (o : Nat) : (primary o).bits = o * 0x4000000 := by
  show o <<< 26 = o * 0x4000000
  omega

theorem bits_of_selectsRegisters {c : Code} (selects : c.SelectsRegisters) :
    c.bits < 0x70000040 ∧ c.bits % 0x4000000 < 64 := by
  cases c with
  | special f =>
    obtain ⟨small, _⟩ := selects
    rw [bits_special]
    omega
  | special2 f =>
    have small : f < 64 := selects
    rw [bits_special2]
    omega
  | whole | regimm | primary => exact selects.elim

theorem bits_of_selectsImmediate {c : Code} (selects : c.SelectsImmediate) :
    c.bits ≤ 0xFC000000 ∧ c.bits % 0x4000000 ≤ 0x1F0000 ∧ c.bits % 0x10000 = 0 ∧
      ((∀ t, c ≠ regimm t) → c.bits % 0x4000000 = 0) := by
  cases c with
  | regimm t =>
    have small : t < 32 := selects
    rw [bits_regimm]
    exact ⟨by omega, by omega, by omega, fun other => absurd rfl (other t)⟩
  | primary o =>
    obtain ⟨small, _⟩ := selects
    rw [bits_primary]
    exact ⟨by omega, by omega, by omega, fun _ => by omega⟩
  | whole | special | special2 => exact selects.elim

end Code

namespace Instruction

theorem decode_of_code {w : Word} {o : Op} (found : Code.ofWord w = o.code) :
    decode w = some (o.instruction (Word.fields w)) := by
  rw [decode, found, Op.ofCode?_code]
  rfl

theorem toNat_registerWord {o : Op} (selects : o.code.SelectsRegisters) (rs rt rd : Register)
    (shamt : BitVec 8) :
    (registerWord o rs rt rd shamt).toNat = o.code.bits + rs.toNat % 32 * 0x200000 +
      rt.toNat % 32 * 0x10000 + rd.toNat % 32 * 0x800 + shamt.toNat % 32 * 0x40 := by
  obtain ⟨small, _⟩ := Code.bits_of_selectsRegisters selects
  simp only [registerWord, Word.ofNat_eq, BitVec.toNat_ofNat]
  omega

theorem code_registerWord {o : Op} (selects : o.code.SelectsRegisters) (rs rt rd : Register)
    (shamt : BitVec 8) : Code.ofWord (registerWord o rs rt rd shamt) = o.code := by
  have value := toNat_registerWord selects rs rt rd shamt
  cases code : o.code with
  | special f =>
    rw [code] at selects value
    obtain ⟨small, other⟩ := selects
    rw [Code.bits_special] at value
    have funct : Word.funct (registerWord o rs rt rd shamt) = f := by
      rw [Word.funct, value]
      omega
    have opcode : Word.opcode (registerWord o rs rt rd shamt) = Code.specialOpcode := by
      rw [Word.opcode, value, Code.specialOpcode]
      omega
    rw [Code.ofWord_special opcode (by rw [funct]; exact other), funct]
  | special2 f =>
    rw [code] at selects value
    have small : f < 64 := selects
    rw [Code.bits_special2] at value
    have funct : Word.funct (registerWord o rs rt rd shamt) = f := by
      rw [Word.funct, value]
      omega
    have opcode : Word.opcode (registerWord o rs rt rd shamt) = Code.special2Opcode := by
      rw [Word.opcode, value, Code.special2Opcode]
      omega
    rw [Code.ofWord_special2 opcode, funct]
  | whole | regimm | primary =>
    rw [code] at selects
    exact selects.elim

theorem decode_registerWord {o : Op} (selects : o.code.SelectsRegisters) (rs rt rd : Register)
    (shamt : BitVec 8) (hs : rs.toNat < 32) (ht : rt.toNat < 32) (hd : rd.toNat < 32)
    (ha : shamt.toNat < 32) :
    ∃ f : Fields, decode (registerWord o rs rt rd shamt) = some (o.instruction f) ∧
      f.rs = rs ∧ f.rt = rt ∧ f.rd = rd ∧ f.shamt = shamt := by
  have value := toNat_registerWord selects rs rt rd shamt
  obtain ⟨_, low⟩ := Code.bits_of_selectsRegisters selects
  refine ⟨_, decode_of_code (code_registerWord selects rs rt rd shamt), ?_, ?_, ?_, ?_⟩
  · apply BitVec.eq_of_toNat_eq
    rw [Word.toNat_fields_rs, value]
    omega
  · apply BitVec.eq_of_toNat_eq
    rw [Word.toNat_fields_rt, value]
    omega
  · apply BitVec.eq_of_toNat_eq
    rw [Word.toNat_fields_rd, value]
    omega
  · apply BitVec.eq_of_toNat_eq
    rw [Word.toNat_fields_shamt, value]
    omega

theorem toNat_immediateWord {o : Op} (selects : o.code.SelectsImmediate) (rs rt : Register)
    (imm : BitVec 16) :
    (immediateWord o rs rt imm).toNat =
      o.code.bits + rs.toNat % 32 * 0x200000 + rt.toNat % 32 * 0x10000 + imm.toNat := by
  obtain ⟨small, _⟩ := Code.bits_of_selectsImmediate selects
  have himm := imm.isLt
  simp only [immediateWord, Word.ofNat_eq, BitVec.toNat_ofNat]
  omega

theorem code_immediateWord {o : Op} (selects : o.code.SelectsImmediate) {rs rt : Register}
    {imm : BitVec 16} (room : ∀ t, o.code = .regimm t → rt = 0) :
    Code.ofWord (immediateWord o rs rt imm) = o.code := by
  have value := toNat_immediateWord selects rs rt imm
  have himm := imm.isLt
  cases code : o.code with
  | regimm t =>
    have empty : rt.toNat = 0 := by rw [room t code]; rfl
    rw [code] at selects value
    have small : t < 32 := selects
    rw [Code.bits_regimm, empty] at value
    have opcode : Word.opcode (immediateWord o rs rt imm) = Code.regimmOpcode := by
      rw [Word.opcode, value, Code.regimmOpcode]
      omega
    have selector : (immediateWord o rs rt imm).toNat >>> 16 % 32 = t := by
      rw [value]
      omega
    rw [Code.ofWord_regimm opcode, selector]
  | primary p =>
    rw [code] at selects value
    obtain ⟨small, special, special2, regimm⟩ := selects
    rw [Code.bits_primary] at value
    have opcode : Word.opcode (immediateWord o rs rt imm) = p := by
      rw [Word.opcode, value]
      omega
    rw [← opcode] at special special2 regimm
    rw [Code.ofWord_primary special special2 regimm, opcode]
  | whole | special | special2 =>
    rw [code] at selects
    exact selects.elim

/-- An immediate word is read back with the values that were put into its fields, `rt` among them
where it is no selector. -/
theorem decode_immediateWord {o : Op} (selects : o.code.SelectsImmediate) (rs rt : Register)
    (imm : BitVec 16) (room : ∀ t, o.code = .regimm t → rt = 0) (hs : rs.toNat < 32)
    (ht : rt.toNat < 32) :
    ∃ f : Fields, decode (immediateWord o rs rt imm) = some (o.instruction f) ∧
      f.rs = rs ∧ f.imm = imm ∧ ((∀ t, o.code ≠ .regimm t) → f.rt = rt) := by
  have value := toNat_immediateWord selects rs rt imm
  have himm := imm.isLt
  obtain ⟨_, low, lowest, clear⟩ := Code.bits_of_selectsImmediate selects
  -- Of the selector and `rt`, which share their place, at most one is there.
  have shared : rt.toNat = 0 ∨ o.code.bits % 0x4000000 = 0 := by
    by_cases regimm : ∃ t, o.code = .regimm t
    · obtain ⟨t, code⟩ := regimm
      exact .inl (by rw [room t code]; rfl)
    · exact .inr (clear fun t code => regimm ⟨t, code⟩)
  refine ⟨_, decode_of_code (code_immediateWord selects room), ?_, ?_, ?_⟩
  · apply BitVec.eq_of_toNat_eq
    rw [Word.toNat_fields_rs, value]
    omega
  · apply BitVec.eq_of_toNat_eq
    rw [Word.toNat_fields_imm, value]
    omega
  · intro primary
    have clear := clear primary
    apply BitVec.eq_of_toNat_eq
    rw [Word.toNat_fields_rt, value]
    omega

theorem decode_primaryWord {o : Op} (selects : o.code.SelectsImmediate)
    (primary : ∀ t, o.code ≠ .regimm t) (rs rt : Register) (imm : BitVec 16)
    (hs : rs.toNat < 32) (ht : rt.toNat < 32) :
    ∃ f : Fields, decode (immediateWord o rs rt imm) = some (o.instruction f) ∧
      f.rs = rs ∧ f.rt = rt ∧ f.imm = imm := by
  obtain ⟨f, found, es, ei, et⟩ :=
    decode_immediateWord selects rs rt imm (fun t code => absurd code (primary t)) hs ht
  exact ⟨f, found, es, et primary, ei⟩

theorem decode_breakpoint {code : Word} (h : code.toNat < 0x100000) :
    decode (encode (breakpoint code)) = some (breakpoint code) := by
  have value : (encode (breakpoint code)).toNat = 13 + code.toNat * 0x40 := by
    show (Word.ofNat (13 + (code.toNat % 0x100000) <<< 6)).toNat = _
    rw [Word.ofNat_eq, BitVec.toNat_ofNat]
    omega
  have funct : Word.funct (encode (breakpoint code)) = 13 := by
    rw [Word.funct, value]
    omega
  have opcode : Word.opcode (encode (breakpoint code)) = Code.specialOpcode := by
    rw [Word.opcode, value, Code.specialOpcode]
    omega
  have field : (Word.fields (encode (breakpoint code))).code = code := by
    apply BitVec.eq_of_toNat_eq
    rw [Word.toNat_fields_code, value]
    omega
  have found : Code.ofWord (encode (breakpoint code)) = Op.breakpoint.code := by
    rw [Code.ofWord_special opcode (by rw [funct]; decide), funct]
    rfl
  rw [decode_of_code found, Op.instruction, field]

theorem decode_jump {o : Jump} {target : Word} (h : target.toNat < 0x4000000) :
    decode (encode (jump o target)) = some (jump o target) := by
  obtain ⟨p, code, hp⟩ : ∃ p, (Op.jump o).code = .primary p ∧ (p = 2 ∨ p = 3) := by
    cases o
    · exact ⟨2, rfl, .inl rfl⟩
    · exact ⟨3, rfl, .inr rfl⟩
  have value : (encode (jump o target)).toNat = p * 0x4000000 + target.toNat := by
    show (Word.ofNat ((Op.jump o).code.bits + target.toNat % 0x4000000)).toNat = _
    rw [code, Code.bits_primary, Word.ofNat_eq, BitVec.toNat_ofNat]
    omega
  have opcode : Word.opcode (encode (jump o target)) = p := by
    rw [Word.opcode, value]
    omega
  have field : (Word.fields (encode (jump o target))).target = target := by
    apply BitVec.eq_of_toNat_eq
    rw [Word.toNat_fields_target, value]
    omega
  have found : Code.ofWord (encode (jump o target)) = (Op.jump o).code := by
    rw [Code.ofWord_primary, opcode, code] <;>
      simp only [opcode, Code.specialOpcode, Code.special2Opcode, Code.regimmOpcode] <;> omega
  rw [decode_of_code found, Op.instruction, field]

def Fits : Instruction → Prop
  | alu _ rd rs rt => rd.toNat < 32 ∧ rs.toNat < 32 ∧ rt.toNat < 32
  | aluImm _ rt rs _ => rt.toNat < 32 ∧ rs.toNat < 32
  | lui rt _ => rt.toNat < 32
  | shift _ rd rt shamt => rd.toNat < 32 ∧ rt.toNat < 32 ∧ shamt.toNat < 32
  | shiftVar _ rd rt rs => rd.toNat < 32 ∧ rt.toNat < 32 ∧ rs.toNat < 32
  | mulDiv _ rs rt => rs.toNat < 32 ∧ rt.toNat < 32
  | moveFrom _ rd => rd.toNat < 32
  | moveTo _ rs => rs.toNat < 32
  | count _ rd rs => rd.toNat < 32 ∧ rs.toNat < 32
  | trap _ rs rt => rs.toNat < 32 ∧ rt.toNat < 32
  | trapImm _ rs _ => rs.toNat < 32
  | breakpoint code => code.toNat < 0x100000
  | syscall => True
  | jr rs => rs.toNat < 32
  | jalr rd rs => rd.toNat < 32 ∧ rs.toNat < 32
  | jump _ target => target.toNat < 0x4000000
  | branchPair _ rs rt _ => rs.toNat < 32 ∧ rt.toNat < 32
  | branchZero _ rs _ => rs.toNat < 32
  | load _ rt rs _ => rt.toNat < 32 ∧ rs.toNat < 32
  | store _ rt rs _ => rt.toNat < 32 ∧ rs.toNat < 32

theorem decode_encode {i : Instruction} (fits : i.Fits) : decode i.encode = some i := by
  have zero : (0 : Register).toNat < 32 := by decide
  cases i with
  | alu o rd rs rt =>
    obtain ⟨hd, hs, ht⟩ := fits
    have selects : (Op.alu o).code.SelectsRegisters := by cases o <;> decide
    obtain ⟨f, found, rfl, rfl, rfl, _⟩ := decode_registerWord selects rs rt rd 0 hs ht hd zero
    exact found
  | aluImm o rt rs imm =>
    obtain ⟨ht, hs⟩ := fits
    have selects : (Op.aluImm o).code.SelectsImmediate := by cases o <;> decide
    have primary : ∀ t, (Op.aluImm o).code ≠ .regimm t := by cases o <;> nofun
    obtain ⟨f, found, rfl, rfl, rfl⟩ := decode_primaryWord selects primary rs rt imm hs ht
    exact found
  | lui rt imm =>
    obtain ⟨f, found, _, rfl, rfl⟩ :=
      decode_primaryWord (o := .lui) (by decide) nofun 0 rt imm zero fits
    exact found
  | shift o rd rt shamt =>
    obtain ⟨hd, ht, ha⟩ := fits
    have selects : (Op.shift o).code.SelectsRegisters := by cases o <;> decide
    obtain ⟨f, found, _, rfl, rfl, rfl⟩ := decode_registerWord selects 0 rt rd shamt zero ht hd ha
    exact found
  | shiftVar o rd rt rs =>
    obtain ⟨hd, ht, hs⟩ := fits
    have selects : (Op.shiftVar o).code.SelectsRegisters := by cases o <;> decide
    obtain ⟨f, found, rfl, rfl, rfl, _⟩ := decode_registerWord selects rs rt rd 0 hs ht hd zero
    exact found
  | mulDiv o rs rt =>
    obtain ⟨hs, ht⟩ := fits
    have selects : (Op.mulDiv o).code.SelectsRegisters := by cases o <;> decide
    obtain ⟨f, found, rfl, rfl, _⟩ := decode_registerWord selects rs rt 0 0 hs ht zero zero
    exact found
  | moveFrom half rd =>
    have selects : (Op.moveFrom half).code.SelectsRegisters := by cases half <;> decide
    obtain ⟨f, found, _, _, rfl, _⟩ := decode_registerWord selects 0 0 rd 0 zero zero fits zero
    exact found
  | moveTo half rs =>
    have selects : (Op.moveTo half).code.SelectsRegisters := by cases half <;> decide
    obtain ⟨f, found, rfl, _⟩ := decode_registerWord selects rs 0 0 0 fits zero zero zero
    exact found
  | count o rd rs =>
    obtain ⟨hd, hs⟩ := fits
    have selects : (Op.count o).code.SelectsRegisters := by cases o <;> decide
    obtain ⟨f, found, rfl, _, rfl, _⟩ := decode_registerWord selects rs rd rd 0 hs hd hd zero
    exact found
  | trap rel rs rt =>
    obtain ⟨hs, ht⟩ := fits
    have selects : (Op.trap rel).code.SelectsRegisters := by cases rel <;> decide
    obtain ⟨f, found, rfl, rfl, _⟩ := decode_registerWord selects rs rt 0 0 hs ht zero zero
    exact found
  | trapImm rel rs imm =>
    have selects : (Op.trapImm rel).code.SelectsImmediate := by cases rel <;> decide
    obtain ⟨f, found, rfl, rfl, _⟩ :=
      decode_immediateWord selects rs 0 imm (fun _ _ => rfl) fits zero
    exact found
  | breakpoint code => exact decode_breakpoint fits
  | syscall => rfl
  | jr rs =>
    obtain ⟨f, found, rfl, _⟩ :=
      decode_registerWord (o := .jr) (by decide) rs 0 0 0 fits zero zero zero
    exact found
  | jalr rd rs =>
    obtain ⟨hd, hs⟩ := fits
    obtain ⟨f, found, rfl, _, rfl, _⟩ :=
      decode_registerWord (o := .jalr) (by decide) rs 0 rd 0 hs zero hd zero
    exact found
  | jump o target => exact decode_jump fits
  | branchPair o rs rt imm =>
    obtain ⟨hs, ht⟩ := fits
    have selects : (Op.branchPair o).code.SelectsImmediate := by cases o <;> decide
    have primary : ∀ t, (Op.branchPair o).code ≠ .regimm t := by cases o <;> nofun
    obtain ⟨f, found, rfl, rfl, rfl⟩ := decode_primaryWord selects primary rs rt imm hs ht
    exact found
  | branchZero o rs imm =>
    have selects : (Op.branchZero o).code.SelectsImmediate := by cases o <;> decide
    obtain ⟨f, found, rfl, rfl, _⟩ :=
      decode_immediateWord selects rs 0 imm (fun _ _ => rfl) fits zero
    exact found
  | load o rt rs imm =>
    obtain ⟨ht, hs⟩ := fits
    have selects : (Op.load o).code.SelectsImmediate := by cases o <;> decide
    have primary : ∀ t, (Op.load o).code ≠ .regimm t := by cases o <;> nofun
    obtain ⟨f, found, rfl, rfl, rfl⟩ := decode_primaryWord selects primary rs rt imm hs ht
    exact found
  | store o rt rs imm =>
    obtain ⟨ht, hs⟩ := fits
    have selects : (Op.store o).code.SelectsImmediate := by cases o <;> decide
    have primary : ∀ t, (Op.store o).code ≠ .regimm t := by cases o <;> nofun
    obtain ⟨f, found, rfl, rfl, rfl⟩ := decode_primaryWord selects primary rs rt imm hs ht
    exact found

end Instruction
end Mips
