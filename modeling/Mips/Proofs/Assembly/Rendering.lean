import Mips.Proofs.Assembly.Encoding
import Mips.Proofs.Assembly.Plain
import Mips.Instruction.Printer
import Mips.Assembly

namespace Mips

open Assembly (IsToken)

theorem Register.isToken_render (r : Register) : IsToken r.render := by
  have plain : ∀ n < 32, (Register.names.getD n []).all Assembly.isTokenChar = true := by decide
  refine ⟨List.cons_ne_nil _ _, List.forall_mem_cons.mpr ⟨by decide, ?_⟩⟩
  exact List.all_eq_true.mp (plain r.index r.index.isLt)

theorem Register.ofToken?_render {r : Register} (small : r.toNat < 32) :
    Register.ofToken? r.render = some r := by
  have numbers : ∀ n : Fin 32, Register.ofToken? (Register.render (BitVec.ofNat 8 n)) =
      some (BitVec.ofNat 8 n) := by decide
  have read := numbers ⟨r.toNat, small⟩
  rwa [BitVec.ofNat_toNat, BitVec.setWidth_eq] at read

namespace Numeral

theorem isToken_of_value? {base n : Nat} {s : List Char} (read : value? base s = some n) :
    IsToken s := by
  constructor
  · rintro rfl
    cases read
  · intro c hc
    simp only [Assembly.isTokenChar, isAlphanum_of_value? read c hc, Bool.true_or]

theorem isToken_decimal (n : Nat) : IsToken (decimal n) :=
  isToken_of_value? (value?_toDigits (by decide) (by decide) n)

theorem isToken_signed (z : Int) : IsToken (signed z) := by
  unfold signed
  split
  · exact .cons (by decide) (isToken_decimal _)
  · exact isToken_decimal _

theorem isToken_forcedSign (z : Int) : IsToken (forcedSign z) := by
  unfold forcedSign
  split
  · exact .cons (by decide) (isToken_decimal _)
  · exact .cons (by decide) (isToken_decimal _)

theorem isToken_hex (n : Nat) : IsToken (hex n) :=
  .cons (by decide) (.cons (by decide)
    (isToken_of_value? (value?_toDigits (by decide) (by decide) n)))

theorem isToken_hex8 (n : Nat) : IsToken (hex8 n) :=
  .cons (by decide) (.cons (by decide)
    (isToken_of_value? (value?_leftpad (by decide) (by decide) 8 n)))

theorem not_mem_decimal {c : Char} (other : c.isAlphanum = false) (n : Nat) : c ∉ decimal n := by
  intro hc
  have read : value? 10 (decimal n) = some n := value?_toDigits (by decide) (by decide) n
  rw [isAlphanum_of_value? read c hc] at other
  cases other

theorem not_mem_signed {c : Char} (other : c.isAlphanum = false) (sign : c ≠ '-') (z : Int) :
    c ∉ signed z := by
  unfold signed
  split
  · rw [List.mem_cons]
    exact not_or.mpr ⟨sign, not_mem_decimal other _⟩
  · exact not_mem_decimal other _

end Numeral

namespace Instruction

open Assembly

theorem isToken_name (o : Op) : IsToken o.name.toList := by
  have plain : ∀ o ∈ Op.all, o.name.toList ≠ [] ∧ o.name.toList.all isTokenChar = true := by decide
  obtain ⟨filled, chars⟩ := plain o (Op.mem_all o)
  exact ⟨filled, List.all_eq_true.mp chars⟩

theorem memoryOperand_eq (rs : Register) (imm : BitVec 16) :
    memoryOperand rs imm = signedImm imm ++ '(' :: (rs.render ++ [')']) := by
  rw [memoryOperand, List.append_assoc, List.cons_append]

theorem isToken_memoryOperand (rs : Register) (imm : BitVec 16) :
    IsToken (memoryOperand rs imm) := by
  have offset : IsToken (signedImm imm) := Numeral.isToken_signed imm.toInt
  rw [memoryOperand_eq]
  refine ⟨List.append_ne_nil_of_left_ne_nil offset.filled _, ?_⟩
  refine List.forall_mem_append.mpr ⟨offset.chars, ?_⟩
  refine List.forall_mem_cons.mpr ⟨by decide, ?_⟩
  refine List.forall_mem_append.mpr ⟨rs.isToken_render.chars, ?_⟩
  exact List.forall_mem_singleton.mpr (by decide)

theorem isToken_operand {i : Instruction} : ∀ tok ∈ i.operands, IsToken tok := by
  have reg := Register.isToken_render
  have signed (imm : BitVec 16) : IsToken (signedImm imm) := Numeral.isToken_signed _
  have dist (imm : BitVec 16) : IsToken (distance imm) := Numeral.isToken_forcedSign _
  have memory := isToken_memoryOperand
  cases i with
  | aluImm op rt rs imm =>
    simp only [operands, List.forall_mem_cons, List.not_mem_nil, false_implies, implies_true,
      and_true]
    refine ⟨reg rt, reg rs, ?_⟩
    split
    · exact Numeral.isToken_hex _
    · exact Numeral.isToken_hex _
    · exact Numeral.isToken_hex _
    · exact signed imm
  | _ =>
    simp only [operands, List.forall_mem_cons, List.not_mem_nil, false_implies, implies_true, reg,
      signed, dist, memory, Numeral.isToken_hex, Numeral.isToken_hex8, Numeral.isToken_decimal,
      and_true]

def spelling (i : Instruction) : List (List Char) :=
  if i = nop then [Mnemonic.nop.name.toList] else i.op.name.toList :: i.operands

/-- Tokens as a line: the first apart from the others, and those between commas. -/
def joined : List (List Char) → List Char
  | [] => []
  | [name] => name
  | name :: ops => name ++ ' ' :: [',', ' '].intercalate ops

theorem render_eq (i : Instruction) : i.render = joined i.spelling := by
  unfold render spelling
  split
  · rfl
  · cases i.operands with
    | nil => rfl
    | cons op ops => rfl

theorem isPlain_joined {toks : List (List Char)} (filled : toks ≠ [])
    (tokens : ∀ tok ∈ toks, IsToken tok) : IsPlain (joined toks) := by
  cases toks with
  | nil => exact absurd rfl filled
  | cons name ops =>
    obtain ⟨token, tokens⟩ := List.forall_mem_cons.mp tokens
    cases ops with
    | nil => exact .of_isToken token
    | cons op ops =>
      have space : ∀ c ∈ [' '], c = ',' ∨ c = ' ' := by simp
      have comma : ∀ c ∈ [',', ' '], c = ',' ∨ c = ' ' := by simp
      exact (IsPlain.of_isToken token).append space
        (.intercalate comma (List.cons_ne_nil _ _) tokens)

theorem tokens_joined {toks : List (List Char)} (tokens : ∀ tok ∈ toks, IsToken tok) :
    Assembly.tokens (joined toks) = toks := by
  have clean {tok : List Char} (token : IsToken tok) (c : Char) (hc : c ∈ tok) :
      (c == ',' || Text.isBlank c) = false := separator_of_isTokenChar (token.chars c hc)
  match toks with
  | [] => exact Text.fields_nil _
  | [name] =>
    have token := tokens name List.mem_cons_self
    exact Text.fields_eq_singleton token.filled (clean token)
  | name :: op :: ops =>
    obtain ⟨token, tokens⟩ := List.forall_mem_cons.mp tokens
    have cut : Text.fields (fun c => c == ',' || Text.isBlank c)
        ([',', ' '].intercalate (op :: ops)) = op :: ops :=
      Text.fields_intercalate (List.cons_ne_nil _ _) (List.all_eq_true.mp (by decide))
        (fun tok h => (tokens tok h).filled) (fun tok h => clean (tokens tok h))
    have stop : ∀ c, (' ' :: [',', ' '].intercalate (op :: ops)).head? = some c →
        (c == ',' || Text.isBlank c) = true := by
      rintro _ ⟨⟩
      decide
    have space : (' ' == ',' || Text.isBlank ' ') = true := by decide
    rw [Assembly.tokens, joined, Text.fields_append_of_clean token.filled (clean token) stop,
      Text.fields_cons_of_sep space, cut]
    nofun

theorem isToken_spelling (i : Instruction) : ∀ tok ∈ i.spelling, IsToken tok := by
  unfold spelling
  split
  · exact List.forall_mem_singleton.mpr ⟨by decide, List.all_eq_true.mp (by decide)⟩
  · exact List.forall_mem_cons.mpr ⟨isToken_name _, isToken_operand⟩

theorem isPlain_render (i : Instruction) : IsPlain i.render := by
  have filled : i.spelling ≠ [] := by
    unfold spelling
    split <;> exact List.cons_ne_nil _ _
  rw [render_eq]
  exact isPlain_joined filled (isToken_spelling i)

theorem tokens_render (i : Instruction) : tokens i.render = i.spelling := by
  rw [render_eq, tokens_joined (isToken_spelling i)]

section Values

variable (imm : BitVec 16)

theorem givesInteger_of_natCast {size : Int} {tok : List Char} {n : Nat} (small : (n : Int) < size)
    (read : integer? tok = some (n : Int)) : GivesInteger size tok n :=
  ⟨n, read, (Int.emod_eq_of_lt (Int.natCast_nonneg n) small).symm⟩

theorem natAbs_toInt_le : imm.toInt.natAbs ≤ maxMagnitude := by
  have := imm.isLt
  rw [BitVec.toInt_eq_toNat_cond]
  unfold maxMagnitude
  split <;> omega

theorem givesInteger_signedImm : GivesInteger 0x10000 (signedImm imm) imm.toNat :=
  ⟨imm.toInt, integer?_signed (natAbs_toInt_le imm), Word.toNat_eq_toInt_emod imm⟩

theorem givesInteger_distance : GivesInteger 0x10000 (distance imm) imm.toNat :=
  ⟨imm.toInt, integer?_forcedSign (natAbs_toInt_le imm), Word.toNat_eq_toInt_emod imm⟩

theorem givesInteger_hex : GivesInteger 0x10000 (Numeral.hex imm.toNat) imm.toNat := by
  have small := imm.isLt
  apply givesInteger_of_natCast (by omega)
  exact integer?_hex (by unfold maxMagnitude; omega)

theorem givesMemory_memoryOperand {rs : Register} (small : rs.toNat < 32) :
    GivesMemory (memoryOperand rs imm) rs imm := by
  have offset : IsToken (signedImm imm) := Numeral.isToken_signed imm.toInt
  have unbracketed : '(' ∉ signedImm imm := Numeral.not_mem_signed (by decide) (by decide) _
  exact ⟨signedImm imm, rs.render, memoryOperand_eq rs imm, unbracketed,
    Register.ofToken?_render small, .inr ⟨offset.filled, givesInteger_signedImm imm⟩⟩

end Values

theorem givesTarget_hex8 {symbols : Symbols} {target : Word} (small : target.toNat < 0x4000000) :
    GivesTarget symbols (Numeral.hex8 (target <<< 2).toNat) target := by
  have address : (target <<< 2).toNat = 4 * target.toNat := by
    rw [BitVec.toNat_shiftLeft, Nat.shiftLeft_eq]
    omega
  rw [address]
  refine .inl ⟨(4 * target.toNat : Nat), integer?_hex8 ?_, ?_⟩
  · unfold maxMagnitude
    omega
  · omega

theorem denotes_operands {i : Instruction} (fits : i.Fits) (symbols : Symbols) (pc : Word) :
    Denotes symbols pc (i.op.name.toList :: i.operands) i := by
  have reg {r : Register} := @Register.ofToken?_render r
  cases i with
  | alu op rd rs rt =>
    obtain ⟨hd, hs, ht⟩ := fits
    exact .alu (reg hd) (reg hs) (reg ht)
  | aluImm op rt rs imm =>
    obtain ⟨ht, hs⟩ := fits
    refine .aluImm (reg ht) (reg hs) ?_
    split
    · exact givesInteger_hex imm
    · exact givesInteger_hex imm
    · exact givesInteger_hex imm
    · exact givesInteger_signedImm imm
  | lui rt imm => exact .lui (reg fits) (givesInteger_hex imm)
  | shift op rd rt shamt =>
    obtain ⟨hd, ht, hshamt⟩ := fits
    refine .shift (reg hd) (reg ht) (givesInteger_of_natCast (by omega) (integer?_decimal ?_))
    unfold maxMagnitude
    omega
  | shiftVar op rd rt rs =>
    obtain ⟨hd, ht, hs⟩ := fits
    exact .shiftVar (reg hd) (reg ht) (reg hs)
  | mulDiv op rs rt => exact .mulDiv (reg fits.1) (reg fits.2)
  | moveFrom half rd => exact .moveFrom (reg fits)
  | moveTo half rs => exact .moveTo (reg fits)
  | count op rd rs => exact .count (reg fits.1) (reg fits.2)
  | trap rel rs rt => exact .trap (reg fits.1) (reg fits.2)
  | trapImm rel rs imm => exact .trapImm (reg fits) (givesInteger_signedImm imm)
  | breakpoint code =>
    have small : code.toNat < 0x100000 := fits
    refine .breakpoint (givesInteger_of_natCast (by omega) (integer?_decimal ?_))
    unfold maxMagnitude
    omega
  | syscall => exact .syscall
  | jr rs => exact .jr (reg fits)
  | jalr rd rs => exact .jalr (reg fits.2) (reg fits.1)
  | jump op target => exact .jump (givesTarget_hex8 fits)
  | branchPair op rs rt imm =>
    exact .branchPair (reg fits.1) (reg fits.2) (.inl (givesInteger_distance imm))
  | branchZero op rs imm => exact .branchZero (reg fits) (.inl (givesInteger_distance imm))
  | load op rt rs imm => exact .load (reg fits.1) (givesMemory_memoryOperand imm fits.2)
  | store op rt rs imm => exact .store (reg fits.1) (givesMemory_memoryOperand imm fits.2)

theorem denotes_spelling {i : Instruction} (fits : i.Fits) (symbols : Symbols) (pc : Word) :
    Denotes symbols pc i.spelling i := by
  unfold spelling
  split
  · rename_i empty
    rw [empty]
    exact .nop
  · exact denotes_operands fits symbols pc

end Instruction

namespace Assembly

theorem textWords_of_denotes {α : Type} (line : α → Line) (ins : α → Instruction) {xs : List α}
    {symbols : Symbols} (pc : Word)
    (each : ∀ x ∈ xs, ∀ pc, Denotes symbols pc (tokens (leadingLabels (line x).text).2) (ins x)) :
    textWords symbols pc (xs.map line) = .ok (xs.map fun x => (ins x).encode) := by
  induction xs generalizing pc with
  | nil => rfl
  | cons x xs ih =>
    obtain ⟨hx, each⟩ := List.forall_mem_cons.mp each
    simp only [List.map_cons, textWords, lineWord_of_denotes (hx pc), ih _ each]
    rfl

theorem numbered_map {α β : Type} (f : α → β) (xs : List α) :
    Text.numbered (xs.map f) = (Text.numbered xs).map fun x => (x.1, f x.2) := by
  simp only [Text.numbered, List.zipIdx_map, List.map_map]
  rfl

theorem ofText_render (is : List Instruction) :
    Segments.ofText (['\n'].intercalate (is.map Instruction.render)) =
      .ok { text := (Text.numbered is).map fun x => ⟨x.1, spaced x.2.render⟩ } := by
  have plain : ∀ l ∈ is.map Instruction.render, IsPlain l :=
    List.forall_mem_map.mpr fun i _ => Instruction.isPlain_render i
  rw [ofText_plain plain, numbered_map, List.map_map]
  rfl

/-- A program that is written out and assembled is the same program. -/
theorem assemble_render {is : List Instruction} (fits : ∀ i ∈ is, i.Fits) :
    ∃ ws, assemble (['\n'].intercalate (is.map Instruction.render)) = .ok ⟨[], ws⟩ ∧
      ws.length = is.length ∧ ws.map Instruction.decode = is.map some := by
  refine ⟨is.map Instruction.encode, ?_, List.length_map _, ?_⟩
  · have leading (i : Instruction) :
        leadingLabels (spaced i.render) = ([], spaced i.render) :=
      (spaced_plain (Instruction.isPlain_render i)).leadingLabels_eq
    have unlabelled : ∀ l ∈ (Text.numbered is).map fun x => (⟨x.1, spaced x.2.render⟩ : Line),
        (leadingLabels l.text).1 = [] :=
      List.forall_mem_map.mpr fun x _ => by rw [leading]
    have denotes : ∀ x ∈ Text.numbered is, ∀ pc,
        Denotes {} pc (tokens (leadingLabels (spaced x.2.render)).2) x.2 := by
      intro x hx pc
      have member : x.2 ∈ is := by
        rw [← Text.snd_numbered is]
        exact List.mem_map_of_mem hx
      rw [leading, tokens_spaced, Instruction.tokens_render]
      exact Instruction.denotes_spelling (fits x.2 member) {} pc
    have words := textWords_of_denotes (fun x : Nat × Instruction => ⟨x.1, spaced x.2.render⟩)
      (·.2) textBase denotes
    have encoded : (Text.numbered is).map (fun x => x.2.encode) = is.map Instruction.encode := by
      conv => rhs; rw [← Text.snd_numbered is, List.map_map]
      rfl
    rw [encoded] at words
    simp only [assemble, ofText_render, Segments.assemble, dataWords,
      Symbols.ofLines_of_unlabelled textBase unlabelled, words, bind, Except.bind]
    rfl
  · rw [List.map_map]
    exact List.map_congr_left fun i hi => Instruction.decode_encode (fits i hi)

theorem assemble_render_loop :
    (∀ i ∈ [Instruction.nop, .branchZero .bgezal 8 0xFFFE, .jump .j 0x3FFFFFF], i.Fits) ∧
      ∃ ws, assemble (['\n'].intercalate ([Instruction.nop, .branchZero .bgezal 8 0xFFFE,
          .jump .j 0x3FFFFFF].map Instruction.render)) = .ok ⟨[], ws⟩ ∧
        ws.length = 3 ∧ ws.map Instruction.decode =
          [some .nop, some (.branchZero .bgezal 8 0xFFFE), some (.jump .j 0x3FFFFFF)] := by
  have fits : ∀ i ∈ [Instruction.nop, .branchZero .bgezal 8 0xFFFE, .jump .j 0x3FFFFFF],
      i.Fits := by
    simp only [List.forall_mem_cons]
    refine ⟨⟨?_, ?_, ?_⟩, (?_ : (8 : Register).toNat < 32),
      (?_ : (0x3FFFFFF : Word).toNat < 0x4000000), nofun⟩ <;> decide
  exact ⟨fits, assemble_render fits⟩

end Assembly
end Mips
