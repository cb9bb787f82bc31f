import Mips.Assembly.Statement
import Mips.Proofs.Outcome
import Mips.Proofs.Text.Cuts

namespace Mips.Assembly

/-- A token spells an integer, of which a number is the residue. -/
def GivesInteger (size : Int) (tok : List Char) (n : Nat) : Prop :=
  ∃ z, integer? tok = some z ∧ (n : Int) = z % size

def GivesDistance (symbols : Symbols) (pc : Word) (tok : List Char) (imm : BitVec 16) : Prop :=
  GivesInteger 0x10000 tok imm.toNat ∨
    integer? tok = none ∧ ∃ addr, symbols.address? tok = some addr ∧
      (imm.toNat : Int) = ((addr.toNat : Int) - (pc.toNat + 4)) / 4 % 0x10000

def GivesTarget (symbols : Symbols) (tok : List Char) (target : Word) : Prop :=
  (∃ z, integer? tok = some z ∧ (target.toNat : Int) = z / 4 % 0x4000000) ∨
    integer? tok = none ∧ ∃ addr, symbols.address? tok = some addr ∧
      (target.toNat : Int) = (addr.toNat : Int) / 4 % 0x4000000

/-- A token gives an offset, left out for zero, and behind it a base register in brackets. -/
def GivesMemory (tok : List Char) (rs : Register) (imm : BitVec 16) : Prop :=
  ∃ offset base, tok = offset ++ '(' :: (base ++ [')']) ∧ '(' ∉ offset ∧
    Register.ofToken? base = some rs ∧
    (offset = [] ∧ imm = 0 ∨ offset ≠ [] ∧ GivesInteger 0x10000 offset imm.toNat)

namespace Place

theorem register_eq_ok_iff {p : Place} {tok : List Char} {r : Register} :
    p.register tok = .ok r ↔ Register.ofToken? tok = some r := by
  unfold register
  cases Register.ofToken? tok with
  | none => simp [refuse]
  | some s => simp

theorem setWidth_ofInt_eq_iff {size wide : Nat} (fits : size ≤ wide) {z : Int} {v : BitVec wide} :
    (BitVec.ofInt size z).setWidth wide = v ↔ (v.toNat : Int) = z % ((1 <<< size : Nat) : Int) := by
  rw [Nat.one_shiftLeft]
  have positive : 0 < 2 ^ size := Nat.two_pow_pos size
  have wider : 2 ^ size ≤ 2 ^ wide := Nat.pow_le_pow_right (by decide) fits
  have lower : 0 ≤ z % ((2 ^ size : Nat) : Int) := Int.emod_nonneg _ (by omega)
  have upper : z % ((2 ^ size : Nat) : Int) < (2 ^ size : Nat) := Int.emod_lt_of_pos _ (by omega)
  have value :
      ((BitVec.ofInt size z).setWidth wide).toNat = (z % ((2 ^ size : Nat) : Int)).toNat := by
    rw [BitVec.toNat_setWidth, BitVec.toNat_ofInt, Nat.mod_eq_of_lt (by omega)]
  constructor
  · intro h
    rw [← h, value]
    omega
  · intro h
    apply BitVec.eq_of_toNat_eq
    omega

theorem ofInt_eq_iff {size : Nat} {z : Int} {v : BitVec size} :
    BitVec.ofInt size z = v ↔ (v.toNat : Int) = z % ((1 <<< size : Nat) : Int) := by
  rw [← setWidth_ofInt_eq_iff (Nat.le_refl size), BitVec.setWidth_eq]

theorem immediate_eq_ok_iff {p : Place} {bits : Nat} {tok : List Char} {v : BitVec bits} :
    p.immediate bits tok = .ok v ↔ GivesInteger (1 <<< bits : Nat) tok v.toNat := by
  unfold immediate GivesInteger
  cases integer? tok with
  | none => simp [refuse]
  | some z => simp [ofInt_eq_iff]

/-- The number in a narrow field, as it stands in a wider one. -/
theorem givesInteger_iff_exists {size wide : Nat} (fits : size ≤ wide) {tok : List Char}
    {v : BitVec wide} :
    GivesInteger (1 <<< size : Nat) tok v.toNat ↔
      ∃ u : BitVec size, GivesInteger (1 <<< size : Nat) tok u.toNat ∧ u.setWidth wide = v := by
  constructor
  · rintro ⟨z, spelled, residue⟩
    refine ⟨BitVec.ofInt size z, ⟨z, spelled, ofInt_eq_iff.mp rfl⟩, ?_⟩
    exact (setWidth_ofInt_eq_iff fits).mpr residue
  · rintro ⟨u, given, rfl⟩
    rwa [BitVec.toNat_setWidth_of_le fits]

theorem resolve_eq_ok_iff {t : Symbols} {name : List Char} {line : Nat} {addr : Word} :
    t.resolve name line = .ok addr ↔ t.address? name = some addr := by
  unfold Symbols.resolve
  cases t.address? name with
  | none => simp
  | some a => simp

theorem branchDistance_eq_ok_iff {p : Place} {tok : List Char} {imm : BitVec 16} :
    p.branchDistance tok = .ok imm ↔ GivesDistance p.symbols p.pc tok imm := by
  unfold branchDistance GivesDistance GivesInteger
  cases integer? tok with
  | none =>
    dsimp only
    rw [map_eq_ok_iff]
    simp [resolve_eq_ok_iff, ofInt_eq_iff]
  | some z => simp [ofInt_eq_iff]

theorem jumpTarget_eq_ok_iff {p : Place} {tok : List Char} {target : Word} :
    p.jumpTarget tok = .ok target ↔ GivesTarget p.symbols tok target := by
  unfold jumpTarget GivesTarget
  cases integer? tok with
  | none =>
    dsimp only
    rw [map_eq_ok_iff]
    simp [resolve_eq_ok_iff, setWidth_ofInt_eq_iff]
  | some z => simp [setWidth_ofInt_eq_iff]

theorem memory_eq_ok_iff {p : Place} {tok : List Char} {rs : Register} {imm : BitVec 16} :
    p.memory tok = .ok (rs, imm) ↔ GivesMemory tok rs imm := by
  constructor
  · intro found
    unfold memory at found
    split at found
    · rename_i offset rest cut
      obtain ⟨c, rfl, hc, clean⟩ := Text.splitAtFirst_eq_some_iff.mp cut
      split at found
      · rename_i closed
        obtain ⟨base, rfl⟩ := List.getLast?_eq_some_iff.mp closed
        obtain rfl : c = '(' := by simpa using hc
        have clean : '(' ∉ offset := fun h => by simpa using clean _ h
        rw [List.dropLast_concat] at found
        split at found
        · rename_i absent
          simp only [bind_eq_ok_iff, register_eq_ok_iff, pure, Except.pure, Except.ok.injEq,
            Prod.mk.injEq] at found
          obtain ⟨_, rfl, _, hbase, rfl, rfl⟩ := found
          exact ⟨offset, base, rfl, clean, hbase, .inl ⟨absent, rfl⟩⟩
        · rename_i present
          simp only [bind_eq_ok_iff, register_eq_ok_iff, immediate_eq_ok_iff, pure, Except.pure,
            Except.ok.injEq, Prod.mk.injEq] at found
          obtain ⟨_, given, _, hbase, rfl, rfl⟩ := found
          exact ⟨offset, base, rfl, clean, hbase, .inr ⟨present, given⟩⟩
      · simp [refuse] at found
    · simp [refuse] at found
  · rintro ⟨offset, base, rfl, clean, hbase, hoffset⟩
    have cut : Text.splitAtFirst (· == '(') (offset ++ '(' :: (base ++ [')'])) =
        (offset, some (base ++ [')'])) :=
      Text.splitAtFirst_append (fun c hc => by simpa using fun e : c = '(' => clean (e ▸ hc)) rfl
    have closed : (base ++ [')']).getLast? = some ')' := List.getLast?_concat
    rcases hoffset with ⟨absent, rfl⟩ | ⟨present, given⟩
    · simp only [memory, cut, if_pos closed, if_pos absent, List.dropLast_concat,
        register_eq_ok_iff.mpr hbase]
      rfl
    · simp only [memory, cut, if_pos closed, if_neg present, List.dropLast_concat,
        register_eq_ok_iff.mpr hbase, immediate_eq_ok_iff.mpr given]
      rfl

end Place

inductive Place.Reads (p : Place) : Shape → List (List Char) → Fields → Prop
  | rdRsRt {a b c rs rt rd} (ha : Register.ofToken? a = some rd)
    (hb : Register.ofToken? b = some rs) (hc : Register.ofToken? c = some rt) :
    Reads p .rdRsRt [a, b, c] { rs, rt, rd }
  | rdRtRs {a b c rs rt rd} (ha : Register.ofToken? a = some rd)
    (hb : Register.ofToken? b = some rt) (hc : Register.ofToken? c = some rs) :
    Reads p .rdRtRs [a, b, c] { rs, rt, rd }
  | rdRtShamt {a b c rt rd shamt} (ha : Register.ofToken? a = some rd)
    (hb : Register.ofToken? b = some rt) (hc : GivesInteger 32 c shamt.toNat) :
    Reads p .rdRtShamt [a, b, c] { rt, rd, shamt }
  | rsRt {a b rs rt} (ha : Register.ofToken? a = some rs) (hb : Register.ofToken? b = some rt) :
    Reads p .rsRt [a, b] { rs, rt }
  | rsRa {a rs} (ha : Register.ofToken? a = some rs) : Reads p .rsRd [a] { rs, rd := Register.ra }
  | rsRd {a b rs rd} (ha : Register.ofToken? a = some rs) (hb : Register.ofToken? b = some rd) :
    Reads p .rsRd [a, b] { rs, rd }
  | rs {a rs} (ha : Register.ofToken? a = some rs) : Reads p .rs [a] { rs }
  | rd {a rd} (ha : Register.ofToken? a = some rd) : Reads p .rd [a] { rd }
  | rdRs {a b rs rd} (ha : Register.ofToken? a = some rd) (hb : Register.ofToken? b = some rs) :
    Reads p .rdRs [a, b] { rs, rd }
  | rsRtLabel {a b c rs rt imm} (ha : Register.ofToken? a = some rs)
    (hb : Register.ofToken? b = some rt) (hc : GivesDistance p.symbols p.pc c imm) :
    Reads p .rsRtLabel [a, b, c] { rs, rt, imm }
  | rsLabel {a b rs imm} (ha : Register.ofToken? a = some rs)
    (hb : GivesDistance p.symbols p.pc b imm) : Reads p .rsLabel [a, b] { rs, imm }
  | rtRsImm {a b c rs rt imm} (ha : Register.ofToken? a = some rt)
    (hb : Register.ofToken? b = some rs) (hc : GivesInteger 0x10000 c imm.toNat) :
    Reads p .rtRsImm [a, b, c] { rs, rt, imm }
  | rtImm {a b rt imm} (ha : Register.ofToken? a = some rt)
    (hb : GivesInteger 0x10000 b imm.toNat) : Reads p .rtImm [a, b] { rt, imm }
  | rtMem {a b rs rt imm} (ha : Register.ofToken? a = some rt) (hb : GivesMemory b rs imm) :
    Reads p .rtMem [a, b] { rs, rt, imm }
  | rsImm {a b rs imm} (ha : Register.ofToken? a = some rs)
    (hb : GivesInteger 0x10000 b imm.toNat) : Reads p .rsImm [a, b] { rs, imm }
  | target {a target} (ha : GivesTarget p.symbols a target) : Reads p .target [a] { target }
  | codeless : Reads p .code [] {}
  | code {a code} (ha : GivesInteger 0x100000 a code.toNat) : Reads p .code [a] { code }
  | empty : Reads p .empty [] {}

theorem reads_of_operandFields {p : Place} {mnemonic : List Char} {shape : Shape}
    {ops : List (List Char)} {f : Fields} (found : operandFields p mnemonic shape ops = .ok f) :
    p.Reads shape ops f := by
  unfold operandFields at found
  split at found
  all_goals
    simp only [bind_eq_ok_iff, Place.register_eq_ok_iff, Place.immediate_eq_ok_iff,
      Place.branchDistance_eq_ok_iff, Place.jumpTarget_eq_ok_iff, Place.refuse, pure, Except.pure,
      Except.ok.injEq, reduceCtorEq] at found
  · obtain ⟨rs, hb, rt, hc, rd, ha, rfl⟩ := found
    exact .rdRsRt ha hb hc
  · obtain ⟨rs, hc, rt, hb, rd, ha, rfl⟩ := found
    exact .rdRtRs ha hb hc
  · obtain ⟨rt, hb, rd, ha, shamt, hc, rfl⟩ := found
    have narrow : 5 ≤ 8 := by decide
    exact .rdRtShamt ha hb ((Place.givesInteger_iff_exists narrow).mpr ⟨shamt, hc, rfl⟩)
  · obtain ⟨rs, ha, rt, hb, rfl⟩ := found
    exact .rsRt ha hb
  · obtain ⟨rs, ha, rfl⟩ := found
    exact .rsRa ha
  · obtain ⟨rd, hb, rs, ha, rfl⟩ := found
    exact .rsRd ha hb
  · obtain ⟨rs, ha, rfl⟩ := found
    exact .rs ha
  · obtain ⟨rd, ha, rfl⟩ := found
    exact .rd ha
  · obtain ⟨rd, ha, rs, hb, rfl⟩ := found
    exact .rdRs ha hb
  · obtain ⟨rs, ha, rt, hb, imm, hc, rfl⟩ := found
    exact .rsRtLabel ha hb hc
  · obtain ⟨rs, ha, imm, hb, rfl⟩ := found
    exact .rsLabel ha hb
  · obtain ⟨rs, hb, rt, ha, imm, hc, rfl⟩ := found
    exact .rtRsImm ha hb hc
  · obtain ⟨rt, ha, imm, hb, rfl⟩ := found
    exact .rtImm ha hb
  · obtain ⟨⟨rs, imm⟩, hb, rt, ha, rfl⟩ := found
    exact .rtMem ha (Place.memory_eq_ok_iff.mp hb)
  · obtain ⟨rs, ha, imm, hb, rfl⟩ := found
    exact .rsImm ha hb
  · obtain ⟨target, ha, rfl⟩ := found
    exact .target ha
  · obtain rfl := found
    exact .codeless
  · obtain ⟨code, ha, rfl⟩ := found
    have narrow : 20 ≤ 32 := by decide
    exact .code ((Place.givesInteger_iff_exists narrow).mpr ⟨code, ha, rfl⟩)
  · obtain rfl := found
    exact .empty

theorem operandFields_of_reads {p : Place} (mnemonic : List Char) {shape : Shape}
    {ops : List (List Char)} {f : Fields} (reads : p.Reads shape ops f) :
    operandFields p mnemonic shape ops = .ok f := by
  cases reads
  all_goals
    simp only [operandFields, bind_eq_ok_iff, Place.register_eq_ok_iff, Place.immediate_eq_ok_iff,
      Place.branchDistance_eq_ok_iff, Place.jumpTarget_eq_ok_iff, pure, Except.pure,
      Except.ok.injEq]
  case rdRsRt ha hb hc => exact ⟨_, hb, _, hc, _, ha, rfl⟩
  case rdRtRs ha hb hc => exact ⟨_, hc, _, hb, _, ha, rfl⟩
  case rdRtShamt ha hb hc =>
    have narrow : 5 ≤ 8 := by decide
    obtain ⟨shamt, hc, rfl⟩ := (Place.givesInteger_iff_exists narrow).mp hc
    exact ⟨_, hb, _, ha, shamt, hc, rfl⟩
  case rsRt ha hb => exact ⟨_, ha, _, hb, rfl⟩
  case rsRa ha => exact ⟨_, ha, rfl⟩
  case rsRd ha hb => exact ⟨_, hb, _, ha, rfl⟩
  case rs ha => exact ⟨_, ha, rfl⟩
  case rd ha => exact ⟨_, ha, rfl⟩
  case rdRs ha hb => exact ⟨_, ha, _, hb, rfl⟩
  case rsRtLabel ha hb hc => exact ⟨_, ha, _, hb, _, hc, rfl⟩
  case rsLabel ha hb => exact ⟨_, ha, _, hb, rfl⟩
  case rtRsImm ha hb hc => exact ⟨_, hb, _, ha, _, hc, rfl⟩
  case rtImm ha hb => exact ⟨_, ha, _, hb, rfl⟩
  case rtMem ha hb => exact ⟨(_, _), Place.memory_eq_ok_iff.mpr hb, _, ha, rfl⟩
  case rsImm ha hb => exact ⟨_, ha, _, hb, rfl⟩
  case target ha => exact ⟨_, ha, rfl⟩
  case code ha =>
    have narrow : 20 ≤ 32 := by decide
    obtain ⟨code, ha, rfl⟩ := (Place.givesInteger_iff_exists narrow).mp ha
    exact ⟨code, ha, rfl⟩

theorem operandFields_eq_ok_iff {p : Place} {mnemonic : List Char} {shape : Shape}
    {ops : List (List Char)} {f : Fields} :
    operandFields p mnemonic shape ops = .ok f ↔ p.Reads shape ops f :=
  ⟨reads_of_operandFields, operandFields_of_reads mnemonic⟩

end Mips.Assembly
