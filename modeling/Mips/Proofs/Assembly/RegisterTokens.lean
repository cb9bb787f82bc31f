import Mips.Assembly
import Mips.Proofs.Numeral.Meaning
import Mips.Proofs.Outcome

/-!
Register operands. Main statements: `Register.ofToken?_eq_some_iff`, which tokens are read as
registers; `asks_lineWord`, a line is refused for the first token that should be a register and is
none; and `registers_iff_unsigned`, a token is read exactly as the register that it names unless it
is a number behind a plus sign.
-/
namespace Mips

namespace Register

open Numeral

inductive Names : List Char → Nat → Prop
  | conventional {name : List Char} {n : Nat} (known : names[n]? = some name) :
      Names ('$' :: name) n
  | framePointer : Names ['$', 's', '8'] 30
  | number {ds : List Char} {n : Nat} (means : Means 10 ds n) (small : n < 32) :
      Names ('$' :: ds) n

/-- A token that is the number of a register behind a plus sign. -/
def PlusNumber (token : List Char) (n : Nat) : Prop :=
  ∃ ds, token = '$' :: '+' :: ds ∧ Means 10 ds n ∧ n < 32

variable {s token : List Char} {n : Nat} {r : Register}

theorem lt_of_known (known : names[n]? = some s) : n < 32 :=
  (List.getElem?_eq_some_iff.mp known).1

theorem idxOf?_names_eq_some_iff : names.idxOf? s = some n ↔ names[n]? = some s := by
  constructor
  · intro found
    obtain ⟨below, same, _⟩ := List.findIdx?_eq_some_iff_getElem.mp found
    rw [List.getElem?_eq_getElem below, eq_of_beq same]
  · intro there
    have each : ∀ n < 32, names[n]?.bind names.idxOf? = some n := by decide
    have found := each n (lt_of_known there)
    rwa [there] at found

theorem number?_eq_some_iff :
    number? s = some n ↔
      (Means 10 s n ∧ n < 32) ∨ ∃ ds, s = '+' :: ds ∧ Means 10 ds n ∧ n < 32 := by
  have read (s : List Char) : valueUpTo? 10 31 s = some n ↔ Means 10 s n ∧ n < 32 := by
    rw [valueUpTo?_eq_some_iff (by decide), Nat.lt_succ_iff]
  have signed (ds : List Char) : ¬Means 10 ('+' :: ds) n := by
    rw [← value?_eq_some_iff]
    exact nofun
  unfold number?
  split
  · rename_i ds
    simp [read, signed]
  · rename_i unsigned
    rw [read]
    constructor
    · exact .inl
    · rintro (number | ⟨ds, rfl, _⟩)
      · exact number
      · exact absurd rfl (unsigned ds)

theorem Names.lt (named : Names token n) : n < 32 := by
  cases named with
  | conventional known => exact lt_of_known known
  | framePointer => decide
  | number _ small => exact small

theorem PlusNumber.lt (plus : PlusNumber token n) : n < 32 := by
  obtain ⟨_, _, _, small⟩ := plus
  exact small

theorem ofToken?_of_names (named : Names token n) :
    ofToken? token = some (BitVec.ofNat 8 n) := by
  cases named with
  | conventional known =>
    -- no conventional name is a number, or the other name of the frame pointer
    have each : ∀ name ∈ names, number? name = none ∧ name ≠ ['s', '8'] := by decide
    obtain ⟨unnumbered, other⟩ := each _ (List.mem_of_getElem? known)
    rw [ofToken?, unnumbered]
    simp only [if_neg other, idxOf?_names_eq_some_iff.mpr known, Option.map_some]
  | framePointer => decide
  | number means small => rw [ofToken?, number?_eq_some_iff.mpr (.inl ⟨means, small⟩)]

theorem ofToken?_of_plusNumber (plus : PlusNumber token n) :
    ofToken? token = some (BitVec.ofNat 8 n) := by
  obtain ⟨ds, rfl, number⟩ := plus
  rw [ofToken?, number?_eq_some_iff.mpr (.inr ⟨ds, rfl, number⟩)]

theorem exists_of_ofToken? (read : ofToken? token = some r) :
    ∃ n, (Names token n ∨ PlusNumber token n) ∧ BitVec.ofNat 8 n = r := by
  unfold ofToken? at read
  split at read
  · split at read
    · rename_i n number
      refine ⟨n, ?_, Option.some.inj read⟩
      rcases number?_eq_some_iff.mp number with ⟨means, small⟩ | ⟨ds, rfl, unsigned⟩
      · exact .inl (.number means small)
      · exact .inr ⟨ds, rfl, unsigned⟩
    · split at read
      · rename_i pointer
        subst pointer
        exact ⟨30, .inl .framePointer, Option.some.inj read⟩
      · obtain ⟨n, found, same⟩ := Option.map_eq_some_iff.mp read
        exact ⟨n, .inl (.conventional (idxOf?_names_eq_some_iff.mp found)), same⟩
  · cases read

theorem toNat_ofNat (small : n < 32) : (BitVec.ofNat 8 n).toNat = n :=
  Nat.mod_eq_of_lt (Nat.lt_trans small (by decide))

theorem ofToken?_eq_some_iff :
    ofToken? token = some r ↔ Names token r.toNat ∨ PlusNumber token r.toNat := by
  constructor
  · intro read
    obtain ⟨n, accepted, rfl⟩ := exists_of_ofToken? read
    rwa [toNat_ofNat (accepted.elim Names.lt PlusNumber.lt)]
  · intro accepted
    have read := accepted.elim ofToken?_of_names ofToken?_of_plusNumber
    rwa [BitVec.ofNat_toNat, BitVec.setWidth_eq] at read

theorem ofToken?_eq_none_iff :
    ofToken? token = none ↔ ¬∃ n, Names token n ∨ PlusNumber token n := by
  rw [Option.eq_none_iff_forall_ne_some]
  constructor
  · rintro unread ⟨n, accepted⟩
    exact unread _ (accepted.elim ofToken?_of_names ofToken?_of_plusNumber)
  · intro none r read
    exact none ⟨r.toNat, ofToken?_eq_some_iff.mp read⟩

theorem PlusNumber.not_names (plus : PlusNumber token n) (m : Nat) : ¬Names token m := by
  obtain ⟨ds, rfl, _⟩ := plus
  intro named
  cases named with
  | conventional known =>
    have each : ∀ name ∈ names, name.head? ≠ some '+' := by decide
    exact each _ (List.mem_of_getElem? known) rfl
  | number means =>
    rw [← value?_eq_some_iff] at means
    cases means

end Register

namespace Assembly

open Register (ofToken? Names PlusNumber)

def base? (tok : List Char) : Option (List Char) :=
  match Text.splitAtFirst (· == '(') tok with
  | (offset, some rest) =>
    if rest.getLast? = some ')' ∧ (offset = [] ∨ (integer? offset).isSome) then some rest.dropLast
    else none
  | (_, none) => none

/-- The operands that are read as registers, in the order in which this is done. -/
def registerOperands : Shape → List (List Char) → List (List Char)
  | .rdRsRt, [a, b, c] => [b, c, a]
  | .rdRtRs, [a, b, c] => [c, b, a]
  | .rdRtShamt, [a, b, _] => [b, a]
  | .rsRt, [a, b] => [a, b]
  | .rsRd, [a] => [a]
  | .rsRd, [a, b] => [b, a]
  | .rs, [a] => [a]
  | .rd, [a] => [a]
  | .rdRs, [a, b] => [a, b]
  | .rsRtLabel, [a, b, _] => [a, b]
  | .rsLabel, [a, _] => [a]
  | .rtRsImm, [a, b, _] => [b, a]
  | .rtImm, [a, _] => [a]
  | .rtMem, [a, b] =>
    match base? b with
    | some base => [base, a]
    | none => []
  | .rsImm, [a, _] => [a]
  | _, _ => []

def registerTokens (l : Line) : List (List Char) :=
  match tokens (leadingLabels l.text).2 with
  | [] => []
  | name :: ops =>
    match Mnemonic.ofName? name with
    | none => []
    | some m => registerOperands m.shape ops

/-- A computation that is refused for an unknown register exactly if one of these tokens is no
register, and then for the first of them. -/
def Asks {α : Type} (line : Nat) (toks : List (List Char)) (r : Except Error α) : Prop :=
  ∀ n tok, r = .error ⟨n, .unknownRegister tok⟩ ↔
    n = line ∧ toks.find? (fun t => (ofToken? t).isNone) = some tok

section Combinators

variable {α β : Type} {line : Nat} {toks : List (List Char)} {p : Place} {tok : List Char}

theorem asks_ok (a : α) : Asks line [] (.ok a) := by simp [Asks]

theorem asks_refused {c : Cause} (other : ∀ tok, c ≠ .unknownRegister tok) :
    Asks line [] (.error ⟨line, c⟩ : Except Error α) := by
  simp [Asks, other]

theorem Asks.bind {r : Except Error α} {f : α → Except Error β} (first : Asks line [] r)
    (rest : ∀ a, Asks line [] (f a)) : Asks line [] (r >>= f) := by
  cases r with
  | error e =>
    have refused : (Except.error e >>= f) = .error e := rfl
    intro n tok
    simpa [refused] using first n tok
  | ok a => exact rest a

theorem Asks.map {r : Except Error α} (asks : Asks line toks r) (f : α → β) :
    Asks line toks (r.map f) := fun n tok => map_eq_error_iff.trans (asks n tok)

theorem Asks.register_bind {f : Register → Except Error α} (rest : ∀ r, Asks p.line toks (f r)) :
    Asks p.line (tok :: toks) (p.register tok >>= f) := by
  intro n t
  rw [List.find?_cons, Place.register]
  cases ofToken? tok with
  | none =>
    show Except.error (⟨p.line, .unknownRegister tok⟩ : Error) = _ ↔ _
    simp [eq_comm]
  | some r => exact rest r n t

theorem asks_immediate (p : Place) (bits : Nat) (tok : List Char) :
    Asks p.line [] (p.immediate bits tok) := by
  unfold Place.immediate
  split
  · exact asks_ok _
  · exact asks_refused nofun

theorem asks_resolve (p : Place) (tok : List Char) :
    Asks p.line [] (p.symbols.resolve tok p.line) := by
  unfold Symbols.resolve
  split
  · exact asks_ok _
  · exact asks_refused nofun

theorem asks_branchDistance (p : Place) (tok : List Char) :
    Asks p.line [] (p.branchDistance tok) := by
  unfold Place.branchDistance
  split
  · exact asks_ok _
  · exact (asks_resolve p tok).map _

theorem asks_jumpTarget (p : Place) (tok : List Char) : Asks p.line [] (p.jumpTarget tok) := by
  unfold Place.jumpTarget
  dsimp only
  split
  · exact asks_ok _
  · exact (asks_resolve p tok).map _

theorem exists_memory_of_base? {base : List Char} (within : base? tok = some base) :
    ∃ imm, p.memory tok = p.register base >>= fun r => .ok (r, imm) := by
  rcases cut : Text.splitAtFirst (· == '(') tok with ⟨offset, _ | rest⟩
  · simp [base?, cut] at within
  · simp only [base?, cut, Option.ite_none_right_eq_some, Option.some.injEq] at within
    obtain ⟨⟨closed, readable⟩, rfl⟩ := within
    by_cases absent : offset = []
    · refine ⟨0, ?_⟩
      simp only [Place.memory, cut, if_pos closed, if_pos absent]
      rfl
    · obtain ⟨z, spelled⟩ := Option.isSome_iff_exists.mp (readable.resolve_left absent)
      refine ⟨BitVec.ofInt 16 z, ?_⟩
      simp only [Place.memory, cut, if_pos closed, if_neg absent, Place.immediate, spelled]
      rfl

theorem exists_refuse_of_base?_eq_none (malformed : base? tok = none) :
    ∃ c, p.memory tok = p.refuse c ∧ ∀ t, c ≠ .unknownRegister t := by
  rcases cut : Text.splitAtFirst (· == '(') tok with ⟨offset, _ | rest⟩
  · refine ⟨.badMemoryOperand tok, ?_, nofun⟩
    simp only [Place.memory, cut]
  · by_cases closed : rest.getLast? = some ')'
    · have unread : offset ≠ [] ∧ integer? offset = none := by
        simpa [base?, cut, closed] using malformed
      refine ⟨.badImmediate offset, ?_, nofun⟩
      simp only [Place.memory, cut, if_pos closed, if_neg unread.1, Place.immediate, unread.2]
      rfl
    · refine ⟨.badMemoryOperand tok, ?_, nofun⟩
      simp only [Place.memory, cut, if_neg closed]

end Combinators

theorem asks_operandFields (p : Place) (mnemonic : List Char) (shape : Shape)
    (ops : List (List Char)) :
    Asks p.line (registerOperands shape ops) (operandFields p mnemonic shape ops) := by
  unfold operandFields
  split
  · exact .register_bind fun _ => .register_bind fun _ => .register_bind fun _ => asks_ok _
  · exact .register_bind fun _ => .register_bind fun _ => .register_bind fun _ => asks_ok _
  · exact .register_bind fun _ => .register_bind fun _ =>
      (asks_immediate p _ _).bind fun _ => asks_ok _
  · exact .register_bind fun _ => .register_bind fun _ => asks_ok _
  · exact .register_bind fun _ => asks_ok _
  · exact .register_bind fun _ => .register_bind fun _ => asks_ok _
  · exact .register_bind fun _ => asks_ok _
  · exact .register_bind fun _ => asks_ok _
  · exact .register_bind fun _ => .register_bind fun _ => asks_ok _
  · exact .register_bind fun _ => .register_bind fun _ =>
      (asks_branchDistance p _).bind fun _ => asks_ok _
  · exact .register_bind fun _ => (asks_branchDistance p _).bind fun _ => asks_ok _
  · exact .register_bind fun _ => .register_bind fun _ =>
      (asks_immediate p _ _).bind fun _ => asks_ok _
  · exact .register_bind fun _ => (asks_immediate p _ _).bind fun _ => asks_ok _
  · rename_i a b
    unfold registerOperands
    dsimp only
    split
    · rename_i base within
      obtain ⟨imm, memory⟩ := exists_memory_of_base? (p := p) within
      rw [memory, bind_assoc]
      exact .register_bind fun _ => .register_bind fun _ => asks_ok _
    · rename_i malformed
      obtain ⟨c, refused, other⟩ := exists_refuse_of_base?_eq_none (p := p) malformed
      rw [refused]
      exact asks_refused other
  · exact .register_bind fun _ => (asks_immediate p _ _).bind fun _ => asks_ok _
  · exact (asks_jumpTarget p _).bind fun _ => asks_ok _
  · exact asks_ok _
  · exact (asks_immediate p _ _).bind fun _ => asks_ok _
  · exact asks_ok _
  · rw [registerOperands]
    · exact asks_refused nofun
    all_goals assumption

theorem asks_lineWord (l : Line) (pc : Word) (symbols : Symbols) :
    Asks l.number (registerTokens l) (lineWord l pc symbols) := by
  unfold lineWord registerTokens
  cases tokens (leadingLabels l.text).2 with
  | nil => exact asks_refused nofun
  | cons name ops =>
    dsimp only
    cases Mnemonic.ofName? name with
    | none => exact asks_refused nofun
    | some m => exact (asks_operandFields ⟨l.number, pc, symbols⟩ _ m.shape ops).map _

/-- A token is read as the register that it names, by a conventional name, by the other name of the
frame pointer or by a number, or else by a number behind a plus sign. So it is read exactly as the
register that it names, and is refused if it names none, unless it is such a number. A line is
refused for an unknown register exactly if one of the tokens that should be registers is read as
none, and then the first of them in the order of reading is reported. -/
theorem registers_iff_unsigned (token : List Char) :
    (∀ r, ofToken? token = some r ↔ Names token r.toNat ∨ PlusNumber token r.toNat) ∧
      ((∀ r, ofToken? token = some r ↔ Names token r.toNat) ↔ ¬∃ n, PlusNumber token n) ∧
      ∀ (l : Line) (pc : Word) (symbols : Symbols) (n : Nat),
        lineWord l pc symbols = .error ⟨n, .unknownRegister token⟩ ↔
          n = l.number ∧ ∃ before after, registerTokens l = before ++ token :: after ∧
            (∀ t ∈ before, ∃ k, Names t k ∨ PlusNumber t k) ∧
              ¬∃ k, Names token k ∨ PlusNumber token k := by
  refine ⟨fun r => Register.ofToken?_eq_some_iff, ⟨?_, ?_⟩, ?_⟩
  · rintro same ⟨n, plus⟩
    exact plus.not_names _ ((same _).mp (Register.ofToken?_of_plusNumber plus))
  · intro unsigned r
    rw [Register.ofToken?_eq_some_iff, or_iff_left fun plus => unsigned ⟨_, plus⟩]
  · intro l pc symbols n
    have unread (t : List Char) : (ofToken? t).isNone = true ↔
        ¬∃ k, Names t k ∨ PlusNumber t k := by
      rw [Option.isNone_iff_eq_none, Register.ofToken?_eq_none_iff]
    have read (t : List Char) : (!(ofToken? t).isNone) = true ↔
        ∃ k, Names t k ∨ PlusNumber t k := by
      rw [Bool.not_eq_true', ← Bool.not_eq_true, unread, not_not]
    rw [asks_lineWord, List.find?_eq_some_iff_append]
    simp only [unread, read]
    constructor
    · rintro ⟨line, other, before, after, parts, registers⟩
      exact ⟨line, before, after, parts, registers, other⟩
    · rintro ⟨line, before, after, parts, registers, other⟩
      exact ⟨line, other, before, after, parts, registers⟩

/-- A number behind a plus sign is read as a register although the token names none. A number
behind a minus sign is refused, once the base of the memory operand behind it has been read. -/
theorem registers_iff_unsigned_signs :
    ofToken? "$+5".toList = some 5 ∧
      ¬(∀ r, ofToken? "$+5".toList = some r ↔ Names "$+5".toList r.toNat) ∧
      lineWord ⟨1, "jr $+5".toList⟩ textBase {} = .ok 0x00A00008 ∧
      lineWord ⟨2, "lw $-1, 4($sp)".toList⟩ textBase {} =
        .error ⟨2, .unknownRegister "$-1".toList⟩ := by
  obtain ⟨read, named, _⟩ := registers_iff_unsigned "$+5".toList
  obtain ⟨_, _, refused⟩ := registers_iff_unsigned "$-1".toList
  have plus : PlusNumber "$+5".toList 5 :=
    ⟨['5'], rfl, Numeral.value?_eq_some_iff.mp (by decide), by decide⟩
  have base : Names "$sp".toList 29 := .conventional rfl
  refine ⟨(read 5).mpr (.inr plus), fun same => named.mp same ⟨5, plus⟩, by decide +kernel,
    (refused ..).mpr ⟨rfl, ["$sp".toList], [], by decide +kernel, ?_, ?_⟩⟩
  · exact List.forall_mem_singleton.mpr ⟨29, .inl base⟩
  · exact Register.ofToken?_eq_none_iff.mp (by decide)

end Assembly
end Mips
