import Mathlib.Algebra.BigOperators.Group.List.Basic
import Mathlib.Algebra.Ring.Int.Defs
import Mathlib.Data.List.DropRight
import Mips.Proofs.Hart.Arithmetic

/-!
Products and what runs of multiplications come to. A product enters the product register afresh, is
added to what is there or is taken from it. Main statements: `total_concat`, one more product behind
others; `product_of_execAll`, a run leaves the total of its products modulo `2 ^ 64`; and
`accumulates_products`, which puts together what follows for multiplications alone.
-/
namespace Mips

inductive Entry
  | fresh | added | taken
  deriving DecidableEq

def Entry.enter : Entry → Int → Int → Int
  | fresh, _, x => x
  | added, z, x => z + x
  | taken, z, x => z - x

/-- A product with the way it enters the product register. -/
structure Summand where
  entry : Entry
  product : Int

namespace Summand

/-- Whether a product leaves its part to those before it. -/
def accumulates (t : Summand) : Bool := t.entry ≠ .fresh

def share (t : Summand) : Int := if t.entry = .taken then -t.product else t.product

/-- What products come to behind a number: the last fresh one, or the number if there is none, with
the shares of those behind it. -/
def total (z : Int) (ts : List Summand) : Int :=
  ((ts.rdropWhile accumulates).getLast?.elim z product) + ((ts.rtakeWhile accumulates).map share).sum

variable {ts front back back' : List Summand}

theorem enter_of_accumulates {t : Summand} (more : t.accumulates) (z : Int) :
    t.entry.enter z t.product = z + t.share := by
  cases entry : t.entry with
  | fresh => simp [accumulates, entry] at more
  | added => simp [Entry.enter, share, entry]
  | taken => simp [Entry.enter, share, entry, sub_eq_add_neg]

theorem total_concat (z : Int) (ts : List Summand) (t : Summand) :
    total z (ts ++ [t]) = t.entry.enter (total z ts) t.product := by
  by_cases more : t.accumulates
  · simp [total, List.rtakeWhile_concat_pos _ _ _ more, List.rdropWhile_concat_pos _ _ _ more,
      enter_of_accumulates more, add_assoc]
  · have fresh : t.entry = .fresh := by simpa [accumulates] using more
    simp [total, List.rtakeWhile_concat_neg _ _ _ more, List.rdropWhile_concat_neg _ _ _ more,
      fresh, Entry.enter]

theorem total_eq_foldl (z : Int) (ts : List Summand) :
    total z ts = ts.foldl (fun z t => t.entry.enter z t.product) z := by
  induction ts using List.reverseRecOn with
  | nil => simp [total]
  | append_singleton ts t ih => rw [total_concat, ih, List.foldl_concat]

theorem total_append (z : Int) (front : List Summand) (later : ∀ t ∈ back, t.accumulates) :
    total z (front ++ back) = total z front + (back.map share).sum := by
  induction back using List.reverseRecOn with
  | nil => simp
  | append_singleton back t ih =>
    have rest := ih fun u among => later u (List.mem_append_left _ among)
    have last := later t (by simp)
    rw [← List.append_assoc, total_concat, rest, enter_of_accumulates last]
    simp [add_assoc]

theorem total_perm (z : Int) (front : List Summand) (later : ∀ t ∈ back, t.accumulates)
    (order : back.Perm back') : total z (front ++ back) = total z (front ++ back') := by
  have later' : ∀ t ∈ back', t.accumulates := fun t among => later t (order.mem_iff.mpr among)
  rw [total_append z front later, total_append z front later', (order.map share).sum_eq]

end Summand

namespace Word

theorem toBitVec_ofInt64 (z : Int) : (UInt64.ofInt z).toBitVec = BitVec.ofInt 64 z := by
  apply BitVec.eq_of_toNat_eq
  simpa [UInt64.ofInt, BitVec.toNat_ofInt] using Int.emod_lt_of_pos z (by decide)

theorem toNat_ofInt64 (z : Int) : ((UInt64.ofInt z).toNat : Int) = z % 0x10000000000000000 := by
  rw [← UInt64.toNat_toBitVec, toBitVec_ofInt64, BitVec.toNat_ofInt]
  exact Int.toNat_of_nonneg (Int.emod_nonneg z (by decide))

theorem ofInt64_toNat (p : UInt64) : UInt64.ofInt p.toNat = p := by
  apply UInt64.toBitVec_inj.mp
  simp [toBitVec_ofInt64]

theorem signedProduct_eq (a b : Word) :
    signedProduct a b = UInt64.ofInt (a.signed * b.signed) := by
  apply UInt64.toBitVec_inj.mp
  rw [toBitVec_signedProduct, toBitVec_ofInt64, BitVec.ofInt_mul]
  rfl

theorem product_eq (a b : Word) : product a b = UInt64.ofInt (a.toNat * b.toNat) := by
  apply UInt64.toBitVec_inj.mp
  rw [toBitVec_product, toBitVec_ofInt64, BitVec.ofInt_mul]
  simp

theorem low_ofInt64 (z : Int) : low (UInt64.ofInt z) = ofInt z := by
  apply BitVec.eq_of_toNat_eq
  have double := toNat_ofInt64 z
  have single := toNat_ofInt z
  rw [toNat_low]
  omega

theorem low_product (a b : Word) : low (product a b) = a.mul b := by
  rw [product_eq, low_ofInt64, ofInt_eq, BitVec.ofInt_mul, mul_eq]
  simp

theorem low_signedProduct (a b : Word) : low (signedProduct a b) = a.mul b := by
  rw [signedProduct_eq, low_ofInt64, ofInt_eq, BitVec.ofInt_mul, mul_eq]
  simp [signed_eq]

theorem toNat_product (a b : Word) : (product a b).toNat = a.toNat * b.toNat := by
  have bound : a.toNat * b.toNat < 0x100000000 * 0x100000000 := Nat.mul_lt_mul'' a.isLt b.isLt
  have residue := toNat_ofInt64 (a.toNat * b.toNat)
  rw [product_eq]
  omega

/-- A signed product fits into 64 bits, the upper half of which carry the sign. -/
theorem signed_high_signedProduct (a b : Word) :
    (high (signedProduct a b)).signed * 0x100000000 + (low (signedProduct a b)).toNat =
      a.signed * b.signed := by
  have lower : -0x4000000000000000 ≤ a.signed * b.signed := BitVec.le_toInt_mul_toInt
  have upper : a.signed * b.signed ≤ 0x4000000000000000 := BitVec.toInt_mul_toInt_le
  have residue := toNat_ofInt64 (a.signed * b.signed)
  rw [← signedProduct_eq] at residue
  rw [signed_eq, BitVec.toInt_eq_toNat_cond, toNat_high, toNat_low]
  split <;> omega

end Word

namespace MulDiv

def isSigned : MulDiv → Bool
  | mult | div | madd | msub => true
  | multu | divu | maddu | msubu => false

def entry? : MulDiv → Option Entry
  | mult | multu => some .fresh
  | madd | maddu => some .added
  | msub | msubu => some .taken
  | div | divu => none

def product (op : MulDiv) (a b : Word) : Int :=
  if op.isSigned then a.signed * b.signed else a.toNat * b.toNat

theorem result_eq {op : MulDiv} {e : Entry} (enters : op.entry? = some e) (z : Int) (a b : Word) :
    op.result (UInt64.ofInt z) a b = UInt64.ofInt (e.enter z (op.product a b)) := by
  cases op <;> cases enters <;>
    simp [result, product, isSigned, Entry.enter, Word.signedProduct_eq, Word.product_eq,
      UInt64.ofInt_add, UInt64.ofInt_neg, Int.sub_eq_add_neg, UInt64.sub_eq_add_neg]

end MulDiv

def Instruction.entry? : Instruction → Option Entry
  | .mulDiv op _ _ => op.entry?
  | _ => none

/-- Whether an instruction puts something else than a product into a half of the product
register. -/
def Instruction.Overwrites : Instruction → Prop
  | .mulDiv op _ _ => op.entry? = none
  | .moveTo .. => True
  | _ => False

def Cpu.held (c : Cpu) : Nat := c.hi.toNat * 0x100000000 + c.lo.toNat

theorem Cpu.toNat_product (c : Cpu) : c.product.toNat = c.held := Word.toNat_join c.hi c.lo

namespace Hart

variable {h h' : Hart} {i : Instruction} {is : List Instruction}

def summand? (h : Hart) : Instruction → Option Summand
  | .mulDiv op rs rt => op.entry?.map (⟨·, op.product (h.cpu.read rs) (h.cpu.read rt)⟩)
  | _ => none

/-- The products that a run of instructions forms, each of its operands as it finds them. -/
def summands (h : Hart) : List Instruction → List Summand
  | [] => []
  | i :: is => (h.summand? i).toList ++ (h.exec i).1.summands is

theorem product_of_exec {z : Int} (before : h.cpu.product = UInt64.ofInt z)
    (plain : ¬i.Overwrites) (done : h.exec i = (h', none)) :
    h'.cpu.product = UInt64.ofInt
      ((h.summand? i).toList.foldl (fun z t => t.entry.enter z t.product) z) := by
  cases i with
  | mulDiv op rs rt =>
    obtain ⟨e, enters⟩ := Option.ne_none_iff_exists'.mp plain
    cases done
    simp only [summand?, enters, Option.map_some, Option.toList_some, List.foldl_cons,
      List.foldl_nil]
    rw [Cpu.product_setProduct, before, MulDiv.result_eq enters]
  | moveTo half rs => exact absurd trivial plain
  | _ =>
    obtain ⟨_, _, same⟩ := cpu_exec done
    rw [same]
    exact before

theorem product_of_execAll {z : Int} (before : h.cpu.product = UInt64.ofInt z)
    (plain : ∀ i ∈ is, ¬i.Overwrites) (done : h.execAll is = (h', none)) :
    h'.cpu.product = UInt64.ofInt (Summand.total z (h.summands is)) := by
  rw [Summand.total_eq_foldl]
  induction is generalizing h z with
  | nil =>
    cases done
    exact before
  | cons i is ih =>
    obtain ⟨h₁, first, rest⟩ := execAll_cons_eq_none done
    have entered := product_of_exec before (plain i List.mem_cons_self) first
    have later := ih entered (fun j among => plain j (List.mem_cons_of_mem i among)) rest
    rw [later, summands, List.foldl_append, first]

theorem held_of_product {z : Int} (after : h.cpu.product = UInt64.ofInt z) :
    (h.cpu.held : Int) = z % 0x10000000000000000 := by
  rw [← Cpu.toNat_product, after, Word.toNat_ofInt64]

theorem product_eq_ofInt (h : Hart) : h.cpu.product = UInt64.ofInt h.cpu.held := by
  rw [← Cpu.toNat_product, Word.ofInt64_toNat]

theorem entry?_of_summand? {t : Summand} (forms : h.summand? i = some t) :
    i.entry? = some t.entry := by
  cases i with
  | mulDiv op rs rt =>
    obtain ⟨e, enters, rfl⟩ := Option.map_eq_some_iff.mp forms
    exact enters
  | _ => cases forms

theorem summand?_withHalves (h : Hart) (hi lo : Word) :
    (h.withHalves hi lo).summand? = h.summand? := by
  funext i
  cases i <;> rfl

theorem exec_of_entry? {e : Entry} (enters : i.entry? = some e) (h : Hart) :
    ∃ hi lo, h.exec i = (h.withHalves hi lo, none) := by
  cases i with
  | mulDiv op rs rt => exact ⟨_, _, rfl⟩
  | _ => cases enters

/-- Multiplications alone never trap, and all of them find the registers as they were. -/
theorem execAll_multiplications (all : ∀ i ∈ is, i.entry? ≠ none) (h : Hart) :
    ∃ hi lo, h.execAll is = (h.withHalves hi lo, none) ∧
      h.summands is = is.filterMap h.summand? := by
  induction is generalizing h with
  | nil => exact ⟨h.cpu.hi, h.cpu.lo, rfl, rfl⟩
  | cons i is ih =>
    obtain ⟨e, enters⟩ := Option.ne_none_iff_exists'.mp (all i List.mem_cons_self)
    obtain ⟨hi, lo, first⟩ := exec_of_entry? enters h
    obtain ⟨hi', lo', rest, forms⟩ :=
      ih (fun j among => all j (List.mem_cons_of_mem i among)) (h.withHalves hi lo)
    refine ⟨hi', lo', (execAll_cons first is).trans rest, ?_⟩
    -- Only the halves have changed, from which no product is formed.
    rw [summands, first, forms, summand?_withHalves]
    cases formed : h.summand? i <;> simp [formed]

theorem not_overwrites (multiplies : i.entry? ≠ none) : ¬i.Overwrites := by
  cases i with
  | mulDiv op rs rt => exact multiplies
  | _ => exact absurd rfl multiplies

theorem execAll_eq (all : ∀ i ∈ is, i.entry? ≠ none) (h : Hart) :
    h.execAll is =
      (h.withHalves
        (Word.high (UInt64.ofInt (Summand.total h.cpu.held (is.filterMap h.summand?))))
        (Word.low (UInt64.ofInt (Summand.total h.cpu.held (is.filterMap h.summand?)))), none) := by
  obtain ⟨hi, lo, done, forms⟩ := execAll_multiplications all h
  have after := product_of_execAll h.product_eq_ofInt (fun i among => not_overwrites (all i among))
    done
  rw [done, ← forms, ← after]
  exact congrArg₂ (fun hi lo => (h.withHalves hi lo, none)) (Word.high_join hi lo).symm
    (Word.low_join hi lo).symm

theorem execAll_perm {back back' : List Instruction}
    (more : ∀ i ∈ back, i.entry? = some .added ∨ i.entry? = some .taken)
    (order : back.Perm back') (h : Hart) : h.execAll back = h.execAll back' := by
  have all : ∀ i ∈ back, i.entry? ≠ none := by
    intro i among
    rcases more i among with enters | enters <;> simp [enters]
  have all' : ∀ i ∈ back', i.entry? ≠ none := fun i among => all i (order.mem_iff.mpr among)
  have later : ∀ t ∈ back.filterMap h.summand?, t.accumulates := by
    intro t among
    obtain ⟨i, inside, forms⟩ := List.mem_filterMap.mp among
    rcases more i inside with enters | enters <;>
      simp_all [Summand.accumulates, entry?_of_summand? forms]
  have same := Summand.total_perm h.cpu.held [] later (order.filterMap h.summand?)
  rw [execAll_eq all, execAll_eq all', ← List.nil_append (back.filterMap _), same]
  rfl

structure Accumulates (h : Hart) : Prop where
  /-- Whatever else happens between the products, so long as it leaves `HI` and `LO` alone. -/
  run : ∀ is h', (∀ i ∈ is, ¬i.Overwrites) → h.execAll is = (h', none) →
    (h'.cpu.held : Int) = Summand.total h.cpu.held (h.summands is) % 0x10000000000000000
  alone : ∀ is, (∀ i ∈ is, i.entry? ≠ none) → ∃ hi lo, h.execAll is = (h.withHalves hi lo, none) ∧
    ((h.withHalves hi lo).cpu.held : Int) =
      Summand.total h.cpu.held (is.filterMap h.summand?) % 0x10000000000000000
  permuted : ∀ front back back', back.Perm back' →
    (∀ i ∈ back, i.entry? = some .added ∨ i.entry? = some .taken) →
    h.execAll (front ++ back) = h.execAll (front ++ back')
  mult : ∀ rs rt, ∃ hi lo, h.exec (.mulDiv .mult rs rt) = (h.withHalves hi lo, none) ∧
    hi.signed * 0x100000000 + lo.toNat = (h.cpu.read rs).signed * (h.cpu.read rt).signed
  multu : ∀ rs rt, ∃ hi lo, h.exec (.mulDiv .multu rs rt) = (h.withHalves hi lo, none) ∧
    hi.toNat * 0x100000000 + lo.toNat = (h.cpu.read rs).toNat * (h.cpu.read rt).toNat
  mul : ∀ rd rs rt op, op.entry? = some .fresh → ∃ hi lo,
    h.exec (.mulDiv op rs rt) = (h.withHalves hi lo, none) ∧
      h.Puts (.alu .mul rd rs rt) rd lo

theorem low_of_fresh {op : MulDiv} (enters : op.entry? = some .fresh) (p : UInt64) (a b : Word) :
    Word.low (op.result p a b) = a.mul b := by
  cases op with
  | mult => exact Word.low_signedProduct a b
  | multu => exact Word.low_product a b
  | _ => cases enters

theorem accumulates_products (h : Hart) : h.Accumulates := by
  constructor
  · intro is h' plain done
    exact held_of_product (product_of_execAll h.product_eq_ofInt plain done)
  · intro is all
    obtain ⟨hi, lo, done, forms⟩ := execAll_multiplications all h
    have after := product_of_execAll h.product_eq_ofInt
      (fun i among => not_overwrites (all i among)) done
    exact ⟨hi, lo, done, forms ▸ held_of_product after⟩
  · intro front back back' order more
    exact execAll_append_congr (execAll_perm more order) front
  · intro rs rt
    exact ⟨_, _, rfl, Word.signed_high_signedProduct _ _⟩
  · intro rs rt
    refine ⟨_, _, rfl, ?_⟩
    rw [← Word.toNat_join, Word.join_high_low]
    exact Word.toNat_product _ _
  · intro rd rs rt op enters
    refine ⟨_, _, rfl, puts_iff.mpr ?_⟩
    rw [low_of_fresh enters]
    rfl

end Hart
end Mips
