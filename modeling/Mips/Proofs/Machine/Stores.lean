import Mips.Proofs.Hart.Stores
import Mips.Proofs.Machine.Faults
import Mips.Proofs.Machine.Steps
import Mips.Proofs.Process.Effects

namespace Mips

def Memory.InText (m : Memory) (a : Nat) : Prop := m.layout.textBase.toNat ≤ a ∧ a < m.textEnd.toNat

instance (m : Memory) (a : Nat) : Decidable (m.InText a) := inferInstanceAs (Decidable (_ ∧ _))

namespace Process

/-- Whether a service reads into a buffer that holds the byte at an address. -/
def Fills (p : Process) (a : Nat) : Service → Prop
  | .readString =>
    (p.reg Register.a0).toNat ≤ a ∧
      (a : Int) < (p.reg Register.a0).toNat + (p.reg Register.a1).signed
  | .readBlock =>
    (p.reg Register.a1).toNat ≤ a ∧ a < (p.reg Register.a1).toNat + (p.reg Register.a2).toNat
  | _ => False

instance (p : Process) (a : Nat) : (s : Service) → Decidable (p.Fills a s)
  | .readString | .readBlock => inferInstanceAs (Decidable (_ ∧ _))
  | .printInt | .printString | .readInt | .sbrk | .exit | .printChar | .readChar | .openFile
  | .writeBlock | .closeFile | .exitWith => inferInstanceAs (Decidable False)

variable {p : Process} {k : Nat}

theorem Effect.byteAt {h : Hart} (effect : Effect p h)
    (apart : ∀ s ∈ p.selected?, ¬p.Fills (p.hart.mem.layout.base.toNat + k) s) :
    h.mem.byteAt k = p.hart.mem.byteAt k := by
  cases effect with
  | kept | answered | grown => rfl
  | line selected short written =>
    have outside := apart _ selected
    apply Memory.byteAt_of_write written
    rw [Fills] at outside
    omega
  | block selected short written =>
    have outside := apart _ selected
    apply Memory.byteAt_of_writeBlock written
    rw [Fills] at outside
    omega

end Process

namespace Machine

variable {m m₀ : Machine} {prog : Program} {n k : Nat}

def faults (m : Machine) : Bool :=
  match m.step.2 with
  | some (.fault _) => true
  | _ => false

/-- Whether a step does not fault and executes a store that covers the byte at an address or
performs a service that reads into a buffer that holds it. -/
def StoresTo (m : Machine) (a : Nat) : Prop :=
  m.faults = false ∧
    ∃ i ∈ m.current?, m.hart.StoresTo a i ∨ i = .syscall ∧ ∃ s ∈ m.selected?, m.Fills a s

instance (m : Machine) (a : Nat) : Decidable (m.StoresTo a) :=
  inferInstanceAs (Decidable (_ ∧ ∃ _ ∈ m.current?, _))

theorem byteAt_step_of_faults (faulted : m.faults = true) :
    m.step.1.hart.mem.byteAt k = m.hart.mem.byteAt k := by
  unfold faults at faulted
  split at faulted
  · rename_i f raised
    have stepped : m.step = (m.step.1, some (.fault f)) := Prod.ext rfl raised
    obtain ⟨_, ⟨same, _⟩ | ⟨precise, _⟩⟩ := limit_or_precise_of_step stepped
    · rw [same]
    · exact precise.byteAt k
  · cases faulted

theorem byteAt_step (apart : ¬m.StoresTo (m.hart.mem.layout.base.toNat + k)) :
    m.step.1.hart.mem.byteAt k = m.hart.mem.byteAt k := by
  cases faulted : m.faults with
  | true => exact byteAt_step_of_faults faulted
  | false =>
    rcases m.executed_cases with ⟨_, same⟩ | ⟨i, current, same | ⟨rfl, same⟩⟩
    · rw [same]
    · rw [same]
      apply Hart.byteAt_exec
      rw [Hart.storesTo_setPc]
      exact fun stores => apart ⟨faulted, i, current, .inl stores⟩
    · rw [same]
      apply (Process.effect_serve _).byteAt
      exact fun s selected fills => apart ⟨faulted, _, current, .inr ⟨rfl, s, selected, fills⟩⟩

theorem byteAt_after (apart : ∀ j < n, ¬(m.after j).StoresTo (m.hart.mem.layout.base.toNat + k)) :
    (m.after n).hart.mem.byteAt k = m.hart.mem.byteAt k := by
  induction n with
  | zero => rfl
  | succ n ih =>
    have last := apart n (Nat.lt_succ_self n)
    rw [← (sameMarks_after m n).layout] at last
    exact (byteAt_step last).trans (ih fun j earlier => apart j (Nat.lt_succ_of_lt earlier))

/-- The text of a loaded program stays where it is, and each byte of it stays what it is as long as
no step stores to it. -/
theorem text_of_not_storesTo (loaded : m.load prog = (m₀, none)) (n : Nat) :
    (∀ a, (m₀.after n).hart.mem.InText a ↔ m₀.hart.mem.InText a) ∧
      ∀ a, m₀.hart.mem.InText a → (∀ j < n, ¬(m₀.after j).StoresTo a) →
        (m₀.after n).hart.mem.byteAt (a - m.hart.mem.layout.base.toNat) =
          m₀.hart.mem.byteAt (a - m.hart.mem.layout.base.toNat) := by
  have marks := sameMarks_after m₀ n
  have layout := (sameMarks_of_load loaded 0).layout
  constructor
  · intro a
    rw [Memory.InText, Memory.InText, marks.layout, marks.textEnd]
  · intro a text apart
    have base : m₀.hart.mem.layout.base.toNat = m.hart.mem.layout.base.toNat :=
      congrArg (·.base.toNat) layout
    have place : m₀.hart.mem.layout.base.toNat + (a - m.hart.mem.layout.base.toNat) = a := by
      have above : m₀.hart.mem.layout.base.toNat ≤ a := text.1
      omega
    apply byteAt_after
    rwa [place]

theorem text_of_not_storesTo_third :
    ∃ m₀, (start {} ⟨{ source := .bytes {} none }, {}, {}, {}, ∅, 3⟩).load
        ⟨[], [0x3C080040, 0xAD000008, 0x0000000C]⟩ = (m₀, none) ∧ (m₀.after 2).steps = 2 ∧
      (m₀.after 2).hart.mem.byteAt 4 = m₀.hart.mem.byteAt 4 ∧
      (m₀.after 1).StoresTo 0x0040000B := by
  let m₀ := ((start {} ⟨{ source := .bytes {} none }, {}, {}, {}, ∅, 3⟩).load
    ⟨[], [0x3C080040, 0xAD000008, 0x0000000C]⟩).1
  have loaded : (start {} ⟨{ source := .bytes {} none }, {}, {}, {}, ∅, 3⟩).load
      ⟨[], [0x3C080040, 0xAD000008, 0x0000000C]⟩ = (m₀, none) := Prod.ext rfl (by decide +kernel)
  have text : m₀.hart.mem.InText 0x00400004 := by decide +kernel
  have apart : ∀ j < 2, ¬(m₀.after j).StoresTo 0x00400004 := by decide +kernel
  have kept := (text_of_not_storesTo loaded 2).2 _ text apart
  have place : 0x00400004 - (0x00400000 : Word).toNat = 4 := by decide
  exact ⟨m₀, loaded, by decide +kernel, place ▸ kept, by decide +kernel⟩

/-- Stores to text are not refused. -/
theorem text_overwritten :
    ∃ m₀, (start {} ⟨{ source := .bytes {} none }, {}, {}, {}, ∅, 3⟩).load
        ⟨[], [0x3C080040, 0xAD000000]⟩ = (m₀, none) ∧ m₀.hart.mem.InText 0x00400000 ∧
      (m₀.after 2).hart.mem.byteAt 0 ≠ m₀.hart.mem.byteAt 0 := by
  refine ⟨((start {} ⟨{ source := .bytes {} none }, {}, {}, {}, ∅, 3⟩).load
    ⟨[], [0x3C080040, 0xAD000000]⟩).1, Prod.ext rfl ?_, ?_, ?_⟩ <;> decide +kernel

end Machine
end Mips
