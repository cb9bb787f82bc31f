import Mips.Proofs.Machine.Steps
import Mips.Proofs.Program.Placement

/-!
The heap of a program that runs. Main statement: `heapKept_of_load`, the heap is moved by the
service that grows it and by nothing else, and the stretches that it grants lie one behind the
other.
-/
namespace Mips

structure Grant where
  start : Word
  size : Nat
  deriving DecidableEq, Repr

namespace Grant

def Holds (g : Grant) (a : Nat) : Prop := g.start.toNat ≤ a ∧ a < g.start.toNat + g.size

def Apart (g g' : Grant) : Prop := ∀ a, ¬(g.Holds a ∧ g'.Holds a)

def total : List Grant → Nat
  | [] => 0
  | g :: gs => g.size + total gs

/-- Grants of which the first begins at an address and each other one where the one before ends. -/
def Adjoin : Nat → List Grant → Prop
  | _, [] => True
  | a, g :: gs => g.start.toNat = a ∧ Adjoin (a + g.size) gs

theorem total_append (gs : List Grant) (g : Grant) : total (gs ++ [g]) = total gs + g.size := by
  induction gs with
  | nil => exact Nat.add_comm ..
  | cons first gs ih => rw [List.cons_append, total, ih, total, Nat.add_assoc]

theorem Adjoin.append {a : Nat} {gs : List Grant} (adjoin : Adjoin a gs) {g : Grant}
    (next : g.start.toNat = a + total gs) : Adjoin a (gs ++ [g]) := by
  induction gs generalizing a with
  | nil => exact ⟨next, trivial⟩
  | cons first gs ih =>
    obtain ⟨here, adjoin⟩ := adjoin
    refine ⟨here, ih adjoin ?_⟩
    rw [total] at next
    omega

theorem Adjoin.le_start {a : Nat} {gs : List Grant} (adjoin : Adjoin a gs) :
    ∀ g ∈ gs, a ≤ g.start.toNat := by
  induction gs generalizing a with
  | nil => nofun
  | cons first gs ih =>
    obtain ⟨here, adjoin⟩ := adjoin
    refine List.forall_mem_cons.mpr ⟨Nat.le_of_eq here.symm, fun g later => ?_⟩
    have behind := ih adjoin g later
    omega

theorem Adjoin.apart {a : Nat} {gs : List Grant} (adjoin : Adjoin a gs) : gs.Pairwise Apart := by
  induction gs generalizing a with
  | nil => exact .nil
  | cons first gs ih =>
    obtain ⟨here, adjoin⟩ := adjoin
    refine .cons (fun g later x both => ?_) (ih adjoin)
    obtain ⟨⟨_, before⟩, ⟨behind, _⟩⟩ := both
    have next := adjoin.le_start g later
    omega

end Grant

namespace Memory

theorem toNat_grown (m : Memory) (incr : Word) :
    m.heapEnd.toNat ≤ (m.grown incr).toNat ∧
      (m.heapEnd.toNat + incr.signed.toNat < 0x100000000 →
        (m.grown incr).toNat = m.heapEnd.toNat + incr.signed.toNat) := by
  have bound := m.heapEnd.isLt
  rw [grown, Word.ofNat_eq, BitVec.toNat_ofNat]
  omega

end Memory

open Memory (SameMarks Written)

theorem Process.reg_sbrk (p : Process) (incr : Word) :
    (p.sbrk incr).1.reg Register.v0 = p.hart.mem.heapEnd :=
  reg_answer_toNat (p.setMemory (p.hart.mem.grow incr)) p.hart.mem.heapEnd

namespace Machine

variable {m m₀ : Machine} {prog : Program} {n : Nat}

def increment? (m : Machine) : Option Word :=
  if m.current? = some .syscall ∧ m.selected? = some .sbrk then some (m.reg Register.a0) else none

/-- What a step is granted, if it grows the heap by a positive increment. -/
def grant? (m : Machine) : Option Grant :=
  (m.increment?.filter (0 < ·.signed)).map fun incr =>
    ⟨m.step.1.reg Register.v0, incr.signed.toNat⟩

def grants (m : Machine) (n : Nat) : List Grant :=
  (List.range n).filterMap fun j => (m.after j).grant?

theorem grants_succ (m : Machine) (n : Nat) :
    m.grants (n + 1) = m.grants n ++ (m.after n).grant?.toList := by
  rw [grants, List.range_succ, List.filterMap_append]
  cases granted : (m.after n).grant? <;> simp [grants, granted]

/-- A step grows the heap and answers where it ended, or it stores bytes at most. -/
theorem heap_cases (m : Machine) :
    (∃ incr, m.increment? = some incr ∧ m.step.1.hart.mem = m.hart.mem.grow incr ∧
        m.step.1.reg Register.v0 = m.hart.mem.heapEnd) ∨
      (m.increment? = none ∧ Written m.hart.mem m.step.1.hart.mem) := by
  by_cases called : m.current? = some .syscall
  · have served := step_of_syscall called
    generalize ahead : ({ m.toProcess with hart := m.hart.setPc (m.hart.cpu.pc.add 4) } : Process) =
      p at served
    have mem : p.hart.mem = m.hart.mem := by rw [← ahead]; rfl
    have reg (r : Register) : p.reg r = m.reg r := by rw [← ahead]; rfl
    rw [served, ← mem]
    by_cases selected : m.selected? = some .sbrk
    · refine .inl ⟨m.reg Register.a0, if_pos ⟨called, selected⟩, ?_⟩
      rw [Process.serve_of_sbrk (by rw [reg]; exact selected), reg]
      exact ⟨rfl, Process.reg_sbrk ..⟩
    · refine .inr ⟨if_neg fun both => selected both.2, ?_⟩
      exact Process.written_serve (by rw [reg]; exact selected)
  · refine .inr ⟨if_neg fun both => called both.1, ?_⟩
    rcases m.executed_cases with ⟨_, same⟩ | ⟨i, current, same | ⟨rfl, _⟩⟩
    · rw [same]
      exact .kept
    · rw [same]
      exact Hart.written_exec (m.hart.setPc (m.hart.cpu.pc.add 4)) i
    · exact absurd current called

theorem heapEnd_step (m : Machine) :
    m.hart.mem.heapEnd.toNat ≤ m.step.1.hart.mem.heapEnd.toNat ∧
      (m.increment? = none → m.step.1.hart.mem.heapEnd = m.hart.mem.heapEnd) ∧
      (m.increment?.isSome → m.step.1.reg Register.v0 = m.hart.mem.heapEnd) ∧
      (m.hart.mem.heapEnd.toNat + Grant.total m.grant?.toList < 0x100000000 →
        m.step.1.hart.mem.heapEnd.toNat =
          m.hart.mem.heapEnd.toNat + Grant.total m.grant?.toList) := by
  rcases m.heap_cases with ⟨incr, asked, grown, answered⟩ | ⟨none, written⟩
  · obtain ⟨up, exact⟩ := m.hart.mem.toNat_grown incr
    have moved : m.step.1.hart.mem.heapEnd = m.hart.mem.grown incr := by
      rw [grown]
      rfl
    have granted : Grant.total m.grant?.toList = incr.signed.toNat := by
      rw [grant?, asked]
      by_cases positive : 0 < incr.signed
      · simp [Option.filter, positive, Grant.total]
      · simp [Option.filter, positive, Grant.total]
        omega
    rw [moved, granted, asked]
    exact ⟨up, nofun, fun _ => answered, exact⟩
  · have kept : m.step.1.hart.mem.heapEnd = m.hart.mem.heapEnd :=
      congrArg Memory.Marks.heapEnd written.marks_eq.2.1
    have nothing : m.grant? = Option.none := by
      rw [grant?, none]
      rfl
    rw [kept, nothing, none]
    exact ⟨Nat.le_refl _, fun _ => rfl, nofun, fun _ => rfl⟩

/-- The heap ends behind all that was granted, one grant behind the other, as long as there are
addresses for that. -/
theorem adjoin_grants (m : Machine) (n : Nat)
    (mapped : m.hart.mem.heapEnd.toNat + Grant.total (m.grants n) < 0x100000000) :
    (m.after n).hart.mem.heapEnd.toNat = m.hart.mem.heapEnd.toNat + Grant.total (m.grants n) ∧
      Grant.Adjoin m.hart.mem.heapEnd.toNat (m.grants n) := by
  induction n with
  | zero => exact ⟨rfl, trivial⟩
  | succ n ih =>
    obtain ⟨_, _, answered, moved⟩ := (m.after n).heapEnd_step
    rw [grants_succ] at mapped ⊢
    cases granted : (m.after n).grant? with
    | none =>
      rw [granted] at mapped moved
      rw [Option.toList_none, List.append_nil] at mapped ⊢
      obtain ⟨ends, adjoin⟩ := ih mapped
      exact ⟨(moved (ends ▸ mapped)).trans ends, adjoin⟩
    | some g =>
      rw [granted] at mapped moved
      rw [Option.toList_some, Grant.total_append] at mapped ⊢
      have size : Grant.total [g] = g.size := Nat.add_zero _
      rw [Option.toList_some, size] at moved
      obtain ⟨ends, adjoin⟩ := ih (by omega)
      obtain ⟨incr, asked, rfl⟩ := Option.map_eq_some_iff.mp granted
      obtain ⟨asked, _⟩ := Option.filter_eq_some_iff.mp asked
      have start := answered (Option.isSome_of_eq_some asked)
      have next : (m.after n).step.1.reg Register.v0 = (m.after n).hart.mem.heapEnd := start
      refine ⟨?_, adjoin.append ?_⟩
      · have later := moved (by omega)
        rw [after]
        omega
      · rw [next]
        exact ends

theorem byteAt_step_beyond (m : Machine) {k : Nat} (beyond : m.hart.mem.layout.size.toNat ≤ k) :
    m.step.1.hart.mem.byteAt k = m.hart.mem.byteAt k := by
  rcases m.heap_cases with ⟨incr, _, grown, _⟩ | ⟨_, written⟩
  · rw [grown]
    rfl
  · exact written.marks_eq.2.2 k beyond

theorem byteAt_after_beyond (m : Machine) (n : Nat) {k : Nat}
    (beyond : m.hart.mem.layout.size.toNat ≤ k) :
    (m.after n).hart.mem.byteAt k = m.hart.mem.byteAt k := by
  induction n with
  | zero => rfl
  | succ n ih =>
    have place : (m.after n).hart.mem.layout = m.hart.mem.layout := (sameMarks_after m n).layout
    rw [← ih]
    exact (m.after n).byteAt_step_beyond (place ▸ beyond)

/-- What the first `n` steps of a machine have made of its memory and of its heap. -/
structure HeapKept (m : Machine) (n : Nat) : Prop where
  marks : SameMarks m.hart.mem (m.after n).hart.mem
  length : ∀ k, m.hart.mem.layout.size.toNat ≤ k → (m.after n).hart.mem.byteAt k = 0
  upward : (m.after n).hart.mem.heapEnd.toNat ≤ (m.after (n + 1)).hart.mem.heapEnd.toNat
  still : (m.after (n + 1)).hart.mem.heapEnd ≠ (m.after n).hart.mem.heapEnd →
    (m.after n).increment?.isSome
  answer : (m.after n).increment?.isSome →
    (m.after (n + 1)).reg Register.v0 = (m.after n).hart.mem.heapEnd
  adjoin : m.hart.mem.dataEnd.toNat + Grant.total (m.grants n) < 0x100000000 →
    Grant.Adjoin m.hart.mem.dataEnd.toNat (m.grants n)
  apart : m.hart.mem.dataEnd.toNat + Grant.total (m.grants n) < 0x100000000 →
    (m.grants n).Pairwise Grant.Apart

/-- Nothing moves the marks of a loaded program or makes its memory longer. The heap is moved by
the service that grows it alone and never down, each call answers where it ended, and what the
calls grant begins at the end of the static data and leaves no gap. -/
theorem heapKept_of_load (loaded : m.load prog = (m₀, none)) (n : Nat) : HeapKept m₀ n := by
  obtain ⟨fits, same⟩ := load_eq_none_iff.mp loaded
  have image : m₀.hart.mem = prog.image m.hart.mem.layout := by rw [same]
  have begins : m₀.hart.mem.heapEnd = m₀.hart.mem.dataEnd := by
    rw [image]
    rfl
  obtain ⟨upward, still, answered, _⟩ := (m₀.after n).heapEnd_step
  have granted := m₀.adjoin_grants n
  rw [begins] at granted
  exact {
    marks := m₀.sameMarks_after n
    length := fun k beyond => by
      have place : m₀.hart.mem.layout = m.hart.mem.layout := by rw [image]; rfl
      have data := fits.data
      have text := fits.text
      rw [place] at beyond
      rw [byteAt_after_beyond m₀ n (place ▸ beyond), image]
      exact (Program.placedIn_image fits).zero k (by omega) (by omega)
    upward := upward
    still := fun moved => Option.isSome_iff_ne_none.mpr fun none => moved (still none)
    answer := answered
    adjoin := fun mapped => (granted mapped).2
    apart := fun mapped => (granted mapped).2.apart }

theorem heapKept_of_load_twice :
    ∃ m₀, (start {} ⟨{ source := .bytes {} none }, {}, {}, {}, ∅, 3⟩).load
        ⟨[1], [0x24020009, 0x24040008, 0xC, 0x24020009, 0x2404FFFC, 0xC,
          0x24020009, 0x24040010, 0xC]⟩ = (m₀, none) ∧
      HeapKept m₀ 9 ∧ m₀.grants 9 = [⟨0x00500004, 8⟩, ⟨0x0050000C, 16⟩] ∧
      (m₀.grants 9).Pairwise Grant.Apart := by
  let m₀ := ((start {} ⟨{ source := .bytes {} none }, {}, {}, {}, ∅, 3⟩).load
    ⟨[1], [0x24020009, 0x24040008, 0xC, 0x24020009, 0x2404FFFC, 0xC,
      0x24020009, 0x24040010, 0xC]⟩).1
  have kept : HeapKept m₀ 9 := heapKept_of_load (Prod.ext rfl (by decide +kernel)) 9
  have granted : m₀.grants 9 = [⟨0x00500004, 8⟩, ⟨0x0050000C, 16⟩] := by decide +kernel
  refine ⟨m₀, Prod.ext rfl (by decide +kernel), kept, granted, kept.apart ?_⟩
  rw [granted]
  decide +kernel

end Machine
end Mips
