import Mips.Proofs.Outcome
import Mips.Hart

namespace Mips

inductive Trap.OfAccess : Trap → Prop
  | unaligned (addr : Word) : OfAccess (.unaligned addr)
  | bus (addr : Word) (cause : MemoryError) : OfAccess (.bus addr cause)

theorem Trap.OfAccess.ne_stepLimit {t : Trap} (access : t.OfAccess) (limit : Nat) :
    t ≠ .stepLimit limit := by
  cases access <;> nofun

namespace Hart

variable {h h' : Hart} {t : Trap}

theorem attempt_eq_some {x : Except Trap Hart} (trapped : h.attempt x = (h', some t)) :
    x = .error t ∧ h' = h := by
  cases x with
  | ok done => cases trapped
  | error cause =>
    cases trapped
    exact ⟨rfl, rfl⟩

theorem ofAccess_of_loadAt {addr : Word} {width : Nat} (refused : h.loadAt addr width = .error t) :
    t.OfAccess := by
  unfold loadAt at refused
  split at refused
  · obtain ⟨cause, _, rfl⟩ := mapError_eq_error_iff.mp refused
    exact .bus addr cause
  · cases refused
    exact .unaligned addr

theorem ofAccess_of_storeAt {addr : Word} {width : Nat} {w : Word}
    (refused : h.storeAt addr width w = .error t) : t.OfAccess := by
  unfold storeAt at refused
  split at refused
  · obtain ⟨cause, _, rfl⟩ := mapError_eq_error_iff.mp (map_eq_error_iff.mp refused)
    exact .bus addr cause
  · cases refused
    exact .unaligned addr

theorem ofAccess_of_load {op : Load} {rt : Register} {addr : Word}
    (refused : h.load op rt addr = .error t) : t.OfAccess :=
  ofAccess_of_loadAt (map_eq_error_iff.mp refused)

theorem ofAccess_of_stored {op : Store} {rt : Register} {addr : Word}
    (refused : h.stored op rt addr = .error t) : t.OfAccess := by
  unfold stored at refused
  split at refused
  · cases refused
  · exact ofAccess_of_loadAt (map_eq_error_iff.mp refused)

theorem ofAccess_of_store {op : Store} {rt : Register} {addr : Word}
    (refused : h.store op rt addr = .error t) : t.OfAccess := by
  unfold store at refused
  cases word : h.stored op rt addr with
  | error cause =>
    rw [word] at refused
    cases refused
    exact ofAccess_of_stored word
  | ok w =>
    rw [word] at refused
    exact ofAccess_of_storeAt (map_eq_error_iff.mp refused)

/-- An instruction that traps has changed nothing, and it does not trap at the limit of steps. -/
theorem exec_eq_some {i : Instruction} (trapped : h.exec i = (h', some t)) :
    h' = h ∧ ∀ limit, t ≠ .stepLimit limit := by
  have quiet {x : Hart} (done : (x, none) = (h', some t)) :
      h' = h ∧ ∀ limit, t ≠ .stepLimit limit := by
    cases done
  cases i with
  | alu op rd rs rt | aluImm op rt rs imm =>
    unfold exec at trapped
    dsimp only at trapped
    split at trapped
    · exact quiet trapped
    · cases trapped
      exact ⟨rfl, nofun⟩
  | trap rel rs rt | trapImm rel rs imm =>
    unfold exec at trapped
    dsimp only at trapped
    split at trapped
    · cases trapped
      exact ⟨rfl, nofun⟩
    · exact quiet trapped
  | moveFrom half rd => cases half <;> exact quiet trapped
  | moveTo half rs => cases half <;> exact quiet trapped
  | breakpoint | syscall =>
    cases trapped
    exact ⟨rfl, nofun⟩
  | load op rt rs imm =>
    obtain ⟨refused, same⟩ := attempt_eq_some trapped
    exact ⟨same, (ofAccess_of_load refused).ne_stepLimit⟩
  | store op rt rs imm =>
    obtain ⟨refused, same⟩ := attempt_eq_some trapped
    exact ⟨same, (ofAccess_of_store refused).ne_stepLimit⟩
  | _ => exact quiet trapped

def next? (h : Hart) : Option Instruction :=
  (h.mem.readWord h.cpu.pc 4).toOption.bind Instruction.decode

def passed (h : Hart) : Hart := if h.next?.isSome then h.setPc (h.cpu.pc.add 4) else h

theorem mem_passed (h : Hart) : h.passed.mem = h.mem := by
  unfold passed
  split <;> rfl

theorem cpu_passed (h : Hart) :
    h.passed.cpu =
      { h.cpu with pc := if h.next?.isSome then h.cpu.pc.add 4 else h.cpu.pc } := by
  unfold passed
  split <;> rfl

theorem step_eq_some (trapped : h.step = (h', some t)) :
    h' = h.passed ∧ ∀ limit, t ≠ .stepLimit limit := by
  unfold step at trapped
  split at trapped
  · rename_i cause unread
    cases trapped
    have none : h.next? = none := by simp only [next?, unread, Except.toOption, Option.bind_none]
    rw [passed, none]
    refine ⟨rfl, fun limit spent => ?_⟩
    cases spent
  · rename_i w read
    have decoded : h.next? = Instruction.decode w := by
      simp only [next?, read, Except.toOption, Option.bind_some]
    rw [passed, decoded]
    split at trapped
    · rename_i unknown
      cases trapped
      rw [unknown]
      refine ⟨rfl, fun limit spent => ?_⟩
      cases spent
    · rename_i i known
      rw [known]
      exact exec_eq_some trapped

end Hart
end Mips
