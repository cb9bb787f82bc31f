import Mips.Proofs.Machine.Steps

/-!
Runs under a limit on instructions. Main statement: `run_of_limit`, a limit ends every run, and what
is done before it is reached is what is done without it.
-/
namespace Mips

namespace Event

def OutOfSteps : Event → Prop
  | ended _ => False
  | fault f => ∃ limit, f.trap = .stepLimit limit

/-- Whether an event tells where a machine stands, and not what an instruction did. -/
def IsFound : Event → Prop
  | ended (.exited _) => False
  | ended (.pastText _) => True
  | fault f => ∃ limit, f.trap = .stepLimit limit

theorem OutOfSteps.isFound {e : Event} (out : e.OutOfSteps) : e.IsFound := by
  cases e with
  | ended e => exact out.elim
  | fault f => exact out

end Event

theorem Process.not_isFound_outcome {p : Process} {e : Event} (ends : p.outcome = some e) :
    ¬e.IsFound := by
  unfold outcome at ends
  split at ends
  · cases ends
  · split at ends
    · cases ends
    · cases ends
      exact id
    · rename_i t stopped
      cases ends
      rintro ⟨limit, spent⟩
      exact (Process.stops_of_serve (Prod.ext rfl stopped)).ne_stepLimit limit spent
  · rename_i trapped
    cases ends
    rintro ⟨limit, spent⟩
    exact (Hart.step_eq_some trapped).2 limit spent

namespace Machine

variable {m m' : Machine} {e : Event}

theorem stepLimit_step (m : Machine) : m.step.1.stepLimit = m.stepLimit := by
  rcases m.step_cases with ⟨_, stepped⟩ | ⟨_, _, stepped⟩ | ⟨_, _, stepped⟩ <;> rw [stepped]

theorem running_of_step (stepped : m.step = (m', none)) :
    m.spent = none ∧ m'.steps = m.steps + 1 := by
  rcases m.step_cases with ⟨_, found⟩ | ⟨_, _, found⟩ | ⟨_, running, executed⟩
  · cases stepped.symm.trans found
  · cases stepped.symm.trans found
  · rw [stepped] at executed
    obtain rfl := congrArg Prod.fst executed
    exact ⟨running, rfl⟩

theorem event_cases (stepped : m.step = (m', some e)) :
    (e.IsFound ∧ m' = m ∧ (e.OutOfSteps → ∃ limit, m.spent = some limit ∧
        e = .fault ⟨m.hart.cpu.pc, .stepLimit limit⟩)) ∨
      (¬e.IsFound ∧ m.spent = none ∧ m'.steps = m.steps + 1) := by
  rcases m.step_cases with ⟨_, found⟩ | ⟨limit, spent, found⟩ | ⟨_, running, executed⟩
  · cases stepped.symm.trans found
    exact .inl ⟨trivial, rfl, False.elim⟩
  · cases stepped.symm.trans found
    exact .inl ⟨⟨limit, rfl⟩, rfl, fun _ => ⟨limit, spent, rfl⟩⟩
  · rw [stepped] at executed
    obtain rfl := congrArg Prod.fst executed
    have ends : m.outcome = some e := (congrArg Prod.snd executed).symm
    exact .inr ⟨Process.not_isFound_outcome ends, running, rfl⟩

theorem after_of_isFound (found : e.IsFound) (answered : m.step.2 = some e) (k : Nat) :
    m.after k = m := by
  have stepped : m.step = (m.step.1, some e) := Prod.ext rfl answered
  have still : m.step.1 = m := by
    rcases event_cases stepped with ⟨_, same, _⟩ | ⟨other, _⟩
    · exact same
    · exact absurd found other
  induction k with
  | zero => rfl
  | succ k ih => rw [after, ih, still]

def withLimit (m : Machine) (l : Option Nat) : Machine := { m with stepLimit := l }

variable {limit : Nat} {l : Option Nat}

theorem lt_of_running (limited : m.stepLimit = some limit) (running : m.spent = none) :
    m.steps < limit :=
  spent_eq_none_iff.mp running limit limited

theorem step_withLimit (limited : m.stepLimit = some limit) (wider : ∀ k ∈ l, limit ≤ k)
    (within : ∀ e, m.step.2 = some e → ¬e.OutOfSteps) :
    (m.withLimit l).step = (m.step.1.withLimit l, m.step.2) := by
  rcases m.step_cases with ⟨outside, stepped⟩ | ⟨k, _, stepped⟩ | ⟨text, running, stepped⟩
  · rw [stepped]
    exact step_of_outside outside
  · rw [stepped] at within
    exact absurd ⟨k, rfl⟩ (within _ rfl)
  · have below := lt_of_running limited running
    have unspent : (m.withLimit l).spent = none :=
      spent_eq_none_iff.mpr fun k more => Nat.lt_of_lt_of_le below (wider k more)
    rw [stepped]
    exact step_of_running text unspent

theorem step_withLimit_of_none (limited : m.stepLimit = some limit) (wider : ∀ k ∈ l, limit ≤ k)
    (stepped : m.step = (m', none)) : (m.withLimit l).step = (m'.withLimit l, none) := by
  have within : ∀ e, m.step.2 = some e → ¬e.OutOfSteps := by
    intro e ended
    rw [stepped] at ended
    cases ended
  rw [step_withLimit limited wider within, stepped]

theorem step_withLimit_of_some (limited : m.stepLimit = some limit) (wider : ∀ k ∈ l, limit ≤ k)
    (stepped : m.step = (m', some e)) (within : ¬e.OutOfSteps) :
    (m.withLimit l).step = (m'.withLimit l, some e) := by
  have within : ∀ e, m.step.2 = some e → ¬e.OutOfSteps := by
    intro e ended
    rw [stepped] at ended
    cases ended
    exact within
  rw [step_withLimit limited wider within, stepped]

theorem exists_advance_of_limit (limited : m.stepLimit = some limit) (within : m.steps ≤ limit) :
    ∃ m' e, m'.steps ≤ limit ∧ ∀ n, limit < m.steps + n → m.advance n = (m', some e) := by
  -- each step that goes on leaves one instruction less under the limit
  induction left : limit - m.steps using Nat.strongRecOn generalizing m with
  | ind left ih =>
    have enough {n : Nat} (more : limit < m.steps + n) : ∃ k, n = k + 1 :=
      Nat.exists_eq_succ_of_ne_zero (by omega)
    cases stepped : m.step with
    | mk m₁ event =>
      cases event with
      | some e =>
        refine ⟨m₁, e, ?_, fun n more => ?_⟩
        · rcases event_cases stepped with ⟨_, rfl, _⟩ | ⟨_, running, counted⟩
          · exact within
          · have below := lt_of_running limited running
            omega
        · obtain ⟨n, rfl⟩ := enough more
          rw [advance, stepped]
      | none =>
        obtain ⟨running, counted⟩ := running_of_step stepped
        have below := lt_of_running limited running
        have still : m₁.stepLimit = some limit := by
          rw [← limited, ← m.stepLimit_step, stepped]
        obtain ⟨m', e, few, ends⟩ := ih (limit - m₁.steps) (by omega) still (by omega) rfl
        refine ⟨m', e, few, fun n more => ?_⟩
        obtain ⟨n, rfl⟩ := enough more
        rw [advance, stepped]
        exact ends n (by omega)

/-- A run that does not end at its limit goes the same way under a wider one. -/
theorem advance_withLimit (limited : m.stepLimit = some limit) (wider : ∀ k ∈ l, limit ≤ k)
    {n : Nat} (ends : m.advance n = (m', some e)) (within : ¬e.OutOfSteps) :
    (m.withLimit l).advance n = (m'.withLimit l, some e) := by
  induction n generalizing m with
  | zero => cases ends
  | succ n ih =>
    rw [advance] at ends ⊢
    cases stepped : m.step with
    | mk m₁ event =>
      rw [stepped] at ends
      cases event with
      | none =>
        have still : m₁.stepLimit = some limit := by
          rw [← limited, ← m.stepLimit_step, stepped]
        rw [step_withLimit_of_none limited wider stepped]
        exact ih still ends
      | some e₁ =>
        cases ends
        rw [step_withLimit_of_some limited wider stepped within]

theorem advance_withLimit_of_outOfSteps (limited : m.stepLimit = some limit)
    (wider : ∀ k ∈ l, limit ≤ k) (within : m.steps ≤ limit) {n : Nat}
    (ends : m.advance n = (m', some e)) (out : e.OutOfSteps) :
    m'.steps = limit ∧ e = .fault ⟨m'.hart.cpu.pc, .stepLimit limit⟩ ∧
      (m.withLimit l).advance (limit - m.steps) = (m'.withLimit l, none) := by
  induction n generalizing m with
  | zero => cases ends
  | succ n ih =>
    rw [advance] at ends
    cases stepped : m.step with
    | mk m₁ event =>
      rw [stepped] at ends
      cases event with
      | none =>
        obtain ⟨running, counted⟩ := running_of_step stepped
        have below := lt_of_running limited running
        have still : m₁.stepLimit = some limit := by
          rw [← limited, ← m.stepLimit_step, stepped]
        obtain ⟨reached, names, went⟩ := ih still (by omega) ends
        have rest : limit - m.steps = limit - m₁.steps + 1 := by omega
        refine ⟨reached, names, ?_⟩
        rw [rest, advance, step_withLimit_of_none limited wider stepped]
        exact went
      | some e₁ =>
        cases ends
        rcases event_cases stepped with ⟨_, rfl, names⟩ | ⟨other, _⟩
        · obtain ⟨k, spent, rfl⟩ := names out
          obtain ⟨limited', reached⟩ := spent_eq_some_iff.mp spent
          obtain rfl : limit = k := Option.some.inj (limited.symm.trans limited')
          have all : m'.steps = limit := Nat.le_antisymm within reached
          refine ⟨all, rfl, ?_⟩
          rw [all, Nat.sub_self]
          rfl
        · exact absurd out.isFound other

theorem settle_of_outOfSteps (m : Machine) (out : e.OutOfSteps) : m.settle e = e := by
  cases e with
  | ended e => exact out.elim
  | fault f => rfl

theorem outOfSteps_settle_iff : (m.settle e).OutOfSteps ↔ e.OutOfSteps := by
  cases e with
  | fault f => exact Iff.rfl
  | ended e =>
    unfold settle
    cases m.host.output.flush with
    | ok done => exact Iff.rfl
    | error err =>
      constructor
      · rintro ⟨limit, spent⟩
        cases spent
      · exact False.elim

theorem run_of_advance {n : Nat} (ends : m.advance n = (m', some e)) :
    run n m = (m', some (m'.settle e)) := by
  rw [run, ends]

def fresh (c : Settings) (host : Host) (prog : Program) (l : Option Nat) : Machine :=
  ((start { c with stepLimit := l } host).load prog).1

theorem fresh_eq (c : Settings) (host : Host) (prog : Program) (l l' : Option Nat) :
    fresh c host prog l = (fresh c host prog l').withLimit l := by
  unfold fresh load
  dsimp only [start]
  split <;> rfl

theorem steps_fresh (c : Settings) (host : Host) (prog : Program) (l : Option Nat) :
    (fresh c host prog l).steps = 0 := by
  unfold fresh load
  dsimp only [start]
  split <;> rfl

/-- What a machine and an event are that end the run of a new machine under a limit, and what runs
under other limits have to do with them. -/
structure EndsRun (fresh : Option Nat → Machine) (limit : Nat) (m : Machine) (e : Event) :
    Prop where
  ends : ∀ n, limit < n → run n (fresh (some limit)) = (m, some e)
  steps : m.steps ≤ limit
  unaffected : ¬e.OutOfSteps → ∀ l, (∀ k ∈ l, limit ≤ k) →
    ∀ n, limit < n → run n (fresh l) = (m.withLimit l, some e)
  cut : e.OutOfSteps → m.steps = limit ∧ e = .fault ⟨m.hart.cpu.pc, .stepLimit limit⟩ ∧
    (fresh none).advance limit = (m.withLimit none, none)

/-- A limit ends every run. One that ends before it is reached ends the same under any wider limit
and under none; one that ends there has got to where it gets without a limit in as many steps. A
machine that is found outside its text or at its limit is found so from then on. -/
theorem run_of_limit (c : Settings) (host : Host) (prog : Program) (limit : Nat) :
    (∃ m e, EndsRun (fresh c host prog) limit m e) ∧
      ∀ (m : Machine) (e : Event), m.step.2 = some e → e.IsFound →
        ∀ k, m.after k = m ∧ (m.after k).step.2 = some e := by
  have limited : (fresh c host prog (some limit)).stepLimit = some limit := by
    rw [fresh_eq c host prog (some limit) none]
    rfl
  have unused := steps_fresh c host prog (some limit)
  constructor
  · obtain ⟨m, e, few, ends⟩ := exists_advance_of_limit limited (by omega)
    rw [unused] at ends
    refine ⟨m, m.settle e, ?_, few, ?_, ?_⟩
    · intro n enough
      exact run_of_advance (ends n (by omega))
    · intro within l wider n enough
      rw [outOfSteps_settle_iff] at within
      rw [fresh_eq c host prog l (some limit)]
      exact run_of_advance (advance_withLimit limited wider (ends n (by omega)) within)
    · intro out
      rw [outOfSteps_settle_iff] at out
      obtain ⟨reached, names, went⟩ := advance_withLimit_of_outOfSteps (l := none) limited nofun
        (by omega) (ends (limit + 1) (by omega)) out
      rw [unused, Nat.sub_zero, ← fresh_eq c host prog none (some limit)] at went
      rw [settle_of_outOfSteps m out]
      exact ⟨reached, names, went⟩
  · intro m e answered found k
    have still := after_of_isFound found answered k
    exact ⟨still, by rw [still, answered]⟩

example : (run 4 (fresh {} { input := { source := .bytes {} none }, output := {}, files := {} }
    ⟨[], [0x1000FFFF]⟩ (some 3))).2 = some (.fault ⟨0x00400000, .stepLimit 3⟩) := by
  decide +kernel

end Machine
end Mips
