import Mips.Proofs.Process.Apart

namespace Mips.Machine

variable {place : Path} {g : File} {m : Machine}

def put (m : Machine) (place : Path) (g : File) : Machine :=
  { m with toProcess := m.toProcess.put place g }

/-- The path of the file that the next step of a machine opens. -/
def opens? (m : Machine) : Option (List Char) :=
  if m.current? = some .syscall then m.asksFor? else none

/-- No path that is opened in a run leads through a place. -/
def Avoids (m : Machine) (place : Path) : Prop :=
  ∀ n m', m.run n = (m', none) → ∀ path ∈ m'.opens?, ¬Files.Passes path place

theorem run_eq_none_iff {m' : Machine} {n : Nat} :
    m.run n = (m', none) ↔ m.advance n = (m', none) := by
  unfold run
  split
  · rename_i advanced
    rw [advanced]
    exact ⟨nofun, nofun⟩
  · rename_i advanced
    rw [advanced]

theorem Avoids.step {m' : Machine} (avoids : m.Avoids place) (stepped : m.step = (m', none)) :
    m'.Avoids place := by
  intro n m'' ran
  refine avoids (n + 1) m'' ?_
  rw [run_eq_none_iff] at ran ⊢
  rw [advance, stepped]
  exact ran

theorem step_put (apart : m.host.Apart place)
    (unpassed : ∀ path ∈ m.opens?, ¬Files.Passes path place) :
    (m.put place g).step = (m.step.1.put place g, m.step.2) ∧ m.step.1.host.Apart place := by
  cases text : m.hart.mem.isText m.hart.cpu.pc with
  | false =>
    rw [step_of_outside text, step_of_outside (m := m.put place g) text]
    exact ⟨rfl, apart⟩
  | true =>
    cases spent : m.spent with
    | some limit =>
      rw [step_of_spent text spent, step_of_spent (m := m.put place g) text spent]
      exact ⟨rfl, apart⟩
    | none =>
      have current : m.current? = m.hart.next? := if_pos ⟨text, spent⟩
      obtain ⟨next, outcome, kept⟩ := Process.next_put (g := g) apart fun path calls asked =>
        unpassed path ((if_pos (current.trans calls)).trans asked)
      rw [step_of_running text spent, step_of_running (m := m.put place g) text spent]
      have next' : (m.put place g).next = m.next.put place g := next
      have outcome' : (m.put place g).outcome = m.outcome := outcome
      rw [next', outcome']
      exact ⟨rfl, kept⟩

theorem advance_put (apart : m.host.Apart place) (avoids : m.Avoids place) (g : File) (n : Nat) :
    (m.put place g).advance n = ((m.advance n).1.put place g, (m.advance n).2) ∧
      (m.advance n).1.host.Apart place := by
  induction n generalizing m with
  | zero => exact ⟨rfl, apart⟩
  | succ n ih =>
    obtain ⟨stepped, kept⟩ := step_put (g := g) apart (avoids 0 m rfl)
    rw [advance, advance, stepped]
    cases executed : m.step with
    | mk m' e =>
      rw [executed] at kept
      cases e with
      | none => exact ih kept (avoids.step executed)
      | some e => exact ⟨rfl, kept⟩

/-- A run does the same with a file put at a place where nothing is open, unless its program opens a
path through that place. -/
theorem run_put (apart : m.host.Apart place) (avoids : m.Avoids place) (g : File) (n : Nat) :
    (m.put place g).run n = ((m.run n).1.put place g, (m.run n).2) ∧
      (m.run n).1.host.Apart place := by
  obtain ⟨advanced, kept⟩ := advance_put apart avoids g n
  unfold run
  rw [advanced]
  cases ends : m.advance n with
  | mk m' e =>
    rw [ends] at kept
    cases e with
    | none => exact ⟨rfl, kept⟩
    | some e => exact ⟨rfl, kept⟩

theorem load_put (m : Machine) (place : Path) (g : File) (prog : Program) :
    (m.put place g).load prog = ((m.load prog).1.put place g, (m.load prog).2) := by
  unfold load
  rw [show (m.put place g).hart = m.hart from rfl]
  dsimp only
  split <;> rfl

end Mips.Machine
