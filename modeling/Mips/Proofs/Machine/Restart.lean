import Mips.Proofs.Machine.Limits
import Mips.Proofs.Machine.Loading
import Mips.Proofs.Machine.Registers
import Mips.Proofs.Process.Agreement

/-!
A program does not see what a machine has been through before it was loaded. Main statement:
`load_of_reachable`, a machine that loads a program becomes as a new one that does, but for its
outside, and two whose outsides agree do the same from then on.
-/
namespace Mips.Machine

/-- A machine that has the settings of a new one. -/
structure Configured (c : Settings) (m : Machine) : Prop where
  layout : m.hart.mem.layout = c.layout
  cpu : m.hart.cpu.settings = c.cpu
  stepLimit : m.stepLimit = c.stepLimit

def ready (c : Settings) (prog : Program) (host : Host) : Machine where
  hart := ⟨Cpu.reset c.cpu c.layout.textBase, prog.image c.layout⟩
  host := host
  steps := 0
  stepLimit := c.stepLimit

variable {c : Settings} {host : Host} {m m₀ m' : Machine} {prog : Program}

theorem configured_start (c : Settings) (host : Host) : Configured c (start c host) :=
  ⟨rfl, rfl, rfl⟩

theorem load_of_configured (configured : Configured c m) :
    m.load prog = (m₀, none) ↔ prog.FitsIn c.layout ∧ m₀ = ready c prog m.host := by
  rw [load_eq_none_iff, configured.layout, configured.cpu, configured.stepLimit]
  rfl

theorem configured_load (configured : Configured c m) (prog : Program) :
    Configured c (m.load prog).1 := by
  cases loaded : m.load prog with
  | mk m₀ outcome =>
    cases outcome with
    | none =>
      obtain ⟨_, rfl⟩ := (load_of_configured configured).mp loaded
      exact ⟨Program.layout_image .., rfl, rfl⟩
    | some e =>
      rw [load_eq_some loaded]
      exact ⟨(Program.layout_image ..).trans configured.layout, configured.cpu,
        configured.stepLimit⟩

theorem settings_step (m : Machine) : m.step.1.hart.cpu.settings = m.hart.cpu.settings := by
  rcases m.executed_cases with ⟨_, same⟩ | ⟨i, _, same | ⟨_, same⟩⟩ <;> rw [same]
  · exact (Hart.writes_exec (m.hart.setPc (m.hart.cpu.pc.add 4)) i).settings
  · exact (Process.effect_serve _).writes.settings

theorem configured_of_reachable (reached : Reachable c host m) : Configured c m := by
  induction reached with
  | start => exact configured_start c host
  | load _ prog ih => exact configured_load ih prog
  | @step m _ ih =>
    exact ⟨m.sameMarks_step.layout.trans ih.layout, m.settings_step.trans ih.cpu,
      m.stepLimit_step.trans ih.stepLimit⟩

/-- Machines of which one does as the other, on outsides that agree since they were `base` and
`base'`. -/
structure Abreast (base base' : Host) (m m' : Machine) : Prop where
  process : Process.Abreast base base' m.toProcess m'.toProcess
  steps : m'.steps = m.steps
  stepLimit : m'.stepLimit = m.stepLimit

variable {base base' : Host}

theorem abreast_ready (agrees : base.Agrees base') (c : Settings) (prog : Program) :
    Abreast base base' (ready c prog base) (ready c prog base') :=
  ⟨⟨rfl, agrees.abreast⟩, rfl, rfl⟩

theorem abreast_step (abreast : Abreast base base' m m') :
    Abreast base base' m.step.1 m'.step.1 ∧ m'.step.2 = m.step.2 := by
  have hart : m'.hart = m.hart := abreast.process.hart
  have same : m'.spent = m.spent := by rw [spent, spent, abreast.stepLimit, abreast.steps]
  cases text : m.hart.mem.isText m.hart.cpu.pc with
  | false =>
    rw [step_of_outside text, step_of_outside (hart ▸ text), hart]
    exact ⟨abreast, rfl⟩
  | true =>
    cases reached : m.spent with
    | some limit =>
      rw [step_of_spent text reached, step_of_spent (hart ▸ text) (same.trans reached), hart]
      exact ⟨abreast, rfl⟩
    | none =>
      obtain ⟨next, outcome⟩ := Process.abreast_next abreast.process
      rw [step_of_running text reached, step_of_running (hart ▸ text) (same.trans reached)]
      exact ⟨⟨next, congrArg (· + 1) abreast.steps, abreast.stepLimit⟩, outcome⟩

theorem abreast_after (abreast : Abreast base base' m m') (n : Nat) :
    Abreast base base' (m.after n) (m'.after n) := by
  induction n with
  | zero => exact abreast
  | succ n ih => exact (abreast_step ih).1

theorem abreast_advance (abreast : Abreast base base' m m') (n : Nat) :
    Abreast base base' (m.advance n).1 (m'.advance n).1 ∧
      (m'.advance n).2 = (m.advance n).2 := by
  induction n generalizing m m' with
  | zero => exact ⟨abreast, rfl⟩
  | succ n ih =>
    obtain ⟨abreast', event⟩ := abreast_step abreast
    unfold advance
    cases stepped : m.step with
    | mk s e =>
      cases stepped' : m'.step with
      | mk s' e' =>
        rw [stepped, stepped'] at abreast' event
        obtain rfl := event
        cases e' with
        | none => exact ih abreast'
        | some e => exact ⟨abreast', rfl⟩

theorem abreast_run (abreast : Abreast base base' m m') (n : Nat) :
    Abreast base base' (m.run n).1 (m'.run n).1 ∧ (m'.run n).2 = (m.run n).2 := by
  obtain ⟨abreast', event⟩ := abreast_advance abreast n
  unfold run
  cases advanced : m.advance n with
  | mk s e =>
    cases advanced' : m'.advance n with
    | mk s' e' =>
      rw [advanced, advanced'] at abreast' event
      obtain rfl := event
      cases e' with
      | none => exact ⟨abreast', rfl⟩
      | some e =>
        refine ⟨abreast', congrArg some ?_⟩
        unfold settle
        rw [Output.flush_of_agrees abreast'.process.host.output, abreast'.process.hart]

/-- A machine that loads a program is as a new one that does, but for its outside, which stays as it
was. So it does not matter to the program what was done before: where the outsides of two machines
agree, each of its steps and each of its runs does the same on both. -/
theorem load_of_reachable (reached : Reachable c host m) (loaded : m.load prog = (m₀, none)) :
    (∀ host', (start c host').load prog = ({ m₀ with host := host' }, none)) ∧
      m₀.host = m.host ∧
      ∀ {host' m'}, Reachable c host' m' → m.host.Agrees m'.host →
        ∃ m₀', m'.load prog = (m₀', none) ∧ ∀ n,
          Abreast m.host m'.host (m₀.after n) (m₀'.after n) ∧
            (m₀'.after n).step.2 = (m₀.after n).step.2 ∧
            Abreast m.host m'.host (m₀.run n).1 (m₀'.run n).1 ∧
            (m₀'.run n).2 = (m₀.run n).2 := by
  obtain ⟨fits, rfl⟩ := (load_of_configured (configured_of_reachable reached)).mp loaded
  refine ⟨fun host' => (load_of_configured (configured_start c host')).mpr ⟨fits, rfl⟩, rfl, ?_⟩
  intro host' m' reached' agrees
  refine ⟨ready c prog m'.host,
    (load_of_configured (configured_of_reachable reached')).mpr ⟨fits, rfl⟩, fun n => ?_⟩
  have abreast := abreast_ready agrees c prog
  have stepped := abreast_after abreast n
  exact ⟨stepped, (abreast_step stepped).2, abreast_run abreast n⟩

theorem load_of_reachable_printed :
    ∃ m m₀ m₀', Reachable {} ⟨{ source := .bytes {} none }, {}, {}, {}, ∅, 3⟩ m ∧
      m.hart.cpu.read 4 = 7 ∧ m.host.output.written = [55] ∧
      m.load ⟨[], [0x24020001, 0x0000000C]⟩ = (m₀, none) ∧
      (start {} ⟨{ source := .bytes {} none }, {}, {}, {}, ∅, 3⟩).load
        ⟨[], [0x24020001, 0x0000000C]⟩ = (m₀', none) ∧
      ∃ bs, (m₀.run 2).1.host.output.written = 55 :: bs ∧
        (m₀'.run 2).1.host.output.written = bs := by
  let m := ((start {} ⟨{ source := .bytes {} none }, {}, {}, {}, ∅, 3⟩).load
    ⟨[], [0x24020001, 0x24040007, 0x0000000C]⟩).1.step.1.step.1.step.1
  have reached : Reachable {} ⟨{ source := .bytes {} none }, {}, {}, {}, ∅, 3⟩ m :=
    .step (.step (.step (.load .start _)))
  have printed : m.host.output.written = [55] := by decide +kernel
  have accepted : (m.load ⟨[], [0x24020001, 0x0000000C]⟩).2 = none := by decide +kernel
  obtain ⟨m₀, loaded⟩ := exists_load_of_snd accepted
  have agrees : m.host.Agrees ⟨{ source := .bytes {} none }, {}, {}, {}, ∅, 3⟩ :=
    ⟨⟨rfl, .bytes rfl none⟩, ⟨rfl, rfl, rfl, rfl⟩, rfl, rfl, rfl⟩
  obtain ⟨_, _, same⟩ := load_of_reachable reached loaded
  obtain ⟨m₀', loaded', abreast⟩ := same .start agrees
  obtain ⟨_, _, ran, _⟩ := abreast 2
  obtain ⟨bs, written, written'⟩ := ran.process.host.written
  rw [printed] at written
  exact ⟨m, m₀, m₀', reached, by decide +kernel, printed, loaded, loaded', bs, written, written'⟩

end Mips.Machine
