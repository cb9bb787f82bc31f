import Mathlib.Data.List.Forall2
import Mips.Service

/-!
Calls that a program makes one after another. Between them it may do what it likes with the
processor and the memory, and the host stays as the last call has left it. Main statement:
`forall₂_callers`, what holds before each call, and what each call does, is told by what is still to
be done.
-/
namespace Mips

namespace Host

/-- The program as it makes calls, each on the host that the call before has left. -/
def callers (h : Host) : List Hart → List Process
  | [] => []
  | c :: cs => ⟨c, h⟩ :: callers (Process.serve ⟨c, h⟩).1.host cs

def served (h : Host) : List Hart → Host
  | [] => h
  | c :: cs => served (Process.serve ⟨c, h⟩).1.host cs

variable {α : Type} {xs : List α} {h : Host} {cs : List Hart}

theorem forall₂_callers {Asks Does : Process → α → Prop} (Left : List α → Host → Prop)
    (step : ∀ p x rest, Left (x :: rest) p.host → Asks p x →
      Does p x ∧ Left rest p.serve.1.host)
    (start : Left xs h) (calls : List.Forall₂ Asks (h.callers cs) xs) :
    List.Forall₂ Does (h.callers cs) xs ∧ Left [] (h.served cs) := by
  induction cs generalizing h xs with
  | nil =>
    cases calls
    exact ⟨.nil, start⟩
  | cons c cs ih =>
    cases calls with
    | cons first later =>
      obtain ⟨does, left⟩ := step ⟨c, h⟩ _ _ start first
      obtain ⟨others, done⟩ := ih left later
      exact ⟨.cons does others, done⟩

end Host
end Mips
