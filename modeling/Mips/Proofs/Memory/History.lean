import Mips.Proofs.Memory.Operations

/-!
Memory as a map of bytes. What memory holds is told by the operations that came before. Main
statement: `conforms_after`, after any operations memory holds the bytes stored last, and the next
operation goes by them.
-/
namespace Mips.Memory

/-- Memory after some operations, the first of them first. -/
def after (m : Memory) (ops : List Operation) : Memory := ops.foldl (fun m o => (m.perform o).1) m

/-- The byte that operations on fresh memory have stored last at an offset, or zero. -/
def lastStored (l : Layout) (ops : List Operation) (k : Nat) : UInt8 :=
  ops.foldl (fun b o => (o.byteStored? l k).getD b) 0

structure Conforms (l : Layout) (bytes : Nat → UInt8) (o : Operation) (m : Memory) : Prop where
  layout : m.layout = l
  byteAt : ∀ k, m.byteAt k = bytes k
  beyond : ∀ k, l.size.toNat ≤ k → bytes k = 0
  admitted : (∃ a, (m.perform o).2 = .ok a) ↔ o.Admitted l bytes
  answered : ∀ a, (m.perform o).2 = .ok a → o.Answers l bytes m.heapEnd a
  stored : ∀ k, (m.perform o).1.byteAt k = (o.byteStored? l k).getD (bytes k)
  refused : ∀ e, (m.perform o).2 = .error e → (m.perform o).1 = m

theorem layout_after (m : Memory) (ops : List Operation) : (m.after ops).layout = m.layout := by
  induction ops generalizing m with
  | nil => rfl
  | cons o ops ih =>
    have rest := ih (m.perform o).1
    rwa [layout_perform] at rest

theorem byteAt_after (m : Memory) (ops : List Operation) (k : Nat) :
    (m.after ops).byteAt k =
      ops.foldl (fun b o => (o.byteStored? m.layout k).getD b) (m.byteAt k) := by
  induction ops generalizing m with
  | nil => rfl
  | cons o ops ih =>
    have rest := ih (m.perform o).1
    rwa [layout_perform, byteAt_perform] at rest

theorem lastStored_beyond {l : Layout} (ops : List Operation) {k : Nat}
    (beyond : l.size.toNat ≤ k) : lastStored l ops k = 0 := by
  unfold lastStored
  induction ops with
  | nil => rfl
  | cons o ops ih => rwa [List.foldl_cons, byteStored?_beyond o beyond, Option.getD_none]

/-- After any operations on fresh memory each byte is the one stored last, and the next operation
answers, stores and is refused by these bytes and its bounds alone. -/
theorem conforms_after (l : Layout) (ops : List Operation) (o : Operation) :
    Conforms l (lastStored l ops) o ((empty l).after ops) := by
  have layout : ((empty l).after ops).layout = l := layout_after (empty l) ops
  have bytes : ((empty l).after ops).byteAt = lastStored l ops := by
    funext k
    rw [byteAt_after, byteAt, empty, Contents.byteAt_empty]
    rfl
  constructor
  · exact layout
  · exact fun k => congrFun bytes k
  · exact fun k beyond => lastStored_beyond ops beyond
  · rw [exists_perform_iff, layout, bytes]
  · intro a done
    have answers := answers_of_perform done
    rwa [layout, bytes] at answers
  · intro k
    rw [byteAt_perform, layout, bytes]
  · exact fun e refused => perform_of_error refused

example : lastStored {} [.store (.word 0x00500000 .word 0x01020304),
    .store (.word 0x00500001 .half 0xAABB)] 0x100002 = 0xBB := by decide

end Mips.Memory
