namespace Mips

variable {ε α β : Type}

theorem bind_eq_ok_iff {x : Except ε α} {f : α → Except ε β} {b : β} :
    (x >>= f) = .ok b ↔ ∃ a, x = .ok a ∧ f a = .ok b := by
  cases x <;> simp [bind, Except.bind]

theorem map_eq_ok_iff {x : Except ε α} {f : α → β} {b : β} :
    x.map f = .ok b ↔ ∃ a, x = .ok a ∧ f a = b := by
  cases x <;> simp [Except.map]

theorem mapError_eq_ok_iff {δ : Type} {x : Except ε α} {f : ε → δ} {a : α} :
    x.mapError f = .ok a ↔ x = .ok a := by
  cases x with
  | error e => exact ⟨nofun, nofun⟩
  | ok b =>
    have unmapped : (Except.ok b : Except ε α).mapError f = .ok b := rfl
    rw [unmapped, Except.ok.injEq, Except.ok.injEq]

theorem exists_map_eq_ok_iff {x : Except ε α} {f : α → β} :
    (∃ b, x.map f = .ok b) ↔ ∃ a, x = .ok a := by
  cases x <;> simp [Except.map]

theorem map_eq_error_iff {x : Except ε α} {f : α → β} {e : ε} :
    x.map f = .error e ↔ x = .error e := by
  cases x <;> simp [Except.map]

theorem mapError_eq_error_iff {δ : Type} {x : Except ε α} {f : ε → δ} {d : δ} :
    x.mapError f = .error d ↔ ∃ e, x = .error e ∧ f e = d := by
  cases x with
  | error e =>
    have mapped : (Except.error e : Except ε α).mapError f = .error (f e) := rfl
    simp [mapped]
  | ok a =>
    have unmapped : (Except.ok a : Except ε α).mapError f = .ok a := rfl
    simp [unmapped]

theorem bind_eq_error_iff {x : Except ε α} {f : α → Except ε β} {e : ε} :
    (x >>= f) = .error e ↔ x = .error e ∨ ∃ a, x = .ok a ∧ f a = .error e := by
  cases x <;> simp [bind, Except.bind]

theorem exists_of_mapM_eq_error {f : α → Except ε β} {xs : List α} {e : ε}
    (refused : xs.mapM f = .error e) : ∃ x ∈ xs, f x = .error e := by
  induction xs with
  | nil => cases refused
  | cons x xs ih =>
    rw [List.mapM_cons] at refused
    rcases bind_eq_error_iff.mp refused with here | ⟨b, _, refused⟩
    · exact ⟨x, List.mem_cons_self, here⟩
    rcases bind_eq_error_iff.mp refused with later | ⟨bs, _, done⟩
    · obtain ⟨y, there, refused⟩ := ih later
      exact ⟨y, List.mem_cons_of_mem x there, refused⟩
    · cases done

instance decidableEqOk [DecidableEq α] : (x : Except ε α) → (a : α) → Decidable (x = .ok a)
  | .error _, _ => .isFalse nofun
  | .ok b, a => decidable_of_iff (b = a) (Except.ok.injEq b a ▸ Iff.rfl)

instance decidableExistsOk {P : α → Prop} [DecidablePred P] :
    (x : Except ε α) → Decidable (∃ a, x = .ok a ∧ P a)
  | .error _ => .isFalse nofun
  | .ok a => decidable_of_iff (P a)
    ⟨fun holds => ⟨a, rfl, holds⟩, fun ⟨_, same, holds⟩ => Except.ok.inj same ▸ holds⟩

theorem toOption_eq_some_iff {x : Except ε α} {a : α} : x.toOption = some a ↔ x = .ok a := by
  cases x <;> simp [Except.toOption]

end Mips
