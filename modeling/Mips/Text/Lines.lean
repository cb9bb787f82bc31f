namespace Mips.Text

def dropReturn (s : List Char) : List Char :=
  if s.getLast? = some '\r' then s.dropLast else s

def lines (s : List Char) : List (List Char) :=
  if s = [] then []
  else
    match _h : s.dropWhile (· != '\n') with
    | [] => [s]
    | _ :: r => dropReturn (s.takeWhile (· != '\n')) :: lines r
termination_by s.length
decreasing_by
  have h₁ : (s.dropWhile (· != '\n')).length ≤ s.length := (List.dropWhile_sublist _).length_le
  rw [_h] at h₁
  simp only [List.length_cons] at h₁
  omega

def numbered {α : Type} (xs : List α) : List (Nat × α) :=
  xs.zipIdx.map fun (x, i) => (i + 1, x)

end Mips.Text
