import CanCodec.Text.Split

/-! # Splitting and joining

The parts of a text, joined by the separator, are the text again, and no part holds a
separator. -/

namespace CanCodec.Text

variable {separator : Char}

theorem split_eq_splitOn (separator : Char) (characters : List Char) :
    split separator characters = characters.splitOn separator := by
  induction characters with
  | nil => rfl
  | cons character rest induction =>
      rw [split, induction, List.splitOn_cons_eq_if_modifyHead]
      simp only [beq_iff_eq]
      split
      · rfl
      · split
        next none => exact absurd none (List.splitOn_ne_nil _ _)
        next part others parts => rw [parts, List.modifyHead_cons]

theorem split_ne_nil (separator : Char) (characters : List Char) :
    split separator characters ≠ [] := by
  rw [split_eq_splitOn]
  exact List.splitOn_ne_nil _ _

theorem split_of_notMem {characters : List Char} (absent : separator ∉ characters) :
    split separator characters = [characters] := by
  rw [split_eq_splitOn]
  exact List.splitOn_eq_singleton absent

theorem split_append_separator (separator : Char) (before after : List Char) :
    split separator (before ++ separator :: after) =
      split separator before ++ split separator after := by
  simp only [split_eq_splitOn]
  exact List.splitOn_append_cons_self before after

theorem notMem_of_mem_split {characters part : List Char}
    (member : part ∈ split separator characters) : separator ∉ part := by
  induction characters generalizing part with
  | nil =>
      rw [split, List.mem_singleton] at member
      simp [member]
  | cons character rest induction =>
      rw [split] at member
      split at member
      next =>
        rcases List.mem_cons.mp member with rfl | member
        · exact List.not_mem_nil
        · exact induction member
      next different =>
        cases parts : split separator rest with
        | nil => exact absurd parts (split_ne_nil separator rest)
        | cons first others =>
            rw [parts] at member induction
            rcases List.mem_cons.mp member with rfl | member
            · rw [List.mem_cons, not_or]
              exact ⟨Ne.symm different, induction List.mem_cons_self⟩
            · exact induction (List.mem_cons_of_mem first member)

theorem intercalate_split (separator : Char) (characters : List Char) :
    [separator].intercalate (split separator characters) = characters := by
  rw [split_eq_splitOn]
  exact List.intercalate_splitOn separator

theorem split_intercalate {parts : List (List Char)} (nonempty : parts ≠ [])
    (absent : ∀ part ∈ parts, separator ∉ part) :
    split separator ([separator].intercalate parts) = parts := by
  rw [split_eq_splitOn]
  exact List.splitOn_intercalate separator absent nonempty

end CanCodec.Text
