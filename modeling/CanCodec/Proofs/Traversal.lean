/-! # Traversals that can fail

A traversal of a list reads its elements in order and stops at the first one that fails. -/

namespace CanCodec

/-! ## Single steps -/

theorem bind_ok_iff {ε α β : Type} {first : Except ε α} {next : α → Except ε β} {result : β} :
    first >>= next = .ok result ↔ ∃ value, first = .ok value ∧ next value = .ok result := by
  cases first with
  | error problem => simp [bind, Except.bind]
  | ok value => simp [bind, Except.bind]

theorem map_ok_iff {ε α β : Type} {source : Except ε α} {transform : α → β} {result : β} :
    source.map transform = .ok result ↔ ∃ value, source = .ok value ∧ transform value = result := by
  cases source <;> simp [Except.map]

theorem mapError_ok_iff {ε δ α : Type} {source : Except ε α} {transform : ε → δ} {result : α} :
    source.mapError transform = .ok result ↔ source = .ok result := by
  cases source with
  | error problem =>
      change Except.error (transform problem) = .ok result ↔ _
      simp
  | ok value =>
      change Except.ok value = .ok result ↔ _
      simp

theorem mapError_error_iff {ε δ α : Type} {source : Except ε α} {transform : ε → δ} {problem : δ} :
    source.mapError transform = .error problem ↔
      ∃ cause, source = .error cause ∧ transform cause = problem := by
  cases source with
  | error cause =>
      change Except.error (transform cause) = .error problem ↔ _
      simp
  | ok value =>
      change Except.ok value = .error problem ↔ _
      simp

/-! ## Lists -/

theorem exists_split_cons_iff {α : Type} {holds : List α → α → Prop} {head : α}
    {rest : List α} :
    (∃ before element after, head :: rest = before ++ element :: after ∧
        holds before element) ↔
      holds [] head ∨
        ∃ before element after, rest = before ++ element :: after ∧
          holds (head :: before) element := by
  constructor
  · rintro ⟨before, element, after, split, held⟩
    cases before with
    | nil =>
        cases split
        exact .inl held
    | cons first before =>
        cases split
        exact .inr ⟨before, element, after, rfl, held⟩
  · rintro (held | ⟨before, element, after, rfl, held⟩)
    · exact ⟨[], head, rest, rfl, held⟩
    · exact ⟨head :: before, element, after, rfl, held⟩

theorem mapM_eq_some_map {α β : Type} {transform : α → Option β} {result : α → β}
    {inputs : List α} (defined : ∀ input ∈ inputs, transform input = some (result input)) :
    inputs.mapM transform = some (inputs.map result) := by
  induction inputs with
  | nil => rfl
  | cons head rest induction =>
      rw [List.mapM_cons, defined head List.mem_cons_self,
        induction fun input member => defined input (List.mem_cons_of_mem head member)]
      rfl

variable {α β ε : Type} {transform : α → Except ε β} {inputs : List α} {results : List β}
  {fault : ε}

theorem mapM_ok_iff :
    inputs.mapM transform = .ok results ↔ inputs.map transform = results.map .ok := by
  induction inputs generalizing results with
  | nil => simp [pure, Except.pure, eq_comm]
  | cons head rest induction =>
      rw [List.mapM_cons, List.map_cons]
      cases first : transform head with
      | error fault => cases results <;> simp [bind, Except.bind]
      | ok value =>
          cases remaining : rest.mapM transform with
          | error fault =>
              cases results with
              | nil => simp [bind, Except.bind]
              | cons result results => simp [bind, Except.bind, ← induction, remaining]
          | ok values =>
              cases results with
              | nil => simp [bind, Except.bind, pure, Except.pure]
              | cons result results =>
                  simp [bind, Except.bind, pure, Except.pure, ← induction, remaining]

/-- A traversal fails exactly when an input does after inputs that do not, and with the fault
of that input. -/
theorem mapM_error_iff :
    inputs.mapM transform = .error fault ↔
      ∃ before input after, inputs = before ++ input :: after ∧
        (∀ other ∈ before, ∃ result, transform other = .ok result) ∧
        transform input = .error fault := by
  induction inputs with
  | nil => simp [pure, Except.pure]
  | cons head rest induction =>
      rw [exists_split_cons_iff, List.mapM_cons]
      cases first : transform head with
      | error headFault => simp [first, bind, Except.bind]
      | ok value =>
          have passed : ∃ result, transform head = .ok result := ⟨value, first⟩
          simp only [List.forall_mem_cons, passed, true_and, ← induction]
          cases rest.mapM transform <;> simp [bind, Except.bind, pure, Except.pure]

theorem mapM_error_congr {γ : Type} {other : α → Except ε γ}
    (same : ∀ input fault, transform input = .error fault ↔ other input = .error fault) :
    inputs.mapM transform = .error fault ↔ inputs.mapM other = .error fault := by
  have accepted (input : α) :
      (∃ result, transform input = .ok result) ↔ ∃ result, other input = .ok result := by
    have agree := same input
    cases first : transform input <;> cases second : other input <;> simp_all
  simp only [mapM_error_iff, same, accepted]

theorem mem_zip_iff (values : inputs.map transform = results.map .ok) (input : α) (result : β) :
    (input, result) ∈ inputs.zip results ↔ input ∈ inputs ∧ transform input = .ok result := by
  induction inputs generalizing results with
  | nil => simp
  | cons head rest induction =>
      cases results with
      | nil => cases values
      | cons first others =>
          rw [List.map_cons, List.map_cons, List.cons.injEq] at values
          simp only [List.zip_cons_cons, List.mem_cons, Prod.mk.injEq, induction values.2]
          constructor
          · intro found
            rcases found with ⟨same, equal⟩ | found
            · exact ⟨.inl same, by rw [same, values.1, equal]⟩
            · exact ⟨.inr found.1, found.2⟩
          · intro found
            rcases found with ⟨same | member, transformed⟩
            · rw [same, values.1] at transformed
              exact .inl ⟨same, (Except.ok.inj transformed).symm⟩
            · exact .inr ⟨member, transformed⟩

end CanCodec
