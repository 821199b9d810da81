import Mathlib.Data.List.Chain
import CanCodec.Text.Identifier

/-! # Identifiers in normal form

Whatever text a name is, the identifier made from it has the same form: letters of one case,
digits and single underscores between them, or words with raised first characters run
together. An identifier of the form is made into itself. -/

namespace CanCodec.Identifier

/-! ## Letters and digits -/

theorem forall_alphanum (Property : Char → Prop)
    (each : ∀ code < 128, (Char.ofNat code).isAlphanum = true → Property (Char.ofNat code))
    {character : Char} (alphanumeric : character.isAlphanum = true) : Property character := by
  have small : character.toNat < 128 := by
    delta Char.isAlphanum Char.isAlpha Char.isUpper Char.isLower Char.isDigit at alphanumeric
    simp only [Bool.or_eq_true, Bool.and_eq_true, decide_eq_true_eq,
      UInt32.le_iff_toNat_le] at alphanumeric
    have capitals : 'Z'.val.toNat = 90 := rfl
    have letters : 'z'.val.toNat = 122 := rfl
    have digits : '9'.val.toNat = 57 := rfl
    change character.val.toNat < 128
    omega
  have found := each character.toNat small
  rw [Char.ofNat_toNat] at found
  exact found alphanumeric

theorem isAlphanum_toUpper {character : Char} (alphanumeric : character.isAlphanum = true) :
    character.toUpper.isAlphanum = true :=
  forall_alphanum (fun letter => letter.toUpper.isAlphanum = true) (by decide) alphanumeric

theorem ne_underscore {character : Char} (alphanumeric : character.isAlphanum = true) :
    character ≠ '_' := by
  rintro rfl
  exact absurd alphanumeric (by decide)

/-- A change of letters and digits into letters and digits that changes nothing a second
time. -/
structure Folds (fold : Char → Char) : Prop where
  alphanumeric : ∀ {character : Char}, character.isAlphanum = true →
    (fold character).isAlphanum = true
  idempotent : ∀ {character : Char}, character.isAlphanum = true →
    fold (fold character) = fold character

theorem folds_toLower : Folds Char.toLower where
  alphanumeric :=
    forall_alphanum (fun letter => letter.toLower.isAlphanum = true) (by decide)
  idempotent :=
    forall_alphanum (fun letter => letter.toLower.toLower = letter.toLower) (by decide)

theorem folds_toUpper : Folds Char.toUpper where
  alphanumeric := isAlphanum_toUpper
  idempotent :=
    forall_alphanum (fun letter => letter.toUpper.toUpper = letter.toUpper) (by decide)

/-! ## Joined words -/

/-- A name of letters of one case, digits and single underscores, each before a letter or a
digit. -/
structure IsNormal (isLetter : Char → Bool) (name : List Char) : Prop where
  nonempty : name ≠ []
  characters : ∀ character ∈ name,
    isLetter character = true ∨ character.isDigit = true ∨ character = '_'
  start : ∀ character ∈ name.head?, character.isDigit = false
  stop : name.getLast? ≠ some '_'
  apart : name.IsChain fun character next => character ≠ '_' ∨ next ≠ '_'

inductive Tidy (fold : Char → Char) : List Char → Prop
  | nil : Tidy fold []
  | cons {character : Char} {rest : List Char} (alphanumeric : character.isAlphanum = true)
      (kept : fold character = character) (tidy : Tidy fold rest) : Tidy fold (character :: rest)
  | gap {character : Char} {rest : List Char} (alphanumeric : character.isAlphanum = true)
      (kept : fold character = character) (tidy : Tidy fold rest) :
      Tidy fold ('_' :: character :: rest)

section

variable {fold : Char → Char} {name : List Char}

namespace Tidy

theorem mem (tidy : Tidy fold name) {character : Char} (member : character ∈ name) :
    character = '_' ∨ character.isAlphanum = true ∧ fold character = character := by
  induction tidy with
  | nil => cases member
  | cons alphanumeric kept tidy induction =>
      rcases List.mem_cons.mp member with rfl | member
      · exact .inr ⟨alphanumeric, kept⟩
      · exact induction member
  | gap alphanumeric kept tidy induction =>
      rcases List.mem_cons.mp member with rfl | member
      · exact .inl rfl
      rcases List.mem_cons.mp member with rfl | member
      · exact .inr ⟨alphanumeric, kept⟩
      · exact induction member

theorem getLast?_ne (tidy : Tidy fold name) : name.getLast? ≠ some '_' := by
  induction tidy with
  | nil => exact nofun
  | cons alphanumeric kept tidy induction =>
      rw [List.getLast?_cons]
      cases last : List.getLast? _ with
      | none => exact fun same => ne_underscore alphanumeric (Option.some.inj same)
      | some character => exact last ▸ induction
  | gap alphanumeric kept tidy induction =>
      rw [List.getLast?_cons, List.getLast?_cons]
      cases last : List.getLast? _ with
      | none => exact fun same => ne_underscore alphanumeric (Option.some.inj same)
      | some character => exact last ▸ induction

theorem isChain (tidy : Tidy fold name) :
    name.IsChain fun character next => character ≠ '_' ∨ next ≠ '_' := by
  induction tidy with
  | nil => exact .nil
  | cons alphanumeric kept tidy induction =>
      exact List.isChain_cons.mpr ⟨fun _ _ => .inl (ne_underscore alphanumeric), induction⟩
  | gap alphanumeric kept tidy induction =>
      have inner := List.isChain_cons.mpr
        ⟨fun _ _ => .inl (ne_underscore alphanumeric), induction⟩
      exact List.isChain_cons_cons.mpr ⟨.inr (ne_underscore alphanumeric), inner⟩

theorem joinWords_eq (tidy : Tidy fold name) : joinWords fold false name = name := by
  induction tidy with
  | nil => rfl
  | cons alphanumeric kept tidy induction =>
      rw [joinWords, if_pos alphanumeric, if_neg Bool.false_ne_true, kept, induction]
  | gap alphanumeric kept tidy induction =>
      rw [joinWords, if_neg (by decide), joinWords, if_pos alphanumeric, if_pos rfl, kept,
        induction]

theorem complete {fallback : List Char} (fallbackTidy : Tidy fold fallback)
    (tidy : Tidy fold name) : Tidy fold (complete fallback name) := by
  cases tidy with
  | nil => exact fallbackTidy
  | cons alphanumeric kept tidy =>
      rw [Identifier.complete]
      split
      · exact .gap alphanumeric kept tidy
      · exact .cons alphanumeric kept tidy
  | gap alphanumeric kept tidy => exact .gap alphanumeric kept tidy

end Tidy

theorem tidy_joinWords (folds : Folds fold) (pending : Bool) (characters : List Char) :
    Tidy fold (joinWords fold pending characters) := by
  induction characters generalizing pending with
  | nil => exact .nil
  | cons character rest induction =>
      rw [joinWords]
      split
      next alphanumeric =>
        have isAlphanumeric := folds.alphanumeric alphanumeric
        have kept := folds.idempotent alphanumeric
        split
        · exact .gap isAlphanumeric kept (induction false)
        · exact .cons isAlphanumeric kept (induction false)
      next => exact induction true

/-! ## Completed names -/

theorem complete_ne_nil {fallback : List Char} (filled : fallback ≠ []) (name : List Char) :
    complete fallback name ≠ [] := by
  cases name with
  | nil => exact filled
  | cons first rest =>
      rw [complete]
      split <;> exact List.cons_ne_nil _ _

theorem head?_complete {fallback : List Char}
    (start : ∀ character ∈ fallback.head?, character.isDigit = false) (name : List Char) :
    ∀ character ∈ (complete fallback name).head?, character.isDigit = false := by
  cases name with
  | nil => exact start
  | cons first rest =>
      rw [complete]
      split
      next => simp
      next notDigit => simpa using notDigit

theorem complete_eq {name : List Char} (nonempty : name ≠ [])
    (start : ∀ character ∈ name.head?, character.isDigit = false) (fallback : List Char) :
    complete fallback name = name := by
  cases name with
  | nil => exact absurd rfl nonempty
  | cons first rest => rw [complete, if_neg (by simpa using start)]

theorem complete_joinWords_eq (tidy : Tidy fold name) (nonempty : name ≠ [])
    (start : ∀ character ∈ name.head?, character.isDigit = false) (fallback : List Char) :
    complete fallback (joinWords fold false name) = name := by
  rw [tidy.joinWords_eq, complete_eq nonempty start]

theorem Tidy.isNormal {isLetter : Char → Bool} (tidy : Tidy fold name)
    (letters : ∀ {character : Char}, character.isAlphanum = true → fold character = character →
      isLetter character = true ∨ character.isDigit = true)
    (nonempty : name ≠ []) (start : ∀ character ∈ name.head?, character.isDigit = false) :
    IsNormal isLetter name where
  nonempty := nonempty
  characters character member := by
    rcases tidy.mem member with rfl | ⟨alphanumeric, kept⟩
    · exact .inr (.inr rfl)
    · exact (letters alphanumeric kept).imp_right .inl
  start := start
  stop := tidy.getLast?_ne
  apart := tidy.isChain

end

/-! ## Names in one case -/

theorem tidy_snakeList (characters : List Char) : Tidy Char.toLower (snakeList characters) := by
  refine .complete ?_ (tidy_joinWords folds_toLower false characters)
  exact .cons rfl rfl (.cons rfl rfl (.cons rfl rfl .nil))

theorem tidy_macroList (characters : List Char) : Tidy Char.toUpper (macroList characters) := by
  refine .complete ?_ (tidy_joinWords folds_toUpper false characters)
  exact .cons rfl rfl (.cons rfl rfl (.cons rfl rfl .nil))

theorem isNormal_snakeList (characters : List Char) :
    IsNormal Char.isLower (snakeList characters) := by
  refine (tidy_snakeList characters).isNormal ?_ (complete_ne_nil (by decide) _)
    (head?_complete (by simp) _)
  exact forall_alphanum (fun letter => letter.toLower = letter →
    letter.isLower = true ∨ letter.isDigit = true) (by decide)

theorem isNormal_macroList (characters : List Char) :
    IsNormal Char.isUpper (macroList characters) := by
  refine (tidy_macroList characters).isNormal ?_ (complete_ne_nil (by decide) _)
    (head?_complete (by simp) _)
  exact forall_alphanum (fun letter => letter.toUpper = letter →
    letter.isUpper = true ∨ letter.isDigit = true) (by decide)

theorem snakeList_snakeList (characters : List Char) :
    snakeList (snakeList characters) = snakeList characters :=
  complete_joinWords_eq (tidy_snakeList characters) (isNormal_snakeList characters).nonempty
    (isNormal_snakeList characters).start _

theorem macroList_macroList (characters : List Char) :
    macroList (macroList characters) = macroList characters :=
  complete_joinWords_eq (tidy_macroList characters) (isNormal_macroList characters).nonempty
    (isNormal_macroList characters).start _

theorem joinWords_toUpper (pending : Bool) (characters : List Char) :
    joinWords Char.toUpper pending characters =
      (joinWords Char.toLower pending characters).map Char.toUpper := by
  induction characters generalizing pending with
  | nil => rfl
  | cons character rest induction =>
      rw [joinWords, joinWords]
      split
      next alphanumeric =>
        have raised : character.toLower.toUpper = character.toUpper :=
          forall_alphanum (fun letter => letter.toLower.toUpper = letter.toUpper) (by decide)
            alphanumeric
        have underscore : '_'.toUpper = '_' := rfl
        split <;> simp only [List.map_cons, induction, raised, underscore]
      next => exact induction true

theorem complete_map_toUpper {name : List Char} (tidy : Tidy Char.toLower name)
    (fallback : List Char) :
    complete (fallback.map Char.toUpper) (name.map Char.toUpper) =
      (complete fallback name).map Char.toUpper := by
  cases name with
  | nil => rfl
  | cons first rest =>
      have digit : first.toUpper.isDigit = first.isDigit := by
        rcases tidy.mem List.mem_cons_self with rfl | ⟨alphanumeric, -⟩
        · rfl
        · exact forall_alphanum (fun letter => letter.toUpper.isDigit = letter.isDigit)
            (by decide) alphanumeric
      rw [List.map_cons, complete, complete, digit]
      split <;> rfl

theorem macroList_eq (characters : List Char) :
    macroList characters = (snakeList characters).map Char.toUpper := by
  rw [macroList, snakeList, joinWords_toUpper]
  exact complete_map_toUpper (tidy_joinWords folds_toLower false characters) ['c', 'a', 'n']

/-! ## Words of a camel-case name -/

theorem filter_splitWords (previous : Option Char) (characters : List Char) :
    (splitWords previous characters).filter Char.isAlphanum =
      characters.filter Char.isAlphanum := by
  induction characters generalizing previous with
  | nil => rfl
  | cons character rest induction =>
      rw [splitWords]
      split
      · rw [List.filter_cons_of_neg (by decide), List.filter_cons, List.filter_cons, induction]
      · rw [List.filter_cons, List.filter_cons, induction]

theorem splitWords_eq {characters : List Char}
    (lower : ∀ character ∈ characters, character.isUpper = false) (previous : Option Char) :
    splitWords previous characters = characters := by
  induction characters generalizing previous with
  | nil => rfl
  | cons character rest induction =>
      rw [List.forall_mem_cons] at lower
      rw [splitWords, startsWord, lower.1, Bool.false_and, if_neg Bool.false_ne_true,
        induction lower.2]

theorem camelList_camelList (characters : List Char) :
    camelList (camelList characters) = camelList characters := by
  have lower : ∀ character ∈ camelList characters, character.isUpper = false := by
    intro character member
    rcases (tidy_snakeList _).mem member with rfl | ⟨alphanumeric, kept⟩
    · rfl
    · exact forall_alphanum (fun letter => letter.toLower = letter → letter.isUpper = false)
        (by decide) alphanumeric kept
  rw [camelList, splitWords_eq lower]
  exact snakeList_snakeList _

theorem filter_joinWords {fold : Char → Char} (folds : Folds fold) (pending : Bool)
    (characters : List Char) :
    (joinWords fold pending characters).filter (· ≠ '_') =
      (characters.filter Char.isAlphanum).map fold := by
  induction characters generalizing pending with
  | nil => rfl
  | cons character rest induction =>
      rw [joinWords]
      split
      next alphanumeric =>
        have different := ne_underscore (folds.alphanumeric alphanumeric)
        rw [List.filter_cons_of_pos alphanumeric, List.map_cons, ← induction false]
        split
        · rw [List.filter_cons_of_neg (by decide), List.filter_cons_of_pos (by simpa)]
        · rw [List.filter_cons_of_pos (by simpa)]
      next other => rw [List.filter_cons_of_neg other, induction]

theorem filter_complete {name : List Char} (nonempty : name ≠ []) (fallback : List Char) :
    (complete fallback name).filter (· ≠ '_') = name.filter (· ≠ '_') := by
  cases name with
  | nil => exact absurd rfl nonempty
  | cons first rest =>
      rw [complete]
      split
      · exact List.filter_cons_of_neg (by decide)
      · rfl

theorem filter_camelList {characters : List Char}
    (some : ∃ character ∈ characters, character.isAlphanum = true) :
    (camelList characters).filter (· ≠ '_') =
      (characters.filter Char.isAlphanum).map Char.toLower := by
  have joined := filter_joinWords folds_toLower false (splitWords none characters)
  rw [filter_splitWords] at joined
  have nonempty : joinWords Char.toLower false (splitWords none characters) ≠ [] := by
    intro none
    rw [none, List.filter_nil, eq_comm, List.map_eq_nil_iff, List.filter_eq_nil_iff] at joined
    rcases some with ⟨character, member, alphanumeric⟩
    exact joined character member alphanumeric
  rw [camelList, snakeList, filter_complete nonempty, joined]

/-! ## Words run together -/

theorem isAlphanum_of_mem_raiseWords {raised : Bool} {characters : List Char} {character : Char}
    (member : character ∈ raiseWords raised characters) : character.isAlphanum = true := by
  induction characters generalizing raised with
  | nil => cases member
  | cons first rest induction =>
      rw [raiseWords] at member
      split at member
      next alphanumeric =>
        rcases List.mem_cons.mp member with same | member
        · subst same
          split
          · exact isAlphanum_toUpper alphanumeric
          · exact alphanumeric
        · exact induction member
      next => exact induction member

theorem toUpper_eq_of_head?_raiseWords {characters : List Char} :
    ∀ character ∈ (raiseWords true characters).head?, character.toUpper = character := by
  induction characters with
  | nil => exact nofun
  | cons first rest induction =>
      rw [raiseWords]
      split
      next alphanumeric => simp [folds_toUpper.idempotent alphanumeric]
      next => exact induction

structure IsWord (name : List Char) : Prop where
  nonempty : name ≠ []
  start : ∀ character ∈ name.head?, character.isUpper = true
  characters : ∀ character ∈ name, character.isAlphanum = true

theorem isWord_pascalList (characters : List Char) : IsWord (pascalList characters) := by
  rw [pascalList]
  split
  next => exact ⟨by decide, by simp, by simp⟩
  next first rest raised =>
    have alphanumeric : ∀ character ∈ first :: rest, character.isAlphanum = true := by
      intro character member
      rw [← raised] at member
      exact isAlphanum_of_mem_raiseWords member
    split
    next =>
      exact ⟨List.cons_ne_nil _ _, by simp, List.forall_mem_cons.mpr ⟨rfl, alphanumeric⟩⟩
    next notDigit =>
      refine ⟨List.cons_ne_nil _ _, ?_, alphanumeric⟩
      have capital := @toUpper_eq_of_head?_raiseWords characters first (by rw [raised]; rfl)
      have upper : first.isUpper = true :=
        forall_alphanum (fun letter => letter.toUpper = letter → ¬letter.isDigit = true →
          letter.isUpper = true) (by decide) (alphanumeric first List.mem_cons_self)
        capital notDigit
      simpa using upper

theorem raiseWords_eq {characters : List Char}
    (alphanumeric : ∀ character ∈ characters, character.isAlphanum = true) :
    raiseWords false characters = characters := by
  induction characters with
  | nil => rfl
  | cons first rest induction =>
      rw [List.forall_mem_cons] at alphanumeric
      rw [raiseWords, if_pos alphanumeric.1, if_neg Bool.false_ne_true, induction alphanumeric.2]

theorem IsWord.pascalList_eq {name : List Char} (isWord : IsWord name) :
    pascalList name = name := by
  cases name with
  | nil => exact absurd rfl isWord.nonempty
  | cons first rest =>
      have alphanumeric := List.forall_mem_cons.mp isWord.characters
      have upper : first.isUpper = true := isWord.start first rfl
      have kept := forall_alphanum (fun letter => letter.isUpper = true →
        letter.toUpper = letter ∧ ¬letter.isDigit = true) (by decide) alphanumeric.1 upper
      rw [pascalList, raiseWords, if_pos alphanumeric.1, if_pos rfl, kept.1,
        raiseWords_eq alphanumeric.2]
      exact if_neg kept.2

theorem isAlphanum_of_mem_pascal {name : String} {character : Char}
    (member : character ∈ (pascal name).toList) : character.isAlphanum = true := by
  rw [pascal, String.toList_ofList] at member
  exact (isWord_pascalList name.toList).characters character member

/-! ## Identifiers of any name -/

/-- Every identifier has its normal form, whatever the name is, and an identifier is its own
identifier. The upper-case identifier is the lower-case one in capitals, and the identifier of
a camel-case name keeps the name's letters and digits in their order. -/
theorem identifiers_are_normal (name : String) :
    IsNormal Char.isLower (snake name).toList ∧ IsNormal Char.isLower (ofCamel name).toList ∧
      IsNormal Char.isUpper (upper name).toList ∧ IsWord (pascal name).toList ∧
      snake (snake name) = snake name ∧ ofCamel (ofCamel name) = ofCamel name ∧
      upper (upper name) = upper name ∧ pascal (pascal name) = pascal name ∧
      upper name = (snake name).map Char.toUpper ∧
      ((∃ character ∈ name.toList, character.isAlphanum = true) →
        (ofCamel name).toList.filter (· ≠ '_') =
          (name.toList.filter Char.isAlphanum).map Char.toLower) := by
  simp only [snake, ofCamel, upper, pascal, String.toList_ofList]
  refine ⟨isNormal_snakeList _, isNormal_snakeList _, isNormal_macroList _, isWord_pascalList _,
    ?_, ?_, ?_, ?_, ?_, filter_camelList⟩
  · rw [snakeList_snakeList]
  · rw [camelList_camelList]
  · rw [macroList_macroList]
  · rw [(isWord_pascalList _).pascalList_eq]
  · rw [macroList_eq, ← String.toList_inj, String.toList_map, String.toList_ofList,
      String.toList_ofList]

end CanCodec.Identifier
