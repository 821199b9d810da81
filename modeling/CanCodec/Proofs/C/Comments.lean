import Mathlib.Data.List.Forall2
import CanCodec.C.Document

/-! # Code without its comments

What is left of a C text when its block comments are taken out. Two documents that differ
only inside their comments leave the same text, as long as nothing in a comment ends it. -/

namespace CanCodec.C

def ends : List Char → Bool
  | first :: second :: rest => (first = '*' && second = '/') || ends (second :: rest)
  | _ => false

/-- The characters outside of comments; `inside` tells whether a comment is open before
them. A comment starts only where it also ends. -/
def erase : (inside : Bool) → List Char → List Char
  | false, first :: second :: rest =>
      if first = '/' ∧ second = '*' ∧ ends rest then erase true rest
      else first :: erase false (second :: rest)
  | true, first :: second :: rest =>
      if first = '*' ∧ second = '/' then erase false rest else erase true (second :: rest)
  | false, rest => rest
  | true, _ => []

def withoutComments (text : String) : String := String.ofList (erase false text.toList)

example : withoutComments "a /* b */ c */ d /*/ e" = "a  c */ d /*/ e" := by decide

def IsClean (text : String) : Prop := ends text.toList = false

instance (text : String) : Decidable (IsClean text) := inferInstanceAs (Decidable (_ = _))

def IsBreak (character : Char) : Prop := character ≠ '*' ∧ character ≠ '/'

instance (character : Char) : Decidable (IsBreak character) :=
  inferInstanceAs (Decidable (_ ∧ _))

/-! ## Characters in a row -/

theorem ends_cons_of_break {character : Char} (isBreak : IsBreak character) (rest : List Char) :
    ends (character :: rest) = ends rest := by
  cases rest <;> simp [ends, isBreak.1]

theorem erase_cons_of_break {character : Char} (isBreak : IsBreak character) (inside : Bool)
    (rest : List Char) :
    erase inside (character :: rest) =
      if inside then erase inside rest else character :: erase inside rest := by
  cases rest <;> cases inside <;> simp [erase, isBreak.1, isBreak.2]

theorem ends_append_of_breaks {before : List Char}
    (breaks : ∀ character ∈ before, IsBreak character) (after : List Char) :
    ends (before ++ after) = ends after := by
  induction before with
  | nil => rfl
  | cons first rest induction =>
      rw [List.cons_append, ends_cons_of_break (breaks first List.mem_cons_self)]
      exact induction fun character member => breaks character (List.mem_cons_of_mem first member)

theorem erase_append_of_breaks {before : List Char}
    (breaks : ∀ character ∈ before, IsBreak character) (after : List Char) :
    erase false (before ++ after) = before ++ erase false after := by
  induction before with
  | nil => rfl
  | cons first rest induction =>
      rw [List.cons_append, erase_cons_of_break (breaks first List.mem_cons_self), if_neg (by simp),
        induction fun character member => breaks character (List.mem_cons_of_mem first member),
        List.cons_append]

theorem ends_append_break {character : Char} (isBreak : IsBreak character)
    (before after : List Char) :
    ends (before ++ character :: after) = (ends before || ends after) := by
  induction before with
  | nil => exact ends_cons_of_break isBreak after
  | cons first rest induction =>
      cases rest with
      | nil =>
          rw [List.cons_append, List.nil_append, ends, ends_cons_of_break isBreak]
          simp [ends, isBreak.2]
      | cons second others =>
          rw [List.cons_append, List.cons_append, ends, ends, ← List.cons_append, induction,
            Bool.or_assoc]

theorem ends_eq_false_of_notMem {characters : List Char} (noSlash : '/' ∉ characters) :
    ends characters = false := by
  induction characters with
  | nil => rfl
  | cons first rest induction =>
      rw [List.mem_cons, not_or] at noSlash
      cases rest with
      | nil => rfl
      | cons second others =>
          rw [ends, induction noSlash.2]
          have notSlash : second ≠ '/' := fun same => noSlash.2 (same ▸ List.mem_cons_self)
          simp [notSlash]

theorem erase_true_append {body : List Char} (clean : ends body = false) (rest : List Char) :
    erase true (body ++ '*' :: '/' :: rest) = erase false rest := by
  induction body with
  | nil => rfl
  | cons first others induction =>
      cases others with
      | nil => cases rest <;> simp [erase]
      | cons second others =>
          rw [ends, Bool.or_eq_false_iff, Bool.and_eq_false_iff, decide_eq_false_iff_not,
            decide_eq_false_iff_not] at clean
          rw [List.cons_append, List.cons_append, erase, if_neg (by grind), ← List.cons_append]
          exact induction clean.2

theorem ends_append_end (body rest : List Char) : ends (body ++ '*' :: '/' :: rest) = true := by
  induction body with
  | nil => simp [ends]
  | cons first others induction =>
      cases others with
      | nil => simp [ends]
      | cons second others =>
          rw [List.cons_append, List.cons_append, ends, ← List.cons_append, induction, Bool.or_true]

theorem erase_false_comment {body : List Char} (clean : ends body = false) (rest : List Char) :
    erase false ('/' :: '*' :: (body ++ '*' :: '/' :: rest)) = erase false rest := by
  rw [erase, if_pos ⟨rfl, rfl, ends_append_end body rest⟩, erase_true_append clean]

/-! ## Texts that agree -/

/-- Two texts are the same apart from comments, whether or not a comment is open before
them, and both end such a comment or neither does. -/
structure Agrees (first second : List Char) : Prop where
  code : ∀ inside, erase inside first = erase inside second
  ends : ends first = ends second

theorem Agrees.refl (characters : List Char) : Agrees characters characters :=
  ⟨fun _ => rfl, rfl⟩

theorem Agrees.cons_break {character : Char} (isBreak : IsBreak character)
    {first second : List Char} (agrees : Agrees first second) :
    Agrees (character :: first) (character :: second) where
  code inside := by
    rw [erase_cons_of_break isBreak, erase_cons_of_break isBreak, agrees.code]
  ends := by rw [ends_cons_of_break isBreak, ends_cons_of_break isBreak, agrees.ends]

/-- Texts agree after a common text that ends with a break, since no comment starts or ends
across the break. -/
theorem Agrees.append_break {character : Char} (isBreak : IsBreak character)
    {first second : List Char} (agrees : Agrees first second) :
    ∀ common, Agrees (common ++ character :: first) (common ++ character :: second)
  | [] => agrees.cons_break isBreak
  | [only] =>
      { code := by
          have rest := agrees.cons_break isBreak
          intro inside
          cases inside <;> simp [erase, isBreak.1, isBreak.2, rest.code]
        ends := by
          have rest := agrees.cons_break isBreak
          simp [C.ends, isBreak.2, rest.ends] }
  | head :: next :: others =>
      { code := by
          have rest := agrees.append_break isBreak others
          have later := agrees.append_break isBreak (next :: others)
          rw [List.cons_append] at later
          intro inside
          cases inside <;> simp [erase, rest.code, rest.ends, later.code]
        ends := by
          have later := agrees.append_break isBreak (next :: others)
          rw [List.cons_append] at later
          simp [C.ends, later.ends] }

/-! ## Documents that agree -/

theorem forall₂_flatMap {α β γ : Type} {Related : β → γ → Prop} {inputs : List α}
    {first : α → List β} {second : α → List γ}
    (each : ∀ input ∈ inputs, List.Forall₂ Related (first input) (second input)) :
    List.Forall₂ Related (inputs.flatMap first) (inputs.flatMap second) := by
  induction inputs with
  | nil => exact .nil
  | cons input rest induction =>
      rw [List.flatMap_cons, List.flatMap_cons]
      exact List.rel_append (each input List.mem_cons_self)
        (induction fun other member => each other (List.mem_cons_of_mem input member))

namespace Item

structure Opens (indent opening : String) : Prop where
  blank : ∀ character ∈ indent.toList, IsBreak character
  opening : opening = "/*" ∨ opening = "/**"

inductive Alike : Item → Item → Prop
  | same (item : Item) : Alike item item
  | comment (indent opening : String) (first second : List String)
      (opens : Opens indent opening) (firstClean : ∀ line ∈ first, IsClean line)
      (secondClean : ∀ line ∈ second, IsClean line) :
      Alike (.comment indent opening first) (.comment indent opening second)

theorem exists_text_eq (item : Item) : ∃ characters, item.text.toList = characters ++ ['\n'] := by
  cases item with
  | code text => exact ⟨_, String.toList_append⟩
  | comment indent opening lines =>
      refine ⟨(indent ++ opening ++ "\n" ++
        String.join (lines.map fun line => indent ++ line ++ "\n") ++ indent ++ " */").toList, ?_⟩
      simp [text]
  | remark text =>
      refine ⟨("/* " ++ text ++ " */").toList, ?_⟩
      simp [Item.text]

theorem ends_lines {indent : String} {lines : List String}
    (blank : ∀ character ∈ indent.toList, IsBreak character)
    (clean : ∀ line ∈ lines, IsClean line) (after : List Char) :
    ends ((String.join (lines.map fun line => indent ++ line ++ "\n")).toList ++ after) =
      ends after := by
  induction lines with
  | nil => rfl
  | cons line rest induction =>
      have lineClean : ends line.toList = false := clean line List.mem_cons_self
      have others := induction fun other member => clean other (List.mem_cons_of_mem line member)
      have lineEnd : "\n".toList = ['\n'] := rfl
      rw [List.map_cons, String.join_cons, String.toList_append, String.toList_append,
        String.toList_append, lineEnd, List.append_assoc, List.append_assoc, List.append_assoc,
        ends_append_of_breaks blank, List.singleton_append, ends_append_break (by decide),
        lineClean, Bool.false_or, others]

theorem exists_comment_text {indent opening : String} {lines : List String}
    (opens : Opens indent opening) (clean : ∀ line ∈ lines, IsClean line) :
    ∃ body, (Item.comment indent opening lines).text.toList =
        indent.toList ++ '/' :: '*' :: (body ++ '*' :: '/' :: ['\n']) ∧
      ends body = false ∧ ends ('*' :: body) = false := by
  have inner : ends ((String.join (lines.map fun line => indent ++ line ++ "\n")).toList ++
      (indent.toList ++ [' '])) = false := by
    rw [ends_lines opens.blank clean, ends_append_of_breaks opens.blank]
    rfl
  rcases opens.opening with rfl | rfl
  · refine ⟨'\n' :: ((String.join (lines.map fun line => indent ++ line ++ "\n")).toList ++
      (indent.toList ++ [' '])), by simp [text], ?_, ?_⟩
    · rw [ends_cons_of_break (by decide), inner]
    · rw [ends, ends_cons_of_break (by decide), inner]
      rfl
  · refine ⟨'*' :: '\n' :: ((String.join (lines.map fun line => indent ++ line ++ "\n")).toList ++
      (indent.toList ++ [' '])), by simp [text], ?_, ?_⟩
    · rw [ends, ends_cons_of_break (by decide), inner]
      rfl
    · rw [ends, ends, ends_cons_of_break (by decide), inner]
      rfl

theorem erase_comment {indent opening : String} {lines : List String}
    (opens : Opens indent opening) (clean : ∀ line ∈ lines, IsClean line) (after : List Char) :
    erase false ((Item.comment indent opening lines).text.toList ++ after) =
        indent.toList ++ '\n' :: erase false after ∧
      erase true ((Item.comment indent opening lines).text.toList ++ after) =
        '\n' :: erase false after ∧
      ends ((Item.comment indent opening lines).text.toList ++ after) = true := by
  rcases exists_comment_text opens clean with ⟨body, textEqual, bodyClean, startClean⟩
  have lineEnd : erase false ('\n' :: after) = '\n' :: erase false after :=
    erase_cons_of_break (by decide) false after
  -- The text once more, split before the end of the comment.
  have outer : indent.toList ++ '/' :: '*' :: (body ++ '*' :: '/' :: ['\n']) ++ after =
      (indent.toList ++ '/' :: '*' :: body) ++ '*' :: '/' :: '\n' :: after := by simp
  have outerClean : ends (indent.toList ++ '/' :: '*' :: body) = false := by
    rw [ends_append_of_breaks opens.blank, ends, startClean]
    rfl
  rw [textEqual]
  refine ⟨?_, ?_, ?_⟩
  · rw [List.append_assoc, erase_append_of_breaks opens.blank]
    simp only [List.cons_append, List.append_assoc, List.nil_append]
    rw [erase_false_comment bodyClean, lineEnd]
  · rw [outer, erase_true_append outerClean, lineEnd]
  · rw [outer, ends_append_end]

/-- A line that ends its comment puts the rest of the line into the code. -/
theorem erase_comment_of_ended {lines : List String} {start : String}
    (clean : ∀ line ∈ lines, IsClean line) (startClean : IsClean start) (rest : String)
    (others : List String) (after : List Char) :
    ∃ tail, erase false
        ((Item.comment "" "/*" (lines ++ (start ++ "*/" ++ rest) :: others)).text.toList ++ after) =
      erase false (rest.toList ++ '\n' :: tail) := by
  let body := '\n' :: ((String.join (lines.map fun line => "" ++ line ++ "\n")).toList ++
    start.toList)
  have bodyClean : ends body = false := by
    rw [ends_cons_of_break (by decide), ends_lines (by simp) clean]
    exact startClean
  let tail := (String.join (others.map fun line => "" ++ line ++ "\n")).toList ++
    " */\n".toList ++ after
  have textEqual :
      (Item.comment "" "/*" (lines ++ (start ++ "*/" ++ rest) :: others)).text.toList ++ after =
        '/' :: '*' :: (body ++ '*' :: '/' :: (rest.toList ++ '\n' :: tail)) := by
    simp [text, body, tail]
  exact ⟨tail, by rw [textEqual, erase_false_comment bodyClean]⟩

theorem Alike.agrees {first second : Item} (alike : Alike first second)
    {firstRest secondRest : List Char} (agrees : Agrees firstRest secondRest) :
    Agrees (first.text.toList ++ firstRest) (second.text.toList ++ secondRest) := by
  cases alike with
  | same item =>
      rcases exists_text_eq first with ⟨characters, textEqual⟩
      rw [textEqual, List.append_assoc, List.append_assoc]
      exact agrees.append_break (by decide) characters
  | comment indent opening first second opens firstClean secondClean =>
      rcases erase_comment opens firstClean firstRest with ⟨firstOutside, firstInside, firstEnds⟩
      rcases erase_comment opens secondClean secondRest with
        ⟨secondOutside, secondInside, secondEnds⟩
      refine ⟨fun inside => ?_, firstEnds.trans secondEnds.symm⟩
      cases inside with
      | false => rw [firstOutside, secondOutside, agrees.code]
      | true => rw [firstInside, secondInside, agrees.code]

end Item

namespace Document

def Alike (first second : Document) : Prop := List.Forall₂ Item.Alike first second

theorem Alike.refl (document : Document) : Alike document document :=
  List.forall₂_same.mpr fun item _ => .same item

theorem Alike.append {first second firstRest secondRest : Document} (head : Alike first second)
    (rest : Alike firstRest secondRest) : Alike (first ++ firstRest) (second ++ secondRest) :=
  List.rel_append head rest

theorem Alike.flatMap {α : Type} {inputs : List α} {first second : α → Document}
    (each : ∀ input ∈ inputs, Alike (first input) (second input)) :
    Alike (inputs.flatMap first) (inputs.flatMap second) :=
  forall₂_flatMap each

theorem Alike.withoutComments_eq {first second : Document} (alike : Alike first second) :
    withoutComments first.text = withoutComments second.text := by
  have agrees : Agrees first.text.toList second.text.toList := by
    induction alike with
    | nil => exact .refl _
    | cons head rest induction =>
        simp only [Document.text, List.map_cons, String.join_cons, String.toList_append] at *
        exact head.agrees induction
  rw [withoutComments, withoutComments, agrees.code]

end Document

end CanCodec.C
