import Mathlib.Data.List.Nodup
import Mathlib.Order.Bounds.Basic
import CanCodec.Catalog.Pruning
import CanCodec.Proofs.Split

/-! # What pruning leaves of choice names

Pruning drops from all choice names the words that they share at the start, as many as leave
each name a word, or it drops nothing. -/

namespace CanCodec

theorem AscendingMap.get?_mapValues {κ α β : Type} [LT κ] [DecidableEq κ] (transform : α → β)
    (values : AscendingMap κ α) (key : κ) :
    (values.mapValues transform).get? key = (values.get? key).map transform := by
  simp only [get?, mapValues, List.find?_map, Option.map_map]
  rfl

theorem AscendingMap.values_mapValues {κ α β : Type} [LT κ] (transform : α → β)
    (map : AscendingMap κ α) : (map.mapValues transform).values = map.values.map transform := by
  simp only [values, mapValues, List.map_map]
  rfl

theorem AscendingMap.size_mapValues {κ α β : Type} [LT κ] (transform : α → β)
    (values : AscendingMap κ α) : (values.mapValues transform).size = values.size := by
  simp only [size, mapValues, List.length_map]

namespace Pruning

/-! ## Words of a name -/

theorem words_ne_nil (name : List Char) : words name ≠ [] := Text.split_ne_nil '_' name

theorem unwords_words (name : List Char) : unwords (words name) = name :=
  Text.intercalate_split '_' name

theorem words_unwords {parts : List (List Char)} (nonempty : parts ≠ [])
    (absent : ∀ part ∈ parts, '_' ∉ part) : words (unwords parts) = parts :=
  Text.split_intercalate nonempty absent

theorem words_join (before after : List Char) :
    words (before ++ '_' :: after) = words before ++ words after :=
  Text.split_append_separator '_' before after

theorem unwords_cons {rest : List (List Char)} (nonempty : rest ≠ []) (part : List Char) :
    unwords (part :: rest) = part ++ '_' :: unwords rest := by
  rw [unwords, List.intercalate_cons_of_ne_nil nonempty, List.append_assoc, List.singleton_append]
  rfl

theorem unwords_append {before after : List (List Char)} (first : before ≠ []) (last : after ≠ []) :
    unwords (before ++ after) = unwords before ++ '_' :: unwords after := by
  induction before with
  | nil => exact absurd rfl first
  | cons part rest induction =>
      cases rest with
      | nil =>
          rw [List.singleton_append, unwords_cons last]
          simp [unwords]
      | cons next others =>
          have more := List.cons_ne_nil next others
          rw [List.cons_append, unwords_cons (List.append_ne_nil_of_left_ne_nil more after),
            unwords_cons more, induction more, List.append_assoc, List.cons_append]

theorem join_shorten {count : ℕ} {name : List Char} (positive : 0 < count)
    (leaves : count < (words name).length) :
    unwords ((words name).take count) ++ '_' :: shorten count name = name := by
  have first : (words name).take count ≠ [] := by
    rw [Ne, List.take_eq_nil_iff, not_or]
    exact ⟨positive.ne', words_ne_nil name⟩
  have last : (words name).drop count ≠ [] := by
    rwa [Ne, List.drop_eq_nil_iff, not_le]
  rw [shorten, ← unwords_append first last, List.take_append_drop, unwords_words]

theorem words_shorten {count : ℕ} {name : List Char} (leaves : count < (words name).length) :
    words (shorten count name) = (words name).drop count := by
  refine words_unwords ?_ fun part member => Text.notMem_of_mem_split (List.mem_of_mem_drop member)
  rwa [Ne, List.drop_eq_nil_iff, not_le]

theorem words_unwords_take {count : ℕ} {name : List Char} (positive : 0 < count) :
    words (unwords ((words name).take count)) = (words name).take count := by
  refine words_unwords ?_ fun part member => Text.notMem_of_mem_split (List.mem_of_mem_take member)
  rw [Ne, List.take_eq_nil_iff, not_or]
  exact ⟨positive.ne', words_ne_nil name⟩

/-! ## Shared words -/

/-- All names start with the same `count` words, and each has a word after them. -/
structure Shares (names : List String) (count : ℕ) : Prop where
  leaves : ∀ name ∈ names, count < (words name.toList).length
  same : ∀ first ∈ names, ∀ second ∈ names,
    (words first.toList).take count = (words second.toList).take count

theorem le_commonLength_iff {count : ℕ} {first second : List (List Char)} :
    count ≤ commonLength first second ↔
      count ≤ first.length ∧ count ≤ second.length ∧ first.take count = second.take count := by
  induction first generalizing count second with
  | nil =>
      rw [commonLength]
      · constructor
        · intro none
          obtain rfl := Nat.le_zero.mp none
          simp
        · exact fun shared => shared.1
      · exact nofun
  | cons word words induction =>
      cases second with
      | nil =>
          rw [commonLength]
          · constructor
            · intro none
              obtain rfl := Nat.le_zero.mp none
              simp
            · exact fun shared => shared.2.1
          · exact nofun
      | cons other others =>
          rw [commonLength]
          cases count with
          | zero => simp
          | succ count =>
              split
              next same => simp [same, induction]
              next different => simp [different]

theorem le_droppable_iff {count : ℕ} (first : List (List Char)) (others : List (List (List Char))) :
    count ≤ droppable (first :: others) ↔ count ≤ first.length - 1 ∧
      ∀ other ∈ others, count ≤ commonLength first other ∧ count ≤ other.length - 1 := by
  rw [droppable]
  generalize first.length - 1 = start
  induction others generalizing start with
  | nil => simp
  | cons other rest induction =>
      rw [List.foldl_cons, induction, List.forall_mem_cons, Nat.le_min, Nat.le_min, and_assoc]

theorem shares_iff {names : List String} (nonempty : names ≠ []) {count : ℕ} :
    Shares names count ↔ count ≤ droppable (names.map fun name => words name.toList) := by
  cases names with
  | nil => exact absurd rfl nonempty
  | cons first others =>
      have positive : ∀ name : String, 0 < (words name.toList).length := fun name =>
        List.length_pos_iff.mpr (words_ne_nil name.toList)
      rw [List.map_cons, le_droppable_iff, List.forall_mem_map]
      simp only [le_commonLength_iff]
      constructor
      · intro shares
        have leaves := List.forall_mem_cons.mp shares.leaves
        refine ⟨by have := leaves.1; omega, fun other member => ⟨⟨leaves.1.le, ?_, ?_⟩, ?_⟩⟩
        · exact (leaves.2 other member).le
        · exact shares.same first List.mem_cons_self other (List.mem_cons_of_mem first member)
        · have := leaves.2 other member
          omega
      · rintro ⟨least, each⟩
        constructor
        case leaves =>
          refine List.forall_mem_cons.mpr ⟨?_, fun other member => ?_⟩
          · have := positive first
            omega
          · have := positive other
            have := (each other member).2
            omega
        case same =>
          -- Every name has the leading words of the first one.
          have leading : ∀ name ∈ first :: others,
              (words name.toList).take count = (words first.toList).take count :=
            List.forall_mem_cons.mpr ⟨rfl, fun other member => (each other member).1.2.2.symm⟩
          intro one oneMember other otherMember
          rw [leading one oneMember, leading other otherMember]

theorem isGreatest_droppable {names : List String} (nonempty : names ≠ []) :
    IsGreatest {count | Shares names count} (droppable (names.map fun name => words name.toList)) :=
  ⟨(shares_iff nonempty).mpr le_rfl, fun _ shares => (shares_iff nonempty).mp shares⟩

def shortened (count : ℕ) (name : String) : String := String.ofList (shorten count name.toList)

theorem Shares.exists_start {names : List String} {count : ℕ} (shares : Shares names count)
    (nonempty : names ≠ []) (positive : 0 < count) :
    ∃ start : String, (words start.toList).length = count ∧
      ∀ name ∈ names, name = start ++ "_" ++ shortened count name := by
  rcases List.exists_mem_of_ne_nil names nonempty with ⟨first, member⟩
  refine ⟨String.ofList (unwords ((words first.toList).take count)), ?_, fun name other => ?_⟩
  · rw [String.toList_ofList, words_unwords_take positive, List.length_take]
    exact Nat.min_eq_left (shares.leaves first member).le
  · have joined := join_shorten positive (shares.leaves name other)
    rw [shares.same first member name other, ← String.toList_inj, shortened]
    simpa using joined.symm

theorem shortened_join {count : ℕ} {start : String} (counted : (words start.toList).length = count)
    (rest : String) : shortened count (start ++ "_" ++ rest) = rest := by
  have joined : (start ++ "_" ++ rest).toList = start.toList ++ '_' :: rest.toList := by
    rw [String.toList_append, String.toList_append, List.append_assoc]
    rfl
  rw [shortened, shorten, joined, words_join, ← counted, List.drop_left, unwords_words,
    String.ofList_toList]

theorem shortened_ne {count : ℕ} {start name : String}
    (joined : name = start ++ "_" ++ shortened count name) : shortened count name ≠ name := by
  intro kept
  have longer := congrArg String.length joined
  rw [kept, String.length_append, String.length_append] at longer
  have underscore : "_".length = 1 := rfl
  omega

theorem Shares.add {names : List String} {count more : ℕ} (shares : Shares names count)
    (again : Shares (names.map (shortened count)) more) : Shares names (count + more) := by
  have left : ∀ name ∈ names,
      words (shortened count name).toList = (words name.toList).drop count := by
    intro name member
    rw [shortened, String.toList_ofList, words_shorten (shares.leaves name member)]
  constructor
  case leaves =>
    intro name member
    have leaves := again.leaves _ (List.mem_map_of_mem member)
    rw [left name member, List.length_drop] at leaves
    omega
  case same =>
    intro first firstMember second secondMember
    have same := again.same _ (List.mem_map_of_mem firstMember) _ (List.mem_map_of_mem secondMember)
    rw [left first firstMember, left second secondMember] at same
    rw [List.take_add, List.take_add, shares.same first firstMember second secondMember, same]

theorem isGreatest_zero {names : List String} {count : ℕ} (nonempty : names ≠ [])
    (greatest : IsGreatest {count | Shares names count} count) :
    IsGreatest {more | Shares (names.map (shortened count)) more} 0 := by
  constructor
  · exact (shares_iff (by simpa using nonempty)).mpr (Nat.zero_le _)
  · intro more again
    have bound : count + more ≤ count := greatest.2 (greatest.1.add again)
    omega

/-! ## Pruned names -/

variable {choices : Choices}

theorem values_ne_nil (several : 2 ≤ choices.size) : choices.values ≠ [] := by
  intro none
  have length := congrArg List.length none
  rw [AscendingMap.values, List.length_map, List.length_nil] at length
  rw [AscendingMap.size, length] at several
  exact absurd several (by decide)

theorem prune_of_few (few : choices.size < 2) : prune choices = choices := by
  rw [prune, if_pos (.inl few)]

/-- Of two names or more, pruning drops the largest shared number of words, if there are any
and if every name that is left can be used. -/
theorem prune_eq {count : ℕ} (several : 2 ≤ choices.size)
    (greatest : IsGreatest {count | Shares choices.values count} count) :
    prune choices =
      if 0 < count ∧ ∀ name ∈ choices.values, isUsable (shortened count name).toList = true then
        choices.mapValues (shortened count)
      else choices := by
  obtain rfl := greatest.unique (isGreatest_droppable (values_ne_nil several))
  simp only [prune, List.map_map, Function.comp_def, List.all_map, List.all_eq_true,
    Nat.not_lt.mpr several, false_or, shortened, String.toList_ofList]
  rcases Nat.eq_zero_or_pos
    (droppable (choices.values.map fun name => words name.toList)) with none | some
  · rw [if_pos none, if_neg (by simp [none])]
  · rw [if_neg some.ne']
    simp only [some, true_and]
    rfl

/-- The keys stay. The names stay as they are, or one start of whole words and the underscore
after it are dropped from all of them, as many words as they share and leave each a word; what
is left can be used as a name. They stay exactly if there are fewer than two, if they share no
word, or if some name would be left that cannot be used. Distinct names stay distinct, and
nothing is left to prune. -/
theorem prune_drops_largest_start (choices : Choices) :
    (prune choices).keys = choices.keys ∧
      (prune choices = choices ∨ ∃ count start, 0 < count ∧
        IsGreatest {count | Shares choices.values count} count ∧
        (words start.toList).length = count ∧
        ∀ raw old, choices.get? raw = some old → ∃ new, (prune choices).get? raw = some new ∧
          old = start ++ "_" ++ new ∧ isUsable new.toList = true) ∧
      (prune choices = choices ↔ choices.size < 2 ∨
        ∃ count, IsGreatest {count | Shares choices.values count} count ∧
          (count = 0 ∨ ∃ start rest, (words start.toList).length = count ∧
            start ++ "_" ++ rest ∈ choices.values ∧ isUsable rest.toList = false)) ∧
      ((prune choices).values.Nodup ↔ choices.values.Nodup) ∧
      prune (prune choices) = prune choices := by
  rcases Nat.lt_or_ge choices.size 2 with few | several
  · rw [prune_of_few few, prune_of_few few]
    exact ⟨rfl, .inl rfl, iff_of_true rfl (.inl few), .rfl, rfl⟩
  have nonempty := values_ne_nil several
  have greatest := isGreatest_droppable nonempty
  generalize droppable (choices.values.map fun name => words name.toList) = count at greatest
  have pruned := prune_eq several greatest
  split at pruned
  next drops =>
    rcases greatest.1.exists_start nonempty drops.1 with ⟨start, counted, joined⟩
    have injective : ∀ name ∈ choices.values, ∀ other ∈ choices.values,
        shortened count name = shortened count other → name = other := by
      intro name member other otherMember same
      rw [joined name member, joined other otherMember, same]
    have changed : prune choices ≠ choices := by
      intro same
      rcases List.exists_mem_of_ne_nil _ nonempty with ⟨name, member⟩
      have names := congrArg AscendingMap.values (pruned.symm.trans same)
      rw [AscendingMap.values_mapValues] at names
      have kept := List.map_inj_left.mp (names.trans (List.map_id _).symm) name member
      exact shortened_ne (joined name member) kept
    refine ⟨?_, .inr ⟨count, start, drops.1, greatest, counted, ?_⟩, ?_, ?_, ?_⟩
    · rw [pruned, AscendingMap.keys_mapValues]
    · intro raw old named
      have member : old ∈ choices.values :=
        List.mem_map_of_mem (AscendingMap.get?_eq_some_iff.mp named)
      refine ⟨shortened count old, ?_, joined old member, drops.2 old member⟩
      rw [pruned, AscendingMap.get?_mapValues, named, Option.map_some]
    · refine iff_of_false changed ?_
      rintro (few | ⟨other, isGreatest, none | ⟨otherStart, rest, otherCounted, member, unusable⟩⟩)
      · omega
      · exact absurd (none ▸ isGreatest.unique greatest ▸ drops.1) (lt_irrefl 0)
      · obtain rfl := isGreatest.unique greatest
        have usable := drops.2 _ member
        rw [shortened_join otherCounted, unusable] at usable
        cases usable
    · rw [pruned, AscendingMap.values_mapValues]
      exact ⟨List.Nodup.of_map _, fun distinct => distinct.map_on injective⟩
    · have left := isGreatest_zero nonempty greatest
      rw [← AscendingMap.values_mapValues] at left
      have again := prune_eq (by rwa [AscendingMap.size_mapValues]) left
      rwa [if_neg fun drops => absurd drops.1 (lt_irrefl 0), ← pruned] at again
  next keeps =>
    rw [pruned, pruned]
    refine ⟨rfl, .inl rfl, iff_of_true rfl (.inr ⟨count, greatest, ?_⟩), .rfl, rfl⟩
    rcases Nat.eq_zero_or_pos count with none | some
    · exact .inl none
    · right
      simp only [some, true_and, not_forall, Bool.not_eq_true] at keeps
      rcases keeps with ⟨name, member, unusable⟩
      rcases greatest.1.exists_start nonempty some with ⟨start, counted, joined⟩
      exact ⟨start, shortened count name, counted, joined name member ▸ member, unusable⟩

end Pruning

end CanCodec
