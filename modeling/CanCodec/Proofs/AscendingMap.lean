import CanCodec.AscendingMap

/-! # Maps from their entries in any order

Entries with distinct keys make the same map in whatever order they are inserted. -/

namespace CanCodec

variable {κ α : Type} [LT κ]

theorem insertAscending_perm [DecidableLT κ] [Std.Trichotomous (fun a b : κ => a < b)] {key : κ}
    (value : α) {entries : List (κ × α)} (fresh : key ∉ entries.map Prod.fst) :
    (insertAscending key value entries).Perm ((key, value) :: entries) := by
  induction entries with
  | nil => exact .refl _
  | cons head rest induction =>
      rw [List.map_cons, List.mem_cons, not_or] at fresh
      rw [insertAscending]
      split
      next => exact .refl _
      next notBelow =>
        split
        next => exact ((induction fresh.2).cons head).trans (.swap _ _ _)
        next notAbove =>
          exact absurd (Std.Trichotomous.trichotomous (r := fun a b : κ => a < b) key head.1
            notBelow notAbove) fresh.1

namespace AscendingMap

theorem eq_of_perm [Trans (fun a b : κ => a < b) (fun a b : κ => a < b) (fun a b : κ => a < b)]
    [Std.Irrefl (fun a b : κ => a < b)] {left right : AscendingMap κ α}
    (same : left.entries.Perm right.entries) : left = right := by
  rcases left with ⟨entries, ascending⟩
  have equal := same.eq_of_pairwise
    (fun first second _ _ (below : first.1 < second.1) (above : second.1 < first.1) =>
      absurd (Trans.trans below above : first.1 < first.1)
        (Std.Irrefl.irrefl (r := fun a b : κ => a < b) first.1)) ascending right.ascending
  cases right
  cases equal
  rfl

theorem nodup_keys [Std.Irrefl (fun a b : κ => a < b)] (values : AscendingMap κ α) :
    (values.entries.map Prod.fst).Nodup := by
  refine List.pairwise_map.mpr (values.ascending.imp fun {first second} below same => ?_)
  rw [same] at below
  exact Std.Irrefl.irrefl (r := fun a b : κ => a < b) second.1 below

variable [DecidableLT κ]
  [Trans (fun a b : κ => a < b) (fun a b : κ => a < b) (fun a b : κ => a < b)]
  [Std.Trichotomous (fun a b : κ => a < b)]

theorem foldl_insert_perm (pairs : List (κ × α)) (values : AscendingMap κ α)
    (distinct : ((pairs ++ values.entries).map Prod.fst).Nodup) :
    (pairs.foldl (fun values pair => values.insert pair.1 pair.2) values).entries.Perm
      (pairs ++ values.entries) := by
  induction pairs generalizing values with
  | nil => exact .refl _
  | cons pair rest induction =>
      rw [List.cons_append, List.map_cons, List.nodup_cons, List.map_append, List.mem_append,
        not_or] at distinct
      have inserted : (values.insert pair.1 pair.2).entries.Perm (pair :: values.entries) :=
        insertAscending_perm pair.2 distinct.1.2
      have moved : (rest ++ (values.insert pair.1 pair.2).entries).Perm
          (pair :: (rest ++ values.entries)) :=
        (inserted.append_left rest).trans List.perm_middle
      refine (induction _ ((moved.map Prod.fst).nodup_iff.mpr ?_)).trans moved
      rw [List.map_cons, List.nodup_cons, List.map_append, List.mem_append, not_or]
      exact distinct

theorem ofList_eq_of_perm [Std.Irrefl (fun a b : κ => a < b)] {pairs : List (κ × α)}
    {values : AscendingMap κ α} (same : pairs.Perm values.entries) : ofList pairs = values := by
  have entries : (pairs ++ (empty : AscendingMap κ α).entries) = pairs := List.append_nil pairs
  refine eq_of_perm ((foldl_insert_perm pairs empty ?_).trans ?_)
  · rw [entries]
    exact (same.map Prod.fst).nodup_iff.mpr values.nodup_keys
  · rw [entries]
    exact same

end AscendingMap

end CanCodec
