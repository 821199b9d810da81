/-! # Maps in ascending key order

An `AscendingMap` lists its entries by strictly increasing key, so two maps with
the same entries are equal however they were built. -/

namespace CanCodec

variable {κ α β : Type} [LT κ]

def insertAscending [DecidableLT κ] (key : κ) (value : α) :
    List (κ × α) → List (κ × α)
  | [] => [(key, value)]
  | entry :: rest =>
      if key < entry.1 then (key, value) :: entry :: rest
      else if entry.1 < key then entry :: insertAscending key value rest
      else (key, value) :: rest

example : insertAscending 2 "b" [(1, "a"), (2, "x"), (3, "c")] =
    [(1, "a"), (2, "b"), (3, "c")] := by decide

def Ascending (entries : List (κ × α)) : Prop :=
  entries.Pairwise fun earlier later => earlier.1 < later.1

theorem mem_insertAscending [DecidableLT κ] {key : κ} {value : α} {entry : κ × α}
    {entries : List (κ × α)} (member : entry ∈ insertAscending key value entries) :
    entry = (key, value) ∨ entry ∈ entries := by
  induction entries with
  | nil => simpa [insertAscending] using member
  | cons head rest induction =>
      unfold insertAscending at member
      split at member
      · simpa using member
      · split at member
        · rcases List.mem_cons.mp member with equal | member
          · exact .inr (equal ▸ List.mem_cons_self)
          · exact (induction member).imp_right (List.mem_cons_of_mem _)
        · exact (List.mem_cons.mp member).imp_right (List.mem_cons_of_mem _)

theorem Ascending.insert [DecidableLT κ]
    [Trans (fun a b : κ => a < b) (fun a b : κ => a < b) (fun a b : κ => a < b)]
    [Std.Trichotomous (fun a b : κ => a < b)]
    {entries : List (κ × α)} (ascending : Ascending entries) (key : κ) (value : α) :
    Ascending (insertAscending key value entries) := by
  induction entries with
  | nil => simp [insertAscending, Ascending]
  | cons head rest induction =>
      have parts := List.pairwise_cons.mp ascending
      unfold insertAscending
      split
      · rename_i below
        refine List.pairwise_cons.mpr ⟨fun entry member => ?_, ascending⟩
        rcases List.mem_cons.mp member with equal | member
        · exact equal ▸ below
        · exact Trans.trans below (parts.1 entry member)
      · rename_i notBelow
        split
        · rename_i above
          refine List.pairwise_cons.mpr ⟨fun entry member => ?_, induction parts.2⟩
          rcases mem_insertAscending member with equal | member
          · exact equal ▸ above
          · exact parts.1 entry member
        · rename_i notAbove
          have same : key = head.1 :=
            Std.Trichotomous.trichotomous (r := fun a b : κ => a < b) key head.1
              notBelow notAbove
          refine List.pairwise_cons.mpr ⟨fun entry member => ?_, parts.2⟩
          exact same ▸ parts.1 entry member

structure AscendingMap (κ α : Type) [LT κ] where
  entries : List (κ × α) := []
  ascending : Ascending entries := by exact List.Pairwise.nil

namespace AscendingMap

def empty : AscendingMap κ α := {}

instance : Inhabited (AscendingMap κ α) := ⟨empty⟩

def insert [DecidableLT κ]
    [Trans (fun a b : κ => a < b) (fun a b : κ => a < b) (fun a b : κ => a < b)]
    [Std.Trichotomous (fun a b : κ => a < b)]
    (values : AscendingMap κ α) (key : κ) (value : α) : AscendingMap κ α where
  entries := insertAscending key value values.entries
  ascending := values.ascending.insert key value

def ofList [DecidableLT κ]
    [Trans (fun a b : κ => a < b) (fun a b : κ => a < b) (fun a b : κ => a < b)]
    [Std.Trichotomous (fun a b : κ => a < b)]
    (pairs : List (κ × α)) : AscendingMap κ α :=
  pairs.foldl (fun values pair => values.insert pair.1 pair.2) empty

def get? [DecidableEq κ] (values : AscendingMap κ α) (key : κ) : Option α :=
  (values.entries.find? fun entry => entry.1 = key).map Prod.snd

theorem find?_insertAscending [DecidableEq κ] [DecidableLT κ]
    [Std.Irrefl (fun a b : κ => a < b)] [Std.Trichotomous (fun a b : κ => a < b)]
    (key other : κ) (value : α) (entries : List (κ × α)) :
    (insertAscending key value entries).find? (fun entry => entry.1 = other) =
      if key = other then some (key, value)
      else entries.find? fun entry => entry.1 = other := by
  induction entries with
  | nil => by_cases same : key = other <;> simp [insertAscending, same]
  | cons head rest induction =>
      unfold insertAscending
      split
      · by_cases same : key = other <;> simp [List.find?_cons, same]
      · rename_i notBelow
        split
        · rename_i above
          by_cases here : head.1 = other
          · have different : key ≠ other := by
              intro same
              rw [here, same] at above
              exact Std.Irrefl.irrefl (r := fun a b : κ => a < b) other above
            simp [here, different]
          · simp [here, induction]
        · rename_i notAbove
          have equal : key = head.1 :=
            Std.Trichotomous.trichotomous (r := fun a b : κ => a < b) key head.1
              notBelow notAbove
          by_cases same : key = other
          · simp [same]
          · simp [same, ← equal]

theorem get?_insert [DecidableEq κ] [DecidableLT κ]
    [Trans (fun a b : κ => a < b) (fun a b : κ => a < b) (fun a b : κ => a < b)]
    [Std.Irrefl (fun a b : κ => a < b)] [Std.Trichotomous (fun a b : κ => a < b)]
    (values : AscendingMap κ α) (key other : κ) (value : α) :
    (values.insert key value).get? other =
      if key = other then some value else values.get? other := by
  simp only [get?, insert, find?_insertAscending]
  split <;> rfl

theorem get?_eq_some_iff [DecidableEq κ] [Std.Irrefl (fun a b : κ => a < b)]
    {values : AscendingMap κ α} {key : κ} {value : α} :
    values.get? key = some value ↔ (key, value) ∈ values.entries := by
  rcases values with ⟨entries, ascending⟩
  simp only [get?]
  induction entries with
  | nil => simp
  | cons head rest induction =>
      have parts := List.pairwise_cons.mp ascending
      by_cases same : head.1 = key
      · simp only [List.find?_cons, same, decide_true, Option.map_some, Option.some.injEq,
          List.mem_cons]
        constructor
        · intro equal
          exact .inl (Prod.ext same.symm equal.symm)
        · rintro (equal | member)
          · rw [← equal]
          · -- A later entry has a larger key.
            have below := parts.1 _ member
            rw [same] at below
            exact absurd below (Std.Irrefl.irrefl (r := fun a b : κ => a < b) key)
      · have different : (key, value) ≠ head := fun equal => same (by rw [← equal])
        simp only [List.find?_cons, same, decide_false, List.mem_cons, different, false_or]
        exact induction parts.2

def keys (values : AscendingMap κ α) : List κ := values.entries.map Prod.fst

def values (map : AscendingMap κ α) : List α := map.entries.map Prod.snd

def size (values : AscendingMap κ α) : Nat := values.entries.length

def isEmpty (values : AscendingMap κ α) : Bool := values.entries.isEmpty

def mapValues (transform : α → β) (values : AscendingMap κ α) : AscendingMap κ β where
  entries := values.entries.map fun entry => (entry.1, transform entry.2)
  ascending := by
    unfold Ascending
    rw [List.pairwise_map]
    exact values.ascending

@[simp] theorem keys_mapValues (transform : α → β) (values : AscendingMap κ α) :
    (values.mapValues transform).keys = values.keys := by
  simp [keys, mapValues, Function.comp_def]

end AscendingMap

end CanCodec
