/-! # Maps in order of first setting

An `OrderedMap` keeps its entries in the order in which their keys were first set.
Setting a key again replaces the value and keeps the place. The entry list is the view
through which every operation is described. -/

namespace CanCodec

variable {κ α : Type} [DecidableEq κ]

def upsert (key : κ) (value : α) : List (κ × α) → List (κ × α)
  | [] => [(key, value)]
  | entry :: rest =>
      if entry.1 = key then (key, value) :: rest else entry :: upsert key value rest

def lookupKey (key : κ) : List (κ × α) → Option α
  | [] => none
  | entry :: rest => if entry.1 = key then some entry.2 else lookupKey key rest

example : upsert "a" 3 [("a", 1), ("b", 2)] = [("a", 3), ("b", 2)] := by decide

theorem mem_keys_upsert {key other : κ} {value : α} {entries : List (κ × α)} :
    other ∈ (upsert key value entries).map Prod.fst ↔
      other = key ∨ other ∈ entries.map Prod.fst := by
  induction entries with
  | nil => simp [upsert]
  | cons entry rest induction =>
      by_cases same : entry.1 = key
      · simp [upsert, same]
      · simp only [upsert, same, if_false, List.map_cons, List.mem_cons, induction]
        grind

theorem nodup_keys_upsert {key : κ} {value : α} {entries : List (κ × α)}
    (distinct : (entries.map Prod.fst).Nodup) :
    ((upsert key value entries).map Prod.fst).Nodup := by
  induction entries with
  | nil => simp [upsert]
  | cons entry rest induction =>
      rw [List.map_cons, List.nodup_cons] at distinct
      by_cases same : entry.1 = key
      · simp only [upsert, same, if_true, List.map_cons, List.nodup_cons]
        exact ⟨same ▸ distinct.1, distinct.2⟩
      · simp only [upsert, same, if_false, List.map_cons, List.nodup_cons]
        refine ⟨fun member => ?_, induction distinct.2⟩
        rcases mem_keys_upsert.mp member with equal | member
        · exact same equal
        · exact distinct.1 member

@[simp] theorem lookupKey_upsert_self (key : κ) (value : α)
    (entries : List (κ × α)) :
    lookupKey key (upsert key value entries) = some value := by
  induction entries with
  | nil => simp [upsert, lookupKey]
  | cons entry rest induction =>
      by_cases same : entry.1 = key <;> simp [upsert, lookupKey, same, induction]

theorem lookupKey_upsert_of_ne {key other : κ} (different : other ≠ key)
    (value : α) (entries : List (κ × α)) :
    lookupKey other (upsert key value entries) = lookupKey other entries := by
  induction entries with
  | nil => simp [upsert, lookupKey, Ne.symm different]
  | cons entry rest induction =>
      by_cases same : entry.1 = key
      · simp [upsert, lookupKey, same, Ne.symm different]
      · simp only [upsert, same, if_false, lookupKey, induction]

/-- A map whose entries stay in the order in which their keys were first set. -/
structure OrderedMap (κ α : Type) where
  entries : List (κ × α) := []
  distinct : (entries.map Prod.fst).Nodup := by simp

namespace OrderedMap

def empty : OrderedMap κ α := {}

instance : Inhabited (OrderedMap κ α) := ⟨empty⟩

def insert (values : OrderedMap κ α) (key : κ) (value : α) : OrderedMap κ α where
  entries := upsert key value values.entries
  distinct := nodup_keys_upsert values.distinct

def get? (values : OrderedMap κ α) (key : κ) : Option α :=
  lookupKey key values.entries

def ofList (pairs : List (κ × α)) : OrderedMap κ α :=
  pairs.foldl (fun values pair => values.insert pair.1 pair.2) empty

def keys (values : OrderedMap κ α) : List κ := values.entries.map Prod.fst

def size (values : OrderedMap κ α) : Nat := values.entries.length

def isEmpty (values : OrderedMap κ α) : Bool := values.entries.isEmpty

@[simp] theorem get?_insert_self (values : OrderedMap κ α) (key : κ) (value : α) :
    (values.insert key value).get? key = some value :=
  lookupKey_upsert_self key value values.entries

theorem get?_insert_of_ne (values : OrderedMap κ α) {key other : κ}
    (different : other ≠ key) (value : α) :
    (values.insert key value).get? other = values.get? other :=
  lookupKey_upsert_of_ne different value values.entries

theorem get?_foldl_insert (pairs : List (κ × α)) (values : OrderedMap κ α) (key : κ) :
    (pairs.foldl (fun values pair => values.insert pair.1 pair.2) values).get? key =
      (((pairs.filter fun pair => pair.1 = key).getLast?).map Prod.snd).or (values.get? key) := by
  induction pairs generalizing values with
  | nil => simp
  | cons pair rest induction =>
      rw [List.foldl_cons, induction]
      by_cases same : pair.1 = key
      · cases last : (rest.filter fun pair => pair.1 = key).getLast? with
        | none => simp [same, List.getLast?_cons, last]
        | some entry => simp [same, List.getLast?_cons, last]
      · rw [get?_insert_of_ne values (Ne.symm same)]
        simp [same]

theorem get?_ofList (pairs : List (κ × α)) (key : κ) :
    (ofList pairs).get? key =
      ((pairs.filter fun pair => pair.1 = key).getLast?).map Prod.snd := by
  rw [ofList, get?_foldl_insert]
  simp [empty, get?, lookupKey]

theorem get?_ofList_of_mem {pairs : List (κ × α)} (distinct : (pairs.map Prod.fst).Nodup)
    {key : κ} {value : α} (member : (key, value) ∈ pairs) :
    (ofList pairs).get? key = some value := by
  have only : pairs.filter (fun pair => pair.1 = key) = [(key, value)] := by
    induction pairs with
    | nil => cases member
    | cons head rest induction =>
        rw [List.map_cons, List.nodup_cons] at distinct
        rcases List.mem_cons.mp member with equal | member
        · have absent : rest.filter (fun pair => pair.1 = key) = [] := by
            apply List.filter_eq_nil_iff.mpr
            intro pair pairMember same
            rw [← equal] at distinct
            exact distinct.1 (List.mem_map.mpr ⟨pair, pairMember, of_decide_eq_true same⟩)
          rw [List.filter_cons, ← equal, absent]
          simp
        · have different : head.1 ≠ key := by
            intro same
            exact distinct.1 (List.mem_map.mpr ⟨(key, value), member, same.symm⟩)
          rw [List.filter_cons, if_neg (by simpa using different)]
          exact induction distinct.2 member
  rw [get?_ofList, only]
  rfl

end OrderedMap

end CanCodec
