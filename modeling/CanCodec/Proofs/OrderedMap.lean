import Mathlib.Data.List.Forall2
import Mathlib.Data.List.Perm.Subperm
import CanCodec.OrderedMap

/-! # Maps from lists of pairs

A map that is set pair by pair has the keys of the pairs without repetitions, each at its
first place, and under each key the value of its last pair. -/

namespace CanCodec

theorem getLast?_filter_eq_some_iff {α : Type} {kind : α → Prop} [DecidablePred kind]
    {elements : List α} {last : α} :
    (elements.filter fun element => kind element).getLast? = some last ↔
      kind last ∧ ∃ before after, elements = before ++ last :: after ∧
        ∀ other ∈ after, ¬kind other := by
  simp only [List.getLast?_eq_some_iff, List.filter_eq_append_iff, List.filter_eq_cons_iff,
    List.filter_eq_nil_iff, decide_eq_true_eq]
  constructor
  · rintro ⟨_, before, _, rfl, _, between, after, rfl, _, same, others⟩
    exact ⟨same, before ++ between, after, by simp, others⟩
  · rintro ⟨same, before, after, rfl, others⟩
    exact ⟨_, before, last :: after, rfl, rfl, [], after, rfl, by simp, same, others⟩

variable {κ α β : Type} [DecidableEq κ]

theorem eraseDups_of_nodup {keys : List κ} (distinct : keys.Nodup) : keys.eraseDups = keys := by
  induction keys with
  | nil => rfl
  | cons key rest induction =>
      rw [List.nodup_cons] at distinct
      have others : rest.filter (fun other => !other == key) = rest :=
        List.filter_eq_self.mpr fun other member => by
          simpa using ne_of_mem_of_not_mem member distinct.1
      rw [List.eraseDups_cons, others, induction distinct.2]

theorem upsert_of_notMem {key : κ} {value : α} {entries : List (κ × α)}
    (absent : key ∉ entries.map Prod.fst) :
    upsert key value entries = entries ++ [(key, value)] := by
  induction entries with
  | nil => rfl
  | cons entry rest induction =>
      rw [List.map_cons, List.mem_cons, not_or] at absent
      rw [upsert, if_neg (Ne.symm absent.1), induction absent.2, List.cons_append]

theorem map_fst_upsert_of_mem {key : κ} {value : α} {entries : List (κ × α)}
    (listed : key ∈ entries.map Prod.fst) :
    (upsert key value entries).map Prod.fst = entries.map Prod.fst := by
  induction entries with
  | nil => cases listed
  | cons entry rest induction =>
      rw [upsert]
      split_ifs with same
      · rw [List.map_cons, List.map_cons, same]
      · have later := (List.mem_cons.mp listed).resolve_left (Ne.symm same)
        rw [List.map_cons, List.map_cons, induction later]

theorem lookupKey_of_mem {entries : List (κ × α)} (distinct : (entries.map Prod.fst).Nodup)
    {entry : κ × α} (member : entry ∈ entries) : lookupKey entry.1 entries = some entry.2 := by
  induction entries with
  | nil => cases member
  | cons head rest induction =>
      rw [List.map_cons, List.nodup_cons] at distinct
      rw [lookupKey]
      rcases List.mem_cons.mp member with rfl | member
      · rw [if_pos rfl]
      · have different : head.1 ≠ entry.1 := fun same =>
          distinct.1 (same ▸ List.mem_map_of_mem member)
        rw [if_neg different]
        exact induction distinct.2 member

namespace OrderedMap

theorem keys_foldl_insert (pairs : List (κ × α)) (values : OrderedMap κ α) :
    (pairs.foldl (fun values pair => values.insert pair.1 pair.2) values).keys =
      (values.keys ++ pairs.map Prod.fst).eraseDups := by
  induction pairs generalizing values with
  | nil =>
      rw [List.map_nil, List.append_nil]
      exact (eraseDups_of_nodup values.distinct).symm
  | cons pair rest induction =>
      rw [List.foldl_cons, induction, List.map_cons]
      by_cases listed : pair.1 ∈ values.keys
      · have kept : (values.insert pair.1 pair.2).keys = values.keys :=
          map_fst_upsert_of_mem listed
        have dropped : (pair.1 :: rest.map Prod.fst).removeAll values.keys =
            (rest.map Prod.fst).removeAll values.keys := by
          rw [List.cons_removeAll, if_neg (by simpa using listed)]
        rw [kept, List.eraseDups_append, List.eraseDups_append, dropped]
      · have inserted : (values.insert pair.1 pair.2).entries = values.entries ++ [pair] :=
          upsert_of_notMem listed
        rw [keys, inserted, List.map_append, List.append_assoc]
        rfl

theorem keys_ofList (pairs : List (κ × α)) :
    (ofList pairs).keys = (pairs.map Prod.fst).eraseDups :=
  keys_foldl_insert pairs empty

theorem entries_foldl_insert {pairs : List (κ × α)} {values : OrderedMap κ α}
    (distinct : ((values.entries ++ pairs).map Prod.fst).Nodup) :
    (pairs.foldl (fun values pair => values.insert pair.1 pair.2) values).entries =
      values.entries ++ pairs := by
  induction pairs generalizing values with
  | nil => simp
  | cons pair rest induction =>
      have absent : pair.1 ∉ values.entries.map Prod.fst := by
        rw [List.map_append, List.map_cons, List.nodup_append] at distinct
        exact fun member => distinct.2.2 _ member _ List.mem_cons_self rfl
      have inserted : (values.insert pair.1 pair.2).entries = values.entries ++ [pair] :=
        upsert_of_notMem absent
      rw [List.foldl_cons, induction (by rw [inserted, List.append_assoc]; exact distinct),
        inserted, List.append_assoc, List.singleton_append]

theorem entries_ofList_eq_iff {pairs : List (κ × α)} :
    (ofList pairs).entries = pairs ↔ (pairs.map Prod.fst).Nodup := by
  refine ⟨fun kept => ?_, fun distinct => entries_foldl_insert distinct⟩
  rw [← kept]
  exact (ofList pairs).distinct

theorem size_ofList_eq_iff {pairs : List (κ × α)} :
    (ofList pairs).size = pairs.length ↔ (pairs.map Prod.fst).Nodup := by
  constructor
  · intro complete
    have distinct : (ofList pairs).keys.Nodup := (ofList pairs).distinct
    have listed : (ofList pairs).keys ⊆ pairs.map Prod.fst := by
      rw [keys_ofList]
      exact fun key member => List.mem_eraseDups.mp member
    have short : (pairs.map Prod.fst).length ≤ (ofList pairs).keys.length := by
      rw [keys, List.length_map, List.length_map]
      exact Nat.le_of_eq complete.symm
    exact ((distinct.subperm listed).perm_of_length_le short).nodup_iff.mp distinct
  · intro distinct
    rw [size, entries_ofList_eq_iff.mpr distinct]

theorem forall₂_entries {first : OrderedMap κ α} {second : OrderedMap κ β}
    (same : first.keys = second.keys) :
    List.Forall₂ (fun entry other => entry.1 = other.1 ∧
        first.get? entry.1 = some entry.2 ∧ second.get? other.1 = some other.2)
      first.entries second.entries := by
  have listed : List.Forall₂ Eq (first.entries.map Prod.fst) (second.entries.map Prod.fst) := by
    rw [List.forall₂_eq_eq_eq]
    exact same
  have keys := List.forall₂_map_right_iff.mp (List.forall₂_map_left_iff.mp listed)
  rw [List.forall₂_iff_zip] at keys ⊢
  refine ⟨keys.1, fun {entry other} member => ⟨keys.2 member, ?_, ?_⟩⟩
  · exact lookupKey_of_mem first.distinct (List.of_mem_zip member).1
  · exact lookupKey_of_mem second.distinct (List.of_mem_zip member).2

end OrderedMap

end CanCodec
