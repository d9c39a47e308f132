import Mathlib.Data.List.Nodup
import Mathlib.Data.List.Perm.Basic
import Mathlib.Tactic.Common

/-!
# Dictionaries in insertion order

A Python `dict`: its items in the order their keys were first inserted, each
key once. Assigning to a key that is there keeps its place; a new key goes to
the end.
-/

namespace Sys16.PyDict

/-- A dictionary. -/
structure Dict (κ α : Type*) where
  items : List (κ × α)
  nodup : (items.map Prod.fst).Nodup

namespace Dict

variable {κ α : Type*}

/-- The dictionary with one item. -/
def single (k : κ) (v : α) : Dict κ α := ⟨[(k, v)], List.nodup_singleton k⟩

/-- The keys, in order. -/
def keys (d : Dict κ α) : List κ := d.items.map Prod.fst

/-- The values, in order. -/
def values (d : Dict κ α) : List α := d.items.map Prod.snd

variable [DecidableEq κ]

/-- The value of a key in a list of items. -/
def find : List (κ × α) → κ → Option α
  | [], _ => none
  | (j, v) :: l, k => if j = k then some v else find l k

/-- `d.get(k)`. -/
def get? (d : Dict κ α) (k : κ) : Option α := find d.items k

/-- A list of items with a key assigned. -/
def assign : List (κ × α) → κ → α → List (κ × α)
  | [], k, v => [(k, v)]
  | (j, w) :: l, k, v => if j = k then (k, v) :: l else (j, w) :: assign l k v

variable {l : List (κ × α)} {d : Dict κ α} {j k : κ} {u v w : α}

/-- Assigning keeps the order of the keys, a new one last. -/
theorem map_fst_assign (l : List (κ × α)) (k : κ) (v : α) :
    (assign l k v).map Prod.fst =
      if k ∈ l.map Prod.fst then l.map Prod.fst else l.map Prod.fst ++ [k] := by
  induction l with
  | nil => rfl
  | cons p l ih =>
    obtain ⟨j, w⟩ := p
    unfold assign
    by_cases hj : j = k
    · simp [hj]
    · have hne : k ≠ j := Ne.symm hj
      rw [if_neg hj, List.map_cons, List.map_cons, ih]
      by_cases hk : k ∈ l.map Prod.fst
      · rw [if_pos hk, if_pos (List.mem_cons_of_mem j hk)]
      · rw [if_neg hk, if_neg (by rw [List.mem_cons, not_or]; exact ⟨hne, hk⟩), List.cons_append]

/-- `d[k] = v`. -/
def set (d : Dict κ α) (k : κ) (v : α) : Dict κ α where
  items := assign d.items k v
  nodup := by
    rw [map_fst_assign]
    split
    · exact d.nodup
    · next h =>
      refine List.nodup_append.mpr ⟨d.nodup, List.nodup_singleton k, fun a ha b hb => ?_⟩
      rw [List.mem_singleton.mp hb]
      exact fun he => h (he ▸ ha)

/-- Looking up after an assignment. -/
theorem find_assign (l : List (κ × α)) (k : κ) (v : α) (j : κ) :
    find (assign l k v) j = if k = j then some v else find l j := by
  induction l with
  | nil => rfl
  | cons p l ih =>
    obtain ⟨i, w⟩ := p
    unfold assign
    by_cases hi : i = k
    · rw [if_pos hi, find, find, hi]
      split <;> rfl
    · rw [if_neg hi, find, find, ih]
      by_cases hk : k = j
      · rw [if_pos hk, if_pos hk, if_neg (hk ▸ hi)]
      · rw [if_neg hk, if_neg hk]

/-- Reading after an assignment. -/
theorem get?_set (d : Dict κ α) (k : κ) (v : α) (j : κ) :
    (d.set k v).get? j = if k = j then some v else d.get? j :=
  find_assign d.items k v j

/-- Reading the key that was assigned. -/
theorem get?_set_self (d : Dict κ α) (k : κ) (v : α) : (d.set k v).get? k = some v := by
  rw [get?_set, if_pos rfl]

/-- What can be read after an assignment: the new value, or an old one of another key. -/
theorem get?_set_eq_some :
    (d.set k v).get? j = some w ↔ j = k ∧ w = v ∨ j ≠ k ∧ d.get? j = some w := by
  rw [get?_set]
  by_cases h : k = j
  · rw [if_pos h, h]
    simp [eq_comm]
  · rw [if_neg h]
    simp [Ne.symm h]

/-- A new key leaves the values of the others. -/
theorem get?_set_new (hk : d.get? k = none) (hj : d.get? j = some w) :
    (d.set k v).get? j = some w := by
  refine get?_set_eq_some.mpr (Or.inr ⟨?_, hj⟩)
  rintro rfl
  rw [hk] at hj
  cases hj

/-- A key is absent exactly when it is not among the keys. -/
theorem find_eq_none : find l k = none ↔ k ∉ l.map Prod.fst := by
  induction l with
  | nil => simp [find]
  | cons p l ih =>
    obtain ⟨j, w⟩ := p
    unfold find
    by_cases hj : j = k
    · simp [hj]
    · rw [if_neg hj, ih, List.map_cons, List.mem_cons, not_or]
      exact ⟨fun h => ⟨Ne.symm hj, h⟩, fun h => h.2⟩

/-- A key is absent exactly when it is not among the dictionary's keys. -/
theorem get?_eq_none : d.get? k = none ↔ k ∉ d.keys := find_eq_none

/-- With distinct keys a lookup finds exactly the pairs of the list. -/
theorem find_eq_some (hn : (l.map Prod.fst).Nodup) : find l k = some v ↔ (k, v) ∈ l := by
  induction l with
  | nil => simp [find]
  | cons p l ih =>
    obtain ⟨j, w⟩ := p
    rw [List.map_cons, List.nodup_cons] at hn
    unfold find
    by_cases hj : j = k
    · rw [if_pos hj, List.mem_cons]
      constructor
      · intro h
        exact Or.inl (by rw [hj, Option.some.inj h])
      · rintro (h | h)
        · rw [(Prod.mk.inj h).2]
        · exact absurd (List.mem_map_of_mem h) (hj ▸ hn.1)
    · rw [if_neg hj, ih hn.2, List.mem_cons]
      exact ⟨Or.inr, fun h => h.resolve_left fun he => hj (Prod.mk.inj he).1.symm⟩

/-- The items are the keys with their values. -/
theorem get?_eq_some : d.get? k = some v ↔ (k, v) ∈ d.items := find_eq_some d.nodup

/-- A key that is found is one of the keys. -/
theorem mem_keys_of_get? (h : d.get? k = some v) : k ∈ d.keys :=
  List.mem_map_of_mem (get?_eq_some.mp h)

/-- A key of the dictionary is found. -/
theorem get?_of_mem_keys (h : k ∈ d.keys) : ∃ v, d.get? k = some v := by
  cases hv : d.get? k with
  | none => exact absurd h (get?_eq_none.mp hv)
  | some v => exact ⟨v, rfl⟩

/-- Assigning a new key appends it. -/
theorem assign_of_notMem (h : k ∉ l.map Prod.fst) : assign l k v = l ++ [(k, v)] := by
  induction l with
  | nil => rfl
  | cons p l ih =>
    obtain ⟨j, w⟩ := p
    rw [List.map_cons, List.mem_cons, not_or] at h
    rw [assign, if_neg (Ne.symm h.1), ih h.2, List.cons_append]

/-- A new key goes to the end. -/
theorem items_set_new (h : d.get? k = none) : (d.set k v).items = d.items ++ [(k, v)] :=
  assign_of_notMem (get?_eq_none.mp h)

/-- A new key comes last. -/
theorem keys_set_new (h : d.get? k = none) : (d.set k v).keys = d.keys ++ [k] := by
  rw [keys, items_set_new h, List.map_append]
  rfl

/-- A key that is there keeps its place. -/
theorem keys_set_old (h : d.get? k = some u) : (d.set k v).keys = d.keys := by
  have hk : k ∈ d.items.map Prod.fst := mem_keys_of_get? h
  exact (map_fst_assign d.items k v).trans (if_pos hk)

/-- A new key's value comes last. -/
theorem values_set_new (h : d.get? k = none) : (d.set k v).values = d.values ++ [v] := by
  rw [values, items_set_new h, List.map_append]
  rfl

/-- A value is one that some key gives. -/
theorem mem_values : v ∈ d.values ↔ ∃ k, d.get? k = some v := by
  simp only [get?_eq_some]
  constructor
  · intro h
    obtain ⟨p, hp, rfl⟩ := List.mem_map.mp h
    exact ⟨p.1, hp⟩
  · rintro ⟨k, h⟩
    exact List.mem_map_of_mem (f := Prod.snd) h

/-- When the values are distinct, a value has one key. -/
theorem key_unique (hv : d.values.Nodup) (hj : d.get? j = some v) (hk : d.get? k = some v) :
    j = k := by
  have hmem := get?_eq_some.mp hj
  have hmem' := get?_eq_some.mp hk
  have he := List.inj_on_of_nodup_map hv hmem hmem' rfl
  exact (Prod.mk.inj he).1

/-- Assigning to a key in use replaces its one pair. -/
theorem perm_assign (h : find l k = some u) :
    ∃ rest, l.Perm ((k, u) :: rest) ∧ (assign l k v).Perm ((k, v) :: rest) := by
  induction l with
  | nil => cases h
  | cons p l ih =>
    obtain ⟨j, w⟩ := p
    unfold find at h
    unfold assign
    by_cases hj : j = k
    · rw [if_pos hj] at h ⊢
      cases h
      exact ⟨l, by rw [hj], List.Perm.refl _⟩
    · rw [if_neg hj] at h ⊢
      obtain ⟨rest, hl, ha⟩ := ih h
      exact ⟨(j, w) :: rest, (hl.cons _).trans (List.Perm.swap ..),
        (ha.cons _).trans (List.Perm.swap ..)⟩

/-- Assigning to a key that is there changes one item. -/
theorem perm_items_set (h : d.get? k = some u) :
    ∃ rest, d.items.Perm ((k, u) :: rest) ∧ (d.set k v).items.Perm ((k, v) :: rest) :=
  perm_assign h

end Dict

end Sys16.PyDict
