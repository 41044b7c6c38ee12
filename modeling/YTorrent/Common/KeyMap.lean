import Mathlib.Order.Lattice

/-!
# Maps as lists in the order of their keys

A map is the list of its entries with strictly increasing keys, as an ordered map
iterates over them. `ofEntries` assigns the entries of a list one after the other.

* `sorted_ofEntries`: the keys of the result increase strictly.
* `get?_ofEntries`: under a key is the last value the list has for it.
* `ofEntries_of_sorted`: a list in the order of its keys is its own map.
-/

namespace KeyMap

variable {κ α : Type*} [LinearOrder κ]

/-- The keys increase strictly. -/
def Sorted (m : List (κ × α)) : Prop := m.Pairwise fun e e' => e.1 < e'.1

/-- `m[k] = a`. -/
def assign (k : κ) (a : α) : List (κ × α) → List (κ × α)
  | [] => [(k, a)]
  | (k', a') :: m =>
    if k < k' then (k, a) :: (k', a') :: m
    else if k = k' then (k, a) :: m
    else (k', a') :: assign k a m

/-- The map with the entries of a list. -/
def ofEntries (l : List (κ × α)) : List (κ × α) := l.foldl (fun m e => assign e.1 e.2 m) []

/-- What the map has under the key. -/
def get? (m : List (κ × α)) (k : κ) : Option α := (m.find? (·.1 = k)).map (·.2)

/-- The value of the last entry with the key. -/
def last? (k : κ) : List (κ × α) → Option α
  | [] => none
  | e :: l => (last? k l).or (if e.1 = k then some e.2 else none)

variable {k j : κ} {a : α} {e : κ × α} {m l : List (κ × α)}

/-! ## One assignment -/

theorem mem_assign (h : e ∈ assign k a m) : e = (k, a) ∨ e ∈ m := by
  induction m with
  | nil => exact .inl (List.mem_singleton.mp h)
  | cons head m ih =>
    obtain ⟨k', a'⟩ := head
    rw [assign] at h
    split at h
    · exact List.mem_cons.mp h
    · split at h
      · exact (List.mem_cons.mp h).imp_right (List.mem_cons_of_mem _)
      · rcases List.mem_cons.mp h with rfl | h
        · exact .inr List.mem_cons_self
        · exact (ih h).imp_right (List.mem_cons_of_mem _)

theorem Sorted.assign (h : Sorted m) : Sorted (assign k a m) := by
  induction m with
  | nil => exact List.pairwise_singleton _ _
  | cons head m ih =>
    obtain ⟨k', a'⟩ := head
    obtain ⟨hhead, htail⟩ := List.pairwise_cons.mp h
    rw [KeyMap.assign]
    split
    · rename_i hlt
      refine List.pairwise_cons.mpr ⟨fun e he => ?_, h⟩
      rcases List.mem_cons.mp he with rfl | he
      · exact hlt
      · exact hlt.trans (hhead e he)
    · rename_i hnlt
      split
      · rename_i heq
        subst heq
        exact List.pairwise_cons.mpr ⟨hhead, htail⟩
      · rename_i hne
        refine List.pairwise_cons.mpr ⟨fun e he => ?_, ih htail⟩
        rcases mem_assign he with rfl | he
        · exact lt_of_le_of_ne (not_lt.mp hnlt) (Ne.symm hne)
        · exact hhead e he

theorem get?_cons : get? (e :: m) j = if e.1 = j then some e.2 else get? m j := by
  unfold get?
  by_cases h : e.1 = j
  · rw [List.find?_cons_of_pos (by simpa using h), if_pos h, Option.map_some]
  · rw [List.find?_cons_of_neg (by simpa using h), if_neg h]

/-- The key has the value assigned, every other key what it had. -/
theorem get?_assign : get? (assign k a m) j = if k = j then some a else get? m j := by
  induction m with
  | nil => exact get?_cons
  | cons head m ih =>
    obtain ⟨k', a'⟩ := head
    rw [assign]
    split
    · exact get?_cons
    · split
      · rename_i heq
        subst heq
        rw [get?_cons, get?_cons]
        split <;> rfl
      · rename_i hne
        rw [get?_cons, get?_cons, ih]
        by_cases hk : k' = j
        · rw [if_pos hk, if_neg fun hkj => hne (hkj.trans hk.symm), if_pos hk]
        · rw [if_neg hk, if_neg hk]

/-- A key above all others is put at the end. -/
theorem assign_of_lt (h : ∀ e ∈ m, e.1 < k) : assign k a m = m ++ [(k, a)] := by
  induction m with
  | nil => rfl
  | cons head m ih =>
    obtain ⟨k', a'⟩ := head
    have hlt : k' < k := h _ List.mem_cons_self
    rw [assign, if_neg hlt.not_gt, if_neg hlt.ne',
      ih fun e he => h e (List.mem_cons_of_mem _ he), List.cons_append]

/-! ## A list of entries -/

theorem Sorted.foldl (h : Sorted m) : Sorted (l.foldl (fun m e => KeyMap.assign e.1 e.2 m) m) := by
  induction l generalizing m with
  | nil => exact h
  | cons e l ih => exact ih h.assign

theorem sorted_ofEntries : Sorted (ofEntries l) := Sorted.foldl List.Pairwise.nil

theorem mem_foldl (h : e ∈ l.foldl (fun m e => assign e.1 e.2 m) m) : e ∈ m ∨ e ∈ l := by
  induction l generalizing m with
  | nil => exact .inl h
  | cons head l ih =>
    rcases ih h with h | h
    · rcases mem_assign h with rfl | h
      · exact .inr List.mem_cons_self
      · exact .inl h
    · exact .inr (List.mem_cons_of_mem _ h)

theorem mem_ofEntries (h : e ∈ ofEntries l) : e ∈ l :=
  (mem_foldl h).resolve_left List.not_mem_nil

theorem get?_foldl :
    get? (l.foldl (fun m e => assign e.1 e.2 m) m) j = (last? j l).or (get? m j) := by
  induction l generalizing m with
  | nil => rfl
  | cons e l ih =>
    rw [List.foldl_cons, ih, get?_assign, last?, Option.or_assoc]
    split <;> rfl

/-- Under a key is the last value the list has for it. -/
theorem get?_ofEntries : get? (ofEntries l) j = last? j l := get?_foldl.trans Option.or_none

theorem foldl_of_sorted (h : Sorted (m ++ l)) :
    l.foldl (fun m e => assign e.1 e.2 m) m = m ++ l := by
  induction l generalizing m with
  | nil => exact (List.append_nil m).symm
  | cons e l ih =>
    have hlt : ∀ e' ∈ m, e'.1 < e.1 := by
      intro e' he'
      exact (List.pairwise_append.mp h).2.2 e' he' e List.mem_cons_self
    rw [List.append_cons] at h ⊢
    rw [List.foldl_cons, assign_of_lt hlt, ih h]

/-- A list in the order of its keys is its own map. -/
theorem ofEntries_of_sorted (h : Sorted l) : ofEntries l = l := foldl_of_sorted h

end KeyMap
