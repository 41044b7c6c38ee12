import Mathlib.Data.List.Basic
import Mathlib.Data.List.TakeDrop
import Mathlib.Tactic.Ring

/-!
# Slices, overwrites and chunks of a list

A random-access file is a list. `slice l pos len` is what a read of `len`
entries at `pos` returns, `overwrite fill l pos d` what is left after writing
`d` at `pos` (a gap before `pos` is filled with `fill`), and `chunk l n i` is
the `i`-th of the consecutive pieces of length `n` (the last one shorter).

* `slice_overwrite_self`: a read gives back what was written.
* `slice_overwrite_before`, `slice_overwrite_after`, `slice_overwrite_of_disjoint`:
  a write leaves the ranges it does not touch alone.
* `chunk_disjoint`: different chunks have disjoint ranges.
* `take_eq_of_chunks`: a file that holds every chunk of `l` at its place
  begins with `l`.
-/

namespace Slice

variable {α : Type*}

/-- The `len` entries of `l` from position `pos` on (fewer at the end of `l`). -/
def slice (l : List α) (pos len : ℕ) : List α := (l.drop pos).take len

/-- `l` after writing `d` at position `pos`; writing nothing changes nothing. -/
def overwrite (fill : α) (l : List α) (pos : ℕ) (d : List α) : List α :=
  if d = [] then l
  else l.take pos ++ List.replicate (pos - l.length) fill ++ d ++ l.drop (pos + d.length)

/-- The `i`-th of the pieces of length `n` that `l` is cut into. -/
def chunk (l : List α) (n i : ℕ) : List α := slice l (i * n) n

theorem length_slice (l : List α) (pos len : ℕ) :
    (slice l pos len).length = min len (l.length - pos) := by
  simp [slice]

theorem length_slice_of_le {l : List α} {pos len : ℕ} (h : pos + len ≤ l.length) :
    (slice l pos len).length = len := by
  rw [length_slice]; omega

theorem getElem?_slice (l : List α) (pos len i : ℕ) :
    (slice l pos len)[i]? = if i < len then l[pos + i]? else none := by
  simp [slice, List.getElem?_take, List.getElem?_drop]

/-- Two adjacent slices make one. -/
theorem slice_append (l : List α) (pos m n : ℕ) :
    slice l pos m ++ slice l (pos + m) n = slice l pos (m + n) := by
  unfold slice
  rw [List.take_add, List.drop_drop]

/-- The blocks of length `n` of a stretch of length `s`, put together. -/
theorem flatMap_slice (l : List α) (pos s n m : ℕ) :
    (List.range m).flatMap (fun k => slice l (pos + k * n) (min n (s - k * n))) =
      slice l pos (min s (m * n)) := by
  induction m with
  | zero => simp [slice]
  | succ m ih =>
    rw [List.range_succ, List.flatMap_append, ih, List.flatMap_singleton, Nat.succ_mul]
    by_cases h : m * n ≤ s
    · have hadd : m * n + min n (s - m * n) = min s (m * n + n) := by omega
      rw [Nat.min_eq_right h, slice_append, hadd]
    · have hzero : min n (s - m * n) = 0 := by omega
      have hmin : min s (m * n) = min s (m * n + n) := by omega
      rw [hzero, hmin]
      simp [slice]

/-- A slice can be asked for with the length it has. -/
theorem slice_length_slice (l : List α) (pos n : ℕ) :
    slice l pos (slice l pos n).length = slice l pos n := by
  rw [length_slice, slice, slice, List.take_eq_take_iff, List.length_drop]
  omega

/-- Lists with the same slice have the same slices inside it. -/
theorem slice_inside {l l' : List α} {pos len at' n : ℕ} (h : slice l pos len = slice l' pos len)
    (hle : at' + n ≤ len) : slice l (pos + at') n = slice l' (pos + at') n := by
  apply List.ext_getElem?
  intro i
  have hi := congrArg (fun s => s[at' + i]?) h
  simp only [getElem?_slice] at hi ⊢
  by_cases hlt : i < n
  · rw [if_pos (by omega), if_pos (by omega), ← Nat.add_assoc] at hi
    rw [if_pos hlt, if_pos hlt, hi]
  · rw [if_neg hlt, if_neg hlt]

/-! ## Overwriting -/

theorem getElem?_overwrite {fill : α} {l d : List α} {pos : ℕ} (hd : d ≠ []) (i : ℕ) :
    (overwrite fill l pos d)[i]? =
      if i < pos then (if i < l.length then l[i]? else some fill)
      else if i < pos + d.length then d[i - pos]? else l[i]? := by
  rw [overwrite, if_neg hd, List.append_assoc, List.append_assoc, List.getElem?_append,
    List.getElem?_append, List.getElem?_append]
  simp only [List.length_take, List.length_replicate, List.getElem?_take, List.getElem?_drop,
    List.getElem?_replicate]
  by_cases h1 : i < pos
  · by_cases h2 : i < l.length
    · simp [h1, h2, show i < min pos l.length by omega]
    · simp [h1, h2, show ¬ i < min pos l.length by omega,
        show i - min pos l.length < pos - l.length by omega]
  · have hm : ¬ i < min pos l.length := by omega
    have hr : ¬ i - min pos l.length < pos - l.length := by omega
    have he : i - min pos l.length - (pos - l.length) = i - pos := by omega
    simp only [if_neg h1, if_neg hm, if_neg hr, he]
    by_cases h3 : i < pos + d.length
    · rw [if_pos h3, if_pos (by omega)]
    · rw [if_neg h3, if_neg (by omega)]
      congr 1
      omega

/-- A read of the range just written gives back the data. -/
theorem slice_overwrite_self (fill : α) (l d : List α) (pos : ℕ) :
    slice (overwrite fill l pos d) pos d.length = d := by
  by_cases hd : d = []
  · simp [hd, slice]
  apply List.ext_getElem?
  intro i
  rw [getElem?_slice, getElem?_overwrite hd]
  by_cases hi : i < d.length
  · rw [if_pos hi, if_neg (by omega), if_pos (by omega), Nat.add_sub_cancel_left]
  · rw [if_neg hi, List.getElem?_eq_none (by omega)]

/-- A write at `pos` leaves a range of the file that ends before `pos` alone. -/
theorem slice_overwrite_before {fill : α} {l d : List α} {pos at' len : ℕ}
    (hl : at' + len ≤ l.length) (h : at' + len ≤ pos) :
    slice (overwrite fill l pos d) at' len = slice l at' len := by
  by_cases hd : d = []
  · simp [hd, overwrite]
  apply List.ext_getElem?
  intro i
  rw [getElem?_slice, getElem?_slice]
  by_cases hi : i < len
  · rw [if_pos hi, if_pos hi, getElem?_overwrite hd, if_pos (by omega), if_pos (by omega)]
  · rw [if_neg hi, if_neg hi]

/-- A write leaves everything after the range it writes alone. -/
theorem slice_overwrite_after {fill : α} {l d : List α} {pos at' len : ℕ}
    (h : pos + d.length ≤ at') :
    slice (overwrite fill l pos d) at' len = slice l at' len := by
  by_cases hd : d = []
  · simp [hd, overwrite]
  apply List.ext_getElem?
  intro i
  rw [getElem?_slice, getElem?_slice]
  by_cases hi : i < len
  · rw [if_pos hi, if_pos hi, getElem?_overwrite hd, if_neg (by omega), if_neg (by omega)]
  · rw [if_neg hi, if_neg hi]

/-- A write next to a stretch of known data leaves it there. -/
theorem slice_overwrite_of_disjoint {fill : α} {l d c : List α} {pos at' : ℕ}
    (hc : slice l at' c.length = c) (h : at' + c.length ≤ pos ∨ pos + d.length ≤ at') :
    slice (overwrite fill l pos d) at' c.length = c := by
  rcases h with h | h
  · by_cases h0 : c = []
    · simp [h0, slice]
    · have hpos : 0 < c.length := List.length_pos_iff.mpr h0
      have hlen := congrArg List.length hc
      rw [length_slice] at hlen
      rw [slice_overwrite_before (by omega) h, hc]
  · rw [slice_overwrite_after h, hc]

/-! ## Chunks -/

theorem length_chunk (l : List α) (n i : ℕ) : (chunk l n i).length = min n (l.length - i * n) :=
  length_slice l (i * n) n

theorem length_chunk_le (l : List α) (n i : ℕ) : (chunk l n i).length ≤ n := by
  rw [length_chunk]; omega

/-- The range of a chunk ends before every later chunk begins. -/
theorem chunk_disjoint (l : List α) {n i j : ℕ} (h : i < j) :
    i * n + (chunk l n i).length ≤ j * n := by
  have h1 := length_chunk_le l n i
  have h2 : (i + 1) * n ≤ j * n := Nat.mul_le_mul_right n h
  rw [Nat.succ_mul] at h2
  omega

/-- A list that holds each of the first `k` chunks of `l` at its place agrees
    with `l` up to there. -/
theorem take_eq_of_chunks {f l : List α} {n k : ℕ} (hn : 0 < n) (hk : l.length ≤ k * n)
    (h : ∀ i < k, slice f (i * n) (chunk l n i).length = chunk l n i) : f.take l.length = l := by
  apply List.ext_getElem?
  intro j
  by_cases hj : j < l.length
  · -- position `j` lies in chunk `j / n`, at offset `j % n`
    have hdiv : j / n < k := (Nat.div_lt_iff_lt_mul hn).mpr (by omega)
    have hdm : j / n * n + j % n = j := by rw [Nat.mul_comm]; exact Nat.div_add_mod j n
    have hmod := Nat.mod_lt j hn
    have hc := congrArg (fun l => l[j % n]?) (h _ hdiv)
    have hlen := length_chunk l n (j / n)
    simp only [getElem?_slice] at hc
    rw [if_pos (by omega), hdm, chunk, getElem?_slice, if_pos hmod, hdm] at hc
    rw [List.getElem?_take_of_lt hj, hc]
  · rw [List.getElem?_eq_none (by simp; omega), List.getElem?_eq_none (by omega)]

end Slice
