import Mathlib.Data.List.Infix

/-!
# Reading a segmented stream up to a delimiter

A stream arrives in segments. `readUntil delim` appends segments to a buffer
until the delimiter is in it; what was buffered beyond the delimiter depends on
how the stream is cut.

* `readUntil_ends`: the read takes the shortest run of segments that covers the
  first occurrence of the delimiter, whatever the segments are.
* `Ends.append`, `Ends.cons_line`: where the first occurrence of a delimiter
  lies in a text made of lines.
-/

namespace Segments

variable {α : Type*}

/-! ## The end of the first occurrence -/

/-- `head` ends with the first occurrence of `delim` in it. -/
structure Ends (delim head : List α) : Prop where
  suffix : delim <:+ head
  first : ∀ a, a ++ delim <+: head → a ++ delim = head

variable {delim head body l x y a : List α} {z : α}

/-- The part of a stream that is buffered contains the delimiter as soon as it covers `head`. -/
theorem Ends.infix_iff (h : Ends delim head) {p : List α} (hp : p <+: head ++ body) :
    delim <:+: p ↔ head.length ≤ p.length := by
  constructor
  · rintro ⟨a, b, rfl⟩
    by_contra hlt
    have hlen : (a ++ delim).length ≤ head.length := by
      simp only [List.length_append] at hlt ⊢
      omega
    have hpre : a ++ delim <+: head := by
      apply List.prefix_of_prefix_length_le _ (List.prefix_append head body) hlen
      exact (List.prefix_append _ b).trans hp
    have heq := congrArg List.length (h.first a hpre)
    simp only [List.length_append] at hlt heq
    omega
  · intro hle
    have hpre : head <+: p := List.prefix_of_prefix_length_le (List.prefix_append head body) hp hle
    exact h.suffix.isInfix.trans hpre.isInfix

/-- An occurrence that starts with `z` does not start in a text without `z`. -/
theorem prefix_skip (hz : z ∉ l) (h : a ++ z :: x <+: l ++ y) :
    ∃ a', a = l ++ a' ∧ a' ++ z :: x <+: y := by
  induction l generalizing a with
  | nil => exact ⟨a, rfl, h⟩
  | cons c l ih =>
    rw [List.mem_cons, not_or] at hz
    obtain ⟨hc, hl⟩ := hz
    cases a with
    | nil =>
      obtain ⟨heq, -⟩ := List.cons_prefix_cons.mp h
      exact absurd heq hc
    | cons d a =>
      obtain ⟨rfl, htail⟩ := List.cons_prefix_cons.mp h
      obtain ⟨a', rfl, h'⟩ := ih hl htail
      exact ⟨a', rfl, h'⟩

/-- A text without the first element of the delimiter, and the delimiter. -/
theorem Ends.append (hz : z ∉ l) : Ends (z :: x) (l ++ z :: x) where
  suffix := List.suffix_append l _
  first a ha := by
    obtain ⟨a', rfl, h⟩ := prefix_skip hz ha
    have hlen := h.length_le
    simp only [List.length_append, List.length_cons] at hlen
    have hnil : a' = [] := List.eq_nil_of_length_eq_zero (by omega)
    simp [hnil]

/-- One more line in front: the delimiter is a doubled line end, and the rest does
    not start with a line end. -/
theorem Ends.cons_line {w : α} (hzw : z ≠ w) (hz : z ∉ l) (h : Ends [z, w, z, w] head)
    (hhead : ¬ [z, w] <+: head) : Ends [z, w, z, w] (l ++ z :: w :: head) where
  suffix := by
    apply h.suffix.trans
    apply (List.suffix_append [z, w] head).trans
    exact List.suffix_append l _
  first a ha := by
    obtain ⟨a', rfl, h'⟩ := prefix_skip hz ha
    match a' with
    | [] =>
      -- the occurrence would start at the line end
      simp only [List.nil_append, List.cons_prefix_cons, true_and] at h'
      exact absurd h' hhead
    | [b] =>
      simp only [List.cons_append, List.nil_append, List.cons_prefix_cons] at h'
      exact absurd h'.2.1 hzw
    | b :: c :: a' =>
      simp only [List.cons_append, List.cons_prefix_cons] at h'
      obtain ⟨rfl, rfl, h'⟩ := h'
      have heq := h.first a' h'
      simp [← heq]

/-! ## Reading -/

variable [DecidableEq α]

/-- The buffer and the remaining segments when the delimiter is in the buffer; `none`
    when the segments end before. -/
def readUntil (delim : List α) : List α → List (List α) → Option (List α × List (List α))
  | buffer, [] => if delim <:+: buffer then some (buffer, []) else none
  | buffer, seg :: segs =>
    if delim <:+: buffer then some (buffer, seg :: segs)
    else readUntil delim (buffer ++ seg) segs

/-- The read of a stream that starts with `head` takes as many segments as cover it,
    and no segment more. -/
theorem readUntil_ends (h : Ends delim head) {buffer : List α} {segs : List (List α)}
    (heq : buffer ++ segs.flatten = head ++ body) :
    ∃ pre rest, segs = pre ++ rest ∧
      readUntil delim buffer segs = some (buffer ++ pre.flatten, rest) ∧
      head.length ≤ (buffer ++ pre.flatten).length ∧
      (pre ≠ [] → (buffer ++ pre.dropLast.flatten).length < head.length) := by
  induction segs generalizing buffer with
  | nil =>
    rw [List.flatten_nil, List.append_nil] at heq
    have hlen : head.length ≤ buffer.length := by simp [heq]
    have hin : delim <:+: buffer := by
      rw [heq, h.infix_iff (List.prefix_refl _)]
      simp
    refine ⟨[], [], rfl, ?_, by simpa using hlen, fun hne => absurd rfl hne⟩
    simp [readUntil, hin]
  | cons seg segs ih =>
    have hpre : buffer <+: head ++ body := ⟨(seg :: segs).flatten, heq⟩
    by_cases hin : delim <:+: buffer
    · have hlen := (h.infix_iff hpre).mp hin
      refine ⟨[], seg :: segs, rfl, ?_, by simpa using hlen, fun hne => absurd rfl hne⟩
      simp [readUntil, hin]
    · obtain ⟨pre, rest, hsegs, hread, hlen, hmin⟩ := @ih (buffer ++ seg) (by simpa using heq)
      refine ⟨seg :: pre, rest, by rw [hsegs, List.cons_append], ?_, by simpa using hlen,
        fun _ => ?_⟩
      · rw [readUntil, if_neg hin, hread]
        simp
      · cases pre with
        | nil =>
          have hlt := fun hle => hin ((h.infix_iff hpre).mpr hle)
          simpa using hlt
        | cons s pre => simpa using hmin (List.cons_ne_nil s pre)

end Segments
