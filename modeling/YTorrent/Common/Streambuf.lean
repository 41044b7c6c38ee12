import Mathlib.Data.List.Basic

/-!
# Stream buffers

A stream buffer has an input sequence, from the front of which a reader drops what it has
used, and an output sequence of a given size, into which somebody else writes. Committing
moves the front of the output sequence behind the input sequence.

* `Documented`: what the operations do to the two sequences.
* `data_commit_full`: committing the whole output sequence.
* `fifo_documented`: two lists are such a buffer.
-/

/-- The operations of a stream buffer with the states `B` on the entries `α`. -/
structure Streambuf (B α : Type*) where
  empty : B
  /-- the input sequence -/
  data : B → List α
  /-- the output sequence -/
  space : B → List α
  prepare : B → ℕ → B
  /-- entries are written to the output sequence from the position given on -/
  store : B → ℕ → List α → B
  commit : B → ℕ → B
  consume : B → ℕ → B

namespace Streambuf

variable {B α : Type*}

/-- The operations do what they are documented to do. -/
structure Documented (sb : Streambuf B α) : Prop where
  data_empty : sb.data sb.empty = []
  data_prepare : ∀ b n, sb.data (sb.prepare b n) = sb.data b
  length_space_prepare : ∀ b n, (sb.space (sb.prepare b n)).length = n
  data_store : ∀ b i l, sb.data (sb.store b i l) = sb.data b
  space_store : ∀ b i l, i + l.length ≤ (sb.space b).length →
    sb.space (sb.store b i l) = (sb.space b).take i ++ (l ++ (sb.space b).drop (i + l.length))
  data_commit : ∀ b n, n ≤ (sb.space b).length →
    sb.data (sb.commit b n) = sb.data b ++ (sb.space b).take n
  data_consume : ∀ b n, sb.data (sb.consume b n) = (sb.data b).drop n
  space_consume : ∀ b n, sb.space (sb.consume b n) = sb.space b

namespace Documented

variable {sb : Streambuf B α} (h : sb.Documented) {b : B} {i : ℕ} {l : List α}

include h

theorem length_space_store (hi : i + l.length ≤ (sb.space b).length) :
    (sb.space (sb.store b i l)).length = (sb.space b).length := by
  rw [h.space_store b i l hi, List.length_append, List.length_append, List.length_take,
    List.length_drop]
  omega

/-- What has been written to the output sequence is the old front and the new entries. -/
theorem take_space_store (hi : i + l.length ≤ (sb.space b).length) :
    (sb.space (sb.store b i l)).take (i + l.length) = (sb.space b).take i ++ l := by
  have hlen : ((sb.space b).take i ++ l).length = i + l.length := by
    rw [List.length_append, List.length_take]
    omega
  rw [h.space_store b i l hi, ← List.append_assoc, ← hlen]
  exact List.take_left

theorem data_commit_full (hdata : sb.data b = []) :
    sb.data (sb.commit b (sb.space b).length) = sb.space b := by
  rw [h.data_commit b _ (Nat.le_refl _), hdata, List.nil_append, List.take_length]

/-- Consuming the whole input sequence. -/
theorem data_consume_full : sb.data (sb.consume b (sb.data b).length) = [] := by
  rw [h.data_consume, List.drop_length]

end Documented

/-- The two sequences as lists; `prepare` makes an output sequence of zeros. -/
def fifo [Zero α] : Streambuf (List α × List α) α where
  empty := ([], [])
  data := Prod.fst
  space := Prod.snd
  prepare b n := (b.1, List.replicate n 0)
  store b i l := (b.1, b.2.take i ++ (l ++ b.2.drop (i + l.length)))
  commit b n := (b.1 ++ b.2.take n, b.2.drop n)
  consume b n := (b.1.drop n, b.2)

theorem fifo_documented [Zero α] : (fifo : Streambuf (List α × List α) α).Documented where
  data_empty := rfl
  data_prepare _ _ := rfl
  length_space_prepare _ _ := List.length_replicate
  data_store _ _ _ := rfl
  space_store _ _ _ _ := rfl
  data_commit _ _ _ := rfl
  data_consume _ _ := rfl
  space_consume _ _ := rfl

end Streambuf
