import Mathlib.Data.List.Basic
import Mathlib.Data.List.Infix

/-!
# Length-prefixed frames on a byte stream

A stream is cut into frames by a header of `h` entries from which `len` computes
the length of the body that follows; a body of length 0 is skipped. A consumer
is a state with a test `ready`, whether it asks for another frame, and a
transition `next` for a body. `feed` runs the consumer over a stream, `serve`
over a list of bodies.

* `feed_frames`: feeding the frames of a list of bodies is serving the bodies;
  nothing is left of the stream if the consumer is ready in the end.
* `feed_invariant`: what every body preserves is preserved by feeding a stream.
* `serve_eq`: the bodies served are those up to the first one after which the
  consumer is not ready.
* `Cut.frames`, `Cut.complete`: a reader of headers and bodies in turn (`Cut`) reads the
  bodies whose frames are on the stream, in order, and all of them if it does not stop.
-/

namespace Framing

variable {α σ : Type*}

/-- The consumer on the bodies `bs`: the last state and the bodies it took. -/
def serve (ready : σ → Bool) (next : σ → List α → σ) : σ → List (List α) → σ × List (List α)
  | s, [] => (s, [])
  | s, b :: bs =>
    if ready s then
      let r := serve ready next (next s b) bs
      (r.1, b :: r.2)
    else (s, [])

/-- The consumer on the stream `xs`: the last state, the bodies it took and what
    is left of the stream. `fuel` bounds the number of headers read. -/
def feed (h : ℕ) (len : List α → ℕ) (ready : σ → Bool) (next : σ → List α → σ) :
    ℕ → σ → List α → σ × List (List α) × List α
  | 0, s, xs => (s, [], xs)
  | fuel + 1, s, xs =>
    if !ready s || decide (xs.length < h) then (s, [], xs)
    else
      let n := len (xs.take h)
      let rest := xs.drop h
      if n = 0 then feed h len ready next fuel s rest
      else if rest.length < n then (s, [], xs)
      else
        let r := feed h len ready next fuel (next s (rest.take n)) (rest.drop n)
        (r.1, rest.take n :: r.2.1, r.2.2)

/-- `hd` is a header for the body `b`. -/
structure Header (h : ℕ) (len : List α → ℕ) (hd b : List α) : Prop where
  length : hd.length = h
  len : len hd = b.length

/-! ## Serving -/

section

variable {ready : σ → Bool} {next : σ → List α → σ}

theorem serve_of_not_ready {s : σ} (hs : ready s = false) (bs : List (List α)) :
    serve ready next s bs = (s, []) := by
  cases bs with
  | nil => rfl
  | cons b bs => rw [serve, hs, if_neg (by simp)]

theorem serve_cons {s : σ} (hs : ready s = true) (b : List α) (bs : List (List α)) :
    serve ready next s (b :: bs) =
      ((serve ready next (next s b) bs).1, b :: (serve ready next (next s b) bs).2) := by
  rw [serve, if_pos hs]

/-- The consumer takes the first `k` bodies, where `k` is the first number after
    which it is not ready, or all of them. -/
theorem serve_eq (ready : σ → Bool) (next : σ → List α → σ) (s : σ) (bs : List (List α)) :
    ∃ k ≤ bs.length, serve ready next s bs = ((bs.take k).foldl next s, bs.take k) ∧
      (∀ j < k, ready ((bs.take j).foldl next s) = true) ∧
      (k < bs.length → ready ((bs.take k).foldl next s) = false) := by
  induction bs generalizing s with
  | nil => exact ⟨0, le_rfl, rfl, by simp, by simp⟩
  | cons b bs ih =>
    by_cases hs : ready s = true
    · obtain ⟨k, hk, heq, hready, hstop⟩ := ih (next s b)
      refine ⟨k + 1, Nat.succ_le_succ hk, ?_, fun j hj => ?_, fun hlt => ?_⟩
      · rw [serve_cons hs, heq]
        rfl
      · cases j with
        | zero => exact hs
        | succ j => exact hready j (Nat.lt_of_succ_lt_succ hj)
      · exact hstop (Nat.lt_of_succ_lt_succ hlt)
    · have hs : ready s = false := by simpa using hs
      exact ⟨0, Nat.zero_le _, serve_of_not_ready hs _, by simp, fun _ => hs⟩

end

/-! ## Feeding -/

section

variable {h : ℕ} {len : List α → ℕ} {ready : σ → Bool} {next : σ → List α → σ}

theorem feed_of_not_ready {s : σ} (hs : ready s = false) (fuel : ℕ) (xs : List α) :
    feed h len ready next fuel s xs = (s, [], xs) := by
  cases fuel with
  | zero => rfl
  | succ fuel => rw [feed, hs, if_pos (by simp)]

theorem feed_nil (hh : 0 < h) (fuel : ℕ) (s : σ) :
    feed h len ready next fuel s [] = (s, [], []) := by
  cases fuel with
  | zero => rfl
  | succ fuel => rw [feed, if_pos (by simp [hh])]

/-- One frame in front of the stream. -/
theorem feed_frame {s : σ} (hs : ready s = true) {hd b : List α} (hb : Header h len hd b)
    (fuel : ℕ) (xs : List α) : feed h len ready next (fuel + 1) s (hd ++ b ++ xs) =
      if b = [] then feed h len ready next fuel s xs
      else
        let r := feed h len ready next fuel (next s b) xs
        (r.1, b :: r.2.1, r.2.2) := by
  have htake : (hd ++ b ++ xs).take h = hd := by
    rw [← hb.length, List.append_assoc, List.take_left]
  have hdrop : (hd ++ b ++ xs).drop h = b ++ xs := by
    rw [← hb.length, List.append_assoc, List.drop_left]
  have hlong : ¬ (hd ++ b ++ xs).length < h := by
    rw [List.length_append, List.length_append, hb.length]
    omega
  rw [feed, hs, if_neg (by simpa using hlong)]
  simp only [htake, hdrop, hb.len, List.length_eq_zero_iff]
  by_cases hnil : b = []
  · simp [hnil]
  · have hfits : ¬ (b ++ xs).length < b.length := by
      rw [List.length_append]
      omega
    rw [if_neg hnil, if_neg hnil, if_neg hfits, List.take_left, List.drop_left]

/-- What every body preserves holds after feeding a stream. -/
theorem feed_invariant {I : σ → Prop} (hnext : ∀ s b, ready s = true → I s → I (next s b))
    (fuel : ℕ) {s : σ} (hs : I s) (xs : List α) : I (feed h len ready next fuel s xs).1 := by
  induction fuel generalizing s xs with
  | zero => exact hs
  | succ fuel ih =>
    rw [feed]
    split_ifs with hstop
    · exact hs
    · simp only
      split_ifs
      · exact ih hs _
      · exact hs
      · have hready : ready s = true := by
          simp only [Bool.or_eq_true, not_or] at hstop
          simpa using hstop.1
        exact ih (hnext s _ hready hs) _

/-- The frames of a list of bodies, an empty body being skipped by the receiver. -/
def frames (header : List α → List α) (bs : List (List α)) : List α :=
  bs.flatMap fun b => header b ++ b

variable {header : List α → List α} {bs : List (List α)}

/-- Feeding frames is serving their bodies, and a consumer that is ready in the
    end has used up the stream. -/
theorem feed_frames (ready : σ → Bool) (next : σ → List α → σ) (hh : 0 < h)
    (hbs : ∀ b ∈ bs, Header h len (header b) b) {fuel : ℕ} (hfuel : bs.length ≤ fuel) (s : σ) :
    ∃ rest, feed h len ready next fuel s (frames header bs) =
        ((serve ready next s (bs.filter (· ≠ []))).1,
          (serve ready next s (bs.filter (· ≠ []))).2, rest) ∧
      (ready (serve ready next s (bs.filter (· ≠ []))).1 = true → rest = []) := by
  induction bs generalizing s fuel with
  | nil => exact ⟨[], by rw [frames, List.flatMap_nil, feed_nil hh]; rfl, fun _ => rfl⟩
  | cons b bs ih =>
    by_cases hs : ready s = true
    · obtain ⟨fuel, rfl⟩ : ∃ n, fuel = n + 1 := ⟨fuel - 1, by simp at hfuel; omega⟩
      have hle : bs.length ≤ fuel := by simpa using hfuel
      have ih := ih (fun b' hb' => hbs b' (List.mem_cons_of_mem b hb')) hle
      have hcons : frames header (b :: bs) = header b ++ b ++ frames header bs :=
        List.flatMap_cons ..
      rw [hcons, feed_frame hs (hbs b List.mem_cons_self)]
      by_cases hnil : b = []
      · simpa [hnil] using ih s
      · obtain ⟨rest, heq, hrest⟩ := ih (next s b)
        have hfilter : (b :: bs).filter (· ≠ []) = b :: bs.filter (· ≠ []) := by simp [hnil]
        rw [if_neg hnil, hfilter, serve_cons hs, heq]
        exact ⟨rest, rfl, hrest⟩
    · have hs : ready s = false := by simpa using hs
      rw [feed_of_not_ready hs, serve_of_not_ready hs]
      exact ⟨_, rfl, fun hready => by rw [hs] at hready; cases hready⟩

end

/-! ## Cutting a stream -/

/-- A reader reads a header and then the body it announces, in turn: the bodies read, the
    header of the next one if it has been read, and all the entries of the stream read.
    There is no body to read after a header that announces none. -/
inductive Cut (h : ℕ) (len : List α → ℕ) : List (List α) → Option (List α) → List α → Prop
  | nil : Cut h len [] none []
  | header {bs : List (List α)} {xs : List α} (c : Cut h len bs none xs) (hd : List α)
    (hlen : hd.length = h) (hne : len hd ≠ 0) : Cut h len bs (some hd) (xs ++ hd)
  | skip {bs : List (List α)} {xs : List α} (c : Cut h len bs none xs) (hd : List α)
    (hlen : hd.length = h) (hzero : len hd = 0) : Cut h len bs none (xs ++ hd)
  | body {bs : List (List α)} {xs hd : List α} (c : Cut h len bs (some hd) xs) (b : List α)
    (hlen : b.length = len hd) : Cut h len (bs ++ [b]) none (xs ++ b)

section

variable {h : ℕ} {len : List α → ℕ} {header : List α → List α} {bs ms : List (List α)}
  {o : Option (List α)} {xs hd : List α}

theorem frames_append (header : List α → List α) (bs ms : List (List α)) :
    frames header (bs ++ ms) = frames header bs ++ frames header ms :=
  List.flatMap_append

theorem Cut.length_header (c : Cut h len bs (some hd) xs) : hd.length = h ∧ len hd ≠ 0 := by
  cases c with
  | header _ _ hlen hne => exact ⟨hlen, hne⟩

/-- A header at the beginning of frames is that of the first one. -/
theorem header_of_begins (hh : 0 < h) (hms : ∀ b ∈ ms, Header h len (header b) b)
    (hlen : hd.length = h) (hp : hd <+: frames header ms) :
    ∃ b rest, ms = b :: rest ∧ hd = header b := by
  cases ms with
  | nil =>
    have hnil : hd = [] := List.prefix_nil.mp hp
    rw [hnil, List.length_nil] at hlen
    omega
  | cons b rest =>
    refine ⟨b, rest, rfl, ?_⟩
    have hfirst : header b <+: frames header (b :: rest) := by
      rw [frames, List.flatMap_cons, List.append_assoc]
      exact List.prefix_append _ _
    have hsame : hd.length = (header b).length := by
      rw [hlen, (hms b List.mem_cons_self).length]
    exact (List.prefix_of_prefix_length_le hp hfirst hsame.le).eq_of_length hsame

/-- A reader of frames has read the first bodies, and the header of the next one. -/
theorem Cut.frames (hh : 0 < h) (hms : ∀ b ∈ ms, Header h len (header b) b)
    (hne : ∀ b ∈ ms, b ≠ []) (c : Cut h len bs o xs) (hp : xs <+: Framing.frames header ms) :
    ∃ rest, ms = bs ++ rest ∧ xs = Framing.frames header bs ++ o.getD [] := by
  induction c with
  | nil => exact ⟨ms, rfl, rfl⟩
  | header c hd hlen hnz ih =>
    obtain ⟨rest, hrest, heq⟩ := ih ((List.prefix_append _ _).trans hp)
    exact ⟨rest, hrest, by rw [heq, Option.getD_none, List.append_nil, Option.getD_some]⟩
  | skip c hd hlen hzero ih =>
    -- no frame begins with such a header
    obtain ⟨rest, rfl, rfl⟩ := ih ((List.prefix_append _ _).trans hp)
    rw [Option.getD_none, List.append_nil, frames_append, List.prefix_append_right_inj] at hp
    have hrest : ∀ b ∈ rest, Header h len (header b) b :=
      fun b hb => hms b (List.mem_append_right _ hb)
    obtain ⟨b, rest, rfl, rfl⟩ := header_of_begins hh hrest hlen hp
    rw [(hrest b List.mem_cons_self).len] at hzero
    exact absurd (List.length_eq_zero_iff.mp hzero) (hne b (by simp))
  | body c b hlen ih =>
    rename_i bs xs hd
    obtain ⟨rest, rfl, rfl⟩ := ih ((List.prefix_append _ _).trans hp)
    rw [Option.getD_some, frames_append, List.append_assoc, List.prefix_append_right_inj] at hp
    have hrest : ∀ b ∈ rest, Header h len (header b) b :=
      fun b hb => hms b (List.mem_append_right _ hb)
    obtain ⟨b', rest, rfl, rfl⟩ :=
      header_of_begins hh hrest c.length_header.1 ((List.prefix_append _ _).trans hp)
    have hb : b = b' := by
      rw [Framing.frames, List.flatMap_cons, List.append_assoc, List.prefix_append_right_inj] at hp
      have hsame : b.length = b'.length := by
        rw [hlen, (hrest b' List.mem_cons_self).len]
      exact (List.prefix_of_prefix_length_le hp (List.prefix_append _ _) hsame.le).eq_of_length
        hsame
    refine ⟨rest, by rw [hb, List.append_assoc, List.singleton_append], ?_⟩
    rw [hb, frames_append, Option.getD_some, Option.getD_none, List.append_nil, List.append_assoc]
    simp [Framing.frames]

/-- A reader to which all the frames have come, and who has not got what it waits for,
    has read all the bodies. -/
theorem Cut.complete (hh : 0 < h) (hms : ∀ b ∈ ms, Header h len (header b) b)
    (hne : ∀ b ∈ ms, b ≠ []) (c : Cut h len bs o xs) {ys : List α}
    (hall : xs ++ ys = Framing.frames header ms) (hys : ys.length < (o.map len).getD h) :
    bs = ms ∧ o = none := by
  obtain ⟨rest, rfl, rfl⟩ := c.frames hh hms hne ⟨ys, hall⟩
  rw [frames_append, List.append_assoc] at hall
  have hall := List.append_cancel_left hall
  have hlen := congrArg List.length hall
  cases rest with
  | nil =>
    refine ⟨(List.append_nil _).symm, ?_⟩
    cases o with
    | none => rfl
    | some hd =>
      rw [Option.getD_some, List.length_append, c.length_header.1, Framing.frames,
        List.flatMap_nil, List.length_nil] at hlen
      omega
  | cons b rest =>
    exfalso
    have hb := hms b (by simp)
    rw [Framing.frames, List.flatMap_cons, List.length_append, List.length_append,
      List.length_append, hb.length] at hlen
    cases o with
    | none =>
      rw [Option.map_none, Option.getD_none] at hys
      rw [Option.getD_none, List.length_nil] at hlen
      omega
    | some hd =>
      have hrest : ∀ b' ∈ b :: rest, Header h len (header b') b' :=
        fun b' hb' => hms b' (List.mem_append_right _ hb')
      obtain ⟨b', rest', heq, rfl⟩ :=
        header_of_begins hh hrest c.length_header.1 ⟨ys, hall⟩
      obtain ⟨rfl, rfl⟩ := List.cons.inj heq
      rw [Option.map_some, Option.getD_some, hb.len] at hys
      rw [Option.getD_some, hb.length] at hlen
      omega

end

end Framing
