import YTorrent.Common.Runs

/-!
# Composed writes on one stream

A composed write is a loop of operations that each move a part of its buffer to
the stream. The operations started on a stream wait in a queue: `transfer n`
moves the first `n` entries of what the head has left, and a head that is not
finished goes to the end of the queue.

* `conserved`: if a write is only ever split while no other one waits, the stream
  and the queue together hold the buffers in the order they were written.
* `received_prefix`, `received_all`: then the stream is an initial part of their
  concatenation, and all of it once the queue is empty.
-/

namespace WriteQueue

variable {α : Type*}

/-- What happens on the stream. -/
inductive Op (α : Type*)
  /-- a write of `buffer` is started -/
  | write (buffer : List α)
  /-- an operation of the head of the queue moves `n` entries -/
  | transfer (n : ℕ)
  deriving DecidableEq, Repr

/-- What each unfinished write has left, in the order of the queue, and what the
    other end of the stream has received. -/
structure State (α : Type*) where
  pending : List (List α) := []
  received : List α := []
  deriving DecidableEq, Repr

/-- One event; an operation moves at least one entry of a non-empty buffer. -/
def step (s : State α) : Op α → Option (State α)
  | .write buffer => some { s with pending := s.pending ++ [buffer] }
  | .transfer n =>
    match s.pending with
    | [] => none
    | b :: rest =>
      if n ≤ b.length ∧ (n = 0 → b.length = 0) then
        some
          { pending := if n < b.length then rest ++ [b.drop n] else rest
            received := s.received ++ b.take n }
      else none

/-- The buffers written, in order. -/
def written (ops : List (Op α)) : List (List α) :=
  ops.filterMap fun
    | .write buffer => some buffer
    | .transfer _ => none

@[simp] theorem written_append (ops ops' : List (Op α)) :
    written (ops ++ ops') = written ops ++ written ops' :=
  List.filterMap_append

/-- An operation that does not finish its write does not leave it behind another. -/
def Unsplit (s : State α) : Op α → Prop
  | .write _ => True
  | .transfer n => ∀ b ∈ s.pending.head?, n < b.length → s.pending.tail = []

instance (s : State α) : ∀ op, Decidable (Unsplit s op)
  | .write _ => isTrue trivial
  | .transfer _ => by unfold Unsplit; infer_instance

/-- The entries received and pending, in the order of the queue. -/
def State.content (s : State α) : List α := s.received ++ s.pending.flatten

/-- What one event adds to the content. -/
theorem step_content {s s' : State α} {op : Op α} (hu : Unsplit s op) (h : step s op = some s') :
    s'.content = s.content ++ (written [op]).flatten := by
  cases op with
  | write buffer =>
    obtain rfl := Option.some.inj h
    simp [State.content, written]
  | transfer n =>
    unfold step at h
    cases hp : s.pending with
    | nil => simp [hp] at h
    | cons b rest =>
      simp only [hp] at h
      split_ifs at h with hn hlt
      · -- the write is split, so it is the only one
        obtain rfl := Option.some.inj h
        have hrest : rest = [] := by
          have htail := hu b (by rw [hp]; rfl) hlt
          rwa [hp] at htail
        simp [State.content, written, hp, hrest]
      · obtain rfl := Option.some.inj h
        have hall : b.take n = b := List.take_of_length_le (by omega)
        simp [State.content, written, hp, hall]

/-- In a run that splits no write behind another, nothing changes its place. -/
theorem conserved {s s' : State α} {ops : List (Op α)} (hu : Runs.Guarded step Unsplit s ops)
    (h : Runs.exec step s ops = some s') : s'.content = s.content ++ (written ops).flatten := by
  induction ops generalizing s with
  | nil =>
    obtain rfl := Option.some.inj h
    simp [written]
  | cons op ops ih =>
    obtain ⟨t, ht, h⟩ := Runs.exec_cons.mp h
    have hcons : written (op :: ops) = written [op] ++ written ops := written_append [op] ops
    rw [ih (hu.2 t ht) h, step_content hu.1 ht, hcons, List.flatten_append, List.append_assoc]

/-- What has been received stays received. -/
theorem received_step {s s' : State α} {op : Op α} (h : step s op = some s') :
    s.received <+: s'.received := by
  cases op with
  | write buffer =>
    obtain rfl := Option.some.inj h
    exact List.prefix_rfl
  | transfer n =>
    unfold step at h
    cases hp : s.pending with
    | nil => simp [hp] at h
    | cons b rest =>
      simp only [hp] at h
      split_ifs at h <;> obtain rfl := Option.some.inj h <;> exact List.prefix_append _ _

variable {ops : List (Op α)} {s : State α}

/-- From an empty stream: the content is the concatenation of the buffers. -/
theorem content_eq (hu : Runs.Guarded step Unsplit {} ops) (h : Runs.exec step {} ops = some s) :
    s.received ++ s.pending.flatten = (written ops).flatten := by
  have hc := conserved hu h
  simpa [State.content] using hc

theorem received_prefix (hu : Runs.Guarded step Unsplit {} ops)
    (h : Runs.exec step {} ops = some s) : s.received <+: (written ops).flatten :=
  ⟨s.pending.flatten, content_eq hu h⟩

theorem received_all (hu : Runs.Guarded step Unsplit {} ops) (h : Runs.exec step {} ops = some s)
    (hp : s.pending = []) : s.received = (written ops).flatten := by
  have hc := content_eq hu h
  rwa [hp, List.flatten_nil, List.append_nil] at hc

end WriteQueue
