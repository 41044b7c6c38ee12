import YTorrent.Common.Runs
import YTorrent.Common.Streambuf
import YTorrent.Net.Transcoder

/-!
# `Connection::read`

The receiving half of a `Connection` (`src/net/connection.cpp` lines 75–103): reads are
issued with a callback, the socket fills the buffer of the one that is pending, and its
handler commits the bytes, calls `readCB` and consumes them. The callback may issue the next
read, whose buffer is then prepared before the bytes of the first one are consumed.

The `asio::streambuf` is a `Streambuf`, and `async_read` ends without error when its buffer
is full. `readCB` holds a callback `κ`.

* `Receiver.Inv`: what the buffers hold, in and between the handlers.
* `Receiver.Inv.exact`: the callbacks are called with the bytes of the stream, as many as
  they asked for.
-/

namespace YTorrent

/-- An `async_read` that is pending: the size of its buffer and the bytes transferred. -/
structure AsyncRead where
  size : ℕ
  transferred : ℕ := 0
  deriving DecidableEq, Repr

/-- A read handler that has called its callback: its `readSize` and the calls of
    `Connection::read` in the callback. -/
structure Activation where
  readSize : ℕ
  reads : ℕ := 0
  deriving DecidableEq, Repr

/-- `Connection::read` is called in the callback. -/
def Activation.read (a : Activation) : Activation := { a with reads := a.reads + 1 }

/-- The receiving half of a `Connection`. The last three fields are not part of the
    program's memory: the reads issued, the bytes the socket has delivered, and the
    callbacks called with the bytes passed to each. -/
structure Receiver (B κ : Type*) where
  isOpen : Bool := true
  inputStream : B
  readCB : Option κ := none
  pending : List AsyncRead := []
  handler : Option Activation := none
  requests : List (κ × ℕ) := []
  received : List Byte := []
  calls : List (κ × List Byte) := []

namespace Receiver

variable {B κ : Type*} (sb : Streambuf B Byte)

/-- The connection before its first read. -/
def start : Receiver B κ where
  inputStream := sb.empty

/-- `Connection::read` (lines 75–85). -/
def read (r : Receiver B κ) (rc : κ) (bytes : ℕ) : Receiver B κ :=
  let r := { r with handler := r.handler.map Activation.read }
  if !r.isOpen then r
  else
    { r with
      readCB := some rc
      inputStream := sb.prepare r.inputStream bytes
      pending := r.pending ++ [{ size := bytes }]
      requests := r.requests ++ [(rc, bytes)] }

/-- The socket is closed. -/
def close (r : Receiver B κ) : Receiver B κ := { r with isOpen := false }

/-- The bytes that the read handler passes to the callback (line 97). -/
def data (r : Receiver B κ) (readSize : ℕ) : List Byte := (sb.data r.inputStream).take readSize

/-- The read handler of `op` up to the end of the callback (lines 87–99), without what the
    callback does. -/
def callBack (r : Receiver B κ) (op : AsyncRead) (ops : List AsyncRead) : Receiver B κ :=
  let r := { r with pending := ops, inputStream := sb.commit r.inputStream op.transferred }
  { r with
    handler := some { readSize := op.transferred }
    calls := r.calls ++ (r.readCB.map fun rc => (rc, r.data sb op.transferred)).toList }

/-- The end of the read handler (line 101). -/
def consume (r : Receiver B κ) (a : Activation) : Receiver B κ :=
  { r with handler := none, inputStream := sb.consume r.inputStream a.readSize }

/-- The read handler of `op` with an error (lines 87–93, 121–136). -/
def fail (r : Receiver B κ) (op : AsyncRead) (ops : List AsyncRead) (aborted : Bool) :
    Receiver B κ :=
  let r := { r with pending := ops, inputStream := sb.commit r.inputStream op.transferred }
  if aborted then r else r.close

/-- What happens next: `Connection::read` is called, the socket delivers bytes, a read ends
    without error, its handler returns, a read ends with an error, or the socket is closed. -/
inductive Label (κ : Type*)
  | read (rc : κ) (bytes : ℕ)
  | arrive (bytes : List Byte)
  | complete
  | handled
  | fail (aborted : Bool)
  | close
  deriving DecidableEq, Repr

/-- A callback calls `Connection::read` once at most. Outside of the callbacks it is called
    when no read is pending. The error of a socket that is still open is not
    `operation_aborted`. -/
def step (r : Receiver B κ) : Label κ → Option (Receiver B κ)
  | .read rc bytes =>
    match r.handler with
    | some a => if a.reads = 0 then some (r.read sb rc bytes) else none
    | none => if r.pending = [] then some (r.read sb rc bytes) else none
  | .arrive bytes =>
    match r.pending with
    | op :: ops =>
      if op.transferred + bytes.length ≤ op.size then
        some { r with
          inputStream := sb.store r.inputStream op.transferred bytes
          pending := { op with transferred := op.transferred + bytes.length } :: ops
          received := r.received ++ bytes }
      else none
    | [] => none
  | .complete =>
    match r.handler, r.pending with
    | none, op :: ops => if op.transferred = op.size then some (r.callBack sb op ops) else none
    | _, _ => none
  | .handled => r.handler.map (r.consume sb)
  | .fail aborted =>
    match r.handler, r.pending with
    | none, op :: ops => if aborted && r.isOpen then none else some (r.fail sb op ops aborted)
    | _, _ => none
  | .close => some r.close

theorem read_of_closed {r : Receiver B κ} (h : r.isOpen = false) (rc : κ) (bytes : ℕ) :
    r.read sb rc bytes = { r with handler := r.handler.map Activation.read } := by
  unfold read
  simp only [h, Bool.not_false, if_true]

theorem read_of_open {r : Receiver B κ} (h : r.isOpen = true) (rc : κ) (bytes : ℕ) :
    r.read sb rc bytes =
      { r with
        handler := r.handler.map Activation.read
        readCB := some rc
        inputStream := sb.prepare r.inputStream bytes
        pending := r.pending ++ [{ size := bytes }]
        requests := r.requests ++ [(rc, bytes)] } := by
  unfold read
  simp only [h, Bool.not_true, Bool.false_eq_true, if_false]

@[simp] theorem read_handler (r : Receiver B κ) (rc : κ) (bytes : ℕ) :
    (r.read sb rc bytes).handler = r.handler.map Activation.read := by
  cases hopen : r.isOpen with
  | false => rw [read_of_closed sb hopen]
  | true => rw [read_of_open sb hopen]

@[simp] theorem read_isOpen (r : Receiver B κ) (rc : κ) (bytes : ℕ) :
    (r.read sb rc bytes).isOpen = r.isOpen := by
  cases hopen : r.isOpen with
  | false => rw [read_of_closed sb hopen, hopen]
  | true => rw [read_of_open sb hopen, hopen]

/-! ## The steps of a read -/

variable {sb}

theorem step_arrive {r r' : Receiver B κ} {bytes : List Byte}
    (hs : r.step sb (.arrive bytes) = some r') : ∃ op ops, r.pending = op :: ops ∧
      op.transferred + bytes.length ≤ op.size ∧ r' =
        { r with
          inputStream := sb.store r.inputStream op.transferred bytes
          pending := { op with transferred := op.transferred + bytes.length } :: ops
          received := r.received ++ bytes } := by
  rw [step] at hs
  split at hs
  · rename_i op ops hp
    split_ifs at hs with hroom
    exact ⟨op, ops, hp, hroom, (Option.some.inj hs).symm⟩
  · cases hs

theorem step_complete {r r' : Receiver B κ} (hs : r.step sb .complete = some r') :
    ∃ op ops, r.pending = op :: ops ∧ r.handler = none ∧ op.transferred = op.size ∧
      r' = r.callBack sb op ops := by
  rw [step] at hs
  split at hs
  · rename_i op ops hhandler hp
    split_ifs at hs with hfull
    exact ⟨op, ops, hp, hhandler, hfull, (Option.some.inj hs).symm⟩
  · cases hs

theorem step_fail {r r' : Receiver B κ} {aborted : Bool}
    (hs : r.step sb (.fail aborted) = some r') : ∃ op ops, r.pending = op :: ops ∧
      r.handler = none ∧ (aborted = true → r.isOpen = false) ∧ r' = r.fail sb op ops aborted := by
  rw [step] at hs
  split at hs
  · rename_i op ops hhandler hp
    split_ifs at hs with hopen
    refine ⟨op, ops, hp, hhandler, fun haborted => ?_, (Option.some.inj hs).symm⟩
    rw [haborted, Bool.true_and] at hopen
    exact Bool.eq_false_of_not_eq_true hopen
  · cases hs

/-! ## The stream and the callbacks -/

/-- The callbacks called, with the number of bytes passed to each. -/
def called (r : Receiver B κ) : List (κ × ℕ) := r.calls.map fun c => (c.1, c.2.length)

/-- The bytes passed to the callbacks. -/
def passed (r : Receiver B κ) : List Byte := r.calls.flatMap (·.2)

/-- The callbacks called are those of the first reads, each with the number of bytes
    requested, and the bytes passed to them are the beginning of the stream; on an open
    connection nothing is left over when no read is pending. -/
structure Exact (r : Receiver B κ) : Prop where
  called : r.called <+: r.requests
  inOrder : r.passed <+: r.received
  whole : r.isOpen = true → r.pending = [] → r.called = r.requests ∧ r.passed = r.received

/-! ## The invariant -/

/-- The input sequence is empty between the handlers, and holds what the handler has still
    to consume in one; before the nested read none is pending. -/
def Front (sb : Streambuf B Byte) (r : Receiver B κ) : Prop :=
  match r.handler with
  | none => sb.data r.inputStream = []
  | some a => (sb.data r.inputStream).length = a.readSize ∧ (a.reads = 0 → r.pending = [])

/-- No read is pending, one is, or one has failed. -/
inductive Inv (sb : Streambuf B Byte) (r : Receiver B κ) : Prop
  | idle (hpending : r.pending = []) (hfront : r.Front sb) (hcalled : r.called = r.requests)
    (hpassed : r.passed = r.received)
  | waiting (op : AsyncRead) (rc : κ) (hpending : r.pending = [op]) (hfront : r.Front sb)
    (hcb : r.readCB = some rc) (hle : op.transferred ≤ op.size)
    (hspace : (sb.space r.inputStream).length = op.size)
    (hcalled : r.called ++ [(rc, op.size)] = r.requests)
    (hpassed : r.passed ++ (sb.space r.inputStream).take op.transferred = r.received)
  | broken (hpending : r.pending = []) (hclosed : r.isOpen = false) (hhandler : r.handler = none)
    (hcalled : r.called <+: r.requests) (hpassed : r.passed <+: r.received)

variable {r r' : Receiver B κ}

theorem Inv.exact (h : r.Inv sb) : r.Exact := by
  cases h with
  | idle _ _ hcalled hpassed =>
    exact ⟨hcalled.symm ▸ List.prefix_rfl, hpassed.symm ▸ List.prefix_rfl,
      fun _ _ => ⟨hcalled, hpassed⟩⟩
  | waiting op rc hpending _ _ _ _ hcalled hpassed =>
    refine ⟨⟨_, hcalled⟩, ⟨_, hpassed⟩, fun _ hnil => ?_⟩
    rw [hpending] at hnil
    exact absurd hnil (List.cons_ne_nil op [])
  | broken _ hclosed _ hcalled hpassed =>
    refine ⟨hcalled, hpassed, fun hopen => ?_⟩
    rw [hclosed] at hopen
    exact absurd hopen Bool.false_ne_true

/-- A callback is passed as many bytes as the read handler has committed. -/
theorem Inv.length_data {a : Activation} (h : r.Inv sb) (hhandler : r.handler = some a) :
    (r.data sb a.readSize).length = a.readSize := by
  have hlen : r.Front sb → (sb.data r.inputStream).length = a.readSize := by
    intro hfront
    unfold Front at hfront
    rw [hhandler] at hfront
    exact hfront.1
  rw [data, List.length_take]
  cases h with
  | idle _ hfront | waiting _ _ _ hfront => rw [hlen hfront, Nat.min_self]
  | broken _ _ hnone => exact absurd (hnone.symm.trans hhandler) (Option.some_ne_none a).symm

/-- A read leaves the input sequence alone. -/
theorem Front.read (h : r.Front sb) (hhandler : r'.handler = r.handler.map Activation.read)
    (hdata : sb.data r'.inputStream = sb.data r.inputStream) : r'.Front sb := by
  unfold Front at h ⊢
  rw [hhandler, hdata]
  cases hr : r.handler with
  | none =>
    rw [hr] at h
    exact h
  | some a =>
    rw [hr] at h
    exact ⟨h.1, fun hzero => absurd hzero (Nat.succ_ne_zero a.reads)⟩

theorem Inv.close (h : r.Inv sb) : r.close.Inv sb := by
  cases h with
  | idle hpending hfront hcalled hpassed => exact .idle hpending hfront hcalled hpassed
  | waiting op rc hpending hfront hcb hle hspace hcalled hpassed =>
    exact .waiting op rc hpending hfront hcb hle hspace hcalled hpassed
  | broken hpending _ hhandler hcalled hpassed =>
    exact .broken hpending rfl hhandler hcalled hpassed

/-- After an error the connection is closed. -/
theorem Inv.fail {op : AsyncRead} {ops : List AsyncRead} {aborted : Bool} (h : r.Inv sb)
    (hp : r.pending = op :: ops) (hhandler : r.handler = none)
    (hopen : aborted = true → r.isOpen = false) : (r.fail sb op ops aborted).Inv sb := by
  cases h with
  | idle hpending | broken hpending =>
    exact absurd (hp.symm.trans hpending) (List.cons_ne_nil op ops)
  | waiting op' rc hpending hfront hcb hle hspace hcalled hpassed =>
    obtain ⟨rfl, rfl⟩ := List.cons.inj (hp.symm.trans hpending)
    cases aborted with
    | false => exact .broken rfl rfl hhandler ⟨_, hcalled⟩ ⟨_, hpassed⟩
    | true => exact .broken rfl (hopen rfl) hhandler ⟨_, hcalled⟩ ⟨_, hpassed⟩

/-- In a callback that has not read yet no read is pending. -/
theorem Inv.pending_nil {a : Activation} (h : r.Inv sb) (hhandler : r.handler = some a)
    (hzero : a.reads = 0) : r.pending = [] := by
  cases h with
  | idle hpending | broken hpending => exact hpending
  | waiting op rc hpending hfront =>
    unfold Front at hfront
    rw [hhandler] at hfront
    exact hfront.2 hzero

section

variable (hsb : sb.Documented)

include hsb

theorem inv_start : (start sb : Receiver B κ).Inv sb :=
  .idle rfl hsb.data_empty rfl rfl

/-- A read is issued when none is pending: by the callback or between the handlers. -/
theorem Inv.read (h : r.Inv sb) (hnone : r.pending = []) (rc : κ) (bytes : ℕ) :
    (r.read sb rc bytes).Inv sb := by
  cases hopen : r.isOpen with
  | false =>
    rw [read_of_closed sb hopen]
    cases h with
    | idle hpending hfront hcalled hpassed =>
      exact .idle hpending (hfront.read rfl rfl) hcalled hpassed
    | waiting op _ hpending => exact absurd (hpending.symm.trans hnone) (List.cons_ne_nil op [])
    | broken hpending hclosed hhandler hcalled hpassed =>
      refine .broken hpending hclosed ?_ hcalled hpassed
      rw [hhandler, Option.map_none]
  | true =>
    rw [read_of_open sb hopen]
    cases h with
    | idle hpending hfront hcalled hpassed =>
      refine .waiting { size := bytes } rc ?_ (hfront.read rfl (hsb.data_prepare _ _)) rfl
        (Nat.zero_le bytes) (hsb.length_space_prepare _ _) (congrArg (· ++ _) hcalled) ?_
      · rw [hpending, List.nil_append]
      · show r.passed ++ List.take 0 _ = r.received
        rw [List.take_zero, List.append_nil, hpassed]
    | waiting op _ hpending => exact absurd (hpending.symm.trans hnone) (List.cons_ne_nil op [])
    | broken _ hclosed => exact absurd (hopen.symm.trans hclosed) (by decide)

/-- Bytes arrive in the output sequence, behind those that have arrived. -/
theorem Inv.arrive {op : AsyncRead} {ops : List AsyncRead} (h : r.Inv sb)
    (hp : r.pending = op :: ops) {bytes : List Byte}
    (hroom : op.transferred + bytes.length ≤ op.size) :
    ({ r with
      inputStream := sb.store r.inputStream op.transferred bytes
      pending := { op with transferred := op.transferred + bytes.length } :: ops
      received := r.received ++ bytes } : Receiver B κ).Inv sb := by
  cases h with
  | idle hpending | broken hpending =>
    exact absurd (hp.symm.trans hpending) (List.cons_ne_nil op ops)
  | waiting op' rc hpending hfront hcb hle hspace hcalled hpassed =>
    obtain ⟨rfl, rfl⟩ := List.cons.inj (hp.symm.trans hpending)
    have hfit : op.transferred + bytes.length ≤ (sb.space r.inputStream).length := by omega
    refine .waiting _ rc rfl ?_ hcb hroom ((hsb.length_space_store hfit).trans hspace) hcalled ?_
    · unfold Front at hfront ⊢
      rw [hsb.data_store]
      cases hhandler : r.handler with
      | none =>
        rw [hhandler] at hfront
        exact hfront
      | some a =>
        -- the read that is pending has been issued by the callback
        rw [hhandler, hp] at hfront
        exact ⟨hfront.1, fun hzero => absurd (hfront.2 hzero) (List.cons_ne_nil op [])⟩
    · show r.passed ++ _ = r.received ++ bytes
      rw [hsb.take_space_store hfit, ← List.append_assoc, hpassed]

/-- The bytes are passed to the callback. -/
theorem Inv.callBack {op : AsyncRead} {ops : List AsyncRead} (h : r.Inv sb)
    (hp : r.pending = op :: ops) (hhandler : r.handler = none) (hfull : op.transferred = op.size) :
    (r.callBack sb op ops).Inv sb := by
  cases h with
  | idle hpending | broken hpending =>
    exact absurd (hp.symm.trans hpending) (List.cons_ne_nil op ops)
  | waiting op' rc hpending hfront hcb hle hspace hcalled hpassed =>
    obtain ⟨rfl, rfl⟩ := List.cons.inj (hp.symm.trans hpending)
    have hsize : op.transferred = (sb.space r.inputStream).length := hfull.trans hspace.symm
    have hdata : sb.data (sb.commit r.inputStream op.transferred) = sb.space r.inputStream := by
      unfold Front at hfront
      rw [hhandler] at hfront
      rw [hsize, hsb.data_commit_full hfront]
    have hcalls : (r.callBack sb op []).calls = r.calls ++ [(rc, sb.space r.inputStream)] := by
      show r.calls ++ (r.readCB.map _).toList = _
      rw [hcb]
      show _ ++ [(rc, (sb.data (sb.commit r.inputStream op.transferred)).take op.transferred)] = _
      rw [hdata, hsize, List.take_length]
    refine .idle rfl ?_ ?_ ?_
    · show (sb.data (sb.commit r.inputStream op.transferred)).length = op.transferred ∧ _
      rw [hdata, hsize]
      exact ⟨rfl, fun _ => rfl⟩
    · show (r.callBack sb op []).calls.map _ = r.requests
      rw [hcalls, List.map_append, ← hcalled, ← hspace]
      rfl
    · show (r.callBack sb op []).calls.flatMap _ = r.received
      rw [hcalls, List.flatMap_append, ← hpassed, hsize, List.take_length, List.flatMap_singleton]
      rfl

/-- The handler consumes what it has passed to the callback, also when the next read has
    prepared the buffer in between. -/
theorem Inv.consume {a : Activation} (h : r.Inv sb) (hhandler : r.handler = some a) :
    (r.consume sb a).Inv sb := by
  have hdata : r.Front sb → sb.data (sb.consume r.inputStream a.readSize) = [] := by
    intro hfront
    unfold Front at hfront
    rw [hhandler] at hfront
    rw [← hfront.1, hsb.data_consume_full]
  cases h with
  | idle hpending hfront hcalled hpassed =>
    exact .idle hpending (hdata hfront) hcalled hpassed
  | waiting op rc hpending hfront hcb hle hspace hcalled hpassed =>
    refine .waiting op rc hpending (hdata hfront) hcb hle ?_ hcalled ?_
    · show (sb.space (sb.consume r.inputStream a.readSize)).length = op.size
      rw [hsb.space_consume, hspace]
    · show r.passed ++ (sb.space (sb.consume r.inputStream a.readSize)).take _ = r.received
      rw [hsb.space_consume, hpassed]
  | broken _ _ hnone => exact absurd (hnone.symm.trans hhandler) (Option.some_ne_none a).symm

/-- Whatever happens next. -/
theorem Inv.step {l : Label κ} (h : r.Inv sb) (hs : r.step sb l = some r') : r'.Inv sb := by
  cases l with
  | read rc bytes =>
    rw [Receiver.step] at hs
    split at hs
    · rename_i a hhandler
      split_ifs at hs with hzero
      obtain rfl := Option.some.inj hs
      exact h.read hsb (h.pending_nil hhandler hzero) rc bytes
    · split_ifs at hs with hnone
      obtain rfl := Option.some.inj hs
      exact h.read hsb hnone rc bytes
  | arrive bytes =>
    obtain ⟨op, ops, hp, hroom, rfl⟩ := step_arrive hs
    exact h.arrive hsb hp hroom
  | complete =>
    obtain ⟨op, ops, hp, hhandler, hfull, rfl⟩ := step_complete hs
    exact h.callBack hsb hp hhandler hfull
  | handled =>
    obtain ⟨a, hhandler, rfl⟩ := Option.map_eq_some_iff.mp hs
    exact h.consume hsb hhandler
  | fail aborted =>
    obtain ⟨op, ops, hp, hhandler, hclosed, rfl⟩ := step_fail hs
    exact h.fail hp hhandler hclosed
  | close =>
    obtain rfl := Option.some.inj hs
    exact h.close

/-- In every run of a connection the callbacks are called with the bytes of the stream. -/
theorem exact_of_reaches (h : Runs.Reaches (Receiver.step sb) (start sb) r) : r.Exact :=
  (h.invariant (fun _ _ _ hs hr => hr.step hsb hs) (inv_start hsb)).exact

end

end Receiver

end YTorrent
