import Mathlib.Data.Int.Notation
import Mathlib.Tactic.SplitIfs
import YTorrent.Common.Runs

/-!
# The acceptor

Model of `Acceptor` (`src/net/acceptor.cpp`) and of the test in `Torrent::seed` that
restarts its loop (torrent.cpp lines 227–237). Of asio: an `async_accept` is pending
until its handler is called. `cancel` ends those that are pending, and throws when the
acceptor is closed; the handler of one that had completed by then is still called
without an error. An `async_accept` on a closed acceptor fails at once.

* `accepting_iff`: through a run `isStarted` tells whether an accept is pending exactly
  when none of its steps breaks the loop (`Breaks`).
* `accepting_fails`: an accept that fails.
-/

namespace YTorrent

/-- `Acceptor`: the flag, whether `tcpAcceptor` is open, the number of accepts pending on
    it, and of those it has cancelled whose handler is still to be called. -/
structure Acceptor where
  started : Bool := false
  isOpen : Bool := true
  pending : ℕ := 0
  cancelled : ℕ := 0
  deriving DecidableEq, Repr

/-- A call of a function of the acceptor, or of the handler of an `async_accept` with the
    value of its error code: 0 when there is no error. -/
inductive AcceptorLabel
  /-- `initiateAsyncAcceptLoop` -/
  | initiate
  /-- `stop` -/
  | stop
  /-- the test `if (!acceptor->isStarted())` of `Torrent::seed`, and the call below it -/
  | seed
  /-- the handler of a pending accept -/
  | accepted (error : ℤ)
  /-- the handler of an accept that has been cancelled -/
  | cancelled (error : ℤ)
  deriving DecidableEq, Repr

namespace Acceptor

/-- `isStarted` (lines 27–30). -/
def isStarted (a : Acceptor) : Bool := a.started

/-- `initiateAsyncAcceptLoop` (lines 32–45). The handler of an accept on a closed acceptor
    is called with an error, and does nothing. -/
def initiateAsyncAcceptLoop (a : Acceptor) : Acceptor :=
  { a with started := true, pending := if a.isOpen then a.pending + 1 else a.pending }

/-- `stop` (lines 20–25); `cancel` throws when the acceptor is closed. -/
def stop (a : Acceptor) : Acceptor :=
  if a.isOpen then
    { started := false, isOpen := false, pending := 0, cancelled := a.cancelled + a.pending }
  else a

/-- The handler of `async_accept` (lines 37–44). -/
def handleAccept (a : Acceptor) (error : ℤ) : Acceptor :=
  if error = 0 then a.initiateAsyncAcceptLoop else a

/-- One call, if it can happen. -/
def step (a : Acceptor) : AcceptorLabel → Option Acceptor
  | .initiate => some a.initiateAsyncAcceptLoop
  | .stop => some a.stop
  | .seed => some (if !a.isStarted then a.initiateAsyncAcceptLoop else a)
  | .accepted error =>
    if a.pending = 0 then none
    else some ({ a with pending := a.pending - 1 }.handleAccept error)
  | .cancelled error =>
    if a.cancelled = 0 then none
    else some ({ a with cancelled := a.cancelled - 1 }.handleAccept error)

/-- The loop is started exactly when one accept is pending. -/
def Accepting (a : Acceptor) : Prop := a.isStarted = true ↔ a.pending = 1

/-- The steps that break the loop: it is started again or on a closed acceptor, a pending
    accept fails, or one that was cancelled had succeeded. -/
def Breaks (a : Acceptor) : AcceptorLabel → Prop
  | .initiate => a.isStarted = true ∨ a.isOpen = false
  | .stop => False
  | .seed => a.isStarted = false ∧ a.isOpen = false
  | .accepted error => error ≠ 0
  | .cancelled error => error = 0

instance (a : Acceptor) : Decidable a.Accepting := by
  unfold Accepting; infer_instance

instance (a : Acceptor) : ∀ l, Decidable (a.Breaks l)
  | .initiate | .seed | .accepted _ | .cancelled _ => by unfold Breaks; infer_instance
  | .stop => isFalse id

/-- Nothing is pending before the loop is started or after the acceptor is closed, and
    nothing has been cancelled while it is open. -/
structure Consistent (a : Acceptor) : Prop where
  stopped : a.isStarted = false → a.pending = 0
  closed : a.isOpen = false → a.pending = 0
  cancelled : a.isOpen = true → a.cancelled = 0

variable {a a' : Acceptor} {l : AcceptorLabel} {error : ℤ}

/-! ## One step -/

/-- The loop is started again, for an acceptor without a pending accept. -/
theorem accepting_initiate (h : a.pending = 0) :
    a.initiateAsyncAcceptLoop.Accepting ↔ a.isOpen = true := by
  cases hopen : a.isOpen with
  | true => simp [Accepting, initiateAsyncAcceptLoop, isStarted, hopen, h]
  | false => simp [Accepting, initiateAsyncAcceptLoop, isStarted, hopen, h]

theorem Consistent.initiate (h : a.Consistent) : a.initiateAsyncAcceptLoop.Consistent where
  stopped := nofun
  closed hopen := by
    have hopen : a.isOpen = false := hopen
    simp [initiateAsyncAcceptLoop, hopen, h.closed hopen]
  cancelled := h.cancelled

theorem Consistent.handleAccept (h : a.Consistent) (error : ℤ) :
    (a.handleAccept error).Consistent := by
  unfold Acceptor.handleAccept
  split
  · exact h.initiate
  · exact h

theorem Consistent.step (h : a.Consistent) (hs : step a l = some a') : a'.Consistent := by
  cases l with
  | initiate =>
    obtain rfl := Option.some.inj hs
    exact h.initiate
  | stop =>
    obtain rfl := Option.some.inj hs
    unfold Acceptor.stop
    split
    · exact ⟨fun _ => rfl, fun _ => rfl, fun hopen => absurd hopen Bool.false_ne_true⟩
    · exact h
  | seed =>
    obtain rfl := Option.some.inj hs
    split
    · exact h.initiate
    · exact h
  | accepted error =>
    simp only [Acceptor.step] at hs
    split_ifs at hs with hnone
    obtain rfl := Option.some.inj hs
    refine Consistent.handleAccept (a := { a with pending := a.pending - 1 })
      ⟨fun hno => ?_, fun hclosed => ?_, h.cancelled⟩ error
    · exact absurd (h.stopped hno) hnone
    · exact absurd (h.closed hclosed) hnone
  | cancelled error =>
    simp only [Acceptor.step] at hs
    split_ifs at hs with hnone
    obtain rfl := Option.some.inj hs
    refine Consistent.handleAccept (a := { a with cancelled := a.cancelled - 1 })
      ⟨h.stopped, h.closed, fun hopen => ?_⟩ error
    exact absurd (h.cancelled hopen) hnone

/-- A step keeps the flag right exactly when it does not break the loop. -/
theorem Accepting.step (hc : a.Consistent) (h : a.Accepting) (hs : Acceptor.step a l = some a') :
    a'.Accepting ↔ ¬ a.Breaks l := by
  cases l with
  | initiate =>
    obtain rfl := Option.some.inj hs
    cases hstarted : a.isStarted with
    | false =>
      rw [accepting_initiate (hc.stopped hstarted)]
      simp [Breaks, hstarted]
    | true =>
      -- a second accept, next to the one that is pending
      have hone : a.pending = 1 := h.mp hstarted
      have hopen : a.isOpen = true := by
        by_contra hclosed
        have hzero := hc.closed (by simpa using hclosed)
        omega
      have hstarted : a.started = true := hstarted
      simp [Accepting, Breaks, initiateAsyncAcceptLoop, isStarted, hopen, hone, hstarted]
  | stop =>
    obtain rfl := Option.some.inj hs
    refine iff_of_true ?_ id
    unfold Acceptor.stop
    split
    · simp [Accepting, isStarted]
    · exact h
  | seed =>
    obtain rfl := Option.some.inj hs
    cases hstarted : a.isStarted with
    | false =>
      simp only [Bool.not_false, if_true]
      rw [accepting_initiate (hc.stopped hstarted)]
      simp [Breaks, hstarted]
    | true => exact iff_of_true h fun hb => absurd hb.1 (by simp [hstarted])
  | accepted error =>
    simp only [Acceptor.step] at hs
    split_ifs at hs with hnone
    obtain rfl := Option.some.inj hs
    have hstarted : a.isStarted = true := by
      by_contra hno
      exact hnone (hc.stopped (by simpa using hno))
    have hone : a.pending = 1 := h.mp hstarted
    have hopen : a.isOpen = true := by
      by_contra hclosed
      exact hnone (hc.closed (by simpa using hclosed))
    unfold handleAccept
    by_cases herror : error = 0
    · rw [if_pos herror, accepting_initiate (by rw [hone])]
      simp [Breaks, hopen, herror]
    · -- the chain ends, and the flag stays
      have hstarted : a.started = true := hstarted
      rw [if_neg herror]
      simp [Accepting, Breaks, isStarted, hstarted, hone, herror]
  | cancelled error =>
    simp only [Acceptor.step] at hs
    split_ifs at hs with hnone
    obtain rfl := Option.some.inj hs
    have hclosed : a.isOpen = false := by
      by_contra hopen
      exact hnone (hc.cancelled (by simpa using hopen))
    unfold handleAccept
    by_cases herror : error = 0
    · have hnone := accepting_initiate (a := { a with cancelled := a.cancelled - 1 })
        (hc.closed hclosed)
      rw [if_pos herror, hnone]
      simp [Breaks, hclosed, herror]
    · rw [if_neg herror]
      exact iff_of_true h herror

/-! ## Runs -/

/-- After the test of `seed` the loop is started. -/
theorem seed_isStarted (hs : Acceptor.step a .seed = some a') : a'.isStarted = true := by
  obtain rfl := Option.some.inj hs
  cases hstarted : a.isStarted with
  | false => rfl
  | true => exact hstarted

/-- In every run of an acceptor the loop is started exactly when one accept is pending, in
    all states, exactly when none of its steps breaks the loop. In such a state behind
    the test of `seed` an accept is pending. -/
theorem accepting_iff {ls : List AcceptorLabel} (h : Runs.exec Acceptor.step {} ls = some a) :
    (Runs.Throughout Acceptor.step Accepting {} ls ↔
      Runs.Guarded Acceptor.step (fun a l => ¬ a.Breaks l) {} ls) ∧
    ∀ b b', Acceptor.step b .seed = some b' → b'.Accepting → b'.pending = 1 := by
  constructor
  · refine Runs.throughout_iff (I := Consistent) ?_ ?_ h ?_ ?_
    · intro b l b' hs hb
      exact hb.step hs
    · intro b b' l _ hs hb hacc
      exact hacc.step hb hs
    · exact ⟨fun _ => rfl, fun _ => rfl, fun _ => rfl⟩
    · exact ⟨nofun, nofun⟩
  · intro b b' hs hacc
    exact hacc.mp (seed_isStarted hs)

/-- A download accepts two connections, is followed by seeding, and a third connection
    is accepted. -/
def downloadRun : List AcceptorLabel :=
  [.initiate, .accepted 0, .accepted 0, .seed, .accepted 0]

/-- An accept is pending from the start of the loop on. -/
theorem accepting_downloadRun : Runs.Throughout Acceptor.step Accepting {} downloadRun :=
  have hrun : Runs.exec Acceptor.step {} downloadRun = some ⟨true, true, 1, 0⟩ := rfl
  (accepting_iff hrun).1.mpr (by decide)

/-! ## An accept that fails -/

/-- Accepting a connection fails with `EMFILE` while the file is downloaded. -/
def failedRun : List AcceptorLabel := [.initiate, .accepted 24, .seed]

/-- The loop has ended, and `seed` does not start it again. -/
theorem accepting_fails : ¬ ∀ (a : Acceptor) (ls : List AcceptorLabel),
    Runs.exec Acceptor.step {} ls = some a → a.Accepting := by
  intro hall
  have hacc := hall ⟨true, true, 0, 0⟩ failedRun rfl
  revert hacc
  decide

end Acceptor

end YTorrent
