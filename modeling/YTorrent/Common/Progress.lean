import YTorrent.Common.Runs

/-!
# Runs that count down

A system (`Runs`) whose states carry the number of steps still to be made: every
step that can happen takes one away, and while the number is not 0 some step can
happen (`CountsDown`). Nothing is said of the order of the steps.

* `CountsDown.exec`: a run of `k` steps takes `k` away, so no run is longer than
  the number at its start.
* `CountsDown.finishes`: every run can be continued until nothing is left, and all
  such runs have the same length.
* `CountsDown.stopped`: a run that cannot go on has nothing left.
-/

namespace Runs

variable {σ α : Type*}

/-- `I n s` says that `n` steps are still to be made in `s`. -/
structure CountsDown (step : σ → α → Option σ) (I : ℕ → σ → Prop) : Prop where
  next : ∀ n s a s', step s a = some s' → I n s → ∃ m, n = m + 1 ∧ I m s'
  live : ∀ n s, I (n + 1) s → ∃ a s', step s a = some s'

variable {step : σ → α → Option σ} {I : ℕ → σ → Prop} {n : ℕ} {s s' : σ} {as : List α}

theorem CountsDown.exec (h : CountsDown step I) (hrun : Runs.exec step s as = some s')
    (hs : I n s) : ∃ m, n = as.length + m ∧ I m s' := by
  induction as generalizing n s with
  | nil =>
    cases hrun
    exact ⟨n, by simp, hs⟩
  | cons a as ih =>
    obtain ⟨t, ht, hrun⟩ := exec_cons.mp hrun
    obtain ⟨k, rfl, hk⟩ := h.next n s a t ht hs
    obtain ⟨m, rfl, hm⟩ := ih hrun hk
    exact ⟨m, by rw [List.length_cons]; omega, hm⟩

/-- Steps can be made until none is left. -/
theorem CountsDown.finishes (h : CountsDown step I) (hs : I n s) :
    ∃ as s', Runs.exec step s as = some s' ∧ as.length = n ∧ I 0 s' := by
  induction n generalizing s with
  | zero => exact ⟨[], s, rfl, rfl, hs⟩
  | succ n ih =>
    obtain ⟨a, t, ht⟩ := h.live n s hs
    obtain ⟨m, hm, hI⟩ := h.next (n + 1) s a t ht hs
    obtain rfl := Nat.succ.inj hm
    obtain ⟨as, s', hrun, hlen, hI⟩ := ih hI
    exact ⟨a :: as, s', exec_cons.mpr ⟨t, ht, hrun⟩, by rw [List.length_cons, hlen], hI⟩

/-- Where no step can happen, none is left. -/
theorem CountsDown.stopped (h : CountsDown step I) (hstop : ∀ a, step s a = none) (hs : I n s) :
    n = 0 := by
  cases n with
  | zero => rfl
  | succ n =>
    obtain ⟨a, s', hs'⟩ := h.live n s hs
    rw [hstop a] at hs'
    cases hs'

end Runs
