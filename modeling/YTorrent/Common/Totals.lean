import YTorrent.Common.Runs

/-!
# Amortised bounds on runs

What the steps of a run amount to (`total`), and the bound on it by a potential: where a
step that gains adds to the potential at most what it costs, the gains of a run and the
potential at its end are at most its costs and the potential at its start.

* `total_amortised`: the bound, with an invariant; `potential_le`: without gains.
* `total_countP`: costs that only the labels decide are counted in the list of labels.
-/

namespace Runs

variable {σ α : Type*}

/-- The sum of `cost` over the steps of the run `as` from `s`. -/
def total (step : σ → α → Option σ) (cost : σ → α → ℕ) : σ → List α → ℕ
  | _, [] => 0
  | s, a :: as =>
    cost s a + match step s a with
      | none => 0
      | some s' => total step cost s' as

variable {step : σ → α → Option σ} {cost gain : σ → α → ℕ} {s s' : σ} {a : α} {as : List α}

@[simp] theorem total_nil : total step cost s [] = 0 := rfl

theorem total_cons (h : step s a = some s') :
    total step cost s (a :: as) = cost s a + total step cost s' as := by
  rw [total, h]

/-- The gains of a run are paid by its costs and what the potential falls by. -/
theorem total_amortised {I : σ → Prop} (potential : σ → ℕ)
    (hstep : ∀ s a s', step s a = some s' → I s →
      I s' ∧ gain s a + potential s' ≤ cost s a + potential s)
    (h : exec step s as = some s') (hs : I s) :
    total step gain s as + potential s' ≤ total step cost s as + potential s := by
  induction as generalizing s with
  | nil =>
    cases h
    exact Nat.le_refl _
  | cons a as ih =>
    obtain ⟨t, ht, h⟩ := exec_cons.mp h
    obtain ⟨hI, hle⟩ := hstep s a t ht hs
    have hrest := ih h hI
    rw [total_cons ht, total_cons ht]
    omega

/-- What a run costs bounds what the potential rises by. -/
theorem potential_le {I : σ → Prop} (potential : σ → ℕ)
    (hstep : ∀ s a s', step s a = some s' → I s → I s' ∧ potential s' ≤ cost s a + potential s)
    (h : exec step s as = some s') (hs : I s) :
    potential s' ≤ total step cost s as + potential s := by
  have hle : total step (fun _ _ => 0) s as + potential s' ≤
      total step cost s as + potential s := by
    refine total_amortised potential (fun s a s' ha hI => ?_) h hs
    rw [Nat.zero_add]
    exact hstep s a s' ha hI
  exact Nat.le_trans (Nat.le_add_left _ _) hle

/-- The labels that cost 1 are counted. -/
theorem total_countP {P : α → Bool} (hcost : ∀ s a, cost s a = if P a then 1 else 0)
    (h : exec step s as = some s') : total step cost s as = as.countP P := by
  induction as generalizing s with
  | nil => rfl
  | cons a as ih =>
    obtain ⟨t, ht, h⟩ := exec_cons.mp h
    rw [total_cons ht, ih h, hcost, List.countP_cons, Nat.add_comm]

end Runs
