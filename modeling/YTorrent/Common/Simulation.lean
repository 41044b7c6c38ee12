import YTorrent.Common.Runs

/-!
# Simulation

Two systems (`Runs`) whose steps put something out. `Shows t vis t'` says that the
second can go from `t` to `t'` in any number of steps, which put out `vis`. A relation
is a simulation (`Simulates`) when it holds again after every step of the first system
and some steps of the second that put out what is seen of that step.

* `Simulates.traces`: then what is seen of a run of the first system is put out by a
  run of the second.
* `exec_view`: a part of the state that a function of the steps of one kind keeps up with
  is, after a run, what this function makes of the steps of that kind alone.
-/

namespace Runs

variable {σ τ α α' β γ ν : Type*}

/-- Some run from `t` to `t'` puts out `vis`. -/
def Shows (step : τ → α' → Option τ) (out : τ → α' → τ → List γ) (t : τ) (vis : List γ) (t' : τ) :
    Prop :=
  ∃ as, exec step t as = some t' ∧ history step out t as = vis

section

variable {step : τ → α' → Option τ} {out : τ → α' → τ → List γ} {t u v : τ} {vis vis' : List γ}

theorem Shows.refl (t : τ) : Shows step out t [] t := ⟨[], rfl, rfl⟩

theorem Shows.single {a : α'} (h : step t a = some u) : Shows step out t (out t a u) u := by
  refine ⟨[a], exec_cons.mpr ⟨u, h, rfl⟩, ?_⟩
  simp only [history, h, List.append_nil]

theorem Shows.trans (h : Shows step out t vis u) (h' : Shows step out u vis' v) :
    Shows step out t (vis ++ vis') v := by
  obtain ⟨as, ha, rfl⟩ := h
  obtain ⟨bs, hb, rfl⟩ := h'
  exact ⟨as ++ bs, exec_append.mpr ⟨u, ha, hb⟩, history_append bs ha⟩

end

/-- Every step that meets `G` is matched by steps of the second system, which put out
    what `see` shows of it. -/
def Simulates (step : σ → α → Option σ) (out : σ → α → σ → List β) (step' : τ → α' → Option τ)
    (out' : τ → α' → τ → List γ) (see : β → Option γ) (G : σ → α → Prop) (R : σ → τ → Prop) :
    Prop :=
  ∀ s a s' t, G s a → step s a = some s' → R s t →
    ∃ t', Shows step' out' t ((out s a s').filterMap see) t' ∧ R s' t'

/-- What is seen of a run is put out by a run of the second system. -/
theorem Simulates.traces {step : σ → α → Option σ} {out : σ → α → σ → List β}
    {step' : τ → α' → Option τ} {out' : τ → α' → τ → List γ} {see : β → Option γ}
    {G : σ → α → Prop} {R : σ → τ → Prop} (h : Simulates step out step' out' see G R)
    {s s' : σ} {t : τ} {as : List α} (hg : Guarded step G s as) (hexec : exec step s as = some s')
    (hR : R s t) :
    ∃ t', Shows step' out' t ((history step out s as).filterMap see) t' ∧ R s' t' := by
  induction as generalizing s t with
  | nil =>
    cases hexec
    exact ⟨t, .refl t, hR⟩
  | cons a as ih =>
    obtain ⟨u, hu, hexec⟩ := exec_cons.mp hexec
    obtain ⟨t', ht', hR'⟩ := h s a u t hg.1 hu hR
    obtain ⟨t'', ht'', hR''⟩ := ih (hg.2 u hu) hexec hR'
    refine ⟨t'', ?_, hR''⟩
    rw [history, hu, List.filterMap_append]
    exact ht'.trans ht''

/-- A view of the state that only the steps with an image under `own` change, by `next`,
    does not depend on the steps between them. -/
theorem exec_view {step : σ → α → Option σ} {I : σ → Prop} (view : σ → ν) (own : α → Option β)
    {next : ν → β → ν}
    (hstep : ∀ s a s', step s a = some s' → I s →
      I s' ∧ view s' = (own a).elim (view s) (next (view s)))
    {s s' : σ} {as : List α} (h : exec step s as = some s') (hs : I s) :
    view s' = (as.filterMap own).foldl next (view s) := by
  induction as generalizing s with
  | nil =>
    cases h
    rfl
  | cons a as ih =>
    obtain ⟨t, ht, h⟩ := exec_cons.mp h
    obtain ⟨hI, hview⟩ := hstep s a t ht hs
    rw [ih h hI, hview, List.filterMap_cons]
    cases own a with
    | none => rfl
    | some b => rfl

end Runs
