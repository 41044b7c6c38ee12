import Mathlib.Data.List.Basic
import Mathlib.Logic.Relation

/-!
# Runs of a partial step function

A system is a step function `step : σ → α → Option σ`: the label `a : α` names
the event and everything the environment decides in it, and `none` means that
the event cannot happen in the state. The module defines runs, reachability
runs whose steps all meet a condition on the state before the step (`Guarded`)
and the record of what the steps of a run put out (`history`), with their
induction rules:

* `exec_invariant`, `Reaches.invariant`: what every step preserves holds in
  every state reached.
* `Guarded.invariant`: what every step that meets the condition preserves
  holds in every state reached by a run whose steps all meet it.
* `throughout_iff`: where the steps of a run keep a property exactly when they
  meet the condition, every state of the run has the property exactly when all
  its steps meet the condition.
* `Guarded.decidable`: whether a given run meets a decidable condition can be
  computed.
* `history_invariant`: what every step preserves of the state and of all that
  has been put out before holds at the end of a run.
* `lawful_append`: a history meets a rule about each entry and those before it
  iff its initial part does and the rest does behind it.
-/

namespace Runs

variable {σ α : Type*} (step : σ → α → Option σ)

/-- The state after the events `as`, when all of them can happen in order. -/
def exec : σ → List α → Option σ
  | s, [] => some s
  | s, a :: as => (step s a).bind fun s' => exec s' as

/-- `s'` is reached from `s` by some run. -/
def Reaches (s s' : σ) : Prop := ∃ as, exec step s as = some s'

/-- Every step of the run `as` from `s` meets the condition `G`. -/
def Guarded (G : σ → α → Prop) : σ → List α → Prop
  | _, [] => True
  | s, a :: as => G s a ∧ ∀ s', step s a = some s' → Guarded G s' as

variable {step}

@[simp] theorem exec_nil (s : σ) : exec step s [] = some s := rfl

theorem exec_cons {s s' : σ} {a : α} {as : List α} :
    exec step s (a :: as) = some s' ↔ ∃ t, step s a = some t ∧ exec step t as = some s' := by
  simp [exec, Option.bind_eq_some_iff]

theorem exec_append {s s' : σ} {as bs : List α} :
    exec step s (as ++ bs) = some s' ↔
      ∃ t, exec step s as = some t ∧ exec step t bs = some s' := by
  induction as generalizing s with
  | nil => simp
  | cons a as ih =>
    simp only [List.cons_append, exec_cons, ih]
    constructor
    · rintro ⟨u, hu, t, ht, hs⟩; exact ⟨t, ⟨u, hu, ht⟩, hs⟩
    · rintro ⟨t, ⟨u, hu, ht⟩, hs⟩; exact ⟨u, hu, t, ht, hs⟩

theorem exec_snoc {s s' : σ} {as : List α} {a : α} :
    exec step s (as ++ [a]) = some s' ↔ ∃ t, exec step s as = some t ∧ step t a = some s' := by
  simp [exec_append, exec_cons]

/-- What every step preserves is preserved by every run. -/
theorem exec_invariant {I : σ → Prop} (hstep : ∀ s a s', step s a = some s' → I s → I s')
    {s s' : σ} {as : List α} (h : exec step s as = some s') (hs : I s) : I s' := by
  induction as generalizing s with
  | nil => cases h; exact hs
  | cons a as ih =>
    obtain ⟨t, ht, h'⟩ := exec_cons.mp h
    exact ih h' (hstep s a t ht hs)

/-! ## Reachability -/

theorem Reaches.refl (s : σ) : Reaches step s s := ⟨[], rfl⟩

theorem Reaches.trans {s t u : σ} (h : Reaches step s t) (h' : Reaches step t u) :
    Reaches step s u := by
  obtain ⟨as, ha⟩ := h
  obtain ⟨bs, hb⟩ := h'
  exact ⟨as ++ bs, exec_append.mpr ⟨t, ha, hb⟩⟩

theorem Reaches.single {s t : σ} {a : α} (h : step s a = some t) : Reaches step s t :=
  ⟨[a], exec_cons.mpr ⟨t, h, rfl⟩⟩

theorem Reaches.tail {s t u : σ} {a : α} (h : Reaches step s t) (h' : step t a = some u) :
    Reaches step s u :=
  h.trans (.single h')

theorem Reaches.invariant {I : σ → Prop} (hstep : ∀ s a s', step s a = some s' → I s → I s')
    {s s' : σ} (h : Reaches step s s') (hs : I s) : I s' := by
  obtain ⟨as, ha⟩ := h
  exact exec_invariant hstep ha hs

/-! ## Runs whose steps meet a condition -/

@[simp] theorem guarded_nil (G : σ → α → Prop) (s : σ) : Guarded step G s [] := trivial

theorem guarded_cons {G : σ → α → Prop} {s : σ} {a : α} {as : List α} :
    Guarded step G s (a :: as) ↔ G s a ∧ ∀ s', step s a = some s' → Guarded step G s' as :=
  Iff.rfl

/-- A run is guarded iff its initial part is and the rest is from the state reached. -/
theorem guarded_append {G : σ → α → Prop} {s : σ} {as bs : List α} :
    Guarded step G s (as ++ bs) ↔
      Guarded step G s as ∧ ∀ t, exec step s as = some t → Guarded step G t bs := by
  induction as generalizing s with
  | nil => simp
  | cons a as ih =>
    simp only [List.cons_append, guarded_cons, ih, exec_cons]
    constructor
    · rintro ⟨hg, h⟩
      refine ⟨⟨hg, fun t ht => (h t ht).1⟩, ?_⟩
      rintro u ⟨t, ht, hu⟩
      exact (h t ht).2 u hu
    · rintro ⟨⟨hg, h⟩, h'⟩
      exact ⟨hg, fun t ht => ⟨h t ht, fun u hu => h' u ⟨t, ht, hu⟩⟩⟩

/-- What every step that meets `G` preserves is preserved by guarded runs. -/
theorem Guarded.invariant {G : σ → α → Prop} {I : σ → Prop}
    (hstep : ∀ s a s', G s a → step s a = some s' → I s → I s')
    {s s' : σ} {as : List α} (hg : Guarded step G s as) (h : exec step s as = some s')
    (hs : I s) : I s' := by
  induction as generalizing s with
  | nil => cases h; exact hs
  | cons a as ih =>
    obtain ⟨t, ht, h'⟩ := exec_cons.mp h
    exact ih (hg.2 t ht) h' (hstep s a t hg.1 ht hs)

/-- Every state of the run `as` from `s` has `P`. -/
def Throughout (step : σ → α → Option σ) (P : σ → Prop) : σ → List α → Prop
  | s, [] => P s
  | s, a :: as => P s ∧ ∀ s', step s a = some s' → Throughout step P s' as

/-- Where a step keeps `P` exactly when it meets `G`, a run has `P` throughout
    exactly when its steps all meet `G`. -/
theorem throughout_iff {G : σ → α → Prop} {P I : σ → Prop}
    (hinv : ∀ s a s', step s a = some s' → I s → I s') {s s' : σ} {as : List α}
    (hiff : ∀ s s', ∀ a ∈ as, step s a = some s' → I s → P s → (P s' ↔ G s a))
    (h : exec step s as = some s') (hi : I s) (hp : P s) :
    Throughout step P s as ↔ Guarded step G s as := by
  induction as generalizing s with
  | nil => simp [Throughout, hp]
  | cons a as ih =>
    obtain ⟨t, ht, h⟩ := exec_cons.mp h
    have hnext := hiff s t a List.mem_cons_self ht hi hp
    have hrest : P t → (Throughout step P t as ↔ Guarded step G t as) :=
      ih (fun u u' b hb => hiff u u' b (List.mem_cons_of_mem a hb)) h (hinv s a t ht hi)
    have hfirst : Throughout step P t as → P t := by
      intro hall
      cases as with
      | nil => exact hall
      | cons b bs => exact hall.1
    simp only [Throughout, guarded_cons, ht, Option.some.injEq, forall_eq']
    constructor
    · rintro ⟨-, hall⟩
      have hpt := hfirst hall
      exact ⟨hnext.mp hpt, (hrest hpt).mp hall⟩
    · rintro ⟨hg, hall⟩
      exact ⟨hp, (hrest (hnext.mpr hg)).mpr hall⟩

/-- The condition of a given run is tested step by step. -/
instance Guarded.decidable {G : σ → α → Prop} [∀ s a, Decidable (G s a)] :
    ∀ (s : σ) (as : List α), Decidable (Guarded step G s as)
  | _, [] => isTrue trivial
  | s, a :: as =>
    match h : step s a with
    | none => decidable_of_iff (G s a) ⟨fun hg => ⟨hg, by simp [h]⟩, fun hg => hg.1⟩
    | some s' =>
      have := Guarded.decidable (G := G) s' as
      decidable_of_iff (G s a ∧ Guarded step G s' as)
        ⟨fun hg => ⟨hg.1, by simpa [h] using hg.2⟩, fun hg => ⟨hg.1, hg.2 s' h⟩⟩

/-! ## Histories -/

section

variable {β : Type*}

/-- What the steps of the run `as` from `s` put out, in order. -/
def history (step : σ → α → Option σ) (out : σ → α → σ → List β) : σ → List α → List β
  | _, [] => []
  | s, a :: as =>
    match step s a with
    | none => []
    | some s' => out s a s' ++ history step out s' as

theorem history_append {out : σ → α → σ → List β} {s s' : σ} {as : List α} (bs : List α)
    (h : exec step s as = some s') :
    history step out s (as ++ bs) = history step out s as ++ history step out s' bs := by
  induction as generalizing s with
  | nil =>
    cases h
    rfl
  | cons a as ih =>
    obtain ⟨t, ht, h⟩ := exec_cons.mp h
    rw [List.cons_append, history, history, ht]
    simp only [ih h, List.append_assoc]

/-- What every step preserves of the state and the history holds at the end of a run. -/
theorem history_invariant (out : σ → α → σ → List β) {I : List β → σ → Prop}
    (hstep : ∀ h s a s', step s a = some s' → I h s → I (h ++ out s a s') s')
    {s s' : σ} {as : List α} {h : List β} (hexec : exec step s as = some s') (hs : I h s) :
    I (h ++ history step out s as) s' := by
  induction as generalizing s h with
  | nil =>
    cases hexec
    rw [history, List.append_nil]
    exact hs
  | cons a as ih =>
    obtain ⟨t, ht, hexec⟩ := exec_cons.mp hexec
    have hrest := ih hexec (hstep h s a t ht hs)
    rw [List.append_assoc] at hrest
    rw [history, ht]
    exact hrest

/-- Every entry of `h` meets the rule `R`, given the entries before it. -/
def Lawful (R : List β → β → Prop) (h : List β) : Prop :=
  ∀ before e after, h = before ++ e :: after → R before e

variable {R R' : List β → β → Prop} {h es : List β} {e : β}

theorem lawful_nil : Lawful R [] := by
  intro before e after heq
  simp at heq

theorem lawful_append :
    Lawful R (h ++ es) ↔ Lawful R h ∧ Lawful (fun before => R (h ++ before)) es := by
  constructor
  · intro hl
    constructor
    · rintro before e after rfl
      apply hl before e (after ++ es)
      simp
    · rintro before e after rfl
      apply hl (h ++ before) e after
      simp
  · rintro ⟨hh, hes⟩ before e after heq
    rcases List.append_eq_append_iff.mp heq with ⟨as, rfl, hrest⟩ | ⟨cs, rfl, hrest⟩
    · exact hes as e after hrest
    · cases cs with
      | nil =>
        have hnil := hes [] e after hrest.symm
        simpa using hnil
      | cons c cs =>
        obtain ⟨rfl, -⟩ := List.cons.inj hrest
        exact hh before _ cs rfl

theorem lawful_cons : Lawful R (e :: es) ↔ R [] e ∧ Lawful (fun before => R (e :: before)) es := by
  have happ : Lawful R ([e] ++ es) ↔ _ := lawful_append
  rw [List.singleton_append] at happ
  rw [happ]
  refine and_congr_left fun _ => ⟨fun hl => hl [] e [] rfl, ?_⟩
  intro he before e' after heq
  cases before with
  | nil =>
    obtain ⟨rfl, -⟩ := List.cons.inj heq
    exact he
  | cons b before => simp at heq

theorem lawful_concat : Lawful R (h ++ [e]) ↔ Lawful R h ∧ R h e := by
  rw [lawful_append, lawful_cons, List.append_nil]
  exact and_congr_right fun _ => and_iff_left lawful_nil

theorem Lawful.mono (h : Lawful R es) (hR : ∀ before e, R before e → R' before e) : Lawful R' es :=
  fun before e after heq => hR before e (h before e after heq)

end

end Runs
