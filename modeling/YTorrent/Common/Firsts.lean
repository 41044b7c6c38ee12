import Mathlib.Data.List.Nodup
import Mathlib.Data.List.Sublists

/-!
# A loop that handles each key once

A loop goes through a list, passes over the elements with a key that is to be
skipped and adds the key of each element it handles to those. `FirstsOf` says what it
handles; `nil`, `cons_of_skip` and `cons_of_new` are the three cases of the loop.

* `FirstsOf.mem_keys`: a key is handled exactly when the list has it and it was not
  skipped at the start.
* `FirstsOf.find`: of the elements with one key the first is handled.
-/

namespace Firsts

variable {α κ : Type*} [DecidableEq κ]

/-- `out` is what the loop handles of `l`, when the keys in `skip` are skipped at the
    start. -/
structure FirstsOf (key : α → κ) (skip : κ → Prop) (l out : List α) : Prop where
  sublist : out.Sublist l
  distinct : (out.map key).Nodup
  mem_keys : ∀ k, k ∈ out.map key ↔ k ∈ l.map key ∧ ¬ skip k
  find : ∀ a ∈ out, l.find? (fun b => decide (key b = key a)) = some a

variable {key : α → κ} {skip skip' : κ → Prop} {a : α} {l out : List α}

namespace FirstsOf

theorem nil : FirstsOf key skip [] [] where
  sublist := .refl _
  distinct := List.nodup_nil
  mem_keys k := by simp
  find a ha := absurd ha List.not_mem_nil

/-- An element with a key that is skipped is passed over. -/
theorem cons_of_skip (hskip : skip (key a)) (h : FirstsOf key skip l out) :
    FirstsOf key skip (a :: l) out where
  sublist := h.sublist.cons a
  distinct := h.distinct
  mem_keys k := by
    rw [h.mem_keys, List.map_cons, List.mem_cons]
    constructor
    · rintro ⟨hk, hno⟩
      exact ⟨.inr hk, hno⟩
    · rintro ⟨rfl | hk, hno⟩
      · exact absurd hskip hno
      · exact ⟨hk, hno⟩
  find b hb := by
    have hno : ¬ skip (key b) := ((h.mem_keys (key b)).mp (List.mem_map_of_mem hb)).2
    have hne : ¬ key a = key b := fun heq => hno (heq ▸ hskip)
    rw [List.find?_cons_of_neg (by simpa using hne)]
    exact h.find b hb

/-- An element with a new key is handled, and the key is skipped from then on. -/
theorem cons_of_new (hskip : ¬ skip (key a)) (hskip' : ∀ k, skip' k ↔ skip k ∨ k = key a)
    (h : FirstsOf key skip' l out) : FirstsOf key skip (a :: l) (a :: out) where
  sublist := h.sublist.cons_cons a
  distinct := by
    rw [List.map_cons, List.nodup_cons]
    refine ⟨fun hmem => ?_, h.distinct⟩
    exact ((h.mem_keys _).mp hmem).2 ((hskip' _).mpr (.inr rfl))
  mem_keys k := by
    rw [List.map_cons, List.map_cons, List.mem_cons, List.mem_cons, h.mem_keys, hskip', not_or]
    constructor
    · rintro (rfl | ⟨hk, hno, -⟩)
      · exact ⟨.inl rfl, hskip⟩
      · exact ⟨.inr hk, hno⟩
    · rintro ⟨heq | hk, hno⟩
      · exact .inl heq
      · by_cases heq : k = key a
        · exact .inl heq
        · exact .inr ⟨hk, hno, heq⟩
  find b hb := by
    rcases List.mem_cons.mp hb with rfl | hb
    · exact List.find?_cons_of_pos (by simp)
    · have hno : ¬ skip' (key b) := ((h.mem_keys (key b)).mp (List.mem_map_of_mem hb)).2
      have hne : ¬ key a = key b := fun heq => hno ((hskip' _).mpr (.inr heq.symm))
      rw [List.find?_cons_of_neg (by simpa using hne)]
      exact h.find b hb

end FirstsOf

end Firsts
