import Mathlib.Computability.RegularExpressions

/-!
# Patterns with submatches

A pattern is a list of groups, each of which is a regular expression without groups that
may be optional. A pattern matches a string when the string is the parts that its groups
match, one behind the other; a group that is left out has no part.

* `mem_literal`, `mem_star_oneOf`, `mem_oneOrMore_oneOf`: the strings of the expressions
  that patterns are built from.
* `matches_cons`, `matches_optional`: what the first group matches, and what the others.
-/

namespace Patterns

open RegularExpression

variable {α : Type*}

/-! ## Expressions -/

/-- One of the characters of a list. -/
def oneOf : List α → RegularExpression α
  | [] => 0
  | a :: l => char a + oneOf l

/-- The characters of a list, in order. -/
def literal : List α → RegularExpression α
  | [] => 1
  | a :: l => char a * literal l

/-- `r?`. -/
def opt (r : RegularExpression α) : RegularExpression α := r + 1

/-- `r+`. -/
def oneOrMore (r : RegularExpression α) : RegularExpression α := r * star r

variable {l s : List α} {r r' : RegularExpression α}

theorem mem_oneOf : s ∈ (oneOf l).matches' ↔ ∃ a ∈ l, s = [a] := by
  induction l with
  | nil =>
    refine iff_of_false (Language.notMem_zero s) ?_
    rintro ⟨a, ha, -⟩
    exact absurd ha List.not_mem_nil
  | cons b l ih =>
    rw [oneOf, matches'_add, Language.mem_add, ih, List.exists_mem_cons_iff]
    exact Iff.rfl

theorem mem_mul : s ∈ (r * r').matches' ↔ ∃ v ∈ r.matches', ∃ v' ∈ r'.matches', v ++ v' = s := by
  rw [matches'_mul, Language.mem_mul]

theorem mem_literal : s ∈ (literal l).matches' ↔ s = l := by
  induction l generalizing s with
  | nil => exact Language.mem_one s
  | cons a l ih =>
    rw [literal, mem_mul]
    constructor
    · rintro ⟨v, rfl, v', hv', rfl⟩
      rw [ih.mp hv']
      rfl
    · rintro rfl
      exact ⟨[a], rfl, l, ih.mpr rfl, rfl⟩

/-- A string behind a literal. -/
theorem mem_literal_mul : s ∈ (literal l * r).matches' ↔ ∃ v ∈ r.matches', s = l ++ v := by
  rw [mem_mul]
  constructor
  · rintro ⟨v, hv, v', hv', rfl⟩
    exact ⟨v', hv', by rw [mem_literal.mp hv]⟩
  · rintro ⟨v, hv, rfl⟩
    exact ⟨l, mem_literal.mpr rfl, v, hv, rfl⟩

theorem mem_opt : s ∈ (opt r).matches' ↔ s ∈ r.matches' ∨ s = [] := by
  rw [opt, matches'_add, Language.mem_add]
  exact or_congr_right (Language.mem_one s)

theorem mem_star_oneOf : s ∈ (star (oneOf l)).matches' ↔ ∀ a ∈ s, a ∈ l := by
  rw [matches'_star, Language.mem_kstar]
  constructor
  · rintro ⟨parts, rfl, hparts⟩ a ha
    obtain ⟨v, hv, hav⟩ := List.mem_flatten.mp ha
    obtain ⟨b, hb, rfl⟩ := mem_oneOf.mp (hparts v hv)
    rw [List.mem_singleton.mp hav]
    exact hb
  · intro h
    refine ⟨s.map fun a => [a], ?_, fun v hv => ?_⟩
    · exact (List.flatMap_singleton' s).symm
    · obtain ⟨a, ha, rfl⟩ := List.mem_map.mp hv
      exact mem_oneOf.mpr ⟨a, h a ha, rfl⟩

theorem mem_oneOrMore_oneOf : s ∈ (oneOrMore (oneOf l)).matches' ↔ s ≠ [] ∧ ∀ a ∈ s, a ∈ l := by
  rw [oneOrMore, mem_mul]
  constructor
  · rintro ⟨v, hv, v', hv', rfl⟩
    obtain ⟨a, ha, rfl⟩ := mem_oneOf.mp hv
    refine ⟨List.cons_ne_nil a v', fun b hb => ?_⟩
    rcases List.mem_cons.mp hb with rfl | hb
    · exact ha
    · exact mem_star_oneOf.mp hv' b hb
  · rintro ⟨hne, h⟩
    cases s with
    | nil => exact absurd rfl hne
    | cons a s =>
      refine ⟨[a], mem_oneOf.mpr ⟨a, h a List.mem_cons_self, rfl⟩, s, ?_, rfl⟩
      exact mem_star_oneOf.mpr fun b hb => h b (List.mem_cons_of_mem a hb)

/-! ## Patterns -/

/-- A capture group of a pattern, and whether it may be left out. -/
structure Capture (α : Type*) where
  expr : RegularExpression α
  optional : Bool := false

/-- The pattern matches the string, with one submatch for each group. -/
inductive Matches : List (Capture α) → List α → List (Option (List α)) → Prop
  | nil : Matches [] [] []
  | group {g : Capture α} {gs : List (Capture α)} {v rest : List α} {subs : List (Option (List α))}
    (hv : v ∈ g.expr.matches') (h : Matches gs rest subs) :
    Matches (g :: gs) (v ++ rest) (some v :: subs)
  | leftOut {g : Capture α} {gs : List (Capture α)} {s : List α} {subs : List (Option (List α))}
    (hopt : g.optional = true) (h : Matches gs s subs) : Matches (g :: gs) s (none :: subs)

variable {g : Capture α} {gs : List (Capture α)} {subs : List (Option (List α))}

theorem matches_nil : Matches ([] : List (Capture α)) s subs ↔ s = [] ∧ subs = [] := by
  constructor
  · intro h
    cases h
    exact ⟨rfl, rfl⟩
  · rintro ⟨rfl, rfl⟩
    exact .nil

/-- A group that may not be left out comes first. -/
theorem matches_cons (hopt : g.optional = false) : Matches (g :: gs) s subs ↔
    ∃ v ∈ g.expr.matches', ∃ rest subs', Matches gs rest subs' ∧ s = v ++ rest ∧
      subs = some v :: subs' := by
  constructor
  · intro h
    cases h with
    | group hv h => exact ⟨_, hv, _, _, h, rfl, rfl⟩
    | leftOut hyes => exact absurd (hopt.symm.trans hyes) Bool.false_ne_true
  · rintro ⟨v, hv, rest, subs', h, rfl, rfl⟩
    exact .group hv h

/-- A group that may be left out comes last. -/
theorem matches_optional (hopt : g.optional = true) : Matches [g] s subs ↔
    s = [] ∧ subs = [none] ∨ s ∈ g.expr.matches' ∧ subs = [some s] := by
  constructor
  · intro h
    cases h with
    | group hv h =>
      obtain ⟨rfl, rfl⟩ := matches_nil.mp h
      rw [List.append_nil]
      exact .inr ⟨hv, rfl⟩
    | leftOut _ h =>
      obtain ⟨rfl, rfl⟩ := matches_nil.mp h
      exact .inl ⟨rfl, rfl⟩
  · rintro (⟨rfl, rfl⟩ | ⟨hs, rfl⟩)
    · exact .leftOut hopt .nil
    · have h : Matches [g] (s ++ []) [some s] := .group hs .nil
      rwa [List.append_nil] at h

end Patterns
