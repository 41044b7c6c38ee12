import Mathlib.Algebra.Order.Ring.Nat
import Mathlib.Data.List.Basic

/-!
# Output streams

A stream of formatted output: items are padded on the left with the fill character up to
the field width, numbers are written in the base of the stream. The width holds for the
next item only; the other settings stay.

* `text_putInt_setw`: a number below `16 ^ w` in a field of width `w ≥ 1`, filled with
  zeros, is its `w` hexadecimal digits.
* `Keeps`, `text_foldl`: a loop whose rounds leave the settings as they found them
  writes the items of its rounds one behind the other.
-/

/-- A stream over the characters `α`. -/
structure Ostream (α : Type*) where
  fill : α
  hex : Bool := false
  uppercase : Bool := false
  width : ℕ := 0
  text : List α := []

namespace Ostream

variable {α β : Type*}

/-- An item that is padded to the field width; the width is 0 then. -/
def insert (s : Ostream α) (item : List α) : Ostream α :=
  { s with width := 0, text := s.text ++ (List.replicate (s.width - item.length) s.fill ++ item) }

/-- `std::setw`. -/
def setw (s : Ostream α) (n : ℕ) : Ostream α := { s with width := n }

/-- The digits of a number. -/
def digits (base : ℕ) (uppercase : Bool) (n : ℕ) : List Char :=
  (Nat.toDigits base n).map fun c => if uppercase then c.toUpper else c

/-- The characters of an `int`: hexadecimal numbers are those of the `unsigned int`. -/
def showInt (s : Ostream α) (n : ℤ) : List Char :=
  if s.hex then digits 16 s.uppercase (n % 2 ^ 32).toNat
  else if n < 0 then '-' :: digits 10 s.uppercase n.natAbs
  else digits 10 s.uppercase n.toNat

/-- `operator<<(int)`. -/
def putInt (ofChar : Char → α) (s : Ostream α) (n : ℤ) : Ostream α :=
  s.insert ((s.showInt n).map ofChar)

variable {s : Ostream α} {item : List α} {n w b : ℕ} {ofChar : Char → α}

/-! ## One item -/

theorem text_insert : (s.insert item).text =
    s.text ++ (List.replicate (s.width - item.length) s.fill ++ item) := rfl

/-- Without a field width an item is written as it is. -/
theorem text_insert_of_width (h : s.width = 0) : (s.insert item).text = s.text ++ item := by
  rw [text_insert, h, Nat.zero_sub, List.replicate_zero, List.nil_append]

@[simp] theorem width_insert : (s.insert item).width = 0 := by
  unfold insert
  rfl

@[simp] theorem fill_insert : (s.insert item).fill = s.fill := by
  unfold insert
  rfl

@[simp] theorem hex_insert : (s.insert item).hex = s.hex := by
  unfold insert
  rfl

@[simp] theorem uppercase_insert : (s.insert item).uppercase = s.uppercase := by
  unfold insert
  rfl

/-- Without settings a number is written in base 10. -/
theorem showInt_natCast (hhex : s.hex = false) (hup : s.uppercase = false) :
    s.showInt n = Nat.toDigits 10 n := by
  have hneg : ¬ (n : ℤ) < 0 := by omega
  unfold showInt digits
  rw [hhex, hup, if_neg Bool.false_ne_true, if_neg hneg, Int.toNat_natCast]
  exact List.map_id _

/-! ## Numbers of a fixed width -/

/-- The `w` last digits of a number. -/
def fixedDigits (base : ℕ) (uppercase : Bool) : ℕ → ℕ → List Char
  | 0, _ => []
  | w + 1, n => fixedDigits base uppercase w (n / base) ++ digits base uppercase (n % base)

theorem digits_zero {up : Bool} : digits b up 0 = ['0'] := by
  rw [digits, Nat.toDigits_zero]
  cases up <;> rfl

theorem length_digits_of_lt {up : Bool} (h : n < b) : (digits b up n).length = 1 := by
  rw [digits, List.length_map, Nat.toDigits_of_lt_base h]
  rfl

theorem digits_of_le {up : Bool} (hb : 1 < b) (h : b ≤ n) :
    digits b up n = digits b up (n / b) ++ digits b up (n % b) := by
  have hmod : n % b < b := Nat.mod_lt n (by omega)
  unfold digits
  rw [Nat.toDigits_of_base_le hb h, Nat.toDigits_of_lt_base hmod, List.map_append]

theorem fixedDigits_zero {up : Bool} (w : ℕ) :
    fixedDigits b up w 0 = List.replicate w '0' := by
  induction w with
  | zero => rfl
  | succ w ih => rw [fixedDigits, Nat.zero_div, Nat.zero_mod, ih, digits_zero,
      List.replicate_succ']

/-- Padded with zeros, a number has its last digits only. -/
theorem pad_digits {up : Bool} (hb : 1 < b) (hw : 0 < w) (h : n < b ^ w) :
    List.replicate (w - (digits b up n).length) '0' ++ digits b up n = fixedDigits b up w n := by
  induction w generalizing n with
  | zero => omega
  | succ w ih =>
    rw [fixedDigits]
    by_cases hn : n < b
    · rw [Nat.div_eq_of_lt hn, Nat.mod_eq_of_lt hn, fixedDigits_zero, length_digits_of_lt hn]
      rfl
    · have hdiv : n / b < b ^ w := by
        apply Nat.div_lt_of_lt_mul
        rwa [Nat.pow_succ, Nat.mul_comm] at h
      have hpos : 0 < n / b := Nat.div_pos (by omega) (by omega)
      have hw : 0 < w := by
        by_contra h0
        rw [show w = 0 by omega, pow_zero] at hdiv
        omega
      have hmod : (digits b up (n % b)).length = 1 :=
        length_digits_of_lt (Nat.mod_lt n (by omega))
      rw [digits_of_le hb (by omega), List.length_append, hmod, ← ih hw hdiv, List.append_assoc,
        Nat.add_sub_add_right]

/-- A number below `16 ^ w` in a field of width `w`. -/
theorem text_putInt_setw (hhex : s.hex = true) (hfill : s.fill = ofChar '0') (hw : 0 < w)
    (h : n < 16 ^ w) (hint : n < 2 ^ 32) : ((s.setw w).putInt ofChar n).text =
      s.text ++ (fixedDigits 16 s.uppercase w n).map ofChar := by
  have hmod : ((n : ℤ) % 2 ^ 32).toNat = n := by omega
  have hshow : (s.setw w).showInt n = digits 16 s.uppercase n := by
    unfold showInt
    rw [show (s.setw w).hex = true from hhex, if_pos rfl, hmod]
    rfl
  rw [putInt, hshow, text_insert, List.length_map]
  show s.text ++ (List.replicate (w - _) s.fill ++ _) = _
  rw [hfill, ← List.map_replicate, ← List.map_append, pad_digits (by decide) hw h]

/-! ## Loops -/

/-- The settings of `s'` are those of `s`, and the next item has no field width. -/
structure Keeps (s s' : Ostream α) : Prop where
  fill : s'.fill = s.fill
  hex : s'.hex = s.hex
  uppercase : s'.uppercase = s.uppercase
  width : s'.width = 0

/-- What a loop writes whose round for `x` writes `f x`. -/
theorem text_foldl {round : Ostream α → β → Ostream α} {f : β → List α}
    (hround : ∀ s' x, Keeps s s' → Keeps s (round s' x) ∧ (round s' x).text = s'.text ++ f x)
    (l : List β) {s' : Ostream α} (hs : Keeps s s') :
    (l.foldl round s').text = s'.text ++ l.flatMap f := by
  induction l generalizing s' with
  | nil => rw [List.foldl_nil, List.flatMap_nil, List.append_nil]
  | cons x l ih =>
    obtain ⟨hkeeps, htext⟩ := hround s' x hs
    rw [List.foldl_cons, ih hkeeps, htext, List.append_assoc, List.flatMap_cons]

end Ostream
