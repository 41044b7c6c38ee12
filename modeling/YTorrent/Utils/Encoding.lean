import Mathlib.Data.List.Lex
import Mathlib.Order.Fin.Basic
import YTorrent.Common.KeyMap
import YTorrent.Utils.Bencoding

/-!
# Bencoded texts

The texts that stand for the items of the `bencoding` library. A number may have a sign
and zeros that do not count, and the keys of a dictionary may come in any order: the
`BDictionary` is filled by `operator[]` and iterates over its keys by their values
(`BDictionary.h` lines 21–38). An integer of any size is accepted, but only one that fits an
`int64_t` is read: `strToNum` leaves the number of any other unset (`Utils.h` lines 35–45).

* `write_append_inj`: no text begins with another one.
* `write_text_iff`: decoding and encoding gives the text back exactly when it is
  `Canonical` and `Fits`: the keys of every dictionary increase, no number has a `+`, a zero
  that does not count or the sign of a zero, and every integer fits an `int64_t`.
-/

namespace YTorrent

/-! ## Numbers -/

/-- The digits of a number behind zeros that do not count. -/
def numeral (zeros n : ℕ) : List Byte := List.replicate zeros 48 ++ decimal n

/-- What the digits say. -/
def numberOf (digits : List Byte) : ℕ :=
  Nat.ofDigitChars 10 (digits.map fun c => Char.ofNat c.val) 0

variable {z z' n n' : ℕ} {c d : Byte} {a b : List Byte}

theorem isDigit_of_mem_numeral (h : c ∈ numeral z n) : isDigit c = true := by
  rcases List.mem_append.mp h with h | h
  · rw [List.eq_of_mem_replicate h]
    rfl
  · exact isDigit_of_mem_decimal h

theorem numberOf_numeral (z n : ℕ) : numberOf (numeral z n) = n := by
  have hchars : (decimal n).map (fun c => Char.ofNat c.val) = Nat.toDigits 10 n := by
    rw [decimal, List.map_map]
    refine (List.map_congr_left fun c hc => ?_).trans (List.map_id _)
    have hdig := Nat.isDigit_of_mem_toDigits (by decide) (by decide) hc
    simp only [Char.isDigit, Bool.and_eq_true, decide_eq_true_eq, UInt32.le_iff_toNat_le] at hdig
    have hle : c.toNat ≤ 57 := hdig.2
    show Char.ofNat (c.toNat % 256) = c
    rw [Nat.mod_eq_of_lt (by omega), Char.ofNat_toNat]
  have hzero : Char.ofNat (48 : Byte).val = '0' := rfl
  rw [numberOf, numeral, List.map_append, hchars, List.map_replicate, hzero,
    Nat.ofDigitChars_append, Nat.ofDigitChars_replicate_zero, Nat.mul_zero,
    Nat.ofDigitChars_ten_toDigits]

/-- A number begins with a digit. -/
theorem exists_numeral_cons (z n : ℕ) :
    ∃ d digits, numeral z n = d :: digits ∧ isDigit d = true := by
  have hne : numeral z n ≠ [] := by
    intro h
    have hdecimal : decimal n = [] := (List.append_eq_nil_iff.mp h).2
    rw [decimal, List.map_eq_nil_iff] at hdecimal
    exact Nat.toDigits_ne_nil hdecimal
  obtain ⟨d, digits, hd⟩ := List.exists_cons_of_ne_nil hne
  have hmem : d ∈ numeral z n := hd ▸ List.mem_cons_self
  exact ⟨d, digits, hd, isDigit_of_mem_numeral hmem⟩

/-- A number ends where a byte that is not a digit follows. -/
theorem numeral_append_inj (hc : isDigit c = false) (hd : isDigit d = false)
    (h : numeral z n ++ c :: a = numeral z' n' ++ d :: b) :
    z = z' ∧ n = n' ∧ c :: a = d :: b := by
  have hall : ∀ {z n : ℕ}, ∀ c ∈ numeral z n, isDigit c = true :=
    fun c hc => isDigit_of_mem_numeral hc
  have htake : ∀ {z n : ℕ} {c : Byte} {a : List Byte}, isDigit c = false →
      (numeral z n ++ c :: a).takeWhile isDigit = numeral z n := by
    intro z n c a hc
    rw [List.takeWhile_append_of_pos hall, List.takeWhile_cons_of_neg (by rw [hc]; decide),
      List.append_nil]
  have hdigits : numeral z n = numeral z' n' := by
    rw [← htake hc, h, htake hd]
  have hn : n = n' := by
    rw [← numberOf_numeral z n, hdigits, numberOf_numeral]
  subst hn
  have hlen := congrArg List.length (List.append_cancel_right hdigits)
  rw [List.length_replicate, List.length_replicate] at hlen
  subst hlen
  exact ⟨rfl, rfl, List.append_cancel_left h⟩

/-! ## The texts -/

/-- The text of a string: its length and a `:` before it. -/
structure StringLiteral where
  zeros : ℕ
  value : List Byte
  deriving DecidableEq

def StringLiteral.write (s : StringLiteral) : List Byte :=
  numeral s.zeros s.value.length ++ 58 :: s.value

inductive Sign
  | none
  | plus
  | minus
  deriving DecidableEq

def Sign.write : Sign → List Byte
  | none => []
  | plus => [43]
  | minus => [45]

/-- The text of an integer between `i` and `e`. -/
structure IntegerLiteral where
  sign : Sign
  zeros : ℕ
  value : ℤ
  nonpos : sign = .minus → value ≤ 0
  nonneg : sign ≠ .minus → 0 ≤ value

def IntegerLiteral.write (n : IntegerLiteral) : List Byte :=
  105 :: (n.sign.write ++ (numeral n.zeros n.value.natAbs ++ [101]))

/-- The integer is one of `BInteger::ValueType`, an `int64_t`. -/
def IntegerLiteral.Fits (n : IntegerLiteral) : Prop := -2 ^ 63 ≤ n.value ∧ n.value < 2 ^ 63

/-- What a text stands for: an item, the rest of a list or the rest of a dictionary. -/
inductive Part
  | item
  | items
  | entries

/-- What it stands for. -/
abbrev Part.Value : Part → Type
  | item => BItem
  | items => List BItem
  | entries => List (List Byte × BItem)

/-- Bencoded texts. -/
inductive Bencoded : Part → Type
  | string (s : StringLiteral) : Bencoded .item
  | integer (n : IntegerLiteral) : Bencoded .item
  | list (items : Bencoded .items) : Bencoded .item
  | dictionary (entries : Bencoded .entries) : Bencoded .item
  | noItem : Bencoded .items
  | next (item : Bencoded .item) (rest : Bencoded .items) : Bencoded .items
  | noEntry : Bencoded .entries
  | entry (key : StringLiteral) (item : Bencoded .item) (rest : Bencoded .entries) :
    Bencoded .entries

namespace Bencoded

/-- The bytes of the text. -/
def write : ∀ {p : Part}, Bencoded p → List Byte
  | _, string s => s.write
  | _, integer n => n.write
  | _, list items => 108 :: items.write
  | _, dictionary entries => 100 :: entries.write
  | _, noItem => [101]
  | _, next item rest => item.write ++ rest.write
  | _, noEntry => [101]
  | _, entry key item rest => key.write ++ (item.write ++ rest.write)

/-- The text is read as the value. The keys and values of a dictionary's rest are in the
    order of the text. An integer that does not fit may be read as any number, since `strToNum`
    does not assign it. -/
def Reads : ∀ {p : Part}, Bencoded p → p.Value → Prop
  | _, string s, v => v = BItem.string s.value
  | _, integer n, v => ∃ i : Int64, v = BItem.integer i ∧ (n.Fits → i.toInt = n.value)
  | _, list items, v => ∃ l, v = BItem.list l ∧ items.Reads l
  | _, dictionary entries, v =>
    ∃ l, v = BItem.dictionary (KeyMap.ofEntries l) ∧ entries.Reads l
  | _, noItem, v => v = ([] : List BItem)
  | _, next item rest, v =>
    ∃ (i : BItem) (l : List BItem), v = i :: l ∧ item.Reads i ∧ rest.Reads l
  | _, noEntry, v => v = ([] : List (List Byte × BItem))
  | _, entry key item rest, v =>
    ∃ (i : BItem) (l : List (List Byte × BItem)),
      v = (key.value, i) :: l ∧ item.Reads i ∧ rest.Reads l

/-- One reading of the text, with the integers modulo `2 ^ 64`. -/
def value : ∀ {p : Part}, Bencoded p → p.Value
  | _, string s => BItem.string s.value
  | _, integer n => BItem.integer (Int64.ofInt n.value)
  | _, list items => BItem.list items.value
  | _, dictionary entries => BItem.dictionary (KeyMap.ofEntries entries.value)
  | _, noItem => ([] : List BItem)
  | _, next item rest => (item.value :: rest.value : List BItem)
  | _, noEntry => ([] : List (List Byte × BItem))
  | _, entry key item rest => ((key.value, item.value) :: rest.value : List (List Byte × BItem))

/-- The keys of a dictionary in the order of the text. -/
def keys : ∀ {p : Part}, Bencoded p → List (List Byte)
  | _, entry key _ rest => key.value :: rest.keys
  | _, _ => []

/-- The text of the last value a dictionary has under the key. -/
def under (key : List Byte) : ∀ {p : Part}, Bencoded p → Option (Bencoded .item)
  | _, entry k item rest => (rest.under key).or (if k.value = key then some item else none)
  | _, _ => none

end Bencoded

/-- The text of an integer as `operator<<` writes it. -/
def IntegerLiteral.plain (n : ℤ) : IntegerLiteral where
  sign := if n < 0 then .minus else .none
  zeros := 0
  value := n
  nonpos h := by
    split at h
    · omega
    · cases h
  nonneg h := by
    split at h
    · exact absurd rfl h
    · omega

mutual

/-- The text `encode` makes of an item: the entries of a dictionary in the order of the
    iteration, numbers without a sign or zeros that do not count. -/
def BItem.text : BItem → Bencoded .item
  | .string value => .string ⟨0, value⟩
  | .integer value => .integer (.plain value.toInt)
  | .list items => .list (textItems items)
  | .dictionary items => .dictionary (textEntries items)

def textItems : List BItem → Bencoded .items
  | [] => .noItem
  | item :: items => .next item.text (textItems items)

def textEntries : List (List Byte × BItem) → Bencoded .entries
  | [] => .noEntry
  | (key, item) :: items => .entry ⟨0, key⟩ item.text (textEntries items)

end

namespace Bencoded

/-- The text `encode` makes of a value. -/
def textOf : ∀ {p : Part}, p.Value → Bencoded p
  | .item, v => v.text
  | .items, v => textItems v
  | .entries, v => textEntries v

/-- The keys of every dictionary increase, and numbers have no zeros or signs that do not
    count. -/
def Canonical : ∀ {p : Part}, Bencoded p → Prop
  | _, string s => s.zeros = 0
  | _, integer n => n = .plain n.value
  | _, list items => items.Canonical
  | _, dictionary entries =>
    entries.keys.Pairwise (· < ·) ∧ entries.Canonical
  | _, noItem => True
  | _, next item rest => item.Canonical ∧ rest.Canonical
  | _, noEntry => True
  | _, entry key item rest => key.zeros = 0 ∧ item.Canonical ∧ rest.Canonical

/-- Every integer fits. -/
def Fits : ∀ {p : Part}, Bencoded p → Prop
  | _, string _ => True
  | _, integer n => n.Fits
  | _, list items => items.Fits
  | _, dictionary entries => entries.Fits
  | _, noItem => True
  | _, next item rest => item.Fits ∧ rest.Fits
  | _, noEntry => True
  | _, entry _ item rest => item.Fits ∧ rest.Fits

end Bencoded

/-! ## Where a text ends -/

theorem StringLiteral.write_append_inj {s s' : StringLiteral}
    (h : s.write ++ a = s'.write ++ b) : s = s' ∧ a = b := by
  obtain ⟨zeros, value⟩ := s
  obtain ⟨zeros', value'⟩ := s'
  simp only [StringLiteral.write, List.append_assoc, List.cons_append] at h
  obtain ⟨rfl, hlen, hrest⟩ := numeral_append_inj (by decide) (by decide) h
  obtain ⟨rfl, rfl⟩ := List.append_inj (List.cons.inj hrest).2 hlen
  exact ⟨rfl, rfl⟩

theorem Sign.write_append_inj {s s' : Sign}
    (h : s.write ++ (numeral z n ++ a) = s'.write ++ (numeral z' n' ++ b)) :
    s = s' ∧ numeral z n ++ a = numeral z' n' ++ b := by
  have hdigit : ∀ {z n : ℕ} {c : Byte} {a l : List Byte}, isDigit c = false →
      numeral z n ++ a ≠ c :: l := by
    intro z n c a l hc heq
    obtain ⟨d, digits, hd, hdigit⟩ := exists_numeral_cons z n
    rw [hd] at heq
    rw [(List.cons.inj heq).1, hc] at hdigit
    cases hdigit
  cases s with
  | none =>
    cases s' with
    | none => exact ⟨rfl, h⟩
    | plus | minus => exact absurd h (hdigit (by decide))
  | plus =>
    cases s' with
    | none => exact absurd h.symm (hdigit (by decide))
    | plus => exact ⟨rfl, (List.cons.inj h).2⟩
    | minus => exact absurd (List.cons.inj h).1 (by decide)
  | minus =>
    cases s' with
    | none => exact absurd h.symm (hdigit (by decide))
    | plus => exact absurd (List.cons.inj h).1 (by decide)
    | minus => exact ⟨rfl, (List.cons.inj h).2⟩

/-- The sign and the digits say which number it is. -/
theorem IntegerLiteral.eq_of_natAbs {m m' : IntegerLiteral} (hsign : m.sign = m'.sign)
    (hzeros : m.zeros = m'.zeros) (habs : m.value.natAbs = m'.value.natAbs) : m = m' := by
  obtain ⟨sign, zeros, value, hnonpos, hnonneg⟩ := m
  obtain ⟨sign', zeros', value', hnonpos', hnonneg'⟩ := m'
  obtain rfl : sign = sign' := hsign
  obtain rfl : zeros = zeros' := hzeros
  obtain rfl : value = value' := by
    have habs : value.natAbs = value'.natAbs := habs
    by_cases hminus : sign = .minus
    · have h := hnonpos hminus
      have h' := hnonpos' hminus
      omega
    · have h := hnonneg hminus
      have h' := hnonneg' hminus
      omega
  rfl

theorem IntegerLiteral.write_append_inj {m m' : IntegerLiteral}
    (h : m.write ++ a = m'.write ++ b) : m = m' ∧ a = b := by
  simp only [IntegerLiteral.write, List.append_assoc, List.cons_append, List.nil_append] at h
  obtain ⟨hsign, hrest⟩ := Sign.write_append_inj (List.cons.inj h).2
  obtain ⟨hzeros, habs, hrest⟩ := numeral_append_inj (by decide) (by decide) hrest
  exact ⟨IntegerLiteral.eq_of_natAbs hsign hzeros habs, (List.cons.inj hrest).2⟩

namespace Bencoded

/-- The first byte of a text; none where it is a digit. -/
def lead : ∀ {p : Part}, Bencoded p → Option Byte
  | _, string _ => none
  | _, integer _ => some 105
  | _, list _ => some 108
  | _, dictionary _ => some 100
  | _, noItem => some 101
  | _, next item _ => item.lead
  | _, noEntry => some 101
  | _, entry _ _ _ => none

theorem lead_item (r : Bencoded .item) : r.lead ≠ some 101 := by
  cases r with
  | string s => exact Option.some_ne_none 101 ∘ Eq.symm
  | integer | list | dictionary => show some _ ≠ some _; decide

theorem head?_write (s : StringLiteral) :
    (s.write ++ a).head?.filter (!isDigit ·) = none := by
  obtain ⟨d, digits, hd, hdigit⟩ := exists_numeral_cons s.zeros s.value.length
  rw [StringLiteral.write, hd]
  simp [hdigit]

theorem lead_eq {p : Part} (r : Bencoded p) (a : List Byte) :
    (r.write ++ a).head?.filter (!isDigit ·) = r.lead := by
  induction r generalizing a with
  | string s => exact head?_write s
  | integer | list | dictionary | noItem | noEntry => rfl
  | next item rest ihitem =>
    rw [write, List.append_assoc]
    exact ihitem _
  | entry key item rest =>
    rw [write, List.append_assoc]
    exact head?_write key

/-- No text begins with another one of its kind. -/
theorem write_append_inj {p : Part} {r r' : Bencoded p} {a b : List Byte}
    (h : r.write ++ a = r'.write ++ b) : r = r' ∧ a = b := by
  have hlead : ∀ {p : Part} {r r' : Bencoded p} {a b : List Byte},
      r.write ++ a = r'.write ++ b → r.lead = r'.lead := by
    intro p r r' a b h
    rw [← lead_eq r a, h, lead_eq]
  induction r generalizing a b with
  | string s =>
    cases r' with
    | string s' =>
      obtain ⟨rfl, rfl⟩ := StringLiteral.write_append_inj h
      exact ⟨rfl, rfl⟩
    | integer | list | dictionary => cases hlead h
  | integer n =>
    cases r' with
    | integer n' =>
      obtain ⟨rfl, rfl⟩ := IntegerLiteral.write_append_inj h
      exact ⟨rfl, rfl⟩
    | string | list | dictionary => cases hlead h
  | list items ih =>
    cases r' with
    | list items' =>
      obtain ⟨rfl, rfl⟩ := ih (List.cons.inj h).2
      exact ⟨rfl, rfl⟩
    | string | integer | dictionary => cases hlead h
  | dictionary entries ih =>
    cases r' with
    | dictionary entries' =>
      obtain ⟨rfl, rfl⟩ := ih (List.cons.inj h).2
      exact ⟨rfl, rfl⟩
    | string | integer | list => cases hlead h
  | noItem =>
    cases r' with
    | noItem => exact ⟨rfl, (List.cons.inj h).2⟩
    | next item' rest' => exact absurd (hlead h).symm (lead_item item')
  | next item rest ihitem ihrest =>
    cases r' with
    | noItem => exact absurd (hlead h) (lead_item item)
    | next item' rest' =>
      simp only [write, List.append_assoc] at h
      obtain ⟨rfl, hrest⟩ := ihitem h
      obtain ⟨rfl, rfl⟩ := ihrest hrest
      exact ⟨rfl, rfl⟩
  | noEntry =>
    cases r' with
    | noEntry => exact ⟨rfl, (List.cons.inj h).2⟩
    | entry => cases hlead h
  | entry key item rest ihitem ihrest =>
    cases r' with
    | noEntry => cases hlead h
    | entry key' item' rest' =>
      simp only [write, List.append_assoc] at h
      obtain ⟨rfl, hitem⟩ := StringLiteral.write_append_inj h
      obtain ⟨rfl, hrest⟩ := ihitem hitem
      obtain ⟨rfl, rfl⟩ := ihrest hrest
      exact ⟨rfl, rfl⟩

/-! ## Decoding and encoding -/

theorem reads_value {p : Part} (r : Bencoded p) : r.Reads r.value := by
  induction r with
  | string s => rfl
  | integer n =>
    refine ⟨Int64.ofInt n.value, rfl, fun hfits => ?_⟩
    exact Int64.toInt_ofInt_of_le hfits.1 hfits.2
  | list items ih => exact ⟨_, rfl, ih⟩
  | dictionary entries ih => exact ⟨_, rfl, ih⟩
  | noItem => rfl
  | next item rest ihitem ihrest => exact ⟨_, _, rfl, ihitem, ihrest⟩
  | noEntry => rfl
  | entry key item rest ihitem ihrest => exact ⟨_, _, rfl, ihitem, ihrest⟩

/-- Where its integers fit, a text has one reading. -/
theorem Reads.eq_value {p : Part} {r : Bencoded p} {v : p.Value} (h : r.Reads v)
    (hfits : r.Fits) : v = r.value := by
  induction r with
  | string s => exact h
  | integer n =>
    obtain ⟨i, rfl, hi⟩ := h
    show BItem.integer i = BItem.integer (Int64.ofInt n.value)
    rw [← hi hfits, Int64.ofInt_toInt]
  | list items ih =>
    obtain ⟨l, rfl, hl⟩ := h
    exact congrArg BItem.list (ih hl hfits)
  | dictionary entries ih =>
    obtain ⟨l, rfl, hl⟩ := h
    exact congrArg (fun l => BItem.dictionary (KeyMap.ofEntries l)) (ih hl hfits)
  | noItem => exact h
  | next item rest ihitem ihrest =>
    obtain ⟨i, l, rfl, hitem, hrest⟩ := h
    exact congrArg₂ List.cons (ihitem hitem hfits.1) (ihrest hrest hfits.2)
  | noEntry => exact h
  | entry key item rest ihitem ihrest =>
    obtain ⟨i, l, rfl, hitem, hrest⟩ := h
    exact congrArg₂ (fun i l => (key.value, i) :: l) (ihitem hitem hfits.1)
      (ihrest hrest hfits.2)

theorem keys_textEntries (l : List (List Byte × BItem)) :
    (textEntries l).keys = l.map Prod.fst := by
  induction l with
  | nil => rfl
  | cons e l ih => rw [textEntries, keys, ih, List.map_cons]

theorem canonical_textEntries {l : List (List Byte × BItem)} :
    (textEntries l).Canonical ↔ ∀ e ∈ l, e.2.text.Canonical := by
  induction l with
  | nil => simp [textEntries, Canonical]
  | cons e l ih =>
    rw [textEntries, Canonical, ih, List.forall_mem_cons]
    exact and_iff_right rfl

theorem fits_textEntries {l : List (List Byte × BItem)} :
    (textEntries l).Fits ↔ ∀ e ∈ l, e.2.text.Fits := by
  induction l with
  | nil => simp [textEntries, Fits]
  | cons e l ih => rw [textEntries, Fits, ih, List.forall_mem_cons]

theorem sorted_iff {l : List (List Byte × BItem)} :
    KeyMap.Sorted l ↔ (l.map Prod.fst).Pairwise (· < ·) := List.pairwise_map.symm

/-- The keys of a dictionary that was read, in the order of the text. -/
theorem Reads.keys_eq {entries : Bencoded .entries} {l : List (List Byte × BItem)}
    (h : entries.Reads l) : entries.keys = l.map Prod.fst := by
  match entries, h with
  | noEntry, h =>
    obtain rfl : l = [] := h
    rfl
  | entry key item rest, h =>
    obtain ⟨i, l', rfl, -, hrest⟩ := h
    rw [keys, List.map_cons, Reads.keys_eq hrest]

/-- What `encode` writes is canonical. -/
theorem Reads.canonical {p : Part} {r : Bencoded p} {v : p.Value} (h : r.Reads v) :
    (textOf v).Canonical := by
  induction r with
  | string s =>
    obtain rfl : v = BItem.string s.value := h
    rfl
  | integer n =>
    obtain ⟨i, rfl, -⟩ := h
    rfl
  | list items ih =>
    obtain ⟨l, rfl, hl⟩ := h
    exact ih hl
  | dictionary entries ih =>
    obtain ⟨l, rfl, hl⟩ := h
    have hitems : ∀ e ∈ l, e.2.text.Canonical := canonical_textEntries.mp (ih hl)
    have hsorted : KeyMap.Sorted (KeyMap.ofEntries l) := KeyMap.sorted_ofEntries
    refine ⟨?_, canonical_textEntries.mpr fun e he => hitems e (KeyMap.mem_ofEntries he)⟩
    rw [keys_textEntries]
    exact sorted_iff.mp hsorted
  | noItem =>
    obtain rfl : v = [] := h
    trivial
  | next item rest ihitem ihrest =>
    obtain ⟨i, l, rfl, hitem, hrest⟩ := h
    exact ⟨ihitem hitem, ihrest hrest⟩
  | noEntry =>
    obtain rfl : v = [] := h
    trivial
  | entry key item rest ihitem ihrest =>
    obtain ⟨i, l, rfl, hitem, hrest⟩ := h
    exact ⟨rfl, ihitem hitem, ihrest hrest⟩

theorem fits_plain (i : Int64) : (IntegerLiteral.plain i.toInt).Fits :=
  ⟨Int64.le_toInt i, Int64.toInt_lt i⟩

/-- What `encode` writes has no integer that does not fit. -/
theorem Reads.fits {p : Part} {r : Bencoded p} {v : p.Value} (h : r.Reads v) :
    (textOf v).Fits := by
  induction r with
  | string s =>
    obtain rfl : v = BItem.string s.value := h
    trivial
  | integer n =>
    obtain ⟨i, rfl, -⟩ := h
    exact fits_plain i
  | list items ih =>
    obtain ⟨l, rfl, hl⟩ := h
    exact ih hl
  | dictionary entries ih =>
    obtain ⟨l, rfl, hl⟩ := h
    have hitems : ∀ e ∈ l, e.2.text.Fits := fits_textEntries.mp (ih hl)
    exact fits_textEntries.mpr fun e he => hitems e (KeyMap.mem_ofEntries he)
  | noItem =>
    obtain rfl : v = [] := h
    trivial
  | next item rest ihitem ihrest =>
    obtain ⟨i, l, rfl, hitem, hrest⟩ := h
    exact ⟨ihitem hitem, ihrest hrest⟩
  | noEntry =>
    obtain rfl : v = [] := h
    trivial
  | entry key item rest ihitem ihrest =>
    obtain ⟨i, l, rfl, hitem, hrest⟩ := h
    exact ⟨ihitem hitem, ihrest hrest⟩

/-- A canonical text whose integers fit is what `encode` writes. -/
theorem Reads.text_eq {p : Part} {r : Bencoded p} {v : p.Value} (h : r.Reads v)
    (hcanon : r.Canonical) (hfits : r.Fits) : textOf v = r := by
  induction r with
  | string s =>
    obtain ⟨zeros, value⟩ := s
    obtain rfl : zeros = 0 := hcanon
    obtain rfl : v = BItem.string value := h
    rfl
  | integer n =>
    obtain ⟨i, rfl, hi⟩ := h
    show integer (.plain i.toInt) = integer n
    rw [hi hfits]
    exact congrArg integer (Eq.symm hcanon)
  | list items ih =>
    obtain ⟨l, rfl, hl⟩ := h
    exact congrArg list (ih hl hcanon hfits)
  | dictionary entries ih =>
    obtain ⟨l, rfl, hl⟩ := h
    have hsorted : KeyMap.Sorted l := by
      rw [sorted_iff, ← hl.keys_eq]
      exact hcanon.1
    show dictionary (textEntries (KeyMap.ofEntries l)) = dictionary entries
    rw [KeyMap.ofEntries_of_sorted hsorted]
    exact congrArg dictionary (ih hl hcanon.2 hfits)
  | noItem =>
    obtain rfl : v = [] := h
    rfl
  | next item rest ihitem ihrest =>
    obtain ⟨i, l, rfl, hitem, hrest⟩ := h
    exact congrArg₂ next (ihitem hitem hcanon.1 hfits.1) (ihrest hrest hcanon.2 hfits.2)
  | noEntry =>
    obtain rfl : v = [] := h
    rfl
  | entry key item rest ihitem ihrest =>
    obtain ⟨zeros, value⟩ := key
    obtain rfl : zeros = 0 := hcanon.1
    obtain ⟨i, l, rfl, hitem, hrest⟩ := h
    exact congrArg₂ (entry ⟨0, value⟩) (ihitem hitem hcanon.2.1 hfits.1)
      (ihrest hrest hcanon.2.2 hfits.2)

/-- Decoding and encoding gives the text back exactly when it is canonical and its integers
    fit. -/
theorem write_text_iff {p : Part} {r : Bencoded p} {v : p.Value} (h : r.Reads v) :
    (textOf v).write = r.write ↔ r.Canonical ∧ r.Fits := by
  constructor
  · intro hwrite
    have heq : (textOf v).write ++ [] = r.write ++ [] := congrArg (· ++ []) hwrite
    exact (write_append_inj heq).1 ▸ ⟨h.canonical, h.fits⟩
  · rintro ⟨hcanon, hfits⟩
    rw [h.text_eq hcanon hfits]

/-- The last values under a key, in the text and as they were read. -/
theorem Reads.last? {entries : Bencoded .entries} {l : List (List Byte × BItem)}
    (h : entries.Reads l) (key : List Byte) :
    Option.Rel (fun (r : Bencoded .item) item => r.Reads item) (entries.under key)
      (KeyMap.last? key l) := by
  match entries, h with
  | noEntry, h =>
    obtain rfl : l = [] := h
    exact .none
  | entry k r rest, h =>
    obtain ⟨i, l', rfl, hitem, hrest⟩ := h
    rw [under, KeyMap.last?]
    have hrel := Reads.last? hrest key
    revert hrel
    generalize rest.under key = o, KeyMap.last? key l' = o'
    rintro (hj | _)
    · exact .some hj
    · by_cases hk : k.value = key
      · rw [if_pos hk, if_pos hk]
        exact .some hitem
      · rw [if_neg hk, if_neg hk]
        exact .none

/-- `operator[]` of the decoded dictionary. -/
theorem Reads.lookup {entries : Bencoded .entries} {l : List (List Byte × BItem)}
    {item : BItem} {key : String} (h : entries.Reads l)
    (hlookup : YTorrent.lookup (KeyMap.ofEntries l) key = some item) :
    ∃ r, entries.under (ascii key) = some r ∧ r.Reads item := by
  have htest : (fun e : List Byte × BItem => decide (e.1 = ascii key)) =
      fun e => @decide (e.1 = ascii key) (LinearOrder.toDecidableEq e.1 (ascii key)) := by
    funext e
    exact decide_eq_decide.mpr Iff.rfl
  have hlast : KeyMap.last? (ascii key) l = some item := by
    rw [← KeyMap.get?_ofEntries, ← hlookup, YTorrent.lookup, htest]
    rfl
  have hrel := h.last? (ascii key)
  rw [hlast] at hrel
  revert hrel
  generalize entries.under (ascii key) = o
  rintro ⟨hr⟩
  exact ⟨_, rfl, hr⟩

end Bencoded

end YTorrent
