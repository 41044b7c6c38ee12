import YTorrent.Common.Ostream
import YTorrent.Utils.Url

/-!
# `urlEncode` on its `std::ostringstream`

`urlEncode` and `parseIp` (`src/utils/utils.cpp`) write to a stream. The models of
`Utils.Url` are what the streams hold in the end.

* `urlEncodeStream_eq`, `parseIpStream_eq`: the streams and the models.
* `urlEncodeStream_percentEncoder`: the encoding is safe and reversible.
-/

namespace YTorrent

/-- A character of the stream. -/
def charByte (c : Char) : Byte := byte c.toNat

/-! ## `urlEncode` -/

/-- A `std::string::value_type`, which is signed. -/
def valueType (b : Byte) : ℤ := if b.val < 128 then b.val else b.val - 256

/-- The conversion `(unsigned char)c`. -/
def unsignedChar (c : ℤ) : ℕ := (c % 256).toNat

/-- `isalnum` in the C locale. -/
def isalnumInt (c : ℤ) : Bool :=
  (48 ≤ c && c ≤ 57) || (65 ≤ c && c ≤ 90) || (97 ≤ c && c ≤ 122)

/-- A round of the loop: `*i` is `b`. -/
def escapeByte (escaped : Ostream Byte) (b : Byte) : Ostream Byte :=
  let c := valueType b
  if isalnumInt c || c == 45 || c == 95 || c == 46 || c == 126 then
    escaped.insert [byte (unsignedChar c)]
  else ((escaped.insert [37]).setw 2).putInt charByte (unsignedChar c)

/-- The stream before the loop. -/
def escapedStream : Ostream Byte where
  fill := 48
  hex := true
  uppercase := true

/-- `urlEncode` (utils.cpp lines 14–31). -/
def urlEncodeStream (value : List Byte) : List Byte :=
  (value.foldl escapeByte escapedStream).text

variable {escaped : Ostream Byte}

theorem unsignedChar_valueType (b : Byte) : unsignedChar (valueType b) = b.val := by
  unfold unsignedChar valueType
  split <;> omega

theorem byte_val (b : Byte) : byte b.val = b := Fin.ext (Nat.mod_eq_of_lt b.isLt)

/-- The test on signed characters keeps the unreserved ones. -/
theorem isUnreserved_valueType (b : Byte) :
    (isalnumInt (valueType b) || valueType b == 45 || valueType b == 95 || valueType b == 46 ||
      valueType b == 126) = isUnreserved b := by
  revert b
  decide +kernel

theorem map_fixedDigits (b : Byte) : (Ostream.fixedDigits 16 true 2 b.val).map charByte =
    [hexDigit (b.val / 16), hexDigit (b.val % 16)] := by
  revert b
  decide +kernel

/-- A round writes the character or its triple and leaves the settings. -/
theorem escapeByte_text (h : Ostream.Keeps escapedStream escaped) (b : Byte) :
    Ostream.Keeps escapedStream (escapeByte escaped b) ∧ (escapeByte escaped b).text =
      escaped.text ++ if isUnreserved b then [b] else
        [37, hexDigit (b.val / 16), hexDigit (b.val % 16)] := by
  unfold escapeByte
  simp only [isUnreserved_valueType, unsignedChar_valueType, byte_val]
  split
  · exact ⟨⟨h.fill, h.hex, h.uppercase, rfl⟩, Ostream.text_insert_of_width h.width⟩
  · refine ⟨⟨h.fill, h.hex, h.uppercase, rfl⟩, ?_⟩
    have hfill : (escaped.insert [37]).fill = charByte '0' := h.fill
    have hhex : (escaped.insert [37]).hex = true := h.hex
    have hup : (escaped.insert [37]).uppercase = true := h.uppercase
    have htriple := Ostream.text_putInt_setw (w := 2) (n := b.val) hhex hfill (by decide) (by omega)
      (by omega)
    rw [hup, map_fixedDigits, Ostream.text_insert_of_width h.width, List.append_assoc] at htriple
    exact htriple

theorem urlEncodeStream_eq (value : List Byte) : urlEncodeStream value = urlEncode value := by
  have hstart : Ostream.Keeps escapedStream escapedStream := ⟨rfl, rfl, rfl, rfl⟩
  exact Ostream.text_foldl (fun _ b h => escapeByte_text h b) value hstart

/-! ## Reversible encodings -/

/-- An upper-case hexadecimal digit. -/
def isUpperHex (c : Byte) : Bool := isDigit c || (65 ≤ c.val && c.val ≤ 70)

/-- Unreserved characters and triples `%XX`. -/
inductive PercentEncoded : List Byte → Prop
  | nil : PercentEncoded []
  | unreserved (c : Byte) (s : List Byte) (hc : isUnreserved c = true) (h : PercentEncoded s) :
    PercentEncoded (c :: s)
  | triple (b c : Byte) (s : List Byte) (hb : isUpperHex b = true) (hc : isUpperHex c = true)
    (h : PercentEncoded s) : PercentEncoded (37 :: b :: c :: s)

/-- An encoding of byte strings that is safe in a URL, is undone by percent-decoding and
    works byte by byte. -/
structure PercentEncoder (encode : List Byte → List Byte) : Prop where
  encoded : ∀ v, PercentEncoded (encode v)
  decode : ∀ v, percentDecode (encode v) = v
  injective : Function.Injective encode
  append : ∀ v w, encode (v ++ w) = encode v ++ encode w

theorem isUpperHex_hexDigit : ∀ n < 16, isUpperHex (hexDigit n) = true := by decide

theorem percentEncoded_urlEncode (v : List Byte) : PercentEncoded (urlEncode v) := by
  induction v with
  | nil => exact .nil
  | cons b v ih =>
    show PercentEncoded ((if isUnreserved b then [b] else _) ++ urlEncode v)
    split
    · rename_i hb
      exact .unreserved b _ hb ih
    · exact .triple _ _ _ (isUpperHex_hexDigit _ (by omega)) (isUpperHex_hexDigit _ (by omega)) ih

/-- `urlEncode` is safe and reversible. -/
theorem urlEncodeStream_percentEncoder : PercentEncoder urlEncodeStream := by
  have heq : urlEncodeStream = urlEncode := by
    funext value
    exact urlEncodeStream_eq value
  rw [heq]
  refine ⟨percentEncoded_urlEncode, percentDecode_urlEncode, ?_, fun v w => ?_⟩
  · exact Function.LeftInverse.injective percentDecode_urlEncode
  · exact List.flatMap_append

/-! ## `parseIp` -/

/-- `parseIp` (utils.cpp lines 33–46). -/
def parseIpStream (ip : ℕ) : List Byte :=
  let byte3 : ℕ := (ip &&& 0xFF000000) >>> 24
  let byte2 : ℕ := (ip &&& 0x00FF0000) >>> 16
  let byte1 : ℕ := (ip &&& 0x0000FF00) >>> 8
  let byte0 : ℕ := ip &&& 0x000000FF
  let formatted : Ostream Byte := { fill := 32 }
  let formatted := (formatted.putInt charByte (0 + byte0)).insert (ascii ".")
  let formatted := (formatted.putInt charByte (0 + byte1)).insert (ascii ".")
  let formatted := (formatted.putInt charByte (0 + byte2)).insert (ascii ".")
  (formatted.putInt charByte (0 + byte3)).text

theorem parseIpStream_eq (ip : ℕ) : parseIpStream ip = parseIp ip := by
  have hdecimal (n : ℕ) : decimal n = (Nat.toDigits 10 n).map charByte := rfl
  unfold parseIpStream parseIp
  generalize (ip &&& 0xFF000000) >>> 24 = byte3
  generalize (ip &&& 0x00FF0000) >>> 16 = byte2
  generalize (ip &&& 0x0000FF00) >>> 8 = byte1
  generalize ip &&& 0x000000FF = byte0
  simp [Ostream.putInt, Ostream.showInt_natCast, Ostream.text_insert_of_width, hdecimal]

end YTorrent
