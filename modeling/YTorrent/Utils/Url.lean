import Mathlib.Data.List.TakeWhile
import YTorrent.Net.Transcoder

/-!
# URLs

Models of `urlEncode`, `parseIp` and `parseTrackerUrl` (`src/utils/utils.cpp`).
A `std::string` is the list of its bytes; `isalnum` and `\d` are those of the C
locale.

* `percentDecode_urlEncode`: percent-decoding gives back what was encoded.
* `AnnounceUrl`: the URLs both patterns of `parseTrackerUrl` describe, with
  `parseTrackerUrl_text` and `exists_announceUrl`: the parser finds the parts of
  every such URL and accepts no other string.
-/

namespace YTorrent

/-- The bytes of a string literal. -/
def ascii (s : String) : List Byte := s.toList.map fun c => byte c.toNat

/-! ## `urlEncode` -/

/-- `\d`. -/
def isDigit (c : Byte) : Bool := 48 ≤ c.val && c.val ≤ 57

/-- `isalnum(c)`. A byte above 127 is a negative `char`, and not alphanumeric. -/
def isalnum (c : Byte) : Bool :=
  isDigit c || (65 ≤ c.val && c.val ≤ 90) || (97 ≤ c.val && c.val ≤ 122)

/-- The characters `urlEncode` keeps: alphanumeric, `-`, `_`, `.` and `~`. -/
def isUnreserved (c : Byte) : Bool := isalnum c || c == 45 || c == 95 || c == 46 || c == 126

/-- A digit of an upper-case hexadecimal number. -/
def hexDigit (n : ℕ) : Byte := if n < 10 then byte (48 + n) else byte (55 + n)

/-- `urlEncode` (utils.cpp lines 14–31). -/
def urlEncode (value : List Byte) : List Byte :=
  value.flatMap fun c =>
    if isUnreserved c then [c] else [37, hexDigit (c.val / 16), hexDigit (c.val % 16)]

/-- The value of a hexadecimal digit. -/
def hexValue (c : Byte) : Option ℕ :=
  if isDigit c then some (c.val - 48)
  else if 65 ≤ c.val ∧ c.val ≤ 70 then some (c.val - 55)
  else if 97 ≤ c.val ∧ c.val ≤ 102 then some (c.val - 87)
  else none

/-- Percent-decoding: `%` followed by two hexadecimal digits stands for a byte, every
    other byte for itself. -/
def percentDecode : List Byte → List Byte
  | a :: b :: c :: rest =>
    match hexValue b, hexValue c with
    | some x, some y =>
      if a = 37 then byte (16 * x + y) :: percentDecode rest else a :: percentDecode (b :: c :: rest)
    | _, _ => a :: percentDecode (b :: c :: rest)
  | a :: rest => a :: percentDecode rest
  | [] => []

variable {a b c : Byte} {v w rest : List Byte}

theorem hexValue_hexDigit : ∀ n < 16, hexValue (hexDigit n) = some n := by decide

theorem isUnreserved_hexDigit : ∀ n < 16, isUnreserved (hexDigit n) = true := by decide

theorem ne_percent_of_isUnreserved (h : isUnreserved c = true) : c ≠ 37 := by
  rintro rfl
  revert h
  decide

/-- A byte other than `%` stands for itself. -/
theorem percentDecode_cons (h : a ≠ 37) : percentDecode (a :: rest) = a :: percentDecode rest := by
  match rest with
  | [] => rfl
  | [b] => rfl
  | b :: c :: rest =>
    rw [percentDecode]
    split
    · rw [if_neg h]
    · rfl

/-- Unreserved characters stand for themselves. -/
theorem percentDecode_append (h : ∀ c ∈ v, isUnreserved c = true) :
    percentDecode (v ++ rest) = v ++ percentDecode rest := by
  induction v with
  | nil => rfl
  | cons c v ih =>
    have hc := ne_percent_of_isUnreserved (h c List.mem_cons_self)
    rw [List.cons_append, percentDecode_cons hc,
      ih fun d hd => h d (List.mem_cons_of_mem c hd), List.cons_append]

theorem percentDecode_of_isUnreserved (h : ∀ c ∈ v, isUnreserved c = true) :
    percentDecode v = v := by
  have happ : percentDecode (v ++ []) = _ := percentDecode_append h
  simpa [percentDecode] using happ

theorem percentDecode_escape (c : Byte) (rest : List Byte) :
    percentDecode (37 :: hexDigit (c.val / 16) :: hexDigit (c.val % 16) :: rest) =
      c :: percentDecode rest := by
  have hhi : c.val / 16 < 16 := by omega
  have hlo : c.val % 16 < 16 := by omega
  have hc : byte (16 * (c.val / 16) + c.val % 16) = c := by
    apply Fin.ext
    show (16 * (c.val / 16) + c.val % 16) % 256 = c.val
    omega
  rw [percentDecode, hexValue_hexDigit _ hhi, hexValue_hexDigit _ hlo]
  simp only [if_true, hc]

theorem percentDecode_urlEncode_append (v rest : List Byte) :
    percentDecode (urlEncode v ++ rest) = v ++ percentDecode rest := by
  induction v with
  | nil => rfl
  | cons c v ih =>
    have hcons : urlEncode (c :: v) = (if isUnreserved c then [c] else
        [37, hexDigit (c.val / 16), hexDigit (c.val % 16)]) ++ urlEncode v := rfl
    rw [hcons]
    split
    · rename_i hc
      rw [List.append_assoc, List.singleton_append,
        percentDecode_cons (ne_percent_of_isUnreserved hc), ih, List.cons_append]
    · rw [List.append_assoc, List.cons_append, List.cons_append, List.cons_append, List.nil_append,
        percentDecode_escape, ih, List.cons_append]

/-- Percent-decoding gives back what was encoded. -/
theorem percentDecode_urlEncode (v : List Byte) : percentDecode (urlEncode v) = v := by
  have h := percentDecode_urlEncode_append v []
  simpa [percentDecode] using h

/-- An encoded string holds unreserved characters and `%` only. -/
theorem mem_urlEncode (h : c ∈ urlEncode v) : isUnreserved c = true ∨ c = 37 := by
  obtain ⟨a, -, ha⟩ := List.mem_flatMap.mp h
  split at ha
  · rename_i hc
    rw [List.mem_singleton.mp ha]
    exact .inl hc
  · simp only [List.mem_cons, List.not_mem_nil, or_false] at ha
    rcases ha with rfl | rfl | rfl
    · exact .inr rfl
    · exact .inl (isUnreserved_hexDigit _ (by omega))
    · exact .inl (isUnreserved_hexDigit _ (by omega))

/-! ## Numbers and addresses -/

/-- A number as `operator<<` and `std::to_string` write it. -/
def decimal (n : ℕ) : List Byte := (Nat.toDigits 10 n).map fun c => byte c.toNat

theorem isDigit_of_mem_decimal {n : ℕ} (h : c ∈ decimal n) : isDigit c = true := by
  obtain ⟨d, hd, rfl⟩ := List.mem_map.mp h
  have hdig := Nat.isDigit_of_mem_toDigits (by decide) (by decide) hd
  simp only [Char.isDigit, Bool.and_eq_true, decide_eq_true_eq, UInt32.le_iff_toNat_le] at hdig
  have hval : (byte d.toNat).val = d.toNat := by
    show d.toNat % 256 = d.toNat
    have hle : d.toNat ≤ 57 := hdig.2
    omega
  rw [isDigit, hval]
  simpa using hdig

theorem isUnreserved_of_mem_decimal {n : ℕ} (h : c ∈ decimal n) : isUnreserved c = true := by
  simp [isUnreserved, isalnum, isDigit_of_mem_decimal h]

/-- `parseIp` (utils.cpp lines 33–46). The bytes of `ip` are in little-endian order. -/
def parseIp (ip : ℕ) : List Byte :=
  let byte3 := (ip &&& 0xFF000000) >>> 24
  let byte2 := (ip &&& 0x00FF0000) >>> 16
  let byte1 := (ip &&& 0x0000FF00) >>> 8
  let byte0 := ip &&& 0x000000FF
  decimal byte0 ++ ascii "." ++ decimal byte1 ++ ascii "." ++ decimal byte2 ++ ascii "." ++
    decimal byte3

/-! ## `parseTrackerUrl` -/

/-- `UrlMeta`. -/
structure UrlMeta where
  protocol : List Byte := []
  host : List Byte := []
  port : List Byte := []
  announcePath : List Byte := []
  passKeyParam : List Byte := []
  deriving DecidableEq, Repr

/-- `[^:/]`. -/
def isHostChar (c : Byte) : Bool := c != 58 && c != 47

/-- `^(https?://)`, and what follows it. -/
def matchProtocol (url : List Byte) : Option (List Byte × List Byte) :=
  if ascii "http://" <+: url then some (ascii "http://", url.drop 7)
  else if ascii "https://" <+: url then some (ascii "https://", url.drop 8)
  else none

/-- `([^:/]+)`. The patterns go on with `:` or `/`, so the match is as long as possible. -/
def matchHost (rest : List Byte) : Option (List Byte × List Byte) :=
  if rest.takeWhile isHostChar = [] then none
  else some (rest.takeWhile isHostChar, rest.dropWhile isHostChar)

/-- `(:\d+)`. The pattern goes on with `/`, so the match is as long as possible. -/
def matchPort : List Byte → Option (List Byte × List Byte)
  | c :: rest =>
    if c = 58 ∧ rest.takeWhile isDigit ≠ [] then
      some (c :: rest.takeWhile isDigit, rest.dropWhile isDigit)
    else none
  | [] => none

/-- `(/ann[^\?]*)(\?passkey=.*)?` up to the end of the string. -/
def matchPath (rest : List Byte) : Option (List Byte × List Byte) :=
  let announcePath := rest.takeWhile (· != 63)
  let passKey := rest.dropWhile (· != 63)
  if ascii "/ann" <+: announcePath ∧ (passKey = [] ∨ ascii "?passkey=" <+: passKey ∧
      10 ∉ passKey ∧ 13 ∉ passKey) then some (announcePath, passKey)
  else none

/-- `std::replace` of every `?` by `&`. -/
def replaceQuestion (s : List Byte) : List Byte := s.map fun c => if c = 63 then 38 else c

/-- `httpOrHttpsWithPort`. -/
def matchWithPort (url : List Byte) : Option UrlMeta := do
  let (protocol, rest) ← matchProtocol url
  let (host, rest) ← matchHost rest
  let (port, rest) ← matchPort rest
  let (announcePath, passKey) ← matchPath rest
  some { protocol, host, port := port.drop 1, announcePath, passKeyParam := replaceQuestion passKey }

/-- `httpOrHttpsWithoutPort`. -/
def matchWithoutPort (url : List Byte) : Option UrlMeta := do
  let (protocol, rest) ← matchProtocol url
  let (host, rest) ← matchHost rest
  let (announcePath, passKey) ← matchPath rest
  some { protocol, host, port := ascii "80", announcePath, passKeyParam := replaceQuestion passKey }

/-- `parseTrackerUrl` (utils.cpp lines 48–82). -/
def parseTrackerUrl (url : List Byte) : UrlMeta :=
  match matchWithPort url with
  | some urlMeta => urlMeta
  | none => (matchWithoutPort url).getD {}

/-! ## The URLs that are accepted -/

/-- A URL of the form both patterns describe. -/
structure AnnounceUrl where
  https : Bool
  host : List Byte
  port : Option (List Byte)
  announcePath : List Byte
  passkey : Option (List Byte)
  host_ne : host ≠ []
  host_chars : ∀ c ∈ host, isHostChar c = true
  port_ne : ∀ digits, port = some digits → digits ≠ []
  port_digits : ∀ digits, port = some digits → ∀ c ∈ digits, isDigit c = true
  path_prefix : ascii "/ann" <+: announcePath
  path_chars : 63 ∉ announcePath
  passkey_chars : ∀ key, passkey = some key → 10 ∉ key ∧ 13 ∉ key

namespace AnnounceUrl

variable (u : AnnounceUrl)

def protocol : List Byte := if u.https then ascii "https://" else ascii "http://"

/-- `:` and the port, when the URL has one. -/
def portPart : List Byte :=
  match u.port with
  | none => []
  | some digits => 58 :: digits

/-- The submatch of `(\?passkey=.*)?`. -/
def passkeyPart : List Byte :=
  match u.passkey with
  | none => []
  | some key => ascii "?passkey=" ++ key

/-- The URL. -/
def text : List Byte := u.protocol ++ (u.host ++ (u.portPart ++ (u.announcePath ++ u.passkeyPart)))

/-- The parts of the URL. -/
def urlMeta : UrlMeta where
  protocol := u.protocol
  host := u.host
  port := u.port.getD (ascii "80")
  announcePath := u.announcePath
  passKeyParam := replaceQuestion u.passkeyPart

end AnnounceUrl

/-- Nothing is required of a part that is left out. -/
theorem of_none_eq_some {p : List Byte → Prop} (key : List Byte) (h : none = some key) : p key :=
  absurd h (Option.some_ne_none key).symm

theorem takeWhile_append_cons {g : Byte → Bool} (h : ∀ x ∈ v, g x = true) (ha : g a = false) :
    (v ++ a :: rest).takeWhile g = v := by
  rw [List.takeWhile_append_of_pos h, List.takeWhile_cons_of_neg (by simp [ha]), List.append_nil]

theorem dropWhile_append_cons {g : Byte → Bool} (h : ∀ x ∈ v, g x = true) (ha : g a = false) :
    (v ++ a :: rest).dropWhile g = a :: rest := by
  rw [List.dropWhile_append_of_pos h, List.dropWhile_cons_of_neg (by simp [ha])]

theorem matchProtocol_append (u : AnnounceUrl) (rest : List Byte) :
    matchProtocol (u.protocol ++ rest) = some (u.protocol, rest) := by
  unfold matchProtocol AnnounceUrl.protocol
  cases u.https with
  | true =>
    have hno : ¬ ascii "http://" <+: ascii "https://" ++ rest := by
      rintro ⟨t, ht⟩
      have h4 : some (58 : Byte) = some 115 := congrArg (fun l : List Byte => l[4]?) ht
      revert h4
      decide
    simp only [if_true]
    rw [if_neg hno, if_pos (List.prefix_append _ _)]
    rfl
  | false =>
    simp only [Bool.false_eq_true, if_false]
    rw [if_pos (List.prefix_append _ _)]
    rfl

theorem matchHost_append (hne : v ≠ []) (h : ∀ x ∈ v, isHostChar x = true)
    (ha : isHostChar a = false) : matchHost (v ++ a :: rest) = some (v, a :: rest) := by
  unfold matchHost
  rw [takeWhile_append_cons h ha, dropWhile_append_cons h ha, if_neg hne]

theorem matchPort_append (hne : v ≠ []) (h : ∀ x ∈ v, isDigit x = true) (ha : isDigit a = false) :
    matchPort (58 :: (v ++ a :: rest)) = some (58 :: v, a :: rest) := by
  rw [matchPort, takeWhile_append_cons h ha, dropWhile_append_cons h ha]
  exact if_pos ⟨rfl, hne⟩

theorem matchPath_append (u : AnnounceUrl) :
    matchPath (u.announcePath ++ u.passkeyPart) = some (u.announcePath, u.passkeyPart) := by
  have hchars : ∀ x ∈ u.announcePath, (x != 63) = true := by
    intro x hx
    exact bne_iff_ne.mpr fun heq => u.path_chars (heq ▸ hx)
  have hsplit : (u.announcePath ++ u.passkeyPart).takeWhile (· != 63) = u.announcePath ∧
      (u.announcePath ++ u.passkeyPart).dropWhile (· != 63) = u.passkeyPart := by
    unfold AnnounceUrl.passkeyPart
    cases u.passkey with
    | none =>
      rw [List.append_nil]
      exact ⟨List.takeWhile_eq_self_iff.mpr hchars, List.dropWhile_eq_nil_iff.mpr hchars⟩
    | some key =>
      have hkey : ascii "?passkey=" ++ key = 63 :: (ascii "passkey=" ++ key) := rfl
      simp only [hkey]
      exact ⟨takeWhile_append_cons hchars rfl, dropWhile_append_cons hchars rfl⟩
  have hpart : u.passkeyPart = [] ∨ ascii "?passkey=" <+: u.passkeyPart ∧
      10 ∉ u.passkeyPart ∧ 13 ∉ u.passkeyPart := by
    have hk := u.passkey_chars
    unfold AnnounceUrl.passkeyPart
    cases hkey : u.passkey with
    | none => exact .inl rfl
    | some key =>
      obtain ⟨h10, h13⟩ := hk key hkey
      refine .inr ⟨List.prefix_append _ _, ?_, ?_⟩
      · rw [List.mem_append, not_or]
        exact ⟨by decide, h10⟩
      · rw [List.mem_append, not_or]
        exact ⟨by decide, h13⟩
  unfold matchPath
  simp only [hsplit.1, hsplit.2]
  rw [if_pos ⟨u.path_prefix, hpart⟩]

/-- The announce path starts with `/`. -/
theorem AnnounceUrl.exists_path (u : AnnounceUrl) :
    ∃ rest, u.announcePath ++ u.passkeyPart = 47 :: rest := by
  obtain ⟨t, ht⟩ := u.path_prefix
  exact ⟨ascii "ann" ++ t ++ u.passkeyPart, by rw [← ht]; rfl⟩

/-- The first pattern matches the URLs with a port. -/
theorem matchWithPort_text (u : AnnounceUrl) :
    matchWithPort u.text = if u.port.isSome then some u.urlMeta else none := by
  obtain ⟨rest, hrest⟩ := u.exists_path
  have hpath := matchPath_append u
  rw [hrest] at hpath
  unfold AnnounceUrl.text AnnounceUrl.urlMeta AnnounceUrl.portPart
  rw [hrest]
  cases hport : u.port with
  | none =>
    simp [matchWithPort, matchProtocol_append,
      matchHost_append u.host_ne u.host_chars (a := 47) rfl, matchPort]
  | some digits =>
    simp [matchWithPort, matchProtocol_append,
      matchHost_append u.host_ne u.host_chars (a := 58) rfl,
      matchPort_append (u.port_ne _ hport) (u.port_digits _ hport) (a := 47) rfl, hpath]

/-- The second one matches those without a port. -/
theorem matchWithoutPort_text (u : AnnounceUrl) :
    matchWithoutPort u.text = if u.port.isSome then none else some u.urlMeta := by
  obtain ⟨rest, hrest⟩ := u.exists_path
  have hpath := matchPath_append u
  rw [hrest] at hpath
  unfold AnnounceUrl.text AnnounceUrl.urlMeta AnnounceUrl.portPart
  rw [hrest]
  cases hport : u.port with
  | none =>
    simp [matchWithoutPort, matchProtocol_append,
      matchHost_append u.host_ne u.host_chars (a := 47) rfl, hpath]
  | some digits =>
    -- behind the host is `:`, where the path is to start with `/`
    have hcolon : matchPath (58 :: (digits ++ 47 :: rest)) = none := by
      unfold matchPath
      refine if_neg fun h => ?_
      obtain ⟨t, ht⟩ := h.1
      have hfirst : some (47 : Byte) = some 58 := congrArg List.head? ht
      revert hfirst
      decide
    simp [matchWithoutPort, matchProtocol_append,
      matchHost_append u.host_ne u.host_chars (a := 58) rfl, hcolon]

/-- The parser finds the parts of the URL. -/
theorem parseTrackerUrl_text (u : AnnounceUrl) : parseTrackerUrl u.text = u.urlMeta := by
  unfold parseTrackerUrl
  rw [matchWithPort_text, matchWithoutPort_text]
  cases u.port.isSome with
  | false => rfl
  | true => rfl

/-! ### No other string is accepted -/

theorem matchProtocol_eq_some {url p : List Byte} (h : matchProtocol url = some (p, rest)) :
    ∃ https : Bool, p = (if https then ascii "https://" else ascii "http://") ∧
      url = p ++ rest := by
  unfold matchProtocol at h
  split_ifs at h with hhttp hhttps
  · obtain ⟨rfl, rfl⟩ := Prod.mk.inj (Option.some.inj h)
    obtain ⟨t, rfl⟩ := hhttp
    exact ⟨false, rfl, rfl⟩
  · obtain ⟨rfl, rfl⟩ := Prod.mk.inj (Option.some.inj h)
    obtain ⟨t, rfl⟩ := hhttps
    exact ⟨true, rfl, rfl⟩

theorem matchHost_eq_some (h : matchHost w = some (v, rest)) :
    v ≠ [] ∧ (∀ c ∈ v, isHostChar c = true) ∧ w = v ++ rest := by
  unfold matchHost at h
  split_ifs at h with hne
  obtain ⟨rfl, rfl⟩ := Prod.mk.inj (Option.some.inj h)
  exact ⟨hne, fun c hc => List.mem_takeWhile_imp hc, List.takeWhile_append_dropWhile.symm⟩

theorem matchPort_eq_some (h : matchPort w = some (v, rest)) :
    ∃ digits, digits ≠ [] ∧ (∀ c ∈ digits, isDigit c = true) ∧ v = 58 :: digits ∧
      w = v ++ rest := by
  match w with
  | [] => cases h
  | c :: w =>
    rw [matchPort] at h
    split_ifs at h with hc
    obtain ⟨rfl, hne⟩ := hc
    obtain ⟨rfl, rfl⟩ := Prod.mk.inj (Option.some.inj h)
    refine ⟨_, hne, fun c hc => List.mem_takeWhile_imp hc, rfl, ?_⟩
    rw [List.cons_append, List.takeWhile_append_dropWhile]

theorem matchPath_eq_some (h : matchPath w = some (v, rest)) :
    ascii "/ann" <+: v ∧ 63 ∉ v ∧ w = v ++ rest ∧
      ∃ passkey : Option (List Byte), (∀ key, passkey = some key → 10 ∉ key ∧ 13 ∉ key) ∧
        rest = match passkey with | none => [] | some key => ascii "?passkey=" ++ key := by
  unfold matchPath at h
  simp only at h
  split_ifs at h with hpath
  obtain ⟨rfl, rfl⟩ := Prod.mk.inj (Option.some.inj h)
  refine ⟨hpath.1, fun hmem => ?_, List.takeWhile_append_dropWhile.symm, ?_⟩
  · have himp := List.mem_takeWhile_imp hmem
    simp at himp
  · rcases hpath.2 with hnil | ⟨⟨key, hkey⟩, h10, h13⟩
    · exact ⟨none, of_none_eq_some, hnil⟩
    · rw [← hkey, List.mem_append, not_or] at h10 h13
      refine ⟨some key, ?_, hkey.symm⟩
      rintro _ ⟨⟩
      exact ⟨h10.2, h13.2⟩

/-- A string without the form of an `AnnounceUrl` has no parts. -/
theorem parseTrackerUrl_eq_empty {url : List Byte} (h : ¬ ∃ u : AnnounceUrl, u.text = url) :
    parseTrackerUrl url = {} := by
  unfold parseTrackerUrl
  cases hwith : matchWithPort url with
  | some urlMeta =>
    refine absurd ?_ h
    simp only [matchWithPort, Option.bind_eq_bind, Option.bind_eq_some_iff, Prod.exists] at hwith
    obtain ⟨_, rest, hproto, host, rest', hhost, _, rest'', hport, path, passKey, hpath, -⟩ := hwith
    obtain ⟨https, rfl, rfl⟩ := matchProtocol_eq_some hproto
    obtain ⟨hne, hchars, rfl⟩ := matchHost_eq_some hhost
    obtain ⟨digits, hdigits, hall, rfl, rfl⟩ := matchPort_eq_some hport
    obtain ⟨hann, h63, rfl, passkey, hkey, rfl⟩ := matchPath_eq_some hpath
    refine ⟨⟨https, host, some digits, path, passkey, hne, hchars, ?_, ?_, hann, h63, hkey⟩, rfl⟩
    · rintro _ ⟨⟩
      exact hdigits
    · rintro _ ⟨⟩
      exact hall
  | none =>
    cases hwithout : matchWithoutPort url with
    | none => rfl
    | some urlMeta =>
      refine absurd ?_ h
      simp only [matchWithoutPort, Option.bind_eq_bind, Option.bind_eq_some_iff, Prod.exists]
        at hwithout
      obtain ⟨_, rest, hproto, host, rest', hhost, path, passKey, hpath, -⟩ := hwithout
      obtain ⟨https, rfl, rfl⟩ := matchProtocol_eq_some hproto
      obtain ⟨hne, hchars, rfl⟩ := matchHost_eq_some hhost
      obtain ⟨hann, h63, rfl, passkey, hkey, rfl⟩ := matchPath_eq_some hpath
      exact ⟨⟨https, host, none, path, passkey, hne, hchars, of_none_eq_some, of_none_eq_some, hann,
        h63, hkey⟩, rfl⟩

/-- A URL in which the parser finds a host has the form of an `AnnounceUrl`. -/
theorem exists_announceUrl {url : List Byte} (h : (parseTrackerUrl url).host ≠ []) :
    ∃ u : AnnounceUrl, u.text = url := by
  by_contra hno
  rw [parseTrackerUrl_eq_empty hno] at h
  exact h rfl

end YTorrent
