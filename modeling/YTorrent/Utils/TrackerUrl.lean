import YTorrent.Common.Patterns
import YTorrent.Utils.Url

/-!
# The two patterns of `parseTrackerUrl`

The regular expressions of `parseTrackerUrl` (utils.cpp lines 51–52), and what
`std::regex_match` makes of them.

* `withPort_iff`, `withoutPort_iff`: the strings they match, with the submatches.
* `parses_iff`: `parseTrackerUrl` copies the submatches of the one that matches.
* `parsedExactly_iff`: the URLs that are parsed without loss. `std::replace` turns every
  `?` of the last submatch into `&`, where only the first is to be one.
* `parsedExactly_fails`: a passkey with a question mark.
-/

namespace YTorrent

open Patterns RegularExpression

/-- The characters of a class. -/
def ofClass (p : Byte → Bool) : RegularExpression Byte := oneOf ((List.finRange 256).filter p)

/-! ## The patterns -/

/-- `(https?://)` -/
def protocolGroup : Capture Byte where
  expr := literal (ascii "http") * (opt (literal (ascii "s")) * literal (ascii "://"))

/-- `([^:/]+)` -/
def hostGroup : Capture Byte where
  expr := oneOrMore (ofClass isHostChar)

/-- `(:\d+)` -/
def portGroup : Capture Byte where
  expr := literal (ascii ":") * oneOrMore (ofClass isDigit)

/-- `(/ann[^\?]*)` -/
def pathGroup : Capture Byte where
  expr := literal (ascii "/ann") * star (ofClass (· != 63))

/-- `(\?passkey=.*)?`; `.` matches no line terminator. -/
def passkeyGroup : Capture Byte where
  expr := literal (ascii "?passkey=") * star (ofClass fun c => c != 10 && c != 13)
  optional := true

/-- `^(https?://)([^:/]+)(:\d+)(/ann[^\?]*)(\?passkey=.*)?` -/
def httpOrHttpsWithPort : List (Capture Byte) :=
  [protocolGroup, hostGroup, portGroup, pathGroup, passkeyGroup]

/-- `^(https?://)([^:/]+)(/ann[^\?]*)(\?passkey=.*)?` -/
def httpOrHttpsWithoutPort : List (Capture Byte) :=
  [protocolGroup, hostGroup, pathGroup, passkeyGroup]

/-- The text of a submatch; that of a group without a part is empty. -/
def submatch (sub : Option (List Byte)) : List Byte := sub.getD []

/-- `parseTrackerUrl` (utils.cpp lines 48–82) returns `urlMeta`. -/
inductive Parses (url : List Byte) : UrlMeta → Prop
  | withPort (protocol host port announcePath passKey : Option (List Byte))
    (h : Matches httpOrHttpsWithPort url [protocol, host, port, announcePath, passKey]) :
    Parses url
      { protocol := submatch protocol
        host := submatch host
        port := (submatch port).drop 1
        announcePath := submatch announcePath
        passKeyParam := replaceQuestion (submatch passKey) }
  | withoutPort (protocol host announcePath passKey : Option (List Byte))
    (hno : ∀ subs, ¬ Matches httpOrHttpsWithPort url subs)
    (h : Matches httpOrHttpsWithoutPort url [protocol, host, announcePath, passKey]) :
    Parses url
      { protocol := submatch protocol
        host := submatch host
        port := ascii "80"
        announcePath := submatch announcePath
        passKeyParam := replaceQuestion (submatch passKey) }
  | none (hno : ∀ subs, ¬ Matches httpOrHttpsWithPort url subs)
    (hno' : ∀ subs, ¬ Matches httpOrHttpsWithoutPort url subs) : Parses url {}

variable {url v : List Byte} {subs : List (Option (List Byte))} {p : Byte → Bool}

/-! ## The strings of the groups -/

theorem mem_ofClass {c : Byte} : c ∈ (List.finRange 256).filter p ↔ p c = true := by
  rw [List.mem_filter]
  exact and_iff_right (List.mem_finRange c)

theorem mem_protocolGroup : v ∈ protocolGroup.expr.matches' ↔
    ∃ https : Bool, v = if https then ascii "https://" else ascii "http://" := by
  rw [protocolGroup, mem_literal_mul]
  simp only [mem_mul, mem_opt, mem_literal]
  constructor
  · rintro ⟨_, ⟨s, rfl | rfl, _, rfl, rfl⟩, rfl⟩
    · exact ⟨true, rfl⟩
    · exact ⟨false, rfl⟩
  · rintro ⟨https, rfl⟩
    cases https with
    | true => exact ⟨ascii "s://", ⟨ascii "s", .inl rfl, ascii "://", rfl, rfl⟩, rfl⟩
    | false => exact ⟨ascii "://", ⟨[], .inr rfl, ascii "://", rfl, rfl⟩, rfl⟩

theorem mem_hostGroup : v ∈ hostGroup.expr.matches' ↔ v ≠ [] ∧ ∀ c ∈ v, isHostChar c = true := by
  simp only [hostGroup, ofClass, mem_oneOrMore_oneOf, mem_ofClass]

theorem mem_portGroup : v ∈ portGroup.expr.matches' ↔
    ∃ digits, digits ≠ [] ∧ (∀ c ∈ digits, isDigit c = true) ∧ v = 58 :: digits := by
  simp only [portGroup, ofClass, mem_literal_mul, mem_oneOrMore_oneOf, mem_ofClass, and_assoc]
  exact Iff.rfl

theorem mem_pathGroup : v ∈ pathGroup.expr.matches' ↔ ascii "/ann" <+: v ∧ 63 ∉ v := by
  simp only [pathGroup, ofClass, mem_literal_mul, mem_star_oneOf, mem_ofClass, bne_iff_ne]
  have hann : 63 ∉ ascii "/ann" := by decide
  constructor
  · rintro ⟨rest, hrest, rfl⟩
    refine ⟨List.prefix_append _ _, fun hmem => ?_⟩
    exact (List.mem_append.mp hmem).elim hann fun h => hrest 63 h rfl
  · rintro ⟨⟨rest, rfl⟩, hno⟩
    refine ⟨rest, fun c hc heq => ?_, rfl⟩
    exact hno (List.mem_append_right _ (heq ▸ hc))

theorem mem_passkeyGroup : v ∈ passkeyGroup.expr.matches' ↔
    ∃ key, (10 ∉ key ∧ 13 ∉ key) ∧ v = ascii "?passkey=" ++ key := by
  simp only [passkeyGroup, ofClass, mem_literal_mul, mem_star_oneOf, mem_ofClass,
    Bool.and_eq_true, bne_iff_ne]
  refine exists_congr fun key => and_congr_left fun _ => ?_
  constructor
  · intro h
    exact ⟨fun h10 => (h 10 h10).1 rfl, fun h13 => (h 13 h13).2 rfl⟩
  · rintro ⟨h10, h13⟩ c hc
    exact ⟨fun heq => h10 (heq ▸ hc), fun heq => h13 (heq ▸ hc)⟩

/-- The last two groups. -/
theorem matches_path : Matches [pathGroup, passkeyGroup] v subs ↔
    ∃ announcePath passkey, (ascii "/ann" <+: announcePath ∧ 63 ∉ announcePath) ∧
      (∀ key, passkey = some key → 10 ∉ key ∧ 13 ∉ key) ∧
      v = announcePath ++ (passkey.map (ascii "?passkey=" ++ ·)).getD [] ∧
      subs = [some announcePath, passkey.map (ascii "?passkey=" ++ ·)] := by
  simp only [matches_cons (g := pathGroup) rfl, matches_optional (g := passkeyGroup) rfl,
    mem_pathGroup, mem_passkeyGroup]
  constructor
  · rintro ⟨path, hpath, rest, subs', ⟨rfl, rfl⟩ | ⟨⟨key, hkey, rfl⟩, rfl⟩, rfl, rfl⟩
    · exact ⟨path, none, hpath, of_none_eq_some, rfl, rfl⟩
    · refine ⟨path, some key, hpath, ?_, rfl, rfl⟩
      rintro _ ⟨⟩
      exact hkey
  · rintro ⟨path, passkey, hpath, hkeys, rfl, rfl⟩
    cases passkey with
    | none => exact ⟨path, hpath, [], [none], .inl ⟨rfl, rfl⟩, rfl, rfl⟩
    | some key =>
      exact ⟨path, hpath, ascii "?passkey=" ++ key, _, .inr ⟨⟨key, hkeys key rfl, rfl⟩, rfl⟩,
        rfl, rfl⟩

/-! ## The strings of the patterns -/

/-- The submatch of the last group. -/
def AnnounceUrl.passkeySub (u : AnnounceUrl) : Option (List Byte) :=
  u.passkey.map (ascii "?passkey=" ++ ·)

theorem AnnounceUrl.submatch_passkeySub (u : AnnounceUrl) :
    submatch u.passkeySub = u.passkeyPart := by
  unfold AnnounceUrl.passkeySub AnnounceUrl.passkeyPart
  cases u.passkey with
  | none => rfl
  | some key => rfl

theorem withPort_iff : Matches httpOrHttpsWithPort url subs ↔
    ∃ (u : AnnounceUrl) (digits : List Byte), u.port = some digits ∧ u.text = url ∧
      subs = [some u.protocol, some u.host, some (58 :: digits), some u.announcePath,
        u.passkeySub] := by
  unfold httpOrHttpsWithPort
  simp only [matches_cons (g := protocolGroup) rfl, matches_cons (g := hostGroup) rfl,
    matches_cons (g := portGroup) rfl, matches_path, mem_protocolGroup, mem_hostGroup,
    mem_portGroup]
  constructor
  · rintro ⟨_, ⟨https, rfl⟩, _, _, ⟨host, ⟨hne, hhost⟩, _, _, ⟨_, ⟨digits, hdigits, hall, rfl⟩, _, _,
      ⟨path, passkey, hpath, hkey, rfl, rfl⟩, rfl, rfl⟩, rfl, rfl⟩, rfl, rfl⟩
    refine ⟨⟨https, host, some digits, path, passkey, hne, hhost, ?_, ?_, hpath.1, hpath.2, hkey⟩,
      digits, rfl, ?_, rfl⟩
    · rintro _ ⟨⟩
      exact hdigits
    · rintro _ ⟨⟩
      exact hall
    · cases passkey with
      | none => rfl
      | some key => rfl
  · rintro ⟨u, digits, hport, rfl, rfl⟩
    refine ⟨u.protocol, ⟨u.https, rfl⟩, _, _, ⟨u.host, ⟨u.host_ne, u.host_chars⟩, _, _,
      ⟨58 :: digits, ⟨digits, u.port_ne digits hport, u.port_digits digits hport, rfl⟩, _, _,
      ⟨u.announcePath, u.passkey, ⟨u.path_prefix, u.path_chars⟩, u.passkey_chars, rfl, rfl⟩,
      rfl, rfl⟩, rfl, rfl⟩, ?_, rfl⟩
    rw [AnnounceUrl.text, AnnounceUrl.portPart, hport, ← u.submatch_passkeySub]
    rfl

theorem withoutPort_iff : Matches httpOrHttpsWithoutPort url subs ↔
    ∃ u : AnnounceUrl, u.port = none ∧ u.text = url ∧
      subs = [some u.protocol, some u.host, some u.announcePath, u.passkeySub] := by
  unfold httpOrHttpsWithoutPort
  simp only [matches_cons (g := protocolGroup) rfl, matches_cons (g := hostGroup) rfl,
    matches_path, mem_protocolGroup, mem_hostGroup]
  constructor
  · rintro ⟨_, ⟨https, rfl⟩, _, _, ⟨host, ⟨hne, hhost⟩, _, _,
      ⟨path, passkey, hpath, hkey, rfl, rfl⟩, rfl, rfl⟩, rfl, rfl⟩
    refine ⟨⟨https, host, none, path, passkey, hne, hhost, of_none_eq_some, of_none_eq_some,
      hpath.1, hpath.2, hkey⟩, rfl, ?_, rfl⟩
    cases passkey with
    | none => rfl
    | some key => rfl
  · rintro ⟨u, hport, rfl, rfl⟩
    refine ⟨u.protocol, ⟨u.https, rfl⟩, _, _, ⟨u.host, ⟨u.host_ne, u.host_chars⟩, _, _,
      ⟨u.announcePath, u.passkey, ⟨u.path_prefix, u.path_chars⟩, u.passkey_chars, rfl, rfl⟩,
      rfl, rfl⟩, ?_, rfl⟩
    rw [AnnounceUrl.text, AnnounceUrl.portPart, hport, ← u.submatch_passkeySub]
    rfl

/-- A URL has a port or it has none. -/
theorem AnnounceUrl.isSome_port_eq {u u' : AnnounceUrl} (h : u.text = u'.text) :
    u.port.isSome = u'.port.isSome := by
  have hmatch := matchWithPort_text u
  rw [h, matchWithPort_text u'] at hmatch
  cases hport : u.port.isSome <;> cases hport' : u'.port.isSome <;> simp_all

/-- At most one of the patterns matches. -/
theorem not_matches_both : ¬ ((∃ subs, Matches httpOrHttpsWithPort url subs) ∧
    ∃ subs, Matches httpOrHttpsWithoutPort url subs) := by
  rintro ⟨⟨_, hwith⟩, _, hwithout⟩
  obtain ⟨u, digits, hport, rfl, -⟩ := withPort_iff.mp hwith
  obtain ⟨u', hport', htext, -⟩ := withoutPort_iff.mp hwithout
  have heq := AnnounceUrl.isSome_port_eq htext
  rw [hport, hport'] at heq
  exact absurd heq Bool.false_ne_true

/-- `parseTrackerUrl` copies the submatches of the pattern that matches. -/
theorem parses_iff {urlMeta : UrlMeta} : Parses url urlMeta ↔ urlMeta = parseTrackerUrl url := by
  constructor
  · intro h
    cases h with
    | withPort _ _ _ _ _ h =>
      obtain ⟨u, digits, hport, rfl, hsubs⟩ := withPort_iff.mp h
      obtain ⟨rfl, rfl, rfl, rfl, rfl⟩ : _ ∧ _ ∧ _ ∧ _ ∧ _ := by simpa using hsubs
      rw [parseTrackerUrl_text, AnnounceUrl.urlMeta, hport, u.submatch_passkeySub]
      rfl
    | withoutPort _ _ _ _ _ h =>
      obtain ⟨u, hport, rfl, hsubs⟩ := withoutPort_iff.mp h
      obtain ⟨rfl, rfl, rfl, rfl⟩ : _ ∧ _ ∧ _ ∧ _ := by simpa using hsubs
      rw [parseTrackerUrl_text, AnnounceUrl.urlMeta, hport, u.submatch_passkeySub]
      rfl
    | none hno hno' =>
      refine (parseTrackerUrl_eq_empty ?_).symm
      rintro ⟨u, htext⟩
      cases hport : u.port with
      | none => exact hno' _ (withoutPort_iff.mpr ⟨u, hport, htext, rfl⟩)
      | some digits => exact hno _ (withPort_iff.mpr ⟨u, digits, hport, htext, rfl⟩)
  · rintro rfl
    by_cases hform : ∃ u : AnnounceUrl, u.text = url
    · obtain ⟨u, rfl⟩ := hform
      rw [parseTrackerUrl_text, AnnounceUrl.urlMeta, ← u.submatch_passkeySub]
      cases hport : u.port with
      | none =>
        have h := withoutPort_iff.mpr ⟨u, hport, rfl, rfl⟩
        exact .withoutPort _ _ _ _ (fun subs hwith => not_matches_both ⟨⟨subs, hwith⟩, _, h⟩) h
      | some digits => exact .withPort _ _ _ _ _ (withPort_iff.mpr ⟨u, digits, hport, rfl, rfl⟩)
    · rw [parseTrackerUrl_eq_empty hform]
      refine .none (fun subs h => ?_) fun subs h => ?_
      · obtain ⟨u, _, -, htext, -⟩ := withPort_iff.mp h
        exact hform ⟨u, htext⟩
      · obtain ⟨u, -, htext, -⟩ := withoutPort_iff.mp h
        exact hform ⟨u, htext⟩

/-! ## Putting the parts together again -/

/-- A leading `&` turned back into `?`. -/
def restoreQuestion : List Byte → List Byte
  | c :: rest => (if c = 38 then 63 else c) :: rest
  | [] => []

/-- The parts one behind the other, with or without the port. -/
def UrlMeta.text (urlMeta : UrlMeta) (hasPort : Bool) : List Byte :=
  urlMeta.protocol ++ (urlMeta.host ++ ((if hasPort then 58 :: urlMeta.port else []) ++
    (urlMeta.announcePath ++ restoreQuestion urlMeta.passKeyParam)))

/-- `parseTrackerUrl` accepts the URL when it has the form, one of the patterns matches at
    most, and the parts of an accepted URL put together again are the URL. -/
structure ParsedExactly (url : List Byte) : Prop where
  accepted : (parseTrackerUrl url).host ≠ [] ↔ ∃ u : AnnounceUrl, u.text = url
  exclusive : ¬ ((∃ subs, Matches httpOrHttpsWithPort url subs) ∧
    ∃ subs, Matches httpOrHttpsWithoutPort url subs)
  lossless : (parseTrackerUrl url).host ≠ [] → ∀ u : AnnounceUrl, u.text = url →
    (parseTrackerUrl url).text u.port.isSome = url

theorem replaceQuestion_eq_self {s : List Byte} : replaceQuestion s = s ↔ 63 ∉ s := by
  induction s with
  | nil => exact iff_of_true rfl List.not_mem_nil
  | cons c s ih =>
    show (if c = 63 then 38 else c) :: replaceQuestion s = c :: s ↔ _
    rw [List.cons_eq_cons, ih, List.mem_cons, not_or]
    refine and_congr_left fun _ => ?_
    split_ifs with hc
    · exact iff_of_false (fun h => absurd (h.trans hc) (by decide)) fun h => h hc.symm
    · exact iff_of_true rfl (Ne.symm hc)

/-- The first `?` comes back, those in the passkey do not. -/
theorem restoreQuestion_iff (u : AnnounceUrl) :
    restoreQuestion (replaceQuestion u.passkeyPart) = u.passkeyPart ↔
      ∀ key, u.passkey = some key → 63 ∉ key := by
  unfold AnnounceUrl.passkeyPart
  cases u.passkey with
  | none => exact iff_of_true rfl of_none_eq_some
  | some key =>
    have hpart : restoreQuestion (replaceQuestion (ascii "?passkey=" ++ key)) =
        ascii "?passkey=" ++ replaceQuestion key := by
      unfold replaceQuestion
      rw [List.map_append]
      rfl
    show restoreQuestion (replaceQuestion (ascii "?passkey=" ++ key)) = _ ↔ _
    rw [hpart, List.append_right_inj, replaceQuestion_eq_self]
    constructor
    · rintro h _ ⟨⟩
      exact h
    · intro h
      exact h key rfl

theorem text_urlMeta_iff (u : AnnounceUrl) : u.urlMeta.text u.port.isSome = u.text ↔
    ∀ key, u.passkey = some key → 63 ∉ key := by
  have hport : (if u.port.isSome then 58 :: u.urlMeta.port else []) = u.portPart := by
    unfold AnnounceUrl.portPart AnnounceUrl.urlMeta
    cases u.port with
    | none => rfl
    | some digits => rfl
  rw [← restoreQuestion_iff, UrlMeta.text, AnnounceUrl.text, hport]
  show u.protocol ++ (u.host ++ (u.portPart ++ (u.announcePath ++ _))) = _ ↔ _
  rw [List.append_right_inj, List.append_right_inj, List.append_right_inj, List.append_right_inj]
  rfl

/-- A URL is parsed exactly unless its passkey has a question mark. -/
theorem parsedExactly_iff (url : List Byte) : ParsedExactly url ↔
    ∀ u : AnnounceUrl, u.text = url → ∀ key, u.passkey = some key → 63 ∉ key := by
  have haccepted : (parseTrackerUrl url).host ≠ [] ↔ ∃ u : AnnounceUrl, u.text = url := by
    constructor
    · exact exists_announceUrl
    · rintro ⟨u, rfl⟩
      rw [parseTrackerUrl_text]
      exact u.host_ne
  constructor
  · rintro h u rfl
    have hlossless := h.lossless (haccepted.mpr ⟨u, rfl⟩) u rfl
    rw [parseTrackerUrl_text] at hlossless
    exact (text_urlMeta_iff u).mp hlossless
  · intro h
    refine ⟨haccepted, not_matches_both, ?_⟩
    rintro - u rfl
    rw [parseTrackerUrl_text]
    exact (text_urlMeta_iff u).mpr (h u rfl)

/-- The question mark in the passkey does not come back. -/
theorem parsedExactly_fails : ¬ ParsedExactly (ascii "http://t/announce?passkey=a?b") := by
  intro h
  have hhost : (parseTrackerUrl (ascii "http://t/announce?passkey=a?b")).host ≠ [] := by
    decide +kernel
  obtain ⟨u, hu⟩ := h.accepted.mp hhost
  have hlossless := h.lossless hhost u hu
  cases hport : u.port.isSome with
  | false =>
    rw [hport] at hlossless
    exact absurd hlossless (by decide +kernel)
  | true =>
    rw [hport] at hlossless
    exact absurd hlossless (by decide +kernel)

end YTorrent
