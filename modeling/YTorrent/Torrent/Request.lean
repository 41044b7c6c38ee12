import YTorrent.Torrent.Tracker

/-!
# The announce request

What a server reads in the request: the target of the GET line (`requestTarget`),
cut at `?` into the path and the query, the query cut at `&` into parameters,
names and values percent-decoded (`splitTarget`).

* `request_iff`: the server reads what the query means exactly when the announce
  URL has no passkey and its path has neither a space nor a line end.
* `request_fails`: an announce URL with a passkey.
-/

namespace YTorrent

/-! ## The reading of a request -/

/-- The bytes up to the first line end. -/
def firstLine : List Byte → List Byte
  | [] => []
  | c :: rest => if c = 13 ∧ rest.head? = some 10 then [] else c :: firstLine rest

/-- The second of the three words of the request line. -/
def requestTarget (request : List Byte) : Option (List Byte) :=
  match (firstLine request).splitOn 32 with
  | [_, target, _] => some target
  | _ => none

/-- The bytes before the first `c`, and those behind it. -/
def splitFirst (c : Byte) (s : List Byte) : List Byte × List Byte :=
  (s.takeWhile (· != c), (s.dropWhile (· != c)).drop 1)

/-- The name and the value of a parameter. -/
def splitParam (param : List Byte) : List Byte × List Byte :=
  (percentDecode (splitFirst 61 param).1, percentDecode (splitFirst 61 param).2)

/-- The path and the parameters of a request target. -/
def splitTarget (target : List Byte) : List Byte × List (List Byte × List Byte) :=
  ((splitFirst 63 target).1, ((splitFirst 63 target).2.splitOn 38).map splitParam)

/-- What a server reads in the request. -/
def readRequest (request : List Byte) : Option (List Byte × List (List Byte × List Byte)) :=
  (requestTarget request).map splitTarget

/-! ## The meaning of a query -/

/-- The parameter of an event. -/
def TrackerEvent.meaning : TrackerEvent → List (List Byte × List Byte)
  | none => []
  | completed => [(ascii "event", ascii "completed")]
  | stopped => [(ascii "event", ascii "stopped")]
  | started => [(ascii "event", ascii "started")]

/-- The parameters of a query in which `compact` has the given value. -/
def TrackerQuery.params (r : TrackerQuery) (infoHash peerId : List Byte) (port : ℕ)
    (compact : List Byte) : List (List Byte × List Byte) :=
  r.event.meaning ++
    [(ascii "info_hash", infoHash), (ascii "peer_id", peerId), (ascii "port", decimal port),
      (ascii "uploaded", decimal r.uploaded), (ascii "downloaded", decimal r.downloaded),
      (ascii "left", decimal r.remaining), (ascii "compact", compact)]

/-- What the announce is to say: the path of the announce URL and the parameters, with
    the passkey of the URL, if it has one, last. -/
def AnnounceUrl.meaning (u : AnnounceUrl) (infoHash peerId : List Byte) (port : ℕ)
    (r : TrackerQuery) : List Byte × List (List Byte × List Byte) :=
  (u.announcePath, r.params infoHash peerId port (ascii "1") ++
    match u.passkey with
    | none => []
    | some key => [(ascii "passkey", key)])

variable {l rest v : List Byte} {c : Byte}

/-! ## Lines and words -/

/-- A text without a line end, which does not end in one half of one. -/
theorem firstLine_append (h : ¬ crlf <:+: l) (hrest : 13 ∈ l → rest.head? ≠ some 10) :
    firstLine (l ++ rest) = l ++ firstLine rest := by
  induction l with
  | nil => rfl
  | cons c l ih =>
    have hl : ¬ crlf <:+: l := fun hin => h (hin.trans (List.infix_cons (List.infix_refl l)))
    have hc : ¬ (c = 13 ∧ (l ++ rest).head? = some 10) := by
      rintro ⟨rfl, hhead⟩
      match l with
      | [] => exact hrest List.mem_cons_self hhead
      | d :: l =>
        obtain rfl := Option.some.inj hhead
        exact h ⟨[], l, rfl⟩
    have hmem : 13 ∈ l → rest.head? ≠ some 10 := fun h13 => hrest (List.mem_cons_of_mem c h13)
    rw [List.cons_append, firstLine, if_neg hc, ih hl hmem, List.cons_append]

theorem firstLine_append_of_not_mem (h : 13 ∉ l) : firstLine (l ++ rest) = l ++ firstLine rest :=
  firstLine_append (fun hin => h (hin.subset List.mem_cons_self)) fun hmem => absurd hmem h

theorem firstLine_crlf (rest : List Byte) : firstLine (13 :: 10 :: rest) = [] := rfl

theorem length_firstLine_le (l rest : List Byte) :
    (firstLine (l ++ 13 :: 10 :: rest)).length ≤ l.length := by
  induction l with
  | nil => simp [firstLine]
  | cons c l ih =>
    rw [List.cons_append, firstLine]
    split
    · exact Nat.zero_le _
    · exact Nat.succ_le_succ ih

theorem splitFirst_append (h : c ∉ l) : splitFirst c (l ++ c :: rest) = (l, rest) := by
  have hne : ∀ x ∈ l, (x != c) = true := fun x hx => bne_iff_ne.mpr fun heq => h (heq ▸ hx)
  unfold splitFirst
  rw [takeWhile_append_cons hne (by simp), dropWhile_append_cons hne (by simp)]
  rfl

theorem length_splitFirst_le (c : Byte) (l : List Byte) : (splitFirst c l).1.length ≤ l.length :=
  (List.takeWhile_prefix _).length_le

/-! ## The query -/

/-- A parameter as it is written. -/
def paramText (p : List Byte × List Byte) : List Byte := p.1 ++ 61 :: p.2

/-- The parameters as `httpRequest` writes them. -/
def writtenParams (r : TrackerQuery) (infoHash peerId : List Byte) (port : ℕ)
    (passKeyParam : List Byte) : List (List Byte × List Byte) :=
  r.params (urlEncode infoHash) (urlEncode peerId) port (ascii "1" ++ urlEncode passKeyParam)

/-- The text between `?` and the space before the version. -/
def queryText (r : TrackerQuery) (infoHash peerId : List Byte) (port : ℕ)
    (passKeyParam : List Byte) : List Byte :=
  [38].intercalate ((writtenParams r infoHash peerId port passKeyParam).map paramText)

theorem request_eq (tr : Tracker) (handshake peerId : List Byte) (r : TrackerQuery) :
    ∃ headers, tr.request handshake peerId r =
      ascii "GET " ++ (tr.urlMeta.announcePath ++ 63 ::
        (queryText r ((handshake.drop 28).take 20) (peerId.take 20) tr.myPort
          tr.urlMeta.passKeyParam ++ 32 :: (ascii "HTTP/1.0" ++ 13 :: 10 :: headers))) := by
  refine ⟨ascii "Host: " ++ tr.urlMeta.host ++ ascii "\r\n" ++
    ascii "User-Agent: YtoRRenT" ++ ascii "\r\n" ++ ascii "Connection: close" ++ ascii "\r\n" ++
    ascii "\r\n", ?_⟩
  have hq : ascii "?" = [63] := rfl
  have hhash : ascii "info_hash=" = ascii "info_hash" ++ [61] := rfl
  have hpeer : ascii "&peer_id=" = 38 :: (ascii "peer_id" ++ [61]) := rfl
  have hport : ascii "&port=" = 38 :: (ascii "port" ++ [61]) := rfl
  have hup : ascii "&uploaded=" = 38 :: (ascii "uploaded" ++ [61]) := rfl
  have hdown : ascii "&downloaded=" = 38 :: (ascii "downloaded" ++ [61]) := rfl
  have hleft : ascii "&left=" = 38 :: (ascii "left" ++ [61]) := rfl
  have hcompact : ascii "&compact=1" = 38 :: (ascii "compact" ++ 61 :: ascii "1") := rfl
  have hversion : ascii " HTTP/1.0\r\n" = 32 :: (ascii "HTTP/1.0" ++ [13, 10]) := rfl
  have hevent : r.event.param = (r.event.meaning.map fun p => paramText p ++ [38]).flatten := by
    cases r.event <;> rfl
  unfold Tracker.request queryText writtenParams TrackerQuery.params
  rw [hq, hhash, hpeer, hport, hup, hdown, hleft, hcompact, hversion, hevent]
  cases r.event <;> simp [TrackerEvent.meaning, List.intercalate, paramText]

section

variable {r : TrackerQuery} {infoHash peerId passKeyParam : List Byte} {port : ℕ}

/-- The event parameter is made of unreserved characters. -/
theorem meaning_chars (event : TrackerEvent) : ∀ p ∈ event.meaning,
    (∀ c ∈ p.1, isUnreserved c = true) ∧ ∀ c ∈ p.2, isUnreserved c = true := by
  have hall : event.meaning.all (fun p => p.1.all isUnreserved && p.2.all isUnreserved) = true := by
    cases event <;> decide +kernel
  intro p hp
  have hp := List.all_eq_true.mp hall p hp
  rw [Bool.and_eq_true, List.all_eq_true, List.all_eq_true] at hp
  exact hp

/-- Names are unreserved characters, values these and escapes. -/
theorem written_chars : ∀ p ∈ writtenParams r infoHash peerId port passKeyParam,
    (∀ c ∈ p.1, isUnreserved c = true) ∧ ∀ c ∈ p.2, isUnreserved c = true ∨ c = 37 := by
  intro p hp
  rcases List.mem_append.mp hp with hp | hp
  · obtain ⟨hname, hvalue⟩ := meaning_chars r.event p hp
    exact ⟨hname, fun c hc => .inl (hvalue c hc)⟩
  · have hdec : ∀ {n : ℕ}, ∀ c ∈ decimal n, isUnreserved c = true ∨ c = 37 :=
      fun c hc => .inl (isUnreserved_of_mem_decimal hc)
    have hnames : [ascii "info_hash", ascii "peer_id", ascii "port", ascii "uploaded",
        ascii "downloaded", ascii "left", ascii "compact"].all (·.all isUnreserved) = true := by
      decide +kernel
    have hname : ∀ name ∈ [ascii "info_hash", ascii "peer_id", ascii "port", ascii "uploaded",
        ascii "downloaded", ascii "left", ascii "compact"], ∀ c ∈ name, isUnreserved c = true :=
      fun name h => List.all_eq_true.mp (List.all_eq_true.mp hnames name h)
    simp only [List.mem_cons, List.not_mem_nil, or_false] at hp
    rcases hp with rfl | rfl | rfl | rfl | rfl | rfl | rfl
    · exact ⟨hname _ (by simp), fun c hc => mem_urlEncode hc⟩
    · exact ⟨hname _ (by simp), fun c hc => mem_urlEncode hc⟩
    · exact ⟨hname _ (by simp), hdec⟩
    · exact ⟨hname _ (by simp), hdec⟩
    · exact ⟨hname _ (by simp), hdec⟩
    · exact ⟨hname _ (by simp), hdec⟩
    · refine ⟨hname _ (by simp), fun c hc => ?_⟩
      rcases List.mem_append.mp hc with hc | hc
      · rw [List.mem_singleton.mp hc]
        exact .inl (by decide +kernel)
      · exact mem_urlEncode hc

/-- A parameter is read back up to the escapes in its value. -/
theorem splitParam_paramText {p : List Byte × List Byte} (h : ∀ c ∈ p.1, isUnreserved c = true) :
    splitParam (paramText p) = (p.1, percentDecode p.2) := by
  have hname : 61 ∉ p.1 := by
    intro hmem
    have hno := h 61 hmem
    revert hno
    decide
  rw [splitParam, paramText, splitFirst_append hname, percentDecode_of_isUnreserved h]

/-- Decoding the values gives back what was encoded. -/
theorem written_decoded :
    ((writtenParams r infoHash peerId port passKeyParam).map fun p => (p.1, percentDecode p.2)) =
      r.params infoHash peerId port (ascii "1" ++ passKeyParam) := by
  have hdec : ∀ n, percentDecode (decimal n) = decimal n :=
    fun n => percentDecode_of_isUnreserved fun c hc => isUnreserved_of_mem_decimal hc
  have hone : percentDecode (ascii "1" ++ urlEncode passKeyParam) = ascii "1" ++ passKeyParam := by
    rw [percentDecode_append (by decide +kernel), percentDecode_urlEncode]
  have hevent : r.event.meaning.map (fun p => (p.1, percentDecode p.2)) = r.event.meaning := by
    refine (List.map_congr_left fun p hp => ?_).trans (List.map_id _)
    rw [percentDecode_of_isUnreserved (meaning_chars r.event p hp).2]
    rfl
  simp only [writtenParams, TrackerQuery.params, List.map_append, hevent, List.map_cons,
    List.map_nil, percentDecode_urlEncode, hdec, hone]

theorem mem_paramText {p : List Byte × List Byte}
    (hp : p ∈ writtenParams r infoHash peerId port passKeyParam) (hc : c ∈ paramText p) :
    isUnreserved c = true ∨ c = 37 ∨ c = 61 := by
  obtain ⟨hname, hvalue⟩ := written_chars p hp
  rcases List.mem_append.mp hc with hc | hc
  · exact .inl (hname c hc)
  · rcases List.mem_cons.mp hc with rfl | hc
    · exact .inr (.inr rfl)
    · exact (hvalue c hc).imp_right .inl

/-- The query is read back. -/
theorem splitOn_queryText :
    ((queryText r infoHash peerId port passKeyParam).splitOn 38).map splitParam =
      r.params infoHash peerId port (ascii "1" ++ passKeyParam) := by
  have hamp : ∀ t ∈ (writtenParams r infoHash peerId port passKeyParam).map paramText, 38 ∉ t := by
    rintro _ hmem h38
    obtain ⟨p, hp, rfl⟩ := List.mem_map.mp hmem
    rcases mem_paramText hp h38 with h | h | h
    · revert h
      decide
    · cases h
    · cases h
  have hne : (writtenParams r infoHash peerId port passKeyParam).map paramText ≠ [] := by
    simp [writtenParams, TrackerQuery.params]
  rw [queryText, List.splitOn_intercalate 38 hamp hne, List.map_map, ← written_decoded]
  refine List.map_congr_left fun p hp => ?_
  exact splitParam_paramText (written_chars p hp).1

theorem mem_intercalate {c z : Byte} {ls : List (List Byte)} (h : c ∈ [z].intercalate ls) :
    c = z ∨ ∃ l ∈ ls, c ∈ l := by
  induction ls with
  | nil => cases h
  | cons l ls ih =>
    match ls with
    | [] =>
      rw [List.intercalate_singleton] at h
      exact .inr ⟨l, List.mem_cons_self, h⟩
    | l' :: ls =>
      rw [List.intercalate_cons_cons, List.append_assoc, List.mem_append, List.mem_append,
        List.mem_singleton] at h
      rcases h with h | h | h
      · exact .inr ⟨l, List.mem_cons_self, h⟩
      · exact .inl h
      · rcases ih h with h | ⟨t, ht, hc⟩
        · exact .inl h
        · exact .inr ⟨t, List.mem_cons_of_mem l ht, hc⟩

/-- The query has no space, no line end and no `?`. -/
theorem not_mem_queryText {z : Byte}
    (hz : isUnreserved z = false ∧ z ≠ 37 ∧ z ≠ 61 ∧ z ≠ 38) :
    z ∉ queryText r infoHash peerId port passKeyParam := by
  intro hmem
  rcases mem_intercalate hmem with h | ⟨t, ht, hc⟩
  · exact hz.2.2.2 h
  · obtain ⟨p, hp, rfl⟩ := List.mem_map.mp ht
    rcases mem_paramText hp hc with h | h | h
    · rw [hz.1] at h
      cases h
    · exact hz.2.1 h
    · exact hz.2.2.1 h

end

/-! ## The request line -/

section

variable {path query headers : List Byte}

/-- The line is the whole request line when the path has no line end. -/
theorem firstLine_request (hpath : ¬ crlf <:+: path) (hquery : 13 ∉ query) :
    firstLine (ascii "GET " ++ (path ++ 63 ::
      (query ++ 32 :: (ascii "HTTP/1.0" ++ 13 :: 10 :: headers)))) =
        ascii "GET " ++ (path ++ 63 :: (query ++ 32 :: ascii "HTTP/1.0")) := by
  have hget : 13 ∉ ascii "GET " := by decide +kernel
  have hversion : 13 ∉ ascii "HTTP/1.0" := by decide +kernel
  have hrest : 13 ∉ 63 :: (query ++ 32 :: ascii "HTTP/1.0") := by simp [hquery, hversion]
  have hassoc : 63 :: (query ++ 32 :: (ascii "HTTP/1.0" ++ 13 :: 10 :: headers)) =
      63 :: (query ++ 32 :: ascii "HTTP/1.0") ++ 13 :: 10 :: headers := by simp
  rw [firstLine_append_of_not_mem hget, firstLine_append hpath (by simp), hassoc,
    firstLine_append_of_not_mem hrest, firstLine_crlf, List.append_nil]

/-- The words of the line when the path has no space. -/
theorem splitOn_line (hpath : 32 ∉ path) (hquery : 32 ∉ query) :
    (ascii "GET " ++ (path ++ 63 :: (query ++ 32 :: ascii "HTTP/1.0"))).splitOn 32 =
      [ascii "GET", path ++ 63 :: query, ascii "HTTP/1.0"] := by
  have hget : ascii "GET " ++ (path ++ 63 :: (query ++ 32 :: ascii "HTTP/1.0")) =
      ascii "GET" ++ 32 :: ((path ++ 63 :: query) ++ 32 :: ascii "HTTP/1.0") := by
    have hsp : ascii "GET " = ascii "GET" ++ [32] := rfl
    rw [hsp]
    simp
  have htarget : 32 ∉ path ++ 63 :: query := by
    simp [hpath, hquery]
  rw [hget, List.splitOn_append_cons_self_of_not_mem (by decide +kernel),
    List.splitOn_append_cons_self_of_not_mem htarget, List.splitOn_eq_singleton (by decide +kernel)]

theorem requestTarget_eq_some {request target : List Byte} :
    requestTarget request = some target ↔
      ∃ method version, (firstLine request).splitOn 32 = [method, target, version] := by
  unfold requestTarget
  split
  · rename_i method target' version hsplit
    rw [hsplit]
    constructor
    · rintro ⟨⟩
      exact ⟨method, version, rfl⟩
    · rintro ⟨_, _, ⟨⟩⟩
      rfl
  · rename_i hno
    constructor
    · rintro ⟨⟩
    · rintro ⟨method, version, hsplit⟩
      exact absurd hsplit (hno method target version)

/-- A path without spaces and line ends is read back with the query behind it. -/
theorem requestTarget_request (hcrlf : ¬ crlf <:+: path) (hspace : 32 ∉ path)
    (hquery : 13 ∉ query) (hquery' : 32 ∉ query) :
    requestTarget (ascii "GET " ++ (path ++ 63 ::
      (query ++ 32 :: (ascii "HTTP/1.0" ++ 13 :: 10 :: headers)))) =
        some (path ++ 63 :: query) := by
  rw [requestTarget_eq_some, firstLine_request hcrlf hquery, splitOn_line hspace hquery']
  exact ⟨_, _, rfl⟩

theorem length_splitOn_pos (c : Byte) (l : List Byte) : 0 < (l.splitOn c).length :=
  List.length_pos_iff.mpr (List.splitOn_ne_nil c l)

/-- Of a path with a line end, or with a space, a part at most is read. -/
theorem length_requestTarget_lt (hquery : 13 ∉ query) (hpath : crlf <:+: path ∨ 32 ∈ path)
    {target : List Byte} (h : requestTarget (ascii "GET " ++ (path ++ 63 ::
      (query ++ 32 :: (ascii "HTTP/1.0" ++ 13 :: 10 :: headers)))) = some target) :
    target.length < path.length := by
  have hget : ascii "GET " = ascii "GET" ++ [32] := rfl
  have hmethod : 32 ∉ ascii "GET" := by decide +kernel
  obtain ⟨method, version, hwords⟩ := requestTarget_eq_some.mp h
  by_cases hcrlf : crlf <:+: path
  · -- the line ends in the path, and its words are shorter than that
    obtain ⟨a, b, rfl⟩ := hcrlf
    generalize 63 :: (query ++ 32 :: (ascii "HTTP/1.0" ++ 13 :: 10 :: headers)) = tail at hwords
    have hline := length_firstLine_le a (b ++ tail)
    have hassoc : a ++ crlf ++ b ++ tail = a ++ 13 :: 10 :: (b ++ tail) := by
      simp [crlf]
    rw [hassoc, firstLine_append_of_not_mem (by decide +kernel), hget, List.append_assoc,
      List.singleton_append, List.splitOn_append_cons_self_of_not_mem hmethod] at hwords
    generalize firstLine _ = line at hline hwords
    have hsplit : line.splitOn 32 = [target, version] := (List.cons.inj hwords).2
    have hjoin : [32].intercalate [target, version] = line := by
      rw [← hsplit, List.intercalate_splitOn]
    have hlen : target.length ≤ line.length := by
      rw [← hjoin]
      simp [List.intercalate]
    simp only [List.length_append, crlf, List.length_cons]
    omega
  · -- the line has four words or more
    obtain ⟨a, b, rfl⟩ := List.append_of_mem (hpath.resolve_left hcrlf)
    rw [firstLine_request hcrlf hquery] at hwords
    have hassoc : ascii "GET " ++ (a ++ 32 :: b ++ 63 :: (query ++ 32 :: ascii "HTTP/1.0")) =
        ascii "GET" ++ 32 :: (a ++ 32 :: ((b ++ 63 :: query) ++ 32 :: ascii "HTTP/1.0")) := by
      rw [hget]
      simp
    rw [hassoc, List.splitOn_append_cons_self, List.splitOn_append_cons_self,
      List.splitOn_append_cons_self] at hwords
    have hlen := congrArg List.length hwords
    have h1 := length_splitOn_pos 32 (ascii "GET")
    have h2 := length_splitOn_pos 32 a
    have h3 := length_splitOn_pos 32 (b ++ 63 :: query)
    have h4 := length_splitOn_pos 32 (ascii "HTTP/1.0")
    simp only [List.length_append, List.length_cons, List.length_nil] at hlen
    omega

end

/-! ## The request as a whole -/

/-- A server reads the path if it has no space and no line end, and the parameters, with
    the passkey part of the URL behind the value of `compact`. -/
theorem readRequest_request (tr : Tracker) (handshake peerId : List Byte) (r : TrackerQuery)
    (hpath : 63 ∉ tr.urlMeta.announcePath) (params : List (List Byte × List Byte)) :
    readRequest (tr.request handshake peerId r) = some (tr.urlMeta.announcePath, params) ↔
      (32 ∉ tr.urlMeta.announcePath ∧ ¬ crlf <:+: tr.urlMeta.announcePath) ∧
        params = r.params ((handshake.drop 28).take 20) (peerId.take 20) tr.myPort
          (ascii "1" ++ tr.urlMeta.passKeyParam) := by
  obtain ⟨headers, hreq⟩ := request_eq tr handshake peerId r
  generalize htext : queryText r ((handshake.drop 28).take 20) (peerId.take 20) tr.myPort
    tr.urlMeta.passKeyParam = query at hreq
  have h13 : 13 ∉ query := htext ▸ not_mem_queryText (by decide)
  have h32 : 32 ∉ query := htext ▸ not_mem_queryText (by decide)
  have hparams : (query.splitOn 38).map splitParam =
      r.params ((handshake.drop 28).take 20) (peerId.take 20) tr.myPort
        (ascii "1" ++ tr.urlMeta.passKeyParam) := htext ▸ splitOn_queryText
  by_cases hclean : 32 ∉ tr.urlMeta.announcePath ∧ ¬ crlf <:+: tr.urlMeta.announcePath
  · have htarget : requestTarget (tr.request handshake peerId r) =
        some (tr.urlMeta.announcePath ++ 63 :: query) := by
      rw [hreq]
      exact requestTarget_request hclean.2 hclean.1 h13 h32
    have hread : readRequest (tr.request handshake peerId r) =
        some (tr.urlMeta.announcePath, (query.splitOn 38).map splitParam) := by
      rw [readRequest, htarget, Option.map_some, splitTarget, splitFirst_append hpath]
    rw [hread, hparams, Option.some.injEq, Prod.mk.injEq]
    simp only [hclean, true_and, and_self, not_false_eq_true]
    exact eq_comm
  · refine iff_of_false (fun hread => ?_) fun h => hclean h.1
    obtain ⟨target, htarget, hsplit⟩ := Option.map_eq_some_iff.mp hread
    have hdirty : crlf <:+: tr.urlMeta.announcePath ∨ 32 ∈ tr.urlMeta.announcePath := by
      by_contra hno
      rw [not_or] at hno
      exact hclean ⟨hno.2, hno.1⟩
    rw [hreq] at htarget
    have hlt := length_requestTarget_lt h13 hdirty htarget
    have hle := length_splitFirst_le 63 target
    have hfst : (splitFirst 63 target).1 = tr.urlMeta.announcePath := congrArg Prod.fst hsplit
    rw [hfst] at hle
    omega

/-- What is read is what is meant exactly when the URL has no passkey. -/
theorem meaning_iff (u : AnnounceUrl) (infoHash peerId : List Byte) (port : ℕ) (r : TrackerQuery) :
    (u.meaning infoHash peerId port r).2 =
      r.params infoHash peerId port (ascii "1" ++ u.urlMeta.passKeyParam) ↔ u.passkey = none := by
  unfold AnnounceUrl.meaning AnnounceUrl.urlMeta AnnounceUrl.passkeyPart
  cases u.passkey with
  | none =>
    refine iff_of_true ?_ rfl
    rw [List.append_nil]
    rfl
  | some key =>
    refine iff_of_false (fun heq => ?_) nofun
    have hlen := congrArg List.length heq
    simp [TrackerQuery.params] at hlen

/-- For every announce URL that is accepted: a server reads what the query means exactly
    when the URL has no passkey and its path has neither a space nor a line end. -/
theorem request_iff {url handshake infoHash peerId : List Byte} {tr : Tracker} {r : TrackerQuery}
    (hurl : (parseTrackerUrl url).host ≠ []) (hhash : (handshake.drop 28).take 20 = infoHash)
    (hpeer : peerId.length = 20) (htr : tr.urlMeta = parseTrackerUrl url) :
    ∃ u : AnnounceUrl, u.text = url ∧
      (readRequest (tr.request handshake peerId r) = some (u.meaning infoHash peerId tr.myPort r) ↔
        u.passkey = none ∧ 32 ∉ u.announcePath ∧ ¬ crlf <:+: u.announcePath) := by
  obtain ⟨u, rfl⟩ := exists_announceUrl hurl
  rw [parseTrackerUrl_text] at htr
  have hread := readRequest_request tr handshake peerId r (by rw [htr]; exact u.path_chars)
    (u.meaning infoHash peerId tr.myPort r).2
  rw [hhash, List.take_of_length_le hpeer.le, htr, meaning_iff] at hread
  exact ⟨u, rfl, hread.trans and_comm⟩

/-- The first announce for `"http://t/announce"`. -/
theorem request_announce : ∃ u : AnnounceUrl, u.text = ascii "http://t/announce" ∧
    (readRequest (Tracker.request
        { myPort := 6881, urlMeta := parseTrackerUrl (ascii "http://t/announce") }
        zeroHandshake (ascii "-YT00000000000000000") ⟨.started, 0, 0, 1⟩) =
      some (u.meaning (List.replicate 20 0) (ascii "-YT00000000000000000") 6881
        ⟨.started, 0, 0, 1⟩) ↔
      u.passkey = none ∧ 32 ∉ u.announcePath ∧ ¬ crlf <:+: u.announcePath) :=
  request_iff (by decide +kernel) (by decide +kernel) (by decide +kernel) rfl

/-! ## A passkey -/

/-- `"http://t/announce?passkey=A"`. -/
def passkeyUrl : AnnounceUrl where
  https := false
  host := ascii "t"
  port := none
  announcePath := ascii "/announce"
  passkey := some (ascii "A")
  host_ne := by decide +kernel
  host_chars := by decide +kernel
  port_ne := nofun
  port_digits := nofun
  path_prefix := by decide +kernel
  path_chars := by decide +kernel
  passkey_chars := by decide +kernel

/-- The passkey part is encoded as a whole, and becomes part of the value of `compact`. -/
theorem request_fails : ¬ ∀ (u : AnnounceUrl) (handshake infoHash peerId : List Byte)
    (tr : Tracker) (r : TrackerQuery),
      (handshake.drop 28).take 20 = infoHash → peerId.length = 20 →
      tr.urlMeta = parseTrackerUrl u.text → (∀ key, u.passkey = some key →
        ∀ c ∈ key, isUnreserved c = true ∨ c = 63) →
      readRequest (tr.request handshake peerId r) =
        some (u.meaning infoHash peerId tr.myPort r) := by
  intro hall
  have hkey : ∀ c ∈ ascii "A", isUnreserved c = true ∨ c = 63 := by decide +kernel
  have hpeer : (ascii "-YT00000000000000000").length = 20 := rfl
  have hread := hall passkeyUrl zeroHandshake _ (ascii "-YT00000000000000000")
    { myPort := 6881, urlMeta := parseTrackerUrl passkeyUrl.text } ⟨.started, 0, 0, 1⟩ rfl hpeer rfl
    (fun key hsome => Option.some.inj hsome ▸ hkey)
  rw [parseTrackerUrl_text] at hread
  have hparams : (passkeyUrl.meaning _ (ascii "-YT00000000000000000") 6881 ⟨.started, 0, 0, 1⟩).2 =
      TrackerQuery.params ⟨.started, 0, 0, 1⟩ _ ((ascii "-YT00000000000000000").take 20) 6881
        (ascii "1" ++ passkeyUrl.urlMeta.passKeyParam) :=
    ((readRequest_request _ _ _ _ passkeyUrl.path_chars _).mp hread).2
  rw [List.take_of_length_le hpeer.le] at hparams
  have hnone := (meaning_iff _ _ _ _ _).mp hparams
  cases hnone

end YTorrent
