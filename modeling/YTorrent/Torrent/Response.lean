import YTorrent.Torrent.Tracker

/-!
# The response of the tracker

`httpRequest` reads until the end of the header is in its buffer, closes the
socket and takes the rest of the buffer for the body. What follows in later
pieces of the stream is lost.

* `body_iff`: of a well-formed response the whole body is handed to
  `bencoding::decode` exactly when the header ends in the last piece.
* `body_fails`: a response of which the header and the body arrive one after the
  other.
-/

namespace YTorrent

open Segments

/-- A line without line ends. -/
def IsLine (l : List Byte) : Prop := 10 ∉ l ∧ 13 ∉ l

instance (l : List Byte) : Decidable (IsLine l) :=
  decidable_of_iff ((l.contains 10 || l.contains 13) = false) (by simp [IsLine])

/-- A response with status 200: the reason phrase, the header lines and the body. -/
structure Response where
  reason : List Byte
  headers : List (List Byte)
  body : List Byte
  reason_line : IsLine reason
  header_lines : ∀ l ∈ headers, l ≠ [] ∧ IsLine l

/-- Lines with their line ends, and an empty line. -/
def headerBlock (lines : List (List Byte)) : List Byte := lines.flatMap (· ++ crlf) ++ crlf

/-- The status line, the header lines and the empty line. -/
def Response.head (r : Response) : List Byte :=
  ascii "HTTP/1.0 200" ++ headerBlock ((32 :: r.reason) :: r.headers)

/-- The bytes of the response. -/
def Response.bytes (r : Response) : List Byte := r.head ++ r.body

/-- The pieces of a stream, as the socket reads return them. -/
structure Splits (segments : List (List Byte)) (bytes : List Byte) : Prop where
  flatten : segments.flatten = bytes
  pieces : [] ∉ segments

variable {l rest v : List Byte} {lines segments : List (List Byte)}

/-! ## The header -/

theorem headerBlock_cons (l : List Byte) (lines : List (List Byte)) :
    headerBlock (l :: lines) = l ++ 13 :: 10 :: headerBlock lines := by
  simp [headerBlock, crlf]

/-- A block of lines that are not empty starts with a line end only if there are none. -/
theorem headerBlock_prefix (h : ∀ l ∈ lines, l ≠ [] ∧ IsLine l) (hne : lines ≠ []) :
    ¬ [13, 10] <+: headerBlock lines := by
  match lines with
  | [] => exact absurd rfl hne
  | l :: lines =>
    obtain ⟨hl, -, h13⟩ := h l List.mem_cons_self
    match l with
    | [] => exact absurd rfl hl
    | c :: l =>
      rw [headerBlock_cons, List.cons_append, List.cons_prefix_cons]
      rintro ⟨rfl, -⟩
      exact h13 List.mem_cons_self

/-- The empty line is the first end of two lines. -/
theorem ends_headerBlock (h : ∀ l ∈ lines, l ≠ [] ∧ IsLine l) (hl : IsLine l) :
    Ends [13, 10, 13, 10] (headerBlock (l :: lines)) := by
  induction lines generalizing l with
  | nil =>
    have happ := Ends.append (x := [10, 13, 10]) hl.2
    simpa [headerBlock, crlf] using happ
  | cons l' lines ih =>
    obtain ⟨-, hl'⟩ := h l' List.mem_cons_self
    have hlines : ∀ l ∈ lines, l ≠ [] ∧ IsLine l := fun l hmem => h l (List.mem_cons_of_mem l' hmem)
    rw [headerBlock_cons]
    apply Ends.cons_line (by decide) hl.2 (ih hlines hl')
    exact headerBlock_prefix h (List.cons_ne_nil l' lines)

theorem skipHeader_line (hl : 10 ∉ l) (header rest : List Byte) :
    skipHeader header (l ++ 10 :: rest) =
      if header ++ l = [13] then some rest else skipHeader [] rest := by
  induction l generalizing header with
  | nil => simp [skipHeader]
  | cons c l ih =>
    rw [List.mem_cons, not_or] at hl
    obtain ⟨hc, hl⟩ := hl
    rw [List.cons_append, skipHeader, if_neg (Ne.symm hc), ih hl]
    simp

/-- The loop over the lines of the header stops behind the empty line. -/
theorem skipHeader_headerBlock (h : ∀ l ∈ lines, l ≠ [] ∧ IsLine l) (rest : List Byte) :
    skipHeader [] (headerBlock lines ++ rest) = some rest := by
  induction lines with
  | nil => rfl
  | cons l lines ih =>
    obtain ⟨hne, h10, -⟩ := h l List.mem_cons_self
    have h10' : 10 ∉ l ++ [13] := by simp [h10]
    have hline : l ++ [13] ≠ [13] := by simpa using hne
    have hsplit : headerBlock (l :: lines) ++ rest =
        (l ++ [13]) ++ 10 :: (headerBlock lines ++ rest) := by
      rw [headerBlock_cons]
      simp
    rw [hsplit, skipHeader_line h10', List.nil_append, if_neg hline]
    exact ih fun l' hmem => h l' (List.mem_cons_of_mem l hmem)

/-! ## The status line -/

/-- The status line. -/
def Response.statusLine (r : Response) : List Byte := ascii "HTTP/1.0 200 " ++ r.reason ++ crlf

theorem extractWord_status (rest : List Byte) :
    extractWord (ascii "HTTP/1.0 200 " ++ rest) = (ascii "HTTP/1.0", ascii " 200 " ++ rest) := rfl

theorem extractInt_status (rest : List Byte) :
    extractInt (ascii " 200 " ++ rest) = (200, 32 :: rest) := by
  have hspace : (ascii " 200 " ++ rest).dropWhile isSpace = ascii "200 " ++ rest := rfl
  have hsign : (ascii "200 " ++ rest).take 1 = ascii "2" := rfl
  have hdigits : (ascii "200 " ++ rest).takeWhile isDigit = ascii "200" := rfl
  have hrest : (ascii "200 " ++ rest).dropWhile isDigit = 32 :: rest := rfl
  have hvalue : digitsValue (ascii "200") = 200 := by decide
  have hplus : ascii "2" ≠ ascii "+" := by decide
  have hminus : ascii "2" ≠ ascii "-" := by decide
  simp only [extractInt, hspace, hsign, hplus, hminus, or_self, if_false, hdigits, hrest, hvalue]
  rfl

theorem Response.ends_statusLine (r : Response) : Ends crlf r.statusLine := by
  have h13 : 13 ∉ ascii "HTTP/1.0 200 " ++ r.reason := by
    rw [List.mem_append, not_or]
    exact ⟨by decide, r.reason_line.2⟩
  exact Ends.append h13

theorem Response.head_eq (r : Response) :
    r.head = r.statusLine ++ headerBlock r.headers := by
  have hspace : ascii "HTTP/1.0 200 " = ascii "HTTP/1.0 200" ++ [32] := rfl
  rw [Response.head, Response.statusLine, headerBlock_cons, hspace]
  simp [crlf]

/-! ## The body -/

theorem flatten_eq_nil (h : [] ∉ segments) : segments.flatten = [] ↔ segments = [] := by
  constructor
  · intro hnil
    match segments with
    | [] => rfl
    | s :: segments =>
      obtain ⟨rfl, -⟩ := List.append_eq_nil_iff.mp hnil
      exact absurd List.mem_cons_self h
  · rintro rfl
    rfl

/-- The two reads of the socket and the loop over the header. -/
theorem readBody_of_reads {t buffer part : List Byte} {more left : List (List Byte)}
    (hstatus : readUntil crlf [] segments = some (ascii "HTTP/1.0 200 " ++ t, more))
    (hheader : readUntil (crlf ++ crlf) (32 :: t) more = some (buffer, left))
    (hskip : skipHeader [] buffer = some part) : readBody segments = .ok (.ok part) := by
  have hversion : (ascii "HTTP/1.0").take 5 = ascii "HTTP/" := rfl
  have hspace : (ascii " 200 " ++ t).dropWhile isSpace = ascii "200 " ++ t := rfl
  have hne : ascii "200 " ++ t ≠ [] := List.append_ne_nil_of_left_ne_nil (by decide) t
  unfold readBody
  simp only [hstatus, extractWord_status, extractInt_status, hversion, hspace, hne, hheader, hskip,
    ne_eq, not_true_eq_false, if_false, List.cons_ne_nil]

/-- What is handed on is the part of the body that has been buffered when the header
    is complete: the pieces `pre` have been read, the pieces `left` have not. -/
theorem readBody_eq {r : Response} (h : segments.flatten = r.bytes) : ∃ pre left part,
    segments = pre ++ left ∧ readBody segments = .ok (.ok part) ∧ pre.flatten = r.head ++ part ∧
      (pre.dropLast.flatten).length < r.head.length := by
  have hlines : ∀ l ∈ (32 :: r.reason) :: r.headers, l ≠ [] ∧ IsLine l := by
    intro l hl
    rcases List.mem_cons.mp hl with rfl | hl
    · refine ⟨List.cons_ne_nil _ _, ?_, ?_⟩
      · simpa using r.reason_line.1
      · simpa using r.reason_line.2
    · exact r.header_lines l hl
  have hstream : [] ++ segments.flatten = r.statusLine ++ (headerBlock r.headers ++ r.body) := by
    rw [List.nil_append, h, Response.bytes, Response.head_eq, List.append_assoc]
  obtain ⟨pre, more, rfl, hread, hlen, hmin⟩ := readUntil_ends r.ends_statusLine hstream
  rw [List.nil_append] at hread hlen hmin
  -- the status line is in the buffer
  obtain ⟨t, ht⟩ : ∃ t, pre.flatten = ascii "HTTP/1.0 200 " ++ t := by
    have hpre : r.statusLine <+: pre.flatten := by
      apply List.prefix_of_prefix_length_le _ _ hlen
      · exact (pre ++ more).flatten
      · exact ⟨_, hstream.symm⟩
      · exact ⟨more.flatten, List.flatten_append.symm⟩
    obtain ⟨t, ht⟩ := hpre
    exact ⟨r.reason ++ crlf ++ t, by rw [← ht]; simp [Response.statusLine]⟩
  have hrest : (32 :: t) ++ more.flatten =
      headerBlock ((32 :: r.reason) :: r.headers) ++ r.body := by
    have hbytes : ascii "HTTP/1.0 200" ++ ((32 :: t) ++ more.flatten) = r.bytes := by
      rw [← h, List.flatten_append, ht]
      rfl
    rw [Response.bytes, Response.head, List.append_assoc] at hbytes
    exact List.append_cancel_left hbytes
  have hends := ends_headerBlock r.header_lines (hlines _ List.mem_cons_self).2
  obtain ⟨pre', left, rfl, hread', hlen', hmin'⟩ := readUntil_ends hends hrest
  -- so are the header lines, and a part of the body
  obtain ⟨part, hpart⟩ : headerBlock ((32 :: r.reason) :: r.headers) <+:
      (32 :: t) ++ pre'.flatten := by
    apply List.prefix_of_prefix_length_le _ _ hlen'
    · exact (32 :: t) ++ (pre' ++ left).flatten
    · exact ⟨_, hrest.symm⟩
    · exact ⟨left.flatten, by rw [List.flatten_append, List.append_assoc]⟩
  refine ⟨pre ++ pre', left, part, (List.append_assoc pre pre' left).symm, ?_, ?_, ?_⟩
  · rw [ht] at hread
    apply readBody_of_reads hread hread'
    rw [← hpart]
    exact skipHeader_headerBlock hlines part
  · rw [Response.head, List.append_assoc, hpart, List.flatten_append, ht]
    rfl
  · have hlenHead : r.head.length =
        12 + (headerBlock ((32 :: r.reason) :: r.headers)).length := by
      rw [Response.head, List.length_append]
      rfl
    cases pre' with
    | nil =>
      have hne : pre ≠ [] := by
        rintro rfl
        cases ht
      have hlt := hmin hne
      rw [List.append_nil, Response.head_eq, List.length_append]
      omega
    | cons s pre' =>
      have hlt := hmin' (List.cons_ne_nil s pre')
      have hthirteen : (ascii "HTTP/1.0 200 ").length = 13 := rfl
      rw [List.dropLast_append_of_ne_nil (List.cons_ne_nil s pre'), List.flatten_append, ht]
      simp only [List.length_append, List.length_cons] at hlt ⊢
      omega

/-- No piece is left exactly when the last one holds the end of the header. -/
theorem readBody_whole {r : Response} (h : Splits segments r.bytes) :
    readBody segments = .ok (.ok r.body) ↔
      (segments.dropLast.flatten).length < r.head.length := by
  obtain ⟨pre, left, part, rfl, hread, hflat, hmin⟩ := readBody_eq h.flatten
  have hbody : part ++ left.flatten = r.body := by
    have hbytes := h.flatten
    rw [List.flatten_append, hflat, Response.bytes, List.append_assoc] at hbytes
    exact List.append_cancel_left hbytes
  have hleft : [] ∉ left := fun hmem => h.pieces (List.mem_append_right pre hmem)
  have hwhole : readBody (pre ++ left) = .ok (.ok r.body) ↔ left = [] := by
    rw [hread, Except.ok.injEq, Except.ok.injEq, ← flatten_eq_nil hleft, ← hbody]
    exact List.self_eq_append_right
  rw [hwhole]
  constructor
  · rintro rfl
    rw [List.append_nil]
    exact hmin
  · intro hlt
    by_contra hne
    rw [List.dropLast_append_of_ne_nil hne, List.flatten_append, hflat] at hlt
    simp only [List.length_append] at hlt
    omega

theorem Response.head_pos (r : Response) : 0 < r.head.length := by
  have hlen : (ascii "HTTP/1.0 200").length = 12 := rfl
  rw [Response.head, List.length_append, hlen]
  omega

/-- A response that arrives in one piece. -/
theorem splits_one (r : Response) : Splits [r.bytes] r.bytes where
  flatten := List.flatten_singleton
  pieces := by
    intro hmem
    have hpos := r.head_pos
    have hlen := congrArg List.length (List.mem_singleton.mp hmem)
    rw [Response.bytes, List.length_append] at hlen
    simp only [List.length_nil] at hlen
    omega

/-- The whole body is handed to `bencoding::decode` exactly when the last piece of the
    response holds the end of the header; the query then ends as it does when the
    response arrives in one piece. -/
theorem body_iff {r : Response} (h : Splits segments r.bytes) :
    (readBody segments = .ok (.ok r.body) ↔ (segments.dropLast.flatten).length < r.head.length) ∧
      (readBody segments = .ok (.ok r.body) → ∀ decode (tr : Tracker) w event now,
        tr.httpRequest decode w event (.answered segments now) =
          tr.httpRequest decode w event (.answered [r.bytes] now)) := by
  refine ⟨readBody_whole h, fun hall decode tr w event now => ?_⟩
  have hone : readBody [r.bytes] = .ok (.ok r.body) :=
    (readBody_whole (splits_one r)).mpr r.head_pos
  simp only [Tracker.httpRequest, hall, hone]

theorem isLine_ok : IsLine (ascii "OK") := by decide +kernel

/-- The response `"HTTP/1.0 200 OK"` with a header line and the body
    `"d8:intervali9e5:peers0:e"`. -/
def shortResponse : Response where
  reason := ascii "OK"
  headers := [ascii "Connection: close"]
  body := ascii "d8:intervali9e5:peers0:e"
  reason_line := isLine_ok
  header_lines := by decide +kernel

/-- The body is handed on when the response is cut inside the header. -/
theorem body_shortResponse :
    readBody [shortResponse.bytes.take 20, shortResponse.bytes.drop 20] =
      .ok (.ok shortResponse.body) := by
  have hsplits : Splits [shortResponse.bytes.take 20, shortResponse.bytes.drop 20]
      shortResponse.bytes := ⟨by decide +kernel, by decide +kernel⟩
  exact (body_iff hsplits).1.mpr (by decide +kernel)

/-- When it is cut behind the header, nothing is. -/
theorem body_fails : ¬ ∀ (r : Response) (segments : List (List Byte)), Splits segments r.bytes →
    readBody segments = .ok (.ok r.body) := by
  intro hall
  have hsplits : Splits [shortResponse.head, shortResponse.body] shortResponse.bytes :=
    ⟨by decide +kernel, by decide +kernel⟩
  have hnone : readBody [shortResponse.head, shortResponse.body] = .ok (.ok []) := by decide +kernel
  rw [hall _ _ hsplits] at hnone
  revert hnone
  decide +kernel

end YTorrent
