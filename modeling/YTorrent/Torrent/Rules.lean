import YTorrent.Torrent.Announce

/-!
# The choke and interest rules

The history of a run: the frames received and the entries of the record, in
order. The rules (`Rule`) relate each message the client writes to what it has
received and written before.

* `protocol_rules`: every run obeys the rules. The index of a REQUEST is the
  number of an announced piece, truncated to the 32 bits of the field.
* `protocol_rules_fails`: with more than `2^32` pieces the truncated index can be
  one that was not announced.
-/

namespace YTorrent

open World Peer Runs

/-! ## Histories -/

/-- An entry of the history of a run: a frame is received, or the client does
    something that is recorded. -/
inductive Entry
  | received (p : PeerId) (messageID : Byte) (payload : List Byte)
  | event (v : Event)
  deriving DecidableEq, Repr

/-- The frame the step handles. -/
def Label.received : Label → List Entry
  | .frame p messageID payload _ => [.received p messageID payload]
  | _ => []

/-- What a step adds to the history. -/
def entries (w : World) (l : Label) (w' : World) : List Entry :=
  l.received ++ (w.newEvents w').map .event

/-- Whether the entry is a CHOKE or an UNCHOKE from `p`. -/
def Entry.choking? (p : PeerId) : Entry → Option Bool
  | .received q messageID _ =>
    if q = p then
      match MessageID.ofByte messageID with
      | some .choke => some true
      | some .unchoke => some false
      | _ => none
    else none
  | .event _ => none

/-- Whether the entry is an INTERESTED or a NOT_INTERESTED from `p`. -/
def Entry.interest? (p : PeerId) : Entry → Option Bool
  | .received q messageID _ =>
    if q = p then
      match MessageID.ofByte messageID with
      | some .interested => some true
      | some .notInterested => some false
      | _ => none
    else none
  | .event _ => none

/-- The last CHOKE or UNCHOKE received from `p` is an UNCHOKE. -/
def Unchoked (h : List Entry) (p : PeerId) : Prop :=
  (h.filterMap (Entry.choking? p)).getLast? = some false

/-- The last INTERESTED or NOT_INTERESTED received from `p` is an INTERESTED. -/
def Interested (h : List Entry) (p : PeerId) : Prop :=
  (h.filterMap (Entry.interest? p)).getLast? = some true

/-- The message `m` was written to `p`. -/
def Wrote (h : List Entry) (p : PeerId) (m : Message) : Prop := .event (.sent p m) ∈ h

/-- `p` has announced that it has piece `i` of the `n` pieces. -/
def Announced (n : ℕ) (h : List Entry) (p : PeerId) (i : ℕ) : Prop :=
  ∃ messageID payload, .received p messageID payload ∈ h ∧
    (MessageID.ofByte messageID = some .havePiece ∧ payload.length = 4 ∧ haveField payload = i ∨
      MessageID.ofByte messageID = some .bitfield ∧ i ∈ bitfieldIndexes payload n)

/-- Nothing is received or written: an access out of range is recorded. -/
def Entry.isFault : Entry → Bool
  | .event (.fault _ _ _) => true
  | _ => false

/-- `h` ends with a REQUEST of `p` for the block, to which nothing has been written
    yet, received while `p` was interested and after our UNCHOKE. -/
def Asked (h : List Entry) (p : PeerId) (index begin : ℕ) : Prop :=
  ∃ before messageID payload after length,
    h = before ++ .received p messageID payload :: after ∧
      MessageID.ofByte messageID = some .request ∧
      requestFields payload = (index, begin, length) ∧ Interested before p ∧
      Wrote before p .unchoke ∧ ∀ e ∈ after, e.isFault = true

/-! ## The rules -/

/-- When the message may be written to `p`. The field of a REQUEST for piece `i` is
    `field i`. -/
def MessageRule (field : ℕ → ℕ) (n : ℕ) (h : List Entry) (p : PeerId) : Message → Prop
  | .request index _ _ =>
    Unchoked h p ∧ Wrote h p .interested ∧ ∃ i, Announced n h p i ∧ index = field i
  | .pieceBlock index begin _ => Asked h p index begin
  | .havePiece _ => Wrote h p .unchoke
  | .unchoke => ¬ Wrote h p .unchoke
  | _ => True

/-- The rule for an entry, given the entries before it. -/
def Rule (field : ℕ → ℕ) (n : ℕ) (h : List Entry) : Entry → Prop
  | .event (.sent p m) => MessageRule field n h p m
  | .event (.error _ e) => e ≠ .remotelyChoked
  | _ => True

variable {sha1 : List Byte → List ℕ} {f : ParsedFile} {w w' : World} {p q : PeerId} {env : Env}
  {messageID : Byte} {payload : List Byte} {n i : ℕ} {h h' : List Entry} {es : List Event}
  {m : Message} {field : ℕ → ℕ}

/-! ## What later entries leave alone -/

theorem Wrote.append (ht : Wrote h p m) (h' : List Entry) : Wrote (h ++ h') p m :=
  List.mem_append_left h' ht

theorem Announced.append (ha : Announced n h p i) (h' : List Entry) :
    Announced n (h ++ h') p i := by
  obtain ⟨messageID, payload, hmem, hi⟩ := ha
  exact ⟨messageID, payload, List.mem_append_left h' hmem, hi⟩

theorem filterMap_events {α : Type*} {g : Entry → Option α} (hg : ∀ v, g (.event v) = none)
    (es : List Event) : (es.map Entry.event).filterMap g = [] := by
  rw [List.filterMap_eq_nil_iff]
  intro e he
  obtain ⟨v, -, rfl⟩ := List.mem_map.mp he
  exact hg v

@[simp] theorem unchoked_events : Unchoked (h ++ es.map .event) p ↔ Unchoked h p := by
  rw [Unchoked, Unchoked, List.filterMap_append, filterMap_events (fun _ => rfl), List.append_nil]

@[simp] theorem interested_events : Interested (h ++ es.map .event) p ↔ Interested h p := by
  rw [Interested, Interested, List.filterMap_append, filterMap_events (fun _ => rfl),
    List.append_nil]

theorem wrote_events : Wrote (h ++ es.map .event) p m ↔ Wrote h p m ∨ .sent p m ∈ es := by
  simp [Wrote]

@[simp] theorem wrote_received :
    Wrote (h ++ [.received q messageID payload]) p m ↔ Wrote h p m := by
  simp [Wrote]

/-- A frame that is neither a CHOKE nor an UNCHOKE of `p`. -/
theorem unchoked_received (hne : Entry.choking? p (.received q messageID payload) = none) :
    Unchoked (h ++ [.received q messageID payload]) p ↔ Unchoked h p := by
  rw [Unchoked, Unchoked, List.filterMap_append, List.filterMap_cons_none hne]
  simp

theorem interested_received (hne : Entry.interest? p (.received q messageID payload) = none) :
    Interested (h ++ [.received q messageID payload]) p ↔ Interested h p := by
  rw [Interested, Interested, List.filterMap_append, List.filterMap_cons_none hne]
  simp

theorem choking?_of_ne (hq : q ≠ p) : Entry.choking? p (.received q messageID payload) = none :=
  if_neg hq

theorem interest?_of_ne (hq : q ≠ p) : Entry.interest? p (.received q messageID payload) = none :=
  if_neg hq

/-! ## The invariant -/

/-- What the history tells about a peer. Of a closed connection the frames that led
    to its closing are not reflected in the peer. -/
structure Dealings (n : ℕ) (h : List Entry) (p : PeerId) (x : Peer) : Prop where
  unchoked : x.conn.isOpen = true → x.peerChoking = false → Unchoked h p
  interested : x.conn.isOpen = true → x.peerInterested = true → Interested h p
  told : x.amChoking = false ↔ Wrote h p .unchoke
  announced : ∀ i ∈ x.hasPieceIndexes, Announced n h p i
  queued : ∀ e ∈ x.pieceQueue, Wrote h p .interested ∧ ∃ i, Announced n h p i ∧ e.index = u32 i

/-- The rules are obeyed, and the state of every peer agrees with the history. -/
structure Conduct (n : ℕ) (h : List Entry) (w : World) : Prop where
  lawful : Lawful (Rule u32 n) h
  dealings : ∀ p, Dealings n h p (w.peers p)

/-- What is recorded between `w` and `w'` continues the history `h` lawfully. -/
def Continues (n : ℕ) (h : List Entry) (w w' : World) : Prop :=
  ∃ es, w'.trace = w.trace ++ es ∧ Conduct n (h ++ es.map .event) w'

/-- A peer whose connection stays closed unless it was open, with the same bits. -/
theorem Dealings.of_conn {x x' : Peer} (hd : Dealings n h p x)
    (hopen : x'.conn.isOpen = true → x.conn.isOpen = true)
    (hx : x' = { x with conn := x'.conn }) : Dealings n h p x' := by
  rw [hx]
  exact ⟨fun ho => hd.unchoked (hopen ho), fun ho => hd.interested (hopen ho), hd.told, hd.announced,
    hd.queued⟩

/-- More of the history, with nothing about the choking and the interest of `p`. -/
theorem Dealings.append {x : Peer} (hd : Dealings n h p x)
    (hc : (h'.filterMap (Entry.choking? p)) = []) (hi : (h'.filterMap (Entry.interest? p)) = [])
    (ht : ¬ Wrote h' p .unchoke) : Dealings n (h ++ h') p x := by
  constructor
  · intro ho hx
    rw [Unchoked, List.filterMap_append, hc, List.append_nil]
    exact hd.unchoked ho hx
  · intro ho hx
    rw [Interested, List.filterMap_append, hi, List.append_nil]
    exact hd.interested ho hx
  · rw [hd.told]
    constructor
    · exact fun h => h.append h'
    · intro hmem
      exact (List.mem_append.mp hmem).elim id fun hin => absurd hin ht
  · exact fun i hi => (hd.announced i hi).append h'
  · intro e he
    obtain ⟨hint, i, ha, hidx⟩ := hd.queued e he
    exact ⟨hint.append h', i, ha.append h', hidx⟩

/-- Entries of the record other than an UNCHOKE to `p`. -/
theorem Dealings.events {x : Peer} (hd : Dealings n h p x) (hes : .sent p .unchoke ∉ es) :
    Dealings n (h ++ es.map .event) p x := by
  refine hd.append (filterMap_events (fun _ => rfl) es) (filterMap_events (fun _ => rfl) es) ?_
  simpa [Wrote] using hes

/-- The entry may be recorded after `h`, whatever is recorded in between. -/
def Allowed (n : ℕ) (h : List Entry) (v : Event) : Prop :=
  (∀ q, v ≠ .sent q .unchoke) ∧ ∀ es : List Event, Rule u32 n (h ++ es.map .event) (.event v)

theorem lawful_events (hes : ∀ v ∈ es, Allowed n h v) :
    Lawful (fun before => Rule u32 n (h ++ before)) (es.map .event) := by
  intro before e after heq
  obtain ⟨es₁, es₂, rfl, rfl, hrest⟩ := List.map_eq_append_iff.mp heq
  obtain ⟨v, es₃, rfl, rfl, -⟩ := List.map_eq_cons_iff.mp hrest
  exact (hes v (by simp)).2 es₁

theorem Conduct.log (hw : Conduct n h w) (hes : ∀ v ∈ es, Allowed n h v) :
    Conduct n (h ++ es.map .event) (w.log es) where
  lawful := lawful_append.mpr ⟨hw.lawful, lawful_events hes⟩
  dealings p := (hw.dealings p).events fun hmem => (hes _ hmem).1 p rfl

theorem Conduct.setPeer (hw : Conduct n h w) {x : Peer} (hx : Dealings n h p x) :
    Conduct n h (w.setPeer p x) where
  lawful := hw.lawful
  dealings q := by
    rw [setPeer_peers]
    split
    · rename_i hq
      rw [hq]
      exact hx
    · exact hw.dealings q

theorem Conduct.continues (hw : Conduct n h w') (ht : w'.trace = w.trace) : Continues n h w w' :=
  ⟨[], by rw [ht, List.append_nil], by simpa using hw⟩

theorem Continues.of_log (hw : Conduct n h w) (hes : ∀ v ∈ es, Allowed n h v) :
    Continues n h w (w.log es) :=
  ⟨es, rfl, hw.log hes⟩

theorem Continues.trans {v : World} (hv : Continues n h w v)
    (hw : ∀ es : List Event, Conduct n (h ++ es.map .event) v →
      Continues n (h ++ es.map .event) v w') : Continues n h w w' := by
  obtain ⟨es, hes, hc⟩ := hv
  obtain ⟨es', hes', hc'⟩ := hw es hc
  refine ⟨es ++ es', by rw [hes', hes, List.append_assoc], ?_⟩
  simpa using hc'

theorem Continues.read (hv : Continues n h w w') (p : PeerId) (rc : Pending) :
    Continues n h w (Connection.read w' p rc) := by
  refine hv.trans fun es hc => Conduct.continues ⟨hc.lawful, fun q => ?_⟩ (read_trace ..)
  refine (hc.dealings q).of_conn (fun ho => by rwa [read_isOpen] at ho) ?_
  unfold Connection.read
  split
  · rw [setConn_peers]
    split
    · rename_i hq
      rw [hq]
    · rfl
  · rfl

/-! ## What may be written -/

theorem allowed_of_true {v : Event} (hv : ∀ q, v ≠ .sent q .unchoke)
    (hr : ∀ h, Rule u32 n h (.event v)) : Allowed n h v :=
  ⟨hv, fun _ => hr _⟩

/-- The entries to which no rule applies. -/
theorem allowed_pieceCompleted (piece : Peer.Piece) (data : List Byte) (r : Completion) :
    Allowed n h (.pieceCompleted p piece data r) :=
  allowed_of_true (by simp) fun _ => trivial

theorem allowed_doneFault {t : Torrent} : ∀ v ∈ doneFault t i, Allowed n h v := by
  intro v hv
  rw [(mem_doneFault hv).2]
  exact allowed_of_true (by simp) fun _ => trivial

theorem allowed_bitFault {t : Torrent} : ∀ v ∈ bitFault t i, Allowed n h v := by
  intro v hv
  rw [(mem_bitFault hv).2]
  exact allowed_of_true (by simp) fun _ => trivial

theorem allowed_cancels {c : Connection} {t : Torrent} :
    ∀ v ∈ sentEvents c p (cancels t i), Allowed n h v := by
  intro v hv
  obtain ⟨-, m, hm, rfl⟩ := mem_sentEvents.mp hv
  obtain ⟨bl, -, rfl⟩ := List.mem_map.mp hm
  exact allowed_of_true (by simp) fun _ => trivial

/-- The REQUESTs for an announced piece, to a peer that is told of our interest and
    has unchoked us. -/
theorem allowed_requests {c : Connection} {t : Torrent} {index : ℕ} (hu : Unchoked h p)
    (ht : Wrote h p .interested) (ha : Announced n h p i) (hi : index = u32 i) :
    ∀ v ∈ sentEvents c p (requests t index), Allowed n h v := by
  intro v hv
  obtain ⟨-, m, hm, rfl⟩ := mem_sentEvents.mp hv
  obtain ⟨bl, -, rfl⟩ := List.mem_map.mp hm
  refine ⟨nofun, fun es => ⟨unchoked_events.mpr hu, ht.append _, i, ha.append _, ?_⟩⟩
  rw [hi, u32_u32]

/-- The HAVEs of a completed piece go to peers we have unchoked. -/
theorem allowed_haveEvents (hw : Conduct n h w) : ∀ v ∈ haveEvents w i, Allowed n h v := by
  intro v hv
  obtain ⟨q, -, hchoke, -, rfl⟩ := mem_haveEvents.mp hv
  have hq : Wrote h q .unchoke := (hw.dealings q).told.mp hchoke
  exact ⟨nofun, fun es => hq.append _⟩

/-! ## One step -/

theorem Conduct.of_peers (hw : Conduct n h w) (hp : w'.peers = w.peers) : Conduct n h w' :=
  ⟨hw.lawful, fun q => by rw [hp]; exact hw.dealings q⟩

/-- The events recorded on the way from `w`, when only `p` is changed. -/
theorem Continues.of_setPeer {x : Peer} (hw : Conduct n h (w.setPeer p x))
    (hes : ∀ v ∈ es, Allowed n h v) (hp : w'.peers = (w.setPeer p x).peers)
    (ht : w'.trace = w.trace ++ es) : Continues n h w w' :=
  ⟨es, ht, (hw.log hes).of_peers hp⟩

/-- A frame that says nothing about the choking and the interest of `p`. -/
theorem Dealings.received {x : Peer} (hd : Dealings n h p x)
    (hc : Entry.choking? p (.received q messageID payload) = none)
    (hi : Entry.interest? p (.received q messageID payload) = none) :
    Dealings n (h ++ [.received q messageID payload]) p x := by
  refine hd.append ?_ ?_ (by simp [Wrote])
  · rw [List.filterMap_cons_none hc, List.filterMap_nil]
  · rw [List.filterMap_cons_none hi, List.filterMap_nil]

/-- What is known of the queue stays known. -/
theorem Dealings.queued_append {x : Peer} (hd : Dealings n h p x) (h' : List Entry) :
    ∀ e ∈ x.pieceQueue,
      Wrote (h ++ h') p .interested ∧ ∃ i, Announced n (h ++ h') p i ∧ e.index = u32 i := by
  intro e he
  obtain ⟨hint, i, ha, hidx⟩ := hd.queued e he
  exact ⟨hint.append h', i, ha.append h', hidx⟩

theorem Conduct.lawful_received (hw : Conduct n h w) :
    Lawful (Rule u32 n) (h ++ [.received p messageID payload]) :=
  lawful_append.mpr ⟨hw.lawful, lawful_cons.mpr ⟨trivial, lawful_nil⟩⟩

/-- A frame of `p` is received, and `p` changes to `x`. -/
theorem Conduct.received (hw : Conduct n h w) {x : Peer}
    (hx : Dealings n (h ++ [.received p messageID payload]) p x) :
    Conduct n (h ++ [.received p messageID payload]) (w.setPeer p x) where
  lawful := hw.lawful_received
  dealings q := by
    rw [setPeer_peers]
    split
    · rename_i hq
      rw [hq]
      exact hx
    · rename_i hq
      have hne : p ≠ q := Ne.symm hq
      exact (hw.dealings q).received (choking?_of_ne hne) (interest?_of_ne hne)

/-- A frame of `p` that changes nothing. -/
theorem Conduct.received_same (hw : Conduct n h w)
    (hc : Entry.choking? p (.received p messageID payload) = none)
    (hi : Entry.interest? p (.received p messageID payload) = none) :
    Conduct n (h ++ [.received p messageID payload]) w :=
  (hw.received ((hw.dealings p).received hc hi)).of_peers (by simp [World.setPeer])

theorem Dealings.queue {x : Peer} (hd : Dealings n h p x) (queue : List Peer.Piece)
    (hq : ∀ e ∈ queue, ∃ e' ∈ x.pieceQueue, e'.index = e.index) :
    Dealings n h p { x with pieceQueue := queue } where
  unchoked := hd.unchoked
  interested := hd.interested
  told := hd.told
  announced := hd.announced
  queued e he := by
    obtain ⟨e', he', heq⟩ := hq e he
    rw [← heq]
    exact hd.queued e' he'

theorem Dealings.announce {x : Peer} (hd : Dealings n h p x) {indexes : List ℕ}
    (hi : ∀ i ∈ indexes, Announced n h p i) : Dealings n h p (x.announce indexes) where
  unchoked := hd.unchoked
  interested := hd.interested
  told := hd.told
  announced i hmem := (List.mem_append.mp hmem).elim (hd.announced i) (hi i)
  queued := hd.queued

/-- Closing the connection leaves nothing to say about the frames received. -/
theorem Dealings.closed {x : Peer} (hd : Dealings n h p x) :
    Dealings n (h ++ [.received p messageID payload]) p { x with conn := x.conn.closed } where
  unchoked := nofun
  interested := nofun
  told := by rw [wrote_received]; exact hd.told
  announced i hi := (hd.announced i hi).append _
  queued := hd.queued_append _

/-- A selection tells the peer of our interest and requests an announced piece. -/
theorem SelectEffect.continues (hsel : SelectEffect w p w') (hopen : (w.peers p).conn.isOpen = true)
    (hw : Conduct n h w) : Continues n h w w' := by
  cases hsel with
  | none => exact hw.continues rfl
  | requested i hfull hsel =>
    obtain ⟨-, -, -, hhas, -⟩ := Torrent.selected_some hsel
    have ha : Announced n h p i := (hw.dealings p).announced i (by simpa [hasPiece] using hhas)
    -- INTERESTED is written first; then the piece is queued, and requested unless we are choked
    have hint : Conduct n (h ++ [Event.sent p .interested].map .event)
        (w.log [.sent p .interested]) := by
      refine hw.log fun v hv => ?_
      rw [List.mem_singleton.mp hv]
      exact allowed_of_true (by simp) fun _ => trivial
    have hd := hint.dealings p
    have htold : Wrote (h ++ [Event.sent p .interested].map .event) p .interested := by simp [Wrote]
    have hqueue : Conduct n (h ++ [Event.sent p .interested].map .event)
        ((w.log [.sent p .interested]).setPeer p
          ((w.peers p).queuePiece w.torrent (u32 i))) := by
      refine hint.setPeer ⟨hd.unchoked, hd.interested, hd.told, hd.announced, fun e he => ?_⟩
      rcases List.mem_append.mp he with he | he
      · exact hd.queued e he
      · rw [List.mem_singleton.mp he]
        exact ⟨htold, i, ha.append _, rfl⟩
    have hreq : ∀ v ∈ sentEvents (w.peers p).conn p
        (if (w.peers p).peerChoking then [] else requests w.torrent (u32 i)),
          Allowed n (h ++ [Event.sent p .interested].map .event) v := by
      split
      · simp
      · rename_i hchoke
        exact allowed_requests (hd.unchoked hopen (by simpa using hchoke)) htold (ha.append _) rfl
    have hall := hqueue.log hreq
    rw [List.append_assoc, ← List.map_append] at hall
    have hev : sentEvents (w.peers p).conn p (pieceRequestMessages (w.peers p) w.torrent (u32 i)) =
        [.sent p .interested] ++ sentEvents (w.peers p).conn p
          (if (w.peers p).peerChoking then [] else requests w.torrent (u32 i)) := by
      simp [pieceRequestMessages, sentEvents, hopen]
    refine ⟨_, rfl, ?_⟩
    rw [hev]
    exact hall.of_peers rfl

/-- A completed piece is announced to the peers we have unchoked. -/
theorem CompletionEffect.continues {piece : Peer.Piece} {data : List Byte}
    (hcomp : CompletionEffect sha1 w p piece i data w') (hw : Conduct n h w) :
    Continues n h w w' := by
  have hdone : ∀ r, ∀ v ∈ [Event.pieceCompleted p piece data r], Allowed n h v := by
    intro r v hv
    rw [List.mem_singleton.mp hv]
    exact allowed_pieceCompleted piece data r
  cases hcomp with
  | mismatch => exact ⟨_, rfl, (hw.log (hdone _)).of_peers rfl⟩
  | ioFailed => exact ⟨_, rfl, (hw.log (hdone _)).of_peers rfl⟩
  | stored =>
    refine ⟨_, rfl, Conduct.of_peers (hw.log fun v hv => ?_) rfl⟩
    rcases List.mem_append.mp hv with hv | hv
    · exact allowed_bitFault v hv
    · rcases List.mem_cons.mp hv with rfl | hv
      · exact allowed_pieceCompleted piece data _
      · exact allowed_haveEvents hw v hv

theorem Refusal.not_remotelyChoked {e : PeerError} (href : Refusal w p messageID payload e) :
    e ≠ .remotelyChoked := by
  cases href <;> nofun

/-- UNCHOKE: the queued pieces are requested. -/
theorem Conduct.unchoke (hw : Conduct n h w) (hid : MessageID.ofByte messageID = some .unchoke) :
    Continues n (h ++ [.received p messageID payload]) w
      ((w.setPeer p { w.peers p with peerChoking := false }).log
        (sentEvents (w.peers p).conn p
          ((w.peers p).pieceQueue.flatMap fun e => requests w.torrent e.index))) := by
  have hd := hw.dealings p
  have hlast : Unchoked (h ++ [.received p messageID payload]) p := by
    have hc : Entry.choking? p (.received p messageID payload) = some false := by
      simp [Entry.choking?, hid]
    rw [Unchoked, List.filterMap_append, List.filterMap_cons_some hc]
    simp
  refine Continues.of_setPeer (hw.received (x := { w.peers p with peerChoking := false })
    ⟨fun _ _ => hlast, fun ho hi => ?_, ?_, fun i hi => (hd.announced i hi).append _,
      hd.queued_append _⟩) ?_ rfl rfl
  · rw [interested_received (by simp [Entry.interest?, hid])]
    exact hd.interested ho hi
  · rw [wrote_received]
    exact hd.told
  · intro v hv
    obtain ⟨ho, m, hm, rfl⟩ := mem_sentEvents.mp hv
    obtain ⟨e, he, hm⟩ := List.mem_flatMap.mp hm
    obtain ⟨hint, i, ha, hidx⟩ := hd.queued e he
    exact allowed_requests hlast (hint.append _) (ha.append _) hidx _
      (mem_sentEvents.mpr ⟨ho, m, hm, rfl⟩)

/-- INTERESTED: the peer is unchoked unless it has been before. -/
theorem Conduct.interested (hw : Conduct n h w) (hopen : (w.peers p).conn.isOpen = true)
    (hid : MessageID.ofByte messageID = some .interested) :
    Continues n (h ++ [.received p messageID payload]) w
      ((w.setPeer p { w.peers p with peerInterested := true, amChoking := false }).log
        (sentEvents (w.peers p).conn p (if (w.peers p).amChoking then [.unchoke] else []))) := by
  have hd := hw.dealings p
  have hchoking : Entry.choking? p (.received p messageID payload) = none := by
    simp [Entry.choking?, hid]
  have hlast : Interested (h ++ [.received p messageID payload]) p := by
    have hi : Entry.interest? p (.received p messageID payload) = some true := by
      simp [Entry.interest?, hid]
    rw [Interested, List.filterMap_append, List.filterMap_cons_some hi]
    simp
  -- the state of `p`, whatever has been written since
  have hx : ∀ es : List Event, (Wrote h p .unchoke ∨ .sent p .unchoke ∈ es) →
      Dealings n (h ++ [.received p messageID payload] ++ es.map .event) p
        { w.peers p with peerInterested := true, amChoking := false } := by
    intro es htold
    rw [List.append_assoc]
    refine ⟨fun ho hc => ?_, fun _ _ => ?_, ?_, fun i hi => (hd.announced i hi).append _,
      hd.queued_append _⟩
    · rw [← List.append_assoc, unchoked_events, unchoked_received hchoking]
      exact hd.unchoked ho hc
    · rw [← List.append_assoc, interested_events]
      exact hlast
    · rw [← List.append_assoc, wrote_events, wrote_received]
      exact ⟨fun _ => htold, fun _ => rfl⟩
  cases hchoke : (w.peers p).amChoking with
  | false =>
    refine Continues.of_setPeer (hw.received ?_) (by simp) rfl rfl
    simpa using hx [] (.inl (hd.told.mp hchoke))
  | true =>
    have hnot : ¬ Wrote h p .unchoke := by
      rw [← hd.told, hchoke]
      exact Bool.noConfusion
    refine ⟨[.sent p .unchoke], by simp [sentEvents, hopen], ?_, fun q => ?_⟩
    · refine lawful_append.mpr ⟨hw.lawful_received, lawful_cons.mpr ⟨?_, lawful_nil⟩⟩
      rw [List.append_nil]
      exact fun htold => hnot (wrote_received.mp htold)
    · rw [log_peers, setPeer_peers]
      split
      · rename_i hq
        rw [hq]
        exact hx _ (.inr List.mem_cons_self)
      · rename_i hq
        have hne : p ≠ q := Ne.symm hq
        refine ((hw.dealings q).received (choking?_of_ne hne) (interest?_of_ne hne)).events ?_
        simp [hq]

/-- A PIECE is written only as the answer to the REQUEST being handled. -/
theorem ServeEffect.continues {pIndex begin length : ℕ}
    (hserve : ServeEffect (w.log es) p pIndex begin length w') (hw : Conduct n h w)
    (hc : Entry.choking? p (.received p messageID payload) = none)
    (hi : Entry.interest? p (.received p messageID payload) = none)
    (hes : ∀ v ∈ es, Allowed n (h ++ [.received p messageID payload]) v)
    (hasked : Asked (h ++ [.received p messageID payload] ++ es.map .event) p (u32 pIndex)
      (u32 begin)) :
    Continues n (h ++ [.received p messageID payload]) w w' := by
  have hlog := (hw.received_same hc hi).log hes
  cases hserve with
  | refused => exact Continues.of_setPeer (hw.received (hw.dealings p).closed) hes rfl rfl
  | silent => exact ⟨es, rfl, hlog.of_peers rfl⟩
  | sent block =>
    -- nothing has been written since the REQUEST, so this is its only answer
    refine ⟨es ++ sentEvents (w.peers p).conn p [.pieceBlock (u32 pIndex) (u32 begin) block],
      by simp, ?_, fun q => ?_⟩
    · rw [List.map_append, ← List.append_assoc]
      refine lawful_append.mpr ⟨hlog.lawful, ?_⟩
      unfold sentEvents
      split
      · refine lawful_cons.mpr ⟨?_, lawful_nil⟩
        rw [List.append_nil]
        exact hasked
      · exact lawful_nil
    · rw [List.map_append, ← List.append_assoc]
      refine (hlog.dealings q).events fun hmem => ?_
      obtain ⟨-, m, hm, heq⟩ := mem_sentEvents.mp hmem
      rw [List.mem_singleton.mp hm] at heq
      cases heq

/-- The block of the frame is stored in its entry. -/
theorem Conduct.storeBlock (hw : Conduct n h w)
    (hc : Entry.choking? p (.received p messageID payload) = none)
    (hi : Entry.interest? p (.received p messageID payload) = none) {it : ℕ} {piece : Peer.Piece}
    (hacc : Accepts w p payload it piece) :
    Continues n (h ++ [.received p messageID payload]) w (storeBlock w p payload it piece) := by
  refine Continues.of_setPeer (hw.received (((hw.dealings p).received hc hi).queue
    ((w.peers p).pieceQueue.set it (piece.put payload)) fun e he => ?_))
      allowed_doneFault rfl rfl
  rcases List.mem_or_eq_of_mem_set he with he | rfl
  · exact ⟨e, he, rfl⟩
  · exact ⟨piece, hacc.mem, rfl⟩

/-- A frame of another kind says nothing about choking and interest. -/
theorem Entry.neutral (p : PeerId) (payload : List Byte) {m : MessageID}
    (hid : MessageID.ofByte messageID = some m)
    (hm : m ∉ [.choke, .unchoke, .interested, .notInterested]) :
    Entry.choking? p (.received p messageID payload) = none ∧
      Entry.interest? p (.received p messageID payload) = none := by
  simp only [List.mem_cons, List.not_mem_nil, or_false, not_or] at hm
  obtain ⟨hchoke, hunchoke, hinterested, hnot⟩ := hm
  cases m with
  | choke => exact absurd rfl hchoke
  | unchoke => exact absurd rfl hunchoke
  | interested => exact absurd rfl hinterested
  | notInterested => exact absurd rfl hnot
  | _ => simp [Entry.choking?, Entry.interest?, hid]

/-- CHOKE: the peer chokes the client from now on. -/
theorem Conduct.choke (hw : Conduct n h w) (hid : MessageID.ofByte messageID = some .choke) :
    Continues n (h ++ [.received p messageID payload]) w
      (w.setPeer p { w.peers p with peerChoking := true }) := by
  have hd := hw.dealings p
  have hi : Entry.interest? p (.received p messageID payload) = none := by
    simp [Entry.interest?, hid]
  refine Conduct.continues (hw.received ⟨fun _ hx => Bool.noConfusion hx, fun ho hx => ?_, ?_,
    fun i hi => (hd.announced i hi).append _, hd.queued_append _⟩) rfl
  · rw [interested_received hi]
    exact hd.interested ho hx
  · rw [wrote_received]
    exact hd.told

/-- NOT INTERESTED: the peer asks for nothing from now on. -/
theorem Conduct.notInterested (hw : Conduct n h w)
    (hid : MessageID.ofByte messageID = some .notInterested) :
    Continues n (h ++ [.received p messageID payload]) w
      (w.setPeer p { w.peers p with peerInterested := false }) := by
  have hd := hw.dealings p
  have hc : Entry.choking? p (.received p messageID payload) = none := by
    simp [Entry.choking?, hid]
  refine Conduct.continues (hw.received ⟨fun ho hx => ?_, fun _ hx => Bool.noConfusion hx, ?_,
    fun i hi => (hd.announced i hi).append _, hd.queued_append _⟩) rfl
  · rw [unchoked_received hc]
    exact hd.unchoked ho hx
  · rw [wrote_received]
    exact hd.told

/-- What a frame of `p` leads to continues the history lawfully. -/
theorem FrameEffect.continues (hf : FrameEffect sha1 w p env messageID payload w')
    (hopen : (w.peers p).conn.isOpen = true) (hn : w.torrent.pieces.length = n)
    (hw : Conduct n h w) : Continues n (h ++ [.received p messageID payload]) w w' := by
  have hd := hw.dealings p
  cases hf with
  | ignored hign =>
    have hboth : Entry.choking? p (.received p messageID payload) = none ∧
        Entry.interest? p (.received p messageID payload) = none := by
      cases hign with
      | unknown hid => simp [Entry.choking?, Entry.interest?, hid]
      | havePiece hid => exact Entry.neutral p payload hid (by decide)
      | cancel hid => exact Entry.neutral p payload hid (by decide)
    exact (Conduct.continues (hw.received_same hboth.1 hboth.2) rfl).read p _
  | refused e href =>
    rw [handleError_eq]
    refine Continues.of_setPeer (hw.received hd.closed) (fun v hv => ?_) rfl rfl
    rw [List.mem_singleton.mp hv]
    exact allowed_of_true (by simp) fun _ => href.not_remotelyChoked
  | choke hid => exact (hw.choke hid).read p _
  | unchoke hid => exact (hw.unchoke hid).read p _
  | interested hid => exact (hw.interested hopen hid).read p _
  | notInterested hid => exact (hw.notInterested hid).read p _
  | havePiece hid hsize hnew =>
    obtain ⟨hc, hi⟩ := Entry.neutral p payload hid (by decide)
    refine (Conduct.continues (hw.received ((hd.received hc hi).announce fun i hmem => ?_)) rfl).read
      p _
    refine ⟨messageID, payload, by simp, .inl ⟨hid, hsize, ?_⟩⟩
    exact (List.mem_singleton.mp hmem).symm
  | bitfield hid u hsel =>
    obtain ⟨hc, hi⟩ := Entry.neutral p payload hid (by decide)
    have hann := hw.received ((hd.received hc hi).announce fun i hmem =>
      ⟨messageID, payload, by simp, .inr ⟨hid, hn ▸ hmem⟩⟩)
    refine Continues.read ?_ p _
    exact hsel.continues (by simpa [Peer.announce] using hopen) hann
  | request hid hsize hint hchoke hlen u hserve =>
    obtain ⟨hc, hi⟩ := Entry.neutral p payload hid (by decide)
    have hasked : Asked (h ++ [.received p messageID payload] ++
        (doneFault w.torrent (requestFields payload).1).map .event) p
          (u32 (requestFields payload).1) (u32 (requestFields payload).2.1) := by
      have hindex : u32 (requestFields payload).1 = _ := u32_of_lt (readAsBE32_lt _)
      have hbegin : u32 (requestFields payload).2.1 = _ := u32_of_lt (readAsBE32_lt _)
      rw [hindex, hbegin]
      refine ⟨h, messageID, payload, _, _, List.append_cons .. |>.symm, hid, rfl,
        hd.interested hopen hint, hd.told.mp hchoke, fun e he => ?_⟩
      obtain ⟨v, hv, rfl⟩ := List.mem_map.mp he
      rw [(mem_doneFault hv).2]
      rfl
    refine Continues.read ?_ p _
    rcases hserve with ⟨-, rfl⟩ | ⟨-, hserve⟩
    · exact .of_log (hw.received_same hc hi) allowed_doneFault
    · exact hserve.continues hw hc hi allowed_doneFault hasked
  | cancelled hid it piece hacc hdone =>
    obtain ⟨hc, hi⟩ := Entry.neutral p payload hid (by decide)
    refine Continues.read ?_ p _
    refine Continues.of_setPeer (hw.received ((hd.received hc hi).queue
      ((w.peers p).pieceQueue.eraseIdx it) fun e he =>
        ⟨e, List.mem_of_mem_eraseIdx he, rfl⟩)) (fun v hv => ?_) rfl rfl
    exact (List.mem_append.mp hv).elim (allowed_doneFault v) (allowed_cancels v)
  | stored hid it piece hacc hdone hmore =>
    obtain ⟨hc, hi⟩ := Entry.neutral p payload hid (by decide)
    exact (hw.storeBlock hc hi hacc).read p _
  | ioFailed hid it piece hacc hdone hlast _ hcomp hrun =>
    obtain ⟨hc, hi⟩ := Entry.neutral p payload hid (by decide)
    exact (hw.storeBlock hc hi hacc).trans fun es hv => hcomp.continues hv
  | completed hid it piece hacc hdone hlast u u' hcomp hrun hsel =>
    obtain ⟨hc, hi⟩ := Entry.neutral p payload hid (by decide)
    refine Continues.read ?_ p _
    refine ((hw.storeBlock hc hi hacc).trans fun es hv => hcomp.continues hv).trans fun es hu => ?_
    -- the entry of the completed piece is erased before the next selection
    have herase : Conduct n (h ++ [.received p messageID payload] ++ es.map .event)
        (erasePiece u p it) :=
      hu.setPeer ((hu.dealings p).queue _ fun e he => ⟨e, List.mem_of_mem_eraseIdx he, rfl⟩)
    have hconn : ((erasePiece u p it).peers p).conn.isOpen = true := by
      simp [erasePiece, hcomp.peers, storeBlock, hopen]
    obtain ⟨es', ht, hc'⟩ := hsel.continues hconn herase
    exact ⟨es', ht, hc'⟩

/-- The steps other than frames write handshakes and bitfields only. -/
theorem allowed_of_isJoin {v : Event} (hv : v.IsJoin) : Allowed n h v := by
  cases v with
  | sent p m => cases m <;> first | exact hv.elim | exact allowed_of_true (by simp) fun _ => trivial
  | error p e =>
    refine allowed_of_true (by simp) fun _ => ?_
    rcases hv with rfl | rfl <;> exact nofun
  | pieceCompleted => exact hv.elim
  | fault => exact hv.elim

/-- What a step adds to the history continues it lawfully. -/
theorem Conduct.step {l : Label} (hr : Reachable sha1 f w)
    (hs : YTorrent.step sha1 w l = some w') (hw : Conduct f.hashes.length h w) :
    Conduct f.hashes.length (h ++ entries w l w') w' := by
  by_cases hl : ∀ p messageID payload env, l ≠ .frame p messageID payload env
  · -- a peer that gets connected has received nothing yet
    have hout := (step_outside hs hl).2
    obtain ⟨es, hes, hjoin⟩ := hout.trace
    have hreceived : l.received = [] := by
      cases l <;> first | rfl | exact absurd rfl (hl _ _ _ _)
    rw [entries, hreceived, List.nil_append, newEvents_of_trace hes]
    have hlog := hw.log fun v hv => allowed_of_isJoin (hjoin v hv)
    refine ⟨hlog.lawful, fun q => ?_⟩
    have hd := hlog.dealings q
    rw [log_peers] at hd
    obtain ⟨c, hc⟩ : ∃ c, w'.peers q = { w.peers q with conn := c } := by
      obtain ⟨c, hc | ⟨hq, hc⟩⟩ := hout.peers q
      · exact ⟨c, hc⟩
      · exact ⟨c, by rw [hc, hr.newcomers.unborn q hq]⟩
    by_cases hopen : (w.peers q).conn.isOpen = true
    · exact hd.of_conn (fun _ => hopen) (by rw [hc])
    · have hfresh : (w'.peers q).conn.isOpen = true → ∃ c, w.peers q = { conn := c } := fun ho =>
        hr.fresh q ((step_open hs ho).resolve_left hopen)
      rw [hc] at hfresh ⊢
      refine ⟨fun ho hx => ?_, fun ho hx => ?_, hd.told, hd.announced, hd.queued⟩
      · obtain ⟨c', hc'⟩ := hfresh ho
        rw [hc'] at hx
        cases hx
      · obtain ⟨c', hc'⟩ := hfresh ho
        rw [hc'] at hx
        cases hx
  · simp only [not_forall, not_not] at hl
    obtain ⟨p, messageID, payload, env, rfl⟩ := hl
    obtain ⟨-, hready, heff⟩ := step_frame hs
    have htake : Conduct f.hashes.length h (takeRead w p) := by
      refine hw.setPeer ((hw.dealings p).of_conn (fun _ => hready.1) rfl)
    obtain ⟨es, hes, hc⟩ :=
      heff.continues (by simpa [takeRead] using hready.1) hr.length_pieces htake
    have hes : w'.trace = w.trace ++ es := hes
    rw [entries, Label.received, newEvents_of_trace hes, ← List.append_assoc]
    exact hc

theorem conduct_run {ls : List Label} (h : exec (YTorrent.step sha1) f.start ls = some w) :
    Conduct f.hashes.length (history (YTorrent.step sha1) entries f.start ls) w := by
  have hall := history_invariant entries
    (I := fun h w => Reachable sha1 f w ∧ Conduct f.hashes.length h w)
    (fun h v l v' hs hv => ⟨hv.1.step hs, hv.2.step hv.1 hs⟩) (h := []) h
    ⟨.refl _, lawful_nil, fun p => ⟨nofun, nofun, ⟨nofun, nofun⟩, nofun, nofun⟩⟩
  exact hall.2

/-! ## The index of a REQUEST -/

/-- With at most `2^32` pieces every announced number fits the field. -/
theorem Announced.u32_eq (ha : Announced n h p i) (hn : n ≤ 2 ^ 32) : u32 i = i := by
  apply u32_of_lt
  obtain ⟨messageID, payload, -, ⟨-, -, rfl⟩ | ⟨-, hmem⟩⟩ := ha
  · exact readAsBE32_lt payload
  · have hlt := (mem_bitfieldIndexes.mp hmem).2.1
    omega

theorem Rule.of_u32 (hn : n ≤ 2 ^ 32) : ∀ {e : Entry}, Rule u32 n h e → Rule id n h e := by
  intro e he
  cases e with
  | received => trivial
  | event v =>
    cases v with
    | sent p m =>
      cases m with
      | request index begin length =>
        obtain ⟨hu, ht, i, ha, hi⟩ := he
        exact ⟨hu, ht, i, ha, by rw [hi, ha.u32_eq hn]; rfl⟩
      | handshake | interested | unchoke | havePiece | bitfield | pieceBlock | cancel => exact he
    | error | pieceCompleted | fault => exact he

/-- Every run obeys the choke and interest rules. The index of a REQUEST is the
    number of an announced piece modulo `2^32`, and the number itself when there
    are at most `2^32` pieces. -/
theorem protocol_rules {ls : List Label} (h : exec (YTorrent.step sha1) f.start ls = some w) :
    Lawful (Rule u32 f.hashes.length) (history (YTorrent.step sha1) entries f.start ls) ∧
      (f.hashes.length ≤ 2 ^ 32 →
        Lawful (Rule id f.hashes.length) (history (YTorrent.step sha1) entries f.start ls)) := by
  have hlawful := (conduct_run h).lawful
  exact ⟨hlawful, fun hn => hlawful.mono fun before e => Rule.of_u32 hn⟩

/-- In the one-byte download the piece is requested, and the rules are obeyed. -/
theorem protocol_rules_oneByte :
    .event (.sent 0 (.request 0 0 1)) ∈
        history (YTorrent.step sha1OfA) entries oneByteFile.start servingRun ∧
      Lawful (Rule id 1)
        (history (YTorrent.step sha1OfA) entries oneByteFile.start servingRun) :=
  ⟨by decide +kernel, (protocol_rules servingRun_exec).2 (by decide)⟩

/-! ## More than `2^32` pieces -/

/-- A torrent of `2^32 + 1` pieces of one byte. -/
def manyPieces : ParsedFile where
  hashes := List.replicate (2 ^ 32 + 1) (List.replicate 20 0)
  pieceLength := 1
  totalSize := 2 ^ 32 + 1
  file := []
  handshake := zeroHandshake

/-- The bitfield of a peer that has the last of those pieces only. -/
def lastPiece : List Byte := List.replicate (2 ^ 29) 0 ++ [128]

/-- A peer connects to us, stops choking us and sends the bitfield. -/
def manyPiecesRun : List Label :=
  [.accepted (some 1), .handshake 0 zeroHandshake, .frame 0 1 [] {}, .frame 0 5 lastPiece {}]

theorem length_manyPieces : manyPieces.hashes.length = 2 ^ 32 + 1 := List.length_replicate

theorem mem_lastPiece {k : ℕ} : k ∈ bitfieldIndexes lastPiece (2 ^ 32 + 1) ↔ k = 2 ^ 32 := by
  rw [mem_bitfieldIndexes]
  have hlen : lastPiece.length = 2 ^ 29 + 1 := by
    rw [lastPiece, List.length_append, List.length_replicate, List.length_singleton]
  constructor
  · rintro ⟨-, hk, hbit⟩
    by_contra hne
    have hlt : k / 8 < 2 ^ 29 := by omega
    have hzero : readU8 lastPiece (k / 8) = 0 := by
      rw [readU8, lastPiece, List.getD_append _ _ _ _ (by rw [List.length_replicate]; exact hlt),
        List.getD_eq_getElem?_getD, List.getElem?_replicate, if_pos hlt]
      rfl
    rw [hzero, Nat.zero_testBit] at hbit
    cases hbit
  · rintro rfl
    have hdiv : 2 ^ 32 / 8 = 2 ^ 29 := by norm_num
    have hlast : readU8 lastPiece (2 ^ 29) = 128 := by
      rw [readU8, lastPiece, List.getD_append_right _ _ _ _ (by rw [List.length_replicate]),
        List.length_replicate, Nat.sub_self]
      rfl
    rw [hdiv, hlast, hlen]
    exact ⟨by omega, by omega, by decide⟩

/-- The frames of the history are those of the run. -/
theorem received_history {ls : List Label} :
    ∀ {w : World}, .received p messageID payload ∈ history (YTorrent.step sha1) entries w ls →
      ∃ env, .frame p messageID payload env ∈ ls := by
  induction ls with
  | nil => intro w hmem; cases hmem
  | cons l ls ih =>
    intro w hmem
    rw [history] at hmem
    split at hmem
    · cases hmem
    · rcases List.mem_append.mp hmem with hmem | hmem
      · rcases List.mem_append.mp hmem with hmem | hmem
        · cases l with
          | frame p' messageID' payload' env =>
            cases List.mem_singleton.mp hmem
            exact ⟨env, List.mem_cons_self⟩
          | socketError | endpointLost | dial | connected | accepted | handshake | disconnectPeers =>
            cases hmem
        · obtain ⟨v, -, heq⟩ := List.mem_map.mp hmem
          cases heq
      · obtain ⟨env, hin⟩ := ih hmem
        exact ⟨env, List.mem_cons_of_mem l hin⟩

theorem manyPieces_ready (sha1 : List Byte → List ℕ) : ∃ w,
    exec (YTorrent.step sha1) manyPieces.start (manyPiecesRun.take 3) = some w ∧
      w.running = true ∧ w.Ready 0 ∧ (w.peers 0).hasPieceIndexes = [] ∧
      (w.peers 0).peerChoking = false ∧ w.torrent.pieces = manyPieces.start.torrent.pieces ∧
      w.torrent.completedPieces = 0 :=
  ⟨_, rfl, rfl, ⟨rfl, rfl⟩, rfl, rfl, rfl, rfl⟩

theorem blockPairs_ne_nil (length : ℕ) : blockPairs length ≠ [] := by
  unfold blockPairs
  cases length / maxBlockRequestSize with
  | zero => simp [blockLoop]
  | succ fuel =>
    rw [blockLoop]
    split <;> simp

/-- A peer that is not choking us and announces only piece `i`, never requested
    before, is sent a REQUEST for the truncated index. -/
theorem bitfield_requests {piece : Torrent.Piece} (hpayload : 1 ≤ payload.length)
    (hraw : ∀ k, k ∈ bitfieldIndexes payload w.torrent.pieces.length ↔ k = i)
    (hcomp : w.torrent.completedPieces ≠ w.torrent.pieces.length)
    (hpiece : w.torrent.pieces[i]? = some piece) (hfin : piece.finished = false)
    (hprio : piece.priority < int32Max) (hopen : (w.peers p).conn.isOpen = true)
    (hhas : (w.peers p).hasPieceIndexes = []) (hchoke : (w.peers p).peerChoking = false) :
    ∃ begin length, .sent p (.request (u32 i) begin length) ∈
      w.newEvents (Peer.handleMessage sha1 w p env MessageID.bitfield.toByte payload) := by
  obtain ⟨v, heq, hsel⟩ : ∃ v, Peer.handleMessage sha1 w p env _ payload = _ ∧ SelectEffect _ p v :=
    handleMessage_bitfield hpayload
  have hannounced : ∀ k, ((w.peers p).announce
      (bitfieldIndexes payload w.torrent.getTotalPieces)).hasPiece k = true ↔ k = i := by
    intro k
    rw [← hraw k]
    simp [Peer.announce, hasPiece, hhas, Torrent.getTotalPieces]
  rw [heq]
  cases hsel with
  | none h =>
    exfalso
    rcases h with hfull | hnone
    · simp [Torrent.isFullyDownloaded, hcomp] at hfull
    · rw [setPeer_peers_self] at hnone
      have hmax := Torrent.selected_none hnone hpiece hfin ((hannounced i).mpr rfl)
      omega
  | requested k hfull hsel =>
    rw [setPeer_peers_self] at hsel
    obtain ⟨-, -, -, hhas, -⟩ := Torrent.selected_some hsel
    obtain rfl : k = i := (hannounced k).mp hhas
    obtain ⟨⟨begin, length⟩, hbl⟩ := List.exists_mem_of_ne_nil _
      (blockPairs_ne_nil (w.torrent.pieceSize (u32 k)))
    refine ⟨u32 begin, u32 length, ?_⟩
    rw [newEvents_of_trace (read_trace ..)]
    refine mem_sentEvents.mpr ⟨by simpa [Peer.announce] using hopen, _, ?_, rfl⟩
    simp only [pieceRequestMessages, setPeer_peers_self, setPeer_torrent]
    rw [show ((w.peers p).announce _).peerChoking = false from hchoke, if_neg (by simp)]
    refine List.mem_cons_of_mem _ (List.mem_map.mpr ⟨_, hbl, ?_⟩)
    rw [u32_u32]

/-- A request in the history of a run that obeys the rules is for an announced piece. -/
theorem announced_of_lawful {ls : List Label} {l : Label} {index begin length : ℕ}
    (hexec : exec (YTorrent.step sha1) w ls = some w') (hs : ∃ u, YTorrent.step sha1 w' l = some u ∧
      .sent p (.request index begin length) ∈ w'.newEvents u)
    (hl : Lawful (Rule id n) (history (YTorrent.step sha1) entries w (ls ++ [l]))) :
    Announced n (history (YTorrent.step sha1) entries w (ls ++ [l])) p index := by
  obtain ⟨u, hs, hmem⟩ := hs
  have hhist : history (YTorrent.step sha1) entries w (ls ++ [l]) =
      history (YTorrent.step sha1) entries w ls ++ entries w' l u := by
    rw [history_append _ hexec]
    simp [history, hs]
  have hin : Entry.event (.sent p (.request index begin length)) ∈ entries w' l u :=
    List.mem_append_right _ (List.mem_map.mpr ⟨_, hmem, rfl⟩)
  rw [hhist] at hl ⊢
  obtain ⟨before, after, heq⟩ := List.append_of_mem hin
  obtain ⟨-, -, i, ha, hi⟩ := (lawful_append.mp hl).2 before _ after heq
  obtain rfl : index = i := hi
  rw [heq, ← List.append_assoc]
  exact ha.append _

/-- The REQUEST for piece `2^32` asks for piece 0, which was not announced. -/
theorem protocol_rules_fails : ¬ ∀ (sha1 : List Byte → List ℕ) (f : ParsedFile) (ls : List Label)
    (w : World), exec (YTorrent.step sha1) f.start ls = some w →
      Lawful (Rule id f.hashes.length) (history (YTorrent.step sha1) entries f.start ls) := by
  intro hall
  obtain ⟨w, hw, hrun, hready, hhas, hchoke, hpieces, hcomp⟩ := manyPieces_ready sha1OfA
  have hlen : w.torrent.pieces.length = 2 ^ 32 + 1 := by
    rw [hpieces]
    exact (List.length_map ..).trans length_manyPieces
  have hpiece : w.torrent.pieces[2 ^ 32]? = some { hash := List.replicate 20 0 } := by
    rw [hpieces]
    simp only [ParsedFile.start, manyPieces, List.getElem?_map, List.getElem?_replicate]
    rw [if_pos (by norm_num)]
    rfl
  have hstep : YTorrent.step sha1OfA w (.frame 0 5 lastPiece {}) =
      some (Peer.handleMessage sha1OfA (takeRead w 0) 0 {} 5 lastPiece) := by
    simp only [YTorrent.step, hrun, Bool.not_true, Bool.false_eq_true, if_false, if_pos hready]
  have hexec : exec (YTorrent.step sha1OfA) manyPieces.start manyPiecesRun = some _ :=
    exec_snoc.mpr ⟨w, hw, hstep⟩
  have hreq : ∃ begin length, .sent 0 (.request (u32 (2 ^ 32)) begin length) ∈
      (takeRead w 0).newEvents (Peer.handleMessage sha1OfA (takeRead w 0) 0 {} 5 lastPiece) := by
    refine bitfield_requests ?_ ?_ ?_ hpiece rfl (by decide) ?_ ?_ ?_
    · rw [lastPiece, List.length_append, List.length_singleton]
      omega
    · intro k
      rw [← mem_lastPiece, ← hlen]
      rfl
    · have hne : 0 ≠ w.torrent.pieces.length := by omega
      rwa [← hcomp] at hne
    · simpa [takeRead] using hready.1
    · simpa [takeRead] using hhas
    · simpa [takeRead] using hchoke
  obtain ⟨begin, length, hmem⟩ := hreq
  have hann := announced_of_lawful hw ⟨_, hstep, hmem⟩ (hall _ _ manyPiecesRun _ hexec)
  obtain ⟨messageID, payload, hrec, hor⟩ := hann
  obtain ⟨env, hin⟩ := received_history hrec
  rw [length_manyPieces] at hor
  simp only [manyPiecesRun, List.take_succ_cons, List.take_zero, List.cons_append, List.nil_append,
    List.mem_cons, List.not_mem_nil, or_false, reduceCtorEq, false_or, Label.frame.injEq] at hin
  rcases hin with ⟨-, rfl, rfl, -⟩ | ⟨-, rfl, rfl, -⟩
  · rcases hor with ⟨hid, -⟩ | ⟨hid, -⟩
    · exact absurd hid (by decide)
    · exact absurd hid (by decide)
  · rcases hor with ⟨hid, -⟩ | ⟨-, hmem⟩
    · exact absurd hid (by decide)
    · exact absurd (mem_lastPiece.mp hmem) (by decide)

end YTorrent
