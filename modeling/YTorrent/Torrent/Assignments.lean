import Mathlib.Data.List.Perm.Basic
import YTorrent.Torrent.PeerLists

/-!
# What becomes of the pieces assigned

Every call of `sendPieceRequest` assigns a piece to a peer: the priority of the piece is
raised, INTERESTED is written and an entry is queued. The entry leaves the queue when the
piece is handed to `handlePieceCompleted`, or when it is cancelled because another peer
has completed the piece. A buffer whose write fails ends the process with its entry
still queued.

* `assignments_settled`: there is one list of assignments that explains the priorities,
  the INTERESTED frames, and for every peer and piece the entries queued, the buffers
  handed on and the cancellations.
-/

namespace YTorrent

open World Peer

/-- The entry ends an assignment of piece `i` to `p`: the piece is handed on, without a
    failed write, or its first block is cancelled. -/
def Event.ends (p : PeerId) (i : ℕ) : Event → Bool
  | .pieceCompleted q piece _ r => q == p && piece.index == i && r != .ioFailed
  | .sent q (.cancel index begin _) => q == p && index == i && begin == 0
  | _ => false

/-- The entry neither makes nor ends an assignment. -/
def Event.IsPlain : Event → Prop
  | .pieceCompleted _ _ _ r => r = .ioFailed
  | .sent _ (.cancel ..) => False
  | .sent _ .interested => False
  | _ => True

/-- The entries for piece `i` in the queue of `p`. -/
def World.queued (w : World) (p : PeerId) (i : ℕ) : ℕ :=
  ((w.peers p).pieceQueue.map (·.index)).count i

/-- The assignments of piece `i` to `p` that have ended. -/
def World.ended (w : World) (p : PeerId) (i : ℕ) : ℕ := w.trace.countP (Event.ends p i)

/-- The list of all assignments made, each a peer and a piece, explains the state. -/
structure Assignments (assigned : List (PeerId × ℕ)) (w : World) : Prop where
  inside : ∀ a ∈ assigned, a.2 < w.torrent.pieces.length
  priority : ∀ i piece, w.torrent.pieces[i]? = some piece →
    piece.priority = ((assigned.map Prod.snd).count i : ℤ)
  interested : ∀ p, (w.messages p).count .interested = (assigned.map Prod.fst).count p
  settled : ∀ p i, w.queued p i + w.ended p i = assigned.count (p, i)

/-- No assignment is made between `w` and `w'`; what leaves a queue has ended. -/
structure Unassigned (w w' : World) : Prop where
  priority : w'.torrent.pieces.map (·.priority) = w.torrent.pieces.map (·.priority)
  interested : ∀ q, (w'.messages q).count .interested = (w.messages q).count .interested
  settled : ∀ q k, w'.queued q k + w'.ended q k = w.queued q k + w.ended q k

/-- Piece `i` is assigned to `p` between `w` and `w'`. -/
structure Assigns (w w' : World) (p : PeerId) (i : ℕ) : Prop where
  inside : i < w.torrent.pieces.length
  pieces : w'.torrent.pieces = (w.torrent.raisePriority i).pieces
  queue : ∀ q, (w'.peers q).pieceQueue.map (·.index) =
    (w.peers q).pieceQueue.map (·.index) ++ if p = q then [i] else []
  trace : ∃ es, w'.trace = w.trace ++ .sent p .interested :: es ∧ ∀ v ∈ es, v.IsPlain

variable {sha1 : List Byte → List ℕ} {f : ParsedFile} {u v w w' : World} {p q : PeerId}
  {env : Env} {messageID : Byte} {payload : List Byte} {l : Label} {i : ℕ}
  {assigned : List (PeerId × ℕ)}

/-! ## Steps without an assignment -/

theorem Event.IsPlain.not_ends {v : Event} (h : v.IsPlain) : ¬ v.ends p i = true := by
  cases v with
  | sent q m => cases m <;> first | exact Bool.false_ne_true | exact h.elim
  | pieceCompleted q piece data r =>
    rw [show r = .ioFailed from h]
    simp [Event.ends]
  | error | fault => exact Bool.false_ne_true

theorem Event.IsPlain.not_interested {v : Event} (h : v.IsPlain) :
    v.message? p ≠ some .interested := by
  intro hm
  rw [sent_of_message? hm] at h
  exact h

theorem ended_of_plain {es : List Event} (h : ∀ v ∈ es, v.IsPlain) :
    es.countP (Event.ends p i) = 0 :=
  List.countP_eq_zero.mpr fun v hv => (h v hv).not_ends

theorem interested_of_plain {es : List Event} (h : ∀ v ∈ es, v.IsPlain) :
    (es.filterMap (Event.message? p)).count .interested = 0 := by
  rw [List.count_eq_zero]
  intro hm
  obtain ⟨v, hv, hm⟩ := List.mem_filterMap.mp hm
  exact (h v hv).not_interested hm

theorem queued_congr (h : (w'.peers q).pieceQueue.map (·.index) =
    (w.peers q).pieceQueue.map (·.index)) : w'.queued q i = w.queued q i := by
  rw [World.queued, h, World.queued]

theorem ended_of_trace {es : List Event} (h : w'.trace = w.trace ++ es) :
    w'.ended p i = w.ended p i + es.countP (Event.ends p i) := by
  rw [World.ended, h, List.countP_append, World.ended]

theorem interested_of_trace {es : List Event} (h : w'.trace = w.trace ++ es) :
    (w'.messages p).count .interested = (w.messages p).count .interested +
      (es.filterMap (Event.message? p)).count .interested := by
  rw [World.messages, h, List.filterMap_append, List.count_append, World.messages]

namespace Unassigned

theorem refl (w : World) : Unassigned w w := ⟨rfl, fun _ => rfl, fun _ _ => rfl⟩

theorem trans (h : Unassigned u v) (h' : Unassigned v w) : Unassigned u w :=
  ⟨h'.priority.trans h.priority, fun q => (h'.interested q).trans (h.interested q),
    fun q k => (h'.settled q k).trans (h.settled q k)⟩

/-- The queues name the same pieces, and plain entries are recorded. -/
theorem of_plain (hpieces : w'.torrent.pieces.map (·.priority) =
      w.torrent.pieces.map (·.priority))
    (hqueue : ∀ q, (w'.peers q).pieceQueue.map (·.index) = (w.peers q).pieceQueue.map (·.index))
    (htrace : w.Adds w' Event.IsPlain) : Unassigned w w' := by
  obtain ⟨es, hes, hplain⟩ := htrace
  refine ⟨hpieces, fun q => ?_, fun q k => ?_⟩
  · rw [interested_of_trace hes, interested_of_plain hplain, Nat.add_zero]
  · rw [queued_congr (hqueue q), ended_of_trace hes, ended_of_plain hplain, Nat.add_zero]

theorem log {es : List Event} (hes : ∀ v ∈ es, v.IsPlain) : Unassigned w (w.log es) :=
  of_plain rfl (fun _ => rfl) (.log w hes)

theorem setPeer {x : Peer}
    (hx : x.pieceQueue.map (·.index) = (w.peers p).pieceQueue.map (·.index)) :
    Unassigned w (w.setPeer p x) := by
  refine of_plain rfl (fun q => ?_) (.of_eq rfl)
  by_cases hq : q = p
  · rw [hq, setPeer_peers_self, hx]
  · rw [setPeer_peers_of_ne _ _ hq]

theorem setConn (w : World) (p : PeerId) (c : Connection) : Unassigned w (w.setConn p c) :=
  setPeer rfl

theorem setTorrent {t : Torrent}
    (h : t.pieces.map (·.priority) = w.torrent.pieces.map (·.priority)) :
    Unassigned w (w.setTorrent t) :=
  of_plain h (fun _ => rfl) (.of_eq rfl)

theorem read (w : World) (p : PeerId) (rc : Pending) :
    Unassigned w (Connection.read w p rc) := by
  unfold Connection.read
  split
  · exact setConn w p _
  · exact refl w

theorem sent {c : Connection} {ms : List Message} (hms : ∀ m ∈ ms, (Event.sent p m).IsPlain) :
    Unassigned w (w.log (sentEvents c p ms)) := by
  refine log fun v hv => ?_
  obtain ⟨-, m, hm, rfl⟩ := mem_sentEvents.mp hv
  exact hms m hm

theorem handleError (w : World) (p : PeerId) (e : PeerError) :
    Unassigned w (Peer.handleError w p e) := by
  rw [handleError_eq]
  refine (setTorrent (w := w) ?_).trans ((setPeer ?_).trans (log ?_))
  · rfl
  · rfl
  · simp [Event.IsPlain]

theorem doneFault (w : World) (i : ℕ) : Unassigned w (w.log (doneFault w.torrent i)) := by
  refine log fun v hv => ?_
  rw [(mem_doneFault hv).2]
  trivial

theorem storeBlock {it : ℕ} {piece : Peer.Piece} (hacc : Accepts w p payload it piece) :
    Unassigned w (Peer.storeBlock w p payload it piece) :=
  (doneFault w _).trans (setPeer (map_index_set hacc))

theorem serve {index begin length : ℕ} (h : ServeEffect w p index begin length w') :
    Unassigned w w' := by
  cases h with
  | refused => exact setConn w p _
  | silent => exact setTorrent rfl
  | sent block =>
    refine (setTorrent (w := w) ?_).trans (sent fun m hm => ?_)
    · rfl
    · rw [List.mem_singleton.mp hm]
      trivial

theorem outside (hn : Newcomers w) (h : Outside w w') : Unassigned w w' := by
  refine of_plain (by rw [h.torrent]) (fun q => by rw [queue_of_outside hn h])
    (h.trace.mono fun v hv => ?_)
  cases v with
  | sent p m => cases m <;> trivial
  | error | fault => trivial
  | pieceCompleted => exact hv.elim

end Unassigned

/-! ## An entry leaves the queue -/

theorem count_concat {α : Type*} [BEq α] [LawfulBEq α] [DecidableEq α] (l : List α) (a b : α) :
    (l ++ [a]).count b = l.count b + if a = b then 1 else 0 := by
  rw [List.count_append, List.count_singleton]
  congr 1
  simp [beq_iff_eq]

/-- The entry at `it` leaves the queue of `p`. -/
theorem queued_erasePiece {it : ℕ} {piece : Peer.Piece}
    (hit : (w.peers p).pieceQueue[it]? = some piece) (q : PeerId) (k : ℕ) : w.queued q k =
      (erasePiece w p it).queued q k + if p = q ∧ piece.index = k then 1 else 0 := by
  rw [World.queued, World.queued, erasePiece_queue]
  by_cases hpq : p = q
  · subst hpq
    obtain ⟨hlt, rfl⟩ := List.getElem?_eq_some_iff.mp hit
    have hperm := (List.getElem_cons_eraseIdx_perm hlt).map (·.index)
    rw [if_pos rfl, ← hperm.count_eq k, List.map_cons, List.count_cons]
    simp
  · simp [hpq, Ne.symm hpq]

/-- The first block begins at 0, and no other one does. -/
theorem blockPairs_cons {s : ℕ} (hs : s ≤ 2 ^ 32) : ∃ len rest, blockPairs s = (0, len) :: rest ∧
    ∀ bl ∈ rest, u32 bl.1 ≠ 0 := by
  by_cases h0 : s = 0
  · subst h0
    exact ⟨0, [], rfl, by simp⟩
  · obtain ⟨n, hn⟩ : ∃ n, numBlocks s = n + 1 :=
      Nat.exists_eq_add_one.mpr (by unfold numBlocks maxBlockRequestSize; omega)
    rw [blockPairs_eq (Nat.pos_of_ne_zero h0), hn, List.range_succ_eq_map, List.map_cons,
      Nat.zero_mul]
    refine ⟨_, _, rfl, fun bl hbl => ?_⟩
    simp only [List.map_map, List.mem_map, List.mem_range, Function.comp_apply] at hbl
    obtain ⟨k, hk, rfl⟩ := hbl
    simp only [u32]
    unfold numBlocks maxBlockRequestSize at *
    omega

/-- Of the CANCELs for a piece one has begin 0. -/
theorem ended_cancels {t : Torrent} (hi : i < 2 ^ 32) (hle : t.pieceSize i ≤ 2 ^ 32) (q : PeerId)
    (k : ℕ) : ((cancels t i).map (Event.sent p)).countP (Event.ends q k) =
      if p = q ∧ i = k then 1 else 0 := by
  obtain ⟨len, rest, hpairs, hrest⟩ := blockPairs_cons hle
  have hu : u32 i = i := Nat.mod_eq_of_lt hi
  have hnone : ((rest.map fun bl => Message.cancel i (u32 bl.1) (u32 bl.2)).map
      (Event.sent p)).countP (Event.ends q k) = 0 := by
    rw [List.countP_eq_zero]
    intro v hv hends
    simp only [List.map_map, List.mem_map, Function.comp_apply] at hv
    obtain ⟨bl, hbl, rfl⟩ := hv
    have hne := hrest bl hbl
    simp [Event.ends, hne] at hends
  rw [cancels, hpairs, hu, List.map_cons, List.map_cons, List.countP_cons, hnone, Nat.zero_add]
  congr 1
  simp [Event.ends, u32]

/-- The assignment is cancelled. -/
theorem Unassigned.cancel {it : ℕ} {piece : Peer.Piece}
    (hit : (w.peers p).pieceQueue[it]? = some piece) (hopen : (w.peers p).conn.isOpen = true)
    (hi : piece.index < 2 ^ 32) (hle : w.torrent.pieceSize piece.index ≤ 2 ^ 32) :
    Unassigned w (erasePiece (w.log (sentEvents (w.peers p).conn p
      (cancels w.torrent piece.index))) p it) := by
  have htrace : (erasePiece (w.log (sentEvents (w.peers p).conn p
      (cancels w.torrent piece.index))) p it).trace =
        w.trace ++ (cancels w.torrent piece.index).map (Event.sent p) := by
    simp [erasePiece, sentEvents, hopen]
  refine ⟨rfl, fun q => ?_, fun q k => ?_⟩
  · rw [interested_of_trace htrace]
    have hnone : (((cancels w.torrent piece.index).map (Event.sent p)).filterMap
        (Event.message? q)).count .interested = 0 := by
      rw [List.count_eq_zero]
      intro hm
      obtain ⟨v, hv, hm⟩ := List.mem_filterMap.mp hm
      simp only [List.mem_map, cancels] at hv
      obtain ⟨m, ⟨bl, -, rfl⟩, rfl⟩ := hv
      have heq := sent_of_message? hm
      cases heq
    rw [hnone, Nat.add_zero]
  · rw [ended_of_trace htrace, ended_cancels hi hle]
    have hq := queued_erasePiece (w := w.log (sentEvents (w.peers p).conn p
      (cancels w.torrent piece.index))) hit q k
    have hsame : (w.log (sentEvents (w.peers p).conn p (cancels w.torrent piece.index))).queued q k
        = w.queued q k := rfl
    omega

/-- The buffer is handed on, and the process goes on. -/
theorem Unassigned.hand {it index : ℕ} {piece : Peer.Piece} {data : List Byte}
    (h : CompletionEffect sha1 w p piece index data w')
    (hit : (w.peers p).pieceQueue[it]? = some piece) (hrun : w'.running = true) :
    Unassigned w (erasePiece w' p it) := by
  have key : ∀ (v : World) (r : Completion) (es es' : List Event), v.peers = w.peers →
      v.torrent.pieces.map (·.priority) = w.torrent.pieces.map (·.priority) →
      v.trace = w.trace ++ (es ++ .pieceCompleted p piece data r :: es') → r ≠ .ioFailed →
      (∀ e ∈ es, e.IsPlain) → (∀ e ∈ es', e.IsPlain) → Unassigned w (erasePiece v p it) := by
    intro v r es es' hpeers hprio htrace hr hes hes'
    have htrace' : (erasePiece v p it).trace = w.trace ++
      (es ++ .pieceCompleted p piece data r :: es') := htrace
    refine ⟨hprio, fun q => ?_, fun q k => ?_⟩
    · rw [interested_of_trace htrace', List.filterMap_append, List.count_append,
        interested_of_plain hes, List.filterMap_cons]
      simp [Event.message?, interested_of_plain hes']
    · have hit' : (v.peers p).pieceQueue[it]? = some piece := hpeers ▸ hit
      have hq := queued_erasePiece hit' q k
      have hsame : v.queued q k = w.queued q k := by rw [World.queued, hpeers, World.queued]
      have hone : Event.ends q k (.pieceCompleted p piece data r) = true ↔
          p = q ∧ piece.index = k := by
        simp [Event.ends, hr]
      rw [ended_of_trace htrace', List.countP_append, ended_of_plain hes, List.countP_cons,
        ended_of_plain hes']
      by_cases hpk : p = q ∧ piece.index = k
      · rw [if_pos hpk] at hq
        rw [if_pos (hone.mpr hpk)]
        omega
      · rw [if_neg hpk] at hq
        rw [if_neg fun h => hpk (hone.mp h)]
        omega
  cases h with
  | mismatch hash =>
    exact key _ .mismatch [] [] rfl rfl rfl (by decide) (by simp) (by simp)
  | ioFailed => cases hrun
  | stored hash hpos =>
    refine key _ .stored (bitFault w.torrent index) (haveEvents w index) rfl
      (map_modify_of_eq fun _ => rfl) rfl (by decide) (fun v hv => ?_) fun v hv => ?_
    · rw [(mem_bitFault hv).2]
      trivial
    · obtain ⟨q, -, -, -, rfl⟩ := mem_haveEvents.mp hv
      trivial

/-- The write of the buffer fails. -/
theorem Unassigned.lost {index : ℕ} {piece : Peer.Piece} {data : List Byte}
    (h : CompletionEffect sha1 w p piece index data w') (hw : w.running = true)
    (hrun : w'.running = false) : Unassigned w w' := by
  cases h with
  | mismatch => exact absurd hw (by rw [show w.running = false from hrun]; decide)
  | stored => exact absurd hw (by rw [show w.running = false from hrun]; decide)
  | ioFailed hash file hfile =>
    exact .of_plain rfl (fun _ => rfl) ⟨_, rfl, by simp [Event.IsPlain]⟩

/-! ## A piece is assigned -/

/-- REQUESTs make no assignment. -/
theorem plain_requests {t : Torrent} {m : Message} (h : m ∈ requests t i) :
    (Event.sent p m).IsPlain := by
  obtain ⟨bl, -, rfl⟩ := List.mem_map.mp h
  trivial

/-- A selection assigns at most one piece. -/
theorem SelectEffect.assigns (h : SelectEffect w p w') (hopen : (w.peers p).conn.isOpen = true)
    (hn : w.torrent.pieces.length ≤ 2 ^ 32) : w' = w ∨ ∃ i, Assigns w w' p i := by
  cases h with
  | none => exact .inl rfl
  | requested i hfull hsel =>
    obtain ⟨piece, hi, -⟩ := Torrent.selected_some hsel
    have hlt : i < w.torrent.pieces.length := (List.getElem?_eq_some_iff.mp hi).1
    have hu : u32 i = i := Nat.mod_eq_of_lt (Nat.lt_of_lt_of_le hlt hn)
    refine .inr ⟨i, hlt, rfl, fun q => ?_, sentEvents (w.peers p).conn p
      (if (w.peers p).peerChoking then [] else requests w.torrent i), ?_, fun v hv => ?_⟩
    · rw [hu, log_peers]
      by_cases hpq : p = q
      · subst hpq
        simp [queuePiece, Piece.new]
      · rw [setPeer_peers_of_ne _ _ (Ne.symm hpq), if_neg hpq, List.append_nil]
        rfl
    · simp [hu, sentEvents, pieceRequestMessages, hopen]
    · obtain ⟨-, m, hm, rfl⟩ := mem_sentEvents.mp hv
      split at hm
      · cases hm
      · exact plain_requests hm

theorem Assignments.unassigned (h : Assignments assigned w) (hs : Unassigned w w') :
    Assignments assigned w' := by
  have hlen := congrArg List.length hs.priority
  rw [List.length_map, List.length_map] at hlen
  refine ⟨fun a ha => hlen ▸ h.inside a ha, fun i piece hi => ?_,
    fun q => (hs.interested q).trans (h.interested q),
    fun q k => (hs.settled q k).trans (h.settled q k)⟩
  have hmap : (w.torrent.pieces.map (·.priority))[i]? = some piece.priority := by
    rw [← hs.priority, List.getElem?_map, hi]
    rfl
  rw [List.getElem?_map] at hmap
  obtain ⟨piece', hi', hprio⟩ := Option.map_eq_some_iff.mp hmap
  rw [← hprio]
  exact h.priority i piece' hi'

theorem Assignments.assigns (h : Assignments assigned w) (hs : Assigns w w' p i) :
    Assignments (assigned ++ [(p, i)]) w' := by
  obtain ⟨es, hes, hplain⟩ := hs.trace
  have hlen : w'.torrent.pieces.length = w.torrent.pieces.length := by
    rw [hs.pieces, Torrent.raisePriority, List.length_modify]
  refine ⟨fun a ha => ?_, fun k piece hk => ?_, fun q => ?_, fun q k => ?_⟩
  · rw [hlen]
    rcases List.mem_append.mp ha with ha | ha
    · exact h.inside a ha
    · rw [List.mem_singleton.mp ha]
      exact hs.inside
  · rw [hs.pieces, Torrent.raisePriority, List.getElem?_modify] at hk
    obtain ⟨x, hx, rfl⟩ := Option.map_eq_some_iff.mp hk
    have hprio := h.priority k x hx
    rw [List.map_append, List.map_singleton, count_concat]
    by_cases hik : i = k
    · simp [hik, hprio]
    · simp [hik, hprio]
  · have hnone := interested_of_plain (p := q) hplain
    rw [interested_of_trace hes, h.interested q, List.map_append, List.map_singleton, count_concat,
      List.filterMap_cons]
    by_cases hpq : p = q
    · simp [Event.message?, hpq, hnone]
    · simp [Event.message?, hpq, hnone]
  · have hended : w'.ended q k = w.ended q k := by
      rw [ended_of_trace hes, List.countP_cons, ended_of_plain hplain]
      rfl
    have hqueued : w'.queued q k = w.queued q k + if p = q ∧ i = k then 1 else 0 := by
      rw [World.queued, hs.queue q, List.count_append, World.queued]
      congr 1
      by_cases hpq : p = q
      · simp [hpq, List.count_singleton]
      · simp [hpq]
    have hone : ((p, i) = (q, k)) = (p = q ∧ i = k) := by simp
    rw [count_concat, ← h.settled q k, hended, hqueued]
    simp only [hone]
    omega

/-! ## Steps and runs -/

/-- The handling of a frame ends or makes assignments of its peer only as recorded. -/
theorem Assignments.frame (h : Assignments assigned w)
    (hf : FrameEffect sha1 w p env messageID payload w') (hrun : w.running = true)
    (hopen : (w.peers p).conn.isOpen = true) (hn : w.torrent.pieces.length ≤ 2 ^ 32)
    (hlt : ∀ e ∈ (w.peers p).pieceQueue, e.index < w.torrent.pieces.length)
    (hle : ∀ i, w.torrent.pieceSize i ≤ 2 ^ 32) : ∃ assigned', Assignments assigned' w' := by
  have hselect : ∀ {v v' : World}, Unassigned w v → (v.peers p).conn = (w.peers p).conn →
      v.torrent.pieces.length = w.torrent.pieces.length → SelectEffect v p v' →
      ∃ assigned', Assignments assigned' (Connection.read v' p .message) := by
    intro v v' hv hconn hlen hsel
    have hv := h.unassigned hv
    rcases hsel.assigns (by rw [hconn]; exact hopen) (hlen ▸ hn) with rfl | ⟨i, hi⟩
    · exact ⟨_, hv.unassigned (.read _ p _)⟩
    · exact ⟨_, (hv.assigns hi).unassigned (.read _ p _)⟩
  cases hf with
  | ignored => exact ⟨_, h.unassigned (.read w p _)⟩
  | refused e => exact ⟨_, h.unassigned (.handleError w p e)⟩
  | choke | notInterested | havePiece =>
    refine ⟨_, h.unassigned ((Unassigned.setPeer ?_).trans (.read _ p _))⟩
    rfl
  | unchoke =>
    refine ⟨_, h.unassigned (((Unassigned.setPeer ?_).trans (.sent fun m hm => ?_)).trans
      (.read _ p _))⟩
    · rfl
    obtain ⟨e, -, hm⟩ := List.mem_flatMap.mp hm
    exact plain_requests hm
  | interested =>
    refine ⟨_, h.unassigned (((Unassigned.setPeer ?_).trans (.sent fun m hm => ?_)).trans
      (.read _ p _))⟩
    · rfl
    split at hm
    · rw [List.mem_singleton.mp hm]
      trivial
    · cases hm
  | bitfield hid v hsel =>
    refine hselect (.setPeer ?_) ?_ rfl hsel
    · rfl
    · rw [setPeer_peers_self]
      rfl
  | request hid hsize hint hchoke hlen v hserve =>
    have hdone := Unassigned.doneFault w (requestFields payload).1
    rcases hserve with ⟨-, rfl⟩ | ⟨-, hserve⟩
    · exact ⟨_, h.unassigned (hdone.trans (.read _ p _))⟩
    · exact ⟨_, h.unassigned ((hdone.trans (.serve hserve)).trans (.read _ p _))⟩
  | cancelled hid it piece hacc hdone =>
    have hlt := hlt piece hacc.mem
    rw [← log_log]
    have hcancel := Unassigned.cancel
      (w := w.log (doneFault w.torrent (blockFields payload).1)) (findPiece_some hacc.found).1 hopen
      (Nat.lt_of_lt_of_le hlt hn) (hle _)
    exact ⟨_, h.unassigned (((Unassigned.doneFault w _).trans hcancel).trans (.read _ p _))⟩
  | stored hid it piece hacc =>
    exact ⟨_, h.unassigned ((Unassigned.storeBlock hacc).trans (.read _ p _))⟩
  | ioFailed hid it piece hacc hdone hlast v hcomp hstop =>
    exact ⟨_, h.unassigned ((Unassigned.storeBlock hacc).trans (.lost hcomp hrun hstop))⟩
  | completed hid it piece hacc hdone hlast v v' hcomp hgoes hsel =>
    have hit : ((storeBlock w p payload it piece).peers p).pieceQueue[it]? =
        some (piece.put payload) := by
      rw [storeBlock_queue, if_pos rfl, List.getElem?_set_self hacc.lt_length]
    refine hselect ((Unassigned.storeBlock hacc).trans (.hand hcomp hit hgoes)) ?_ ?_ hsel
    · simp [erasePiece, hcomp.peers, storeBlock]
    · exact hcomp.pieceSize.1

/-- In every reachable state one list of assignments explains the priorities of the
    pieces, the INTERESTED frames written to each peer, and for each peer and piece the
    entries queued together with the assignments that have ended. A message that is handled
    after its connection has been closed is no step: it can take an entry from the queue
    without a CANCEL. -/
theorem assignments_settled (h : Reachable sha1 f w) (hn : f.hashes.length ≤ 2 ^ 32)
    (hpos : 0 < f.pieceLength) (hle : f.pieceLength ≤ 2 ^ 32) :
    ∃ assigned, Assignments assigned w := by
  have hboth : Reachable sha1 f w ∧ ∃ assigned, Assignments assigned w := by
    refine h.invariant (I := fun w => Reachable sha1 f w ∧ ∃ assigned, Assignments assigned w) ?_
      ⟨.refl _, [], ?_⟩
    · rintro v l v' hs ⟨hr, assigned, ha⟩
      refine ⟨hr.step hs, ?_⟩
      rcases step_cases hs with ⟨p, messageID, payload, env, rfl, hready, heff⟩ | hout
      · have htake := ha.unassigned
          (.setConn v p { (v.peers p).conn with pending := .none })
        refine htake.frame heff (step_effect hs).1 ?_ ?_ ?_ ?_
        · simpa using hready.1
        · rw [setConn_torrent, hr.length_pieces]
          exact hn
        · intro e he
          rw [setConn_pieceQueue] at he
          exact queue_index_lt hr p e he
        · intro i
          rw [setConn_torrent, hr.pieceSize]
          exact (pieceSize_le (t := f.start.torrent) hpos i).trans hle
      · exact ⟨_, ha.unassigned (.outside hr.newcomers hout)⟩
    · refine ⟨by simp, fun i piece hi => ?_, fun p => rfl, fun p i => rfl⟩
      simp only [ParsedFile.start, List.getElem?_map, Option.map_eq_some_iff] at hi
      obtain ⟨hash, -, rfl⟩ := hi
      rfl
  exact hboth.2

/-- The one piece of the one-byte download was assigned once, to the peer that sent it. -/
theorem assignments_settled_oneByte : ∃ assigned, Assignments assigned oneByteDone ∧
    assigned.count (0, 0) = 1 := by
  obtain ⟨assigned, h⟩ :=
    assignments_settled oneByteDone_reachable (by decide) (by decide) (by decide)
  exact ⟨assigned, h, by rw [← h.settled]; decide +kernel⟩

end YTorrent
