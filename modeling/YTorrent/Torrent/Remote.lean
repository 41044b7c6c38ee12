import YTorrent.Torrent.Transfer
import YTorrent.Torrent.Wire

/-!
# A conformant remote

The far end of one connection, as the protocol describes it. A remote announces
only pieces it has, keeps the REQUESTs that reach it while it is not choking us,
forgets them when it chokes us, drops what a CANCEL names, and sends PIECE frames
only for requests it keeps, with the true data. It acts when it likes
(`RemoteAction`), and both directions of the connection are queues.

* `Remote.live`: the blocks we have requested that can still arrive.
* `Link`: the client's queue is sound for them, every PIECE frame on its way is
  true, and what has been cancelled is settled.
* `Link.act`: every action of a remote keeps it, if a block is not sent while its
  CANCEL is on its way.
* `Link.put`, `Link.erase`, `Link.cancel`, `Link.tell`: so do the things the client
  does.
-/

namespace YTorrent

open Peer

/-- The block a REQUEST names. -/
def Message.request? : Message → Option BlockId
  | request index begin length => some (index, begin, length)
  | _ => none

/-- The block a CANCEL names. -/
def Message.cancel? : Message → Option BlockId
  | cancel index begin length => some (index, begin, length)
  | _ => none

/-- The block a PIECE frame answers. -/
def Call.block? (c : Call) : Option BlockId :=
  if MessageID.ofByte c.messageID = some .pieceBlock then
    some ((blockFields c.payload).1, (blockFields c.payload).2, (blockData c.payload).length)
  else none

/-- The remote: the pieces it has, whether it is choking us, the requests it keeps,
    and the messages on their way to it and from it. -/
structure Remote where
  has : List ℕ := []
  choking : Bool := true
  fifo : List BlockId := []
  inbox : List Message := []
  outbox : List Call := []
  deriving DecidableEq, Repr

/-- What a remote does next: it gets a piece, announces one or several, chokes or
    unchokes us, receives the next message, serves the `k`-th request it keeps, or
    sends some other message. -/
inductive RemoteAction
  | gain (index : ℕ)
  | announce (index : ℕ)
  | bitfield (raw : List Byte)
  | choke
  | unchoke
  | receive
  | serve (k : ℕ)
  | say (c : Call)
  deriving DecidableEq, Repr

namespace Remote

variable (r : Remote)

def send (c : Call) : Remote := { r with outbox := r.outbox ++ [c] }

/-- Messages are written to the remote. -/
def tell (ms : List Message) : Remote := { r with inbox := r.inbox ++ ms }

/-- The first message from the remote has arrived. -/
def taken : Remote := { r with outbox := r.outbox.tail }

/-- The remote handles a message. -/
def handle : Message → Remote
  | .request index begin length =>
    if r.choking then r else { r with fifo := r.fifo ++ [(index, begin, length)] }
  | .cancel index begin length => { r with fifo := r.fifo.filter (· ≠ (index, begin, length)) }
  | _ => r

/-- The ids of the messages that say nothing of pieces, choking and blocks. -/
def IsOther (messageID : Byte) : Prop :=
  ∀ m ∈ MessageID.ofByte messageID,
    m ∉ [MessageID.choke, .unchoke, .havePiece, .bitfield, .pieceBlock]

instance (messageID : Byte) : Decidable (IsOther messageID) := by
  unfold IsOther; infer_instance

/-- One action of the remote, for a torrent of `n` pieces whose blocks have the
    data `truth`. -/
def act (n : ℕ) (truth : BlockId → List Byte) : RemoteAction → Option Remote
  | .gain index => some { r with has := r.has ++ [index] }
  | .announce index =>
    if index ∈ r.has ∧ index < 2 ^ 32 then some (r.send (Message.havePiece index).call) else none
  | .bitfield raw =>
    if ∀ i ∈ bitfieldIndexes raw n, i ∈ r.has then
      some (r.send ⟨MessageID.bitfield.toByte, raw⟩)
    else none
  | .choke => some ({ r with choking := true, fifo := [] }.send ⟨MessageID.choke.toByte, []⟩)
  | .unchoke => some ({ r with choking := false }.send ⟨MessageID.unchoke.toByte, []⟩)
  | .receive =>
    match r.inbox with
    | [] => none
    | m :: inbox => some ({ r with inbox := inbox }.handle m)
  | .serve k =>
    r.fifo[k]?.bind fun b =>
      if b.1 ∈ r.has then
        some ({ r with fifo := r.fifo.eraseIdx k }.send (Message.pieceBlock b.1 b.2.1 (truth b)).call)
      else none
  | .say c => if IsOther c.messageID then some (r.send c) else none

/-- The blocks whose CANCEL is on its way. -/
def cancelled : List BlockId := r.inbox.filterMap Message.cancel?

/-- The blocks we have requested that can still arrive: those sent, and those
    requested that no CANCEL is going to drop. -/
def live : List BlockId :=
  r.outbox.filterMap Call.block? ++
    (r.fifo ++ r.inbox.filterMap Message.request?).filter (· ∉ r.cancelled)

end Remote

/-- The blocks of the pieces below `n` are named by 32-bit fields and have the data
    `truth`. -/
structure Sized (n : ℕ) (size : ℕ → ℕ) (truth : BlockId → List Byte) : Prop where
  count : n ≤ 2 ^ 32
  pos : ∀ i < n, 0 < size i
  size_lt : ∀ i < n, size i < 2 ^ 32
  length : ∀ i < n, ∀ k < numBlocks (size i),
    (truth (blockId size i k)).length = blockLength (size i) k

/-- The client's queue and the remote of one connection. -/
structure Link (size : ℕ → ℕ) (truth : BlockId → List Byte) (finished : ℕ → Bool)
    (queue : List Peer.Piece) (r : Remote) : Prop where
  sound : Sound size truth queue r.live
  truthful : ∀ c ∈ r.outbox, ∀ b ∈ c.block?, blockData c.payload = truth b
  settled : ∀ b ∈ r.cancelled, finished b.1 = true ∧ ∀ e ∈ queue, e.index ≠ b.1
  ordered : r.inbox.Pairwise fun m m' => ∀ b ∈ m.cancel?, m'.request? ≠ some b

variable {n : ℕ} {size : ℕ → ℕ} {truth : BlockId → List Byte} {finished finished' : ℕ → Bool}
  {queue queue' : List Peer.Piece} {r r' : Remote} {a : RemoteAction} {c : Call} {b : BlockId}
  {ms : List Message} {e : Peer.Piece} {it i k : ℕ} {payload : List Byte}

/-! ## Blocks and frames -/

theorem block?_of_id (h : MessageID.ofByte c.messageID ≠ some .pieceBlock) : c.block? = none :=
  if_neg h

theorem block?_of_ne {m : MessageID} (hm : m ≠ .pieceBlock) (payload : List Byte) :
    Call.block? ⟨m.toByte, payload⟩ = none :=
  block?_of_id (by simpa using hm)

theorem block?_pieceBlock {index begin : ℕ} (hi : index < 2 ^ 32) (hb : begin < 2 ^ 32)
    (block : List Byte) :
    (Message.pieceBlock index begin block).call.block? = some (index, begin, block.length) := by
  have hfields := blockFields_write hi hb block
  simp only [Call.block?, Message.call, Message.id?, Message.payload, Option.map_some,
    Option.getD_some, MessageID.ofByte_toByte, if_true, hfields]
  rfl

/-- The fields of a block fit 32 bits. -/
theorem Sized.fields_lt (hz : Sized n size truth) (hi : i < n) (hk : k < numBlocks (size i)) :
    i < 2 ^ 32 ∧ k * maxBlockRequestSize < 2 ^ 32 ∧ blockLength (size i) k < 2 ^ 32 := by
  have hend := block_end_le hk
  have hsize := hz.size_lt i hi
  have hcount := hz.count
  omega

/-- The REQUESTs of a piece name its blocks. -/
theorem Sized.pairs (hz : Sized n size truth) (hi : i < n) :
    ((blockPairs (size i)).map fun bl => (u32 i, u32 bl.1, u32 bl.2)) = pieceBlocks size i := by
  rw [blockPairs_eq (hz.pos i hi), pieceBlocks, List.map_map]
  apply List.map_congr_left
  intro k hk
  obtain ⟨h1, h2, h3⟩ := hz.fields_lt hi (List.mem_range.mp hk)
  simp only [Function.comp_apply, blockId, u32_of_lt h1, u32_of_lt h2, u32_of_lt h3]

theorem Sized.requests {t : Torrent} (hz : Sized n t.pieceSize truth) (hi : i < n) :
    (requests t i).filterMap Message.request? = pieceBlocks t.pieceSize i := by
  rw [← hz.pairs hi, YTorrent.requests, List.filterMap_map, ← List.filterMap_eq_map]
  rfl

theorem Sized.cancels {t : Torrent} (hz : Sized n t.pieceSize truth) (hi : i < n) :
    (cancels t i).filterMap Message.cancel? = pieceBlocks t.pieceSize i := by
  rw [← hz.pairs hi, YTorrent.cancels, List.filterMap_map, ← List.filterMap_eq_map]
  rfl

theorem cancel?_requests (t : Torrent) (i : ℕ) : (requests t i).filterMap Message.cancel? = [] := by
  refine List.filterMap_eq_nil_iff.mpr fun m hm => ?_
  obtain ⟨bl, -, rfl⟩ := List.mem_map.mp hm
  rfl

theorem request?_cancels (t : Torrent) (i : ℕ) : (cancels t i).filterMap Message.request? = [] := by
  refine List.filterMap_eq_nil_iff.mpr fun m hm => ?_
  obtain ⟨bl, -, rfl⟩ := List.mem_map.mp hm
  rfl

/-! ## What is still on its way -/

namespace Remote

theorem live_taken {rest : List Call} (h : r.outbox = c :: rest) :
    r.live = c.block?.toList ++ r.taken.live := by
  simp only [live, taken, h, List.tail_cons, List.filterMap_cons]
  cases c.block? <;> rfl

theorem live_send (r : Remote) (hc : c.block? = none) : (r.send c).live = r.live := by
  simp [live, send, hc, cancelled]

@[simp] theorem tell_nil (r : Remote) : r.tell [] = r := by simp [tell]

theorem tell_tell (r : Remote) (ms ms' : List Message) :
    (r.tell ms).tell ms' = r.tell (ms ++ ms') := by
  simp [tell]

theorem cancelled_tell (r : Remote) (ms : List Message) :
    (r.tell ms).cancelled = r.cancelled ++ ms.filterMap Message.cancel? :=
  List.filterMap_append

theorem live_tell (r : Remote) (hm : ms.filterMap Message.cancel? = []) : (r.tell ms).live =
    r.live ++ (ms.filterMap Message.request?).filter (· ∉ r.cancelled) := by
  rw [live, cancelled_tell, hm, List.append_nil]
  simp only [live, tell, List.filterMap_append, List.filter_append, List.append_assoc]

/-- After the CANCELs of a piece what is still on its way was so before, and a block
    of the piece only if it has been sent. -/
theorem live_cancel (r : Remote) (hc : ms.filterMap Message.cancel? = pieceBlocks size i)
    (hm : ms.filterMap Message.request? = []) :
    (r.tell ms).live.Sublist r.live ∧
      ∀ b ∈ (r.tell ms).live, b ∈ pieceBlocks size i → ∃ c ∈ r.outbox, c.block? = some b := by
  have hlive : (r.tell ms).live = r.outbox.filterMap Call.block? ++
      (r.fifo ++ r.inbox.filterMap Message.request?).filter
        (· ∉ r.cancelled ++ pieceBlocks size i) := by
    rw [live, cancelled_tell, hc]
    simp only [tell, List.filterMap_append, hm, List.append_nil]
  rw [hlive]
  constructor
  · refine List.Sublist.append_left (List.monotone_filter_right _ fun b hb => ?_) _
    simp only [List.mem_append, not_or, decide_eq_true_eq] at hb ⊢
    exact hb.1
  · intro b hb hpiece
    rcases List.mem_append.mp hb with hb | hb
    · exact List.mem_filterMap.mp hb
    · have hnot := of_decide_eq_true (List.mem_filter.mp hb).2
      exact absurd (List.mem_append_right _ hpiece) hnot

end Remote

/-! ## What the remote does -/

namespace Link

theorem mono (h : Link size truth finished queue r)
    (hf : ∀ i, finished i = true → finished' i = true) : Link size truth finished' queue r :=
  ⟨h.sound, h.truthful, fun b hb => ⟨hf _ (h.settled b hb).1, (h.settled b hb).2⟩, h.ordered⟩

/-- The remote sends a message that is not a block. -/
theorem send (h : Link size truth finished queue r) (hc : c.block? = none) :
    Link size truth finished queue (r.send c) where
  sound := by
    rw [r.live_send hc]
    exact h.sound
  truthful c' hc' := by
    rcases List.mem_append.mp hc' with hc' | hc'
    · exact h.truthful c' hc'
    · rw [List.mem_singleton.mp hc', hc]
      intro b hb
      cases hb
  settled := h.settled
  ordered := h.ordered

/-- The remote drops requests. -/
theorem forget (h : Link size truth finished queue r) {fifo : List BlockId}
    (hsub : fifo.Sublist r.fifo) (choking : Bool) :
    Link size truth finished queue { r with choking := choking, fifo := fifo } where
  sound := h.sound.subperm
    (((hsub.append_right _).filter _).append_left _).subperm
  truthful := h.truthful
  settled := h.settled
  ordered := h.ordered

/-- The remote receives a message. -/
theorem receive (h : Link size truth finished queue r) {m : Message} {inbox : List Message}
    (hin : r.inbox = m :: inbox) :
    Link size truth finished queue ({ r with inbox := inbox }.handle m) := by
  obtain ⟨hfirst, hord⟩ := List.pairwise_cons.mp (hin ▸ h.ordered)
  have hcancelled : r.cancelled = m.cancel?.toList ++ inbox.filterMap Message.cancel? := by
    rw [Remote.cancelled, hin, List.filterMap_cons]
    cases m.cancel? <;> rfl
  have hsettled : ∀ b ∈ inbox.filterMap Message.cancel?,
      finished b.1 = true ∧ ∀ e ∈ queue, e.index ≠ b.1 := fun b hb =>
    h.settled b (hcancelled ▸ List.mem_append_right _ hb)
  have hsound := h.sound
  rw [Remote.live, hcancelled, hin, List.filterMap_cons] at hsound
  cases m with
  | request index begin length =>
    simp only [Message.request?, Message.cancel?, Option.toList_none, List.nil_append] at hsound
    rw [Remote.handle]
    split
    · refine ⟨hsound.subperm ?_, h.truthful, hsettled, hord⟩
      have hsub : (r.fifo ++ inbox.filterMap Message.request?).Sublist
          (r.fifo ++ (index, begin, length) :: inbox.filterMap Message.request?) :=
        (List.sublist_cons_self _ _).append_left _
      exact ((hsub.filter _).append_left _).subperm
    · refine ⟨?_, h.truthful, hsettled, hord⟩
      show Sound size truth queue (_ ++ ((r.fifo ++ [(index, begin, length)]) ++ _).filter _)
      rw [List.append_assoc]
      exact hsound
  | cancel index begin length =>
    simp only [Message.request?, Message.cancel?, Option.toList_some] at hsound
    refine ⟨?_, h.truthful, hsettled, hord⟩
    -- the requests behind the CANCEL name other blocks
    have hlive : ∀ b ∈ inbox.filterMap Message.request?, b ≠ (index, begin, length) := by
      rintro b hb rfl
      obtain ⟨m', hm', hreq⟩ := List.mem_filterMap.mp hb
      exact hfirst m' hm' _ rfl hreq
    have heq : (r.fifo.filter (· ≠ (index, begin, length)) ++
          inbox.filterMap Message.request?).filter (· ∉ inbox.filterMap Message.cancel?) =
        (r.fifo ++ inbox.filterMap Message.request?).filter
          (· ∉ (index, begin, length) :: inbox.filterMap Message.cancel?) := by
      rw [List.filter_append, List.filter_append, List.filter_filter]
      congr 1
      · apply List.filter_congr
        intro b _
        by_cases hb : b = (index, begin, length) <;> simp [hb]
      · apply List.filter_congr
        intro b hb
        simp [hlive b hb]
    have hgoal : Sound size truth queue (r.outbox.filterMap Call.block? ++
        (r.fifo.filter (· ≠ (index, begin, length)) ++ inbox.filterMap Message.request?).filter
          (· ∉ inbox.filterMap Message.cancel?)) := by
      rw [heq]
      exact hsound
    exact hgoal
  | handshake | interested | unchoke | havePiece | bitfield | pieceBlock =>
    exact ⟨hsound, h.truthful, hsettled, hord⟩

/-- The remote serves a request that no CANCEL is going to drop. -/
theorem serve (h : Link size truth finished queue r) (hz : Sized n size truth)
    (hq : ∀ e ∈ queue, e.index < n) (hk : r.fifo[k]? = some b) (hb : b ∉ r.cancelled) :
    Link size truth finished queue ({ r with fifo := r.fifo.eraseIdx k }.send
      (Message.pieceBlock b.1 b.2.1 (truth b)).call) := by
  have hpass : (decide (b ∉ r.cancelled)) = true := by simpa using hb
  have hmem : b ∈ r.live := by
    refine List.mem_append_right _ (List.mem_filter.mpr ⟨?_, hpass⟩)
    exact List.mem_append_left _ (List.mem_of_getElem? hk)
  have hblock : (Message.pieceBlock b.1 b.2.1 (truth b)).call.block? = some b := by
    obtain ⟨e, he, j, hj, rfl, -⟩ := h.sound.lacked b hmem
    obtain ⟨h1, h2, -⟩ := hz.fields_lt (hq e he) hj
    rw [block?_pieceBlock (show (blockId size e.index j).1 < 2 ^ 32 from h1)
      (show (blockId size e.index j).2.1 < 2 ^ 32 from h2), hz.length e.index (hq e he) j hj]
    rfl
  constructor
  · refine h.sound.subperm (List.Perm.subperm ?_)
    have hperm : (b :: r.fifo.eraseIdx k).Perm r.fifo := by
      obtain ⟨hlt, rfl⟩ := List.getElem?_eq_some_iff.mp hk
      exact List.getElem_cons_eraseIdx_perm hlt
    have hsend : ({ r with fifo := r.fifo.eraseIdx k }.send
        (Message.pieceBlock b.1 b.2.1 (truth b)).call).live =
          (r.outbox.filterMap Call.block? ++ [b]) ++ (r.fifo.eraseIdx k ++
            r.inbox.filterMap Message.request?).filter (· ∉ r.cancelled) := by
      have hout : (r.outbox ++ [(Message.pieceBlock b.1 b.2.1 (truth b)).call]).filterMap
          Call.block? = r.outbox.filterMap Call.block? ++ [b] := by
        rw [List.filterMap_append, List.filterMap_cons_some hblock, List.filterMap_nil]
      rw [← hout]
      rfl
    have hcons : (b :: (r.fifo.eraseIdx k ++ r.inbox.filterMap Message.request?)).filter
        (· ∉ r.cancelled) = b :: (r.fifo.eraseIdx k ++
          r.inbox.filterMap Message.request?).filter (· ∉ r.cancelled) :=
      List.filter_cons_of_pos hpass
    rw [hsend, List.append_assoc, List.singleton_append, ← hcons]
    exact ((hperm.append_right _).filter _).append_left _
  · intro c' hc'
    rcases List.mem_append.mp hc' with hc' | hc'
    · exact h.truthful c' hc'
    · rw [List.mem_singleton.mp hc', hblock]
      rintro b' ⟨⟩
      rfl
  · exact h.settled
  · exact h.ordered

/-- What a remote does keeps the link, if it serves no request whose CANCEL is on
    its way. -/
theorem act (h : Link size truth finished queue r) (hz : Sized n size truth)
    (hq : ∀ e ∈ queue, e.index < n)
    (hserve : ∀ k, a = .serve k → ∀ b ∈ r.fifo[k]?, b ∉ r.cancelled)
    (ha : r.act n truth a = some r') : Link size truth finished queue r' := by
  cases a with
  | gain index =>
    obtain rfl := Option.some.inj ha
    exact ⟨h.sound, h.truthful, h.settled, h.ordered⟩
  | announce index =>
    obtain ⟨-, ⟨⟩⟩ := Option.ite_none_right_eq_some.mp ha
    exact h.send (block?_of_ne (m := .havePiece) (by decide) _)
  | bitfield raw =>
    obtain ⟨-, ⟨⟩⟩ := Option.ite_none_right_eq_some.mp ha
    exact h.send (block?_of_ne (by decide) _)
  | choke =>
    obtain rfl := Option.some.inj ha
    exact (h.forget (List.nil_sublist _) true).send (block?_of_ne (by decide) _)
  | unchoke =>
    obtain rfl := Option.some.inj ha
    exact (h.forget (List.Sublist.refl _) false).send (block?_of_ne (by decide) _)
  | receive =>
    rw [Remote.act] at ha
    split at ha
    · cases ha
    · rename_i m inbox hin
      obtain rfl := Option.some.inj ha
      exact h.receive hin
  | serve k =>
    obtain ⟨b, hk, ha⟩ := Option.bind_eq_some_iff.mp ha
    obtain ⟨-, ⟨⟩⟩ := Option.ite_none_right_eq_some.mp ha
    exact h.serve hz hq hk (hserve k rfl b hk)
  | say c =>
    obtain ⟨hid, ⟨⟩⟩ := Option.ite_none_right_eq_some.mp ha
    refine h.send (block?_of_id fun hblock => ?_)
    exact hid _ hblock (by decide)

/-! ## What the client does -/

/-- A message arrives; if it is a block, it is dropped. -/
theorem taken (h : Link size truth finished queue r) {rest : List Call}
    (hout : r.outbox = c :: rest) : Link size truth finished queue r.taken where
  sound := by
    have hsub : r.taken.live.Sublist r.live := by
      rw [Remote.live_taken hout]
      exact List.sublist_append_right ..
    exact h.sound.subperm hsub.subperm
  truthful c' hc' := h.truthful c' (List.mem_of_mem_tail hc')
  settled := h.settled
  ordered := h.ordered

/-- A block arrives that the queue has an entry for, with the slot of the block. -/
theorem arrives (h : Link size truth finished queue r) (hz : Sized n size truth)
    (hq : ∀ e ∈ queue, e.index < n) (hc : c ∈ r.outbox) (hb : c.block? = some b) :
    ∃ it e, findPiece queue (blockFields c.payload).1 = some (it, e) ∧
      b = blockId size e.index (slotOf c.payload) ∧ slotOf c.payload < e.totalBlocks ∧
      0 < (blockData c.payload).length ∧ (blockData c.payload).length ≤ maxBlockRequestSize := by
  have hmem : b ∈ r.live := List.mem_append_left _ (List.mem_filterMap.mpr ⟨c, hc, hb⟩)
  obtain ⟨it, e, hfind, k, hk, rfl, -⟩ := h.sound.find hmem
  unfold Call.block? at hb
  split at hb
  · have hfields := Option.some.inj hb
    have hbegin : (blockFields c.payload).2 = k * maxBlockRequestSize :=
      congrArg (fun b : BlockId => b.2.1) hfields
    have hlen : (blockData c.payload).length = blockLength (size e.index) k :=
      congrArg (fun b : BlockId => b.2.2) hfields
    have hslot : slotOf c.payload = k := by rw [slotOf, hbegin, block_div]
    have he := List.mem_of_getElem? (findPiece_some hfind).1
    rw [hslot, hlen]
    refine ⟨it, e, ?_, rfl, ?_, blockLength_pos hk, blockLength_le _ _⟩
    · rw [show (blockFields c.payload).1 = e.index from congrArg Prod.fst hfields]
      exact hfind
    · rw [(h.sound.genuine e he).total, u32_of_lt (hz.size_lt _ (hq e he))]
      exact hk
  · cases hb

/-- The block that arrives is stored. -/
theorem put (h : Link size truth finished queue r) {rest : List Call} (hout : r.outbox = c :: rest)
    (hb : c.block? = some (blockId size e.index (slotOf c.payload))) (hit : queue[it]? = some e)
    (hsize : size e.index < 2 ^ 32) :
    Link size truth finished (queue.set it (e.put c.payload)) r.taken where
  sound := by
    have hsound := h.sound
    rw [Remote.live_taken hout, hb] at hsound
    have htrue := h.truthful c (hout ▸ List.mem_cons_self) _ hb
    have hlen : (blockData c.payload).length =
        blockLength (size e.index) (slotOf c.payload) := by
      unfold Call.block? at hb
      split at hb
      · exact congrArg (fun b : BlockId => b.2.2) (Option.some.inj hb)
      · cases hb
    exact hsound.put hit hsize rfl htrue hlen
  truthful c' hc' := h.truthful c' (List.mem_of_mem_tail hc')
  settled b hb' := by
    obtain ⟨hfin, hno⟩ := h.settled b hb'
    refine ⟨hfin, fun e' he' => ?_⟩
    rcases List.mem_or_eq_of_mem_set he' with he' | rfl
    · exact hno e' he'
    · exact hno e (List.mem_of_getElem? hit)
  ordered := h.ordered

/-- An entry none of whose blocks can still arrive is erased. -/
theorem erase (h : Link size truth finished queue r) (hit : queue[it]? = some e)
    (hno : ∀ b ∈ r.live, b.1 ≠ e.index) :
    Link size truth finished (queue.eraseIdx it) r where
  sound := h.sound.erase hit hno
  truthful := h.truthful
  settled b hb :=
    ⟨(h.settled b hb).1, fun e' he' => (h.settled b hb).2 e' (List.mem_of_mem_eraseIdx he')⟩
  ordered := h.ordered

/-- The entry of a finished piece is erased and its blocks are cancelled. -/
theorem cancel (h : Link size truth finished queue r) (hit : queue[it]? = some e)
    (hfin : finished e.index = true) (hsent : ∀ c ∈ r.outbox, ∀ b ∈ c.block?, b.1 ≠ e.index)
    (hc : ms.filterMap Message.cancel? = pieceBlocks size e.index)
    (hm : ms.filterMap Message.request? = []) :
    Link size truth finished (queue.eraseIdx it) (r.tell ms) := by
  obtain ⟨hsub, hpiece⟩ := r.live_cancel hc hm
  have hindex : ∀ b ∈ pieceBlocks size e.index, b.1 = e.index := by
    intro b hb
    obtain ⟨k, -, rfl⟩ := mem_pieceBlocks.mp hb
    rfl
  constructor
  · refine (h.sound.subperm hsub.subperm).erase hit fun b hb heq => ?_
    -- the block belongs to the entry, so it has been sent
    obtain ⟨e', he', hl⟩ := h.sound.lacked b (hsub.subset hb)
    obtain rfl := h.sound.eq_of_mem he' (List.mem_of_getElem? hit) (hl.index_eq.symm.trans heq)
    obtain ⟨k, hk, rfl, -⟩ := hl
    obtain ⟨c, hc, hcb⟩ := hpiece _ hb (mem_pieceBlocks.mpr ⟨k, hk, rfl⟩)
    exact hsent c hc _ hcb rfl
  · exact h.truthful
  · intro b hb
    rw [Remote.cancelled_tell, hc] at hb
    rcases List.mem_append.mp hb with hb | hb
    · obtain ⟨hf, hno⟩ := h.settled b hb
      exact ⟨hf, fun e' he' => hno e' (List.mem_of_mem_eraseIdx he')⟩
    · rw [hindex b hb]
      refine ⟨hfin, fun e' he' heq => ?_⟩
      obtain ⟨it', hne, hit'⟩ := List.mem_eraseIdx_iff_getElem?.mp he'
      exact hne (h.sound.eq_of_index hit' hit heq)
  · refine List.pairwise_append.mpr ⟨h.ordered, ?_, fun m _ m' hm' b _ => ?_⟩
    · refine List.pairwise_of_forall_mem_list fun m _ m' hm' b _ => ?_
      rw [List.filterMap_eq_nil_iff.mp hm m' hm']
      exact Option.some_ne_none b |>.symm
    · rw [List.filterMap_eq_nil_iff.mp hm m' hm']
      exact Option.some_ne_none b |>.symm

/-- Messages without a CANCEL are written to the remote. -/
theorem tell (h : Link size truth finished queue r) (hc : ms.filterMap Message.cancel? = [])
    (hs : Sound size truth queue'
      (r.live ++ (ms.filterMap Message.request?).filter (· ∉ r.cancelled)))
    (hqueue : ∀ b ∈ r.cancelled, ∀ e ∈ queue', e.index ≠ b.1)
    (hnew : ∀ b ∈ r.cancelled, b ∉ ms.filterMap Message.request?) :
    Link size truth finished queue' (r.tell ms) where
  sound := by
    rw [r.live_tell hc]
    exact hs
  truthful := h.truthful
  settled b hb := by
    rw [Remote.cancelled_tell, hc, List.append_nil] at hb
    exact ⟨(h.settled b hb).1, hqueue b hb⟩
  ordered := by
    refine List.pairwise_append.mpr ⟨h.ordered, ?_, fun m hm m' hm' b hb hreq => ?_⟩
    · refine List.pairwise_of_forall_mem_list fun m hm m' _ b hb => ?_
      rw [List.filterMap_eq_nil_iff.mp hc m hm] at hb
      cases hb
    · exact hnew b (List.mem_filterMap.mpr ⟨m, hm, hb⟩) (List.mem_filterMap.mpr ⟨m', hm', hreq⟩)

/-- Messages that neither request nor cancel are written. -/
theorem quiet (h : Link size truth finished queue r) (hc : ms.filterMap Message.cancel? = [])
    (hm : ms.filterMap Message.request? = []) : Link size truth finished queue (r.tell ms) :=
  h.tell hc (by simpa [hm] using h.sound) (fun b hb => (h.settled b hb).2) (by simp [hm])

/-- A new piece is queued, and all of its blocks are requested or none. -/
theorem fresh (h : Link size truth finished queue r) (hz : Sized n size truth) (hi : i < n)
    (hopen : finished i = false) (hnew : ∀ e ∈ queue, e.index ≠ i)
    (hc : ms.filterMap Message.cancel? = [])
    (hm : ms.filterMap Message.request? = [] ∨
      ms.filterMap Message.request? = pieceBlocks size i) :
    Link size truth finished (queue ++ [Piece.new i (numBlocks (size i))]) (r.tell ms) := by
  have hsub : (ms.filterMap Message.request?).Sublist (pieceBlocks size i) := by
    rcases hm with hm | hm
    · rw [hm]
      exact List.nil_sublist _
    · rw [hm]
  have hne : ∀ b ∈ r.cancelled, b.1 ≠ i := by
    rintro b hb rfl
    rw [(h.settled b hb).1] at hopen
    cases hopen
  refine h.tell hc (h.sound.fresh (hz.size_lt i hi) hnew (List.filter_sublist.trans hsub)) ?_ ?_
  · intro b hb e he
    rcases List.mem_append.mp he with he | he
    · exact (h.settled b hb).2 e he
    · rw [List.mem_singleton.mp he]
      exact (hne b hb).symm
  · intro b hb hreq
    obtain ⟨k, -, rfl⟩ := mem_pieceBlocks.mp (hsub.subset hreq)
    exact hne _ hb rfl

/-- The blocks of the queue are requested, none having been received or being on its way. -/
theorem request (h : Link size truth finished queue r)
    (hnone : ∀ e ∈ queue, e.filledSlots = 0 ∧ ∀ b ∈ r.live, b.1 ≠ e.index)
    (hc : ms.filterMap Message.cancel? = [])
    (hm : ms.filterMap Message.request? = queue.flatMap fun e => pieceBlocks size e.index) :
    Link size truth finished queue (r.tell ms) := by
  refine h.tell hc (h.sound.request hnone (hm ▸ List.filter_sublist))
    (fun b hb => (h.settled b hb).2) fun b hb hreq => ?_
  rw [hm] at hreq
  obtain ⟨e, he, hreq⟩ := List.mem_flatMap.mp hreq
  obtain ⟨k, -, rfl⟩ := mem_pieceBlocks.mp hreq
  exact (h.settled _ hb).2 e he rfl

end Link

end YTorrent
