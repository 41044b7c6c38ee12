import Mathlib.Algebra.BigOperators.Intervals
import YTorrent.Common.Progress
import YTorrent.Torrent.Fetching

/-!
# Two clients on one connection

A client that downloads and one that has every piece, at the two ends of one
connection. Each direction is a queue of messages; what happens next is that one of
the clients handles the first message waiting for it (`Pairing.step`), in any order.

* `Stage`: how far the two have come, with the number of messages still to be
  handled.
* `pairing_completes`: no run handles more messages than that, whatever the order,
  every run can be continued until as many have been handled, and one that cannot be
  continued has ended with the whole content on the disk of the first client, both
  ends of the connection open and nothing on its way.
-/

namespace YTorrent

open World Peer Slice Finset

/-- The client that downloads, the one that has every piece, and the messages on
    their way from the first to the second and back. -/
structure Pairing where
  leecher : World
  seeder : World
  up : List Message
  down : List Message

/-- Which of the clients handles its next message; the disk works. -/
inductive PairingLabel
  | toSeeder (env : { env : Env // env.Works })
  | toLeecher (env : { env : Env // env.Works })

/-- One step of two clients that know each other as `q` and `p`. -/
def Pairing.step (sha1 : List Byte → List ℕ) (p q : PeerId) (s : Pairing) :
    PairingLabel → Option Pairing
  | .toSeeder env =>
    match s.up with
    | [] => none
    | m :: up => (YTorrent.step sha1 s.seeder (m.label q env)).map fun v =>
      { s with seeder := v, up := up, down := s.down ++ s.seeder.newMessages v q }
  | .toLeecher env =>
    match s.down with
    | [] => none
    | m :: down => (YTorrent.step sha1 s.leecher (m.label p env)).map fun w =>
      { s with leecher := w, down := down, up := s.up ++ s.leecher.newMessages w p }

/-- Torrent files of the two clients for the content `C`, and handshakes that both
    accept. -/
structure Compatible (sha1 : List Byte → List ℕ) (f g : ParsedFile) (C : List Byte) : Prop where
  leecher : Describes sha1 f C
  seeder : Describes sha1 g C
  pieceLength : g.pieceLength = f.pieceLength
  collisionFree : CollisionFree sha1 f C
  leecherFits : OffsetsFit f C
  seederFits : OffsetsFit g C
  pos : 0 < f.hashes.length
  count : f.hashes.length ≤ 2 ^ 32
  size_lt : ∀ i < f.hashes.length, f.start.torrent.pieceSize i < 2 ^ 32
  leecherHandshake : f.handshake.length = 68 ∧ handshakeRefused g.handshake f.handshake = false
  seederHandshake : g.handshake.length = 68 ∧ handshakeRefused f.handshake g.handshake = false

/-- The first client has dialled the second one and the connection has been
    established; the second has every piece. No piece that the first lacks has been
    requested `INT32_MAX` times. -/
structure Meeting (sha1 : List Byte → List ℕ) (f g : ParsedFile) (w v : World) (ip : ℕ)
    (remote : Option ℕ) (s : Pairing) : Prop where
  leecher : Reachable sha1 f w
  seeder : Reachable sha1 g v
  full : v.torrent.completedPieces = v.torrent.pieces.length
  room : ∀ (i : ℕ) piece, w.torrent.pieces[i]? = some piece → piece.finished = false →
    piece.priority < int32Max
  dials : Runs.exec (step sha1) w [.dial ip, .connected w.peerCount] = some s.leecher
  accepts : step sha1 v (.accepted remote) = some s.seeder
  up : s.up = w.newMessages s.leecher w.peerCount
  down : s.down = v.newMessages s.seeder v.peerCount

/-- The pieces of `f` that are not finished. -/
def World.unfinished (f : ParsedFile) (w : World) : Finset ℕ :=
  {i ∈ range f.hashes.length | w.torrent.isFinished i = false}

/-- The messages handled for piece `i`: an INTERESTED, and for each block a REQUEST and
    a PIECE frame. -/
def pieceCost (f : ParsedFile) (i : ℕ) : ℕ := 2 * numBlocks (f.start.torrent.pieceSize i) + 1

/-- The messages handled for the pieces that are not finished. -/
def World.cost (f : ParsedFile) (w : World) : ℕ := ∑ i ∈ w.unfinished f, pieceCost f i

/-- The messages handled from the BITFIELD on: the BITFIELD and, if a piece is missing,
    an UNCHOKE and the messages for the pieces. -/
def World.opening (f : ParsedFile) (w : World) : ℕ :=
  if w.unfinished f = ∅ then 1 else w.cost f + 2

/-- How far two clients have come, and the number of messages still to be handled. -/
inductive Stage (sha1 : List Byte → List ℕ) (f g : ParsedFile) (C : List Byte) (p q : PeerId) :
    ℕ → Pairing → Prop
  /-- the handshake of the first client is on its way -/
  | greeting {w v : World} (hr : Reachable sha1 f w) (hl : Leech w p [] true)
    (hpend : (w.peers p).conn.pending = .handshakeOut) (hs : Welcoming sha1 g v q) :
    Stage sha1 f g C p q (w.opening f + 2) ⟨w, v, [.handshake f.handshake], []⟩
  /-- so is the answer -/
  | greeted {w v : World} {raw : List Byte} (hr : Reachable sha1 f w) (hl : Leech w p [] true)
    (hpend : (w.peers p).conn.pending = .handshakeOut) (hs : Seeding sha1 g v q true)
    (hraw : 1 ≤ raw.length)
    (hall : ∀ i < f.hashes.length, i ∈ bitfieldIndexes raw f.hashes.length) :
    Stage sha1 f g C p q (w.opening f + 1) ⟨w, v, [], [.handshake g.handshake, .bitfield raw]⟩
  /-- the BITFIELD is on its way -/
  | known {w v : World} {raw : List Byte} (hr : Reachable sha1 f w) (hl : Leech w p [] true)
    (hpend : (w.peers p).conn.pending = .message) (hs : Seeding sha1 g v q true)
    (hraw : 1 ≤ raw.length)
    (hall : ∀ i < f.hashes.length, i ∈ bitfieldIndexes raw f.hashes.length) :
    Stage sha1 f g C p q (w.opening f) ⟨w, v, [], [.bitfield raw]⟩
  /-- a piece is queued, and the seeder is going to hear of it -/
  | asked {w v : World} {i : ℕ} (hi : i ∈ w.unfinished f)
    (hl : Fetching sha1 f w p [Piece.new i (numBlocks (f.start.torrent.pieceSize i))] true)
    (hs : Seeding sha1 g v q true) :
    Stage sha1 f g C p q (w.cost f + 1) ⟨w, v, [.interested], []⟩
  /-- the UNCHOKE is on its way -/
  | granted {w v : World} {i : ℕ} (hi : i ∈ w.unfinished f)
    (hl : Fetching sha1 f w p [Piece.new i (numBlocks (f.start.torrent.pieceSize i))] true)
    (hs : Seeding sha1 g v q false) : Stage sha1 f g C p q (w.cost f) ⟨w, v, [], [.unchoke]⟩
  /-- blocks of one piece have been sent, others asked for -/
  | transfer {w v : World} {up down : List Message} (e : Peer.Piece) (k : ℕ)
    (sent asked : List BlockId) (hi : e.index ∈ w.unfinished f)
    (hl : Fetching sha1 f w p [e] false) (hs : Seeding sha1 g v q false)
    (hsound : Sound f.start.torrent.pieceSize (trueData C f.pieceLength) [e] (sent ++ asked))
    (hlive : sent ++ asked ≠ []) (hcount : e.haveBlocks + (sent ++ asked).length = e.totalBlocks)
    (hup : up = List.replicate k .interested ++ asked.map ask)
    (hdown : down = sent.map (answer (trueData C f.pieceLength))) :
    Stage sha1 f g C p q (k + 2 * asked.length + sent.length +
      ∑ i ∈ (w.unfinished f).erase e.index, pieceCost f i) ⟨w, v, up, down⟩
  /-- every piece is finished -/
  | done {w v : World} {up : List Message} (k : ℕ) {choked : Bool} (hk : k = 0 ∨ choked = false)
    (hl : Fetching sha1 f w p [] choked) (hall : w.unfinished f = ∅)
    (hs : Seeding sha1 g v q choked) (hup : up = List.replicate k .interested) :
    Stage sha1 f g C p q k ⟨w, v, up, []⟩

variable {sha1 : List Byte → List ℕ} {f g : ParsedFile} {C : List Byte} {p q : PeerId}
  {s s' : Pairing} {n i : ℕ} {w v w' v' : World} {env : { env : Env // env.Works }}
  {m : Message} {ms rest : List Message} {l : PairingLabel}

/-! ## The pieces that are missing -/

theorem mem_unfinished : i ∈ w.unfinished f ↔
    i < f.hashes.length ∧ w.torrent.isFinished i = false := by
  rw [World.unfinished, mem_filter, mem_range]

theorem unfinished_congr (h : w'.torrent.isFinished = w.torrent.isFinished) :
    w'.unfinished f = w.unfinished f := by
  rw [World.unfinished, World.unfinished, h]

theorem unfinished_eq_empty :
    w.unfinished f = ∅ ↔ ∀ i < f.hashes.length, w.torrent.isFinished i = true := by
  simp [World.unfinished, filter_eq_empty_iff]

/-- A piece has been finished. -/
theorem unfinished_erase
    (h : ∀ j, w'.torrent.isFinished j = true ↔ j = i ∨ w.torrent.isFinished j = true) :
    w'.unfinished f = (w.unfinished f).erase i := by
  ext j
  rw [mem_erase, mem_unfinished, mem_unfinished, ← Bool.not_eq_true, ← Bool.not_eq_true, h]
  tauto

theorem cost_eq (hi : i ∈ w.unfinished f) :
    w.cost f = pieceCost f i + ∑ j ∈ (w.unfinished f).erase i, pieceCost f j :=
  (add_sum_erase _ _ hi).symm

/-! ## Steps -/

theorem step_toSeeder (hup : s.up = m :: rest) (h : Handled sha1 s.seeder q env m v ms) :
    Pairing.step sha1 p q s (.toSeeder env) =
      some { s with seeder := v, up := rest, down := s.down ++ ms } := by
  simp only [Pairing.step, hup, h.step, Option.map_some, newMessages_of_eq h.messages]

theorem step_toLeecher (hdown : s.down = m :: rest) (h : Handled sha1 s.leecher p env m w ms) :
    Pairing.step sha1 p q s (.toLeecher env) =
      some { s with leecher := w, down := rest, up := s.up ++ ms } := by
  simp only [Pairing.step, hdown, h.step, Option.map_some, newMessages_of_eq h.messages]

/-- The step can be made, and takes one away from the number of messages to be handled. -/
def Advances (sha1 : List Byte → List ℕ) (f g : ParsedFile) (C : List Byte) (p q : PeerId) (n : ℕ)
    (s : Pairing) (l : PairingLabel) : Prop :=
  ∃ s' m, Pairing.step sha1 p q s l = some s' ∧ n = m + 1 ∧ Stage sha1 f g C p q m s'

namespace Compatible

variable (h : Compatible sha1 f g C)
include h

theorem hashes : g.hashes.length = f.hashes.length := by
  rw [h.seeder.hashes_length, h.leecher.hashes_length, h.pieceLength]

theorem pieceSize : g.start.torrent.pieceSize = f.start.torrent.pieceSize := by
  have hn : g.start.torrent.pieces.length = f.start.torrent.pieces.length := by
    simpa [ParsedFile.start] using h.hashes
  have hts : g.totalSize = f.totalSize := h.seeder.totalSize.trans h.leecher.totalSize.symm
  funext i
  exact pieceSize_congr hn h.pieceLength hts i

theorem sized : Sized f.hashes.length f.start.torrent.pieceSize (trueData C f.pieceLength) :=
  h.leecher.sized h.count h.size_lt

theorem seederFree : CollisionFree sha1 g C := by
  intro i hi d hd
  rw [h.pieceLength] at hd ⊢
  exact h.collisionFree i (h.hashes ▸ hi) d hd

/-- The seeder answers the REQUEST for a block with the block. -/
theorem serves (hs : Seeding sha1 g v q false) (env : { env : Env // env.Works }) {b : BlockId}
    (hi : i < f.hashes.length) (hb : b ∈ pieceBlocks f.start.torrent.pieceSize i) :
    ∃ v', Handled sha1 v q env (ask b) v' [answer (trueData C f.pieceLength) b] ∧
      Seeding sha1 g v' q false := by
  obtain ⟨k, hk, rfl⟩ := mem_pieceBlocks.mp hb
  have hlt := h.size_lt i hi
  have hserves := @Seeding.serves sha1 g C v q env i k hs h.seeder h.seederFree h.seederFits
  rw [h.hashes, h.pieceSize, h.pieceLength] at hserves
  exact hserves h.count hlt env.2 hi hk

end Compatible

/-! ## What the seeder handles -/

/-- The blocks of a queue with one entry are blocks of its piece. -/
theorem Sound.mem_pieceBlocks {size : ℕ → ℕ} {truth : BlockId → List Byte} {e : Peer.Piece}
    {live : List BlockId} {b : BlockId} (h : Sound size truth [e] live) (hb : b ∈ live) :
    b ∈ pieceBlocks size e.index := by
  obtain ⟨e', he', k, hk, rfl, -⟩ := h.lacked b hb
  obtain rfl := List.mem_singleton.mp he'
  exact YTorrent.mem_pieceBlocks.mpr ⟨k, hk, rfl⟩

theorem Stage.toSeeder (h : Stage sha1 f g C p q n s) (hc : Compatible sha1 f g C)
    (hup : s.up ≠ []) (env : { env : Env // env.Works }) :
    Advances sha1 f g C p q n s (.toSeeder env) := by
  cases h with
  | greeting hr hl hpend hs =>
    obtain ⟨v, hv, hall, hseed⟩ := hs.greets env hc.leecherHandshake.1 hc.leecherHandshake.2
    refine ⟨_, _, step_toSeeder rfl hv, rfl, .greeted hr hl hpend hseed ?_ ?_⟩
    · have hlen := (bitfield_length hs.reachable).trans hs.reachable.length_pieces
      have hn := hc.hashes
      have hpos := hc.pos
      rw [length_getRawBitfield]
      omega
    · rw [← hc.hashes]
      exact hall
  | greeted | known | granted => exact absurd rfl hup
  | asked hi hl hs =>
    obtain ⟨v, hv, hseed⟩ := hs.unchokes env
    exact ⟨_, _, step_toSeeder rfl hv, rfl, .granted hi hl hseed⟩
  | transfer e k sent asked hi hl hs hsound hlive hcount hup' hdown =>
    cases k with
    | succ k =>
      obtain ⟨v, hv, hseed⟩ := hs.unchokes env
      refine ⟨_, _, step_toSeeder hup' hv, ?_,
        .transfer e k sent asked hi hl hseed hsound hlive hcount rfl ?_⟩
      · dsimp only
        omega
      · simpa using hdown
    | zero =>
      cases asked with
      | nil => exact absurd hup' hup
      | cons b asked =>
        have hb := hsound.mem_pieceBlocks (b := b) (by simp)
        obtain ⟨v, hv, hseed⟩ := hc.serves hs env (mem_unfinished.mp hi).1 hb
        have hassoc : (sent ++ [b]) ++ asked = sent ++ b :: asked := by simp
        refine ⟨_, _, step_toSeeder hup' hv, ?_, .transfer e 0 (sent ++ [b]) asked hi hl hseed
          (hassoc ▸ hsound) (hassoc ▸ hlive) (hassoc ▸ hcount) rfl ?_⟩
        · simp only [List.length_cons, List.length_append, List.length_nil]
          omega
        · simp [hdown]
  | done _ hk hl hall hs hup' =>
    cases n with
    | zero => exact absurd hup' hup
    | succ k =>
      obtain rfl := hk.resolve_left (by simp)
      obtain ⟨v, hv, hseed⟩ := hs.unchokes env
      exact ⟨_, k, step_toSeeder hup' hv, rfl, .done k (.inr rfl) hl hall hseed rfl⟩

/-! ## What the leecher handles -/

/-- Nothing of a new piece has arrived, and all of its blocks can be on their way. -/
theorem sound_new {size : ℕ → ℕ} {truth : BlockId → List Byte} (hsize : size i < 2 ^ 32) :
    Sound size truth [Piece.new i (numBlocks (size i))] (pieceBlocks size i) := by
  have hnil : Sound size truth [] [] :=
    ⟨List.nodup_nil, by simp, List.nodup_nil, by simp⟩
  exact hnil.fresh hsize (by simp) (List.Sublist.refl _)

theorem pieceBlocks_ne_nil {size : ℕ → ℕ} (h : 0 < size i) : pieceBlocks size i ≠ [] := by
  have hpos : 0 < numBlocks (size i) := by
    unfold numBlocks maxBlockRequestSize
    omega
  intro hnil
  have hlen := congrArg List.length hnil
  simp only [pieceBlocks, List.length_map, List.length_range, List.length_nil] at hlen
  omega

/-- Every block of the piece queued has been asked for, and nothing has been sent. -/
theorem stage_transfer (hc : Compatible sha1 f g C) (k : ℕ) (hi : i ∈ w.unfinished f)
    (hl : Fetching sha1 f w p [Piece.new i (numBlocks (f.start.torrent.pieceSize i))] false)
    (hs : Seeding sha1 g v q false) : ∃ n, k + w.cost f = n + 1 ∧
    Stage sha1 f g C p q n ⟨w, v, List.replicate k .interested ++
      (pieceBlocks f.start.torrent.pieceSize i).map ask, []⟩ := by
  obtain ⟨hlt, hopen⟩ := mem_unfinished.mp hi
  have hpos := hc.sized.pos i hlt
  have hlen : (pieceBlocks f.start.torrent.pieceSize i).length =
      numBlocks (f.start.torrent.pieceSize i) := by
    rw [pieceBlocks, List.length_map, List.length_range]
  refine ⟨_, ?_, .transfer _ k [] (pieceBlocks f.start.torrent.pieceSize i) hi hl hs
    (sound_new (hc.size_lt i hlt)) (pieceBlocks_ne_nil hpos) (by simp [hlen, Piece.new]) rfl rfl⟩
  show k + w.cost f = k + 2 * (pieceBlocks f.start.torrent.pieceSize i).length +
    ([] : List BlockId).length + ∑ j ∈ (w.unfinished f).erase i, pieceCost f j + 1
  rw [cost_eq hi, pieceCost, hlen, List.length_nil]
  omega

/-- A block arrives. -/
theorem block_arrives {e : Peer.Piece} {k : ℕ} {b : BlockId} {sent asked : List BlockId}
    (hc : Compatible sha1 f g C) (hi : e.index ∈ w.unfinished f)
    (hl : Fetching sha1 f w p [e] false) (hs : Seeding sha1 g v q false)
    (hsound : Sound f.start.torrent.pieceSize (trueData C f.pieceLength) [e] (b :: sent ++ asked))
    (hcount : e.haveBlocks + (b :: sent ++ asked).length = e.totalBlocks)
    (env : { env : Env // env.Works }) :
    Advances sha1 f g C p q (k + 2 * asked.length + (b :: sent).length +
        ∑ i ∈ (w.unfinished f).erase e.index, pieceCost f i)
      ⟨w, v, List.replicate k .interested ++ asked.map ask,
        (b :: sent).map (answer (trueData C f.pieceLength))⟩ (.toLeecher env) := by
  obtain ⟨hlt, hopen⟩ := mem_unfinished.mp hi
  have hlen : (b :: sent ++ asked).length = sent.length + asked.length + 1 := by simp
  by_cases hlast : e.haveBlocks + 1 = e.totalBlocks
  · -- nothing else of the piece is on its way
    obtain rfl : sent = [] := List.length_eq_zero_iff.mp (by omega)
    obtain rfl : asked = [] := List.length_eq_zero_iff.mp (by omega)
    obtain ⟨w', ms, hw, hsel, hfin⟩ := hl.completes hc.leecher hc.leecherFits.content env.2
      hc.sized hlt hsound hopen hlast
    have hun := unfinished_erase (f := f) hfin
    rw [← hun]
    cases hsel with
    | done hl hdone =>
      have hempty := unfinished_eq_empty.mpr hdone
      refine ⟨_, k, step_toLeecher rfl hw, ?_, .done k (.inr rfl) hl hempty hs (by simp)⟩
      simp [hempty]
    | next i hi hopen hl =>
      obtain ⟨n, hn, hstage⟩ := stage_transfer hc (k + 1) (mem_unfinished.mpr ⟨hi, hopen⟩) hl hs
      have hstep : Pairing.step sha1 p q ⟨w, v,
          List.replicate k .interested ++ ([] : List BlockId).map ask,
          [b].map (answer (trueData C f.pieceLength))⟩ (.toLeecher env) = _ := step_toLeecher rfl hw
      have hup : (List.replicate k .interested ++ ([] : List BlockId).map ask) ++
          (.interested :: (pieceBlocks f.start.torrent.pieceSize i).map ask) =
            List.replicate (k + 1) .interested ++
              (pieceBlocks f.start.torrent.pieceSize i).map ask := by
        simp [List.replicate_succ']
      simp only [Bool.false_eq_true, if_false, hup] at hstep
      refine ⟨_, n, hstep, ?_, hstage⟩
      show k + 2 * 0 + 1 + w'.cost f = n + 1
      omega
  · obtain ⟨w', hw, hl, hfin⟩ := hl.stores env hc.sized hlt hsound hopen hlast
    have hun := unfinished_congr (f := f) hfin
    have hlive : sent ++ asked ≠ [] := by
      intro hnil
      have hzero := congrArg List.length hnil
      rw [List.length_append, List.length_nil] at hzero
      omega
    rw [← hun] at hi ⊢
    refine ⟨_, _, step_toLeecher rfl hw, ?_, .transfer (e.put _) k sent asked hi hl hs
      (hsound.put_answer hc.sized hlt) hlive ?_ (by simp) rfl⟩
    · show k + 2 * asked.length + (sent.length + 1) +
          ∑ i ∈ (w'.unfinished f).erase e.index, pieceCost f i =
        k + 2 * asked.length + sent.length +
          ∑ i ∈ (w'.unfinished f).erase e.index, pieceCost f i + 1
      omega
    · show e.haveBlocks + 1 + (sent ++ asked).length = e.totalBlocks
      rw [hlen] at hcount
      rw [List.length_append]
      omega

theorem Stage.toLeecher (h : Stage sha1 f g C p q n s) (hc : Compatible sha1 f g C)
    (hdown : s.down ≠ []) (env : { env : Env // env.Works }) :
    Advances sha1 f g C p q n s (.toLeecher env) := by
  cases h with
  | greeting | asked | done => exact absurd rfl hdown
  | greeted hr hl hpend hs hraw hall =>
    obtain ⟨w, hw, hr, hl, hpend, hfin⟩ :=
      hl.greeted hr hpend env hc.seederHandshake.1 hc.seederHandshake.2
    refine ⟨_, _, step_toLeecher rfl hw, ?_, .known hr hl hpend hs hraw hall⟩
    rw [opening, opening, World.cost, World.cost, unfinished_congr hfin]
  | known hr hl hpend hs hraw hall =>
    obtain ⟨w, ms, hw, hsel, hfin⟩ := hl.bitfield hr hpend env hc.sized hraw hall
    have hun := unfinished_congr (f := f) hfin
    cases hsel with
    | done hl hdone =>
      have hempty := unfinished_eq_empty.mpr hdone
      refine ⟨_, 0, step_toLeecher rfl hw, ?_, .done 0 (.inl rfl) hl hempty hs rfl⟩
      rw [opening, if_pos (hun ▸ hempty)]
    | next i hi hopen hl =>
      have hmem := mem_unfinished.mpr ⟨hi, hopen⟩
      have hne : w.unfinished f ≠ ∅ := ne_empty_of_mem hmem
      refine ⟨_, _, step_toLeecher rfl hw, ?_, .asked hmem hl hs⟩
      rw [opening, ← hun, if_neg hne, World.cost, World.cost, hun]
  | granted hi hl hs =>
    obtain ⟨w, hw, hl, hfin⟩ := hl.unchoke env hc.sized (mem_unfinished.mp hi).1
    have hun := unfinished_congr (f := f) hfin
    obtain ⟨n, hn, hstage⟩ := stage_transfer hc 0 (hun ▸ hi) hl hs
    refine ⟨_, n, step_toLeecher rfl hw, ?_, hstage⟩
    rw [World.cost, ← hun]
    exact (Nat.zero_add _).symm.trans hn
  | transfer e k sent asked hi hl hs hsound hlive hcount hup hdown' =>
    cases sent with
    | nil => exact absurd hdown' hdown
    | cons b sent =>
      subst hup
      subst hdown'
      exact block_arrives hc hi hl hs hsound hcount env

/-! ## Runs -/

/-- While messages are still to be handled, one is on its way. -/
theorem Stage.on_its_way (h : Stage sha1 f g C p q (n + 1) s) : s.up ≠ [] ∨ s.down ≠ [] := by
  generalize hm : n + 1 = m at h
  cases h with
  | greeting | asked => exact .inl (List.cons_ne_nil _ _)
  | greeted | known | granted => exact .inr (List.cons_ne_nil _ _)
  | transfer e k sent asked hi hl hs hsound hlive hcount hup hdown =>
    cases sent with
    | nil =>
      left
      rw [hup]
      simpa using fun _ => hlive
    | cons b sent =>
      right
      rw [hdown]
      exact List.cons_ne_nil _ _
  | done k hk hl hall hs hup =>
    left
    rw [hup, ← hm]
    exact List.cons_ne_nil _ _

/-- Every message handled is one less to be handled, in whatever order it happens. -/
theorem countsDown (hc : Compatible sha1 f g C) (p q : PeerId) :
    Runs.CountsDown (Pairing.step sha1 p q) (Stage sha1 f g C p q) where
  next n s l s' hs hI := by
    have hadv : Advances sha1 f g C p q n s l := by
      cases l with
      | toSeeder env =>
        refine hI.toSeeder hc (fun hnil => ?_) env
        simp [Pairing.step, hnil] at hs
      | toLeecher env =>
        refine hI.toLeecher hc (fun hnil => ?_) env
        simp [Pairing.step, hnil] at hs
    obtain ⟨t, m, ht, hm, hstage⟩ := hadv
    obtain rfl := Option.some.inj (ht.symm.trans hs)
    exact ⟨m, hm, hstage⟩
  live n s hI := by
    have hworks : Env.Works {} := by decide
    rcases hI.on_its_way with hup | hdown
    · obtain ⟨s', m, hs, -⟩ := hI.toSeeder hc hup ⟨{}, hworks⟩
      exact ⟨_, s', hs⟩
    · obtain ⟨s', m, hs, -⟩ := hI.toLeecher hc hdown ⟨{}, hworks⟩
      exact ⟨_, s', hs⟩

/-! ## The beginning and the end -/

/-- A client that has dialled, and whose connection has been established. -/
theorem leech_connected {ip : ℕ} (h : Reachable sha1 f w)
    (hroom : ∀ (i : ℕ) piece, w.torrent.pieces[i]? = some piece → piece.finished = false →
      piece.priority < int32Max)
    (hrun : Runs.exec (step sha1) w [.dial ip, .connected w.peerCount] = some w') :
    Reachable sha1 f w' ∧ Leech w' w.peerCount [] true ∧
      (w'.peers w.peerCount).conn.pending = .handshakeOut ∧
      w'.torrent.isFinished = w.torrent.isFinished ∧
      w'.messages w.peerCount = w.messages w.peerCount ++ [.handshake f.handshake] := by
  obtain ⟨t, ht, hrun⟩ := Runs.exec_cons.mp hrun
  obtain ⟨u, hu, hrun⟩ := Runs.exec_cons.mp hrun
  obtain rfl := Option.some.inj hrun
  have hhand : t.torrent.handshake = f.handshake := (h.step ht).handshake
  refine ⟨(h.step ht).step hu, ?_⟩
  obtain ⟨hrunning, hdial⟩ := step_effect ht
  obtain ⟨-, hconnected⟩ := step_effect hu
  cases hconnected with
  | connected _ ip' hpend =>
    cases hdial with
    | skipped =>
      rw [h.newcomers.unborn _ le_rfl] at hpend
      cases hpend
    | dialled =>
      refine ⟨⟨hrunning, ?_, ?_, ?_, ?_, fun i piece hi hfin _ => hroom i piece hi hfin⟩,
        ?_, rfl, ?_⟩
      · simp
      · simp [newPeer]
      · simp [newPeer]
      · simp [newPeer]
      · simp
      · rw [messages_log, hhand]
        simp [Event.message?, newPeer]
        rfl

/-- The two ends have nothing more to say, and the first has the whole content. -/
structure Pairing.Complete (f : ParsedFile) (C : List Byte) (p q : PeerId) (s : Pairing) :
    Prop where
  completed : s.leecher.torrent.completedPieces = s.leecher.torrent.pieces.length
  file : s.leecher.torrent.file.take s.leecher.torrent.totalSize = C
  leecherAwaits : Awaits s.leecher p
  seederAwaits : Awaits s.seeder q
  silent : s.up = [] ∧ s.down = []

theorem Meeting.stage {ip : ℕ} {remote : Option ℕ} (h : Meeting sha1 f g w v ip remote s) :
    Stage sha1 f g C w.peerCount v.peerCount (w.opening f + 2) s := by
  obtain ⟨hr, hl, hpend, hfin, hmsgs⟩ := leech_connected h.leecher h.room h.dials
  have hfull : ∀ i < g.hashes.length, v.torrent.isFinished i = true := by
    intro i hi
    have hlen : v.ledger.finished.length = v.torrent.pieces.length := List.length_map _
    rw [isFinished_iff]
    refine all_finished_of_completed h.seeder.consistent h.full ?_
    rwa [hlen, h.seeder.length_pieces]
  have hun := unfinished_congr (f := f) hfin
  have hup : s.up = [.handshake f.handshake] := by rw [h.up, newMessages_of_eq hmsgs]
  obtain ⟨hwelcome, hnone⟩ := welcoming_accepted h.seeder hfull h.accepts
  have hdown : s.down = [] := by
    rw [h.down]
    exact newMessages_of_eq (by rw [hnone, List.append_nil])
  have hopening : w.opening f = s.leecher.opening f := by
    rw [opening, opening, World.cost, World.cost, hun]
  obtain ⟨leecher, seeder, up, down⟩ := s
  obtain rfl : up = _ := hup
  obtain rfl : down = _ := hdown
  rw [hopening]
  exact .greeting hr hl hpend hwelcome

theorem completed_of_all_finished (h : Reachable sha1 f w)
    (hfin : ∀ i < f.hashes.length, w.torrent.isFinished i = true) :
    w.torrent.completedPieces = w.torrent.pieces.length := by
  have hcount : w.torrent.completedPieces = w.ledger.finished.count true := h.consistent.completed
  have hlen : w.ledger.finished.length = w.torrent.pieces.length := List.length_map _
  rw [hcount, ← hlen, List.count_eq_length]
  intro b hb
  obtain ⟨i, hi, rfl⟩ := List.mem_iff_getElem.mp hb
  rw [hlen, h.length_pieces] at hi
  have htrue := (isFinished_iff w i).mp (hfin i hi)
  exact (List.getElem?_eq_some_iff.mp htrue).2.symm

theorem Stage.complete (h : Stage sha1 f g C p q 0 s) (hc : Compatible sha1 f g C) :
    s.Complete f C p q := by
  have hcost : ∀ w i, i ∈ World.unfinished f w → 0 < w.cost f := by
    intro w i hi
    rw [cost_eq hi, pieceCost]
    omega
  generalize hm : 0 = m at h
  cases h with
  | greeting | greeted | asked => omega
  | known =>
    rw [opening] at hm
    split at hm <;> omega
  | granted hi =>
    have hpos := hcost _ _ hi
    omega
  | transfer e k sent asked hi hl hs hsound hlive =>
    have hpos := List.length_pos_iff.mpr hlive
    rw [List.length_append] at hpos
    omega
  | done k hk hl hall hs hup =>
    subst hm
    have hfin : ∀ i < f.hashes.length, _ := unfinished_eq_empty.mp hall
    refine ⟨?_, ?_, hl.awaits, hs.awaits, hup, rfl⟩
    · exact completed_of_all_finished hl.reachable hfin
    · have hholds := hl.reachable.holds hc.leecher hc.collisionFree
      exact hholds.take_eq hc.leecher fun i hi => (isFinished_iff _ i).mp (hfin i hi)

/-- No run of two clients handles more than `opening + 2` messages, in whatever order
    they are handled; every run can be continued until as many have been handled; and a
    run that cannot be continued has ended with the whole content on the disk. -/
theorem pairing_completes {ip : ℕ} {remote : Option ℕ} (hc : Compatible sha1 f g C)
    (h : Meeting sha1 f g w v ip remote s) {ls : List PairingLabel}
    (hrun : Runs.exec (Pairing.step sha1 w.peerCount v.peerCount) s ls = some s') :
    ls.length ≤ w.opening f + 2 ∧
      (∃ ls' s'', Runs.exec (Pairing.step sha1 w.peerCount v.peerCount) s' ls' = some s'' ∧
        ls.length + ls'.length = w.opening f + 2) ∧
      ((∀ l, Pairing.step sha1 w.peerCount v.peerCount s' l = none) →
        s'.Complete f C w.peerCount v.peerCount) := by
  obtain ⟨m, hm, hstage⟩ := (countsDown hc _ _).exec hrun h.stage
  refine ⟨by omega, ?_, fun hstop => ?_⟩
  · obtain ⟨ls', s'', hrun', hlen, -⟩ := (countsDown hc _ _).finishes hstage
    exact ⟨ls', s'', hrun', by omega⟩
  · obtain rfl := (countsDown hc _ _).stopped hstop hstage
    exact hstage.complete hc

/-! ## The one-byte download -/

theorem compatible_oneByte : Compatible sha1OfA oneByteFile oneByteFile [97] where
  leecher := describes_oneByte
  seeder := describes_oneByte
  pieceLength := rfl
  collisionFree := collisionFree_oneByte
  leecherFits := ⟨by decide, by decide⟩
  seederFits := ⟨by decide, by decide⟩
  pos := by decide
  count := by decide
  size_lt := by decide
  leecherHandshake := by decide +kernel
  seederHandshake := by decide +kernel

/-- A client without the byte has dialled one that has it. -/
theorem meeting_oneByte :
    ∃ s, Meeting sha1OfA oneByteFile oneByteFile oneByteFile.start oneByteDone 1 none s := by
  have hdials :
      (Runs.exec (step sha1OfA) oneByteFile.start [.dial 1, .connected 0]).isSome = true := by
    decide +kernel
  have haccepts : (step sha1OfA oneByteDone (.accepted none)).isSome = true := by
    decide +kernel
  obtain ⟨w, hw⟩ := Option.isSome_iff_exists.mp hdials
  obtain ⟨v, hv⟩ := Option.isSome_iff_exists.mp haccepts
  refine ⟨⟨w, v, oneByteFile.start.newMessages w 0,
    oneByteDone.newMessages v oneByteDone.peerCount⟩, .refl _, oneByteDone_reachable,
    by decide +kernel, fun i piece hi _ => ?_, hw, hv, rfl, rfl⟩
  obtain ⟨hash, -, rfl⟩ := List.mem_map.mp (List.mem_of_getElem? hi)
  show (0 : ℤ) < int32Max
  decide

/-- They handle seven messages. -/
theorem pairing_completes_oneByte : ∃ s ls s', ls.length = 7 ∧
    Runs.exec (Pairing.step sha1OfA 0 oneByteDone.peerCount) s ls = some s' := by
  obtain ⟨s, hs⟩ := meeting_oneByte
  have hseven : oneByteFile.start.opening oneByteFile + 2 = 7 := by decide +kernel
  obtain ⟨-, ⟨ls, s', hrun, hlen⟩, -⟩ := pairing_completes compatible_oneByte hs (Runs.exec_nil _)
  exact ⟨s, ls, s', by rw [← hseven, ← hlen]; simp, hrun⟩

end YTorrent
