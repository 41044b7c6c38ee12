import YTorrent.Torrent.Joining
import YTorrent.Torrent.Response

/-!
# Tracker replies

`httpRequest` uses what `bencoding::decode` returns without a check: a body that
is not a dictionary with a string `peers` and an integer `interval` ends the
process. `connectToPeers` reads the address and the port of an entry without
looking at how many bytes are left.

* `connectToPeers_ok`: the entries can be read exactly when the last one is whole,
  or has its address, which is skipped.
* `reply_iff`: the replies that end neither in a crash nor behind the string.
* `reply_fails`: a dictionary that holds a failure reason only.
-/

namespace YTorrent

open World

/-- The address in entry `k` of a `peers` string. -/
def entryIp (peers : List Byte) (k : ℕ) : ℕ := readAsLE32 (peers.drop (6 * k))

/-- Behind the last whole entry of the string there is nothing, or an address that is
    skipped: one that is skipped in `w`, or that an entry before it has. -/
def PeersReadable (w : World) (peers : List Byte) : Prop :=
  peers.length % 6 = 0 ∨ 4 ≤ peers.length % 6 ∧
    (Torrent.Skips w (entryIp peers (peers.length / 6)) ∨
      ∃ k < peers.length / 6, entryIp peers k = entryIp peers (peers.length / 6))

/-- The reply is a dictionary with a string `peers` and an integer `interval`, and
    `connectToPeers` can read the string if it is called. -/
def Usable (decode : List Byte → Option BItem) (w : World) (event : TrackerEvent)
    (body : List Byte) : Prop :=
  ∃ respDict peersInfo interval, decode body = some (.dictionary respDict) ∧
    lookup respDict "peers" = some (.string peersInfo) ∧
    lookup respDict "interval" = some (.integer interval) ∧
    (event = .none ∨ event = .started → PeersReadable w peersInfo)

/-- The query returns, and when it returns `false` nothing has changed. -/
def Returns (tr : Tracker) (w : World) (outcome : Except Crash Queried) : Prop :=
  ∃ q, outcome = .ok q ∧ (q.result = false → q.tracker.timeToNextRequest = tr.timeToNextRequest ∧
    q.world.torrent.activePeers = w.torrent.activePeers ∧
    q.world.torrent.blackListed = w.torrent.blackListed)

variable {sha1 : List Byte → List ℕ} {f : ParsedFile} {w w' : World} {peers : List Byte} {ip j : ℕ}

/-! ## `connectToPeers` -/

/-- After an address has been dialled it is skipped, as are those skipped before. -/
theorem skips_dial (hactive : ∀ q ∈ w.torrent.activePeers, q < w.peerCount) :
    Torrent.Skips (Torrent.dial w ip) j ↔ Torrent.Skips w j ∨ j = ip := by
  rcases dial_eq w ip with ⟨hskip, heq⟩ | ⟨-, heq⟩
  · rw [heq]
    constructor
    · exact .inl
    · rintro (h | rfl)
      · exact h
      · exact hskip
  · have hconn : ∀ q ∈ w.torrent.activePeers,
        ((Torrent.dial w ip).peers q).conn = (w.peers q).conn := by
      intro q hq
      have hne : q ≠ w.peerCount := (hactive q hq).ne
      rw [heq]
      exact congrArg Peer.conn (setPeer_peers_of_ne _ _ hne)
    have hlist : (Torrent.dial w ip).torrent.activePeers = w.torrent.activePeers := by
      rw [heq]
      rfl
    have hblack : (Torrent.dial w ip).torrent.blackListed = w.torrent.blackListed.insert ip := by
      rw [heq]
      rfl
    have hsame : (∃ q ∈ w.torrent.activePeers, ((Torrent.dial w ip).peers q).conn.getIP = j) ↔
        ∃ q ∈ w.torrent.activePeers, (w.peers q).conn.getIP = j := by
      constructor
      · rintro ⟨q, hq, h⟩
        exact ⟨q, hq, by rw [← hconn q hq]; exact h⟩
      · rintro ⟨q, hq, h⟩
        exact ⟨q, hq, by rw [hconn q hq]; exact h⟩
    simp only [Torrent.Skips, hlist, hblack, hsame, List.mem_insert_iff]
    constructor
    · rintro (h0 | (hip | hold) | hact)
      · exact .inl (.inl h0)
      · exact .inr hip
      · exact .inl (.inr (.inl hold))
      · exact .inl (.inr (.inr hact))
    · rintro ((h0 | hold | hact) | hip)
      · exact .inl h0
      · exact .inr (.inl (.inr hold))
      · exact .inr (.inr hact)
      · exact .inr (.inl (.inl hip))

theorem dial_active_lt (h : ∀ q ∈ w.torrent.activePeers, q < w.peerCount) :
    ∀ q ∈ (Torrent.dial w ip).torrent.activePeers, q < (Torrent.dial w ip).peerCount := by
  rcases dial_eq w ip with ⟨-, heq⟩ | ⟨-, heq⟩
  · rw [heq]
    exact h
  · rw [heq]
    intro q hq
    exact (h q hq).trans (Nat.lt_succ_self _)

/-- An entry of which all six bytes are there. -/
theorem connectEntry_whole (h : 6 ≤ peers.length) :
    ∃ dials, Torrent.connectEntry w peers = .ok (Torrent.dial w (readAsLE32 peers), dials) := by
  unfold Torrent.connectEntry
  rw [if_neg (by omega)]
  simp only
  split
  · rename_i hskip
    rcases dial_eq w (readAsLE32 peers) with ⟨-, heq⟩ | ⟨hno, -⟩
    · rw [heq]
      exact ⟨[], rfl⟩
    · exact absurd hskip hno
  · rw [if_neg (by omega)]
    exact ⟨_, rfl⟩

/-- The last entry, when bytes are missing. -/
theorem connectEntry_short (h : peers.length < 6) :
    (∃ res, Torrent.connectEntry w peers = .ok res) ↔
      4 ≤ peers.length ∧ Torrent.Skips w (readAsLE32 peers) := by
  unfold Torrent.connectEntry
  by_cases hlen : peers.length < 4
  · rw [if_pos hlen]
    exact iff_of_false (fun ⟨_, hres⟩ => nomatch hres) fun hle => absurd hle.1 (by omega)
  · rw [if_neg hlen]
    by_cases hskip : Torrent.Skips w (readAsLE32 peers)
    · exact iff_of_true ⟨_, if_pos hskip⟩ ⟨by omega, hskip⟩
    · simp only [if_neg hskip, if_pos h]
      exact iff_of_false (fun ⟨_, hres⟩ => nomatch hres) fun hle => hskip hle.2

theorem peersReadable_nil (w : World) : PeersReadable w [] := .inl rfl

/-- One entry, none of which is whole. -/
theorem peersReadable_short (h0 : peers ≠ []) (h : peers.length < 6) :
    PeersReadable w peers ↔ 4 ≤ peers.length ∧ Torrent.Skips w (readAsLE32 peers) := by
  have hpos := List.length_pos_iff.mpr h0
  have hdiv : peers.length / 6 = 0 := by omega
  have hmod : peers.length % 6 = peers.length := by omega
  have hne : peers.length ≠ 0 := by omega
  simp [PeersReadable, hdiv, hmod, entryIp, h0]

/-- The entries behind the first one, in the state after it has been handled. -/
theorem peersReadable_cons (hactive : ∀ q ∈ w.torrent.activePeers, q < w.peerCount)
    (h : 6 ≤ peers.length) : PeersReadable w peers ↔
      PeersReadable (Torrent.dial w (readAsLE32 peers)) (peers.drop 6) := by
  obtain ⟨n, hn⟩ : ∃ n, peers.length = n + 6 := ⟨peers.length - 6, by omega⟩
  have hlen : (peers.drop 6).length = n := by simp [hn]
  have hmod : (n + 6) % 6 = n % 6 := by omega
  have hdiv : (n + 6) / 6 = n / 6 + 1 := by omega
  have hip : ∀ k, entryIp (peers.drop 6) k = entryIp peers (k + 1) := by
    intro k
    rw [entryIp, entryIp, List.drop_drop, Nat.mul_succ, Nat.add_comm]
  have hfirst : readAsLE32 peers = entryIp peers 0 := rfl
  have hex : (∃ k < n / 6 + 1, entryIp peers k = entryIp peers (n / 6 + 1)) ↔
      entryIp peers 0 = entryIp peers (n / 6 + 1) ∨
        ∃ k < n / 6, entryIp peers (k + 1) = entryIp peers (n / 6 + 1) :=
    Nat.exists_lt_succ_left
  simp only [PeersReadable, hn, hlen, hmod, hdiv, hip, hfirst, skips_dial hactive, hex]
  constructor
  · rintro (h0 | ⟨h4, h1 | h2 | h3⟩)
    · exact .inl h0
    · exact .inr ⟨h4, .inl (.inl h1)⟩
    · exact .inr ⟨h4, .inl (.inr h2.symm)⟩
    · exact .inr ⟨h4, .inr h3⟩
  · rintro (h0 | ⟨h4, (h1 | h2) | h3⟩)
    · exact .inl h0
    · exact .inr ⟨h4, .inl h1⟩
    · exact .inr ⟨h4, .inr (.inl h2.symm)⟩
    · exact .inr ⟨h4, .inr (.inr h3)⟩

/-- The entries can be read exactly when the last one is whole or is skipped. -/
theorem connectToPeers_ok (hactive : ∀ q ∈ w.torrent.activePeers, q < w.peerCount) :
    (∃ res, Torrent.connectToPeers w peers = .ok res) ↔ PeersReadable w peers := by
  induction w, peers using Torrent.connectToPeers.induct with
  | case1 w a b c d e f peers ih =>
    have hlen : 6 ≤ (a :: b :: c :: d :: e :: f :: peers).length := by simp
    obtain ⟨dials, hentry⟩ := connectEntry_whole (w := w) hlen
    have hcons := peersReadable_cons hactive hlen
    generalize readAsLE32 (a :: b :: c :: d :: e :: f :: peers) = ip at hentry hcons
    have hrest := ih (Torrent.dial w ip) (dial_active_lt hactive)
    have hdrop : (a :: b :: c :: d :: e :: f :: peers).drop 6 = peers := rfl
    rw [hcons, hdrop, ← hrest, Torrent.connectToPeers, hentry]
    constructor
    · rintro ⟨res, hres⟩
      obtain ⟨_, ⟨⟩, hres⟩ := bind_eq_ok.mp hres
      obtain ⟨res', hres', -⟩ := bind_eq_ok.mp hres
      exact ⟨res', hres'⟩
    · rintro ⟨res, hres⟩
      exact ⟨(res.1, dials ++ res.2), bind_eq_ok.mpr ⟨_, rfl, bind_eq_ok.mpr ⟨res, hres, rfl⟩⟩⟩
  | case2 w => exact iff_of_true ⟨_, rfl⟩ (peersReadable_nil w)
  | case3 w peers hwhole hne =>
    have hlen : peers.length < 6 := by
      match peers with
      | [] | [_] | [_, _] | [_, _, _] | [_, _, _, _] | [_, _, _, _, _] => simp
      | a :: b :: c :: d :: e :: f :: peers => exact absurd rfl (hwhole a b c d e f peers)
    rw [peersReadable_short hne hlen, ← connectEntry_short hlen]
    rw [Torrent.connectToPeers.eq_3 w peers hwhole hne]

/-! ## `httpRequest` -/

/-- The end of `httpRequest` returns exactly for the replies that can be used. -/
theorem handleBody_ok {decode : List Byte → Option BItem} (tr : Tracker) {event : TrackerEvent}
    (now : ℤ) {body : List Byte} (hactive : ∀ q ∈ w.torrent.activePeers, q < w.peerCount) :
    (∃ q, tr.handleBody decode w event now body = .ok q) ↔ Usable decode w event body := by
  unfold Tracker.handleBody Usable
  simp only [bind_eq_ok, decodeDictionary_eq_ok, stringAt_eq_ok, integerAt_eq_ok]
  by_cases hevent : event = .none ∨ event = .started
  · simp only [if_pos hevent, bind_eq_ok]
    constructor
    · rintro ⟨q, respDict, hdict, peersInfo, hpeers, interval, hint, res, hres, -⟩
      exact ⟨respDict, peersInfo, interval, hdict, hpeers, hint,
        fun _ => (connectToPeers_ok hactive).mp ⟨res, hres⟩⟩
    · rintro ⟨respDict, peersInfo, interval, hdict, hpeers, hint, hread⟩
      obtain ⟨res, hres⟩ := (connectToPeers_ok hactive).mpr (hread hevent)
      exact ⟨_, respDict, hdict, peersInfo, hpeers, interval, hint, res, hres, rfl⟩
  · simp only [if_neg hevent]
    constructor
    · rintro ⟨q, respDict, hdict, peersInfo, hpeers, interval, hint, -⟩
      exact ⟨respDict, peersInfo, interval, hdict, hpeers, hint, fun h => absurd h hevent⟩
    · rintro ⟨respDict, peersInfo, interval, hdict, hpeers, hint, -⟩
      exact ⟨_, respDict, hdict, peersInfo, hpeers, interval, hint, rfl⟩

/-- It never returns `false`. -/
theorem handleBody_result {decode : List Byte → Option BItem} {tr : Tracker} {event : TrackerEvent}
    {now : ℤ} {body : List Byte} {q : Queried}
    (h : tr.handleBody decode w event now body = .ok q) : q.result = true := by
  unfold Tracker.handleBody at h
  simp only [bind_eq_ok] at h
  obtain ⟨respDict, -, peersInfo, -, interval, -, h⟩ := h
  split_ifs at h
  · obtain ⟨res, -, h⟩ := bind_eq_ok.mp h
    cases h
    rfl
  · cases h
    rfl

/-- Whatever the network does, a query that returns `false` has changed nothing. -/
theorem httpRequest_false {decode : List Byte → Option BItem} {tr : Tracker} {event : TrackerEvent}
    {x : Exchange} {q : Queried} (h : tr.httpRequest decode w event x = .ok q)
    (hfalse : q.result = false) : q = ⟨false, tr, w, []⟩ := by
  unfold Tracker.httpRequest at h
  split at h
  · exact (Except.ok.inj h).symm
  · exact (Except.ok.inj h).symm
  · cases h
  · split at h
    · cases h
    · exact (Except.ok.inj h).symm
    · rw [handleBody_result h] at hfalse
      cases hfalse

theorem active_lt (h : Reachable sha1 f w) : ∀ q ∈ w.torrent.activePeers, q < w.peerCount := by
  intro q hq
  by_contra hlt
  exact h.newcomers.inactive q (.inl (not_lt.mp hlt)) hq

/-- In every reachable state, for every body of a 200 answer: the query returns, and
    has changed nothing when it returns `false`, exactly when the reply can be used. -/
theorem reply_iff (hr : Reachable sha1 f w) {decode : List Byte → Option BItem} {tr : Tracker}
    {event : TrackerEvent} {segments : List (List Byte)} {now : ℤ} {body : List Byte}
    (hbody : readBody segments = .ok (.ok body)) :
    Returns tr w (tr.httpRequest decode w event (.answered segments now)) ↔
      Usable decode w event body := by
  rw [← handleBody_ok tr now (active_lt hr)]
  constructor
  · rintro ⟨q, hq, -⟩
    rw [Tracker.httpRequest, hbody] at hq
    exact ⟨q, hq⟩
  · rintro ⟨q, hq⟩
    have hok : tr.httpRequest decode w event (.answered segments now) = .ok q := by
      rw [Tracker.httpRequest, hbody]
      exact hq
    refine ⟨q, hok, fun hfalse => ?_⟩
    rw [httpRequest_false hok hfalse]
    exact ⟨rfl, rfl, rfl⟩

/-- The decoded `shortResponse`. -/
def decodeShort (data : List Byte) : Option BItem :=
  if data = shortResponse.body then
    some (.dictionary [(ascii "interval", .integer 9), (ascii "peers", .string [])])
  else none

/-- A response with the entry `1.2.3.4:6881` in `peers`. -/
def onePeerResponse : Response :=
  { shortResponse with
    body := ascii "d8:intervali9e5:peers6:" ++ [1, 2, 3, 4, 26, 225] ++ ascii "e" }

/-- The decoded `onePeerResponse`. -/
def decodeOnePeer (data : List Byte) : Option BItem :=
  if data = onePeerResponse.body then
    some (.dictionary [(ascii "interval", .integer 9),
      (ascii "peers", .string [1, 2, 3, 4, 26, 225])])
  else none

/-- The reply is used at the start of the one-byte download. -/
theorem reply_onePeerResponse :
    Returns { myPort := 6881, urlMeta := {} } oneByteFile.start
      (Tracker.httpRequest decodeOnePeer { myPort := 6881, urlMeta := {} } oneByteFile.start
        .started (.answered [onePeerResponse.bytes] 0)) := by
  have hbody := (readBody_whole (splits_one onePeerResponse)).mpr onePeerResponse.head_pos
  have hreach : Reachable sha1OfA oneByteFile oneByteFile.start := .refl _
  refine (reply_iff hreach hbody).mpr ?_
  refine ⟨[(ascii "interval", .integer 9), (ascii "peers", .string [1, 2, 3, 4, 26, 225])],
    [1, 2, 3, 4, 26, 225], 9, ?_, rfl, rfl, fun _ => .inl rfl⟩
  exact if_pos rfl

/-! ## A failure reason -/

/-- A response with the body `"d14:failure reason3:bade"`. -/
def failureResponse : Response where
  reason := ascii "OK"
  headers := []
  body := ascii "d14:failure reason3:bade"
  reason_line := isLine_ok
  header_lines _ hl := absurd hl (List.not_mem_nil)

/-- The decoded `failureResponse`. -/
def decodeFailure (data : List Byte) : Option BItem :=
  if data = failureResponse.body then
    some (.dictionary [(ascii "failure reason", .string (ascii "bad"))])
  else none

/-- The missing `peers` is a null item, whose member is called. -/
theorem reply_fails : ¬ ∀ (sha1 : List Byte → List ℕ) (f : ParsedFile) (w : World)
    (decode : List Byte → Option BItem) (tr : Tracker) (event : TrackerEvent)
    (segments : List (List Byte)) (now : ℤ) (body : List Byte), Reachable sha1 f w →
      readBody segments = .ok (.ok body) →
      Returns tr w (tr.httpRequest decode w event (.answered segments now)) := by
  intro hall
  have hbody := (readBody_whole (splits_one failureResponse)).mpr failureResponse.head_pos
  obtain ⟨q, hq, -⟩ := hall sha1OfA oneByteFile oneByteFile.start decodeFailure
    { myPort := 6881, urlMeta := {} } .started _ 0 _ (.refl _) hbody
  rw [Tracker.httpRequest, hbody] at hq
  obtain ⟨respDict, peersInfo, -, hdict, hpeers, -⟩ :=
    (handleBody_ok _ _ (w := oneByteFile.start) (by simp [ParsedFile.start])).mp ⟨q, hq⟩
  rw [decodeFailure, if_pos rfl] at hdict
  obtain rfl := BItem.dictionary.inj (Option.some.inj hdict)
  have hnone : lookup [(ascii "failure reason", .string (ascii "bad"))] "peers" = none := rfl
  rw [hnone] at hpeers
  cases hpeers

end YTorrent
