import YTorrent.Common.Segments
import YTorrent.Utils.Bencoding
import YTorrent.Torrent.Effects

/-!
# The tracker

Models of `Tracker` (`src/torrent/tracker.cpp`), `Torrent::buildTrackerQuery`
and `Torrent::connectToPeers`. `Tracker::httpRequest` is cut where it meets the
network: `Tracker.request` is what it writes, `readBody` what it reads up to the
call of `bencoding::decode`, `Tracker.handleBody` the rest.

Of asio, `read_until` is `Segments.readUntil`: the socket delivers the pieces of
a list one at a time, and then the end of the stream.
-/

namespace YTorrent

open Segments

/-- `TrackerEvent`. -/
inductive TrackerEvent
  | none
  | completed
  | started
  | stopped
  deriving DecidableEq, Repr

/-- `TrackerQuery`. -/
structure TrackerQuery where
  event : TrackerEvent
  downloaded : ℕ
  uploaded : ℕ
  remaining : ℕ
  deriving DecidableEq, Repr

/-- `Torrent::buildTrackerQuery` (torrent.cpp lines 159–176). -/
def Torrent.buildTrackerQuery (t : Torrent) (event : TrackerEvent) : TrackerQuery :=
  let downloaded := u64 (((List.range t.pieces.length).filter t.isFinished).map t.pieceSize).sum
  { event, uploaded := 0, downloaded, remaining := u64 (t.totalSize + 2 ^ 64 - downloaded) }

/-- `Tracker`. `timeToNextRequest` counts nanoseconds from the epoch of `system_clock`. -/
structure Tracker where
  myPort : ℕ
  urlMeta : UrlMeta
  timeToNextRequest : ℤ := 0
  deriving DecidableEq, Repr

/-- `Tracker::isNextRequestDue` at the clock reading `now`. -/
def Tracker.isNextRequestDue (tr : Tracker) (now : ℤ) : Bool := tr.timeToNextRequest ≤ now

/-! ## The request -/

/-- The text of the event (tracker.cpp lines 43–58). -/
def TrackerEvent.param : TrackerEvent → List Byte
  | none => []
  | completed => ascii "event=completed&"
  | stopped => ascii "event=stopped&"
  | started => ascii "event=started&"

/-- What `httpRequest` writes to the socket (tracker.cpp lines 43–88). -/
def Tracker.request (tr : Tracker) (handshake peerId : List Byte) (r : TrackerQuery) : List Byte :=
  let infoHash := (handshake.drop 28).take 20
  ascii "GET " ++ tr.urlMeta.announcePath ++ ascii "?" ++ r.event.param ++
    ascii "info_hash=" ++ urlEncode infoHash ++
    ascii "&peer_id=" ++ urlEncode (peerId.take 20) ++
    ascii "&port=" ++ decimal tr.myPort ++
    ascii "&uploaded=" ++ decimal r.uploaded ++
    ascii "&downloaded=" ++ decimal r.downloaded ++
    ascii "&left=" ++ decimal r.remaining ++
    ascii "&compact=1" ++ urlEncode tr.urlMeta.passKeyParam ++
    ascii " HTTP/1.0\r\n" ++ ascii "Host: " ++ tr.urlMeta.host ++ ascii "\r\n" ++
    ascii "User-Agent: YtoRRenT" ++ ascii "\r\n" ++ ascii "Connection: close" ++ ascii "\r\n" ++
    ascii "\r\n"

/-! ## The response -/

/-- The calls of `Torrent::handleTrackerError`, by the message they pass. -/
inductive TrackerError
  /-- `"Unable to resolve host: …"` -/
  | resolve
  /-- `"Failed to connect: …"` -/
  | connect
  /-- `"Unable to read data: …"` -/
  | read
  /-- `"Tracker send an invalid HTTP version response"` -/
  | httpVersion
  /-- `"Tracker failed to process our request: …"` -/
  | status (status : ℤ)
  /-- `"Unable to get to tracker response body."` -/
  | noBody
  deriving DecidableEq, Repr

/-- `"\r\n"`. -/
def crlf : List Byte := [13, 10]

/-- `isspace`. -/
def isSpace (c : Byte) : Bool := c == 32 || (9 ≤ c.val && c.val ≤ 13)

/-- `rbuf >> httpVersion`: the word, and what is left in the buffer. -/
def extractWord (buffer : List Byte) : List Byte × List Byte :=
  let buffer := buffer.dropWhile isSpace
  (buffer.takeWhile fun c => !isSpace c, buffer.dropWhile fun c => !isSpace c)

/-- The number a string of digits denotes. -/
def digitsValue (digits : List Byte) : ℕ := digits.foldl (fun n c => 10 * n + (c.val - 48)) 0

/-- `rbuf >> status`, for a buffer that holds more than white space: the number (0
    when there is none, the nearest `int` when it is too large), and what is left. -/
def extractInt (buffer : List Byte) : ℤ × List Byte :=
  let buffer := buffer.dropWhile isSpace
  let sign := buffer.take 1
  let buffer := if sign = ascii "+" ∨ sign = ascii "-" then buffer.drop 1 else buffer
  let value := digitsValue (buffer.takeWhile isDigit)
  (if sign = ascii "-" then max (-2 ^ 31) (-value) else min (2 ^ 31 - 1) value,
    buffer.dropWhile isDigit)

/-- `while (std::getline(rbuf, header) && header != "\r");`: what is left in the buffer
    behind the first line that is `"\r"`, `none` when there is no such line. `header` is
    the part of the line that has been read. -/
def skipHeader (header : List Byte) : List Byte → Option (List Byte)
  | [] => if header = [13] then some [] else none
  | c :: buffer =>
    if c = 10 then if header = [13] then some buffer else skipHeader [] buffer
    else skipHeader (header ++ [c]) buffer

/-- What `httpRequest` reads from the socket, up to the argument of `bencoding::decode`
    (tracker.cpp lines 89–141). -/
def readBody (segments : List (List Byte)) : Except Crash (Except TrackerError (List Byte)) :=
  match readUntil crlf [] segments with
  | none => .ok (.error .read)
  | some (response, segments) =>
    let (httpVersion, response) := extractWord response
    if httpVersion.take 5 ≠ ascii "HTTP/" then .ok (.error .httpVersion)
    -- at the end of the buffer `>>` leaves `status` without a value
    else if response.dropWhile isSpace = [] then .error .uninitialized
    else
      let (status, response) := extractInt response
      if status ≠ 200 then .ok (.error (.status status))
      else
        match readUntil (crlf ++ crlf) response segments with
        | none => .ok (.error .read)
        | some (buffer, _) =>
          -- a number that ends with the buffer leaves `rbuf` at its end, and `getline` fails
          match if response = [] then none else skipHeader [] buffer with
          | none => .ok (.error .noBody)
          | some body => .ok (.ok body)

/-! ## `connectToPeers` -/

/-- The arguments of `Peer::connect`. -/
structure Dial where
  ip : List Byte
  port : ℕ
  deriving DecidableEq, Repr

instance (w : World) (ip : ℕ) : Decidable (Torrent.Skips w ip) := by
  unfold Torrent.Skips; infer_instance

/-- The body of the loop of `Torrent::connectToPeers` (torrent.cpp lines 298–326), for the
    bytes from `peers + i` on. A read beyond these ends it here. Behind the fifth byte of a
    last entry the code reads the terminating NUL of `c_str()` and dials the port it makes
    with it; reads further on are undefined. -/
def Torrent.connectEntry (w : World) (ipAndPort : List Byte) : Except Crash (World × List Dial) :=
  if ipAndPort.length < 4 then .error .overread
  else
    let ip := readAsLE32 ipAndPort
    if Torrent.Skips w ip then .ok (w, [])
    else if ipAndPort.length < 6 then .error .overread
    else .ok (Torrent.dial w ip, [⟨parseIp ip, readAsBE16 (ipAndPort.drop 4)⟩])

/-- `Torrent::connectToPeers` (torrent.cpp lines 293–328). -/
def Torrent.connectToPeers (w : World) : List Byte → Except Crash (World × List Dial)
  | a :: b :: c :: d :: e :: f :: peers => do
    let (w, dials) ← Torrent.connectEntry w (a :: b :: c :: d :: e :: f :: peers)
    let (w, dials') ← Torrent.connectToPeers w peers
    return (w, dials ++ dials')
  | [] => return (w, [])
  | peers => Torrent.connectEntry w peers

/-! ## `httpRequest` -/

/-- `now + std::chrono::milliseconds(n)`, in nanoseconds of 64 bits. -/
def afterMillis (now : ℤ) (n : Int64) : ℤ := (now + n.toInt * 1000000).bmod (2 ^ 64)

/-- What a query leaves: the value it returns, the tracker, the client and the
    connections it started. -/
structure Queried where
  result : Bool
  tracker : Tracker
  world : World
  dials : List Dial := []

/-- The end of `httpRequest` (tracker.cpp lines 142–157). -/
def Tracker.handleBody (decode : List Byte → Option BItem) (tr : Tracker) (w : World)
    (event : TrackerEvent) (now : ℤ) (trackerResp : List Byte) : Except Crash Queried := do
  let respDict ← decodeDictionary decode trackerResp
  let peersInfo ← stringAt respDict "peers"
  let trackerTimeout ← integerAt respDict "interval"
  let tr := { tr with timeToNextRequest := afterMillis now trackerTimeout }
  if event = .none ∨ event = .started then
    let (w, dials) ← Torrent.connectToPeers w peersInfo
    return ⟨true, tr, w, dials⟩
  else return ⟨true, tr, w, []⟩

/-- What the network does with a query: the host is not resolved, no endpoint accepts
    a connection, the request cannot be written, or it is written and the pieces of a
    response arrive, the last when the clock reads `now`. -/
inductive Exchange
  | unresolved
  | unconnected
  | unwritten
  | answered (segments : List (List Byte)) (now : ℤ)
  deriving DecidableEq, Repr

/-- `Tracker::httpRequest` (tracker.cpp lines 17–157). -/
def Tracker.httpRequest (decode : List Byte → Option BItem) (tr : Tracker) (w : World)
    (event : TrackerEvent) : Exchange → Except Crash Queried
  | .unresolved => .ok ⟨false, tr, w, []⟩
  | .unconnected => .ok ⟨false, tr, w, []⟩
  | .unwritten => .error .systemError
  | .answered segments now =>
    match readBody segments with
    | .error c => .error c
    | .ok (.error _) => .ok ⟨false, tr, w, []⟩
    | .ok (.ok body) => tr.handleBody decode w event now body

end YTorrent
