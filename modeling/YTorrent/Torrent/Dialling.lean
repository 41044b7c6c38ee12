import YTorrent.Common.Firsts
import YTorrent.Torrent.Replies

/-!
# Whom `connectToPeers` dials

An entry of a `peers` string is an address and a port in network order. The code
reads the address as a little-endian `uint32_t`, keeps that number in `blackListed`
and hands its text to `Peer::connect`.

* `parseIp_raw`: the text is the dotted-decimal one.
* `connectToPeers_dials`: each new address is dialled once, with its first port, by a new
  `Peer` that waits for its connection.
-/

namespace YTorrent

open World Firsts

/-! ## Addresses -/

/-- An address, as its four bytes in network order. -/
structure IPv4 where
  a : Byte
  b : Byte
  c : Byte
  d : Byte
  deriving DecidableEq, Repr

namespace IPv4

/-- The number the code keeps for the address. -/
def raw (x : IPv4) : ℕ := x.a.val + 2 ^ 8 * x.b.val + 2 ^ 16 * x.c.val + 2 ^ 24 * x.d.val

/-- The dotted-decimal text. -/
def text (x : IPv4) : List Byte :=
  decimal x.a.val ++ ascii "." ++ decimal x.b.val ++ ascii "." ++ decimal x.c.val ++ ascii "." ++
    decimal x.d.val

/-- `0.0.0.0`. -/
def any : IPv4 := ⟨0, 0, 0, 0⟩

theorem raw_injective : Function.Injective raw := by
  rintro ⟨a, b, c, d⟩ ⟨a', b', c', d'⟩ h
  simp only [raw] at h
  have ha : a = a' := Fin.ext (by omega)
  have hb : b = b' := Fin.ext (by omega)
  have hc : c = c' := Fin.ext (by omega)
  have hd : d = d' := Fin.ext (by omega)
  rw [ha, hb, hc, hd]

theorem raw_eq_zero {x : IPv4} : x.raw = 0 ↔ x = any := raw_injective.eq_iff' rfl

end IPv4

theorem digitsValue_decimal : ∀ n < 256, digitsValue (decimal n) = n := by decide +kernel

/-- A number in front of a dot can be read off. -/
theorem decimal_dot_inj {m n : Byte} {v v' : List Byte}
    (h : decimal m.val ++ (ascii "." ++ v) = decimal n.val ++ (ascii "." ++ v')) :
    m = n ∧ v = v' := by
  have hdot : isDigit 46 = false := rfl
  have htake := congrArg (List.takeWhile isDigit) h
  have hdrop := congrArg (List.dropWhile isDigit) h
  rw [show ascii "." = [46] from rfl, List.singleton_append, List.singleton_append] at htake hdrop
  rw [takeWhile_append_cons (fun _ => isDigit_of_mem_decimal) hdot,
    takeWhile_append_cons (fun _ => isDigit_of_mem_decimal) hdot] at htake
  rw [dropWhile_append_cons (fun _ => isDigit_of_mem_decimal) hdot,
    dropWhile_append_cons (fun _ => isDigit_of_mem_decimal) hdot] at hdrop
  have hval := congrArg digitsValue htake
  rw [digitsValue_decimal _ m.isLt, digitsValue_decimal _ n.isLt] at hval
  exact ⟨Fin.ext hval, (List.cons.inj hdrop).2⟩

/-- Different addresses have different texts. -/
theorem IPv4.text_injective : Function.Injective IPv4.text := by
  rintro ⟨a, b, c, d⟩ ⟨a', b', c', d'⟩ h
  simp only [IPv4.text, List.append_assoc] at h
  obtain ⟨ha, h⟩ := decimal_dot_inj h
  obtain ⟨hb, h⟩ := decimal_dot_inj h
  obtain ⟨hc, h⟩ := decimal_dot_inj h
  have hval := congrArg digitsValue h
  rw [digitsValue_decimal _ d.isLt, digitsValue_decimal _ d'.isLt] at hval
  rw [ha, hb, hc, Fin.ext hval]

/-- A masked and shifted number. -/
theorem and_shiftRight_eq_mod (n i : ℕ) : (n &&& 0xFF <<< i) >>> i = n / 2 ^ i % 256 := by
  rw [Nat.shiftRight_and_distrib, Nat.shiftLeft_shiftRight, Nat.shiftRight_eq_div_pow]
  exact Nat.and_two_pow_sub_one_eq_mod _ 8

/-- The little-endian read and `parseIp` cancel out. -/
theorem parseIp_raw (x : IPv4) : parseIp x.raw = x.text := by
  have h0 : x.raw &&& 0x000000FF = x.a.val := by
    have h := and_shiftRight_eq_mod x.raw 0
    simp only [Nat.shiftLeft_zero, Nat.shiftRight_zero] at h
    rw [h, IPv4.raw]
    omega
  have h1 : (x.raw &&& 0x0000FF00) >>> 8 = x.b.val := by
    rw [show 0x0000FF00 = 0xFF <<< 8 from rfl, and_shiftRight_eq_mod, IPv4.raw]
    omega
  have h2 : (x.raw &&& 0x00FF0000) >>> 16 = x.c.val := by
    rw [show 0x00FF0000 = 0xFF <<< 16 from rfl, and_shiftRight_eq_mod, IPv4.raw]
    omega
  have h3 : (x.raw &&& 0xFF000000) >>> 24 = x.d.val := by
    rw [show 0xFF000000 = 0xFF <<< 24 from rfl, and_shiftRight_eq_mod, IPv4.raw]
    omega
  simp only [parseIp, h0, h1, h2, h3, IPv4.text]

theorem readAsLE16_eq (addr : List Byte) :
    readAsLE16 addr = readU8 addr 0 + 2 ^ 8 * readU8 addr 1 := by
  rw [readAsLE16, Nat.or_comm, or_shiftLeft_eq (i := 8) _ (readU8_lt addr 0)]
  omega

theorem readAsLE32_eq (addr : List Byte) :
    readAsLE32 addr = readAsLE16 addr + 2 ^ 16 * readAsLE16 (addr.drop 2) := by
  have hlt : readAsLE16 addr < 2 ^ 16 := by
    have h0 := readU8_lt addr 0
    have h1 := readU8_lt addr 1
    rw [readAsLE16_eq]
    omega
  rw [readAsLE32, Nat.or_comm, or_shiftLeft_eq (i := 16) _ hlt]
  omega

/-! ## Entries -/

/-- An entry of a `peers` string. -/
structure PeerEntry where
  address : IPv4
  portHi : Byte
  portLo : Byte
  deriving DecidableEq, Repr

namespace PeerEntry

/-- The big-endian port. -/
def port (e : PeerEntry) : ℕ := 256 * e.portHi.val + e.portLo.val

/-- The arguments of `Peer::connect` for the entry. -/
def dial (e : PeerEntry) : Dial := ⟨e.address.text, e.port⟩

end PeerEntry

/-- The entries of a `peers` string. -/
def peerEntries : List Byte → List PeerEntry
  | a :: b :: c :: d :: hi :: lo :: peers => ⟨⟨a, b, c, d⟩, hi, lo⟩ :: peerEntries peers
  | _ => []

/-- Behind the peers of `w` there is a new one for each entry of `dialled`, in order, which
    waits to be connected to the address; nothing but `blackListed` is different otherwise. -/
structure Started (w w' : World) (dialled : List PeerEntry) : Prop where
  peerCount : w'.peerCount = w.peerCount + dialled.length
  new : ∀ (k : ℕ) e, dialled[k]? = some e → w'.peers (w.peerCount + k) =
    { conn := { errorCB := true, pending := .connect e.address.raw } }
  old : ∀ q < w.peerCount, w'.peers q = w.peers q
  torrent : w'.torrent = { w.torrent with blackListed := w'.torrent.blackListed }
  trace : w'.trace = w.trace

/-- The connections of `dialled` are those that are to be started for the string, and
    `w'` is the state behind them. -/
structure DialsOnce (w : World) (peers : List Byte) (w' : World) (dialled : List PeerEntry) :
    Prop where
  distinct : (dialled.map fun e => e.dial.ip).Nodup
  mem_addresses : ∀ x : IPv4, x ∈ dialled.map (·.address) ↔
    x ∈ (peerEntries peers).map (·.address) ∧ x ≠ .any ∧ x.raw ∉ w.torrent.blackListed ∧
      ∀ q ∈ w.torrent.activePeers, (w.peers q).conn.getIP ≠ x.raw
  first : ∀ e ∈ dialled, (peerEntries peers).find? (·.address = e.address) = some e
  blackListed : ∀ ip, ip ∈ w'.torrent.blackListed ↔
    ip ∈ w.torrent.blackListed ∨ ∃ x ∈ dialled.map (·.address), x.raw = ip
  started : Started w w' dialled

variable {w w' : World} {peers : List Byte} {e : PeerEntry} {dialled : List PeerEntry}
  {a b c d hi lo : Byte}

/-- What the body of the loop does with an entry. -/
theorem connectEntry_entry (he : e = ⟨⟨a, b, c, d⟩, hi, lo⟩) :
    Torrent.connectEntry w (a :: b :: c :: d :: hi :: lo :: peers) =
      if Torrent.Skips w e.address.raw then .ok (w, [])
      else .ok (Torrent.dial w e.address.raw, [e.dial]) := by
  have hraw : readAsLE32 (a :: b :: c :: d :: hi :: lo :: peers) = e.address.raw := by
    rw [he, readAsLE32_eq, readAsLE16_eq, readAsLE16_eq]
    simp only [IPv4.raw, readU8, List.drop_succ_cons, List.drop_zero, List.getD_cons_zero,
      List.getD_cons_succ]
    omega
  have hport : readAsBE16 ((a :: b :: c :: d :: hi :: lo :: peers).drop 4) = e.port := by
    rw [he, readAsBE16_eq, PeerEntry.port]
    simp only [readU8, List.drop_succ_cons, List.drop_zero, List.getD_cons_zero,
      List.getD_cons_succ]
    omega
  have hsix : ¬ (a :: b :: c :: d :: hi :: lo :: peers).length < 6 := by simp
  unfold Torrent.connectEntry
  rw [if_neg (by simp), hraw, hport]
  simp only [parseIp_raw, if_neg hsix]
  rfl

/-- A peer that is dialled comes before those of the rest. -/
theorem Started.cons (hskip : ¬ Torrent.Skips w e.address.raw)
    (h : Started (Torrent.dial w e.address.raw) w' dialled) : Started w w' (e :: dialled) := by
  rcases dial_eq w e.address.raw with ⟨hyes, -⟩ | ⟨-, heq⟩
  · exact absurd hyes hskip
  have hcount : (Torrent.dial w e.address.raw).peerCount = w.peerCount + 1 := by
    rw [heq]
    rfl
  have hself : (Torrent.dial w e.address.raw).peers w.peerCount =
      { conn := { errorCB := true, pending := .connect e.address.raw } } := by
    rw [heq]
    exact setPeer_peers_self ..
  have hothers : ∀ q < w.peerCount, (Torrent.dial w e.address.raw).peers q = w.peers q := by
    intro q hq
    rw [heq]
    exact setPeer_peers_of_ne _ _ hq.ne
  refine ⟨?_, fun k e' hk => ?_, fun q hq => ?_, ?_, ?_⟩
  · rw [h.peerCount, hcount, List.length_cons]
    omega
  · cases k with
    | zero =>
      obtain rfl : e = e' := Option.some.inj hk
      exact (h.old w.peerCount (by omega)).trans hself
    | succ k =>
      have hpeer := h.new k e' hk
      rwa [hcount, Nat.add_right_comm] at hpeer
  · exact (h.old q (by omega)).trans (hothers q hq)
  · rw [h.torrent, heq]
    rfl
  · rw [h.trace, heq]
    rfl

/-- The loop handles the first entry of each address that is not skipped. -/
theorem connectToPeers_firsts (hactive : ∀ q ∈ w.torrent.activePeers, q < w.peerCount)
    (hlen : 6 ∣ peers.length) : ∃ w' dialled,
      Torrent.connectToPeers w peers = .ok (w', dialled.map PeerEntry.dial) ∧
      FirstsOf (fun e => e.address.raw) (Torrent.Skips w) (peerEntries peers) dialled ∧
      Started w w' dialled ∧
      ∀ ip, ip ∈ w'.torrent.blackListed ↔
        ip ∈ w.torrent.blackListed ∨ ip ∈ dialled.map fun e => e.address.raw := by
  induction w, peers using Torrent.connectToPeers.induct with
  | case1 w a b c d hi lo peers ih =>
    have hlen' : 6 ∣ peers.length := by
      simp only [List.length_cons] at hlen
      omega
    generalize he : (⟨⟨a, b, c, d⟩, hi, lo⟩ : PeerEntry) = e at ih
    have hentries :
        peerEntries (a :: b :: c :: d :: hi :: lo :: peers) = e :: peerEntries peers := by
      rw [peerEntries, he]
    rw [Torrent.connectToPeers, connectEntry_entry he.symm, hentries]
    by_cases hskip : Torrent.Skips w e.address.raw
    · obtain ⟨w', dialled, hrest, hfirsts, hstarted, hblack⟩ := ih w hactive hlen'
      rw [if_pos hskip]
      refine ⟨w', dialled, ?_, hfirsts.cons_of_skip hskip, hstarted, hblack⟩
      exact bind_eq_ok.mpr ⟨_, rfl, bind_eq_ok.mpr ⟨_, hrest, rfl⟩⟩
    · obtain ⟨w', dialled, hrest, hfirsts, hstarted, hblack⟩ :=
        ih (Torrent.dial w e.address.raw) (dial_active_lt hactive) hlen'
      rw [if_neg hskip]
      refine ⟨w', e :: dialled, ?_, hfirsts.cons_of_new hskip fun _ => skips_dial hactive,
        hstarted.cons hskip, ?_⟩
      · exact bind_eq_ok.mpr ⟨_, rfl, bind_eq_ok.mpr ⟨_, hrest, rfl⟩⟩
      · intro ip
        have hdial : (Torrent.dial w e.address.raw).torrent.blackListed =
            w.torrent.blackListed.insert e.address.raw := by
          rcases dial_eq w e.address.raw with ⟨hyes, -⟩ | ⟨-, heq⟩
          · exact absurd hyes hskip
          · rw [heq]
            rfl
        rw [hblack, hdial, List.mem_insert_iff, List.map_cons, List.mem_cons, or_assoc,
          or_left_comm]
  | case2 w =>
    have hnone : Started w w [] :=
      ⟨rfl, fun k e hk => by simp at hk, fun _ _ => rfl, rfl, rfl⟩
    exact ⟨w, [], rfl, .nil, hnone, fun ip => by simp⟩
  | case3 w peers hwhole hne =>
    rcases peers with _ | ⟨a, _ | ⟨b, _ | ⟨c, _ | ⟨d, _ | ⟨hi, _ | ⟨lo, peers⟩⟩⟩⟩⟩⟩
    · exact absurd rfl hne
    -- one to five bytes are no whole entry
    · simp at hlen
    · simp at hlen
    · simp at hlen
    · simp at hlen
    · simp at hlen
    · exact absurd rfl (hwhole a b c d hi lo peers)

/-- For every string of whole entries, in every state in which the active peers are
    objects that exist: an address is dialled, and entered in `blackListed`, exactly
    when it occurs in the string, is not `0.0.0.0`, was not in `blackListed` and is not
    that of an active peer. It is dialled once, with the port of its first entry, and the
    peers dialled are new ones that wait for their connections. -/
theorem connectToPeers_dials (hactive : ∀ q ∈ w.torrent.activePeers, q < w.peerCount)
    (hlen : 6 ∣ peers.length) : ∃ w' dialled,
      Torrent.connectToPeers w peers = .ok (w', dialled.map PeerEntry.dial) ∧
        DialsOnce w peers w' dialled := by
  obtain ⟨w', dialled, hok, hfirsts, hstarted, hblack⟩ := connectToPeers_firsts hactive hlen
  have hraws : ∀ (l : List PeerEntry) (x : IPv4),
      x.raw ∈ l.map (fun e => e.address.raw) ↔ x ∈ l.map (·.address) := by
    intro l x
    simp only [List.mem_map, IPv4.raw_injective.eq_iff]
  refine ⟨w', dialled, hok, ?_, fun x => ?_, fun e he => ?_, fun ip => ?_, hstarted⟩
  · have haddr : (dialled.map (·.address)).Nodup := by
      refine List.Nodup.of_map IPv4.raw ?_
      rw [List.map_map]
      exact hfirsts.distinct
    have htext := haddr.map IPv4.text_injective
    rw [List.map_map] at htext
    exact htext
  · rw [← hraws, hfirsts.mem_keys, hraws]
    refine and_congr_right fun _ => ?_
    rw [Torrent.Skips, not_or, not_or, IPv4.raw_eq_zero]
    simp only [not_exists, not_and, ne_eq]
  · have h := hfirsts.find e he
    simpa only [IPv4.raw_injective.eq_iff] using h
  · rw [hblack]
    simp only [List.mem_map, exists_exists_and_eq_and]

/-- `1.2.3.4:6881`, the same address with another port, `0.0.0.0:80` and `9.9.9.9:80`. -/
def fourPeers : List Byte :=
  [1, 2, 3, 4, 26, 225, 1, 2, 3, 4, 0, 80, 0, 0, 0, 0, 0, 80, 9, 9, 9, 9, 0, 80]

/-- The four entries at the start of the one-byte download. -/
theorem connectToPeers_fourPeers : ∃ w' dialled,
    Torrent.connectToPeers oneByteFile.start fourPeers =
        .ok (w', dialled.map PeerEntry.dial) ∧
      DialsOnce oneByteFile.start fourPeers w' dialled :=
  connectToPeers_dials (by simp [ParsedFile.start]) ⟨4, rfl⟩

/-- Two connections are started, the first with the port of the first entry. -/
example : ((Torrent.connectToPeers oneByteFile.start fourPeers).toOption.map (·.2)) =
    some [⟨ascii "1.2.3.4", 6881⟩, ⟨ascii "9.9.9.9", 80⟩] := by decide +kernel

end YTorrent
