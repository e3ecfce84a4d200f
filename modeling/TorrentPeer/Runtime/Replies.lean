import TorrentPeer.Lib.Window
import TorrentPeer.Runtime.TrackerIds

/-! From an announce reply to the addresses dialled: what is read of the datagram, the peers that come
of it, and what `start_dial` makes of their texts. -/

namespace TorrentPeer

open BigEndian

structure Address where
  a : UInt8
  b : UInt8
  c : UInt8
  d : UInt8
  deriving DecidableEq, Repr

def Address.text (x : Address) : Bytes := TrackerSession.inetNtop x.a x.b x.c x.d

/-- One compact peer: four address bytes and a port. -/
structure Entry where
  address : Address
  port : Nat
  deriving DecidableEq, Repr

def Entry.peer (entry : Entry) : Peer := ⟨entry.address.text, Decimal.render entry.port⟩

namespace TrackerSession

section Buffer

variable (w : Window)

def ntopAt (off : Nat) : Option Bytes := do
  let a ← w.byteAt off
  let b ← w.byteAt (off + 1)
  let c ← w.byteAt (off + 2)
  let d ← w.byteAt (off + 3)
  some (inetNtop a b c d)

def peersAt : Nat → Nat → List Peer → Option (List Peer)
  | 0, _, peers => some peers
  | fuel + 1, off, peers =>
    if off + 6 ≤ w.size then do
      let port ← w.readBe16 (off + 4)
      if port = 0 then peersAt fuel (off + 6) peers
      else do
        let ip ← ntopAt w off
        peersAt fuel (off + 6) (peers ++ [⟨ip, Decimal.render port⟩])
    else some peers

/-- `parse_announce_reply` on the buffer itself; it has no result if it reads past the datagram. -/
def parseReplyAt (expectTxn : Nat) : Option AnnounceReply :=
  if w.size < 8 then some .ignore
  else do
    let action ← w.readBe32 0
    let txn ← w.readBe32 4
    if txn ≠ expectTxn then some .ignore
    else if action = 3 then do
      let text ← w.slice 8 (w.size - 8)
      some (.error text)
    else if action ≠ 1 ∨ w.size < 20 then some .ignore
    else do
      let interval ← w.readBe32 8
      let leechers ← w.readBe32 12
      let seeders ← w.readBe32 16
      let peers ← peersAt w w.size 20 []
      some (.ok interval leechers seeders peers)

variable {w}

theorem ntopAt_inside {off : Nat} (inside : off + 4 ≤ w.size) :
    ntopAt w off = some (inetNtop ((w.bytes.drop off).getD 0 0) ((w.bytes.drop off).getD 1 0)
      ((w.bytes.drop off).getD 2 0) ((w.bytes.drop off).getD 3 0)) := by
  have first : w.byteAt off = _ := Window.byteAt_inside 0 (by omega)
  rw [ntopAt, first, Window.byteAt_inside 1 (by omega), Window.byteAt_inside 2 (by omega),
    Window.byteAt_inside 3 (by omega)]
  rfl

theorem parsePeers_short {rest : Bytes} (short : rest.length < 6) : parsePeers rest = [] := by
  unfold parsePeers
  split
  · simp only [List.length_cons] at short
    omega
  · rfl

theorem six_bytes {rest : Bytes} (long : 6 ≤ rest.length) :
    ∃ a b c d high low more, rest = a :: b :: c :: d :: high :: low :: more := by
  match rest, long with
  | a :: b :: c :: d :: high :: low :: more, _ => exact ⟨a, b, c, d, high, low, more, rfl⟩

theorem peersAt_inside (fuel off : Nat) (peers : List Peer) (enough : w.size ≤ off + 6 * fuel) :
    peersAt w fuel off peers = some (peers ++ parsePeers (w.bytes.drop off)) := by
  have length := w.bytes_length
  induction fuel generalizing off peers with
  | zero =>
    rw [List.drop_eq_nil_of_le (by omega), parsePeers_short (by decide), List.append_nil]
    rfl
  | succ fuel ih =>
    rw [peersAt]
    by_cases inside : off + 6 ≤ w.size
    · obtain ⟨a, b, c, d, high, low, more, shape⟩ := @six_bytes (w.bytes.drop off) (by
        rw [List.length_drop]
        omega)
      have later : w.bytes.drop (off + 6) = more := by
        rw [← List.drop_drop, shape]
        rfl
      have tail : w.bytes.drop (off + 4) = high :: low :: more := by
        rw [← List.drop_drop, shape]
        rfl
      rw [if_pos inside, Window.readBe16_inside (by omega), ntopAt_inside (by omega), tail, shape, parsePeers]
      simp only [Option.bind_eq_bind, Option.bind_some, List.getD_cons_zero, List.getD_cons_succ]
      by_cases garbage : high.toNat * 2 ^ 8 + low.toNat = 0
      · rw [if_pos garbage, if_pos garbage, ih (off + 6) peers (by omega), later]
      · rw [if_neg garbage, if_neg garbage, ih (off + 6) _ (by omega), later, List.append_assoc]
        rfl
    · rw [if_neg inside, parsePeers_short (by rw [List.length_drop]; omega), List.append_nil]

theorem parseReplyAt_inside (expectTxn : Nat) :
    parseReplyAt w expectTxn = some (parseAnnounceReply w.bytes expectTxn) := by
  have length := w.bytes_length
  unfold parseReplyAt parseAnnounceReply
  rw [length]
  by_cases short : w.size < 8
  · rw [if_pos short, if_pos short]
  have readAction : w.readBe32 0 = some (readBe32 (w.bytes.drop 0)) := Window.readBe32_inside (by omega)
  have readTxn : w.readBe32 4 = some (readBe32 (w.bytes.drop 4)) := Window.readBe32_inside (by omega)
  rw [List.drop_zero] at readAction
  rw [if_neg short, if_neg short, readAction, readTxn]
  clear readAction readTxn
  generalize readBe32 w.bytes = action
  generalize readBe32 (w.bytes.drop 4) = txn
  rw [Option.bind_eq_bind, Option.bind_some, Option.bind_eq_bind, Option.bind_some]
  by_cases other : txn ≠ expectTxn
  · rw [if_pos other, if_pos other]
  rw [if_neg other, if_neg other]
  by_cases failed : action = 3
  · rw [if_pos failed, if_pos failed, Window.slice_inside (by omega), List.take_of_length_le (by
      rw [List.length_drop]
      omega), Option.bind_some]
  rw [if_neg failed, if_neg failed]
  by_cases foreign : action ≠ 1 ∨ w.size < 20
  · rw [if_pos foreign, if_pos foreign]
  rw [if_neg foreign, if_neg foreign]
  have long : 20 ≤ w.size := by omega
  have readInterval : w.readBe32 8 = some (readBe32 (w.bytes.drop 8)) := Window.readBe32_inside (by omega)
  have readLeechers : w.readBe32 12 = some (readBe32 (w.bytes.drop 12)) := Window.readBe32_inside (by omega)
  have readSeeders : w.readBe32 16 = some (readBe32 (w.bytes.drop 16)) := Window.readBe32_inside (by omega)
  rw [readInterval, readLeechers, readSeeders, peersAt_inside _ _ _ (by omega), List.nil_append]
  clear readInterval readLeechers readSeeders
  generalize readBe32 (w.bytes.drop 8) = interval
  generalize readBe32 (w.bytes.drop 12) = leechers
  generalize readBe32 (w.bytes.drop 16) = seeders
  rw [Option.bind_eq_bind, Option.bind_some, Option.bind_some, Option.bind_some, Option.bind_some]

end Buffer

section Entries

def entryAt (datagram : Bytes) (off : Nat) : Entry where
  address := ⟨datagram.getD off 0, datagram.getD (off + 1) 0, datagram.getD (off + 2) 0, datagram.getD (off + 3) 0⟩
  port := (datagram.getD (off + 4) 0).toNat * 2 ^ 8 + (datagram.getD (off + 5) 0).toNat

def entriesFrom (datagram : Bytes) (off : Nat) : List Entry :=
  ((List.range ((datagram.length - off) / 6)).map (fun k => entryAt datagram (off + 6 * k))).filter
    (fun entry => decide (entry.port ≠ 0))

def entries (datagram : Bytes) : List Entry := entriesFrom datagram 20

theorem entriesFrom_step {datagram : Bytes} {off : Nat} (inside : off + 6 ≤ datagram.length) :
    entriesFrom datagram off = (if (entryAt datagram off).port = 0 then [] else [entryAt datagram off]) ++
      entriesFrom datagram (off + 6) := by
  have count : (datagram.length - off) / 6 = (datagram.length - (off + 6)) / 6 + 1 := by omega
  have shifted : ∀ k, off + 6 * (k + 1) = off + 6 + 6 * k := by
    intro k
    omega
  rw [entriesFrom, count, List.range_succ_eq_map, List.map_cons, List.map_map, List.filter_cons]
  simp only [Nat.mul_zero, Nat.add_zero]
  have same : (fun k => entryAt datagram (off + 6 * k)) ∘ Nat.succ = fun k => entryAt datagram (off + 6 + 6 * k) := by
    funext k
    exact congrArg (entryAt datagram) (shifted k)
  rw [same]
  by_cases garbage : (entryAt datagram off).port = 0
  · rw [if_neg (by simpa using garbage), if_pos garbage]
    rfl
  · rw [if_pos (by simpa using garbage), if_neg garbage]
    rfl

theorem parsePeers_entries (datagram : Bytes) (off : Nat) :
    parsePeers (datagram.drop off) = (entriesFrom datagram off).map Entry.peer := by
  induction count : (datagram.length - off) / 6 generalizing off with
  | zero =>
    rw [parsePeers_short (by rw [List.length_drop]; omega), entriesFrom, count]
    rfl
  | succ n ih =>
    obtain ⟨a, b, c, d, high, low, more, shape⟩ := @six_bytes (datagram.drop off) (by
      rw [List.length_drop]
      omega)
    have byte : ∀ j, datagram.getD (off + j) 0 = (datagram.drop off).getD j 0 := by
      intro j
      rw [List.getD_eq_getElem?_getD, List.getD_eq_getElem?_getD, List.getElem?_drop]
    have entry : entryAt datagram off = ⟨⟨a, b, c, d⟩, high.toNat * 2 ^ 8 + low.toNat⟩ := by
      have first := byte 0
      rw [Nat.add_zero] at first
      rw [entryAt, first, byte 1, byte 2, byte 3, byte 4, byte 5, shape]
      rfl
    have later : datagram.drop (off + 6) = more := by
      rw [← List.drop_drop, shape]
      rfl
    rw [entriesFrom_step (by omega), List.map_append, ← ih (off + 6) (by omega), later, shape, parsePeers, entry]
    dsimp only
    by_cases garbage : high.toNat * 2 ^ 8 + low.toNat = 0
    · rw [if_pos garbage, if_pos garbage]
      rfl
    · rw [if_neg garbage, if_neg garbage]
      rfl

theorem entries_port {datagram : Bytes} {entry : Entry} (member : entry ∈ entries datagram) :
    entry.port ≠ 0 ∧ entry.port < 2 ^ 16 := by
  obtain ⟨listed, positive⟩ := List.mem_filter.mp member
  obtain ⟨k, -, same⟩ := List.mem_map.mp listed
  refine ⟨of_decide_eq_true positive, ?_⟩
  rw [← same]
  have high := (datagram.getD (20 + 6 * k + 4) 0).toNat_lt
  have low := (datagram.getD (20 + 6 * k + 5) 0).toNat_lt
  dsimp only [entryAt]
  omega

end Entries

end TrackerSession

namespace PeerManager

section Dialling

variable {pton : Bytes → Option Address}

/-- The address that `start_dial` fills in by means of `inet_pton`, before it asks for a socket. -/
def sockaddr (pton : Bytes → Option Address) (peer : Peer) : Option (Address × Nat) := do
  let port ← parsePort peer.port
  let address ← pton peer.host
  some (address, port)

theorem startDial_sockaddr {env : Env} (agrees : ∀ host, env.inetPton host = (pton host).isSome) (peer : Peer)
    (attempt : Nat) :
    startDial env peer attempt = match sockaddr pton peer, env.dial attempt with
      | some _, .started fd => some {
          sock := { fd := fd }
          peer := peer
          deadline := env.clock (.dial fd) + kConnectTimeout }
      | _, _ => none := by
  unfold startDial sockaddr
  rw [agrees]
  cases port : parsePort peer.port with
  | none => rfl
  | some number =>
    cases address : pton peer.host with
    | none => rfl
    | some target =>
      rw [if_neg (by simp)]
      cases env.dial attempt <;> rfl

theorem parsePort_render {port : Nat} (positive : port ≠ 0) (small : port < 2 ^ 16) :
    parsePort (Decimal.render port) = some port := by
  have read := @Decimal.fromChars_render port 65535 (by omega)
  rw [parsePort, read]
  dsimp only
  rw [if_neg, Int.toNat_natCast]
  rintro (failed | short | zero)
  · exact failed rfl
  · exact short rfl
  · exact positive (Int.natCast_eq_zero.mp zero)

theorem sockaddr_entry (inverts : ∀ address : Address, pton address.text = some address) {entry : Entry}
    (positive : entry.port ≠ 0) (small : entry.port < 2 ^ 16) :
    sockaddr pton entry.peer = some (entry.address, entry.port) := by
  rw [sockaddr, Entry.peer]
  dsimp only
  rw [parsePort_render positive small, inverts]
  rfl

end Dialling

end PeerManager

namespace TrackerManager

open TrackerSession PeerManager

/-- What `recv` keeps of a datagram; `buf_` is larger than any that UDP carries. -/
def received (bytes : Bytes) : Bytes := bytes.take 65536

def Passed (datagram : Bytes) (expectTxn : Nat) : Prop :=
  datagram.length < 8 ∨ readBe32 (datagram.drop 4) ≠ expectTxn ∨
    (readBe32 datagram ≠ 3 ∧ ¬ (readBe32 datagram = 1 ∧ 20 ≤ datagram.length))

def Answers (datagram : Bytes) (expectTxn : Nat) : Prop :=
  20 ≤ datagram.length ∧ readBe32 datagram = 1 ∧ readBe32 (datagram.drop 4) = expectTxn

section Replies

variable {datagram : Bytes} {expectTxn : Nat}

theorem Passed.ignored (passed : Passed datagram expectTxn) : parseAnnounceReply datagram expectTxn = .ignore := by
  unfold parseAnnounceReply
  by_cases short : datagram.length < 8
  · rw [if_pos short]
  rw [if_neg short]
  by_cases other : readBe32 (datagram.drop 4) ≠ expectTxn
  · rw [if_pos other]
  rw [if_neg other]
  obtain ⟨sound, foreign⟩ := (passed.resolve_left short).resolve_left other
  rw [if_neg sound, if_pos]
  by_cases action : readBe32 datagram = 1
  · exact Or.inr (Nat.not_le.mp (fun long => foreign ⟨action, long⟩))
  · exact Or.inl action

theorem Answers.taken (answers : Answers datagram expectTxn) :
    parseAnnounceReply datagram expectTxn = .ok (readBe32 (datagram.drop 8)) (readBe32 (datagram.drop 12))
      (readBe32 (datagram.drop 16)) ((entries datagram).map Entry.peer) := by
  obtain ⟨long, action, txn⟩ := answers
  have regular : ¬ (readBe32 datagram ≠ 1 ∨ datagram.length < 20) := by
    rintro (other | short)
    · exact other action
    · exact Nat.not_le.mpr short long
  rw [parseAnnounceReply, if_neg (Nat.not_lt.mpr (Nat.le_trans (by decide) long)), if_neg (not_not.mpr txn),
    if_neg (by rw [action]; decide), if_neg regular, parsePeers_entries, entries]

theorem recvAnnounce_passed {t : TrackerSession} {bytes : Bytes} (passed : Passed (received bytes) t.transactionId)
    (now : Time) (rest : List Datagram) :
    t.recvAnnounce now (.data bytes :: rest) = t.recvAnnounce now rest := by
  have ignored : parseAnnounceReply (bytes.take 65536) t.transactionId = .ignore := passed.ignored
  rw [recvAnnounce, ignored]

theorem receive_announcing {env : TrackerEnv} {revents : Nat} {t : TrackerSession} (waiting : t.state = .announcing)
    (ready : readable revents = true) :
    receive env revents t =
      (if (t.recvAnnounce env.receivedAt env.recv).1 = false
        then (t.recvAnnounce env.receivedAt env.recv).2.1.failBackoff env.firstBackoff
        else (t.recvAnnounce env.receivedAt env.recv).2.1, (t.recvAnnounce env.receivedAt env.recv).2.2) := by
  rw [receive, if_neg (by rw [ready]; decide), waiting]

theorem receive_answers {env : TrackerEnv} {revents : Nat} {t : TrackerSession} {bytes : Bytes}
    {rest : List Datagram} (waiting : t.state = .announcing) (ready : readable revents = true)
    (arrived : env.recv = .data bytes :: rest) (answers : Answers (received bytes) t.transactionId) :
    ∃ interval leechers seeders, receive env revents t =
      (t.acknowledge env.receivedAt interval leechers seeders,
        if t.inFlight = .eventStopped then [] else (entries (received bytes)).map Entry.peer) := by
  have taken : parseAnnounceReply (bytes.take 65536) t.transactionId = _ := answers.taken
  rw [receive_announcing waiting ready, arrived, recvAnnounce, taken]
  exact ⟨_, _, _, rfl⟩

end Replies

section Example

def dottedQuad (text : Bytes) : Option Address :=
  match text.splitOn 46 with
  | [a, b, c, d] =>
    some ⟨UInt8.ofNat (Decimal.value a), UInt8.ofNat (Decimal.value b), UInt8.ofNat (Decimal.value c),
      UInt8.ofNat (Decimal.value d)⟩
  | _ => none

theorem dottedQuad_text (address : Address) : dottedQuad address.text = some address := by
  have dotless : ∀ n, ∀ byte ∈ Decimal.render n, (byte == 46) = false := by
    intro n byte member
    have decimal := Decimal.render_digits n byte member
    rw [beq_eq_false_iff_ne]
    rintro rfl
    revert decimal
    decide
  have quad : address.text.splitOn 46 = [Decimal.render address.a.toNat, Decimal.render address.b.toNat,
      Decimal.render address.c.toNat, Decimal.render address.d.toNat] := by
    have dot : ascii "." = [46] := by decide
    rw [Address.text, inetNtop, dot, List.splitOn]
    simp only [List.append_assoc, List.cons_append, List.nil_append]
    rw [List.splitOnP_append_cons_of_forall_mem (dotless _) 46 (by decide),
      List.splitOnP_append_cons_of_forall_mem (dotless _) 46 (by decide),
      List.splitOnP_append_cons_of_forall_mem (dotless _) 46 (by decide), List.splitOnP_eq_singleton (dotless _)]
  rw [dottedQuad, quad]
  simp only [Decimal.value_render, UInt8.ofNat_toNat]

def onePeer : Bytes :=
  be32 1 ++ be32 5 ++ be32 1800 ++ be32 0 ++ be32 0 ++ [10, 0, 0, 1, 26, 225, 10, 0, 0, 2, 0, 0, 1, 2, 3]

theorem onePeer_entries : entries (received onePeer) = [⟨⟨10, 0, 0, 1⟩, 6881⟩] := by decide +kernel

theorem onePeer_answers : Answers (received onePeer) 5 := by
  unfold Answers
  decide +kernel

def hearsOnePeer : TrackerEnv := ⟨[.data onePeer], .resolved, some 9, 5, true, 0, 0, 0, 0⟩

theorem rounds_announcing {ops : List Op} {event : TrackerEvent}
    (seen : (rounds ops).map (fun m => m.trackers.map (fun t => (t.state, t.transactionId, t.inFlight))) =
      some [(.announcing, 5, event)]) :
    ∃ m t, Driven m ∧ t ∈ m.trackers ∧ t.state = .announcing ∧ t.transactionId = 5 ∧ t.inFlight = event := by
  obtain ⟨m, ran, shown⟩ := Option.map_eq_some_iff.mp seen
  have listed : (TrackerState.announcing, 5, event) ∈
    m.trackers.map (fun t => (t.state, t.transactionId, t.inFlight)) := by
    rw [shown]
    exact List.mem_singleton_self _
  obtain ⟨t, member, fields⟩ := List.mem_map.mp listed
  simp only [Prod.mk.injEq] at fields
  exact ⟨m, t, rounds_driven ran, member, fields⟩

end Example

/-- A datagram that is too short, of another transaction, or neither an error nor an announce reply changes
nothing. Of an announce reply nothing past its end is read, and its complete entries that have a port are the
peers returned, in order, unless it acknowledges the stopped event, when nobody is and the session is
stopped; and from the text of each entry `start_dial` gets back its address and its port. -/
theorem replies_become_addresses (pton : Bytes → Option Address)
    (inverts : ∀ address : Address, pton address.text = some address) (env : TrackerEnv) (revents : Nat)
    (t : TrackerSession) (bytes : Bytes) (rest : List Datagram) (waiting : t.state = .announcing)
    (ready : readable revents = true) (arrived : env.recv = .data bytes :: rest) :
    (Passed (received bytes) t.transactionId →
      receive env revents t = receive { env with recv := rest } revents t ∧
        receive { env with recv := [.data bytes] } revents t = (t, [])) ∧
    (Answers (received bytes) t.transactionId →
      (receive env revents t).2 =
        (if t.inFlight = .eventStopped then [] else (entries (received bytes)).map Entry.peer) ∧
      (t.inFlight = .eventStopped → (receive env revents t).1.state = .stopped) ∧
      ∀ entry ∈ entries (received bytes),
        sockaddr pton entry.peer = some (entry.address, entry.port) ∧
        ∀ (dialling : Env) (attempt fd : Nat), (∀ host, dialling.inetPton host = (pton host).isSome) →
          dialling.dial attempt = .started fd →
          ∃ pending, startDial dialling entry.peer attempt = some pending ∧ pending.peer = entry.peer) ∧
    (∀ w : Window, w.bytes = received bytes →
      parseReplyAt w t.transactionId = some (parseAnnounceReply (received bytes) t.transactionId)) ∧
    (bytes.length ≤ 65536 → received bytes = bytes) := by
  refine ⟨fun passed => ⟨?_, ?_⟩, fun answers => ⟨?_, ?_, ?_⟩, ?_, ?_⟩
  · rw [receive_announcing waiting ready, receive_announcing waiting ready, arrived, recvAnnounce_passed passed]
  · rw [receive_announcing waiting ready]
    dsimp only
    rw [recvAnnounce_passed passed]
    rfl
  · obtain ⟨_, _, _, taken⟩ := receive_answers waiting ready arrived answers
    rw [taken]
  · intro stopped
    obtain ⟨_, _, _, taken⟩ := receive_answers waiting ready arrived answers
    rw [taken]
    exact acknowledge_stopped stopped _ _ _ _
  · intro entry member
    obtain ⟨positive, small⟩ := entries_port member
    have parsed := sockaddr_entry inverts positive small
    refine ⟨parsed, ?_⟩
    intro dialling attempt fd agrees started
    rw [startDial_sockaddr agrees, parsed, started]
    exact ⟨_, rfl, rfl⟩
  · intro w same
    rw [← same]
    exact parseReplyAt_inside t.transactionId
  · exact List.take_of_length_le

/-- The reply to the first announce of a run. -/
theorem replies_become_addresses_one_peer :
    ∃ m t, Driven m ∧ t ∈ m.trackers ∧ t.state = .announcing ∧
      (receive hearsOnePeer pollIn t).2 = [⟨ascii "10.0.0.1", ascii "6881"⟩] ∧
      sockaddr dottedQuad ⟨ascii "10.0.0.1", ascii "6881"⟩ = some (⟨10, 0, 0, 1⟩, 6881) := by
  obtain ⟨m, t, driven, member, waiting, txn, started⟩ := @rounds_announcing
    [hearing [] 0, hearing [] (seconds 1), hearing [connectReply] (seconds 2)] .eventStarted (by decide +kernel)
  obtain ⟨-, answered, -⟩ := replies_become_addresses dottedQuad dottedQuad_text hearsOnePeer pollIn t onePeer []
    waiting (by decide) rfl
  obtain ⟨peers, -, parsed⟩ := answered (by rw [txn]; exact onePeer_answers)
  have text : Entry.peer ⟨⟨10, 0, 0, 1⟩, 6881⟩ = ⟨ascii "10.0.0.1", ascii "6881"⟩ := by decide +kernel
  rw [onePeer_entries] at peers parsed
  rw [started, if_neg (by decide), List.map_singleton, text] at peers
  have target := (parsed _ (List.mem_singleton_self _)).1
  rw [text] at target
  exact ⟨m, t, driven, member, waiting, peers, target⟩

/-- The reply to the last announce of a run has a complete entry with a port, but nobody is returned. -/
theorem stopped_reply_returns_nobody :
    ∃ m t, Driven m ∧ t ∈ m.trackers ∧ t.state = .announcing ∧ Answers (received onePeer) t.transactionId ∧
      entries (received onePeer) = [⟨⟨10, 0, 0, 1⟩, 6881⟩] ∧ (receive hearsOnePeer pollIn t).2 = [] := by
  obtain ⟨m, t, driven, member, waiting, txn, stopped⟩ := @rounds_announcing
    [hearing [] 0, hearing [] (seconds 1), hearing [connectReply] (seconds 2), hearing [announceReply] (seconds 3),
      .beginShutdown (seconds 4), hearing [] (seconds 5)] .eventStopped (by decide +kernel)
  have answers : Answers (received onePeer) t.transactionId := by
    rw [txn]
    exact onePeer_answers
  refine ⟨m, t, driven, member, waiting, answers, onePeer_entries, ?_⟩
  have ready : readable pollIn = true := by decide
  have arrived : hearsOnePeer.recv = [.data onePeer] := rfl
  obtain ⟨_, _, _, taken⟩ := receive_answers waiting ready arrived answers
  rw [taken, if_pos stopped]

end TrackerManager

end TorrentPeer
