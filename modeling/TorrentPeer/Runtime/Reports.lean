import TorrentPeer.Runtime.Accounting
import TorrentPeer.Runtime.Client
import TorrentPeer.Runtime.TrackerIds
import TorrentPeer.Runtime.Uploads
import TorrentPeer.Metainfo.InfoSpan

/-! What the trackers are told. Every announce carries the counters the session had when it was sent, so that
the progress a tracker sees is the progress there was. -/

namespace TorrentPeer.TrackerManager

open TrackerSession BigEndian Splice

/-- What a tracker reads in an announce. -/
structure Report where
  action : Nat
  infoHash : Bytes
  peerId : Bytes
  stats : AnnounceParams
  event : Nat

def reportOf (packet : Bytes) : Report where
  action := readBe32 (packet.drop 8)
  infoHash := slice packet 16 20
  peerId := slice packet 36 20
  stats := ⟨readBe64 (packet.drop 56), readBe64 (packet.drop 72), readBe64 (packet.drop 64)⟩
  event := readBe32 (packet.drop 80)

def reportIn : Deed → Option Report
  | .announceSent _ packet _ => some (reportOf packet)
  | _ => none

def reports (s : TrackerSession) : List Report := s.history.filterMap reportIn

/-- Numbers that fit into the fields of an announce. -/
structure Sized (stats : AnnounceParams) : Prop where
  downloaded : stats.downloaded < 2 ^ 64
  uploaded : stats.uploaded < 2 ^ 64
  left : stats.left < 2 ^ 64

def reportFor (m : TrackerManager) (stats : AnnounceParams) (event : TrackerEvent) : Report :=
  ⟨1, m.torrent.infoHash, m.peerId, stats, event.code⟩

section Packets

theorem be64_length (n : Nat) : (be64 n).length = 8 := rfl

theorem reportOf_build {m : TrackerManager} {s : TrackerSession} {event : TrackerEvent} {stats : AnnounceParams}
    {packet : Bytes} (hash : m.torrent.infoHash.length = 20) (sized : Sized stats)
    (built : s.buildAnnounceRequest event m.peerId m.torrent.infoHash m.listenPort stats = .ok packet) :
    reportOf packet = reportFor m stats event := by
  unfold buildAnnounceRequest at built
  split at built
  · cases built
  rename_i name
  have peer : m.peerId.length = 20 := not_not.mp name
  have code : event.code < 2 ^ 32 := by cases event <;> decide
  generalize tail : be32 0 ++ (be32 s.key ++ (be32 (2 ^ 32 - 1) ++ be16 m.listenPort)) = rest
  have shape : packet = be64 s.connectionId ++ (be32 1 ++ (be32 s.transactionId ++ (m.torrent.infoHash ++ (m.peerId ++
      (be64 stats.downloaded ++ (be64 stats.left ++ (be64 stats.uploaded ++ (be32 event.code ++ rest)))))))) := by
    rw [← Except.ok.inj built, ← tail]
    simp only [List.append_assoc]
  have skip : ∀ (n width : Nat) (front back : Bytes), packet.drop n = front ++ back → front.length = width →
      packet.drop (n + width) = back := by
    intro n width front back here size
    rw [← List.drop_drop, here, List.drop_left' size]
  have at8 : packet.drop 8 = _ := skip 0 8 _ _ shape (be64_length _)
  have at12 := skip 8 4 _ _ at8 (be32_length _)
  have at16 := skip 12 4 _ _ at12 (be32_length _)
  have at36 := skip 16 20 _ _ at16 hash
  have at56 := skip 36 20 _ _ at36 peer
  have at64 := skip 56 8 _ _ at56 (be64_length _)
  have at72 := skip 64 8 _ _ at64 (be64_length _)
  have at80 := skip 72 8 _ _ at72 (be64_length _)
  have whose : slice packet 36 20 = m.peerId := by
    rw [slice, at36, List.take_left' peer]
  have which : slice packet 16 20 = m.torrent.infoHash := by
    rw [slice, at16, List.take_left' hash]
  rw [reportOf, whose, which, at8, at56, at64, at72, at80, readBe32_append 1 (by decide), readBe32_append _ code,
    readBe64_append _ sized.downloaded, readBe64_append _ sized.left, readBe64_append _ sized.uploaded]
  rfl

end Packets

section Sessions

variable (m : TrackerManager) (env : TrackerEnv) {s next : TrackerSession}

theorem note_reports (deed : Deed) (silent : reportIn deed = none) : reports (s.note deed) = reports s := by
  rw [reports, note, List.filterMap_append, List.filterMap_cons_none silent, List.filterMap_nil, List.append_nil]
  rfl

theorem move_reports (move : Move m s next) (elsewhere : s.state ≠ .connected) : reports next = reports s := by
  cases move with
  | stays => rfl
  | accepts connectionId now waiting small => exact note_reports _ rfl
  | acknowledges now interval leechers seeders waiting =>
    unfold acknowledge
    dsimp only
    split
    · exact note_reports (.acknowledged _ _) rfl
    · exact note_reports (.acknowledged _ _) rfl
  | looksUp off => rfl
  | connects lookup fd txn now off => exact note_reports _ rfl
  | announces txn packet now ready young carries => exact absurd ready elsewhere
  | backsOff lookup sock txn event now live => exact note_reports (.backedOff now) rfl
  | timesOut now waiting => exact note_reports (.timedOut now) rfl
  | leaves deadline ready => rfl

include m in
theorem receive_reports (revents : Nat) : reports (receive env revents s).1 = reports s := by
  by_cases ready : s.state = .connected
  · unfold receive
    split
    · rfl
    · rw [ready]
      rfl
  · exact move_reports m (receive_moves m env s revents) ready

theorem advance_reports {stats : AnnounceParams} {now : Time} (hash : m.torrent.infoHash.length = 20)
    (sized : Sized stats)
    (advanced : m.advance env stats now s = .ok next) :
    reports next = reports s ∨ reports next = reports s ++ [reportFor m stats (m.pendingEvent s)] := by
  by_cases ready : s.state = .connected
  · have sent : m.sendAnnounce env stats s = .ok next := by
      unfold advance at advanced
      rw [ready] at advanced
      exact advanced
    unfold sendAnnounce at sent
    split at sent
    · cases sent
      exact Or.inl rfl
    · obtain ⟨packet, built, sent⟩ := bind_ok sent
      have reads := reportOf_build hash sized built
      split at sent
      · cases sent
        exact Or.inl (note_reports (.backedOff _) rfl)
      · cases sent
        refine Or.inr ?_
        rw [← reads]
        exact List.filterMap_append
  · exact Or.inl (move_reports m (advance_moves m env s stats now advanced) ready)

end Sessions

section Ticks

variable {m next : TrackerManager} {envs : Nat → TrackerEnv} {stats : AnnounceParams} {now : Time}
  {revents : List Nat}
  {fresh : List Peer}

theorem tick_reports (hash : m.torrent.infoHash.length = 20) (sized : Sized stats)
    (ticked : m.tick revents envs stats now = .ok (next, fresh)) (s : TrackerSession) (member : s ∈ next.trackers) :
    ∃ old ∈ m.trackers, reports s = reports old ∨
      ∃ event, reports s = reports old ++ [reportFor m stats event] ∧
        (event = .eventCompleted → m.downloadComplete = true) := by
  by_cases matched : revents.length = m.trackers.length
  · obtain ⟨length, each⟩ := tick_passes matched ticked
    obtain ⟨i, high, same⟩ := List.mem_iff_getElem.mp member
    have low : i < m.trackers.length := by omega
    have kept : reports (receive (envs i) (revents.getD i 0) m.trackers[i]).1 = reports m.trackers[i] :=
      receive_reports m (envs i) (revents.getD i 0)
    refine ⟨m.trackers[i], List.getElem_mem low, ?_⟩
    rw [← same, ← kept]
    rcases advance_reports m (envs i) hash sized (each i low high) with silent | announced
    · exact Or.inl silent
    · refine Or.inr ⟨_, announced, ?_⟩
      intro completed
      unfold pendingEvent at completed
      split at completed
      · cases completed
      · split at completed
        · cases completed
        · split at completed
          · assumption
          · cases completed
        · cases completed
  · unfold tick at ticked
    rw [if_pos matched] at ticked
    cases ticked
    exact ⟨s, member, Or.inl rfl⟩

theorem rouse_reports (s : TrackerSession) : reports (rouse now s) = reports s := by
  unfold rouse
  dsimp only
  split <;> exact note_reports (.downloadComplete now) rfl

theorem withdraw_reports (s : TrackerSession) : reports (withdraw now s) = reports s := by
  unfold withdraw
  dsimp only
  split
  · exact note_reports (.beginShutdown now) rfl
  · split <;> exact note_reports (.beginShutdown now) rfl

end Ticks

end TorrentPeer.TrackerManager

namespace TorrentPeer.Session

open PieceManager Transition

variable {sha1 : Bytes → Bytes} {kernel : Kernel} {t : TorrentFile}

theorem expireAll_completed (cutoff : Time) (ids : List Nat) (s : Session) :
    (s.expireAll cutoff ids).completed = s.completed := by
  induction ids generalizing s with
  | nil => rfl
  | cons id ids ih =>
    have one : (expirePeer cutoff s id).completed = s.completed := by
      unfold expirePeer
      split
      · rfl
      · dsimp only
        split <;> rfl
    exact (ih _).trans one

theorem settleRound_complete {s : Session} {env : Env} {fresh : List Peer} {now : Time} {order : List Nat}
    (before : s.completed = false) (after : (s.settleRound env fresh now order).completed = true) :
    (s.settleRound env fresh now order).pieces.isComplete = true := by
  unfold settleRound at after ⊢
  dsimp only at after ⊢
  have joined : (s.addFresh env fresh).completed = false := by
    unfold addFresh
    split <;> exact before
  have unnoted := (expireAll_completed (now - kRequestTimeout)
    ((s.addFresh env fresh).peers.conns.arrange order) (s.addFresh env fresh)).trans joined
  generalize (s.addFresh env fresh).expireAll (now - kRequestTimeout)
    ((s.addFresh env fresh).peers.conns.arrange order) = expired at unnoted after ⊢
  unfold noteCompletion at after ⊢
  split
  · rename_i whole
    exact whole.1
  · rename_i missing
    rw [if_neg missing, unnoted] at after
    cases after

theorem step_settle {sys next : Sys} {env : Env} {fresh : List Peer} {now : Time} {order : List Nat}
    (moves : step sha1 kernel sys (.settle env fresh now order) = some next) :
    next.session = sys.session.settleRound env fresh now order := by
  cases phase : sys.phase with
  | dispatching queue =>
    cases queue with
    | nil =>
      simp only [step, phase] at moves
      rw [← Option.some.inj moves]
    | cons event rest => simp [step, phase] at moves
  | _ => simp [step, phase] at moves

theorem reached_uploaded {sys : Sys} (reached : Reached sha1 kernel t sys) : sys.session.uploaded < 2 ^ 64 := by
  obtain ⟨audit, same, audited⟩ := reached.audited
  rw [← same, reached_accounted audited]
  exact Nat.mod_lt _ (Nat.two_pow_pos 64)

end TorrentPeer.Session

namespace TorrentPeer.Client

open TrackerManager PieceManager Transition
open Session (weight)

section Steps

variable {sha1 : Bytes → Bytes} {kernel : Kernel}

def trace (sha1 : Bytes → Bytes) (kernel : Kernel) (c : Client) : List ClientInput → List AnnounceParams
  | [] => []
  | input :: inputs => c.stats :: ((c.step sha1 kernel input).map (fun next => trace sha1 kernel next inputs)).getD []

/-- What a step does to the trackers between two ticks. -/
inductive Follows (middle : TrackerManager) (next : Client) : Prop
  | plain (same : next.trackers = middle)
  | shutdown (now : Time) (same : next.trackers = middle.beginShutdown now)
  | complete (now : Time) (same : next.trackers = middle.onDownloadComplete now)
      (whole : next.sys.session.pieces.isComplete = true)

/-- A step: the session takes one or none, the trackers tick with the counters from before it or do not, and
are perhaps told of a completion or a shutdown. -/
theorem step_parts {c next : Client} {input : ClientInput} (moves : c.step sha1 kernel input = some next) :
    (next.sys = c.sys ∨ ∃ taken, Session.step sha1 kernel c.sys taken = some next.sys) ∧
      ∃ middle, (middle = c.trackers ∨ ∃ revents envs now fresh,
        c.trackers.tick revents envs c.stats now = .ok (middle, fresh)) ∧ Follows middle next := by
  cases input with
  | session input =>
    have plain : ∃ sys, Session.step sha1 kernel c.sys input = some sys ∧ next = { c with sys := sys } := by
      cases input <;> simp only [step] at moves
      case settle => cases moves
      all_goals
        split at moves
        · cases moves
        · obtain ⟨sys, stepped, same⟩ := Option.map_eq_some_iff.mp moves
          exact ⟨sys, stepped, same.symm⟩
    obtain ⟨sys, stepped, same⟩ := plain
    rw [same]
    exact ⟨Or.inr ⟨input, stepped⟩, c.trackers, Or.inl rfl, .plain rfl⟩
  | settle env =>
    simp only [step] at moves
    split at moves
    · cases moves
    · unfold settle at moves
      split at moves
      · cases moves
      · rename_i trackers fresh ticked
        obtain ⟨sys, stepped, same⟩ := Option.map_eq_some_iff.mp moves
        rw [← same]
        refine ⟨Or.inr ⟨_, stepped⟩, trackers, ?_, ?_⟩
        · unfold tickTrackers at ticked
          split at ticked
          · exact Or.inr ⟨_, _, _, fresh, ticked⟩
          · cases ticked
            exact Or.inl rfl
        · by_cases finished : sys.session.completed = true ∧ c.sys.session.completed = false
          · refine .complete env.completedAt (if_pos finished) ?_
            have settled := Session.step_settle stepped
            rw [settled] at finished ⊢
            exact Session.settleRound_complete finished.2 finished.1
          · exact .plain (if_neg finished)
  | beginShutdown now =>
    simp only [step] at moves
    split at moves
    · cases moves
    · cases moves
      exact ⟨Or.inl rfl, c.trackers, Or.inl rfl, .shutdown now rfl⟩
  | shutdownTick revents envs now =>
    simp only [step] at moves
    split at moves
    · cases moves
    · split at moves
      · cases moves
      · rename_i trackers fresh ticked
        cases moves
        exact ⟨Or.inl rfl, trackers, Or.inr ⟨_, _, _, fresh, ticked⟩, .plain rfl⟩

end Steps

/-- A run so far: the counters it went through, and that the trackers have heard of nothing else. -/
structure Tracked (sha1 : Bytes → Bytes) (kernel : Kernel) (t : TorrentFile) (first : Client)
    (past : List AnnounceParams)
    (c : Client) : Prop where
  ran : ∃ inputs, run (Session.step sha1 kernel) first.sys inputs = some c.sys
  torrent : c.trackers.torrent = t
  peerId : c.trackers.peerId = first.trackers.peerId
  complete : c.trackers.downloadComplete = true → c.stats.left = 0
  falling : past.Pairwise (fun earlier later => later.left ≤ earlier.left)
  ahead : ∀ p ∈ past, c.stats.left ≤ p.left ∧ p.left ≤ first.stats.left ∧
    (weight (blockBytes t) c.sys.filed < 2 ^ 64 → first.stats.left ≤ p.left + p.downloaded)
  each : ∀ s ∈ c.trackers.trackers, ((reports s).map Report.stats).Sublist past ∧
    ∀ r ∈ reports s, r.action = 1 ∧ r.infoHash = t.infoHash ∧ r.peerId = first.trackers.peerId ∧
      (r.event = TrackerEvent.eventCompleted.code → r.stats.left = 0)

section Runs

variable {sha1 : Bytes → Bytes} {kernel : Kernel} {t : TorrentFile} {first c next : Client}
  {past : List AnnounceParams}

theorem begins_tracked (begins : Begins sha1 kernel t first) : Tracked sha1 kernel t first [] first := by
  obtain ⟨session, -, peerId, listenPort, key, same⟩ := begins
  refine ⟨⟨[], rfl⟩, by rw [same]; rfl, rfl, ?_, List.Pairwise.nil, by simp, ?_⟩
  · rw [same]
    exact fun complete => by cases complete
  · intro s member
    obtain ⟨address, number, fresh⟩ := created_session ⟨t, peerId, listenPort, key, same⟩ s member
    have silent : reports s = [] := by
      rw [fresh]
      rfl
    rw [silent]
    exact ⟨List.Sublist.slnil, by simp⟩

variable (tracked : Tracked sha1 kernel t first past c)

include tracked

theorem Tracked.counters (begins : Begins sha1 kernel t first) :
    Sized c.stats ∧ c.stats.left ≤ first.stats.left ∧
      (weight (blockBytes t) c.sys.filed < 2 ^ 64 → first.stats.left ≤ c.stats.left + c.stats.downloaded) := by
  obtain ⟨inputs, ran⟩ := tracked.ran
  obtain ⟨less, weighed⟩ := Session.run_accounted begins.1 ran
  have geometry := Session.begins_geometry begins.1
  have counted := Session.run_counted geometry (Session.begins_books begins.1) (Session.begins_counted begins.1) ran
  have downloaded : c.stats.downloaded = weight (blockBytes t) c.sys.filed % 2 ^ 64 :=
    Session.run_downloaded begins.1 ran
  have reached : Session.Reached sha1 kernel t c.sys := Reachable.run (.start _ begins.1) ran
  have total := geometry.total_high
  have left := counted.left geometry
  have now : c.stats.left = c.sys.session.pieces.bytesLeft := rfl
  have start : first.stats.left = first.sys.session.pieces.bytesLeft := rfl
  rw [Torrent.kLimit] at total
  refine ⟨⟨?_, Session.reached_uploaded reached, by omega⟩, by omega, ?_⟩
  · rw [downloaded]
    exact Nat.mod_lt _ (Nat.two_pow_pos 64)
  · intro unwrapped
    rw [downloaded, Nat.mod_eq_of_lt unwrapped]
    omega

theorem Tracked.progress (begins : Begins sha1 kernel t first)
    (moved : next.sys = c.sys ∨ ∃ taken, Session.step sha1 kernel c.sys taken = some next.sys) :
    (∃ inputs, run (Session.step sha1 kernel) first.sys inputs = some next.sys) ∧ next.stats.left ≤ c.stats.left ∧
      weight (blockBytes t) c.sys.filed ≤ weight (blockBytes t) next.sys.filed := by
  obtain ⟨inputs, ran⟩ := tracked.ran
  rcases moved with same | ⟨taken, stepped⟩
  · rw [stats, stats, same]
    exact ⟨⟨inputs, ran⟩, Nat.le_refl _, Nat.le_refl _⟩
  · have geometry := Session.begins_geometry begins.1
    have books := Session.reached_books (Reachable.run (.start _ begins.1) ran)
    have counted := Session.run_counted geometry (Session.begins_books begins.1) (Session.begins_counted begins.1) ran
    have once : run (Session.step sha1 kernel) c.sys [taken] = some next.sys := by
      rw [run, stepped]
      rfl
    refine ⟨⟨inputs ++ [taken], ?_⟩, Session.run_progress geometry books counted once⟩
    rw [run_append, ran]
    exact once

theorem Tracked.reported (begins : Begins sha1 kernel t first) (hash : t.infoHash.length = 20)
    {middle : TrackerManager}
    (ticked : middle = c.trackers ∨ ∃ revents envs now fresh,
      c.trackers.tick revents envs c.stats now = .ok (middle, fresh)) (s : TrackerSession)
    (member : s ∈ middle.trackers) :
    ((reports s).map Report.stats).Sublist (past ++ [c.stats]) ∧
      ∀ r ∈ reports s, r.action = 1 ∧ r.infoHash = t.infoHash ∧ r.peerId = first.trackers.peerId ∧
        (r.event = TrackerEvent.eventCompleted.code → r.stats.left = 0) := by
  have silent : ∀ old ∈ c.trackers.trackers, ((reports old).map Report.stats).Sublist (past ++ [c.stats]) ∧
      ∀ r ∈ reports old, r.action = 1 ∧ r.infoHash = t.infoHash ∧ r.peerId = first.trackers.peerId ∧
        (r.event = TrackerEvent.eventCompleted.code → r.stats.left = 0) :=
    fun old present => ⟨(tracked.each old present).1.trans (List.sublist_append_left _ _),
      (tracked.each old present).2⟩
  rcases ticked with same | ⟨revents, envs, now, fresh, ticked⟩
  · rw [same] at member
    exact silent s member
  · have sized := (tracked.counters begins).1
    obtain ⟨old, present, kept | ⟨event, more, finished⟩⟩ :=
      tick_reports (by rw [tracked.torrent]; exact hash) sized ticked s member
    · rw [kept]
      exact silent old present
    · obtain ⟨part, true_⟩ := tracked.each old present
      rw [more, List.map_append]
      refine ⟨part.append (List.Sublist.refl _), ?_⟩
      intro r listed
      rcases List.mem_append.mp listed with before | last
      · exact true_ r before
      · rw [List.mem_singleton.mp last]
        refine ⟨rfl, congrArg TorrentFile.infoHash tracked.torrent, tracked.peerId, ?_⟩
        intro code
        have completed : event = .eventCompleted := by
          cases event <;> first | rfl | cases code
        exact tracked.complete (finished completed)

theorem Tracked.advance (begins : Begins sha1 kernel t first) (hash : t.infoHash.length = 20)
    (few : t.pieces.length < 2 ^ 32)
    {input : ClientInput} (moves : c.step sha1 kernel input = some next) :
    Tracked sha1 kernel t first (past ++ [c.stats]) next := by
  obtain ⟨moved, middle, ticked, follows⟩ := step_parts moves
  obtain ⟨ran, less, more⟩ := tracked.progress begins moved
  obtain ⟨-, falls, gained⟩ := tracked.counters begins
  have told := tracked.reported begins hash ticked
  have setting : middle = { c.trackers with trackers := middle.trackers } := by
    rcases ticked with same | ⟨revents, envs, now, fresh, ran⟩
    · rw [same]
    · exact tick_setting ran
  have complete : middle.downloadComplete = true → next.stats.left = 0 := by
    intro flag
    rw [setting] at flag
    have zero := tracked.complete flag
    omega
  have falling : (past ++ [c.stats]).Pairwise (fun earlier later => later.left ≤ earlier.left) := by
    apply List.pairwise_append.mpr
    refine ⟨tracked.falling, List.pairwise_singleton _ _, ?_⟩
    intro p member last same
    rw [List.mem_singleton.mp same]
    exact (tracked.ahead p member).1
  have ahead : ∀ p ∈ past ++ [c.stats], next.stats.left ≤ p.left ∧ p.left ≤ first.stats.left ∧
      (weight (blockBytes t) next.sys.filed < 2 ^ 64 → first.stats.left ≤ p.left + p.downloaded) := by
    intro p member
    rcases List.mem_append.mp member with before | last
    · obtain ⟨above, below, enough⟩ := tracked.ahead p before
      exact ⟨by omega, below, fun unwrapped => enough (by omega)⟩
    · rw [List.mem_singleton.mp last]
      exact ⟨less, falls, fun unwrapped => gained (by omega)⟩
  cases follows with
  | plain same =>
    refine ⟨ran, ?_, ?_, ?_, falling, ahead, ?_⟩
    · rw [same, setting]
      exact tracked.torrent
    · rw [same, setting]
      exact tracked.peerId
    · rw [same]
      exact complete
    · rw [same]
      exact told
  | shutdown now same =>
    refine ⟨ran, ?_, ?_, ?_, falling, ahead, ?_⟩
    · rw [same, setting]
      exact tracked.torrent
    · rw [same, setting]
      exact tracked.peerId
    · rw [same]
      exact complete
    · intro s member
      rw [same] at member
      obtain ⟨old, present, changed⟩ := List.mem_map.mp member
      rw [← changed, withdraw_reports]
      exact told old present
  | complete now same whole =>
    refine ⟨ran, ?_, ?_, ?_, falling, ahead, ?_⟩
    · rw [same, setting]
      exact tracked.torrent
    · rw [same, setting]
      exact tracked.peerId
    · intro _
      obtain ⟨inputs, path⟩ := ran
      have geometry := Session.begins_geometry begins.1
      have counted := Session.run_counted geometry (Session.begins_books begins.1)
        (Session.begins_counted begins.1) path
      exact (counted.consistent geometry few).complete.mpr whole
    · intro s member
      rw [same] at member
      obtain ⟨old, present, changed⟩ := List.mem_map.mp member
      rw [← changed, rouse_reports]
      exact told old present

theorem Tracked.along (begins : Begins sha1 kernel t first) (hash : t.infoHash.length = 20)
    (few : t.pieces.length < 2 ^ 32)
    {inputs : List ClientInput} (ran : run (step sha1 kernel) c inputs = some next) :
    Tracked sha1 kernel t first (past ++ trace sha1 kernel c inputs) next := by
  induction inputs generalizing c past with
  | nil =>
    cases ran
    rw [trace, List.append_nil]
    exact tracked
  | cons input inputs ih =>
    obtain ⟨middle, moves, rest⟩ := Option.bind_eq_some_iff.mp ran
    have after := ih (tracked.advance begins hash few moves) rest
    rw [trace, moves, Option.map_some, Option.getD_some, ← List.singleton_append, ← List.append_assoc]
    exact after

end Runs

/-- What the trackers of a client are told, over every run from its start, whatever the peers, the trackers and
the network do. Read as a tracker reads them, the announces a tracker gets carry, in order, counters that the
session had at steps of the run; what is left never goes up again, stays above what is left now, and goes down only by
bytes that were downloaded; and `completed` is said only when nothing is left. -/
theorem announces_truthful (sha1 : Bytes → Bytes) (kernel : Kernel) (t : TorrentFile)
    (digest : ∀ data, (sha1 data).length = 20) (few : t.pieces.length < 2 ^ 32) (first last : Client)
    (inputs : List ClientInput) (begins : Begins sha1 kernel t first)
    (ran : run (step sha1 kernel) first inputs = some last) (tracker : TrackerSession)
    (member : tracker ∈ last.trackers.trackers) :
    ((reports tracker).map Report.stats).Sublist (trace sha1 kernel first inputs) ∧
    (reports tracker).Pairwise (fun earlier later => later.stats.left ≤ earlier.stats.left) ∧
    ∀ r ∈ reports tracker, r.action = 1 ∧ r.infoHash = t.infoHash ∧ r.peerId = first.trackers.peerId ∧
      last.stats.left ≤ r.stats.left ∧ r.stats.left ≤ first.stats.left ∧
      (r.event = TrackerEvent.eventCompleted.code → r.stats.left = 0) ∧
      (weight (blockBytes t) last.sys.filed < 2 ^ 64 → first.stats.left ≤ r.stats.left + r.stats.downloaded) := by
  have hash : t.infoHash.length = 20 := by
    obtain ⟨⟨⟨data, accepted⟩, -⟩, -⟩ := begins
    obtain ⟨_, _, _, -, -, same⟩ := Torrent.accepted_info sha1 data t accepted
    rw [same]
    exact digest _
  have tracked := (begins_tracked begins).along begins hash few ran
  rw [List.nil_append] at tracked
  obtain ⟨part, true_⟩ := tracked.each tracker member
  refine ⟨part, List.pairwise_map.mp (tracked.falling.sublist part), ?_⟩
  intro r listed
  obtain ⟨action, hashed, named, completed⟩ := true_ r listed
  obtain ⟨above, below, enough⟩ := tracked.ahead r.stats (part.subset (List.mem_map_of_mem listed))
  exact ⟨action, hashed, named, above, below, completed, enough⟩

section Example

def trackedInfo : Bytes :=
  ascii "d13:announce-listll9:udp://h:1ee4:infod6:lengthi1e4:name1:a12:piece lengthi1e6:pieces20:" ++
    List.replicate 20 0 ++ ascii "ee"

def oneByteTracked : TorrentFile := { Session.oneByteWanted with announceList := [[ascii "udp://h:1"]] }

theorem oneByteTracked_accepted : Torrent.parseTorrent Session.spotDigest trackedInfo = .ok oneByteTracked := by
  decide +kernel

def roundEnds (datagrams : List Datagram) : List ClientInput :=
  [.settle ⟨[pollIn], fun _ => ⟨datagrams, .resolved, some 9, 5, true, 0, 0, 0, 0⟩, 0, Session.quietEnv, 0,
      [], 0⟩,
    .session (.fill ⟨[], fun _ _ => ⟨[], 0⟩, fun _ _ => 0, [], fun _ => ⟨[], 0⟩, fun _ => 0⟩)]

def comes (chunk : Bytes) : List ClientInput :=
  [.session (Session.arrives 1 (ascii "h") chunk), .session (.dispatch (fun _ => []))]

def quietPoll : ClientInput := .session (.poll [] (fun _ => 0) Session.quietEnv)

def announcing : List ClientInput :=
  [.session (Session.arrives 0 (ascii "h") [])] ++ roundEnds [] ++
    comes (Wire.buildHandshake oneByteTracked (List.replicate 20 8)) ++ roundEnds [] ++
    comes [0, 0, 0, 2, 5, 128, 0, 0, 0, 1, 1] ++ roundEnds [connectReply] ++
    comes (Wire.Message.bytes (.piece 0 0 [1])) ++ roundEnds [announceReply] ++
    [quietPoll] ++ roundEnds [] ++ [quietPoll] ++ roundEnds [] ++ [quietPoll] ++ roundEnds [connectReply]

def oneClient : Option Client :=
  (Session.create Session.spotDigest Session.wholeKernel oneByteTracked (List.replicate 20 7) (some 3) [] []
    Session.quietEnv ⟨fun _ => [], 0, []⟩).toOption.map (fun s =>
      ⟨⟨s, .polling, [], []⟩, TrackerManager.create oneByteTracked (List.replicate 20 7) 6881 1, true, false⟩)

theorem oneClient_begins {c : Client} (made : oneClient = some c) :
    Begins Session.spotDigest Session.wholeKernel oneByteTracked c := by
  obtain ⟨s, created, same⟩ := Option.map_eq_some_iff.mp made
  rw [← same]
  exact ⟨Session.created_begins ⟨_, oneByteTracked_accepted⟩ (Torrent.toOption_ok created), rfl, _, _, _, rfl⟩

theorem spotDigest_length (data : Bytes) : (Session.spotDigest data).length = 20 := by
  unfold Session.spotDigest
  split <;> rfl

end Example

/-- One byte is left when the client announces itself, and none when it says that it is done. -/
theorem announces_truthful_one_byte :
    ∃ (first last : Client) (tracker : TrackerSession),
      Begins Session.spotDigest Session.wholeKernel oneByteTracked first ∧
      run (step Session.spotDigest Session.wholeKernel) first announcing = some last ∧
      tracker ∈ last.trackers.trackers ∧
      (reports tracker).map (fun r => (r.event, r.stats.downloaded, r.stats.left)) = [(2, 0, 1), (1, 1, 0)] ∧
      ((reports tracker).map Report.stats).Sublist
      (trace Session.spotDigest Session.wholeKernel first announcing) := by
  have told : (oneClient.bind (fun c => (run (step Session.spotDigest Session.wholeKernel) c announcing).bind
      (fun c => c.trackers.trackers.head?))).map (fun tracker =>
        (reports tracker).map (fun r => (r.event, r.stats.downloaded, r.stats.left))) =
      some [(2, 0, 1), (1, 1, 0)] := by
    decide +kernel
  obtain ⟨tracker, found, said⟩ := Option.map_eq_some_iff.mp told
  obtain ⟨first, made, onward⟩ := Option.bind_eq_some_iff.mp found
  obtain ⟨last, ran, front⟩ := Option.bind_eq_some_iff.mp onward
  have begins := oneClient_begins made
  have member := List.mem_of_head? front
  exact ⟨first, last, tracker, begins, ran, member, said, (announces_truthful Session.spotDigest Session.wholeKernel
    oneByteTracked spotDigest_length (by decide) first last announcing begins ran tracker member).1⟩

end TorrentPeer.Client
