import TorrentPeer.Runtime.Moves
import TorrentPeer.Runtime.TrackerRuns

/-! `Session` together with its trackers: the loop of `run`, and `shutdown_session` after it. -/

namespace TorrentPeer

open Transition

structure Client where
  sys : Session.Sys
  trackers : TrackerManager
  useTrackers : Bool
  /-- `run` has left its loop. -/
  closing : Bool := false

/-- What the rest of an iteration leaves open once the events are dispatched. -/
structure SettleEnv where
  revents : List Nat
  envs : Nat → TrackerEnv
  ticked : Time
  env : Env
  now : Time
  order : List Nat
  completedAt : Time

inductive ClientInput where
  | session (input : Session.Input)
  | settle (env : SettleEnv)
  | beginShutdown (now : Time)
  | shutdownTick (revents : List Nat) (envs : Nat → TrackerEnv) (now : Time)

namespace Client

variable (sha1 : Bytes → Bytes) (kernel : Kernel)

def stats (c : Client) : AnnounceParams :=
  ⟨c.sys.session.downloaded, c.sys.session.uploaded, c.sys.session.pieces.bytesLeft⟩

def tickTrackers (c : Client) (env : SettleEnv) : Except Exn (TrackerManager × List Peer) :=
  if c.useTrackers = true then c.trackers.tick env.revents env.envs c.stats env.ticked else .ok (c.trackers, [])

/-- The end of an iteration: `completed_` is set exactly when `on_download_complete` is called. -/
def settle (c : Client) (env : SettleEnv) : Option Client :=
  match c.tickTrackers env with
  | .error _ => none
  | .ok (trackers, fresh) =>
    (Session.step sha1 kernel c.sys (.settle env.env fresh env.now env.order)).map (fun sys =>
      { c with
        sys := sys
        trackers := if sys.session.completed = true ∧ c.sys.session.completed = false then
            trackers.onDownloadComplete env.completedAt
          else trackers })

def step (c : Client) : ClientInput → Option Client
  | .session (.settle _ _ _ _) => none
  | .session input =>
    if c.closing = true then none
    else (Session.step sha1 kernel c.sys input).map (fun sys => { c with sys := sys })
  | .settle env => if c.closing = true then none else c.settle sha1 kernel env
  | .beginShutdown now =>
    if c.closing = true ∨ c.sys.phase ≠ .polling ∨ c.useTrackers = false then none
    else some { c with trackers := c.trackers.beginShutdown now, closing := true }
  | .shutdownTick revents envs now =>
    if c.closing = false then none
    else
      match c.trackers.tick revents envs c.stats now with
      | .error _ => none
      | .ok (trackers, _) => some { c with trackers := trackers }

def Begins (t : TorrentFile) (c : Client) : Prop :=
  Session.Begins sha1 kernel t c.sys ∧ c.closing = false ∧
    ∃ peerId listenPort key, c.trackers = TrackerManager.create t peerId listenPort key

end Client

namespace Session

variable {sha1 : Bytes → Bytes} {kernel : Kernel}

theorem serve_completed {s next : Session} {id : Nat} {req : BlockRequest}
    (served : s.onRequest kernel id req = .ok next) : next.completed = s.completed := by
  unfold onRequest at served
  split at served
  · cases served
    rfl
  · split at served
    · cases served
      rfl
    · split at served
      · cases served
        rfl
      · cases served
      · cases served
        rfl

theorem file_completed {s taken judged : Session} {id : Nat} {block : Block} {result : BlockResult}
    {hosts : List Bytes} (took : s.takeBlock sha1 id block = .ok (result, taken))
    (verdict : taken.judge kernel result = .ok (hosts, judged)) : judged.completed = s.completed := by
  obtain ⟨⟨answer, pieces⟩, -, same⟩ := bind_ok took
  cases same
  unfold judge at verdict
  split at verdict
  · cases verdict
    rfl
  · cases verdict
    rfl
  · split at verdict
    · cases verdict
    · cases verdict
      rfl
  · cases verdict
    rfl

theorem quiet_completed {f next : Flow} (move : Quiet sha1 kernel f next)
    (completed : f.session.completed = true) : next.session.completed = true := by
  cases move with
  | serve id req rest session front served =>
    rw [← completed]
    exact serve_completed served
  | file id block rest result taken judged hosts front idle took verdict =>
    rw [← completed]
    exact file_completed took verdict
  | complete => rfl
  | _ => exact completed

theorem step_completed {sys next : Sys} {input : Input} (moves : step sha1 kernel sys input = some next)
    (completed : sys.session.completed = true) : next.session.completed = true := by
  rcases step_cases sha1 kernel sys next input moves with quiets | ⟨-, asks, -⟩
  · have along : ∀ f, Quiets sha1 kernel sys.flow f → f.session.completed = true := by
      intro f path
      induction path with
      | refl => exact completed
      | tail _ last ih => exact quiet_completed last ih
    exact along next.flow quiets
  · have along : ∀ s, Asks sys.session s → s.completed = true := by
      intro s path
      induction path with
      | refl => exact completed
      | tail _ last ih => cases last <;> exact ih
    exact along next.session asks

end Session

namespace Client

variable {sha1 : Bytes → Bytes} {kernel : Kernel}

theorem tickTrackers_cases {c : Client} {env : SettleEnv} {trackers : TrackerManager} {fresh : List Peer}
    (ticked : c.tickTrackers env = .ok (trackers, fresh)) :
    trackers = c.trackers ∨ ∃ revents envs stats now, c.trackers.tick revents envs stats now =
    .ok (trackers, fresh) := by
  unfold tickTrackers at ticked
  split at ticked
  · exact Or.inr ⟨_, _, _, _, ticked⟩
  · cases ticked
    exact Or.inl rfl

theorem step_trackers {c next : Client} {input : ClientInput} (moves : c.step sha1 kernel input = some next) :
    (∃ middle, (middle = c.trackers ∨ ∃ revents envs stats now fresh,
        c.trackers.tick revents envs stats now = .ok (middle, fresh)) ∧
      (next.trackers = middle ∨ (∃ now, next.trackers = middle.beginShutdown now) ∨
        ∃ now, next.trackers = middle.onDownloadComplete now ∧ c.sys.session.completed = false)) ∧
    (c.sys.session.completed = true → next.sys.session.completed = true) := by
  cases input with
  | session input =>
    have plain : c.closing = false ∧ ∃ sys, Session.step sha1 kernel c.sys input = some sys ∧
        next = { c with sys := sys } := by
      cases input <;> simp only [step] at moves
      case settle => cases moves
      all_goals
        split at moves
        · cases moves
        · rename_i going
          obtain ⟨sys, stepped, same⟩ := Option.map_eq_some_iff.mp moves
          exact ⟨Bool.eq_false_iff.mpr going, sys, stepped, same.symm⟩
    obtain ⟨-, sys, stepped, same⟩ := plain
    rw [same]
    exact ⟨⟨c.trackers, Or.inl rfl, Or.inl rfl⟩, Session.step_completed stepped⟩
  | settle env =>
    simp only [step] at moves
    split at moves
    · cases moves
    · unfold settle at moves
      split at moves
      · cases moves
      · rename_i trackers fresh ticked
        obtain ⟨sys, stepped, same⟩ := Option.map_eq_some_iff.mp moves
        rw [← same]
        refine ⟨⟨trackers, ?_, ?_⟩, Session.step_completed stepped⟩
        · rcases tickTrackers_cases ticked with kept | ⟨revents, envs, stats, now, run⟩
          · exact Or.inl kept
          · exact Or.inr ⟨revents, envs, stats, now, fresh, run⟩
        · dsimp only
          split
          · rename_i finished
            exact Or.inr (Or.inr ⟨_, rfl, finished.2⟩)
          · exact Or.inl rfl
  | beginShutdown now =>
    simp only [step] at moves
    split at moves
    · cases moves
    · cases moves
      exact ⟨⟨c.trackers, Or.inl rfl, Or.inr (Or.inl ⟨now, rfl⟩)⟩, id⟩
  | shutdownTick revents envs now =>
    simp only [step] at moves
    split at moves
    · cases moves
    · split at moves
      · cases moves
      · rename_i trackers fresh ticked
        cases moves
        exact ⟨⟨trackers, Or.inr ⟨_, _, _, _, fresh, ticked⟩, Or.inl rfl⟩, id⟩

def Seeds (sha1 : Bytes → Bytes) (kernel : Kernel) (t : TorrentFile) : Client → Prop :=
  Reachable (step sha1 kernel) (fun c => Begins sha1 kernel t c ∧ c.sys.session.pieces.isComplete = true)

theorem begins_completed {t : TorrentFile} {sys : Session.Sys} (begins : Session.Begins sha1 kernel t sys) :
    sys.session.completed = sys.session.pieces.isComplete := by
  obtain ⟨-, ⟨peerId, listenSock, downloadDir, initialPeers, env, store, created⟩, -⟩ := begins
  unfold Session.create at created
  split at created
  · cases created
  · obtain ⟨peers, -, created⟩ := bind_ok created
    obtain ⟨checked, -, created⟩ := bind_ok created
    rw [← Except.ok.inj created]

theorem seeds_never_complete {t : TorrentFile} {c : Client} (seeds : Seeds sha1 kernel t c) :
    c.sys.session.completed = true ∧ TrackerManager.Driven c.trackers ∧ c.trackers.downloadComplete = false := by
  induction seeds with
  | start c begins =>
    obtain ⟨⟨session, -, peerId, listenPort, key, same⟩, whole⟩ := begins
    refine ⟨(begins_completed session).trans whole, ?_, by rw [same]; rfl⟩
    exact .start _ ⟨t, peerId, listenPort, key, same⟩
  | next c after input _ moves ih =>
    obtain ⟨completed, driven, incomplete⟩ := ih
    obtain ⟨⟨middle, early, late⟩, keeps⟩ := step_trackers moves
    have ticked : TrackerManager.Driven middle ∧ middle.downloadComplete = false := by
      rcases early with same | ⟨revents, envs, stats, now, fresh, ran⟩
      · rw [same]
        exact ⟨driven, incomplete⟩
      · refine ⟨.next _ _ (.tick revents envs stats now) driven (by simp only [TrackerManager.perform, ran]), ?_⟩
        rw [(TrackerManager.tick_moves ran).1]
        exact incomplete
    refine ⟨keeps completed, ?_⟩
    rcases late with same | ⟨now, same⟩ | ⟨now, -, unfinished⟩
    · rw [same]
      exact ticked
    · rw [same]
      exact ⟨.next _ _ (.beginShutdown now) ticked.1 rfl, ticked.2⟩
    · rw [completed] at unfinished
      cases unfinished

end Client

end TorrentPeer
