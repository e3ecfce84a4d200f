import TorrentPeer.Runtime.Accounting
import TorrentPeer.Runtime.Availability
import TorrentPeer.Runtime.Selection

/-! The passes that fill the pipelines leave nothing undone: a peer that could be asked for more has
as many requests as it may have, and as long as some peer can help a request is on its way. -/

namespace TorrentPeer.PieceManager

open Torrent

def Unowned (pieces : PieceManager) : Prop := ∀ index pp, pieces.active.find? index = some pp → pp.owner = none

/-- A block that a peer with these pieces could be asked for. -/
structure Askable (t : TorrentFile) (pieces : PieceManager) (peerHas : Bitfield) (index b : Nat) : Prop where
  counted : index < pieces.pieceCount
  held : peerHas.get index = true
  wanted : pieces.have_.get index = false
  slot : b < blockCount t index
  missing : ∀ pp, pieces.active.find? index = some pp → pp.states[b]? = some .missing

section Picks

variable {t : TorrentFile} (geometry : Geometry t) {pieces next : PieceManager} (valid : Valid t pieces)
  {peerHas : Bitfield} {tag : Nat}

include geometry valid

/-- `pick_block` gives up only when there is nothing left to ask for. -/
theorem pickBlock_exhausted {availability : List Nat} {choice : Choice} (unowned : Unowned pieces)
    (narrow : ∀ count ∈ availability, count < 2 ^ 16)
    (picked : (pickBlock pieces peerHas availability tag choice).1 = none) (index b : Nat) :
    ¬ Askable t pieces peerHas index b := by
  intro askable
  unfold pickBlock at picked
  split at picked
  · cases picked
  rename_i idle
  dsimp only at picked
  split at picked
  · rename_i empty
    cases found : pieces.active.find? index with
    | none =>
      exact candidates_complete narrow askable.counted ⟨askable.wanted, found, askable.held⟩ empty
    | some pp =>
      have listed := (Table.arrange_member pieces.active choice.order index).mpr ⟨pp, found⟩
      have free : ∀ owner ∈ pp.owner, owner = tag := by
        rw [unowned index pp found]
        intro owner owned
        cases owned
      exact pickActive_none idle index listed b ⟨pp, found, askable.held, free, askable.missing pp found⟩
  · rename_i nonempty
    obtain ⟨counted, fit⟩ := draw_eligible pieces peerHas availability choice.draw nonempty
    rw [takeMissing_fresh geometry valid counted fit.2.1] at picked
    cases picked

variable {opened : PieceManager} {req : BlockRequest} {pp : PartialPiece} {b : Nat} {who : Bitfield}

omit geometry valid in
theorem Picked.askable (picked : Picked t pieces opened next who tag req pp b) {index place : Nat}
    (after : Askable t next peerHas index place) : Askable t pieces peerHas index place := by
  have count : next.pieceCount = pieces.pieceCount := by
    rw [picked.stored]
    rcases picked.opening with same | ⟨fresh, -⟩
    · rw [same]
    · rw [fresh]
      rfl
  refine ⟨by rw [← count]; exact after.counted, after.held, by rw [← picked.same_have]; exact after.wanted,
    after.slot, ?_⟩
  intro old found
  rcases picked.opening with same | ⟨-, absent⟩
  · have missing := after.missing
    rw [picked.stored] at missing
    simp only [Table.find_modify] at missing
    by_cases here : index = req.pieceIndex
    · have known : some pp = some old := by
        rw [← picked.found, same, ← here, found]
      cases known
      have state := missing { pp with states := pp.states.set b .requested } (by
        rw [if_pos here, same, found]
        rfl)
      by_cases slot : place = b
      · obtain ⟨bound, -⟩ := List.getElem?_eq_some_iff.mp picked.missing
        rw [slot, List.getElem?_set_self bound] at state
        cases state
      · rw [List.getElem?_set_ne (Ne.symm slot)] at state
        exact state
    · exact missing old (by rw [if_neg here, same]; exact found)
  · by_cases here : index = req.pieceIndex
    · rw [here, absent] at found
      cases found
    · have missing := after.missing old
      rw [picked.stored] at missing
      rcases picked.opening with same | ⟨fresh, -⟩
      · apply missing
        simp only [Table.find_modify, if_neg here, same]
        exact found
      · apply missing
        simp only [Table.find_modify, if_neg here, fresh, activate, Table.find_emplace _ _ _ _ absent]
        exact found

omit geometry valid in
theorem Picked.unowned (picked : Picked t pieces opened next who tag req pp b) (unowned : Unowned pieces) :
    Unowned next := by
  have open_unowned : Unowned opened := by
    rcases picked.opening with same | ⟨fresh, absent⟩
    · rw [same]
      exact unowned
    · intro index part found
      simp only [fresh, activate, Table.find_emplace _ _ _ _ absent] at found
      split at found
      · cases found
        rfl
      · exact unowned index part found
  intro index part found
  simp only [picked.stored, Table.find_modify] at found
  split at found
  · obtain ⟨old, present, changed⟩ := Option.map_eq_some_iff.mp found
    rw [← changed]
    exact open_unowned req.pieceIndex pp picked.found
  · exact open_unowned index part found

end Picks

theorem release_unowned (reqs : List BlockRequest) {pieces : PieceManager} (unowned : Unowned pieces) :
    Unowned (pieces.release reqs) := by
  induction reqs generalizing pieces with
  | nil => exact unowned
  | cons req reqs ih =>
    rw [release_cons]
    apply ih
    intro index part found
    simp only [Table.find_modify] at found
    split at found
    · obtain ⟨old, present, changed⟩ := Option.map_eq_some_iff.mp found
      have free := unowned index old present
      rw [← changed, releaseState]
      split
      · exact free
      · exact free
    · exact unowned index part found

theorem Verdict.unowned {sha1 : Bytes → Bytes} {pieces next : PieceManager} {block : Block} {pp : PartialPiece}
    {b : Nat} {result : BlockResult} (verdict : Verdict sha1 pieces block pp b result next)
    (fits : Fits pieces block pp b) (unowned : Unowned pieces) : Unowned next := by
  have own := unowned block.pieceIndex pp fits.found
  -- the piece is replaced by one with the same owner
  have replaced : ∀ after : PartialPiece, after.owner = pp.owner →
      Unowned { pieces with active := pieces.active.modify block.pieceIndex (fun _ => after) } := by
    intro after same index part found
    simp only [Table.find_modify] at found
    split at found
    · obtain ⟨old, -, changed⟩ := Option.map_eq_some_iff.mp found
      rw [← changed, same]
      exact own
    · exact unowned index part found
  cases verdict with
  | incomplete short => exact replaced _ rfl
  | failed full wrong => exact replaced _ rfl
  | verified marked full right stored =>
    obtain ⟨field, -, same⟩ := bind_ok stored
    cases same
    intro index part found
    simp only [Table.find_erase] at found
    split at found
    · cases found
    · exact unowned index part found

end TorrentPeer.PieceManager

namespace TorrentPeer.PeerManager

open Wire Transition

/-- The counts of `piece_frequency_` are 16 bits wide. -/
def Narrow (frequency : List Nat) : Prop := ∀ count ∈ frequency, count < 2 ^ 16

theorem applyAvailability_narrow {frequency : List Nat} (narrow : Narrow frequency) (field : Bitfield) (delta : Int) :
    Narrow (applyAvailability frequency field delta) := by
  intro count member
  obtain ⟨i, located⟩ := List.mem_iff_getElem?.mp member
  rw [applyAvailability_get] at located
  obtain ⟨old, present, changed⟩ := Option.map_eq_some_iff.mp located
  have before := narrow old (List.mem_of_getElem? present)
  split at changed
  · omega
  · omega

theorem effect_narrow {c : PeerConnection} {id : Nat} {frequency : List Nat} {out : List PeerEvent} {msg : Bytes}
    {handled : Handled} (narrow : Narrow frequency) (effect : PeerConnection.Effect c id frequency out msg handled) :
    Narrow handled.frequency := by
  cases effect with
  | had index field fresh stored =>
    intro count member
    obtain ⟨i, located⟩ := List.mem_iff_getElem?.mp member
    rw [List.getElem?_modify] at located
    obtain ⟨old, present, changed⟩ := Option.map_eq_some_iff.mp located
    have before := narrow old (List.mem_of_getElem? present)
    split at changed
    · omega
    · rw [← changed]
      exact before
  | announced payload field shape first parsed => exact applyAvailability_narrow narrow field 1
  | _ => exact narrow

theorem drop_narrow {pm : PeerManager} (narrow : Narrow pm.pieceFrequency) (id : Nat) (out : List PeerEvent) :
    Narrow (pm.drop id out).1.pieceFrequency := by
  unfold drop
  split
  · exact narrow
  · exact applyAvailability_narrow narrow _ (-1)

theorem act_narrow {w next : World} {a : Act} (own : a.Own) (narrow : Narrow w.pm.pieceFrequency)
    (moves : act w a = some next) : Narrow next.pm.pieceFrequency := by
  cases a with
  | send | ban | collect => cases own
  | promote sock peer now answers =>
    simp only [act, PeerManager.promote] at moves
    split at moves
    · cases moves
      split
      · exact narrow
      · exact narrow
    · cases moves
  | message id =>
    obtain ⟨c, msg, rest, handled, -, -, effect, same⟩ := act_message moves
    rw [same]
    exact effect_narrow narrow effect
  | drop id =>
    cases moves
    exact drop_narrow narrow id _
  | drain id result now =>
    cases moves
    exact narrow
  | receive id chunk now =>
    cases moves
    exact narrow
  | keepAlives now =>
    cases moves
    exact narrow
  | outside other =>
    cases moves
    exact narrow

theorem acts_narrow {w next : World} (moves : Acts w next) (narrow : Narrow w.pm.pieceFrequency) :
    Narrow next.pm.pieceFrequency :=
  Reaches.preserves (fun _ _ _ own before moved => act_narrow own before moved) moves narrow

end TorrentPeer.PeerManager

namespace TorrentPeer.Session

open Torrent PeerManager PieceManager

/-- What `pick_block` relies on to find every block there is to ask for. -/
structure Fillable (s : Session) : Prop where
  unowned : Unowned s.pieces
  narrow : Narrow s.peers.pieceFrequency

section Fillable

variable {sha1 : Bytes → Bytes} {kernel : Kernel} {t : TorrentFile}

theorem begins_fillable {sys : Sys} (begins : Begins sha1 kernel t sys) : Fillable sys.session := by
  have fresh := begins_fresh begins
  refine ⟨fun index part found => absurd found (by rw [fresh.idle]; simp), ?_⟩
  obtain ⟨-, ⟨peerId, listenSock, downloadDir, initialPeers, env, store, created⟩, -⟩ := begins
  unfold create at created
  split at created
  · cases created
  · obtain ⟨peers, managed, onward⟩ := bind_ok created
    obtain ⟨⟨pieces, read⟩, -, same⟩ := bind_ok onward
    rw [← Except.ok.inj same]
    dsimp only
    rw [(addPeers_apart env peers initialPeers).same]
    unfold PeerManager.create at managed
    split at managed
    · cases managed
    · cases managed
      intro count member
      rw [List.eq_of_mem_replicate member]
      decide

theorem Fillable.quiet (geometry : Geometry t) {f next : Flow} (custody : Custody sha1 t f)
    (fillable : Fillable f.session) (move : Quiet sha1 kernel f next) : Fillable next.session := by
  obtain ⟨unowned, narrow⟩ := fillable
  cases move with
  | build order => exact ⟨unowned, by dsimp only; rw [(buildFds_apart f.session.peers order).same]; exact narrow⟩
  | round order revents env idle =>
    obtain ⟨acts, -⟩ := pollRound_acts order revents env custody.room
    exact ⟨unowned, acts_narrow acts narrow⟩
  | dial env fresh =>
    exact ⟨unowned, by dsimp only; rw [(addPeers_apart env f.session.peers fresh).same]; exact narrow⟩
  | complete => exact ⟨unowned, narrow⟩
  | release event rest reqs front gives => exact ⟨release_unowned reqs unowned, narrow⟩
  | join id rest front =>
    refine ⟨?_, by rw [onJoined_peers]; exact narrow⟩
    simp only [onJoined, greet]
    exact unowned
  | serve id req rest session front served =>
    have typed := custody.typed (.request id req) (by rw [front]; exact List.mem_cons_self ..)
    cases serve_cases geometry custody.sound id req session typed served with
    | ignored read same => exact ⟨unowned, narrow⟩
    | sent read same held space inside count => exact ⟨unowned, narrow⟩
  | file id block rest result taken judged hosts front idle took verdict =>
    cases judge_cases sha1 kernel f.session taken judged id block result hosts took verdict with
    | rejected count piece => exact ⟨unowned, narrow⟩
    | incomplete count pp b pieces fits ruled => exact ⟨ruled.unowned fits unowned, narrow⟩
    | failed count pp b pieces piece fits ruled => exact ⟨ruled.unowned fits unowned, narrow⟩
    | verified count pp b pieces piece written fits ruled stored => exact ⟨ruled.unowned fits unowned, narrow⟩
  | convict host hosts listed => exact ⟨unowned, narrow⟩
  | expel id c found => exact ⟨release_unowned _ unowned, drop_narrow narrow id []⟩
  | expire id c cutoff found => exact ⟨release_unowned _ unowned, narrow⟩

theorem Fillable.ask (geometry : Geometry t) {s next : Session} (valid : Valid t s.pieces)
    (fillable : Fillable s) (ask : Ask s next) : Fillable next := by
  cases ask with
  | ask id c choice now req pieces found unchoked slot picked =>
    obtain ⟨opened, pp, b, pick⟩ := pickBlock_some geometry valid _ _ _ _ _ _ picked
    exact ⟨pick.unowned fillable.unowned, fillable.narrow⟩
  | decline id c choice pieces picked =>
    rw [pickBlock_none geometry valid _ _ _ _ _ picked]
    exact fillable

theorem reached_fillable {sys : Sys} (reached : Reached sha1 kernel t sys) : Fillable sys.session := by
  have geometry := reached_geometry reached
  exact (reached_invariant (fun f => Custody sha1 t f ∧ Fillable f.session)
    (fun _ begins => ⟨begins_custody begins, begins_fillable begins⟩)
    (fun _ _ good move => ⟨good.1.quiet geometry move, good.2.quiet geometry good.1 move⟩)
    (fun _ _ good ask => ⟨good.1.ask geometry ask, good.2.ask geometry good.1.sound.valid ask⟩) reached).2

end Fillable

def Occupied (c : PeerConnection) : Prop :=
  if c.snubbed = true then c.pending ≠ [] else kPipelineDepth ≤ c.pending.length

def Employed (t : TorrentFile) (snubbed : Bool) (s : Session) (id : Nat) : Prop :=
  ∀ c, s.peers.conns.find? id = some c → c.peerChoking = false → c.snubbed = snubbed →
    Occupied c ∨ ∀ index b, ¬ Askable t s.pieces c.hasPieces index b

/-- What a call of `send_request` leaves of a connection. -/
structure Grown (c after : PeerConnection) : Prop where
  hasPieces : after.hasPieces = c.hasPieces
  peerChoking : after.peerChoking = c.peerChoking
  snubbed : after.snubbed = c.snubbed
  pending : c.pending.length ≤ after.pending.length

theorem Grown.occupied {c after : PeerConnection} (grown : Grown c after) (occupied : Occupied c) :
    Occupied after := by
  have longer := grown.pending
  rw [Occupied] at occupied ⊢
  rw [grown.snubbed]
  by_cases slow : c.snubbed = true
  · rw [if_pos slow, ← List.length_pos_iff] at occupied ⊢
    omega
  · rw [if_neg slow] at occupied ⊢
    omega

section Passes

variable {t : TorrentFile} (geometry : Geometry t)

theorem Ask.grown {s next : Session} (ask : Ask s next) (id : Nat) (after : PeerConnection)
    (found : next.peers.conns.find? id = some after) :
    ∃ c, s.peers.conns.find? id = some c ∧ Grown c after := by
  cases ask with
  | ask other c choice now req pieces present unchoked slot picked =>
    obtain ⟨old, located, same | ⟨-, same⟩⟩ := find_modify_some found
    · exact ⟨old, located, by rw [same]; exact ⟨rfl, rfl, rfl, Nat.le_refl _⟩⟩
    · refine ⟨old, located, ?_⟩
      rw [same]
      exact ⟨rfl, rfl, rfl, by simp [PeerConnection.enqueue]⟩
  | decline other c choice pieces picked => exact ⟨after, found, rfl, rfl, rfl, Nat.le_refl _⟩

include geometry

theorem Ask.askable {s next : Session} (valid : Valid t s.pieces) (ask : Ask s next) {peerHas : Bitfield}
    {index b : Nat} (after : Askable t next.pieces peerHas index b) : Askable t s.pieces peerHas index b := by
  cases ask with
  | ask id c choice now req pieces found unchoked slot picked =>
    obtain ⟨opened, pp, place, pick⟩ := pickBlock_some geometry valid _ _ _ _ _ _ picked
    exact pick.askable after
  | decline id c choice pieces picked =>
    rw [pickBlock_none geometry valid _ _ _ _ _ picked] at after
    exact after

theorem Ask.valid {s next : Session} (valid : Valid t s.pieces) (ask : Ask s next) : Valid t next.pieces := by
  cases ask with
  | ask id c choice now req pieces found unchoked slot picked =>
    obtain ⟨opened, pp, place, pick⟩ := pickBlock_some geometry valid _ _ _ _ _ _ picked
    exact pick.next_valid
  | decline id c choice pieces picked =>
    rw [pickBlock_none geometry valid _ _ _ _ _ picked]
    exact valid

theorem Ask.employed {s next : Session} {flag : Bool} {id : Nat} (valid : Valid t s.pieces)
    (employed : Employed t flag s id) (ask : Ask s next) : Employed t flag next id := by
  intro after found unchoked kind
  obtain ⟨c, present, grown⟩ := ask.grown id after found
  rw [grown.peerChoking] at unchoked
  rw [grown.snubbed] at kind
  rcases employed c present unchoked kind with full | nothing
  · exact Or.inl (grown.occupied full)
  · refine Or.inr (fun index b askable => nothing index b ?_)
    rw [grown.hasPieces] at askable
    exact ask.askable geometry valid askable

theorem asks_keep {s next : Session} (asks : Asks s next) (valid : Valid t s.pieces) (fillable : Fillable s) :
    Valid t next.pieces ∧ Fillable next ∧
      ∀ flag id, Employed t flag s id → Employed t flag next id := by
  induction asks with
  | refl => exact ⟨valid, fillable, fun _ _ employed => employed⟩
  | tail _ last ih =>
    obtain ⟨middle_valid, middle_fillable, kept⟩ := ih
    exact ⟨last.valid geometry middle_valid, middle_fillable.ask geometry middle_valid last,
      fun flag id employed => last.employed geometry middle_valid (kept flag id employed)⟩

theorem askPeer_cases {s : Session} (valid : Valid t s.pieces) (fillable : Fillable s) {id : Nat}
    {c : PeerConnection} (found : s.peers.conns.find? id = some c) (choice : Choice) (now : Time) :
    (s.askPeer id c choice now = (false, s) ∧ ∀ index b, ¬ Askable t s.pieces c.hasPieces index b) ∨
      ∃ next after, s.askPeer id c choice now = (true, next) ∧ next.peers.conns.find? id = some after ∧
        after.pending.length = c.pending.length + 1 ∧ Grown c after := by
  unfold askPeer
  cases picked : s.pieces.pickBlock c.hasPieces s.peers.pieceFrequency id choice with
  | mk answer pieces =>
    cases answer with
    | none =>
      refine Or.inl ⟨?_, ?_⟩
      · rw [pickBlock_none geometry valid _ _ _ _ _ picked]
      · exact pickBlock_exhausted geometry valid fillable.unowned fillable.narrow (by rw [picked])
    | some req =>
      have longer : (c.pending ++ [PendingRequest.mk req now]).length = c.pending.length + 1 := by simp
      refine Or.inr ⟨{ s with pieces := pieces, peers := s.peers.sendRequest id req now },
        { c with pending := c.pending ++ [PendingRequest.mk req now] }.enqueue (Wire.Message.bytes (.request req)),
        rfl, ?_, longer, rfl, rfl, rfl, ?_⟩
      · simp only [PeerManager.sendRequest, Table.find_modify, found, if_true, Option.map_some]
      · exact Nat.le.intro longer.symm

theorem fillPeer_employed (pick : Nat → Choice) (stamp : Nat → Time) (id fuel : Nat) {s : Session}
    (valid : Valid t s.pieces) (fillable : Fillable s) {c : PeerConnection}
    (found : s.peers.conns.find? id = some c) (unchoked : c.peerChoking = false)
    (enough : kPipelineDepth ≤ c.pending.length + fuel) :
    Employed t false (fillPeer pick stamp id fuel s) id := by
  induction fuel generalizing s c with
  | zero =>
    intro d present _ healthy
    rw [fillPeer, found] at present
    cases present
    refine Or.inl ?_
    rw [Occupied, healthy]
    exact enough
  | succ fuel ih =>
    rw [fillPeer, found]
    dsimp only
    by_cases slot : c.pending.length < kPipelineDepth
    · rw [if_pos slot]
      rcases askPeer_cases geometry valid fillable found (pick fuel) (stamp fuel) with
        ⟨declined, nothing⟩ | ⟨next, after, asked, present, longer, grown⟩
      · rw [declined]
        intro d same _ _
        rw [found] at same
        cases same
        exact Or.inr nothing
      · have moves := (askPeer_sends s id c (pick fuel) (stamp fuel) found unchoked slot).asks
        rw [asked] at moves
        obtain ⟨next_valid, next_fillable, -⟩ := asks_keep geometry moves valid fillable
        rw [asked]
        exact ih next_valid next_fillable present (grown.peerChoking.trans unchoked) (by omega)
    · rw [if_neg slot]
      intro d same _ healthy
      rw [found] at same
      cases same
      refine Or.inl ?_
      rw [Occupied, healthy]
      exact Nat.le_of_not_lt slot

theorem fillOne_employed (env : FillEnv) {s : Session} (valid : Valid t s.pieces) (fillable : Fillable s) (id : Nat) :
    Employed t false (fillOne env s id) id := by
  unfold fillOne
  cases found : s.peers.conns.find? id with
  | none =>
    intro d present
    rw [found] at present
    cases present
  | some c =>
    dsimp only
    split
    · rename_i busy
      intro d present unchoked healthy
      rw [found] at present
      cases present
      rw [unchoked, healthy] at busy
      simp at busy
    · rename_i free
      push Not at free
      exact fillPeer_employed geometry _ _ id kPipelineDepth valid fillable found (by simpa using free.1) (by omega)

theorem fillSnubbed_employed (env : FillEnv) {s : Session} (valid : Valid t s.pieces)
    (fillable : Fillable s) (id : Nat) :
    Employed t true (fillSnubbed env s id) id := by
  unfold fillSnubbed
  cases found : s.peers.conns.find? id with
  | none =>
    intro d present
    rw [found] at present
    cases present
  | some c =>
    dsimp only
    split
    · rename_i busy
      intro d present unchoked snubbed
      rw [found] at present
      cases present
      rw [unchoked, snubbed] at busy
      refine Or.inl ?_
      rw [Occupied, if_pos snubbed]
      simpa using busy
    · rcases askPeer_cases geometry valid fillable found (env.snubbedPick id) (env.snubbedStamp id) with
        ⟨declined, nothing⟩ | ⟨next, after, asked, present, longer, -⟩
      · rw [declined]
        intro d same _ _
        rw [found] at same
        cases same
        exact Or.inr nothing
      · rw [asked]
        intro d same _ snubbed
        rw [present] at same
        cases same
        refine Or.inl ?_
        rw [Occupied, if_pos snubbed, ← List.length_pos_iff]
        omega

/-- A pass leaves every peer employed that it has visited. -/
theorem pass_employed {flag : Bool} (pass : Session → Nat → Session)
    (each : ∀ s id, Valid t s.pieces → Fillable s → Employed t flag (pass s id) id)
    (sends : Session → Nat → List Sending) (moves : ∀ s id, Sends s (sends s id) (pass s id)) (ids : List Nat)
    {s : Session} (valid : Valid t s.pieces) (fillable : Fillable s) :
    ∀ id ∈ ids, Employed t flag (ids.foldl pass s) id := by
  induction ids generalizing s with
  | nil => exact fun id member => absurd member List.not_mem_nil
  | cons first ids ih =>
    intro id member
    obtain ⟨next_valid, next_fillable, -⟩ := asks_keep geometry (moves s first).asks valid fillable
    rcases List.mem_cons.mp member with here | later
    · rw [here]
      have rest := (pass_sends pass sends moves ids (pass s first)).asks
      exact (asks_keep geometry rest next_valid next_fillable).2.2 flag first (each s first valid fillable)
    · exact ih next_valid next_fillable id later

omit geometry in
theorem asks_connected {s next : Session} (asks : Asks s next) {id : Nat} {after : PeerConnection}
    (found : next.peers.conns.find? id = some after) : ∃ c, s.peers.conns.find? id = some c := by
  induction asks generalizing after with
  | refl => exact ⟨after, found⟩
  | tail _ last ih =>
    obtain ⟨c, present, -⟩ := last.grown id after found
    exact ih present

theorem fillAll_employed (env : FillEnv) {s : Session} (valid : Valid t s.pieces) (fillable : Fillable s)
    (flag : Bool) (id : Nat) : Employed t flag (s.fillAll env) id := by
  intro c found unchoked kind
  have first := (pass_sends _ _ (fillOne_sends env) (s.peers.conns.arrange env.order) s).asks
  have second : Asks _ (s.fillAll env) := (pass_sends _ _ (fillSnubbed_sends env) _ _).asks
  obtain ⟨middle_valid, middle_fillable, -⟩ := asks_keep geometry first valid fillable
  obtain ⟨present, listed⟩ := asks_connected second found
  cases flag with
  | false =>
    have before := asks_connected first listed
    have filled := pass_employed geometry (fillOne env)
      (fun _ id valid fillable => fillOne_employed geometry env valid fillable id)
      (fillOneSends env) (fillOne_sends env) (s.peers.conns.arrange env.order) valid fillable id
      ((Table.arrange_member _ _ id).mpr before)
    exact (asks_keep geometry second middle_valid middle_fillable).2.2 false id filled c found unchoked kind
  | true =>
    exact pass_employed geometry (fillSnubbed env)
      (fun _ id valid fillable => fillSnubbed_employed geometry env valid fillable id)
      (fillSnubbedSends env) (fillSnubbed_sends env) _ middle_valid middle_fillable id
      ((Table.arrange_member _ _ id).mpr ⟨present, listed⟩) c found unchoked kind

end Passes

section Runs

variable {sha1 : Bytes → Bytes} {kernel : Kernel} {t : TorrentFile}

theorem step_polling {sys next : Sys} {input : Input} (moves : step sha1 kernel sys input = some next)
    (idle : next.phase = .polling) :
    (∃ env, next.session = sys.session.fillAll env) ∨
      sys.phase = .polling ∧ next.session.pieces = sys.session.pieces ∧
        next.session.peers.conns = sys.session.peers.conns := by
  obtain ⟨session, phase, deliveries, filed⟩ := sys
  unfold step at moves
  split at moves
  · rename_i order here
    cases moves
    exact Or.inr ⟨here, rfl, (buildFds_apart session.peers order).conns⟩
  · cases moves
    cases idle
  · split at moves
    · cases moves
    · cases moves
      cases idle
  · cases moves
    cases idle
  · rename_i env here
    cases moves
    exact Or.inl ⟨env, rfl⟩
  · cases moves

theorem reached_employed {sys : Sys} (reached : Reached sha1 kernel t sys) (idle : sys.phase = .polling)
    (flag : Bool) (id : Nat) : Employed t flag sys.session id := by
  have geometry := reached_geometry reached
  induction reached with
  | start sys begins =>
    intro c found
    rw [(begins_fresh begins).conns] at found
    cases found
  | next sys after input earlier moves ih =>
    rcases step_polling moves idle with ⟨env, filled⟩ | ⟨before, pieces, conns⟩
    · rw [filled]
      exact fillAll_employed geometry env (reached_custody earlier).sound.valid (reached_fillable earlier) flag id
    · intro c found
      rw [pieces]
      rw [conns] at found
      exact ih before c found

/-- A slot that is not missing is received, or some peer has been asked for it. -/
theorem waited_for {sys : Sys} (reached : Reached sha1 kernel t sys) (idle : sys.phase = .polling) {index b : Nat}
    (taken : ¬ ∀ pp, sys.session.pieces.active.find? index = some pp → pp.states[b]? = some .missing)
    (slot : b < blockCount t index) :
    sys.session.pieces.stateAt index b = some .received ∨
      ∃ other d, sys.session.peers.conns.find? other = some d ∧ requestOf t index b ∈ requestsOf d.pending := by
  have valid : Valid t sys.session.pieces := (reached_custody reached).sound.valid
  push Not at taken
  obtain ⟨pp, found, busy⟩ := taken
  have bound : b < pp.states.length := by
    rw [(valid.parts index pp found).2.2.states]
    exact slot
  have located := List.getElem?_eq_getElem bound
  rw [stateAt_found _ _ _ found]
  cases state : pp.states[b] with
  | missing => exact absurd (by rw [located, state]) busy
  | received => exact Or.inl (by rw [located, state])
  | requested =>
    have asked : sys.session.pieces.isRequested (requestOf t index b) = true := by
      rw [← valid.torrent, isRequested_requestOf, stateAt_found _ _ _ found, located, state]
      rfl
    have books := reached_balanced reached (requestOf t index b)
    simp only [Sys.flow, idle, Phase.queue, outstanding, List.map_nil, List.sum_nil, Nat.add_zero] at books
    rw [if_pos asked] at books
    obtain ⟨other, d, present, positive⟩ := (Table.total_positive _ _).mp
      (Nat.lt_of_lt_of_eq Nat.zero_lt_one books.symm)
    exact Or.inr ⟨other, d, present, List.count_pos_iff.mp positive⟩

end Runs

/-- Between two rounds a peer that lets us ask has its share of requests, or each block of each piece
it could send is here or asked for; so a request is on its way as long as some peer can help. -/
theorem peers_kept_busy (sha1 : Bytes → Bytes) (kernel : Kernel) (t : TorrentFile) (sys : Sys)
    (reached : Reached sha1 kernel t sys) (idle : sys.phase = .polling) :
    (∀ id c, sys.session.peers.conns.find? id = some c → c.peerChoking = false →
      (if c.snubbed = true then c.pending ≠ [] else kPipelineDepth ≤ c.pending.length) ∨
        ∀ index < sys.session.pieces.pieceCount, c.hasPieces.get index = true →
          sys.session.pieces.have_.get index = false → ∀ b < blockCount t index,
            sys.session.pieces.stateAt index b = some .received ∨
              ∃ other d, sys.session.peers.conns.find? other = some d ∧
                requestOf t index b ∈ requestsOf d.pending) ∧
    ((∃ id c index, sys.session.peers.conns.find? id = some c ∧ c.peerChoking = false ∧
        index < sys.session.pieces.pieceCount ∧ c.hasPieces.get index = true ∧
        sys.session.pieces.have_.get index = false) →
      ∃ other d, sys.session.peers.conns.find? other = some d ∧ d.pending ≠ []) := by
  have geometry := reached_geometry reached
  have valid : Valid t sys.session.pieces := (reached_custody reached).sound.valid
  have first : ∀ id c, sys.session.peers.conns.find? id = some c → c.peerChoking = false →
      (if c.snubbed = true then c.pending ≠ [] else kPipelineDepth ≤ c.pending.length) ∨
        ∀ index < sys.session.pieces.pieceCount, c.hasPieces.get index = true →
          sys.session.pieces.have_.get index = false → ∀ b < blockCount t index,
            sys.session.pieces.stateAt index b = some .received ∨
              ∃ other d, sys.session.peers.conns.find? other = some d ∧
                requestOf t index b ∈ requestsOf d.pending := by
    intro id c found unchoked
    rcases reached_employed reached idle c.snubbed id c found unchoked rfl with full | nothing
    · exact Or.inl full
    · exact Or.inr (fun index counted held wanted b slot =>
        waited_for reached idle (fun askable => nothing index b ⟨counted, held, wanted, slot, askable⟩) slot)
  refine ⟨first, ?_⟩
  intro helpful
  obtain ⟨id, c, index, found, unchoked, counted, held, wanted⟩ := helpful
  rcases first id c found unchoked with full | served
  · refine ⟨id, c, found, ?_⟩
    split at full
    · exact full
    · rw [← List.length_pos_iff]
      exact Nat.lt_of_lt_of_le (by decide) full
  · obtain ⟨b, slot, empty⟩ := slot_open geometry valid counted
    rcases served index counted held wanted b slot with received | ⟨other, d, present, member⟩
    · obtain ⟨pp, active, state⟩ := Option.bind_eq_some_iff.mp received
      rw [got_found active, gotIn, if_pos state] at empty
      cases empty
    · refine ⟨other, d, present, fun none => ?_⟩
      rw [none] at member
      cases member

/-- The peer that has the only piece and has unchoked us is the one that is asked. -/
theorem peers_kept_busy_only_piece :
    ∃ sys, Reached spotDigest wholeKernel oneByteWanted sys ∧ sys.phase = .polling ∧
      (∃ c, sys.session.peers.conns.find? 0 = some c ∧ c.peerChoking = false ∧ c.hasPieces.get 0 = true) ∧
      sys.session.pieces.have_.get 0 = false ∧
      ∃ other d, sys.session.peers.conns.find? other = some d ∧ d.pending ≠ [] := by
  have asked : (rehearse spotDigest oneByteWanted (welcome oneByteWanted (ascii "h"))).map (fun sys =>
      (sys.phase, sys.session.pieces.pieceCount, sys.session.pieces.have_.get 0,
        (sys.session.peers.conns.find? 0).map (fun c => (c.peerChoking, c.hasPieces.get 0)))) =
      some (.polling, 1, false, some (false, true)) := by
    decide +kernel
  obtain ⟨sys, ran, shown⟩ := Option.map_eq_some_iff.mp asked
  simp only [Prod.mk.injEq] at shown
  obtain ⟨idle, count, wanted, peer⟩ := shown
  obtain ⟨c, found, flags⟩ := Option.map_eq_some_iff.mp peer
  obtain ⟨unchoked, held⟩ := Prod.mk.inj flags
  have reached := rehearse_reached ⟨_, oneByteWanted_accepted⟩ ran
  have busy := (peers_kept_busy spotDigest wholeKernel oneByteWanted sys reached idle).2
    ⟨0, c, 0, found, unchoked, by rw [count]; exact Nat.zero_lt_one, held, wanted⟩
  exact ⟨sys, reached, idle, ⟨c, found, unchoked, held⟩, wanted, busy⟩

end TorrentPeer.Session
