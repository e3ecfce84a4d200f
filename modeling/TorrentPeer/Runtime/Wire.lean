import TorrentPeer.Metainfo.Torrent
import TorrentPeer.Lib.BigEndian

/-! Messages of the peer wire protocol as `PeerManager` builds and frames them. -/

namespace TorrentPeer.Wire

open BigEndian

def msgChoke : UInt8 := 0
def msgUnchoke : UInt8 := 1
def msgInterested : UInt8 := 2
def msgNotInterested : UInt8 := 3
def msgHave : UInt8 := 4
def msgBitfield : UInt8 := 5
def msgRequest : UInt8 := 6
def msgPiece : UInt8 := 7
def msgCancel : UInt8 := 8

def buildHandshake (torrent : TorrentFile) (peerId : Bytes) : Bytes :=
  19 :: (ascii "BitTorrent protocol" ++ List.replicate 8 0 ++ torrent.infoHash ++ peerId)

def buildMessage (id : UInt8) (payload : Bytes) : Bytes :=
  be32 ((1 + payload.length) % 2 ^ 32) ++ id :: payload

def buildRequest (req : BlockRequest) : Bytes :=
  buildMessage msgRequest (be32 req.pieceIndex ++ be32 req.offset ++ be32 req.length)

def extractMessage (buf : Bytes) : Except Exn (Option (Bytes × Bytes)) :=
  if buf.length < 4 then .ok none
  else
    let len := readBe32 buf
    if 2 ^ 20 < len then .error (.runtimeError (ascii "absurd message length"))
    else if buf.length < 4 + len then .ok none
    else .ok (some ((buf.drop 4).take len, buf.drop (4 + len)))

/-- Everything `PeerManager` ever puts into a write queue. -/
inductive Message where
  | handshake (torrent : TorrentFile) (peerId : Bytes)
  | keepAlive
  | choke
  | unchoke
  | interested
  | have_ (index : Nat)
  | bitfield (raw : Bytes)
  | request (req : BlockRequest)
  | piece (index offset : Nat) (data : Bytes)

def Message.bytes : Message → Bytes
  | .handshake torrent peerId => buildHandshake torrent peerId
  | .keepAlive => List.replicate 4 0
  | .choke => buildMessage msgChoke []
  | .unchoke => buildMessage msgUnchoke []
  | .interested => buildMessage msgInterested []
  | .have_ index => buildMessage msgHave (be32 index)
  | .bitfield raw => buildMessage msgBitfield raw
  | .request req => buildRequest req
  | .piece index offset data => buildMessage msgPiece (be32 index ++ be32 offset ++ data)

@[simp] theorem buildMessage_length (id : UInt8) (payload : Bytes) :
    (buildMessage id payload).length = 5 + payload.length := by
  simp only [buildMessage, List.length_append, be32_length, List.length_cons]
  omega

theorem buildMessage_id (id : UInt8) (payload : Bytes) : (buildMessage id payload)[4]? = some id := by
  rw [buildMessage, List.getElem?_append_right (by simp), be32_length]
  rfl

theorem message_nonempty (message : Message) : 0 < message.bytes.length := by
  cases message <;> simp [Message.bytes, buildHandshake, buildRequest]

end TorrentPeer.Wire
