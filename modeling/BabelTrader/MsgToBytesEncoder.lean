import BabelTrader.Session

/-!
# `MsgToBytesEncoder`

`Encode` fills in the header of a message in place and passes the message on. It writes the magic
word, two of the four flags and the payload length; the message id and the two reserved flags stay
what the caller put there.
-/

namespace BabelTrader

open MachineWord

/-- Where a chain passes a message on to: the next encoder, or the session's `OnWrite`. -/
abbrev Sink (σ : Type) := σ → Bytes → UInt32 → Bool × σ

/-- The header as `Encode` leaves it. The subtraction is cut down to a `uint32_t`. -/
def MsgHdr.stamp (host : Host) (hdr : MsgHdr) (datalen : UInt32) : MsgHdr :=
  { hdr with
    magic := magicWord
    flags := Function.update (Function.update hdr.flags flagEndian host.muggleEndianness) flagVer
      protocolVersion
    payloadLen := datalen - UInt32.ofNat sizeofMsgHdr }

/-- The bytes of the message as `Encode` leaves them. -/
def stamp (host : Host) (data : Bytes) (datalen : UInt32) : Bytes :=
  ((MsgHdr.load host data).stamp host datalen).store host ++ data.drop sizeofMsgHdr

/-- `Encode`, with what it calls as `Next`. -/
def MsgToBytesEncoder.encode {σ : Type} (host : Host) (next : Sink σ) : Sink σ :=
  fun st data datalen => next st (stamp host data datalen) datalen

def recorder : Sink (List Frame) := fun frames data datalen => (true, frames ++ [⟨data, datalen⟩])

/-- What `Encode` hands to `Next` for one message after the other. -/
def MsgToBytesEncoder.handed (host : Host) (msgs : List Bytes) : List Frame :=
  msgs.foldl
    (fun frames msg => (encode host recorder frames msg (UInt32.ofNat msg.length)).2) []

def encoded (host : Host) (msg : Bytes) : Frame :=
  ⟨stamp host msg (UInt32.ofNat msg.length), UInt32.ofNat msg.length⟩

/-! ### What is written and what is kept -/

section Stamp

variable {host : Host} {data : Bytes}

theorem length_stamp (datalen : UInt32) (h : sizeofMsgHdr ≤ data.length) :
    (stamp host data datalen).length = data.length := by
  rw [stamp, List.length_append, MsgHdr.store_length, List.length_drop]
  omega

@[simp]
theorem load_stamp (datalen : UInt32) :
    MsgHdr.load host (stamp host data datalen) = (MsgHdr.load host data).stamp host datalen := by
  rw [stamp, MsgHdr.load_store]

@[simp]
theorem drop_stamp (datalen : UInt32) :
    (stamp host data datalen).drop sizeofMsgHdr = data.drop sizeofMsgHdr := by
  rw [stamp, List.drop_left' (MsgHdr.store_length host _)]

end Stamp

theorem MsgToBytesEncoder.handed_eq (host : Host) (msgs : List Bytes) :
    handed host msgs = msgs.map (encoded host) := by
  induction msgs using List.reverseRecOn with
  | nil => rfl
  | append_singleton msgs msg ih =>
      rw [handed, List.foldl_append, List.map_append, ← ih]
      rfl

theorem length_encoded (host : Host) {msg : Bytes} (h : sizeofMsgHdr ≤ msg.length) :
    (encoded host msg).data.length = msg.length := length_stamp _ h

end BabelTrader
