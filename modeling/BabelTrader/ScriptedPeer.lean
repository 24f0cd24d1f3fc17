import BabelTrader.BytesToMsgDecoder

/-!
# A peer that follows a script

An environment that can be run: the bytes still to come, and how many of them each further `Read`
finds in the socket. The handler goes by a fixed rule and leaves the frame as it is.
-/

namespace BabelTrader

structure ScriptedPeer where
  wire : Bytes
  cuts : List Nat

namespace ScriptedPeer

/-- The next `Read`: as many bytes as the script has there, or `0` when there are none. -/
def read (peer : ScriptedPeer) (len : Nat) : ReadResult len × ScriptedPeer :=
  match peer.cuts with
  | [] => (.nothing 0 (Int.le_refl 0), peer)
  | cut :: cuts =>
      let data := peer.wire.take (min cut len)
      if h : 0 < data.length ∧ data.length < 2 ^ 31 then
        (.bytes data h.1 (Nat.le_trans (List.length_take_le _ _) (Nat.min_le_right _ _)) h.2,
          { wire := peer.wire.drop (min cut len), cuts := cuts })
      else (.nothing 0 (Int.le_refl 0), { peer with cuts := cuts })

/-- The methods of a session whose handler accepts the frames that satisfy `accepts`. -/
def methods (accepts : Frame → Bool) : Methods ScriptedPeer where
  read := read
  onRead peer frame := (.untouched (accepts frame) frame.data, peer)

def decoder (recvUnitSize msgLenLimit : UInt32) : BytesToMsgDecoder ScriptedPeer :=
  (BytesToMsgDecoder.new.setRecvUnitSize recvUnitSize).setMsgLenLimit msgLenLimit

@[simp]
theorem recvUnitSize_decoder {recvUnitSize msgLenLimit : UInt32} (h : recvUnitSize ≠ 0) :
    (decoder recvUnitSize msgLenLimit).recvUnitSize = recvUnitSize := by
  simp only [decoder, BytesToMsgDecoder.setMsgLenLimit, BytesToMsgDecoder.setRecvUnitSize, h,
    dif_neg, not_false_eq_true]

def connect (peer : ScriptedPeer) (capacity : Nat) (h : capacity < 2 ^ 31) :
    Session (FlatBuffer capacity) ScriptedPeer :=
  Session.init (FlatBuffer.init capacity h) peer

theorem fresh_connect (peer : ScriptedPeer) {capacity : Nat} (h : capacity < 2 ^ 31) :
    (peer.connect capacity h).Fresh :=
  Session.fresh_init (FlatBuffer.contents_init h) peer

theorem neverRefuses {d : BytesToMsgDecoder ScriptedPeer} (h : d.next_ = none) :
    d.NeverRefuses (methods fun _ => true) := by
  intro env frame
  simp only [BytesToMsgDecoder.next, h, methods, Handled.untouched]

theorem stored_append_wire (peer : ScriptedPeer) (len : Nat) :
    (peer.read len).1.stored ++ (peer.read len).2.wire = peer.wire := by
  cases hcuts : peer.cuts with
  | nil => simp only [read, hcuts, ReadResult.stored, List.nil_append]
  | cons cut cuts =>
      simp only [read, hcuts]
      split
      next => simp only [ReadResult.stored, List.take_append_drop]
      next => simp only [ReadResult.stored, List.nil_append]

theorem wire_read_whole {wire : Bytes} {len : Nat} (hpos : 0 < wire.length)
    (hlt : wire.length < 2 ^ 31) (hle : wire.length ≤ len) :
    (read ⟨wire, [wire.length]⟩ len).2.wire = [] := by
  have htake : wire.take (min wire.length len) = wire := by
    rw [Nat.min_eq_left hle, List.take_length]
  have hcond : 0 < (wire.take (min wire.length len)).length
      ∧ (wire.take (min wire.length len)).length < 2 ^ 31 := by
    rw [htake]
    exact ⟨hpos, hlt⟩
  simp only [read]
  rw [dif_pos hcond]
  simp only [Nat.min_eq_left hle, List.drop_length]

end ScriptedPeer

end BabelTrader
