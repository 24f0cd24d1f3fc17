import BabelTrader.Front
import BabelTrader.MsgToBytesEncoder

/-!
# The encoder and the framing rule

The two codecs list the header fields separately. Everything that the decoder checks is written by
the encoder except the two reserved flags, so an encoded message is one whole frame exactly when its
caller has left these two at zero.
-/

namespace BabelTrader

open MachineWord Framing

/-- A message that the encoder's caller has prepared for a peer with this limit. -/
structure Sendable (host : Host) (limit : UInt32) (msg : Bytes) : Prop where
  header : sizeofMsgHdr ≤ msg.length
  limit : msg.length ≤ limit.toNat
  reversed1 : (MsgHdr.load host msg).flags flagReversed1 = 0
  reversed2 : (MsgHdr.load host msg).flags flagReversed2 = 0

theorem MsgHdr.marked_stamp_iff {host : Host} {hdr : MsgHdr} {datalen : UInt32} :
    (hdr.stamp host datalen).Marked host
      ↔ hdr.flags flagReversed1 = 0 ∧ hdr.flags flagReversed2 = 0 := by
  have hreversed1 : (hdr.stamp host datalen).flags flagReversed1 = hdr.flags flagReversed1 := rfl
  have hreversed2 : (hdr.stamp host datalen).flags flagReversed2 = hdr.flags flagReversed2 := rfl
  constructor
  · intro hmarked
    exact ⟨hreversed1 ▸ hmarked.reversed1, hreversed2 ▸ hmarked.reversed2⟩
  · rintro ⟨h1, h2⟩
    exact {
      magic := rfl
      endian := rfl
      version := rfl
      reversed1 := hreversed1.trans h1
      reversed2 := hreversed2.trans h2 }

/-- The length that the header announces is the length that was asked for, also when the subtraction
and the sum both wrap around. -/
@[simp]
theorem MsgHdr.totalBytes_stamp (host : Host) (hdr : MsgHdr) (datalen : UInt32) :
    (hdr.stamp host datalen).totalBytes = datalen := by
  calc (hdr.stamp host datalen).totalBytes
    _ = UInt32.ofNat sizeofMsgHdr + (datalen - UInt32.ofNat sizeofMsgHdr) := rfl
    _ = datalen := by rw [UInt32.add_comm, UInt32.sub_add_cancel]

section Encoded

variable {host : Host} {limit : UInt32} {msg : Bytes}

theorem toNat_ofNat_length (h : msg.length ≤ limit.toNat) :
    (UInt32.ofNat msg.length).toNat = msg.length := by
  exact UInt32.toNat_ofNat_of_lt' (Nat.lt_of_le_of_lt h limit.toNat_lt)

/-- **The codecs agree.** An encoded message within the limit passes the checks iff its reserved
flags are zero. -/
theorem checkHeader_encoded_iff (h : msg.length ≤ limit.toNat) :
    checkHeader host limit (MsgHdr.load host (encoded host msg).data) = none
      ↔ (MsgHdr.load host msg).flags flagReversed1 = 0
        ∧ (MsgHdr.load host msg).flags flagReversed2 = 0 := by
  rw [checkHeader_eq_none_iff, encoded, load_stamp, MsgHdr.marked_stamp_iff,
    MsgHdr.totalBytes_stamp, UInt32.le_iff_toNat_le, toNat_ofNat_length h]
  exact and_iff_left fun _ => h

theorem Sendable.whole (h : Sendable host limit msg) :
    Whole (front host limit) (encoded host msg).data := by
  have hlen := length_encoded host h.header
  have htotal : (MsgHdr.load host (encoded host msg).data).totalBytes.toNat = msg.length := by
    rw [encoded, load_stamp, MsgHdr.totalBytes_stamp, toNat_ofNat_length h.limit]
  rw [Whole, front_eq_frame_iff, hlen, htotal]
  refine ⟨h.header, (checkHeader_encoded_iff h.limit).mpr ⟨h.reversed1, h.reversed2⟩, rfl, ?_⟩
  exact Nat.le_refl _

theorem Sendable.wellFormed (h : Sendable host limit msg) :
    (encoded host msg).WellFormed host limit := by
  have hlen := toNat_ofNat_length h.limit
  have htotal :
      (MsgHdr.load host (encoded host msg).data).totalBytes = UInt32.ofNat msg.length := by
    rw [encoded, load_stamp, MsgHdr.totalBytes_stamp]
  have hheader := h.header
  obtain ⟨hmarked, hlimit⟩ :=
    checkHeader_eq_none_iff.mp ((checkHeader_encoded_iff h.limit).mpr ⟨h.reversed1, h.reversed2⟩)
  have hpayload : (MsgHdr.load host (encoded host msg).data).payloadLen.toNat
      = msg.length - sizeofMsgHdr := by
    have hle : UInt32.ofNat sizeofMsgHdr ≤ UInt32.ofNat msg.length := by
      rw [UInt32.le_iff_toNat_le, hlen]
      exact hheader
    calc (MsgHdr.load host (encoded host msg).data).payloadLen.toNat
      _ = (UInt32.ofNat msg.length - UInt32.ofNat sizeofMsgHdr).toNat := by
        rw [encoded, load_stamp, MsgHdr.stamp]
      _ = msg.length - sizeofMsgHdr := by
        rw [UInt32.toNat_sub_of_le _ _ hle, hlen]
        rfl
  exact {
    length_eq := by rw [length_encoded host h.header, encoded, hlen]
    header := by rw [encoded, hlen]; exact h.header
    marked := hmarked
    datalen := by rw [hpayload, encoded, hlen]; omega
    limit := fun hpos => by
      have hle := hlimit hpos
      rwa [htotal] at hle }

theorem Sendable.datalen_pos (h : Sendable host limit msg) :
    0 < (encoded host msg).datalen.toNat := by
  calc 0
    _ < sizeofMsgHdr := by decide
    _ ≤ (encoded host msg).datalen.toNat := h.wellFormed.header

theorem Sendable.datalen_lt (h : Sendable host 0x7FFFFFFF msg) :
    (encoded host msg).datalen.toNat < 2 ^ 31 := by
  calc (encoded host msg).datalen.toNat
    _ ≤ (0x7FFFFFFF : UInt32).toNat := UInt32.le_iff_toNat_le.mp (h.wellFormed.limit (by decide))
    _ < 2 ^ 31 := by decide

theorem sendable_newStackMsg (msgId : UInt32) {size : Nat} (h : sizeofMsgHdr + size ≤ limit.toNat) :
    Sendable host limit (newStackMsg host msgId size) := by
  have hlen : (newStackMsg host msgId size).length = sizeofMsgHdr + size := by
    rw [newStackMsg, List.length_append, MsgHdr.store_length, List.length_replicate]
  refine ⟨by omega, hlen ▸ h, ?_, ?_⟩
  · rw [newStackMsg, MsgHdr.load_store]
  · rw [newStackMsg, MsgHdr.load_store]

end Encoded

end BabelTrader
