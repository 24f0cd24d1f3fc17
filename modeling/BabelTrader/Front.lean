import BabelTrader.BytesToMsgDecoder
import BabelTrader.Library.Framing

/-!
# The framing rule

What `Decode` makes of the bytes at the front of a buffer depends on these bytes and the limit only.
Read off as a framing rule it is stable, so everything the library says about cutting streams
applies to it. The length of a frame is the 32-bit `totalBytes` of the code, which is the header's
size plus the announced payload only as long as that sum does not wrap around.
-/

namespace BabelTrader

open MachineWord Framing

/-- The framing rule of `Decode`. -/
def front (host : Host) (msgLenLimit : UInt32) (bytes : Bytes) : Front :=
  if bytes.length < sizeofMsgHdr then .more
  else
    let hdr := MsgHdr.load host bytes
    match checkHeader host msgLenLimit hdr with
    | some _ => .bad
    | none =>
        if bytes.length < hdr.totalBytes.toNat then .more else .frame hdr.totalBytes.toNat

/-- The header carries the marks of this protocol, written on a machine like `host`. -/
structure MsgHdr.Marked (host : Host) (hdr : MsgHdr) : Prop where
  magic : hdr.magic = magicWord
  endian : hdr.flags flagEndian = host.muggleEndianness
  version : hdr.flags flagVer = protocolVersion
  reversed1 : hdr.flags flagReversed1 = 0
  reversed2 : hdr.flags flagReversed2 = 0

/-- What a handler relies on. The length is taken in the unbounded integers. -/
structure Frame.WellFormed (host : Host) (limit : UInt32) (frame : Frame) : Prop where
  length_eq : frame.data.length = frame.datalen.toNat
  header : sizeofMsgHdr ≤ frame.datalen.toNat
  marked : (MsgHdr.load host frame.data).Marked host
  datalen : frame.datalen.toNat = sizeofMsgHdr + (MsgHdr.load host frame.data).payloadLen.toNat
  limit : 0 < limit → frame.datalen ≤ limit

structure MsgHdr.Acceptable (host : Host) (limit : UInt32) (hdr : MsgHdr) : Prop where
  marked : hdr.Marked host
  limit : 0 < limit → sizeofMsgHdr + hdr.payloadLen.toNat ≤ limit.toNat

theorem checkHeader_eq_none_iff {host : Host} {limit : UInt32} {hdr : MsgHdr} :
    checkHeader host limit hdr = none
      ↔ hdr.Marked host ∧ (0 < limit → hdr.totalBytes ≤ limit) := by
  have hmagic : load32 host.byteOrder hdr.magic = load32 host.byteOrder magicWord
      ↔ hdr.magic = magicWord := (load32_injective host.byteOrder).eq_iff
  simp only [checkHeader, ne_eq, hmagic]
  constructor
  · intro hnone
    -- a check that fails ends the chain with its own answer
    by_cases hword : ¬ hdr.magic = magicWord
    · rw [if_pos hword] at hnone
      cases hnone
    rw [if_neg hword] at hnone
    by_cases hendian : ¬ hdr.flags flagEndian = host.muggleEndianness
    · rw [if_pos hendian] at hnone
      cases hnone
    rw [if_neg hendian] at hnone
    by_cases hversion : ¬ hdr.flags flagVer = protocolVersion
    · rw [if_pos hversion] at hnone
      cases hnone
    rw [if_neg hversion] at hnone
    by_cases hreversed1 : ¬ hdr.flags flagReversed1 = 0
    · rw [if_pos hreversed1] at hnone
      cases hnone
    rw [if_neg hreversed1] at hnone
    by_cases hreversed2 : ¬ hdr.flags flagReversed2 = 0
    · rw [if_pos hreversed2] at hnone
      cases hnone
    rw [if_neg hreversed2] at hnone
    refine ⟨⟨not_not.mp hword, not_not.mp hendian, not_not.mp hversion, not_not.mp hreversed1,
      not_not.mp hreversed2⟩, ?_⟩
    intro hlimit
    rw [if_pos hlimit] at hnone
    apply UInt32.not_lt.mp
    intro hlong
    rw [if_pos hlong] at hnone
    cases hnone
  · rintro ⟨hmarked, hle⟩
    rw [if_neg (not_not.mpr hmarked.magic), if_neg (not_not.mpr hmarked.endian),
      if_neg (not_not.mpr hmarked.version), if_neg (not_not.mpr hmarked.reversed1),
      if_neg (not_not.mpr hmarked.reversed2)]
    by_cases hlimit : 0 < limit
    · rw [if_pos hlimit, if_neg (UInt32.not_lt.mpr (hle hlimit))]
    · rw [if_neg hlimit]

theorem MsgHdr.toNat_totalBytes (hdr : MsgHdr) :
    hdr.totalBytes.toNat = (sizeofMsgHdr + hdr.payloadLen.toNat) % 2 ^ 32 := by
  rw [totalBytes, UInt32.toNat_add]
  rfl

theorem MsgHdr.toNat_totalBytes_of_lt {hdr : MsgHdr}
    (h : sizeofMsgHdr + hdr.payloadLen.toNat < 2 ^ 32) :
    hdr.totalBytes.toNat = sizeofMsgHdr + hdr.payloadLen.toNat := by
  rw [toNat_totalBytes, Nat.mod_eq_of_lt h]

section Cases

variable {host : Host} {limit : UInt32} {bytes : Bytes}

theorem front_short (h : bytes.length < sizeofMsgHdr) : front host limit bytes = .more := by
  rw [front, if_pos h]

theorem front_rejected {why : Reject} (h : sizeofMsgHdr ≤ bytes.length)
    (hcheck : checkHeader host limit (MsgHdr.load host bytes) = some why) :
    front host limit bytes = .bad := by
  rw [front, if_neg (by omega)]
  simp only [hcheck]

theorem front_accepted (h : sizeofMsgHdr ≤ bytes.length)
    (hcheck : checkHeader host limit (MsgHdr.load host bytes) = none) :
    front host limit bytes
      = if bytes.length < (MsgHdr.load host bytes).totalBytes.toNat then .more
        else .frame (MsgHdr.load host bytes).totalBytes.toNat := by
  rw [front, if_neg (by omega)]
  simp only [hcheck]

theorem front_eq_bad_iff :
    front host limit bytes = .bad
      ↔ sizeofMsgHdr ≤ bytes.length
        ∧ ∃ why, checkHeader host limit (MsgHdr.load host bytes) = some why := by
  constructor
  · intro hbad
    by_cases h : bytes.length < sizeofMsgHdr
    · rw [front_short h] at hbad
      cases hbad
    · refine ⟨by omega, ?_⟩
      cases hcheck : checkHeader host limit (MsgHdr.load host bytes) with
      | some why => exact ⟨why, rfl⟩
      | none =>
          rw [front_accepted (by omega) hcheck] at hbad
          split at hbad <;> cases hbad
  · rintro ⟨h, why, hcheck⟩
    exact front_rejected h hcheck

theorem front_eq_frame_iff {len : Nat} :
    front host limit bytes = .frame len
      ↔ sizeofMsgHdr ≤ bytes.length
        ∧ checkHeader host limit (MsgHdr.load host bytes) = none
        ∧ len = (MsgHdr.load host bytes).totalBytes.toNat ∧ len ≤ bytes.length := by
  constructor
  · intro hframe
    by_cases h : bytes.length < sizeofMsgHdr
    · rw [front_short h] at hframe
      cases hframe
    · have hle : sizeofMsgHdr ≤ bytes.length := by omega
      cases hcheck : checkHeader host limit (MsgHdr.load host bytes) with
      | some why =>
          rw [front_rejected hle hcheck] at hframe
          cases hframe
      | none =>
          rw [front_accepted hle hcheck] at hframe
          by_cases hlen : bytes.length < (MsgHdr.load host bytes).totalBytes.toNat
          · rw [if_pos hlen] at hframe
            cases hframe
          · rw [if_neg hlen] at hframe
            cases hframe
            exact ⟨hle, rfl, rfl, Nat.le_of_not_lt hlen⟩
  · rintro ⟨h, hcheck, rfl, hlen⟩
    rw [front_accepted h hcheck, if_neg (by omega)]

theorem front_eq_more_iff :
    front host limit bytes = .more
      ↔ bytes.length < sizeofMsgHdr
        ∨ (sizeofMsgHdr ≤ bytes.length
          ∧ checkHeader host limit (MsgHdr.load host bytes) = none
          ∧ bytes.length < (MsgHdr.load host bytes).totalBytes.toNat) := by
  constructor
  · intro hmore
    by_cases h : bytes.length < sizeofMsgHdr
    · exact Or.inl h
    · have hle : sizeofMsgHdr ≤ bytes.length := by omega
      cases hcheck : checkHeader host limit (MsgHdr.load host bytes) with
      | some why =>
          rw [front_rejected hle hcheck] at hmore
          cases hmore
      | none =>
          rw [front_accepted hle hcheck] at hmore
          by_cases hlen : bytes.length < (MsgHdr.load host bytes).totalBytes.toNat
          · exact Or.inr ⟨hle, rfl, hlen⟩
          · rw [if_neg hlen] at hmore
            cases hmore
  · rintro (h | ⟨h, hcheck, hlen⟩)
    · exact front_short h
    · rw [front_accepted h hcheck, if_pos hlen]

end Cases

/-- The bytes that follow a header change nothing about it, so what `Decode` concludes stands. -/
theorem front_stable (host : Host) (limit : UInt32) : Stable (front host limit) where
  nil := front_short (by decide)
  bad ys hbad := by
    obtain ⟨h, why, hcheck⟩ := front_eq_bad_iff.mp hbad
    refine front_eq_bad_iff.mpr ⟨by rw [List.length_append]; omega, why, ?_⟩
    rwa [MsgHdr.load_append host ys h]
  frame ys hframe := by
    obtain ⟨h, hcheck, hlen, hle⟩ := front_eq_frame_iff.mp hframe
    refine front_eq_frame_iff.mpr ⟨by rw [List.length_append]; omega, ?_, ?_,
      by rw [List.length_append]; omega⟩
    · rwa [MsgHdr.load_append host ys h]
    · rwa [MsgHdr.load_append host ys h]
  length hframe := (front_eq_frame_iff.mp hframe).2.2.2

end BabelTrader
