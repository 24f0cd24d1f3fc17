import BabelTrader.Proof.Decode
import BabelTrader.Proof.RoundTrip
import BabelTrader.ScriptedPeer

/-!
# The frame of length zero

The sum of header and payload is taken in 32 bits. For one payload length, 16 below 2^32, it is
zero: the frame at the front is then empty, it is passed on, nothing is consumed, and the loop finds
it there again. No limit helps, since zero is within any limit.
-/

namespace BabelTrader

open WhileLoop Framing BytesBuffer BytesToMsgDecoder

/-- A header for which 16 and the payload length add up to zero in 32 bits. -/
def emptyPayloadLen : UInt32 := 0xFFFFFFF0

/-- Cutting frames off the front of `xs` can lead to a header that passes the checks and announces a
frame of length zero. -/
def MeetsEmptyFrame (host : Host) (limit : UInt32) (xs : Bytes) : Prop :=
  ∃ frames rest, Cuts (front host limit) xs frames rest
    ∧ sizeofMsgHdr ≤ rest.length
    ∧ checkHeader host limit (MsgHdr.load host rest) = none
    ∧ (MsgHdr.load host rest).payloadLen = emptyPayloadLen

theorem MsgHdr.totalBytes_eq_zero_iff {hdr : MsgHdr} :
    hdr.totalBytes.toNat = 0 ↔ hdr.payloadLen = emptyPayloadLen := by
  have hword := hdr.payloadLen.toNat_lt
  have hempty : emptyPayloadLen.toNat = 2 ^ 32 - 16 := rfl
  rw [toNat_totalBytes, sizeofMsgHdr, ← UInt32.toNat_inj, hempty]
  omega

theorem front_eq_frame_zero_iff {host : Host} {limit : UInt32} {xs : Bytes} :
    front host limit xs = .frame 0
      ↔ sizeofMsgHdr ≤ xs.length ∧ checkHeader host limit (MsgHdr.load host xs) = none
        ∧ (MsgHdr.load host xs).payloadLen = emptyPayloadLen := by
  rw [front_eq_frame_iff, ← MsgHdr.totalBytes_eq_zero_iff]
  constructor
  · rintro ⟨hle, hcheck, hlen, _⟩
    exact ⟨hle, hcheck, hlen.symm⟩
  · rintro ⟨hle, hcheck, hlen⟩
    exact ⟨hle, hcheck, hlen.symm, Nat.zero_le _⟩

theorem meetsEmptyFrame_iff {host : Host} {limit : UInt32} {xs : Bytes} :
    MeetsEmptyFrame host limit xs
      ↔ ∃ frames rest, Cuts (front host limit) xs frames rest
        ∧ front host limit rest = .frame 0 := by
  simp only [MeetsEmptyFrame, front_eq_frame_zero_iff]

/-- The buffer holds what is left of `xs` after some frames have been cut off. -/
def Session.CutFrom {β ε : Type} [BytesBuffer β] (host : Host) (limit : UInt32) (xs : Bytes)
    (s : Session β ε) : Prop :=
  ∃ frames rest, s.Holds rest ∧ Cuts (front host limit) xs frames rest

namespace BytesToMsgDecoder

variable {β ε : Type} [BytesBuffer β] [FifoContract β] {host : Host} {d : BytesToMsgDecoder ε}
  {m : Methods ε} {s s' : Session β ε} {xs ys rest : Bytes} {frames : List Bytes} {len : Nat}
  {frame : Frame}

theorem parsePass_again_of_frame (hnever : d.NeverRefuses m) (hxs : s.Holds xs)
    (hfront : front host d.msgLenLimit xs = .frame len) :
    ∃ s', d.parsePass host m s = .again s' ∧ s'.Holds (xs.drop len) := by
  obtain ⟨frame, s', hhands, rfl, hpass⟩ := parsePass_of_frame (m := m) hxs hfront
  rw [hnever, if_pos rfl] at hpass
  exact ⟨s', hpass, hhands.holds⟩

theorem tops_of_cuts (hnever : d.NeverRefuses m) (hxs : s.Holds xs)
    (hcuts : Cuts (front host d.msgLenLimit) xs frames rest) :
    ∃ t, Tops (d.parsePass host m) s t ∧ t.Holds rest := by
  induction hcuts generalizing s with
  | stop => exact ⟨s, .start, hxs⟩
  | frame hfront _ ih =>
      obtain ⟨s', hpass, hholds⟩ := parsePass_again_of_frame hnever hxs hfront
      obtain ⟨t, htop, ht⟩ := ih hholds
      exact ⟨t, htop.cons hpass, ht⟩

omit [FifoContract β] in
theorem cutFrom_handsOver (hs : s.CutFrom host d.msgLenLimit xs) (hys : s.Holds ys)
    (hhands : HandsOver host d m s ys frame s') : s'.CutFrom host d.msgLenLimit xs := by
  obtain ⟨frames, rest, hrest, hcuts⟩ := hs
  obtain rfl := hys.unique hrest
  exact ⟨_, _, hhands.holds, hcuts.snoc hhands.front⟩

theorem cutFrom_again (hs : s.CutFrom host d.msgLenLimit xs)
    (hagain : d.parsePass host m s = .again s') : s'.CutFrom host d.msgLenLimit xs := by
  obtain ⟨_, ys, hys, _⟩ := id hs
  obtain ⟨frame, hhands, _⟩ := parsePass_again hys hagain
  exact cutFrom_handsOver hs hys hhands

theorem not_ends_of_empty_frame (hnever : d.NeverRefuses m) (hxs : s.Holds xs)
    (hfront : front host d.msgLenLimit xs = .frame 0) (r : Exit × Session β ε) :
    ¬ Ends (d.parsePass host m) s r := by
  -- the empty frame takes nothing away, so the buffer holds `xs` at the top of every pass
  apply not_ends_of_invariant (I := fun t => t.Holds xs) hxs
  intro t ht
  obtain ⟨u, hpass, hu⟩ := parsePass_again_of_frame hnever ht hfront
  exact ⟨u, hpass, hu⟩

/-- **When the parse loop ends.** On a buffer that holds `xs`, with handlers that never refuse, the
loop ends and every pass that calls `Next` makes the buffer shorter, iff no header that is met on
the way announces a frame of length zero. -/
theorem parse_loop_ends_iff (d : BytesToMsgDecoder ε) (m : Methods ε) (s : Session β ε) (xs : Bytes)
    (hnever : d.NeverRefuses m) (hxs : s.Holds xs) :
    ((∃ r, Ends (d.parsePass host m) s r)
        ∧ ∀ t u, Tops (d.parsePass host m) s t → d.parsePass host m t = .again u →
          u.unread.length < t.unread.length)
      ↔ ¬ MeetsEmptyFrame host d.msgLenLimit xs := by
  rw [meetsEmptyFrame_iff]
  constructor
  · rintro ⟨⟨r, hends⟩, _⟩ ⟨frames, rest, hcuts, hfront⟩
    obtain ⟨t, htop, ht⟩ := tops_of_cuts (m := m) hnever hxs hcuts
    exact not_ends_of_empty_frame hnever ht hfront r (htop.ends_iff.mp hends)
  · intro hnone
    have hstart : s.CutFrom host d.msgLenLimit xs := ⟨[], xs, hxs, .stop _⟩
    have hpos {t : Session β ε} {ys : Bytes} (ht : t.CutFrom host d.msgLenLimit xs)
        (hys : t.Holds ys) : front host d.msgLenLimit ys ≠ .frame 0 := by
      obtain ⟨frames, zs, hzs, hcuts⟩ := ht
      obtain rfl := hys.unique hzs
      exact fun hfront => hnone ⟨frames, ys, hcuts, hfront⟩
    refine ⟨parsePass_ends ⟨hstart, xs, hxs⟩ cutFrom_handsOver hpos, ?_⟩
    intro t u htop hagain
    have ht := htop.invariant hstart fun _ _ => cutFrom_again
    obtain ⟨_, ys, hys, _⟩ := id ht
    obtain ⟨frame, hhands, _⟩ := parsePass_again hys hagain
    have hle := (front_stable host d.msgLenLimit).length hhands.front
    have hne : frame.data.length ≠ 0 := fun hzero => hpos ht hys (hzero ▸ hhands.front)
    rw [hys.unread_eq, hhands.holds.unread_eq, List.length_drop]
    omega

end BytesToMsgDecoder

theorem ScriptedPeer.holds_of_run {peer : ScriptedPeer} {capacity passes : Nat} {xs : Bytes}
    (h : capacity < 2 ^ 31) {d : BytesToMsgDecoder ScriptedPeer}
    (hunit : d.recvUnitSize.toNat < 2 ^ 31) {accepts : Frame → Bool}
    (hrun : (run (d.readPass (methods accepts)) passes (peer.connect capacity h)).map Session.unread
      = some xs) :
    ∃ t, Ends (d.readPass (methods accepts)) (peer.connect capacity h) t ∧ t.Holds xs := by
  obtain ⟨t, heval, rfl⟩ := Option.map_eq_some_iff.mp hrun
  have htrue : Preserved Host.little d (methods accepts)
      fun _ : Session (FlatBuffer capacity) ScriptedPeer => True := preserved_true
  obtain ⟨_, ys, hys⟩ := htrue.readEnds hunit ⟨trivial, [], (peer.fresh_connect h).holds⟩
    ⟨passes, heval⟩
  exact ⟨t, ⟨passes, heval⟩, hys.unread_eq ▸ hys⟩

theorem BytesToMsgDecoder.parse_loop_ends_iff_script :
    let msg := (encoded Host.little (newStackMsg Host.little 3 4)).data
    let d := ScriptedPeer.decoder 16 64
    let m := ScriptedPeer.methods fun _ => true
    ∃ t, Ends (d.readPass m) (ScriptedPeer.connect ⟨msg, [16, 4]⟩ 64 (by decide)) t
      ∧ t.Holds msg ∧ ∃ r, Ends (d.parsePass Host.little m) t r := by
  intro msg d m
  obtain ⟨t, hread, hholds⟩ := ScriptedPeer.holds_of_run
    (show 64 < 2 ^ 31 by decide) (show d.recvUnitSize.toNat < 2 ^ 31 by decide)
    (show (run (d.readPass m) 2 (ScriptedPeer.connect ⟨msg, [16, 4]⟩ 64 (by decide))).map
      Session.unread = some msg by decide +kernel)
  have hwhole : ∀ frame ∈ [msg], Whole (front Host.little d.msgLenLimit) frame :=
    List.forall_mem_singleton.mpr (sendable_newStackMsg 3 (by decide)).whole
  have hnone : ¬ MeetsEmptyFrame Host.little d.msgLenLimit msg := by
    rw [meetsEmptyFrame_iff]
    rintro ⟨frames, rest, hcuts, hfront⟩
    have hmem := hcuts.take_mem (front_stable Host.little d.msgLenLimit) hwhole
      (by rw [List.flatten_singleton]) hfront
    rw [List.take_zero, List.mem_singleton] at hmem
    exact absurd hmem (by decide +kernel)
  have hends := (parse_loop_ends_iff d m t msg (ScriptedPeer.neverRefuses rfl) hholds).mpr hnone
  exact ⟨t, hread, hholds, hends.1⟩

/-- One header is enough: `Decode` reads its 16 bytes, and then never returns. -/
theorem empty_frame_hangs :
    let hdr := MsgHdr.store Host.little ⟨magicWord, ![1, 1, 0, 0], 3, 0xFFFFFFF0⟩
    let d := ScriptedPeer.decoder 16 64
    let m := ScriptedPeer.methods fun _ => true
    let s := ScriptedPeer.connect ⟨hdr, [16]⟩ 64 (by decide)
    ¬ ∃ r, Decodes Host.little d m s r := by
  intro hdr d m s hreturns
  obtain ⟨r, hdecodes⟩ := hreturns
  obtain ⟨t, hread, hparse⟩ := (decodes_iff rfl).mp hdecodes
  obtain ⟨u, hread', hholds⟩ := ScriptedPeer.holds_of_run
    (show 64 < 2 ^ 31 by decide) (show d.recvUnitSize.toNat < 2 ^ 31 by decide)
    (show (run (d.readPass m) 2 s).map Session.unread = some hdr by decide +kernel)
  obtain rfl := hread.unique hread'
  have hfront : front Host.little d.msgLenLimit hdr = .frame 0 := by decide +kernel
  exact not_ends_of_empty_frame (ScriptedPeer.neverRefuses rfl) hholds hfront r hparse

end BabelTrader
