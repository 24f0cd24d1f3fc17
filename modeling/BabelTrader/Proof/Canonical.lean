import BabelTrader.Proof.Segmentation
import Mathlib.Data.Set.List

/-!
# What is accepted is what is encoded

A frame is its own encoding, byte for byte, unless the length in its header has wrapped around. So a
stream is made of encoded messages exactly when what is passed on and what is left of it are, and
these tell which ones. Between machines whose byte orders differ nothing is accepted at all.
-/

namespace BabelTrader

open MachineWord Framing BytesBuffer BytesToMsgDecoder

/-- A message that, once it is encoded, is accepted by a peer with this limit. -/
structure Accepted (host : Host) (limit : UInt32) (msg : Bytes) : Prop where
  header : sizeofMsgHdr ≤ msg.length
  length : msg.length < 2 ^ 32
  limit : 0 < limit → msg.length ≤ limit.toNat
  reversed1 : (MsgHdr.load host msg).flags flagReversed1 = 0
  reversed2 : (MsgHdr.load host msg).flags flagReversed2 = 0

/-- The bytes that an encoder makes of messages, one after the other. -/
def MsgToBytesEncoder.written (host : Host) (msgs : List Bytes) : Bytes :=
  ((handed host msgs).map Frame.data).flatten

theorem MsgToBytesEncoder.written_eq (host : Host) (msgs : List Bytes) :
    written host msgs = (msgs.map fun msg => (encoded host msg).data).flatten := by
  rw [written, handed_eq, List.map_map]
  rfl

/-! ### One frame -/

section Frame

variable {host : Host} {limit : UInt32} {data msg : Bytes}

/-- A header that passes the checks is left as it is. -/
theorem MsgHdr.Marked.stamp_totalBytes {hdr : MsgHdr} (h : hdr.Marked host) :
    hdr.stamp host hdr.totalBytes = hdr := by
  have hflags : Function.update (Function.update hdr.flags flagEndian host.muggleEndianness)
      flagVer protocolVersion = hdr.flags := by
    rw [← h.endian, Function.update_eq_self, ← h.version, Function.update_eq_self]
  have hpayload : hdr.totalBytes - UInt32.ofNat sizeofMsgHdr = hdr.payloadLen := by
    calc hdr.totalBytes - UInt32.ofNat sizeofMsgHdr
      _ = hdr.payloadLen + UInt32.ofNat sizeofMsgHdr - UInt32.ofNat sizeofMsgHdr := by
        rw [UInt32.add_comm]
        rfl
      _ = hdr.payloadLen := UInt32.add_sub_cancel _ _
  unfold MsgHdr.stamp
  rw [hflags, hpayload, ← h.magic]

theorem whole_front_iff :
    Whole (front host limit) data
      ↔ sizeofMsgHdr ≤ data.length ∧ (MsgHdr.load host data).Marked host
        ∧ (0 < limit → (MsgHdr.load host data).totalBytes ≤ limit)
        ∧ (MsgHdr.load host data).totalBytes.toNat = data.length := by
  unfold Whole
  rw [front_eq_frame_iff, checkHeader_eq_none_iff]
  constructor
  · rintro ⟨hheader, ⟨hmarked, hlimit⟩, hlen, _⟩
    exact ⟨hheader, hmarked, hlimit, hlen.symm⟩
  · rintro ⟨hheader, hmarked, hlimit, hlen⟩
    exact ⟨hheader, ⟨hmarked, hlimit⟩, hlen.symm, Nat.le_refl _⟩

theorem encoded_of_whole (h : Whole (front host limit) data) :
    encoded host data = Frame.ofData data := by
  obtain ⟨hheader, hmarked, _, hlen⟩ := whole_front_iff.mp h
  have htotal : UInt32.ofNat data.length = (MsgHdr.load host data).totalBytes := by
    rw [← hlen, UInt32.ofNat_toNat]
  have hstamp : stamp host data (UInt32.ofNat data.length) = data := by
    calc stamp host data (UInt32.ofNat data.length)
      _ = (MsgHdr.load host data).store host ++ data.drop sizeofMsgHdr := by
        rw [stamp, htotal, hmarked.stamp_totalBytes]
      _ = data := by rw [MsgHdr.store_load host hheader, List.take_append_drop]
  rw [encoded, hstamp, Frame.ofData]

theorem accepted_of_whole (h : Whole (front host limit) data) : Accepted host limit data := by
  obtain ⟨hheader, hmarked, hlimit, hlen⟩ := whole_front_iff.mp h
  refine ⟨hheader, ?_, fun hpos => ?_, hmarked.reversed1, hmarked.reversed2⟩
  · rw [← hlen]
    exact UInt32.toNat_lt _
  · rw [← hlen]
    exact UInt32.le_iff_toNat_le.mp (hlimit hpos)

theorem Sendable.accepted (h : Sendable host limit msg) : Accepted host limit msg where
  header := h.header
  length := Nat.lt_of_le_of_lt h.limit limit.toNat_lt
  limit _ := h.limit
  reversed1 := h.reversed1
  reversed2 := h.reversed2

/-- Without a limit, there is still that of a `uint32_t`. -/
theorem Accepted.sendable (h : Accepted host limit msg) : Sendable host 0xFFFFFFFF msg where
  header := h.header
  limit := Nat.le_of_lt_succ h.length
  reversed1 := h.reversed1
  reversed2 := h.reversed2

theorem Accepted.encoded_eq (h : Accepted host limit msg) :
    encoded host msg = Frame.ofData (encoded host msg).data :=
  Frame.eq_ofData h.sendable.wellFormed.length_eq

theorem Accepted.whole (h : Accepted host limit msg) :
    Whole (front host limit) (encoded host msg).data := by
  obtain ⟨hheader, hmarked, _, hlen⟩ := whole_front_iff.mp h.sendable.whole
  refine whole_front_iff.mpr ⟨hheader, hmarked, fun hpos => ?_, hlen⟩
  apply UInt32.le_iff_toNat_le.mpr
  rw [hlen, length_encoded host h.header]
  exact h.limit hpos

/-- **One frame.** What is one whole frame is what an encoded message can be. -/
theorem whole_iff_encoded :
    Whole (front host limit) data
      ↔ ∃ msg, Accepted host limit msg ∧ (encoded host msg).data = data := by
  constructor
  · intro hwhole
    refine ⟨data, accepted_of_whole hwhole, ?_⟩
    rw [encoded_of_whole hwhole]
    rfl
  · rintro ⟨msg, hmsg, rfl⟩
    exact hmsg.whole

theorem whole_take {xs : Bytes} {len : Nat} (h : front host limit xs = .frame len)
    (hheader : sizeofMsgHdr ≤ (xs.take len).length) :
    Whole (front host limit) (xs.take len) := by
  obtain ⟨_, hcheck, hlen, hle⟩ := front_eq_frame_iff.mp h
  have htake : (xs.take len).length = len := List.length_take_of_le hle
  rw [htake] at hheader
  have hload := MsgHdr.load_take host hheader hle
  unfold Whole
  rw [front_eq_frame_iff, hload, htake]
  exact ⟨hheader, hcheck, hlen, Nat.le_refl len⟩

end Frame

/-! ### A run of calls -/

section Runs

variable {β ε : Type} [BytesBuffer β] {host : Host} {limit : UInt32} {s : Session β ε}

theorem Session.Framed.whole_iff (h : s.Framed host limit) {frame : Frame}
    (hframe : frame ∈ s.passed) :
    Whole (front host limit) frame.data ↔ sizeofMsgHdr ≤ frame.data.length := by
  constructor
  · intro hwhole
    exact (whole_front_iff.mp hwhole).1
  · have hcut (xs : Bytes) (len : Nat) (hfront : front host limit xs = .frame len) :
        sizeofMsgHdr ≤ (xs.take len).length → Whole (front host limit) (xs.take len) :=
      whole_take hfront
    apply h.cuts.forall_frames
      (P := fun data => sizeofMsgHdr ≤ data.length → Whole (front host limit) data) hcut
    exact List.mem_map_of_mem hframe

/-- Encoding a frame again changes nothing iff its length has not wrapped around. -/
theorem Session.Framed.encoded_iff (h : s.Framed host limit) {frame : Frame}
    (hframe : frame ∈ s.passed) :
    encoded host frame.data = frame ↔ sizeofMsgHdr ≤ frame.data.length := by
  constructor
  · intro hencoded
    have hlen := congrArg (fun frame => frame.data.length) hencoded
    simp only [encoded, stamp, List.length_append, MsgHdr.store_length] at hlen
    omega
  · intro hheader
    rw [encoded_of_whole ((h.whole_iff hframe).mpr hheader)]
    exact (Frame.eq_ofData (h.length_eq frame hframe)).symm

/-- Frames whose lengths have not wrapped around are what the encoder makes of some messages. -/
theorem Session.Framed.handed_iff (h : s.Framed host limit) :
    (∀ frame ∈ s.passed, sizeofMsgHdr ≤ frame.data.length)
      ↔ ∃ msgs, (∀ msg ∈ msgs, Accepted host limit msg)
        ∧ s.passed = MsgToBytesEncoder.handed host msgs := by
  constructor
  · intro hheader
    let encode (msg : { msg // Accepted host limit msg }) := encoded host msg.1
    have hrange : ∀ frame ∈ s.passed, frame ∈ Set.range encode := by
      intro frame hframe
      obtain ⟨msg, hmsg, hdata⟩ :=
        whole_iff_encoded.mp ((h.whole_iff hframe).mpr (hheader frame hframe))
      refine ⟨⟨msg, hmsg⟩, ?_⟩
      calc encoded host msg
        _ = Frame.ofData frame.data := by rw [hmsg.encoded_eq, hdata]
        _ = frame := (Frame.eq_ofData (h.length_eq frame hframe)).symm
    obtain ⟨msgs, hmsgs⟩ : s.passed ∈ Set.range (List.map encode) := by
      rw [Set.range_list_map]
      exact hrange
    refine ⟨msgs.map Subtype.val, ?_, ?_⟩
    · intro msg hmsg
      obtain ⟨msg, _, rfl⟩ := List.mem_map.mp hmsg
      exact msg.2
    · rw [MsgToBytesEncoder.handed_eq, List.map_map]
      exact hmsgs.symm
  · rintro ⟨msgs, hmsgs, hpassed⟩ frame hframe
    rw [hpassed, MsgToBytesEncoder.handed_eq] at hframe
    obtain ⟨msg, hmsg, rfl⟩ := List.mem_map.mp hframe
    rw [length_encoded host (hmsgs msg hmsg).header]
    exact (hmsgs msg hmsg).header

/-- Which messages a stream is made of is seen in what has been passed on and in what is left. -/
theorem Session.Framed.received_eq_iff (h : s.Framed host limit) {msgs : List Bytes}
    (hmsgs : ∀ msg ∈ msgs, Accepted host limit msg) :
    s.received = MsgToBytesEncoder.written host msgs
      ↔ ∃ sent rest, msgs = sent ++ rest ∧ s.passed = MsgToBytesEncoder.handed host sent
        ∧ s.unread = MsgToBytesEncoder.written host rest := by
  constructor
  · intro hreceived
    have hwhole : ∀ data ∈ msgs.map fun msg => (encoded host msg).data,
        Whole (front host limit) data := by
      intro data hdata
      obtain ⟨msg, hmsg, rfl⟩ := List.mem_map.mp hdata
      exact (hmsgs msg hmsg).whole
    have hall : s.received ++ [] = (msgs.map fun msg => (encoded host msg).data).flatten ++ [] := by
      rw [hreceived, MsgToBytesEncoder.written_eq]
    obtain ⟨left, hleft, hunread⟩ :=
      h.cuts.of_torn (front_stable host limit) hwhole (Or.inl rfl) hall
    obtain ⟨sent, rest, rfl, hsent, rfl⟩ := List.map_eq_append_iff.mp hleft
    refine ⟨sent, rest, rfl, ?_, ?_⟩
    · rw [h.passed_eq, ← hsent, MsgToBytesEncoder.handed_eq, List.map_map]
      apply List.map_congr_left
      intro msg hmsg
      exact (hmsgs msg (List.mem_append_left _ hmsg)).encoded_eq.symm
    · rwa [List.append_nil, List.append_nil, ← MsgToBytesEncoder.written_eq] at hunread
  · rintro ⟨sent, rest, rfl, hpassed, hunread⟩
    calc s.received
      _ = (s.passed.map Frame.data).flatten ++ s.unread := h.cuts.flatten_append.symm
      _ = MsgToBytesEncoder.written host sent ++ MsgToBytesEncoder.written host rest := by
        rw [hpassed, hunread]
        rfl
      _ = MsgToBytesEncoder.written host (sent ++ rest) := by
        simp only [MsgToBytesEncoder.written_eq, List.map_append, List.flatten_append]

/-- A whole message does not get stuck. -/
theorem eq_nil_of_stuck {msgs : List Bytes} (hmsgs : ∀ msg ∈ msgs, Accepted host limit msg)
    (hstuck : Stuck (front host limit) (MsgToBytesEncoder.written host msgs)) : msgs = [] := by
  cases msgs with
  | nil => rfl
  | cons msg msgs =>
      have hwhole := (hmsgs msg List.mem_cons_self).whole
      rw [MsgToBytesEncoder.written_eq, List.map_cons, List.flatten_cons] at hstuck
      exact absurd ((front_stable host limit).frame _ hwhole) (hstuck _)

variable [FifoContract β] {d : BytesToMsgDecoder ε} {m : Methods ε}

/-- **What is accepted is what is encoded.** After any calls, a frame passed on is its own encoding
unless its length has wrapped around. What has arrived is what the encoder makes of some messages
iff no such frame has been passed on and what is unread is; these are then the messages passed on,
followed by those that are left. None is left when no handler refuses a frame. -/
theorem accepted_iff_encoded {s t : Session β ε} {rets : List Bool}
    (hunit : d.recvUnitSize.toNat < 2 ^ 31) (hs : s.Fresh) (hcalls : Calls host d m s rets t) :
    (∀ frame ∈ t.passed, encoded host frame.data = frame ↔ sizeofMsgHdr ≤ frame.data.length)
      ∧ ((∃ msgs, (∀ msg ∈ msgs, Accepted host d.msgLenLimit msg)
          ∧ t.received = MsgToBytesEncoder.written host msgs)
        ↔ (∀ frame ∈ t.passed, sizeofMsgHdr ≤ frame.data.length)
          ∧ ∃ rest, (∀ msg ∈ rest, Accepted host d.msgLenLimit msg)
            ∧ t.unread = MsgToBytesEncoder.written host rest)
      ∧ (∀ msgs, (∀ msg ∈ msgs, Accepted host d.msgLenLimit msg) →
        (t.received = MsgToBytesEncoder.written host msgs
          ↔ ∃ sent rest, msgs = sent ++ rest ∧ t.passed = MsgToBytesEncoder.handed host sent
            ∧ t.unread = MsgToBytesEncoder.written host rest))
      ∧ (d.NeverRefuses m → ∀ rest, (∀ msg ∈ rest, Accepted host d.msgLenLimit msg) →
        t.unread = MsgToBytesEncoder.written host rest → rest = []) := by
  obtain ⟨hframed, _⟩ := hcalls.framed hunit hs
  refine ⟨fun frame hframe => hframed.encoded_iff hframe, ⟨?_, ?_⟩, fun msgs hmsgs =>
    hframed.received_eq_iff hmsgs, ?_⟩
  · rintro ⟨msgs, hmsgs, hreceived⟩
    obtain ⟨sent, rest, rfl, hpassed, hunread⟩ := (hframed.received_eq_iff hmsgs).mp hreceived
    obtain ⟨hsent, hrest⟩ := List.forall_mem_append.mp hmsgs
    exact ⟨hframed.handed_iff.mpr ⟨sent, hsent, hpassed⟩, rest, hrest, hunread⟩
  · rintro ⟨hheader, rest, hrest, hunread⟩
    obtain ⟨sent, hsent, hpassed⟩ := hframed.handed_iff.mp hheader
    have hmsgs := List.forall_mem_append.mpr ⟨hsent, hrest⟩
    exact ⟨sent ++ rest, hmsgs,
      (hframed.received_eq_iff hmsgs).mpr ⟨sent, rest, rfl, hpassed, hunread⟩⟩
  · intro hnever rest hrest hunread
    have hstuck := hcalls.stuck hunit hnever hs
    rw [hunread] at hstuck
    exact eq_nil_of_stuck hrest hstuck

/-- The first of two messages that come in one piece is refused, and the second one is left. -/
theorem accepted_iff_encoded_script :
    let msg (id : UInt32) := newStackMsg Host.little id 4
    let wire := MsgToBytesEncoder.written Host.little [msg 3, msg 4]
    let d := ScriptedPeer.decoder 16 64
    let m := ScriptedPeer.methods fun frame => frame.data ≠ (encoded Host.little (msg 3)).data
    let s := ScriptedPeer.connect ⟨wire, [16, 16, 8]⟩ 128 (by decide)
    ∃ t, Calls Host.little d m s [false] t ∧ t.passed.length = 1
      ∧ (∀ frame ∈ t.passed, encoded Host.little frame.data = frame)
      ∧ ∃ sent rest, [msg 3, msg 4] = sent ++ rest
        ∧ t.passed = MsgToBytesEncoder.handed Host.little sent
        ∧ t.unread = MsgToBytesEncoder.written Host.little rest := by
  intro msg wire d m s
  have hrun : (d.decodeTimes Host.little m 4 s 1).map
      (fun r => (r.1, r.2.received, r.2.passed.length)) = some ([false], wire, 1) := by
    decide +kernel
  obtain ⟨⟨_, t⟩, heval, hend⟩ := Option.map_eq_some_iff.mp hrun
  simp only [Prod.mk.injEq] at hend
  obtain ⟨rfl, hreceived, hpassed⟩ := hend
  have hcalls := calls_of_decodeTimes heval
  have hmsgs : ∀ msg' ∈ [msg 3, msg 4], Accepted Host.little 64 msg' :=
    List.forall_mem_cons.mpr ⟨(sendable_newStackMsg 3 (by decide)).accepted,
      List.forall_mem_singleton.mpr (sendable_newStackMsg 4 (by decide)).accepted⟩
  obtain ⟨hencoded, hiff, hwhich, _⟩ :=
    accepted_iff_encoded (by decide) (ScriptedPeer.fresh_connect _ _) hcalls
  obtain ⟨hheader, _⟩ := hiff.mp ⟨_, hmsgs, hreceived⟩
  exact ⟨t, hcalls, hpassed, fun frame hframe => (hencoded frame hframe).mpr (hheader frame hframe),
    (hwhich _ hmsgs).mp hreceived⟩

end Runs

/-! ### Machines of different byte orders -/

section Foreign

variable {peer host : Host} {limit : UInt32} {msg xs : Bytes} {msgs : List Bytes}

theorem checkHeader_foreign (hforeign : peer.muggleEndianness ≠ host.muggleEndianness) :
    checkHeader host limit (MsgHdr.load host (encoded peer msg).data) ≠ none := by
  intro hnone
  obtain ⟨hmarked, _⟩ := checkHeader_eq_none_iff.mp hnone
  apply hforeign
  -- flags are bytes, the same on every machine
  calc peer.muggleEndianness
    _ = (MsgHdr.load peer (encoded peer msg).data).flags flagEndian := by
      rw [encoded, load_stamp]
      rfl
    _ = (MsgHdr.load host (encoded peer msg).data).flags flagEndian := rfl
    _ = host.muggleEndianness := hmarked.endian

theorem front_foreign (hforeign : peer.muggleEndianness ≠ host.muggleEndianness)
    (hmsgs : ∀ msg ∈ msgs, sizeofMsgHdr ≤ msg.length)
    (hxs : xs <+: MsgToBytesEncoder.written peer msgs) (hlen : sizeofMsgHdr ≤ xs.length) :
    front host limit xs = .bad := by
  obtain ⟨ys, hys⟩ := hxs
  rw [MsgToBytesEncoder.written, MsgToBytesEncoder.handed_eq] at hys
  cases msgs with
  | nil =>
      have hnil := (List.append_eq_nil_iff.mp hys).1
      rw [hnil] at hlen
      exact absurd hlen (by decide)
  | cons msg msgs =>
      have hmsg := hmsgs msg List.mem_cons_self
      have hload : MsgHdr.load host xs = MsgHdr.load host (encoded peer msg).data := by
        calc MsgHdr.load host xs
          _ = MsgHdr.load host (xs ++ ys) := (MsgHdr.load_append host ys hlen).symm
          _ = MsgHdr.load host (encoded peer msg).data := by
            rw [hys, List.map_cons, List.map_cons, List.flatten_cons]
            apply MsgHdr.load_append
            rwa [length_encoded peer hmsg]
      apply front_eq_bad_iff.mpr
      rw [hload]
      exact ⟨hlen, Option.ne_none_iff_exists'.mp (checkHeader_foreign hforeign)⟩

variable {β ε : Type} [BytesBuffer β] [FifoContract β] {d : BytesToMsgDecoder ε} {m : Methods ε}

/-- **Byte orders.** Whatever a machine sends, one of another byte order passes on nothing of it,
and its `Decode` fails as soon as there is a header. -/
theorem foreign_rejected (hforeign : peer.muggleEndianness ≠ host.muggleEndianness)
    (unsent : ε → Bytes) (msgs : List Bytes) {s t : Session β ε} {rets : List Bool}
    (hunit : d.recvUnitSize.toNat < 2 ^ 31) (hdelivers : Delivers d m unsent)
    (hmsgs : ∀ msg ∈ msgs, sizeofMsgHdr ≤ msg.length) (hs : s.Fresh)
    (hwire : unsent s.env = MsgToBytesEncoder.written peer msgs)
    (hcalls : Calls host d m s rets t) :
    t.passed = [] ∧ t.unread = t.received
      ∧ (rets.getLast? = some false ↔ sizeofMsgHdr ≤ t.received.length) := by
  have hstart : s.Receives unsent (MsgToBytesEncoder.written peer msgs) := by
    unfold Session.Receives
    rw [hs.received, List.nil_append, hwire]
  obtain ⟨hreceives, _⟩ :=
    hcalls.preserves (preserved_receives hdelivers) hunit hstart ⟨[], hs.holds⟩
  have hbegins : t.received <+: MsgToBytesEncoder.written peer msgs := ⟨_, hreceives⟩
  have hfront : front host d.msgLenLimit t.received
      = if sizeofMsgHdr ≤ t.received.length then .bad else .more := by
    split_ifs with hlen
    · exact front_foreign hforeign hmsgs hbegins hlen
    · exact front_short (not_le.mp hlen)
  have hstuck : Stuck (front host d.msgLenLimit) t.received := by
    intro len
    rw [hfront]
    split_ifs <;> exact Front.noConfusion
  obtain ⟨hframed, _⟩ := hcalls.framed hunit hs
  obtain ⟨more, hmore, _⟩ := hframed.cuts.extend (.stop _) hstuck
  have hpassed : t.passed = [] :=
    List.map_eq_nil_iff.mp (List.append_eq_nil_iff.mp hmore.symm).1
  have hunread : t.unread = t.received := by
    have hall := hframed.cuts.flatten_append
    rwa [hpassed, List.map_nil, List.flatten_nil, List.nil_append] at hall
  refine ⟨hpassed, hunread, ?_⟩
  -- a call that ends with a refusal has passed a frame on
  have hverdict := hcalls.front_unread_of_passed hunit hs (by simp [hpassed])
  rw [hunread, hfront] at hverdict
  by_cases hlen : sizeofMsgHdr ≤ t.received.length
  · refine iff_of_true ?_ hlen
    by_contra hlast
    rw [if_pos hlen, if_neg hlast] at hverdict
    cases hverdict
  · refine iff_of_false (fun hlast => ?_) hlen
    rw [if_neg hlen, if_pos hlast] at hverdict
    cases hverdict

/-- Two messages of a machine that stores the high byte first, in three pieces. -/
theorem foreign_rejected_big :
    let msgs := [newStackMsg ⟨.big, 2⟩ 3 4, newStackMsg ⟨.big, 2⟩ 4 0]
    let wire := MsgToBytesEncoder.written ⟨.big, 2⟩ msgs
    let s := ScriptedPeer.connect ⟨wire, [7, 7, 8]⟩ 128 (by decide)
    ∃ t, Calls Host.little (ScriptedPeer.decoder 8 64) (ScriptedPeer.methods fun _ => true) s
        [true, true, false] t
      ∧ t.passed = [] ∧ sizeofMsgHdr ≤ t.received.length := by
  intro msgs wire s
  have hrun : ((ScriptedPeer.decoder 8 64).decodeTimes Host.little
      (ScriptedPeer.methods fun _ => true) 6 s 3).map Prod.fst = some [true, true, false] := by
    decide +kernel
  obtain ⟨⟨_, t⟩, heval, rfl⟩ := Option.map_eq_some_iff.mp hrun
  have hcalls := calls_of_decodeTimes heval
  have hmsgs : ∀ msg ∈ msgs, sizeofMsgHdr ≤ msg.length := by decide
  have hforeign : (⟨.big, 2⟩ : Host).muggleEndianness ≠ Host.little.muggleEndianness := by decide
  obtain ⟨hpassed, _, hlast⟩ := foreign_rejected hforeign ScriptedPeer.wire msgs (by decide)
    (ScriptedPeer.delivers rfl _) hmsgs (ScriptedPeer.fresh_connect _ _) rfl hcalls
  exact ⟨t, hcalls, hpassed, hlast.mp rfl⟩

end Foreign

end BabelTrader
