import BabelTrader.Proof.Segmentation
import BabelTrader.Proof.Sending

/-!
# What is left in the header of a message

The encoder writes over most of a header, but not over the two reserved flags, which the decoder
wants to be zero. What a caller has left there goes onto the wire, and a peer turns the frame away.
-/

namespace BabelTrader

open WhileLoop Framing BytesBuffer BytesToMsgDecoder

/-! ### Messages that differ in their headers -/

/-- The two flags that no encoder writes are zero. -/
structure MsgHdr.Unreserved (hdr : MsgHdr) : Prop where
  reversed1 : hdr.flags flagReversed1 = 0
  reversed2 : hdr.flags flagReversed2 = 0

section Encoded

variable {host : Host} {limit : UInt32} {data₁ data₂ msg : Bytes}

theorem encoded_eq (h₁ : (MsgHdr.load host data₁).Unreserved)
    (h₂ : (MsgHdr.load host data₂).Unreserved)
    (hmsgId : (MsgHdr.load host data₁).msgId = (MsgHdr.load host data₂).msgId)
    (hlen : data₁.length = data₂.length)
    (hpayload : data₁.drop sizeofMsgHdr = data₂.drop sizeofMsgHdr) :
    encoded host data₁ = encoded host data₂ := by
  have hflags : ((MsgHdr.load host data₁).stamp host (UInt32.ofNat data₂.length)).flags
      = ((MsgHdr.load host data₂).stamp host (UInt32.ofNat data₂.length)).flags := by
    funext i
    fin_cases i
    · rfl
    · rfl
    · exact h₁.reversed1.trans h₂.reversed1.symm
    · exact h₁.reversed2.trans h₂.reversed2.symm
  have hstamp : (MsgHdr.load host data₁).stamp host (UInt32.ofNat data₂.length)
      = (MsgHdr.load host data₂).stamp host (UInt32.ofNat data₂.length) := by
    rw [MsgHdr.mk.injEq]
    exact ⟨rfl, hflags, hmsgId, rfl⟩
  rw [encoded, encoded, stamp, stamp, hlen, hstamp, hpayload]

theorem front_encoded_bad (hle : msg.length ≤ limit.toNat)
    (hnot : ¬ (MsgHdr.load host msg).Unreserved) {xs : Bytes}
    (hxs : xs <+: (encoded host msg).data) (hheader : sizeofMsgHdr ≤ xs.length) :
    front host limit xs = .bad := by
  obtain ⟨tail, hxs⟩ := hxs
  rw [front_eq_bad_iff]
  refine ⟨hheader, Option.ne_none_iff_exists'.mp ?_⟩
  rw [← MsgHdr.load_append host tail hheader, hxs]
  intro hcheck
  obtain ⟨h1, h2⟩ := (checkHeader_encoded_iff hle).mp hcheck
  exact hnot ⟨h1, h2⟩

end Encoded

/-! ### Peers that are sent one frame -/

/-- Runs of a peer of one byte order, one limit and its own socket, receive unit and buffer, whose
handlers never refuse. -/
structure PeerRun (host : Host) (limit : UInt32) {β ε : Type} [BytesBuffer β]
    (d : BytesToMsgDecoder ε) (m : Methods ε) (rets : List Bool) (t : Session β ε) : Prop where
  limit : d.msgLenLimit = limit
  unit : d.recvUnitSize.toNat < 2 ^ 31
  never : d.NeverRefuses m
  calls : ∃ s : Session β ε, s.Fresh ∧ Calls host d m s rets t

/-- No peer rejects a beginning of the frame, each peer that has got the whole frame has passed it
on, and some peer gets the whole frame. -/
structure Delivered (host : Host) (limit : UInt32) (frame : Frame) : Prop where
  accepted : ∀ {β ε : Type} [BytesBuffer β] [FifoContract β] {d : BytesToMsgDecoder ε}
    {m : Methods ε} {rets : List Bool} {t : Session β ε}, PeerRun host limit d m rets t →
    t.received <+: frame.data → rets.getLast? ≠ some false
      ∧ (t.received = frame.data → t.passed = [frame] ∧ t.Holds [])
  arrives : ∃ (capacity : Nat) (d : BytesToMsgDecoder ScriptedPeer) (m : Methods ScriptedPeer)
    (rets : List Bool) (t : Session (FlatBuffer capacity) ScriptedPeer),
    PeerRun host limit d m rets t ∧ t.received = frame.data

section Peers

variable {host : Host} {limit : UInt32} {frame : Frame}

theorem delivered_accepted (hwhole : Whole (front host limit) frame.data)
    (hdatalen : frame.data.length = frame.datalen.toNat) {β ε : Type} [BytesBuffer β]
    [FifoContract β] {d : BytesToMsgDecoder ε} {m : Methods ε} {rets : List Bool} {t : Session β ε}
    (hrun : PeerRun host limit d m rets t) (hpre : t.received <+: frame.data) :
    rets.getLast? ≠ some false
      ∧ (t.received = frame.data → t.passed = [frame] ∧ t.Holds []) := by
  obtain ⟨rfl, hunit, hnever, s, hs, hcalls⟩ := hrun
  obtain ⟨hframed, xs, hxs⟩ := hcalls.framed hunit hs
  have hstable := front_stable host d.msgLenLimit
  have hfront := hcalls.front_unread hunit hnever hs
  have hstuck := hcalls.stuck hunit hnever hs
  have hwholes : ∀ f ∈ [frame.data], Whole (front host d.msgLenLimit) f :=
    List.forall_mem_singleton.mpr hwhole
  obtain ⟨rest, hcuts, hmore, _⟩ := cuts_within hstable hwholes
    (show t.received <+: [frame.data].flatten by rwa [List.flatten_singleton])
  obtain ⟨_, rfl⟩ := hframed.cuts.unique hstuck hcuts (stuck_of_more hmore)
  refine ⟨?_, ?_⟩
  · intro hlast
    rw [if_pos hlast, hmore] at hfront
    cases hfront
  · intro hall
    have hflat := cuts_flatten hstable hwholes
    rw [List.flatten_singleton, ← hall] at hflat
    obtain ⟨hdata, hnil⟩ := hframed.cuts.unique hstuck hflat (stuck_of_more hstable.nil)
    rw [hxs.unread_eq] at hnil
    refine ⟨?_, hnil ▸ hxs⟩
    rw [hframed.passed_eq, hdata, hall, List.map_singleton, ← Frame.eq_ofData hdatalen]

theorem getLast_of_bad (hbad : ∀ xs, xs <+: frame.data → sizeofMsgHdr ≤ xs.length →
      front host limit xs = .bad) {β ε : Type} [BytesBuffer β] [FifoContract β]
    {d : BytesToMsgDecoder ε} {m : Methods ε} {rets : List Bool} {t : Session β ε}
    (hrun : PeerRun host limit d m rets t) (hpre : t.received <+: frame.data)
    (hheader : sizeofMsgHdr ≤ t.received.length) : rets.getLast? = some false := by
  obtain ⟨rfl, hunit, hnever, s, hs, hcalls⟩ := hrun
  have hfront := hcalls.front_unread hunit hnever hs
  have hreceived := hbad t.received hpre hheader
  obtain ⟨_, hunread⟩ := (hcalls.framed hunit hs).1.cuts.unique (hcalls.stuck hunit hnever hs)
    (.stop t.received) (stuck_of_bad hreceived)
  rw [hunread, hreceived] at hfront
  by_contra hlast
  rw [if_neg hlast] at hfront
  cases hfront

structure Session.Got {β : Type} (wire : Bytes) (s : Session β ScriptedPeer) : Prop where
  received : s.received = wire
  sent : s.env.wire = []

theorem preserved_got {β : Type} [BytesBuffer β] {wire : Bytes} {d : BytesToMsgDecoder ScriptedPeer}
    (h : d.next_ = none) (accepts : Frame → Bool) :
    Preserved host d (ScriptedPeer.methods accepts) (Session.Got (β := β) wire) where
  takesIn {s s' xs} hs _ htakes := by
    have hread := (ScriptedPeer.delivers h accepts).read s.env d.recvUnitSize.toNat
    rw [hs.sent, List.append_eq_nil_iff] at hread
    refine ⟨?_, ?_⟩
    · rw [htakes.received, hread.1, List.append_nil, hs.received]
    · rw [htakes.env, hread.2]
  handsOver {s s' xs frame} hs _ hhands := by
    have hnext := (ScriptedPeer.delivers h accepts).next s.env frame
    exact ⟨hhands.received.trans hs.received, by rw [hhands.env, hnext, hs.sent]⟩

/-- One pass takes in all of a wire that is there in one piece, whether or not another pass
follows. -/
theorem exists_got (host : Host) {wire : Bytes} {capacity : Nat}
    {d : BytesToMsgDecoder ScriptedPeer}
    (hcapacity : capacity < 2 ^ 31) (hnext : d.next_ = none)
    (hroom : d.recvUnitSize.toNat ≤ capacity) (hpos : 0 < wire.length)
    (hfit : wire.length ≤ d.recvUnitSize.toNat) :
    ∃ t, Ends (d.readPass (ScriptedPeer.methods fun _ => true))
        (ScriptedPeer.connect ⟨wire, [wire.length]⟩ capacity hcapacity) t
      ∧ (t.Framed host d.msgLenLimit ∧ t.Got wire) ∧ ∃ xs, t.Holds xs := by
  let m := ScriptedPeer.methods fun _ => true
  let s := ScriptedPeer.connect ⟨wire, [wire.length]⟩ capacity hcapacity
  have hunit : d.recvUnitSize.toNat < 2 ^ 31 := Nat.lt_of_le_of_lt hroom hcapacity
  have hs : s.Fresh := ScriptedPeer.fresh_connect _ _
  obtain ⟨⟨buf, hbuf, hfull⟩, _⟩ | ⟨u, htakes, hpass⟩ := readPass_cases (m := m) hunit hs.holds
  · obtain rfl := Option.some.inj hbuf
    refine absurd hfull (FlatBuffer.writerFc_ne_none _ ?_)
    rwa [FlatBuffer.contents_init, List.length_nil, Nat.zero_add]
  · have hsent := ScriptedPeer.stored_append_wire ⟨wire, [wire.length]⟩ d.recvUnitSize.toNat
    have hnone := ScriptedPeer.wire_read_whole hpos (Nat.lt_of_le_of_lt hfit hunit) hfit
    rw [hnone, List.append_nil] at hsent
    have hframed : u.Framed host d.msgLenLimit :=
      preserved_framed.takesIn hs.toUnused.framed hs.holds htakes
    have hgot : u.Got wire := by
      refine ⟨?_, ?_⟩
      · rw [htakes.received]
        exact hsent
      · rw [htakes.env]
        exact hnone
    by_cases hlast : (m.read s.env d.recvUnitSize.toNat).1.count < d.recvUnitSize.toNat
    · rw [if_pos hlast] at hpass
      exact ⟨u, .of_leave hpass, ⟨hframed, hgot⟩, htakes.hasBuffer⟩
    · rw [if_neg hlast] at hpass
      obtain ⟨t, hends⟩ := readPass_ends (m := m) hunit htakes.holds
      refine ⟨t, (ends_again_iff hpass).mpr hends, ?_⟩
      exact (preserved_framed.and (preserved_got hnext _)).readEnds hunit
        ⟨⟨hframed, hgot⟩, htakes.hasBuffer⟩ hends

/-- **A peer that gets everything.** Bytes that fit a receive unit, and on which the parse loop
ends, are received whole by a peer that has them in one piece. -/
theorem exists_peerRun {wire : Bytes} {capacity : Nat} {d : BytesToMsgDecoder ScriptedPeer}
    (hcapacity : capacity < 2 ^ 31) (hnext : d.next_ = none)
    (hroom : d.recvUnitSize.toNat ≤ capacity) (hpos : 0 < wire.length)
    (hfit : wire.length ≤ d.recvUnitSize.toNat)
    (hends : ∀ frames rest, Cuts (front host d.msgLenLimit) wire frames rest →
      front host d.msgLenLimit rest ≠ .frame 0) :
    ∃ (rets : List Bool) (t : Session (FlatBuffer capacity) ScriptedPeer),
      PeerRun host d.msgLenLimit d (ScriptedPeer.methods fun _ => true) rets t
        ∧ t.received = wire := by
  have hboth : Preserved host d (ScriptedPeer.methods fun _ => true)
      fun t : Session (FlatBuffer capacity) ScriptedPeer =>
        t.Framed host d.msgLenLimit ∧ t.Got wire := preserved_framed.and (preserved_got hnext _)
  obtain ⟨t, hread, ht⟩ := exists_got host hcapacity hnext hroom hpos hfit
  have hempty {v : Session (FlatBuffer capacity) ScriptedPeer} {ys : Bytes}
      (hv : v.Framed host d.msgLenLimit ∧ v.Got wire) (hys : v.Holds ys) :
      front host d.msgLenLimit ys ≠ .frame 0 := by
    have hcuts := hv.1.cuts
    rw [hv.2.received, hys.unread_eq] at hcuts
    exact hends _ ys hcuts
  obtain ⟨⟨exit, u⟩, hparse⟩ := parsePass_ends ht hboth.handsOver hempty
  have hdecodes := (decodes_iff rfl).mpr ⟨t, hread, hparse⟩
  obtain ⟨⟨_, hu⟩, _⟩ := hboth.parseEnds ht hparse
  exact ⟨_, u, ⟨rfl, Nat.lt_of_le_of_lt hroom hcapacity, ScriptedPeer.neverRefuses hnext, _,
    ScriptedPeer.fresh_connect _ _, .call .none hdecodes⟩, hu.received⟩

theorem preserved_short {β ε : Type} [BytesBuffer β] [FifoContract β] {d : BytesToMsgDecoder ε}
    {m : Methods ε} : Preserved host d m
      fun t : Session β ε => ∀ f ∈ t.passed, f.data.length < 2 ^ 31 := by
  apply preserved_forall_passed
  intro s s' xs f hxs hhands
  have hle := (front_stable host d.msgLenLimit).length hhands.front
  exact Nat.lt_of_le_of_lt hle hxs.length_lt

/-- **One message.** An encoded message within a peer's limit is delivered iff it fits an `int` and
its caller has left the two reserved flags at zero. -/
theorem delivered_encoded_iff {msg : Bytes} (hheader : sizeofMsgHdr ≤ msg.length)
    (hlimit : msg.length ≤ limit.toNat) :
    Delivered host limit (encoded host msg)
      ↔ msg.length < 2 ^ 31 ∧ (MsgHdr.load host msg).Unreserved := by
  have hlen := length_encoded host hheader
  constructor
  · intro hdelivered
    obtain ⟨capacity, d, m, rets, t, hrun, hreceived⟩ := hdelivered.arrives
    have hpre : t.received <+: (encoded host msg).data := hreceived ▸ List.prefix_refl _
    obtain ⟨hlast, hall⟩ := hdelivered.accepted hrun hpre
    refine ⟨?_, ?_⟩
    · obtain ⟨_, hunit, _, s, hs, hcalls⟩ := hrun
      obtain ⟨hshort, _⟩ := hcalls.preserves preserved_short hunit
        (by rw [hs.passed]; simp) ⟨[], hs.holds⟩
      have hmem : encoded host msg ∈ t.passed := by
        rw [(hall hreceived).1]
        exact List.mem_singleton_self _
      exact hlen ▸ hshort _ hmem
    · by_contra hnot
      refine hlast (getLast_of_bad (fun xs => front_encoded_bad hlimit hnot) hrun hpre ?_)
      rwa [hreceived, hlen]
  · rintro ⟨hlt, hunreserved⟩
    have hsendable : Sendable host limit msg :=
      ⟨hheader, hlimit, hunreserved.reversed1, hunreserved.reversed2⟩
    refine ⟨delivered_accepted hsendable.whole hsendable.wellFormed.length_eq, ?_⟩
    have hunit : (ScriptedPeer.decoder 0x7FFFFFFF limit).recvUnitSize.toNat = 2 ^ 31 - 1 := by
      rw [ScriptedPeer.recvUnitSize_decoder (by decide)]
      rfl
    have hwhole : ∀ f ∈ [(encoded host msg).data], Whole (front host limit) f :=
      List.forall_mem_singleton.mpr hsendable.whole
    refine ⟨2 ^ 31 - 1, ScriptedPeer.decoder 0x7FFFFFFF limit, _,
      exists_peerRun (by decide) rfl hunit.le (hlen ▸ Nat.lt_of_lt_of_le (by decide) hheader)
        (by omega) ?_⟩
    intro frames rest hcuts hzero
    have hmem := hcuts.take_mem (front_stable host limit) hwhole
      (by rw [List.flatten_singleton]) hzero
    rw [List.take_zero, List.mem_singleton] at hmem
    rw [← hmem] at hlen
    rw [← hlen] at hheader
    cases hheader

end Peers

/-! ### Two messages that differ in what their callers left in the headers -/

instance : SocketContext (List Frame) where
  write ctx data datalen := (MachineWord.toInt datalen, ctx ++ [⟨data, datalen⟩])
  shutdown ctx := ctx

theorem onWrite_recorded (data : Bytes) (datalen : UInt32) :
    (Session.onWrite ([] : List Frame) data datalen).2 = [⟨data, datalen⟩] := by
  simp [Session.onWrite, SocketContext.write]

/-- **What may be left in a header.** For two messages with one id and one payload, there is one
frame that every socket is given for both, that every peer within whose limit it is accepts and
passes on, and that has this id and this payload, iff it fits an `int` and both callers have left
the two reserved flags at zero. -/
theorem one_frame_delivered_iff (host : Host) (limit : UInt32) (data₁ data₂ : Bytes)
    (hheader₁ : sizeofMsgHdr ≤ data₁.length) (hheader₂ : sizeofMsgHdr ≤ data₂.length)
    (hlimit : data₁.length ≤ limit.toNat)
    (hmsgId : (MsgHdr.load host data₁).msgId = (MsgHdr.load host data₂).msgId)
    (hpayload : data₁.drop sizeofMsgHdr = data₂.drop sizeofMsgHdr) :
    (∃ frame : Frame,
        (∀ (κ : Type) [SocketContext κ] (ctx : κ),
          Session.sendMessage (Session.encoderChain host) ctx data₁ (UInt32.ofNat data₁.length)
              = Session.onWrite ctx frame.data frame.datalen
            ∧ Session.sendMessage (Session.encoderChain host) ctx data₂ (UInt32.ofNat data₂.length)
              = Session.onWrite ctx frame.data frame.datalen)
          ∧ Delivered host limit frame
          ∧ (MsgHdr.load host frame.data).msgId = (MsgHdr.load host data₁).msgId
          ∧ frame.data.drop sizeofMsgHdr = data₁.drop sizeofMsgHdr)
      ↔ data₁.length < 2 ^ 31 ∧ (MsgHdr.load host data₁).Unreserved
        ∧ (MsgHdr.load host data₂).Unreserved := by
  have hlen : data₁.length = data₂.length := by
    have hdrop := congrArg List.length hpayload
    rw [List.length_drop, List.length_drop] at hdrop
    omega
  constructor
  · rintro ⟨frame, hsame, hdelivered, _⟩
    obtain ⟨hsame₁, hsame₂⟩ := hsame (List Frame) []
    have hframe {data : Bytes}
        (h : Session.sendMessage (Session.encoderChain host) ([] : List Frame) data
          (UInt32.ofNat data.length) = Session.onWrite [] frame.data frame.datalen) :
        encoded host data = frame := by
      rw [Session.sendMessage_eq] at h
      have hrecorded := congrArg Prod.snd h
      rw [onWrite_recorded, onWrite_recorded] at hrecorded
      exact List.singleton_inj.mp hrecorded
    obtain ⟨hlt, hunreserved₁⟩ :=
      (delivered_encoded_iff hheader₁ hlimit).mp (hframe hsame₁ ▸ hdelivered)
    obtain ⟨_, hunreserved₂⟩ :=
      (delivered_encoded_iff hheader₂ (hlen ▸ hlimit)).mp (hframe hsame₂ ▸ hdelivered)
    exact ⟨hlt, hunreserved₁, hunreserved₂⟩
  · rintro ⟨hlt, hunreserved₁, hunreserved₂⟩
    have heq := encoded_eq hunreserved₁ hunreserved₂ hmsgId hlen hpayload
    refine ⟨encoded host data₁, ?_,
      (delivered_encoded_iff hheader₁ hlimit).mpr ⟨hlt, hunreserved₁⟩, ?_, ?_⟩
    · intro κ _ ctx
      exact ⟨Session.sendMessage_eq ctx data₁, heq ▸ Session.sendMessage_eq ctx data₂⟩
    · rw [encoded, load_stamp]
      rfl
    · rw [encoded, drop_stamp]

theorem one_frame_delivered_iff_script :
    let data₁ := newStackMsg Host.little 3 0
    let data₂ := MsgHdr.store Host.little ⟨fun _ => 9, ![7, 7, 0, 0], 3, 5⟩
    ∃ frame : Frame, Delivered Host.little 64 frame
      ∧ frame.data.drop sizeofMsgHdr = data₁.drop sizeofMsgHdr
      ∧ ∀ (κ : Type) [SocketContext κ] (ctx : κ),
        Session.sendMessage (Session.encoderChain Host.little) ctx data₂ (UInt32.ofNat data₂.length)
          = Session.onWrite ctx frame.data frame.datalen := by
  intro data₁ data₂
  obtain ⟨frame, hsame, hdelivered, _, hpayload⟩ :=
    (one_frame_delivered_iff Host.little 64 data₁ data₂
      (by decide) (by decide) (by decide) (by decide +kernel) (by decide +kernel)).mpr
      ⟨by decide, ⟨by decide +kernel, by decide +kernel⟩, ⟨by decide +kernel, by decide +kernel⟩⟩
  exact ⟨frame, hdelivered, hpayload, fun κ _ ctx => (hsame κ ctx).2⟩

/-- With a reserved flag left at seven, the same message goes out as other bytes, and is rejected.
-/
theorem stale_flag_rejected :
    let data₁ := newStackMsg Host.little 3 0
    let data₂ := MsgHdr.store Host.little ⟨fun _ => 0, ![0, 0, 7, 0], 3, 0⟩
    let frame := encoded Host.little data₂
    let d := ScriptedPeer.decoder 64 64
    let m := ScriptedPeer.methods fun _ => true
    let s := ScriptedPeer.connect ⟨frame.data, [16]⟩ 64 (by decide)
    (MsgHdr.load Host.little data₁).msgId = (MsgHdr.load Host.little data₂).msgId
      ∧ data₁.drop sizeofMsgHdr = data₂.drop sizeofMsgHdr
      ∧ encoded Host.little data₁ ≠ frame
      ∧ ∃ t, Calls Host.little d m s [false] t ∧ t.received = frame.data ∧ t.passed = [] := by
  intro data₁ data₂ frame d m s
  refine ⟨by decide +kernel, by decide +kernel, by decide +kernel, ?_⟩
  have hrun : (d.decodeTimes Host.little m 1 s 1).map (fun r => (r.1, r.2.received, r.2.passed))
      = some ([false], frame.data, []) := by decide +kernel
  obtain ⟨⟨_, t⟩, heval, hr⟩ := Option.map_eq_some_iff.mp hrun
  obtain ⟨rfl, hstate⟩ := Prod.mk.inj hr
  obtain ⟨hreceived, hpassed⟩ := Prod.mk.inj hstate
  exact ⟨t, calls_of_decodeTimes heval, hreceived, hpassed⟩

end BabelTrader
