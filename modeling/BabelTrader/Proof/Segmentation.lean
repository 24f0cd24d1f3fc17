import BabelTrader.Proof.Framed
import BabelTrader.Proof.RoundTrip
import BabelTrader.ScriptedPeer

/-!
# The pieces in which a stream arrives

Nothing is assumed of a socket but that it gives the bytes of a stream in order: how many it gives
at a time, when it has none, and how often `Decode` is called, are left open. What has been passed
on is then a matter of how much has arrived.
-/

namespace BabelTrader

open Framing BytesBuffer BytesToMsgDecoder

/-- The socket gives the bytes that `unsent` says are still to come, and handlers leave the socket
alone. -/
structure Delivers {ε : Type} (d : BytesToMsgDecoder ε) (m : Methods ε) (unsent : ε → Bytes) :
    Prop where
  read : ∀ env len, (m.read env len).1.stored ++ unsent (m.read env len).2 = unsent env
  next : ∀ env frame, unsent (d.next m env frame).2 = unsent env

theorem ScriptedPeer.delivers {d : BytesToMsgDecoder ScriptedPeer} (h : d.next_ = none)
    (accepts : Frame → Bool) : Delivers d (methods accepts) wire where
  read := stored_append_wire
  next env frame := by simp only [BytesToMsgDecoder.next, h, methods]

section Runs

variable {β ε : Type} [BytesBuffer β] [FifoContract β] {host : Host} {d : BytesToMsgDecoder ε}
  {m : Methods ε} {unsent : ε → Bytes} {stream : Bytes} {msgs : List Bytes} {s t : Session β ε}
  {rets : List Bool}

def Session.Receives (unsent : ε → Bytes) (stream : Bytes) (s : Session β ε) : Prop :=
  s.received ++ unsent s.env = stream

omit [FifoContract β] in
theorem preserved_receives (h : Delivers d m unsent) :
    Preserved host d m (Session.Receives (β := β) unsent stream) where
  takesIn {s s' xs} hs _ htakes := by
    calc s'.received ++ unsent s'.env
      _ = s.received ++ ((m.read s.env d.recvUnitSize.toNat).1.stored
          ++ unsent (m.read s.env d.recvUnitSize.toNat).2) := by
        rw [htakes.received, htakes.env, List.append_assoc]
      _ = s.received ++ unsent s.env := by rw [h.read]
      _ = stream := hs
  handsOver {s s' xs frame} hs _ hhands := by
    calc s'.received ++ unsent s'.env
      _ = s.received ++ unsent s.env := by rw [hhands.received, hhands.env, h.next]
      _ = stream := hs

/-- A run over a stream of encoded messages, in the middle. -/
structure Session.Underway (host : Host) (limit : UInt32) (unsent : ε → Bytes) (msgs : List Bytes)
    (s : Session β ε) : Prop where
  framed : s.Framed host limit
  receives : s.Receives unsent ((msgs.map (encoded host)).map Frame.data).flatten

omit [FifoContract β] in
theorem preserved_underway (h : Delivers d m unsent) :
    Preserved host d m (Session.Underway (β := β) host d.msgLenLimit unsent msgs) :=
  have hreceives := preserved_receives h
  { takesIn := fun hs hxs htakes =>
      ⟨preserved_framed.takesIn hs.framed hxs htakes, hreceives.takesIn hs.receives hxs htakes⟩
    handsOver := fun hs hxs hhands =>
      ⟨preserved_framed.handsOver hs.framed hxs hhands,
        hreceives.handsOver hs.receives hxs hhands⟩ }

omit [FifoContract β] in
theorem Session.Fresh.underway (h : s.Fresh) {limit : UInt32}
    (hstream : unsent s.env = ((msgs.map (encoded host)).map Frame.data).flatten) :
    s.Underway host limit unsent msgs :=
  ⟨h.toUnused.framed, by rw [Session.Receives, h.received, List.nil_append, hstream]⟩

namespace Session.Underway

variable {limit : UInt32}

omit [BytesBuffer β] [FifoContract β] in
theorem whole (hmsgs : ∀ msg ∈ msgs, Sendable host limit msg) :
    ∀ frame ∈ (msgs.map (encoded host)).map Frame.data, Whole (front host limit) frame := by
  intro frame hframe
  obtain ⟨_, hmem, rfl⟩ := List.mem_map.mp hframe
  obtain ⟨msg, hmsg, rfl⟩ := List.mem_map.mp hmem
  exact (hmsgs msg hmsg).whole

omit [FifoContract β] in
theorem received_begins (h : s.Underway host limit unsent msgs) :
    s.received <+: ((msgs.map (encoded host)).map Frame.data).flatten := ⟨_, h.receives⟩

omit [FifoContract β] in
theorem header_le_of_frame (h : s.Underway host limit unsent msgs)
    (hmsgs : ∀ msg ∈ msgs, Sendable host limit msg) {len : Nat}
    (hfront : front host limit s.unread = .frame len) : sizeofMsgHdr ≤ len := by
  have hstable := front_stable host limit
  have hmem := h.framed.cuts.take_mem hstable (whole hmsgs) h.received_begins hfront
  obtain ⟨frame, hframe, hdata⟩ := List.mem_map.mp hmem
  obtain ⟨msg, hmsg, rfl⟩ := List.mem_map.mp hframe
  have hlen := length_encoded host (hmsgs msg hmsg).header
  rw [hdata, List.length_take_of_le (hstable.length hfront)] at hlen
  rw [hlen]
  exact (hmsgs msg hmsg).header

omit [FifoContract β] in
theorem passed_of_data {sent : List Bytes} (h : s.Framed host limit)
    (hsent : ∀ msg ∈ sent, Sendable host limit msg)
    (hdata : s.passed.map Frame.data = (sent.map (encoded host)).map Frame.data) :
    s.passed = sent.map (encoded host) := by
  rw [h.passed_eq, hdata, List.map_map, List.map_map]
  apply List.map_congr_left
  intro msg hmsg
  have hlen : (encoded host msg).data.length = (encoded host msg).datalen.toNat := by
    rw [length_encoded host (hsent msg hmsg).header]
    exact (toNat_ofNat_length (hsent msg hmsg).limit).symm
  exact (Frame.eq_ofData hlen).symm

omit [FifoContract β] in
/-- **The frames passed on.** When nothing more can be cut off the unread bytes, the frames passed
on are the encoded messages that have arrived whole. -/
theorem passed_eq (h : s.Underway host limit unsent msgs)
    (hmsgs : ∀ msg ∈ msgs, Sendable host limit msg) (hstuck : Stuck (front host limit) s.unread) :
    s.passed = (within s.received.length msgs).map (encoded host)
      ∧ front host limit s.unread = .more := by
  obtain ⟨rest, hcuts, hmore, _⟩ :=
    cuts_within (front_stable host limit) (whole hmsgs) h.received_begins
  obtain ⟨hpassed, rfl⟩ := h.framed.cuts.unique hstuck hcuts (stuck_of_more hmore)
  have hlen : ∀ msg ∈ msgs, (encoded host msg).data.length = msg.length :=
    fun msg hmsg => length_encoded host (hmsgs msg hmsg).header
  refine ⟨passed_of_data h.framed (fun msg hmsg => hmsgs msg (mem_of_mem_within hmsg)) ?_, hmore⟩
  rw [hpassed, List.map_map, List.map_map]
  exact within_map hlen _

omit [FifoContract β] in
theorem passed_eq_of_received (h : s.Underway host limit unsent msgs)
    (hmsgs : ∀ msg ∈ msgs, Sendable host limit msg) (hstuck : Stuck (front host limit) s.unread)
    (hall : s.received = ((msgs.map (encoded host)).map Frame.data).flatten) :
    s.passed = msgs.map (encoded host) ∧ s.unread = [] := by
  have hcuts := h.framed.cuts
  rw [hall] at hcuts
  have hstable := front_stable host limit
  obtain ⟨hdata, hnil⟩ :=
    hcuts.unique hstuck (cuts_flatten hstable (whole hmsgs)) (stuck_of_more hstable.nil)
  exact ⟨passed_of_data h.framed hmsgs hdata, hnil⟩

theorem ret_of_decodes {exit : Exit} (h : s.Underway host d.msgLenLimit unsent msgs)
    (hmsgs : ∀ msg ∈ msgs, Sendable host d.msgLenLimit msg) (hunit : d.recvUnitSize.toNat < 2 ^ 31)
    (hnever : d.NeverRefuses m) (hdelivers : Delivers d m unsent) (hbuf : ∃ xs, s.Holds xs)
    (hdecodes : Decodes host d m s (exit, t)) : exit.ret = true := by
  obtain ⟨xs, hxs⟩ := id hbuf
  obtain rfl | ⟨why, rfl⟩ := hdecodes.exit_of_neverRefuses hunit hnever hxs
  · rfl
  · obtain ⟨ht, _⟩ := hdecodes.preserves (preserved_underway hdelivers) hunit h hbuf
    obtain ⟨ys, hys, hbad⟩ := hdecodes.front_of_rejected hunit hxs
    rw [← hys.unread_eq] at hbad
    obtain ⟨_, hmore⟩ := ht.passed_eq hmsgs (stuck_of_bad hbad)
    rw [hbad] at hmore
    cases hmore

end Session.Underway

/-- **Round trip.** Messages that the encoder's caller has prepared arrive as they were sent,
whatever the pieces: after any number of calls the frames passed on are the encoded messages that
have arrived whole, and a further call always returns. -/
theorem encoded_messages_delivered (d : BytesToMsgDecoder ε) (m : Methods ε)
    (unsent : ε → Bytes) (msgs : List Bytes) (s : Session β ε)
    (hunit : d.recvUnitSize.toNat < 2 ^ 31) (hnever : d.NeverRefuses m)
    (hdelivers : Delivers d m unsent) (hmsgs : ∀ msg ∈ msgs, Sendable host d.msgLenLimit msg)
    (hs : s.Fresh)
    (hwire : unsent s.env = ((MsgToBytesEncoder.handed host msgs).map Frame.data).flatten) :
    (∀ n, ∃ t, Calls host d m s (List.replicate n true) t)
      ∧ (∀ rets t, Calls host d m s rets t →
        rets = List.replicate rets.length true
          ∧ t.received <+: unsent s.env
          ∧ t.passed = (within t.received.length msgs).map (encoded host)
          ∧ (t.received = unsent s.env → t.passed = msgs.map (encoded host) ∧ t.Holds []))
      ∧ ∀ msg ∈ msgs, (encoded host msg).datalen.toNat = msg.length
        ∧ (encoded host msg).data.length = msg.length
        ∧ (MsgHdr.load host (encoded host msg).data).msgId = (MsgHdr.load host msg).msgId
        ∧ (encoded host msg).data.drop sizeofMsgHdr = msg.drop sizeofMsgHdr := by
  rw [MsgToBytesEncoder.handed_eq] at hwire
  have hstart : s.Underway host d.msgLenLimit unsent msgs := hs.underway hwire
  have hunderway {rets : List Bool} {t : Session β ε} (h : Calls host d m s rets t) :
      t.Underway host d.msgLenLimit unsent msgs ∧ ∃ xs, t.Holds xs :=
    h.preserves (preserved_underway hdelivers) hunit hstart ⟨[], hs.holds⟩
  have hreturns {rets : List Bool} {t u : Session β ε} {exit : Exit}
      (hcalls : Calls host d m s rets t) (hdecodes : Decodes host d m t (exit, u)) :
      exit.ret = true := by
    obtain ⟨ht, hbuf⟩ := hunderway hcalls
    exact ht.ret_of_decodes hmsgs hunit hnever hdelivers hbuf hdecodes
  refine ⟨?_, ?_, ?_⟩
  · apply exists_calls
    intro rets t hcalls
    obtain ⟨ht, hbuf⟩ := hunderway hcalls
    obtain ⟨exit, u, hdecodes⟩ := exists_decodes (preserved_underway hdelivers) hunit ht hbuf
      fun hu hys hzero => absurd (hu.header_le_of_frame hmsgs (hys.unread_eq ▸ hzero)) (by decide)
    exact ⟨exit, u, hdecodes, hreturns hcalls hdecodes⟩
  · intro rets t hcalls
    obtain ⟨ht, xs, hxs⟩ := hunderway hcalls
    have hstuck := hcalls.stuck hunit hnever hs
    refine ⟨hcalls.rets_eq hreturns, hwire ▸ ht.received_begins, (ht.passed_eq hmsgs hstuck).1, ?_⟩
    intro hall
    obtain ⟨hpassed, hnil⟩ := ht.passed_eq_of_received hmsgs hstuck (hall.trans hwire)
    rw [hxs.unread_eq] at hnil
    exact ⟨hpassed, hnil ▸ hxs⟩
  · intro msg hmsg
    have hsendable := hmsgs msg hmsg
    refine ⟨toNat_ofNat_length hsendable.limit, length_encoded host hsendable.header, ?_, ?_⟩
    · rw [encoded, load_stamp]
      rfl
    · rw [encoded, drop_stamp]

end Runs

/-- Two messages in six pieces, none of which ends where a message does. -/
theorem encoded_messages_delivered_script :
    let msgs := [newStackMsg Host.little 3 0, newStackMsg Host.little 4 5]
    let wire := ((MsgToBytesEncoder.handed Host.little msgs).map Frame.data).flatten
    let s := ScriptedPeer.connect ⟨wire, [8, 7, 8, 8, 3, 8]⟩ 128 (by decide)
    ∃ t, Calls Host.little (ScriptedPeer.decoder 8 64) (ScriptedPeer.methods fun _ => true) s
        [true, true, true] t
      ∧ t.passed = msgs.map (encoded Host.little) ∧ t.Holds [] := by
  intro msgs wire s
  have hmsgs : ∀ msg ∈ msgs, Sendable Host.little 64 msg :=
    List.forall_mem_cons.mpr ⟨sendable_newStackMsg 3 (by decide),
      List.forall_mem_singleton.mpr (sendable_newStackMsg 4 (by decide))⟩
  obtain ⟨_, hruns, _⟩ := encoded_messages_delivered (ScriptedPeer.decoder 8 64)
    (ScriptedPeer.methods fun _ => true) ScriptedPeer.wire msgs s (by decide)
    (ScriptedPeer.neverRefuses rfl) (ScriptedPeer.delivers rfl _) hmsgs
    (ScriptedPeer.fresh_connect _ _) rfl
  have hrun : ((ScriptedPeer.decoder 8 64).decodeTimes Host.little
      (ScriptedPeer.methods fun _ => true) 4 s 3).map
      (fun r => (r.1, r.2.received)) = some ([true, true, true], wire) := by decide +kernel
  obtain ⟨⟨_, t⟩, heval, hend⟩ := Option.map_eq_some_iff.mp hrun
  obtain ⟨rfl, hreceived⟩ := Prod.mk.inj hend
  have hcalls := calls_of_decodeTimes heval
  obtain ⟨_, _, _, hall⟩ := hruns _ t hcalls
  exact ⟨t, hcalls, hall hreceived⟩

/-! ### Two runs over one stream -/

/-- A run over `stream` that has read all of it, or has stopped at its first `false`. -/
structure Session.Finished {β ε : Type} (stream : Bytes) (rets : List Bool) (s : Session β ε) :
    Prop where
  received_begins : s.received <+: stream
  done : s.received = stream ∨ ∃ n, rets = List.replicate n true ++ [false]

/-- What a finished run has passed on is what the framing rule cuts off the whole stream, and its
last verdict tells in which way the rest is stuck. -/
theorem Session.Finished.cuts {β ε : Type} [BytesBuffer β] [FifoContract β] {host : Host}
    {d : BytesToMsgDecoder ε} {m : Methods ε} {s t : Session β ε} {stream : Bytes}
    {rets : List Bool} (h : t.Finished stream rets) (hcalls : Calls host d m s rets t)
    (hunit : d.recvUnitSize.toNat < 2 ^ 31) (hnever : d.NeverRefuses m) (hs : s.Fresh) :
    ∃ rest, Cuts (front host d.msgLenLimit) stream (t.passed.map Frame.data) rest
      ∧ Stuck (front host d.msgLenLimit) rest
      ∧ (front host d.msgLenLimit rest = .bad ↔ rets.getLast? = some false)
      ∧ (rets.getLast? ≠ some false → rest = t.unread) := by
  obtain ⟨hframed, _⟩ := hcalls.framed hunit hs
  have hfront := hcalls.front_unread hunit hnever hs
  have hstable := front_stable host d.msgLenLimit
  by_cases hlast : rets.getLast? = some false
  · obtain ⟨tail, rfl⟩ := h.received_begins
    rw [if_pos hlast] at hfront
    have hbad := hstable.bad tail hfront
    exact ⟨_, hframed.cuts.append hstable tail, stuck_of_bad hbad, iff_of_true hbad hlast,
      fun hnot => absurd hlast hnot⟩
  · rw [if_neg hlast] at hfront
    obtain rfl | ⟨n, rfl⟩ := h.done
    · have hnot : front host d.msgLenLimit t.unread ≠ .bad := by
        rw [hfront]
        exact Front.noConfusion
      exact ⟨_, hframed.cuts, stuck_of_more hfront, iff_of_false hnot hlast, fun _ => rfl⟩
    · exact absurd List.getLast?_concat hlast

/-- **Independence of the pieces.** Two finished runs over one stream, under one limit, have passed
on the same frames, have both ended in a rejection or neither of them, and in the latter case hold
the same unread bytes. Their sockets, receive units, buffers and handlers need have nothing in
common. -/
theorem runs_agree {β₁ β₂ ε₁ ε₂ : Type} [BytesBuffer β₁] [FifoContract β₁] [BytesBuffer β₂]
    [FifoContract β₂] {host : Host} {d₁ : BytesToMsgDecoder ε₁} {d₂ : BytesToMsgDecoder ε₂}
    {m₁ : Methods ε₁} {m₂ : Methods ε₂} {s₁ t₁ : Session β₁ ε₁} {s₂ t₂ : Session β₂ ε₂}
    {rets₁ rets₂ : List Bool} (stream : Bytes) (hlimit : d₁.msgLenLimit = d₂.msgLenLimit)
    (hunit₁ : d₁.recvUnitSize.toNat < 2 ^ 31) (hunit₂ : d₂.recvUnitSize.toNat < 2 ^ 31)
    (hnever₁ : d₁.NeverRefuses m₁) (hnever₂ : d₂.NeverRefuses m₂)
    (hs₁ : s₁.Fresh) (hs₂ : s₂.Fresh)
    (hcalls₁ : Calls host d₁ m₁ s₁ rets₁ t₁) (hcalls₂ : Calls host d₂ m₂ s₂ rets₂ t₂)
    (hfinished₁ : t₁.Finished stream rets₁) (hfinished₂ : t₂.Finished stream rets₂) :
    t₁.passed = t₂.passed
      ∧ (rets₁.getLast? = some false ↔ rets₂.getLast? = some false)
      ∧ (rets₁.getLast? ≠ some false → t₁.unread = t₂.unread) := by
  obtain ⟨rest₁, hcuts₁, hstuck₁, hbad₁, hrest₁⟩ := hfinished₁.cuts hcalls₁ hunit₁ hnever₁ hs₁
  obtain ⟨rest₂, hcuts₂, hstuck₂, hbad₂, hrest₂⟩ := hfinished₂.cuts hcalls₂ hunit₂ hnever₂ hs₂
  rw [hlimit] at hcuts₁ hstuck₁ hbad₁
  obtain ⟨hdata, rfl⟩ := hcuts₁.unique hstuck₁ hcuts₂ hstuck₂
  have hlast : rets₁.getLast? = some false ↔ rets₂.getLast? = some false := hbad₁.symm.trans hbad₂
  refine ⟨?_, hlast, ?_⟩
  · rw [(hcalls₁.framed hunit₁ hs₁).1.passed_eq, (hcalls₂.framed hunit₂ hs₂).1.passed_eq, hdata]
  · intro hnot
    rw [← hrest₁ hnot, hrest₂ (mt hlast.mpr hnot)]

theorem runs_agree_script :
    let stream := (encoded Host.little (newStackMsg Host.little 3 4)).data ++ List.replicate 16 0
    let m := ScriptedPeer.methods fun _ => true
    let s₁ := ScriptedPeer.connect ⟨stream, [36]⟩ 128 (by decide)
    let s₂ := ScriptedPeer.connect ⟨stream, [17, 5, 8, 6]⟩ 256 (by decide)
    ∃ t₁ t₂, Calls Host.little (ScriptedPeer.decoder 64 64) m s₁ [false] t₁
      ∧ Calls Host.little (ScriptedPeer.decoder 32 64) m s₂ [true, true, true, false] t₂
      ∧ t₁.passed = t₂.passed := by
  intro stream m s₁ s₂
  have hrun₁ : ((ScriptedPeer.decoder 64 64).decodeTimes Host.little m 3 s₁ 1).map
      (fun r => (r.1, r.2.received)) = some ([false], stream) := by decide +kernel
  have hrun₂ : ((ScriptedPeer.decoder 32 64).decodeTimes Host.little m 3 s₂ 4).map
      (fun r => (r.1, r.2.received)) = some ([true, true, true, false], stream) := by
    decide +kernel
  obtain ⟨⟨_, t₁⟩, heval₁, hr₁⟩ := Option.map_eq_some_iff.mp hrun₁
  obtain ⟨⟨_, t₂⟩, heval₂, hr₂⟩ := Option.map_eq_some_iff.mp hrun₂
  obtain ⟨rfl, hreceived₁⟩ := Prod.mk.inj hr₁
  obtain ⟨rfl, hreceived₂⟩ := Prod.mk.inj hr₂
  have hcalls₁ := calls_of_decodeTimes heval₁
  have hcalls₂ := calls_of_decodeTimes heval₂
  have hlimit :
      (ScriptedPeer.decoder 64 64).msgLenLimit = (ScriptedPeer.decoder 32 64).msgLenLimit := rfl
  refine ⟨t₁, t₂, hcalls₁, hcalls₂, ?_⟩
  exact (runs_agree stream hlimit (by decide) (by decide) (ScriptedPeer.neverRefuses rfl)
    (ScriptedPeer.neverRefuses rfl)
    (ScriptedPeer.fresh_connect _ _) (ScriptedPeer.fresh_connect _ _) hcalls₁ hcalls₂
    ⟨hreceived₁ ▸ List.prefix_refl _, Or.inl hreceived₁⟩
    ⟨hreceived₂ ▸ List.prefix_refl _, Or.inl hreceived₂⟩).1

end BabelTrader
