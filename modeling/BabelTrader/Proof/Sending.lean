import BabelTrader.SendMessage
import BabelTrader.Proof.RoundTrip

/-!
# Whole frames, and one torn one at the end

A write that falls short leaves part of a frame on the wire, and whatever followed it would be
misread. Nothing follows it: the same call shuts the socket down, and from then on every write falls
short without transferring anything.
-/

namespace BabelTrader

open MachineWord

namespace Session

variable {κ : Type} [SocketContext κ] {sent : κ → Bytes} {down : κ → Prop} {ctx : κ} {data : Bytes}
  {datalen : UInt32}

/-! ### One write -/

theorem onWrite_cases (ctx : κ) (hsocket : SocketContract sent down)
    (hlen : data.length = datalen.toNat) (hint : datalen.toNat < 2 ^ 31)
    (hpos : 0 < datalen.toNat) :
    ((onWrite ctx data datalen).1 = true
        ∧ sent (onWrite ctx data datalen).2 = sent ctx ++ data)
      ∨ ((onWrite ctx data datalen).1 = false ∧ down (onWrite ctx data datalen).2
        ∧ ∃ n < data.length, sent (onWrite ctx data datalen).2 = sent ctx ++ data.take n) := by
  have hcast := toInt_of_lt hint
  have hle := hsocket.count_le ctx data datalen
  have hsent := hsocket.sent_write ctx data datalen
  by_cases hall : (SocketContext.write ctx data datalen).1 = toInt datalen
  · left
    have honWrite : onWrite ctx data datalen = (true, (SocketContext.write ctx data datalen).2) :=
      if_neg (not_not.mpr hall)
    rw [honWrite, hsent, hall, hcast, Int.toNat_natCast, ← hlen, List.take_length]
    exact ⟨rfl, rfl⟩
  · right
    have honWrite : onWrite ctx data datalen
        = (false, SocketContext.shutdown (SocketContext.write ctx data datalen).2) := if_pos hall
    rw [hcast] at hall
    rw [honWrite, hsocket.sent_shutdown]
    exact ⟨rfl, hsocket.down_shutdown _, _, by omega, hsent⟩

theorem onWrite_down (hsocket : SocketContract sent down) (hint : datalen.toNat < 2 ^ 31)
    (hpos : 0 < datalen.toNat) (hdown : down ctx) :
    (onWrite ctx data datalen).1 = false ∧ down (onWrite ctx data datalen).2
      ∧ sent (onWrite ctx data datalen).2 = sent ctx := by
  obtain ⟨hcount, _⟩ := hsocket.down_write ctx data datalen hdown
  have hshort : (SocketContext.write ctx data datalen).1 ≠ toInt datalen := by
    rw [toInt_of_lt hint]
    omega
  have honWrite : onWrite ctx data datalen
      = (false, SocketContext.shutdown (SocketContext.write ctx data datalen).2) := if_pos hshort
  rw [honWrite, hsocket.sent_shutdown, hsocket.sent_write, Int.toNat_of_nonpos hcount,
    List.take_zero, List.append_nil]
  exact ⟨rfl, hsocket.down_shutdown _, rfl⟩

/-! ### One message after the other -/

variable {host : Host} {msgs later : List Bytes} {msg : Bytes}

/-- The chain of a session that sends through one `MsgToBytesEncoder`. -/
def encoderChain (host : Host) : Option (CodecChain κ) :=
  some ⟨[MsgToBytesEncoder.encode host]⟩

theorem sendMessage_eq (ctx : κ) (msg : Bytes) :
    sendMessage (encoderChain host) ctx msg (UInt32.ofNat msg.length)
      = onWrite ctx (encoded host msg).data (encoded host msg).datalen := rfl

theorem sendMessages_concat (codecChain : Option (CodecChain κ)) (ctx : κ) (msgs : List Bytes)
    (msg : Bytes) :
    sendMessages codecChain ctx (msgs ++ [msg])
      = ((sendMessages codecChain ctx msgs).1
          ++ [(sendMessage codecChain (sendMessages codecChain ctx msgs).2 msg
            (UInt32.ofNat msg.length)).1],
        (sendMessage codecChain (sendMessages codecChain ctx msgs).2 msg
          (UInt32.ofNat msg.length)).2) := by
  simp only [sendMessages, List.foldl_append, List.foldl_cons, List.foldl_nil]

@[simp]
theorem length_sendMessages (codecChain : Option (CodecChain κ)) (ctx : κ) (msgs : List Bytes) :
    (sendMessages codecChain ctx msgs).1.length = msgs.length := by
  induction msgs using List.reverseRecOn with
  | nil => rfl
  | append_singleton msgs msg ih =>
      rw [sendMessages_concat, List.length_append, ih, List.length_append]
      rfl

/-- The frames of the messages for which `SendMessage` has returned `true`. -/
def accepted (host : Host) (msgs : List Bytes) (rets : List Bool) : List Bytes :=
  ((msgs.zip rets).filter Prod.snd).map fun p => (encoded host p.1).data

theorem accepted_concat {rets : List Bool} (hlen : rets.length = msgs.length) (ret : Bool) :
    accepted host (msgs ++ [msg]) (rets ++ [ret])
      = accepted host msgs rets ++ if ret then [(encoded host msg).data] else [] := by
  rw [accepted, List.zip_append hlen.symm, List.filter_append, List.map_append]
  cases ret <;> rfl

/-- Some messages have been sent over a socket that had transferred `base`: every frame is whole, or
the last one is torn and the socket is down. -/
structure SentSoFar (sent : κ → Bytes) (down : κ → Prop) (host : Host) (base : Bytes)
    (msgs : List Bytes) (r : List Bool × κ) (torn : Bytes) : Prop where
  sent_eq : sent r.2 = base ++ (accepted host msgs r.1).flatten ++ torn
  down : false ∈ r.1 → down r.2
  torn : torn = []
    ∨ false ∈ r.1 ∧ ∃ msg ∈ msgs, torn <+: (encoded host msg).data ∧ torn ≠ (encoded host msg).data

section

variable (hsocket : SocketContract sent down)
include hsocket

theorem sendMessage_down (hmsg : Sendable host 0x7FFFFFFF msg) (hdown : down ctx) :
    (sendMessage (encoderChain host) ctx msg (UInt32.ofNat msg.length)).1 = false
      ∧ down (sendMessage (encoderChain host) ctx msg (UInt32.ofNat msg.length)).2
      ∧ sent (sendMessage (encoderChain host) ctx msg (UInt32.ofNat msg.length)).2 = sent ctx := by
  rw [sendMessage_eq]
  exact onWrite_down hsocket hmsg.datalen_lt hmsg.datalen_pos hdown

theorem sendMessage_cases (ctx : κ) (hmsg : Sendable host 0x7FFFFFFF msg) :
    ((sendMessage (encoderChain host) ctx msg (UInt32.ofNat msg.length)).1 = true
        ∧ sent (sendMessage (encoderChain host) ctx msg (UInt32.ofNat msg.length)).2
          = sent ctx ++ (encoded host msg).data)
      ∨ ((sendMessage (encoderChain host) ctx msg (UInt32.ofNat msg.length)).1 = false
        ∧ down (sendMessage (encoderChain host) ctx msg (UInt32.ofNat msg.length)).2
        ∧ ∃ torn, torn <+: (encoded host msg).data ∧ torn ≠ (encoded host msg).data
          ∧ sent (sendMessage (encoderChain host) ctx msg (UInt32.ofNat msg.length)).2
            = sent ctx ++ torn) := by
  rw [sendMessage_eq]
  obtain hall | ⟨hret, hdown, n, hn, hsent⟩ :=
    onWrite_cases ctx hsocket hmsg.wellFormed.length_eq hmsg.datalen_lt
      hmsg.datalen_pos
  · exact Or.inl hall
  · refine Or.inr ⟨hret, hdown, _, List.take_prefix n _, ?_, hsent⟩
    intro heq
    have hlen := congrArg List.length heq
    rw [List.length_take_of_le (Nat.le_of_lt hn)] at hlen
    omega

theorem SentSoFar.concat {base torn : Bytes} {r : List Bool × κ}
    (h : SentSoFar sent down host base msgs r torn) (hlen : r.1.length = msgs.length)
    (hmsg : Sendable host 0x7FFFFFFF msg) :
    ∃ torn', SentSoFar sent down host base (msgs ++ [msg])
      (r.1 ++ [(sendMessage (encoderChain host) r.2 msg (UInt32.ofNat msg.length)).1],
        (sendMessage (encoderChain host) r.2 msg (UInt32.ofNat msg.length)).2) torn' := by
  by_cases hfailed : false ∈ r.1
  · obtain ⟨hret, hdown, hsent⟩ := sendMessage_down hsocket hmsg (h.down hfailed)
    refine ⟨torn, ?_, fun _ => hdown, ?_⟩
    · rw [hret, accepted_concat hlen, hsent, h.sent_eq]
      simp
    · refine h.torn.imp_right ?_
      rintro ⟨_, msg', hmem, hpre⟩
      exact ⟨List.mem_append_left _ hfailed, msg', List.mem_append_left _ hmem, hpre⟩
  · obtain rfl := h.torn.resolve_right fun htorn => hfailed htorn.1
    obtain ⟨hret, hsent⟩ | ⟨hret, hdown, torn, hpre, hne, hsent⟩ :=
      sendMessage_cases hsocket r.2 hmsg
    · refine ⟨[], ?_, ?_, Or.inl rfl⟩
      · rw [hret, accepted_concat hlen, hsent, h.sent_eq]
        simp
      · intro hmem
        simp [hret, hfailed] at hmem
    · refine ⟨torn, ?_, fun _ => hdown, Or.inr ⟨?_, msg, ?_, hpre, hne⟩⟩
      · rw [hret, accepted_concat hlen, hsent, h.sent_eq]
        simp
      · simp [hret]
      · simp

theorem sentSoFar_sendMessages (ctx : κ)
    (hmsgs : ∀ msg ∈ msgs, Sendable host 0x7FFFFFFF msg) :
    ∃ torn, SentSoFar sent down host (sent ctx) msgs
      (sendMessages (encoderChain host) ctx msgs) torn := by
  induction msgs using List.reverseRecOn with
  | nil =>
      refine ⟨[], ?_, ?_, Or.inl rfl⟩
      · simp [sendMessages, accepted]
      · intro hmem
        cases hmem
  | append_singleton msgs msg ih =>
      obtain ⟨torn, hsofar⟩ := ih fun msg' hmsg' => hmsgs msg' (List.mem_append_left _ hmsg')
      rw [sendMessages_concat]
      exact hsofar.concat hsocket (length_sendMessages _ _ _) (hmsgs msg (by simp))

theorem sendMessages_down (ctx : κ) (hdown : down (sendMessages (encoderChain host) ctx msgs).2)
    (hlater : ∀ msg ∈ later, Sendable host 0x7FFFFFFF msg) :
    (sendMessages (encoderChain host) ctx (msgs ++ later)).1
        = (sendMessages (encoderChain host) ctx msgs).1 ++ List.replicate later.length false
      ∧ down (sendMessages (encoderChain host) ctx (msgs ++ later)).2
      ∧ sent (sendMessages (encoderChain host) ctx (msgs ++ later)).2
        = sent (sendMessages (encoderChain host) ctx msgs).2 := by
  induction later using List.reverseRecOn with
  | nil => simpa using hdown
  | append_singleton later msg ih =>
      obtain ⟨hrets, hdown', hsent⟩ :=
        ih fun msg' hmsg' => hlater msg' (List.mem_append_left _ hmsg')
      obtain ⟨hret, hdown'', hsent'⟩ := sendMessage_down hsocket (hlater msg (by simp)) hdown'
      rw [← List.append_assoc, sendMessages_concat, hret, hrets, hsent', hsent]
      refine ⟨?_, hdown'', rfl⟩
      rw [List.length_append, List.length_singleton, List.replicate_succ', List.append_assoc]

end

/-- **Whole frames.** Whatever the socket takes of each write, what has been sent is the encoded
frames of the calls that returned `true`, in their order, and then at most a proper beginning of
one frame more. From the first call that returns `false` on the socket is shut down, nothing more
is sent and every call returns `false`. -/
theorem whole_frames_sent (host : Host) (sent : κ → Bytes) (down : κ → Prop) (ctx : κ)
    (msgs : List Bytes) (hsocket : SocketContract sent down)
    (hmsgs : ∀ msg ∈ msgs, Sendable host 0x7FFFFFFF msg) :
    (∃ torn, sent (sendMessages (encoderChain host) ctx msgs).2
          = sent ctx ++ (accepted host msgs (sendMessages (encoderChain host) ctx msgs).1).flatten
            ++ torn
        ∧ (torn = [] ∨ false ∈ (sendMessages (encoderChain host) ctx msgs).1
          ∧ ∃ msg ∈ msgs, torn <+: (encoded host msg).data ∧ torn ≠ (encoded host msg).data))
      ∧ (∀ msg ∈ msgs, (encoded host msg).WellFormed host 0x7FFFFFFF)
      ∧ (false ∈ (sendMessages (encoderChain host) ctx msgs).1 →
        down (sendMessages (encoderChain host) ctx msgs).2
          ∧ ∀ later, (∀ msg ∈ later, Sendable host 0x7FFFFFFF msg) →
            (sendMessages (encoderChain host) ctx (msgs ++ later)).1
                = (sendMessages (encoderChain host) ctx msgs).1 ++ List.replicate later.length false
              ∧ sent (sendMessages (encoderChain host) ctx (msgs ++ later)).2
                = sent (sendMessages (encoderChain host) ctx msgs).2) := by
  obtain ⟨torn, hsofar⟩ := sentSoFar_sendMessages hsocket ctx hmsgs
  refine ⟨⟨torn, hsofar.sent_eq, hsofar.torn⟩, fun msg hmsg => (hmsgs msg hmsg).wellFormed, ?_⟩
  intro hfailed
  refine ⟨hsofar.down hfailed, ?_⟩
  intro later hlater
  obtain ⟨hrets, _, hsent⟩ := sendMessages_down hsocket ctx (hsofar.down hfailed) hlater
  exact ⟨hrets, hsent⟩

theorem whole_frames_sent_script :
    let msgs :=
      [newStackMsg Host.little 3 0, newStackMsg Host.little 4 5, newStackMsg Host.little 5 2]
    let r :=
      sendMessages (encoderChain Host.little) (⟨[16, 5, 18], [], false⟩ : ScriptedSocket) msgs
    r.1 = [true, false, false] ∧ r.2.down = true
      ∧ ∃ torn, r.2.sent = (accepted Host.little msgs r.1).flatten ++ torn := by
  intro msgs r
  have hrets : r.1 = [true, false, false] := by decide +kernel
  have hmsgs : ∀ msg ∈ msgs, Sendable Host.little 0x7FFFFFFF msg :=
    List.forall_mem_cons.mpr ⟨sendable_newStackMsg 3 (by decide),
      List.forall_mem_cons.mpr ⟨sendable_newStackMsg 4 (by decide),
        List.forall_mem_singleton.mpr (sendable_newStackMsg 5 (by decide))⟩⟩
  obtain ⟨⟨torn, hsent, _⟩, _, hdown⟩ := whole_frames_sent Host.little ScriptedSocket.sent
    (fun ctx => ctx.down = true) ⟨[16, 5, 18], [], false⟩ msgs ScriptedSocket.contract hmsgs
  exact ⟨hrets, (hdown (hrets ▸ by simp)).1, torn, hsent⟩

end Session

end BabelTrader
