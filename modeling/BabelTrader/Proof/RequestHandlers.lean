import BabelTrader.TcpServerSession
import BabelTrader.Proof.Dispatcher
import BabelTrader.Proof.RoundTrip
import BabelTrader.ScriptedPeer

/-!
# What the request handlers read

A handler reads as far as its message type and the bytes it finds there tell it to, and nobody
compares that with the length of the frame. So it stays inside exactly the frames whose payload
happens to be long enough for it.
-/

namespace BabelTrader

open MachineWord CString

/-- All reads have offsets below `len`. -/
def Reaction.Inside (reaction : Reaction) (len : Nat) : Prop :=
  ∀ offset ∈ reaction.reads, offset < len

/-- **Enough payload.** For a ping, its struct. For a login, a zero that ends the user id, and if it
ends within its member, one that ends the password. For a sum, on a session that is logged in, the
struct, and if the array is not too long, the array. For other messages, nothing. -/
structure Frame.Suffices (host : Host) (session : TcpServerSession) (frame : Frame) : Prop where
  ping : (MsgHdr.load host frame.data).msgId = demoMsgIdPing →
    12 ≤ (MsgHdr.load host frame.data).payloadLen.toNat
  login : (MsgHdr.load host frame.data).msgId = demoMsgIdReqLogin →
    0 ∈ frame.data.drop DemoMsgReqLogin.userId.start
      ∧ (strlen (frame.data.drop DemoMsgReqLogin.userId.start) < 16 →
        0 ∈ frame.data.drop DemoMsgReqLogin.password.start)
  sum : (MsgHdr.load host frame.data).msgId = demoMsgIdReqSum → session.isLogined = true →
    let len := load32 host.byteOrder (bytesAt frame.data DemoMsgReqSum.arrLen.start)
    8 ≤ (MsgHdr.load host frame.data).payloadLen.toNat
      ∧ (len.toNat ≤ 16 → 8 + 4 * len.toNat ≤ (MsgHdr.load host frame.data).payloadLen.toNat)

theorem Field.offsets_inside_iff {field : Field} (hsize : 0 < field.size) (len : Nat) :
    (∀ offset ∈ field.offsets, offset < len) ↔ field.start + field.size ≤ len := by
  simp only [Field.offsets, List.mem_range'_1]
  constructor
  · intro h
    have hlast := h (field.start + field.size - 1) ⟨by omega, by omega⟩
    omega
  · intro h offset hoffset
    omega

/-! ### One handler at a time -/

section

variable {host : Host} {session : TcpServerSession} {data beyond : Bytes}

theorem checkMsgStrLen_inside_iff {field : Field} {rest : Reaction} :
    (session.checkMsgStrLen (data ++ beyond) field rest).Inside data.length
      ↔ 0 ∈ data.drop field.start
        ∧ (strlen (data.drop field.start) < field.size → rest.Inside data.length) := by
  have hstrlen (hzero : 0 ∈ data.drop field.start) :
      strlen ((data ++ beyond).drop field.start) = strlen (data.drop field.start) := by
    have hle : field.start ≤ data.length := by
      by_contra hlt
      rw [List.drop_eq_nil_of_le (by omega)] at hzero
      cases hzero
    rw [List.drop_append_of_le_length hle, strlen_append hzero]
  rw [TcpServerSession.checkMsgStrLen]
  by_cases hlong : field.size ≤ strlen ((data ++ beyond).drop field.start)
  · rw [if_pos hlong, Reaction.Inside, scanned_inside_iff]
    constructor
    · intro hzero
      refine ⟨hzero, fun hshort => ?_⟩
      rw [hstrlen hzero] at hlong
      omega
    · exact fun h => h.1
  · rw [if_neg hlong, Reaction.Inside, List.forall_mem_append, scanned_inside_iff]
    refine and_congr_right fun hzero => ?_
    rw [hstrlen hzero] at hlong
    exact ⟨fun h _ => h, fun h => h (by omega)⟩

theorem onPing_inside_iff (memory : Bytes) (len : Nat) :
    (session.onPing host memory).Inside len ↔ 28 ≤ len := by
  simp only [Reaction.Inside, TcpServerSession.onPing, List.forall_mem_append,
    Field.offsets_inside_iff (show 0 < DemoMsgPing.sec.size by decide),
    Field.offsets_inside_iff (show 0 < DemoMsgPing.nsec.size by decide)]
  simp only [Field.start, sizeofMsgHdr, DemoMsgPing.sec, DemoMsgPing.nsec]
  omega

theorem onLogin_inside_iff :
    (session.onLogin host (data ++ beyond)).Inside data.length
      ↔ 0 ∈ data.drop DemoMsgReqLogin.userId.start
        ∧ (strlen (data.drop DemoMsgReqLogin.userId.start) < 16 →
          0 ∈ data.drop DemoMsgReqLogin.password.start) := by
  rw [TcpServerSession.onLogin, TcpServerSession.onLoginThen, checkMsgStrLen_inside_iff]
  refine and_congr_right fun huserId => imp_congr_right fun _ => ?_
  rw [checkMsgStrLen_inside_iff, and_iff_left_iff_imp]
  intro hpassword _
  -- the password follows everything else that is read
  have hlen : 36 < data.length := by
    have hpos := List.length_pos_of_mem hpassword
    rw [List.length_drop] at hpos
    simp only [Field.start, sizeofMsgHdr, DemoMsgReqLogin.password] at hpos
    omega
  have hreqId : ∀ offset ∈ DemoMsgReqLogin.reqId.offsets, offset < data.length := by
    rw [Field.offsets_inside_iff (by decide)]
    simp only [Field.start, sizeofMsgHdr, DemoMsgReqLogin.reqId]
    omega
  have hscan := (scanned_inside_iff beyond DemoMsgReqLogin.userId.start).mpr huserId
  simp only [Reaction.Inside, List.forall_mem_append]
  exact ⟨⟨⟨hscan, hreqId⟩, hscan⟩, hreqId⟩

theorem arr_inside_iff (count len : Nat) (h : 24 ≤ len) :
    (∀ i < count, ∀ offset ∈ (DemoMsgReqSum.arr i).offsets, offset < len)
      ↔ 24 + 4 * count ≤ len := by
  have harr (i : Nat) : (∀ offset ∈ (DemoMsgReqSum.arr i).offsets, offset < len)
      ↔ 28 + 4 * i ≤ len := by
    rw [Field.offsets_inside_iff (show 0 < 4 by decide)]
    simp only [Field.start, sizeofMsgHdr, DemoMsgReqSum.arr]
    omega
  simp only [harr]
  constructor
  · intro hall
    cases count with
    | zero => omega
    | succ last =>
        have hlast := hall last (by omega)
        omega
  · intro hle i hi
    omega

theorem onReqSum_inside_iff :
    (session.onReqSum host (data ++ beyond)).Inside data.length
      ↔ session.isLogined = true →
        24 ≤ data.length
          ∧ ((load32 host.byteOrder (bytesAt data DemoMsgReqSum.arrLen.start)).toNat ≤ 16 →
            24 + 4 * (load32 host.byteOrder (bytesAt data DemoMsgReqSum.arrLen.start)).toNat
              ≤ data.length) := by
  have hreqId : (∀ offset ∈ DemoMsgReqSum.reqId.offsets, offset < data.length)
      ↔ 20 ≤ data.length := Field.offsets_inside_iff (by decide) _
  have harrLen : (∀ offset ∈ DemoMsgReqSum.arrLen.offsets, offset < data.length)
      ↔ 24 ≤ data.length := Field.offsets_inside_iff (by decide) _
  rw [TcpServerSession.onReqSum, TcpServerSession.checkAuth]
  by_cases hlogined : session.isLogined = true
  · rw [if_pos hlogined, imp_iff_right hlogined]
    by_cases hlen : 24 ≤ data.length
    · have hbytes : bytesAt (data ++ beyond) DemoMsgReqSum.arrLen.start
          = bytesAt data DemoMsgReqSum.arrLen.start := bytesAt_append beyond (by exact hlen)
      rw [hbytes]
      generalize load32 host.byteOrder (bytesAt data DemoMsgReqSum.arrLen.start) = len
      by_cases hlong : 16 < len
      · have hnot : ¬ len.toNat ≤ 16 := by
          rw [UInt32.lt_iff_toNat_lt] at hlong
          exact Nat.not_le.mpr hlong
        rw [if_pos hlong, Reaction.Inside, harrLen]
        simp [hlen, hnot]
      · have hle : len.toNat ≤ 16 := by
          rw [UInt32.lt_iff_toNat_lt] at hlong
          exact Nat.not_lt.mp hlong
        rw [if_neg hlong, ← arr_inside_iff len.toNat data.length hlen]
        simp only [Reaction.Inside, List.forall_mem_append, List.forall_mem_flatMap,
          List.mem_range, hreqId, harrLen, hlen, hle]
        have hreq : 20 ≤ data.length := by omega
        simp [hreq]
    · -- `arr_len` itself is not inside
      have hnot (rest : List Nat) : ¬ ∀ offset ∈ DemoMsgReqSum.arrLen.offsets ++ rest,
          offset < data.length := by
        rw [List.forall_mem_append, harrLen]
        exact fun h => hlen h.1
      refine iff_of_false ?_ fun h => hlen h.1
      split
      next => simpa only [Reaction.Inside, List.append_nil] using hnot []
      next =>
        simp only [Reaction.Inside, List.append_assoc]
        exact hnot _
  · rw [if_neg hlogined]
    simp [Reaction.Inside, hlogined]

end

/-! ### Whatever is dispatched -/

namespace RequestHandler

theorem callback_dispatcher (id : UInt32) :
    dispatcher.callback id
      = if demoMsgIdPing = id then some onPing
        else if demoMsgIdReqLogin = id then some onLogin
        else if demoMsgIdReqSum = id then some onReqSum else none := by
  have hhistory : (Dispatcher.setups registerCallbacks).1
      = registerCallbacks.map fun call => (call, true) := by decide
  rw [dispatcher, (Dispatcher.records_setups registerCallbacks).callback_eq, hhistory]
  simp only [firstRegistered, registerCallbacks, List.map_cons, List.map_nil,
    List.findSome?_cons, List.findSome?_nil]
  split_ifs <;> rfl

theorem dispatch_eq_invoke_iff (hdr : MsgHdr) (handler : RequestHandler) :
    dispatcher.dispatch hdr = .invoke handler ↔ hdr.msgId = handler.msgId := by
  have htotal : dispatcher.totalMsg = maxDemoMsgId := by decide
  constructor
  · intro hdispatch
    rw [Dispatcher.dispatch, callback_dispatcher] at hdispatch
    split_ifs at hdispatch with hlt hping hlogin hsum
    · cases hdispatch
      exact hping.symm
    · cases hdispatch
      exact hlogin.symm
    · cases hdispatch
      exact hsum.symm
  · intro hid
    rw [Dispatcher.dispatch, callback_dispatcher, htotal, hid]
    cases handler <;> rfl

end RequestHandler

/-- **When the handlers read inside the frame.** For every well-formed frame, every state of the
session and every memory behind the frame, all reads of the handler that `Dispatch` invokes are
below `datalen` iff the payload is enough. -/
theorem handlers_read_inside_iff (host : Host) (limit : UInt32) (session : TcpServerSession)
    (frame : Frame) (beyond : Bytes) (hframe : frame.WellFormed host limit) :
    (∀ handler, RequestHandler.dispatcher.dispatch (MsgHdr.load host frame.data) = .invoke handler →
        (handler.run host session (frame.data ++ beyond)).Inside frame.datalen.toNat)
      ↔ frame.Suffices host session := by
  have hlen : frame.data.length = 16 + (MsgHdr.load host frame.data).payloadLen.toNat := by
    rw [hframe.length_eq, hframe.datalen]
    rfl
  have hping : (RequestHandler.onPing.run host session (frame.data ++ beyond)).Inside
      frame.data.length ↔ 12 ≤ (MsgHdr.load host frame.data).payloadLen.toNat := by
    rw [RequestHandler.run, onPing_inside_iff]
    omega
  simp only [RequestHandler.dispatch_eq_invoke_iff, ← hframe.length_eq]
  constructor
  · intro h
    refine ⟨fun hid => hping.mp (h .onPing hid), fun hid => onLogin_inside_iff.mp (h .onLogin hid),
      fun hid hlogined => ?_⟩
    have hsum := onReqSum_inside_iff.mp (h .onReqSum hid) hlogined
    exact ⟨by omega, fun hle => by have := hsum.2 hle; omega⟩
  · intro h handler hid
    cases handler with
    | onPing => exact hping.mpr (h.ping hid)
    | onLogin => exact onLogin_inside_iff.mpr (h.login hid)
    | onReqSum =>
        refine onReqSum_inside_iff.mpr fun hlogined => ?_
        have hsum := h.sum hid hlogined
        exact ⟨by omega, fun hle => by have := hsum.2 hle; omega⟩

theorem handlers_read_inside_iff_ping :
    let frame := encoded Host.little (newStackMsg Host.little demoMsgIdPing 12)
    frame.WellFormed Host.little 65536
      ∧ ∀ handler,
        RequestHandler.dispatcher.dispatch (MsgHdr.load Host.little frame.data) = .invoke handler →
          (handler.run Host.little .new (frame.data ++ [])).Inside frame.datalen.toNat := by
  intro frame
  have hsendable : Sendable Host.little 65536 (newStackMsg Host.little demoMsgIdPing 12) :=
    sendable_newStackMsg _ (by decide)
  refine ⟨hsendable.wellFormed, ?_⟩
  refine (handlers_read_inside_iff Host.little 65536 .new frame [] hsendable.wellFormed).mpr ?_
  have hid : (MsgHdr.load Host.little frame.data).msgId = demoMsgIdPing := by decide +kernel
  refine ⟨fun _ => by decide +kernel, ?_, ?_⟩
  · rw [hid]
    exact fun h => absurd h (by decide)
  · rw [hid]
    exact fun h => absurd h (by decide)

/-- A ping without a payload: `Decode` passes its 16 bytes on, and `OnPing` reads the 12 behind. -/
theorem ping_without_payload :
    let frame := encoded Host.little (newStackMsg Host.little demoMsgIdPing 0)
    let d := ScriptedPeer.decoder 16384 65536
    (d.decode Host.little (ScriptedPeer.methods fun _ => true) 2
          (ScriptedPeer.connect ⟨frame.data, [16]⟩ 32768 (by decide))).map
            (fun r => (r.1, r.2.passed)) = some (.incomplete, [frame])
      ∧ frame.WellFormed Host.little 65536
      ∧ RequestHandler.dispatcher.dispatch (MsgHdr.load Host.little frame.data) = .invoke .onPing
      ∧ ∀ beyond : Bytes,
        ¬ (RequestHandler.onPing.run Host.little .new (frame.data ++ beyond)).Inside
          frame.datalen.toNat := by
  intro frame d
  refine ⟨by decide +kernel, (sendable_newStackMsg _ (by decide)).wellFormed, ?_, ?_⟩
  · rw [RequestHandler.dispatch_eq_invoke_iff]
    decide +kernel
  · intro beyond hinside
    rw [RequestHandler.run, onPing_inside_iff] at hinside
    exact absurd hinside (by decide +kernel)

end BabelTrader
