import BabelTrader.Proof.AnyPeer

/-!
# What a frame decides by itself

A handler may read behind its frame, and then what it does may depend on bytes that nobody sent. It
need not: a string that is too long already inside the frame is too long whatever follows it. This
is exactly when a frame decides by itself what a server makes of it, and a server that is sent
nothing but such frames is a function of what it is sent.
-/

namespace BabelTrader

open MachineWord CString Framing BytesBuffer BytesToMsgDecoder Mailbox

/-- The member is inside. -/
def Field.Within (field : Field) (data : Bytes) : Prop := field.start + field.size ≤ data.length

/-- The string of the member comes to an end inside, or is too long for the member inside. -/
def Field.Ends (field : Field) (data : Bytes) : Prop :=
  0 ∈ data.drop field.start ∨ field.Within data

instance (field : Field) (data : Bytes) : Decidable (field.Within data) :=
  inferInstanceAs (Decidable (_ ≤ _))

instance (field : Field) (data : Bytes) : Decidable (field.Ends data) :=
  inferInstanceAs (Decidable (_ ∨ _))

/-- **Enough to decide.** For a ping, its struct. For a login, two strings that come to an end or
are too long. For a sum, on a session that is logged in, a length that is too large however it goes
on, or the array. For other messages, nothing. -/
structure Frame.Confined (host : Host) (session : TcpServerSession) (data : Bytes) : Prop where
  ping : (MsgHdr.load host data).msgId = demoMsgIdPing → DemoMsgPing.nsec.Within data
  login : (MsgHdr.load host data).msgId = demoMsgIdReqLogin →
    DemoMsgReqLogin.userId.Ends data
      ∧ (strlen (data.drop DemoMsgReqLogin.userId.start) < DemoMsgReqLogin.userId.size →
        DemoMsgReqLogin.password.Ends data)
  sum : (MsgHdr.load host data).msgId = demoMsgIdReqSum → session.isLogined = true →
    let len := load32 host.byteOrder (bytesAt data DemoMsgReqSum.arrLen.start)
    16 < len ∨ (DemoMsgReqSum.arrLen.Within data ∧ 24 + 4 * len.toNat ≤ data.length)

instance (host : Host) (session : TcpServerSession) (data : Bytes) :
    Decidable (Frame.Confined host session data) :=
  decidable_of_iff
    (((MsgHdr.load host data).msgId = demoMsgIdPing → DemoMsgPing.nsec.Within data)
      ∧ ((MsgHdr.load host data).msgId = demoMsgIdReqLogin →
        DemoMsgReqLogin.userId.Ends data
          ∧ (strlen (data.drop DemoMsgReqLogin.userId.start) < DemoMsgReqLogin.userId.size →
            DemoMsgReqLogin.password.Ends data))
      ∧ ((MsgHdr.load host data).msgId = demoMsgIdReqSum → session.isLogined = true →
        16 < load32 host.byteOrder (bytesAt data DemoMsgReqSum.arrLen.start)
          ∨ (DemoMsgReqSum.arrLen.Within data
            ∧ 24 + 4 * (load32 host.byteOrder
              (bytesAt data DemoMsgReqSum.arrLen.start)).toNat ≤ data.length)))
    ⟨fun h => ⟨h.1, h.2.1, h.2.2⟩, fun h => ⟨h.ping, h.login, h.sum⟩⟩

/-! ### Members and strings at the end of a frame -/

section Members

variable {data : Bytes} {field : Field}

theorem Field.bytes_append (h : field.Within data) (beyond : Bytes) :
    field.bytes (data ++ beyond) = field.bytes data := by
  apply List.map_congr_left
  intro i hi
  have hlt : field.start + i < data.length := by
    have hi := List.mem_range.mp hi
    rw [Field.Within] at h
    omega
  rw [List.getD_eq_getElem?_getD, List.getD_eq_getElem?_getD, List.getElem?_append_left hlt]

/-- Bytes behind a frame make a word larger than zeros do. -/
theorem load32_le_append (order : ByteOrder) (data beyond : Bytes) (offset : Nat) :
    (load32 order (bytesAt data offset)).toNat
      ≤ (load32 order (bytesAt (data ++ beyond) offset)).toNat := by
  apply load32_mono
  intro i
  simp only [bytesAt, List.getD_eq_getElem?_getD]
  by_cases hlt : offset + i.val < data.length
  · rw [List.getElem?_append_left hlt]
  · rw [List.getElem?_eq_none (Nat.not_lt.mp hlt)]
    exact Nat.zero_le _

/-- What a check of a string comes to does not depend on what is behind the frame. -/
theorem Field.Ends.strlen_lt_iff (h : field.Ends data) (beyond : Bytes) :
    strlen ((data ++ beyond).drop field.start) < field.size
      ↔ strlen (data.drop field.start) < field.size := by
  obtain hzero | hwithin := h
  · have hle : field.start ≤ data.length := by
      by_contra hlt
      rw [List.drop_eq_nil_of_le (by omega)] at hzero
      cases hzero
    rw [List.drop_append_of_le_length hle, strlen_append hzero]
  · rw [Field.Within] at hwithin
    rw [List.drop_append_of_le_length (by omega)]
    by_cases hzero : 0 ∈ data.drop field.start
    · rw [strlen_append hzero]
    · -- no zero inside, so the string is too long for the member either way
      have hlong : field.size ≤ (data.drop field.start).length := by
        rw [List.length_drop]
        omega
      have hnot := (strlen_append_lt_iff beyond).not.mpr hzero
      rw [strlen_of_not_mem hzero]
      omega

theorem Field.Ends.string_eq (h : field.Ends data)
    (hshort : strlen (data.drop field.start) < field.size) (beyond : Bytes) :
    string ((data ++ beyond).drop field.start) = string (data.drop field.start) := by
  have hzero : 0 ∈ data.drop field.start := by
    by_contra hzero
    rw [strlen_of_not_mem hzero, List.length_drop] at hshort
    obtain hmem | hwithin := h
    · exact hzero hmem
    · rw [Field.Within] at hwithin
      omega
  have hle : field.start ≤ data.length := by
    by_contra hlt
    rw [List.drop_eq_nil_of_le (by omega)] at hzero
    cases hzero
  rw [List.drop_append_of_le_length hle, string_append hzero]

/-- A string that does not end inside fits its member if nothing but zeros follows, and does not if
other bytes follow. -/
theorem Field.strlen_of_not_ends (hsize : 0 < field.size) (h : ¬ field.Ends data) :
    strlen (data.drop field.start) < field.size
      ∧ ∀ n, field.start + field.size ≤ data.length + n →
        field.size ≤ strlen ((data ++ List.replicate n 1).drop field.start) := by
  obtain ⟨hzero, hshort⟩ := not_or.mp h
  rw [Field.Within] at hshort
  refine ⟨?_, fun n hn => ?_⟩
  · rw [strlen_of_not_mem hzero, List.length_drop]
    omega
  · have hnone : 0 ∉ (data ++ List.replicate n 1).drop field.start := by
      rw [List.drop_append, List.drop_replicate, List.mem_append, not_or]
      exact ⟨hzero, fun hmem => absurd (List.eq_of_mem_replicate hmem) (by decide)⟩
    rw [strlen_of_not_mem hnone, List.length_drop, List.length_append, List.length_replicate]
    omega

end Members

/-! ### A frame that decides -/

section Decides

variable {host : Host} {session : TcpServerSession} {data : Bytes}

variable (host) in
theorem passes_onLogin_append (hends : DemoMsgReqLogin.userId.Ends data
      ∧ (strlen (data.drop DemoMsgReqLogin.userId.start) < DemoMsgReqLogin.userId.size →
        DemoMsgReqLogin.password.Ends data)) (beyond : Bytes) :
    RequestHandler.onLogin.passes host (data ++ beyond)
      = RequestHandler.onLogin.passes host data := by
  obtain ⟨huser, hpassword⟩ := hends
  rw [RequestHandler.passes, RequestHandler.passes,
    decide_eq_decide.mpr (huser.strlen_lt_iff beyond)]
  by_cases hshort : strlen (data.drop DemoMsgReqLogin.userId.start) < DemoMsgReqLogin.userId.size
  · rw [decide_eq_decide.mpr ((hpassword hshort).strlen_lt_iff beyond)]
  · rw [decide_eq_false hshort, Bool.false_and, Bool.false_and]

theorem reqId_within (hends : DemoMsgReqLogin.password.Ends data) :
    DemoMsgReqLogin.reqId.Within data := by
  have hlt : DemoMsgReqLogin.password.start < data.length := by
    obtain hzero | hwithin := hends
    · have hpos := List.length_pos_of_mem hzero
      rw [List.length_drop] at hpos
      omega
    · rw [Field.Within] at hwithin
      exact Nat.lt_of_lt_of_le (by decide) hwithin
  exact Nat.le_trans (by decide) (Nat.le_of_lt hlt)

variable (host) in
theorem sumIn_append {len : Nat} (h : 24 + 4 * len ≤ data.length) (beyond : Bytes) :
    TcpServerSession.sumIn host (data ++ beyond) len = TcpServerSession.sumIn host data len := by
  apply List.foldl_ext
  intro sum i hi
  have hi := List.mem_range.mp hi
  rw [bytesAt_append beyond]
  simp only [Field.start, sizeofMsgHdr, DemoMsgReqSum.arr]
  omega

/-- Nothing behind a confined frame makes a difference. -/
theorem Frame.Confined.onRead_append (h : Frame.Confined host session data)
    (hheader : sizeofMsgHdr ≤ data.length) (beyond : Bytes) :
    (tcpServer host).onRead session (data ++ beyond) = (tcpServer host).onRead session data := by
  have hload := MsgHdr.load_append host beyond hheader
  by_cases hhandler : ∃ handler : RequestHandler, (MsgHdr.load host data).msgId = handler.msgId
  · obtain ⟨handler, hid⟩ := hhandler
    rw [tcpServer_invoke session (hload ▸ hid), tcpServer_invoke session hid]
    cases handler with
    | onPing =>
        have hnsec := h.ping hid
        have hsec : DemoMsgPing.sec.Within data := by
          simp only [Field.Within, Field.start, DemoMsgPing.sec, DemoMsgPing.nsec] at hnsec ⊢
          omega
        simp only [RequestHandler.run, TcpServerSession.onPing, Field.bytes_append hnsec,
          Field.bytes_append hsec]
    | onLogin =>
        have hends := h.login hid
        have hsame := passes_onLogin_append host hends beyond
        rw [RequestHandler.run, RequestHandler.run]
        cases hpasses : RequestHandler.onLogin.passes host data with
        | false =>
            obtain ⟨heffects, hsession⟩ := onLogin_fails session hpasses
            obtain ⟨heffects', hsession'⟩ := onLogin_fails session (hsame.trans hpasses)
            rw [heffects, hsession, heffects', hsession']
        | true =>
            obtain ⟨heffects, hsession⟩ := onLogin_passes session hpasses
            obtain ⟨heffects', hsession'⟩ := onLogin_passes session (hsame.trans hpasses)
            have hshort := of_decide_eq_true (Bool.and_eq_true_iff.mp hpasses).1
            have hreqId := reqId_within (hends.2 hshort)
            rw [heffects, hsession, heffects', hsession', hends.1.string_eq hshort,
              Field.bytes_append hreqId]
    | onReqSum =>
        rw [RequestHandler.run, RequestHandler.run]
        by_cases hlogined : session.isLogined = true
        · obtain hlarge | ⟨hwithin, harr⟩ := h.sum hid hlogined
          · -- the length is too large with zeros behind it, and so with anything else
            have hfails : RequestHandler.onReqSum.passes host data = false :=
              decide_eq_false (UInt32.not_le.mpr hlarge)
            have hfails' : RequestHandler.onReqSum.passes host (data ++ beyond) = false := by
              refine decide_eq_false (UInt32.not_le.mpr ?_)
              rw [UInt32.lt_iff_toNat_lt] at hlarge ⊢
              exact Nat.lt_of_lt_of_le hlarge (load32_le_append _ data beyond _)
            obtain ⟨heffects, hsession⟩ := onReqSum_fails host _ session (Or.inl hfails)
            obtain ⟨heffects', hsession'⟩ := onReqSum_fails host _ session (Or.inl hfails')
            rw [heffects, hsession, heffects', hsession']
          · have hlen : bytesAt (data ++ beyond) DemoMsgReqSum.arrLen.start
                = bytesAt data DemoMsgReqSum.arrLen.start := bytesAt_append beyond hwithin
            have hreqId : DemoMsgReqSum.reqId.Within data := by
              simp only [Field.Within, Field.start, DemoMsgReqSum.reqId, DemoMsgReqSum.arrLen]
                at hwithin ⊢
              omega
            simp only [TcpServerSession.onReqSum, hlen, Field.bytes_append hreqId]
            have hsum := sumIn_append host harr beyond
            simp only [TcpServerSession.sumIn] at hsum
            rw [hsum]
        · have hnot := Bool.eq_false_of_not_eq_true hlogined
          obtain ⟨heffects, hsession⟩ := onReqSum_fails host data session (Or.inr hnot)
          obtain ⟨heffects', hsession'⟩ :=
            onReqSum_fails host (data ++ beyond) session (Or.inr hnot)
          rw [heffects, hsession, heffects', hsession']
  · simp only [tcpServer, hload]
    cases hdispatch : RequestHandler.dispatcher.dispatch (MsgHdr.load host data) with
    | invoke handler =>
        exact absurd ⟨handler, (RequestHandler.dispatch_eq_invoke_iff _ handler).mp hdispatch⟩
          hhandler
    | noCallback => rfl
    | close => rfl

end Decides

/-! ### A frame that does not -/

section Undecided

variable {host : Host} {session : TcpServerSession} {data : Bytes}

theorem getD_append_replicate {i n : Nat} (b : UInt8) (hle : data.length ≤ i)
    (hlt : i < data.length + n) : (data ++ List.replicate n b).getD i 0 = b := by
  rw [List.getD_eq_getElem?_getD, List.getElem?_append_right hle,
    List.getElem?_replicate_of_lt (by omega), Option.getD_some]

theorem payload_inj {msgId : UInt32} {payload payload' : Bytes}
    (h : [Effect.sendMessage (stackMsg host msgId payload)]
      = [.sendMessage (stackMsg host msgId payload')]) : payload = payload' := by
  rw [List.singleton_inj, Effect.sendMessage.injEq, stackMsg, stackMsg] at h
  exact List.append_cancel_left h

theorem sumIn_succ (host : Host) (memory : Bytes) (len : Nat) :
    TcpServerSession.sumIn host memory (len + 1) = TcpServerSession.sumIn host memory len
      + load32 host.byteOrder (bytesAt memory (DemoMsgReqSum.arr len).start) := by
  rw [TcpServerSession.sumIn, List.range_succ, List.foldl_append]
  rfl

/-- The last byte of an array is in the sum. -/
theorem sumIn_last_ne {i : Nat} (hlen : data.length = 27 + 4 * i) :
    TcpServerSession.sumIn host (data ++ [0]) (i + 1)
      ≠ TcpServerSession.sumIn host (data ++ [1]) (i + 1) := by
  intro hsum
  have hstart : (DemoMsgReqSum.arr i).start + 3 = data.length := by
    simp only [Field.start, sizeofMsgHdr, DemoMsgReqSum.arr]
    omega
  rw [sumIn_succ, sumIn_succ, sumIn_append host (by omega), sumIn_append host (by omega)] at hsum
  have hbytes := load32_injective _ ((UInt32.add_right_inj _).mp hsum)
  have hlast := congrFun hbytes (Fin.last 3)
  change (data ++ [0]).getD ((DemoMsgReqSum.arr i).start + 3) 0
    = (data ++ [1]).getD ((DemoMsgReqSum.arr i).start + 3) 0 at hlast
  rw [hstart] at hlast
  simp at hlast

/-- What is in memory behind the frame makes no difference. -/
def Frame.Decides (host : Host) (session : TcpServerSession) (data : Bytes) : Prop :=
  ∀ beyond beyond' : Bytes, (tcpServer host).onRead session (data ++ beyond)
    = (tcpServer host).onRead session (data ++ beyond')

variable (h : Frame.Decides host session data) (hheader : sizeofMsgHdr ≤ data.length)
include h hheader

theorem Frame.Decides.run (handler : RequestHandler)
    (hid : (MsgHdr.load host data).msgId = handler.msgId) (beyond beyond' : Bytes) :
    (handler.run host session (data ++ beyond)).effects
      = (handler.run host session (data ++ beyond')).effects := by
  have hid' (beyond : Bytes) : (MsgHdr.load host (data ++ beyond)).msgId = handler.msgId := by
    rw [MsgHdr.load_append host beyond hheader, hid]
  have hsame := h beyond beyond'
  rw [tcpServer_invoke session (hid' beyond), tcpServer_invoke session (hid' beyond')] at hsame
  exact (Prod.mk.inj hsame).1

theorem Frame.Decides.ping (hid : (MsgHdr.load host data).msgId = demoMsgIdPing) :
    DemoMsgPing.nsec.Within data := by
  by_contra hnot
  have hlt : data.length < 28 := Nat.not_le.mp hnot
  -- the last byte of the pong is the last byte of the ping
  have heffects := h.run hheader .onPing hid (List.replicate 28 0)
    (List.replicate 28 1)
  have hpayload := payload_inj (List.cons.inj heffects).2
  have hnsec := (List.append_inj' hpayload (by rw [Field.length_bytes, Field.length_bytes])).2
  have hbyte := congrArg (fun bytes : Bytes => bytes.getD 3 0) hnsec
  change (data ++ List.replicate 28 0).getD 27 0 = (data ++ List.replicate 28 1).getD 27 0 at hbyte
  rw [getD_append_replicate 0 (by omega) (by omega), getD_append_replicate 1 (by omega) (by omega)]
    at hbyte
  cases hbyte

theorem Frame.Decides.login (hid : (MsgHdr.load host data).msgId = demoMsgIdReqLogin) :
    DemoMsgReqLogin.userId.Ends data
      ∧ (strlen (data.drop DemoMsgReqLogin.userId.start) < DemoMsgReqLogin.userId.size →
        DemoMsgReqLogin.password.Ends data) := by
  have hsame (beyond : Bytes) (hpasses : RequestHandler.onLogin.passes host data = true)
      (hfails : RequestHandler.onLogin.passes host (data ++ beyond) = false) : False := by
    have heffects := h.run hheader .onLogin hid [] beyond
    rw [List.append_nil, RequestHandler.run, RequestHandler.run,
      (onLogin_passes session hpasses).1, (onLogin_fails session hfails).1] at heffects
    cases heffects
  constructor
  · by_contra hnot
    obtain ⟨hshort, hlong⟩ := Field.strlen_of_not_ends (by decide) hnot
    have hlt : data.length < 36 := Nat.not_le.mp (not_or.mp hnot).2
    refine hsame (List.replicate 36 1) ?_ ?_
    · have hnil : data.drop DemoMsgReqLogin.password.start = [] :=
        List.drop_eq_nil_of_le (Nat.le_of_lt hlt)
      rw [RequestHandler.passes, decide_eq_true hshort, hnil]
      rfl
    · have hlong' := hlong 36 (Nat.le_add_left 36 data.length)
      rw [RequestHandler.passes, decide_eq_false (Nat.not_lt.mpr hlong'), Bool.false_and]
  · intro huser
    by_contra hnot
    obtain ⟨hshort, hlong⟩ := Field.strlen_of_not_ends (by decide) hnot
    refine hsame (List.replicate 68 1) ?_ ?_
    · rw [RequestHandler.passes, decide_eq_true huser, decide_eq_true hshort, Bool.and_self]
    · have hlong' := hlong 68 (Nat.le_add_left 68 data.length)
      rw [RequestHandler.passes, decide_eq_false (Nat.not_lt.mpr hlong'), Bool.and_false]

theorem Frame.Decides.sum (hid : (MsgHdr.load host data).msgId = demoMsgIdReqSum)
    (hlogined : session.isLogined = true) :
    let len := load32 host.byteOrder (bytesAt data DemoMsgReqSum.arrLen.start)
    16 < len ∨ (DemoMsgReqSum.arrLen.Within data ∧ 24 + 4 * len.toNat ≤ data.length) := by
  intro len
  by_contra hnot
  obtain ⟨hsmall, houtside⟩ := not_or.mp hnot
  have hpasses : RequestHandler.onReqSum.passes host data = true :=
    decide_eq_true (UInt32.not_lt.mp hsmall)
  by_cases hwithin : DemoMsgReqSum.arrLen.Within data
  · -- the last byte of the array is behind the frame
    have hshort : data.length < 24 + 4 * len.toNat :=
      Nat.not_le.mp fun hle => houtside ⟨hwithin, hle⟩
    have hle : 24 ≤ data.length := hwithin
    obtain ⟨i, hi⟩ := Nat.exists_eq_add_one_of_ne_zero (show len.toNat ≠ 0 by omega)
    let before := data ++ List.replicate (27 + 4 * i - data.length) 0
    have hbefore : before.length = 27 + 4 * i := by
      rw [List.length_append, List.length_replicate]
      omega
    have hlen (beyond : Bytes) :
        load32 host.byteOrder (bytesAt (data ++ beyond) DemoMsgReqSum.arrLen.start) = len :=
      congrArg _ (bytesAt_append beyond hwithin)
    have hpasses' (beyond : Bytes) :
        RequestHandler.onReqSum.passes host (data ++ beyond) = true := by
      rw [RequestHandler.passes, hlen]
      exact hpasses
    have heffects := h.run hheader .onReqSum hid
      (List.replicate (27 + 4 * i - data.length) 0 ++ [0])
      (List.replicate (27 + 4 * i - data.length) 0 ++ [1])
    rw [RequestHandler.run, RequestHandler.run, (onReqSum_passes session (hpasses' _) hlogined).1,
      (onReqSum_passes session (hpasses' _) hlogined).1, hlen, hlen, hi] at heffects
    have hpayload := payload_inj heffects
    have hstored := (List.append_inj' hpayload (by rw [List.length_ofFn, List.length_ofFn])).2
    have hsum := congrArg (load32 host.byteOrder) (List.ofFn_injective hstored)
    rw [load32_store32, load32_store32, ← List.append_assoc, ← List.append_assoc] at hsum
    exact sumIn_last_ne hbefore hsum
  · -- the last byte of the length is behind the frame
    have hlt : data.length < 24 := Nat.not_le.mp hwithin
    have hlast : (bytesAt (data ++ List.replicate 8 255) DemoMsgReqSum.arrLen.start
        (Fin.last 3)).toNat = 255 :=
      congrArg UInt8.toNat
        (getD_append_replicate 255 (Nat.le_of_lt_succ hlt) (Nat.add_le_add_right hheader 8))
    have hfails : RequestHandler.onReqSum.passes host (data ++ List.replicate 8 255) = false := by
      refine decide_eq_false (UInt32.not_le.mpr (UInt32.lt_iff_toNat_lt.mpr ?_))
      have hle := toNat_last_le_load32 host.byteOrder
        (bytesAt (data ++ List.replicate 8 255) DemoMsgReqSum.arrLen.start)
      rw [hlast] at hle
      exact Nat.lt_of_lt_of_le (by decide) hle
    have heffects := h.run hheader .onReqSum hid [] (List.replicate 8 255)
    rw [List.append_nil, RequestHandler.run, RequestHandler.run,
      (onReqSum_passes session hpasses hlogined).1,
      (onReqSum_fails host _ session (Or.inl hfails)).1] at heffects
    cases heffects

end Undecided

/-- **When a frame decides.** What a server does about a frame, and the session that it is left
with, are the same whatever is in memory behind the frame, iff the frame is confined. -/
theorem frame_decides_iff (host : Host) (session : TcpServerSession) (data : Bytes)
    (hheader : sizeofMsgHdr ≤ data.length) :
    (∀ beyond beyond' : Bytes, (tcpServer host).onRead session (data ++ beyond)
        = (tcpServer host).onRead session (data ++ beyond'))
      ↔ Frame.Confined host session data := by
  constructor
  · intro h
    have hdecides : Frame.Decides host session data := h
    exact ⟨hdecides.ping hheader, hdecides.login hheader, hdecides.sum hheader⟩
  · intro h beyond beyond'
    rw [h.onRead_append hheader beyond, h.onRead_append hheader beyond']

/-- The pong for a ping without a payload depends on what nobody sent. -/
theorem frame_decides_iff_empty_ping :
    let data := (encoded Host.little (newStackMsg Host.little demoMsgIdPing 0)).data
    ¬ ∀ beyond beyond' : Bytes, (tcpServer Host.little).onRead .new (data ++ beyond)
      = (tcpServer Host.little).onRead .new (data ++ beyond') := by
  intro data hdecides
  have hwithin := ((frame_decides_iff Host.little .new data (by decide)).mp hdecides).ping
    (by decide +kernel)
  exact absurd hwithin (by decide +kernel)

/-! ### A server that is sent nothing else -/

/-- One frame after the other, with the session as the frames before have left it. -/
def Frame.AllConfined (host : Host) : TcpServerSession → List Frame → Prop
  | _, [] => True
  | session, frame :: frames => sizeofMsgHdr ≤ frame.data.length
      ∧ Frame.Confined host session frame.data
      ∧ AllConfined host ((tcpServer host).onRead session frame.data).2 frames

instance decidableAllConfined (host : Host) (session : TcpServerSession) :
    (frames : List Frame) → Decidable (Frame.AllConfined host session frames)
  | [] => .isTrue trivial
  | frame :: frames =>
      have := decidableAllConfined host ((tcpServer host).onRead session frame.data).2 frames
      inferInstanceAs (Decidable (_ ∧ _ ∧ _))

section Functions

variable {host : Host} {session : TcpServerSession}

/-- Of frames that decide, it does not matter what the handlers have seen behind them. -/
theorem Frame.AllConfined.replay_eq {frames : List Frame} {seen : List Bytes}
    (h : Frame.AllConfined host session frames) (hsees : Frame.Sees frames seen) :
    (tcpServer host).replay session seen
      = (tcpServer host).replay session (frames.map Frame.data) := by
  induction hsees generalizing session with
  | nil => rfl
  | @cons frame _ frames seen hprefix _ ih =>
      obtain ⟨hheader, hconfined, hrest⟩ := h
      obtain ⟨beyond, rfl⟩ := hprefix
      rw [List.map_cons, Application.replay_cons, Application.replay_cons,
        hconfined.onRead_append hheader beyond, ih hrest]

end Functions

theorem Process.Stopped.stuck {α τ β κ : Type} [BytesBuffer β] [FifoContract β] [SocketContext κ]
    {host : Host} {p : Process α τ κ} {s : Session β (Endpoint α κ)} {xs : Bytes}
    (hnext : p.decoder.next_ = none) (h : p.Stopped host s) (hxs : s.Holds xs) :
    Stuck (front host p.decoder.msgLenLimit) s.unread := by
  obtain ⟨exit, s', hleave⟩ := h
  rw [hxs.unread_eq]
  obtain ⟨_, _, hmore⟩ | ⟨_, _, _, hbad⟩ | ⟨_, frame, _, hret⟩ := parsePass_leave hxs hleave
  · exact stuck_of_more hmore
  · exact stuck_of_bad hbad
  · rw [BytesToMsgDecoder.next, hnext] at hret
    cases hret

/-- Frames that have been cut off the same bytes, until nothing more could be, are the same. -/
theorem Process.Alone.passed_eq {α τ β β' κ κ' : Type} [BytesBuffer β] [FifoContract β]
    [SocketContext κ] [BytesBuffer β'] [FifoContract β'] [SocketContext κ'] {host : Host}
    {sent : κ → Bytes} {down : κ → Prop} {sent' : κ' → Bytes} {down' : κ' → Prop}
    {p : Process α τ κ} {p' : Process α τ κ'} {peerLimit : UInt32} {t : Task β (Endpoint α κ)}
    {t' : Task β' (Endpoint α κ')} (h : p.Alone sent down host peerLimit t)
    (h' : p'.Alone sent' down' host peerLimit t') (hnext : p.decoder.next_ = none)
    (hnext' : p'.decoder.next_ = none)
    (hlimit : p.decoder.msgLenLimit = p'.decoder.msgLenLimit)
    (hreceived : t.session.received = t'.session.received) (hstopped : p.Stopped host t.session)
    (hstopped' : p'.Stopped host t'.session) : t.session.passed = t'.session.passed := by
  obtain ⟨xs, hxs⟩ := h.hasBuffer
  obtain ⟨xs', hxs'⟩ := h'.hasBuffer
  have hcuts := h.framed.cuts
  have hstuck := hstopped.stuck hnext hxs
  rw [hreceived, hlimit] at hcuts
  rw [hlimit] at hstuck
  obtain ⟨hdata, _⟩ := hcuts.unique hstuck h'.framed.cuts (hstopped'.stuck hnext' hxs')
  rw [h.framed.passed_eq, hdata, ← h'.framed.passed_eq]

/-- Parties that have taken the same frames, which decide, have done the same. -/
theorem Replays.unique {host : Host} {p p' : Party TcpServerSession Frame}
    (h : Replays host (tcpServer host) .new p) (h' : Replays host (tcpServer host) .new p')
    (htaken : p.taken = p'.taken) (hconfined : Frame.AllConfined host .new p.taken) :
    p.asked = p'.asked ∧ p.state = p'.state ∧ p.closed = p'.closed := by
  obtain ⟨seen, hsees, hasked, hclosed, hstate⟩ := h
  obtain ⟨seen', hsees', hasked', hclosed', hstate'⟩ := h'
  have hseen : (tcpServer host).replay .new seen = (tcpServer host).replay .new seen' := by
    calc (tcpServer host).replay .new seen
      _ = (tcpServer host).replay .new (p.taken.map Frame.data) := hconfined.replay_eq hsees
      _ = (tcpServer host).replay .new (p'.taken.map Frame.data) := by rw [htaken]
      _ = (tcpServer host).replay .new seen' := by
        rw [htaken] at hconfined
        exact (hconfined.replay_eq hsees').symm
  rw [hseen] at hasked hclosed hstate
  exact ⟨hasked.trans hasked'.symm, hstate.trans hstate'.symm, hclosed.trans hclosed'.symm⟩

end BabelTrader
