import BabelTrader.DemoProtocol
import BabelTrader.Proof.RequestHandlers

/-!
# Demo messages as bytes

A member of a message lies in the frame where both sides look for it, so a handler given the frame
of a request finds the request there, whatever lies behind the frame.
-/

namespace BabelTrader

open MachineWord CString

/-! ### Members in memory -/

section Members

variable {memory cells : Bytes} (before after : Bytes)

theorem Field.bytes_eq {field : Field} (hmemory : memory = before ++ (cells ++ after))
    (hbefore : before.length = field.start) (hcells : cells.length = field.size) :
    field.bytes memory = cells := by
  subst hmemory
  apply List.ext_getElem
  · rw [bytes, List.length_map, List.length_range, hcells]
  · intro i _ hi
    simp only [bytes, List.getElem_map, List.getElem_range, List.getD_eq_getElem?_getD]
    rw [List.getElem?_append_right (by omega), hbefore, Nat.add_sub_cancel_left,
      List.getElem?_append_left hi, List.getElem?_eq_getElem hi, Option.getD_some]

theorem bytesAt_eq {cells : Fin 4 → UInt8} (hmemory : memory = before ++ (List.ofFn cells ++ after))
    {offset : Nat} (hbefore : before.length = offset) : bytesAt memory offset = cells := by
  subst hmemory
  funext i
  have hi : i.val < (List.ofFn cells).length := by
    rw [List.length_ofFn]
    exact i.isLt
  simp only [bytesAt, List.getD_eq_getElem?_getD]
  rw [List.getElem?_append_right (by omega), hbefore, Nat.add_sub_cancel_left,
    List.getElem?_append_left hi, List.getElem?_eq_getElem hi, Option.getD_some,
    List.getElem_ofFn]

end Members

/-! ### Messages with a payload -/

section Stack

variable {host : Host} {limit msgId : UInt32} {payload : Bytes}

theorem length_stackMsg : (stackMsg host msgId payload).length = sizeofMsgHdr + payload.length := by
  rw [stackMsg, List.length_append, MsgHdr.store_length]

theorem sendable_stackMsg (h : sizeofMsgHdr + payload.length ≤ limit.toNat) :
    Sendable host limit (stackMsg host msgId payload) := by
  refine ⟨?_, length_stackMsg.trans_le h, ?_, ?_⟩
  · rw [length_stackMsg]
    exact Nat.le_add_right _ _
  · rw [stackMsg, MsgHdr.load_store]
  · rw [stackMsg, MsgHdr.load_store]

/-- The frame is a header with the message's id, and the payload. -/
theorem data_encoded_stackMsg (host : Host) (msgId : UInt32) (payload : Bytes) :
    ∃ hdr : MsgHdr, hdr.msgId = msgId
      ∧ (encoded host (stackMsg host msgId payload)).data = hdr.store host ++ payload := by
  refine ⟨MsgHdr.stamp host ⟨fun _ => 0, fun _ => 0, msgId, 0⟩
    (UInt32.ofNat (stackMsg host msgId payload).length), rfl, ?_⟩
  rw [encoded, stamp, stackMsg, MsgHdr.load_store, List.drop_left' (MsgHdr.store_length host _)]

theorem msgId_load_stackMsg (beyond : Bytes) :
    (MsgHdr.load host ((encoded host (stackMsg host msgId payload)).data ++ beyond)).msgId
      = msgId := by
  obtain ⟨hdr, hid, hdata⟩ := data_encoded_stackMsg host msgId payload
  rw [hdata, List.append_assoc, MsgHdr.load_store, hid]

end Stack

/-! ### Requests at the server -/

theorem length_flatMap_store32 (order : ByteOrder) (arr : List UInt32) :
    (arr.flatMap fun element => List.ofFn (store32 order element)).length = 4 * arr.length := by
  induction arr with
  | nil => rfl
  | cons element arr ih =>
      rw [List.flatMap_cons, List.length_append, ih, List.length_ofFn, List.length_cons]
      omega

section Requests

variable {host : Host} {session : TcpServerSession} {memory beyond : Bytes} {hdr : MsgHdr}

/-- What is in memory when a handler is given the frame of a request. -/
theorem Request.memory_eq (host : Host) (req : Request) (beyond : Bytes) :
    ∃ hdr : MsgHdr, (req.frame host).data ++ beyond
      = hdr.store host ++ (req.payload host.byteOrder ++ beyond) := by
  obtain ⟨hdr, _, hdata⟩ := data_encoded_stackMsg host req.msgId (req.payload host.byteOrder)
  refine ⟨hdr, ?_⟩
  rw [frame, msg, hdata, List.append_assoc]

theorem onPing_request (sec : UInt64) (nsec : UInt32) (hmemory : memory
    = hdr.store host ++ ((Request.ping sec nsec).payload host.byteOrder ++ beyond)) :
    (session.onPing host memory).effects
      = [.updateActiveTime, .sendMessage ((Request.ping sec nsec).respond.msg host)] := by
  have hstore := MsgHdr.store_length host hdr
  rw [Request.payload, List.append_assoc] at hmemory
  have hsec : DemoMsgPing.sec.bytes memory = List.ofFn (store64 host.byteOrder sec) :=
    Field.bytes_eq _ _ hmemory hstore List.length_ofFn
  have hnsec : DemoMsgPing.nsec.bytes memory = List.ofFn (store32 host.byteOrder nsec) := by
    rw [← List.append_assoc] at hmemory
    refine Field.bytes_eq _ _ hmemory ?_ List.length_ofFn
    rw [List.length_append, hstore, List.length_ofFn]
    rfl
  simp only [TcpServerSession.onPing, hsec, hnsec]
  rfl

variable (session) in
theorem onLogin_request (reqId : UInt32) (userId password : Bytes) (hmemory : memory
    = hdr.store host
      ++ ((Request.login reqId userId password).payload host.byteOrder ++ beyond)) :
    (session.onLogin host memory).effects
        = [.sendMessage ((Request.login reqId userId password).respond.msg host)]
      ∧ (session.onLogin host memory).session = ⟨string (userId.take 15), true⟩ := by
  have hstore := MsgHdr.store_length host hdr
  rw [Request.payload, List.append_assoc, List.append_assoc] at hmemory
  have hreqId : DemoMsgReqLogin.reqId.bytes memory = List.ofFn (store32 host.byteOrder reqId) :=
    Field.bytes_eq _ _ hmemory hstore List.length_ofFn
  have huserId : memory.drop DemoMsgReqLogin.userId.start
      = strncpy userId 15 ++ [0] ++ ((strncpy password 31 ++ [0]) ++ beyond) := by
    rw [hmemory, ← List.append_assoc]
    apply List.drop_left'
    rw [List.length_append, hstore, List.length_ofFn]
    rfl
  have hpassword : memory.drop DemoMsgReqLogin.password.start
      = strncpy password 31 ++ [0] ++ beyond := by
    rw [hmemory, ← List.append_assoc, ← List.append_assoc (_ ++ _)]
    apply List.drop_left'
    rw [List.length_append, List.length_append, hstore, List.length_ofFn, List.length_append,
      length_strncpy]
    rfl
  have hshort : ¬ DemoMsgReqLogin.userId.size
      ≤ strlen (memory.drop DemoMsgReqLogin.userId.start) := by
    rw [huserId]
    exact Nat.not_le.mpr (Nat.lt_succ_of_le (strlen_strncpy_le _ _ _))
  have hshort' : ¬ DemoMsgReqLogin.password.size
      ≤ strlen (memory.drop DemoMsgReqLogin.password.start) := by
    rw [hpassword]
    exact Nat.not_le.mpr (Nat.lt_succ_of_le (strlen_strncpy_le _ _ _))
  rw [TcpServerSession.onLogin, TcpServerSession.onLoginThen, TcpServerSession.checkMsgStrLen,
    if_neg hshort, TcpServerSession.checkMsgStrLen, if_neg hshort', hreqId, huserId,
    string_strncpy]
  exact ⟨rfl, rfl⟩

/-- The element at `i`, with everything before it. -/
theorem bytesAt_arr {arr : List UInt32} {order : ByteOrder} {before : Bytes} {i : Nat}
    (hi : i < arr.length) (hmemory : memory
      = before ++ (arr.flatMap (fun element => List.ofFn (store32 order element)) ++ beyond)) :
    bytesAt memory (before.length + 4 * i) = store32 order arr[i] := by
  have hsplit : arr.flatMap (fun element => List.ofFn (store32 order element))
      = (arr.take i).flatMap (fun element => List.ofFn (store32 order element))
        ++ (List.ofFn (store32 order arr[i])
          ++ (arr.drop (i + 1)).flatMap fun element => List.ofFn (store32 order element)) := by
    conv_lhs => rw [← List.take_append_drop i arr, List.drop_eq_getElem_cons hi]
    rw [List.flatMap_append, List.flatMap_cons]
  have hmemory' : memory
      = (before ++ (arr.take i).flatMap fun element => List.ofFn (store32 order element))
        ++ (List.ofFn (store32 order arr[i])
          ++ (((arr.drop (i + 1)).flatMap fun element => List.ofFn (store32 order element))
            ++ beyond)) := by
    rw [hmemory, hsplit]
    simp only [List.append_assoc]
  apply bytesAt_eq _ _ hmemory'
  rw [List.length_append, length_flatMap_store32, List.length_take_of_le (Nat.le_of_lt hi)]

theorem onReqSum_request (reqId : UInt32) {arr : List UInt32} (hfits : arr.length ≤ 16)
    (hlogined : session.isLogined = true) (hmemory : memory
      = hdr.store host ++ ((Request.sum reqId arr).payload host.byteOrder ++ beyond)) :
    (session.onReqSum host memory).effects
      = [.sendMessage ((Request.sum reqId arr).respond.msg host)] := by
  have hstore := MsgHdr.store_length host hdr
  rw [Request.payload, List.append_assoc, List.append_assoc] at hmemory
  have hreqId : DemoMsgReqSum.reqId.bytes memory = List.ofFn (store32 host.byteOrder reqId) :=
    Field.bytes_eq _ _ hmemory hstore List.length_ofFn
  rw [← List.append_assoc] at hmemory
  have hlen : load32 host.byteOrder (bytesAt memory DemoMsgReqSum.arrLen.start)
      = UInt32.ofNat arr.length := by
    rw [bytesAt_eq _ _ hmemory, load32_store32]
    rw [List.length_append, hstore, List.length_ofFn]
    rfl
  have hcount : (UInt32.ofNat arr.length).toNat = arr.length :=
    UInt32.toNat_ofNat_of_lt' (Nat.lt_of_le_of_lt hfits (by decide))
  have hnot : ¬ 16 < UInt32.ofNat arr.length := by
    rw [UInt32.lt_iff_toNat_lt, hcount]
    exact Nat.not_lt.mpr hfits
  rw [← List.append_assoc] at hmemory
  have harr : (List.range arr.length).map
      (fun i => load32 host.byteOrder (bytesAt memory (DemoMsgReqSum.arr i).start)) = arr := by
    apply List.ext_getElem
    · rw [List.length_map, List.length_range]
    · intro i _ hi
      have hoffset : (DemoMsgReqSum.arr i).start = (hdr.store host
          ++ List.ofFn (store32 host.byteOrder reqId)
          ++ List.ofFn (store32 host.byteOrder (UInt32.ofNat arr.length))).length + 4 * i := by
        rw [List.length_append, List.length_append, hstore, List.length_ofFn, List.length_ofFn]
        simp only [Field.start, DemoMsgReqSum.arr, sizeofMsgHdr]
        omega
      rw [List.getElem_map, List.getElem_range, hoffset, bytesAt_arr hi hmemory, load32_store32]
  have hsum : (List.range arr.length).foldl
      (fun sum i => sum + load32 host.byteOrder (bytesAt memory (DemoMsgReqSum.arr i).start)) 0
        = arr.foldl (· + ·) 0 := by
    conv_rhs => rw [← harr]
    rw [List.foldl_map]
  rw [TcpServerSession.onReqSum, TcpServerSession.checkAuth, if_pos hlogined, hlen, if_neg hnot,
    hcount, hreqId]
  simp only [hsum]
  rfl

/-- **A request is answered**, with its own response and nothing else. -/
theorem tcpServer_request {req : Request} (hfits : req.Fits)
    (hauth : req.needsLogin = true → session.isLogined = true) (beyond : Bytes) :
    Effect.acts host ((tcpServer host).onRead session ((req.frame host).data ++ beyond)).1
        = [.send (req.respond.frame host)]
      ∧ ((tcpServer host).onRead session ((req.frame host).data ++ beyond)).2.isLogined
        = (session.isLogined || req.isLogin) := by
  obtain ⟨hdr, hmemory⟩ := req.memory_eq host beyond
  have hid : (MsgHdr.load host ((req.frame host).data ++ beyond)).msgId = req.msgId :=
    msgId_load_stackMsg beyond
  have hinvoke (handler : RequestHandler) (hhandler : req.msgId = handler.msgId) :=
    (RequestHandler.dispatch_eq_invoke_iff _ handler).mpr (hid.trans hhandler)
  cases req with
  | login reqId userId password =>
      obtain ⟨heffects, hsession⟩ :=
        onLogin_request session reqId userId password hmemory
      simp only [tcpServer, hinvoke .onLogin rfl, RequestHandler.run, heffects, hsession]
      exact ⟨rfl, (Bool.or_true _).symm⟩
  | ping sec nsec =>
      simp only [tcpServer, hinvoke .onPing rfl, RequestHandler.run,
        onPing_request sec nsec hmemory]
      exact ⟨rfl, (Bool.or_false _).symm⟩
  | sum reqId arr =>
      have hlogined := hauth rfl
      simp only [tcpServer, hinvoke .onReqSum rfl, RequestHandler.run,
        onReqSum_request reqId hfits hlogined hmemory, hlogined, Request.isLogin]
      refine ⟨rfl, ?_⟩
      rw [TcpServerSession.onReqSum, TcpServerSession.checkAuth, if_pos hlogined]
      split <;> exact hlogined

end Requests

/-! ### Responses at the client -/

namespace ResponseHandler

theorem callback_dispatcher (id : UInt32) :
    dispatcher.callback id
      = if demoMsgIdPong = id then some onPong
        else if demoMsgIdRspLogin = id then some onRspLogin
        else if demoMsgIdRspSum = id then some onRspSum else none := by
  have hhistory : (Dispatcher.setups registerCallbacks).1
      = registerCallbacks.map fun call => (call, true) := by decide
  rw [dispatcher, (Dispatcher.records_setups registerCallbacks).callback_eq, hhistory]
  simp only [firstRegistered, registerCallbacks, List.map_cons, List.map_nil,
    List.findSome?_cons, List.findSome?_nil]
  split_ifs <;> rfl

theorem dispatch_eq_invoke_iff (hdr : MsgHdr) (handler : ResponseHandler) :
    dispatcher.dispatch hdr = .invoke handler ↔ hdr.msgId = handler.msgId := by
  have htotal : dispatcher.totalMsg = maxDemoMsgId := by decide
  constructor
  · intro hdispatch
    rw [Dispatcher.dispatch, callback_dispatcher] at hdispatch
    split_ifs at hdispatch with hlt hpong hlogin hsum
    · cases hdispatch
      exact hpong.symm
    · cases hdispatch
      exact hlogin.symm
    · cases hdispatch
      exact hsum.symm
  · intro hid
    rw [Dispatcher.dispatch, callback_dispatcher, htotal, hid]
    cases handler <;> rfl

end ResponseHandler

section Responses

variable {host : Host} {session : TcpClientSession}

variable (host session) in
/-- A response makes the client do nothing, and a login that has succeeded is remembered. -/
theorem tcpClient_response {rsp : Response} (hgrants : ∀ reqId, rsp ≠ .login reqId 0)
    (beyond : Bytes) :
    Effect.acts host
          ((tcpClient host).onRead (some session) ((rsp.frame host).data ++ beyond)).1 = []
      ∧ ((tcpClient host).onRead (some session) ((rsp.frame host).data ++ beyond)).2
        = some { session with isLogined := session.isLogined || rsp.grants } := by
  have hid : (MsgHdr.load host ((rsp.frame host).data ++ beyond)).msgId = rsp.msgId :=
    msgId_load_stackMsg beyond
  have hinvoke (handler : ResponseHandler) (hhandler : rsp.msgId = handler.msgId) :=
    (ResponseHandler.dispatch_eq_invoke_iff _ handler).mpr (hid.trans hhandler)
  cases rsp with
  | login reqId result =>
      have hresult : result ≠ 0 := by
        rintro rfl
        exact hgrants reqId rfl
      obtain ⟨hdr, _, hdata⟩ := data_encoded_stackMsg host demoMsgIdRspLogin
        ((Response.login reqId result).payload host.byteOrder)
      have hbytes : DemoMsgRspLogin.loginResult.bytes
          (((Response.login reqId result).frame host).data ++ beyond) = [result] := by
        refine Field.bytes_eq (hdr.store host ++ List.ofFn (store32 host.byteOrder reqId)) beyond
          ?_ ?_ rfl
        · rw [Response.frame, Response.msg, Response.msgId, hdata, Response.payload]
          simp only [List.append_assoc]
        · rw [List.length_append, MsgHdr.store_length, List.length_ofFn]
          rfl
      have hnot : ¬ [result] = [0] := fun h => hresult (List.cons.inj h).1
      simp only [tcpClient, hinvoke .onRspLogin rfl, ResponseHandler.run,
        TcpClientSession.onRspLogin, hbytes, if_neg hnot, Response.grants]
      refine ⟨rfl, ?_⟩
      simp [hresult]
  | pong sec nsec =>
      simp only [tcpClient, hinvoke .onPong rfl, ResponseHandler.run, TcpClientSession.onPong,
        Response.grants, Bool.or_false]
      exact ⟨rfl, trivial⟩
  | sum reqId total =>
      simp only [tcpClient, hinvoke .onRspSum rfl, ResponseHandler.run, TcpClientSession.onRspSum,
        Response.grants, Bool.or_false]
      exact ⟨rfl, trivial⟩

end Responses

/-! ### What the client asks -/

namespace TcpClientSession

variable (host : Host) (session : TcpClientSession)

def loginRequest (rand : Nat) : Request :=
  .login session.reqId (users.getD (rand % users.length) []) password

def sumRequest (count : UInt32) (rands : Nat → UInt32) : Request :=
  .sum session.reqId ((List.range (sumCount count).toNat).map fun i => sumElement (rands i))

theorem toNat_sumCount_le (rand : UInt32) : (sumCount rand).toNat ≤ 10 := by
  have hmod : (rand % 10).toNat < 10 := by
    rw [UInt32.toNat_mod]
    exact Nat.mod_lt _ (by decide)
  rw [sumCount, UInt32.toNat_add]
  calc ((rand % 10).toNat + (1 : UInt32).toNat) % 2 ^ 32
    _ ≤ (rand % 10).toNat + (1 : UInt32).toNat := Nat.mod_le _ _
    _ ≤ 10 := hmod

theorem toInt_sumElement (rand : UInt32) :
    -100 ≤ toInt (sumElement rand) ∧ toInt (sumElement rand) ≤ 100 := by
  have hmod : (rand % 201).toNat < 201 := by
    rw [UInt32.toNat_mod]
    exact Nat.mod_lt _ (by decide)
  have hrand : toInt (rand % 201) = (rand % 201).toNat := toInt_of_lt (by omega)
  have hhundred : toInt 100 = 100 := by decide
  rw [sumElement, toInt_sub (by omega) (by omega), hrand, hhundred]
  omega

theorem small_sumRequest (count : UInt32) (rands : Nat → UInt32) :
    (session.sumRequest count rands).Small := by
  refine ⟨?_, fun element helement => ?_⟩
  · rw [List.length_map, List.length_range]
    exact toNat_sumCount_le count
  · obtain ⟨i, _, rfl⟩ := List.mem_map.mp helement
    exact toInt_sumElement (rands i)

theorem requestSum_eq (count : UInt32) (rands : Nat → UInt32) :
    session.requestSum host count rands
      = ([.sendMessage ((session.sumRequest count rands).msg host)],
        { session with reqId := session.reqId + 1 }) := by
  have hcount : UInt32.ofNat ((List.range (sumCount count).toNat).map
      fun i => sumElement (rands i)).length = sumCount count := by
    rw [List.length_map, List.length_range, UInt32.ofNat_toNat]
  rw [requestSum, sumRequest, Request.msg, Request.msgId, Request.payload, hcount]

end TcpClientSession

/-! ### Both sides keep to the limits -/

theorem Request.Small.fits {req : Request} (h : req.Small) : req.Fits := by
  cases req with
  | login => trivial
  | ping => trivial
  | sum reqId arr => exact Nat.le_trans h.1 (by decide)

theorem Request.sendable {host : Host} {limit : UInt32} {req : Request} (hfits : req.Fits)
    (hlimit : 88 ≤ limit.toNat) : Sendable host limit (req.msg host) := by
  apply sendable_stackMsg
  cases req with
  | login reqId userId password =>
      simp only [payload, List.length_append, List.length_ofFn, length_strncpy, List.length_cons,
        List.length_nil, sizeofMsgHdr]
      omega
  | ping sec nsec =>
      simp only [payload, List.length_append, List.length_ofFn, sizeofMsgHdr]
      omega
  | sum reqId arr =>
      rw [Fits] at hfits
      simp only [payload, List.length_append, List.length_ofFn, length_flatMap_store32,
        sizeofMsgHdr]
      omega

theorem ResponseHandler.sends_nothing {handler : ResponseHandler} {session : TcpClientSession}
    {memory msg : Bytes} : Effect.sendMessage msg ∉ (handler.run session memory).effects := by
  cases handler with
  | onPong => simp [run, TcpClientSession.onPong]
  | onRspSum => simp [run, TcpClientSession.onRspSum]
  | onRspLogin =>
      rw [run, TcpClientSession.onRspLogin]
      split <;> simp

/-- The requests that the client makes when its handle calls it. -/
def clientRequests : Option TcpClientSession → ClientEvent → List Request
  | none, .addCtx rand => [TcpClientSession.new.loginRequest rand]
  | some session, .timer sec nsec count rands =>
      .ping sec nsec :: if session.isLogined then [session.sumRequest count rands] else []
  | none, .timer _ _ _ _ | some _, .addCtx _ => []

theorem clientRequests_small {session_ : Option TcpClientSession} {event : ClientEvent}
    {req : Request} (h : req ∈ clientRequests session_ event) : req.Small := by
  cases session_ with
  | none =>
      cases event with
      | addCtx rand =>
          obtain rfl := List.mem_singleton.mp h
          trivial
      | timer => cases h
  | some session =>
      cases event with
      | addCtx => cases h
      | timer sec nsec count rands =>
          obtain rfl | htail := List.mem_cons.mp h
          · trivial
          · split at htail
            · obtain rfl := List.mem_singleton.mp htail
              exact session.small_sumRequest count rands
            · cases htail

/-- The session after such a call: every request with an id has taken the next one. -/
def clientNext (session_ : Option TcpClientSession) (event : ClientEvent) :
    Option TcpClientSession :=
  match session_, event with
  | none, .addCtx _ => some { TcpClientSession.new with reqId := 1 }
  | some session, .timer _ _ _ _ =>
      some { session with
        reqId := if session.isLogined then session.reqId + 1 else session.reqId }
  | none, .timer _ _ _ _ | some _, .addCtx _ => session_

theorem tcpClient_onEvent (host : Host) (session_ : Option TcpClientSession)
    (event : ClientEvent) :
    (tcpClient host).onEvent session_ event
      = ((clientRequests session_ event).map fun req => .sendMessage (req.msg host),
        clientNext session_ event) := by
  cases session_ with
  | none => cases event <;> rfl
  | some session =>
      cases event with
      | addCtx => rfl
      | timer sec nsec count rands =>
          simp only [tcpClient, TcpClientSession.onTimer, clientRequests, clientNext,
            TcpClientSession.requestSum_eq]
          split <;> rfl

theorem mem_sends_acts {host : Host} {effects : List Effect} {frame : Frame}
    (h : frame ∈ Mailbox.sends (Effect.acts host effects)) :
    ∃ msg, .sendMessage msg ∈ effects ∧ frame = encoded host msg := by
  obtain ⟨act, hact, hframe⟩ := List.mem_filterMap.mp h
  obtain ⟨effect, heffect, hsome⟩ := List.mem_filterMap.mp hact
  cases effect with
  | sendMessage msg =>
      cases hsome
      cases hframe
      exact ⟨msg, heffect, rfl⟩
  | close =>
      cases hsome
      cases hframe
  | updateActiveTime => cases hsome
  | detach => cases hsome

/-- **Whatever a client is given**, it sends nothing, and at most notes that it is logged in. -/
theorem tcpClient_onRead (host : Host) (session_ : Option TcpClientSession) (memory : Bytes) :
    Mailbox.sends (Effect.acts host ((tcpClient host).onRead session_ memory).1) = []
      ∧ (((tcpClient host).onRead session_ memory).2 = session_
        ∨ ∃ session, session_ = some session
          ∧ ((tcpClient host).onRead session_ memory).2
            = some { session with isLogined := true }) := by
  cases session_ with
  | none => exact ⟨rfl, Or.inl rfl⟩
  | some session =>
      cases hdispatch : ResponseHandler.dispatcher.dispatch (MsgHdr.load host memory) with
      | noCallback => simp only [tcpClient, hdispatch]; exact ⟨rfl, Or.inl trivial⟩
      | close => simp only [tcpClient, hdispatch]; exact ⟨rfl, Or.inl trivial⟩
      | invoke handler =>
          simp only [tcpClient, hdispatch]
          refine ⟨List.eq_nil_iff_forall_not_mem.mpr fun frame hframe => ?_, ?_⟩
          · obtain ⟨msg, hmsg, _⟩ := mem_sends_acts hframe
            exact ResponseHandler.sends_nothing hmsg
          · cases handler with
            | onPong => exact Or.inl rfl
            | onRspSum => exact Or.inl rfl
            | onRspLogin =>
                rw [ResponseHandler.run, TcpClientSession.onRspLogin]
                split
                · exact Or.inl rfl
                · exact Or.inr ⟨session, rfl, rfl⟩

theorem tcpClient_sends (host : Host) {limit : UInt32} (hlimit : 88 ≤ limit.toNat) :
    (tcpClient host).Sends host limit where
  onRead session_ memory msg hmsg := by
    cases session_ with
    | none => cases hmsg
    | some session =>
        cases hdispatch : ResponseHandler.dispatcher.dispatch (MsgHdr.load host memory) with
        | invoke handler =>
            simp only [tcpClient, hdispatch] at hmsg
            exact absurd hmsg ResponseHandler.sends_nothing
        | noCallback => simp [tcpClient, hdispatch] at hmsg
        | close => simp [tcpClient, hdispatch] at hmsg
  onEvent session_ event msg hmsg := by
    rw [tcpClient_onEvent] at hmsg
    obtain ⟨req, hreq, heq⟩ := List.mem_map.mp hmsg
    cases heq
    exact Request.sendable (clientRequests_small hreq).fits hlimit

@[simp]
theorem Field.length_bytes (memory : Bytes) (field : Field) :
    (field.bytes memory).length = field.size := by
  rw [bytes, List.length_map, List.length_range]

/-- Whatever a server is given, its responses are short. -/
theorem RequestHandler.sends {host : Host} {handler : RequestHandler} {session : TcpServerSession}
    {memory msg : Bytes} (h : .sendMessage msg ∈ (handler.run host session memory).effects) :
    ∃ msgId payload, msg = stackMsg host msgId payload ∧ payload.length ≤ 12 := by
  cases handler with
  | onPing =>
      simp only [run, TcpServerSession.onPing, List.mem_cons, List.not_mem_nil, or_false,
        reduceCtorEq, false_or, Effect.sendMessage.injEq] at h
      exact ⟨_, _, h, by simp [DemoMsgPing.sec, DemoMsgPing.nsec]⟩
  | onLogin =>
      simp only [run, TcpServerSession.onLogin, TcpServerSession.onLoginThen,
        TcpServerSession.checkMsgStrLen] at h
      split_ifs at h
      · simp at h
      · simp at h
      · simp only [List.mem_singleton, Effect.sendMessage.injEq] at h
        exact ⟨_, _, h, by simp [DemoMsgReqLogin.reqId]⟩
  | onReqSum =>
      simp only [run, TcpServerSession.onReqSum, TcpServerSession.checkAuth] at h
      split_ifs at h
      · simp at h
      · simp only [List.mem_singleton, Effect.sendMessage.injEq] at h
        exact ⟨_, _, h, by simp [DemoMsgReqSum.reqId]⟩
      · simp at h

theorem tcpServer_sends (host : Host) {limit : UInt32} (hlimit : 28 ≤ limit.toNat) :
    (tcpServer host).Sends host limit where
  onRead session memory msg hmsg := by
    cases hdispatch : RequestHandler.dispatcher.dispatch (MsgHdr.load host memory) with
    | invoke handler =>
        simp only [tcpServer, hdispatch] at hmsg
        obtain ⟨msgId, payload, rfl, hlen⟩ := RequestHandler.sends hmsg
        exact sendable_stackMsg (Nat.le_trans (Nat.add_le_add_left hlen _) hlimit)
    | noCallback => simp [tcpServer, hdispatch] at hmsg
    | close => simp [tcpServer, hdispatch] at hmsg
  onEvent _ event := event.elim

end BabelTrader
