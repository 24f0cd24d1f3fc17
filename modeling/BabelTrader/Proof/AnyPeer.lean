import BabelTrader.Proof.DemoConversation

/-!
# One side, whoever the other is

A session whose peer sends anything at all still behaves like a party of the conversation: what it
has been handed may be arbitrary frames, but what it sends stays whole messages in order. So what a
client or a server owes to nobody else's good behaviour can be proved of the party alone.
-/

namespace BabelTrader

open MachineWord CString Framing BytesBuffer Mailbox

/-! ### From bytes to messages -/

section Alone

variable {α τ β κ : Type} [BytesBuffer β] [FifoContract β] [SocketContext κ] {host : Host}
  {sent : κ → Bytes} {down : κ → Prop} {p : Process α τ κ} {peerLimit : UInt32}
  {t : Task β (Endpoint α κ)}

/-- A session that has kept to itself what it sends, and has cut up what it was given. -/
structure Process.Alone (sent : κ → Bytes) (down : κ → Prop) (host : Host) (p : Process α τ κ)
    (peerLimit : UInt32) (t : Task β (Endpoint α κ)) : Prop where
  sending : t.session.env.Sending sent down host peerLimit
  framed : t.session.Framed host p.decoder.msgLenLimit
  hasBuffer : ∃ xs, t.session.Holds xs

theorem Process.Alone.run (hsocket : SocketContract sent down) (hp : p.Prepared host peerLimit)
    (hpeerLimit : peerLimit.toNat < 2 ^ 31) (h : p.Alone sent down host peerLimit t)
    (moves : List (Bytes × Move τ)) :
    p.Alone sent down host peerLimit (p.run host t moves)
      ∧ Party.Reaches (p.app.behaviour host) (t.party host) ((p.run host t moves).party host) := by
  induction moves generalizing t with
  | nil => exact ⟨h, .refl⟩
  | cons turn moves ih =>
      have hmoved :=
        Process.moved turn.1 hsocket hp hpeerLimit h.sending h.framed h.hasBuffer turn.2
      obtain ⟨halone, hreaches⟩ := ih ⟨hmoved.sending, hmoved.framed, hmoved.hasBuffer⟩
      refine ⟨halone, ?_⟩
      obtain hsame | hmoves := hmoved.moves
      · rwa [hsame] at hreaches
      · exact .head ⟨_, hmoves⟩ hreaches

end Alone

/-- **Whatever the peer does.** In every run of one session, whatever bytes arrive and however its
moves are scheduled, what its socket has transferred is the whole frames of the messages that
`SendMessage` accepted, in their order, and at most a part of one more; and what it was handed and
what it asked is a run of its application as a party that takes whole frames. -/
theorem endpoint_refines {α τ β κ : Type} [BytesBuffer β] [FifoContract β] [SocketContext κ]
    (host : Host) (sent : κ → Bytes) (down : κ → Prop) (p : Process α τ κ) (peerLimit : UInt32)
    (app : α) (buf : β) (ctx : κ) (moves : List (Bytes × Move τ))
    (hsocket : SocketContract sent down) (hp : p.Prepared host peerLimit)
    (hpeerLimit : peerLimit.toNat < 2 ^ 31) (hbuf : contents buf = []) (hctx : sent ctx = []) :
    let t := p.run host ⟨.idle, .init buf (.start app ctx)⟩ moves
    p.Alone sent down host peerLimit t
      ∧ Party.Reaches (p.app.behaviour host) (.start app) (t.party host) :=
  Process.Alone.run hsocket hp hpeerLimit
    ⟨Endpoint.sending_start app hctx, (Session.fresh_init hbuf _).toUnused.framed, [],
      (Session.fresh_init hbuf _).holds⟩ moves

/-- A server that is asked for a sum before a login, and for a pong after that. -/
def earlySum : List (Bytes × Move Empty) :=
  let wire := ((Request.sum 0 [1, 2]).frame Host.little).data
    ++ ((Request.ping 1 2).frame Host.little).data
  [(wire, .arrive 100), (wire, .turn), (wire, .turn), (wire, .turn), (wire, .turn), (wire, .turn)]

theorem endpoint_refines_earlySum :
    let p := runTcpServer Host.little
    let t := p.run Host.little ⟨.idle, .init (FlatBuffer.init 32768 (by decide))
      (.start .new (⟨[28], [], false⟩ : ScriptedSocket))⟩ earlySum
    t.session.passed.length = 2
      ∧ p.Alone ScriptedSocket.sent (fun ctx => ctx.down = true) Host.little 28 t
      ∧ Party.Reaches (p.app.behaviour Host.little) (.start .new) (t.party Host.little) :=
  ⟨by decide +kernel,
    endpoint_refines Host.little ScriptedSocket.sent (fun ctx => ctx.down = true) _ 28 _ _ _
      earlySum ScriptedSocket.contract (prepared_runTcpServer _ (by decide)) (by decide)
      (FlatBuffer.contents_init (by decide)) rfl⟩

/-! ### A client and any server -/

section Client

variable {host : Host} {inbox : List Frame} {p p' : Party (Option TcpClientSession) Frame}

/-- A client that has noted that it is logged in was granted it, and one that has closed was refused
something. -/
structure ClientHeeds (host : Host) (p : Party (Option TcpClientSession) Frame) : Prop where
  logined : ∀ session, p.state = some session → session.isLogined = true →
    ∃ frame ∈ p.taken, ∃ beyond, ResponseHandler.Grants host (frame.data ++ beyond)
  closed : p.closed = true →
    ∃ frame ∈ p.taken, ∃ beyond, ResponseHandler.Refuses host (frame.data ++ beyond)

/-- **What a client makes of anything.** -/
theorem tcpClient_heeds (host : Host) (session_ : Option TcpClientSession) (memory : Bytes) :
    (closes (Effect.acts host ((tcpClient host).onRead session_ memory).1) = true →
        ResponseHandler.Refuses host memory)
      ∧ (((tcpClient host).onRead session_ memory).2 = session_
        ∨ ResponseHandler.Grants host memory) := by
  cases session_ with
  | none => exact ⟨fun h => Bool.noConfusion h, Or.inl rfl⟩
  | some session =>
      cases hdispatch : ResponseHandler.dispatcher.dispatch (MsgHdr.load host memory) with
      | noCallback =>
          simp only [tcpClient, hdispatch]
          exact ⟨fun h => Bool.noConfusion h, Or.inl trivial⟩
      | close =>
          simp only [tcpClient, hdispatch]
          exact ⟨fun _ => Or.inl (Dispatcher.dispatch_eq_close_iff.mp hdispatch), Or.inl trivial⟩
      | invoke handler =>
          have hid := (ResponseHandler.dispatch_eq_invoke_iff _ handler).mp hdispatch
          simp only [tcpClient, hdispatch]
          cases handler with
          | onPong => exact ⟨fun h => Bool.noConfusion h, Or.inl rfl⟩
          | onRspSum => exact ⟨fun h => Bool.noConfusion h, Or.inl rfl⟩
          | onRspLogin =>
              rw [ResponseHandler.run, TcpClientSession.onRspLogin]
              by_cases hresult : DemoMsgRspLogin.loginResult.bytes memory = [0]
              · rw [if_pos hresult]
                exact ⟨fun _ => Or.inr ⟨hid, hresult⟩, Or.inl rfl⟩
              · rw [if_neg hresult]
                exact ⟨fun h => Bool.noConfusion h, Or.inr ⟨hid, hresult⟩⟩

theorem ClientHeeds.moves (h : ClientHeeds host p)
    (hmoves : Party.Moves ((tcpClient host).behaviour host) inbox p p') : ClientHeeds host p' := by
  cases hmoves with
  | act hact hperforms =>
      obtain ⟨event, rfl, rfl⟩ := hact
      have hextends := hperforms.extends
      rw [tcpClient_onEvent] at hextends
      refine ⟨fun session hsession hlogined => ?_, fun hclosed => ?_⟩
      · obtain ⟨before, hbefore, hlogined'⟩ :=
          logined_of_clientNext (hextends.state.symm.trans hsession) hlogined
        rw [hextends.taken]
        exact h.logined before hbefore hlogined'
      · rw [hextends.closed, closes_acts_requests, Bool.or_false] at hclosed
        rw [hextends.taken]
        exact h.closed hclosed
  | @receive frame _ _ _ hreceive hperforms =>
      obtain ⟨beyond, rfl, rfl⟩ := hreceive
      have hextends := hperforms.extends
      obtain ⟨hrefuses, hgrants⟩ := tcpClient_heeds host p.state (frame.data ++ beyond)
      have hlast : frame ∈ p'.taken := by
        rw [hextends.taken]
        exact List.mem_append_right _ List.mem_cons_self
      have hearlier {f : Frame} (hf : f ∈ p.taken) : f ∈ p'.taken := by
        rw [hextends.taken]
        exact List.mem_append_left _ hf
      refine ⟨fun session hsession hlogined => ?_, fun hclosed => ?_⟩
      · obtain hsame | hgrants := hgrants
        · rw [hextends.state, hsame] at hsession
          obtain ⟨f, hf, hgranted⟩ := h.logined session hsession hlogined
          exact ⟨f, hearlier hf, hgranted⟩
        · exact ⟨frame, hlast, beyond, hgrants⟩
      · rw [hextends.closed, Bool.or_eq_true] at hclosed
        obtain hclosed | hclosed := hclosed
        · obtain ⟨f, hf, hrefused⟩ := h.closed hclosed
          exact ⟨f, hearlier hf, hrefused⟩
        · exact ⟨frame, hlast, beyond, hrefuses hclosed⟩

end Client

section ClientRuns

variable {β κ : Type} [BytesBuffer β] [FifoContract β] [SocketContext κ] (host : Host)
  (sent : κ → Bytes) (down : κ → Prop) (buf : β) (ctx : κ) (moves : List (Bytes × Move ClientEvent))

end ClientRuns

section Replay

variable {α : Type} {host : Host} {app : Application α Empty} {state : α} {inbox : List Frame}
  {p p' : Party α Frame}

/-- The memories that the handlers of some frames may have seen. -/
def Frame.Sees (frames : List Frame) (seen : List Bytes) : Prop :=
  List.Forall₂ (fun frame memory => frame.data <+: memory) frames seen

/-- What a party has done is what its handlers make of the frames it has taken. -/
def Replays (host : Host) (app : Application α Empty) (state : α) (p : Party α Frame) : Prop :=
  ∃ seen, Frame.Sees p.taken seen
    ∧ p.asked = sends (Effect.acts host (app.replay state seen).1)
    ∧ p.closed = closes (Effect.acts host (app.replay state seen).1)
    ∧ p.state = (app.replay state seen).2

theorem Replays.moves (h : Replays host app state p)
    (hmoves : Party.Moves (app.behaviour host) inbox p p') : Replays host app state p' := by
  cases hmoves with
  | act hact _ =>
      obtain ⟨event, _⟩ := hact
      exact event.elim
  | @receive frame _ _ _ hreceive hperforms =>
      obtain ⟨beyond, rfl, rfl⟩ := hreceive
      obtain ⟨seen, hsees, hasked, hclosed, hstate⟩ := h
      have hextends := hperforms.extends
      refine ⟨seen ++ [frame.data ++ beyond], ?_, ?_, ?_, ?_⟩
      · rw [hextends.taken]
        exact List.rel_append hsees (.cons (List.prefix_append _ _) .nil)
      · rw [hextends.asked, app.replay_concat, Effect.acts_append, sends_append, ← hasked, ← hstate]
      · rw [hextends.closed, app.replay_concat, Effect.acts_append, closes_append, ← hclosed,
          ← hstate]
      · rw [hextends.state, app.replay_concat, ← hstate]

end Replay

section Server

variable {host : Host} {session : TcpServerSession} {memory : Bytes}

theorem tcpServer_invoke (session : TcpServerSession) {handler : RequestHandler}
    (hid : (MsgHdr.load host memory).msgId = handler.msgId) :
    (tcpServer host).onRead session memory
      = ((handler.run host session memory).effects, (handler.run host session memory).session) := by
  simp only [tcpServer, (RequestHandler.dispatch_eq_invoke_iff _ handler).mpr hid]

theorem onLogin_passes (session : TcpServerSession)
    (h : RequestHandler.onLogin.passes host memory = true) :
    (session.onLogin host memory).effects
        = [.sendMessage (stackMsg host demoMsgIdRspLogin
          (DemoMsgReqLogin.reqId.bytes memory ++ [1]))]
      ∧ (session.onLogin host memory).session
        = ⟨string (memory.drop DemoMsgReqLogin.userId.start), true⟩ := by
  obtain ⟨huser, hpassword⟩ := Bool.and_eq_true_iff.mp h
  rw [TcpServerSession.onLogin, TcpServerSession.onLoginThen, TcpServerSession.checkMsgStrLen,
    if_neg (Nat.not_le.mpr (of_decide_eq_true huser)), TcpServerSession.checkMsgStrLen,
    if_neg (Nat.not_le.mpr (of_decide_eq_true hpassword))]
  exact ⟨rfl, rfl⟩

theorem onLogin_fails (session : TcpServerSession)
    (h : RequestHandler.onLogin.passes host memory = false) :
    (session.onLogin host memory).effects = [.close]
      ∧ (session.onLogin host memory).session = session := by
  rw [TcpServerSession.onLogin, TcpServerSession.onLoginThen, TcpServerSession.checkMsgStrLen]
  by_cases huser : DemoMsgReqLogin.userId.size
      ≤ strlen (memory.drop DemoMsgReqLogin.userId.start)
  · rw [if_pos huser]
    exact ⟨rfl, rfl⟩
  · rw [RequestHandler.passes, decide_eq_true (Nat.not_le.mp huser), Bool.true_and] at h
    rw [if_neg huser, TcpServerSession.checkMsgStrLen,
      if_pos (Nat.not_lt.mp (of_decide_eq_false h))]
    exact ⟨rfl, rfl⟩

/-- The sum that is sent. -/
def TcpServerSession.sumIn (host : Host) (memory : Bytes) (len : Nat) : UInt32 :=
  (List.range len).foldl
    (fun sum i => sum + load32 host.byteOrder (bytesAt memory (DemoMsgReqSum.arr i).start)) 0

theorem onReqSum_passes (session : TcpServerSession)
    (h : RequestHandler.onReqSum.passes host memory = true) (hlogined : session.isLogined = true) :
    (session.onReqSum host memory).effects
        = [.sendMessage (stackMsg host demoMsgIdRspSum (DemoMsgReqSum.reqId.bytes memory
          ++ List.ofFn (store32 host.byteOrder (TcpServerSession.sumIn host memory
            (load32 host.byteOrder (bytesAt memory DemoMsgReqSum.arrLen.start)).toNat))))]
      ∧ (session.onReqSum host memory).session = session := by
  rw [TcpServerSession.onReqSum, TcpServerSession.checkAuth, if_pos hlogined,
    if_neg (UInt32.not_lt.mpr (of_decide_eq_true h))]
  exact ⟨rfl, rfl⟩

variable (host memory) in
theorem onReqSum_fails (session : TcpServerSession)
    (h : RequestHandler.onReqSum.passes host memory = false ∨ session.isLogined = false) :
    (session.onReqSum host memory).effects = [.close]
      ∧ (session.onReqSum host memory).session = session := by
  rw [TcpServerSession.onReqSum, TcpServerSession.checkAuth]
  cases hlogined : session.isLogined with
  | false =>
      rw [if_neg Bool.false_ne_true]
      exact ⟨rfl, rfl⟩
  | true =>
      rw [hlogined, or_iff_left Bool.noConfusion] at h
      rw [if_pos rfl, if_pos (UInt32.not_le.mp (of_decide_eq_false h))]
      exact ⟨rfl, rfl⟩

/-- One entry of the account: what a server has done about one message. -/
structure Answered (host : Host) (logined : Bool) (memory : Bytes) (acts : List (Act Frame))
    (logined' : Bool) : Prop where
  answers : ∀ handler : RequestHandler, (handler = .onReqSum → logined = true) →
    ((sends acts).filter (Frame.hasId host handler.responseId)).length
      = ([memory].filter (handler.takes host)).length
  refused : logined = false → (sends acts).filter (Frame.hasId host demoMsgIdRspSum) = []
  others : ∀ frame ∈ sends acts, ∃ handler : RequestHandler,
    frame.hasId host handler.responseId = true
  state : logined' = (logined || RequestHandler.onLogin.takes host memory)
  closed : closes acts = true ↔ RequestHandler.Offends host logined memory

theorem RequestHandler.takes_eq {handler : RequestHandler}
    (htakes : handler.takes host memory = true) (handler' : RequestHandler) :
    handler'.takes host memory = (handler' == handler) := by
  obtain ⟨hid, hpasses⟩ := Bool.and_eq_true_iff.mp htakes
  have hid := eq_of_beq hid
  by_cases heq : handler' = handler
  · rw [heq, htakes, beq_self_eq_true]
  · have hne : handler.msgId ≠ handler'.msgId := by
      cases handler <;> cases handler' <;> first | exact absurd rfl heq | decide
    rw [takes, hid, beq_eq_false_iff_ne.mpr hne, beq_eq_false_iff_ne.mpr heq, Bool.false_and]

/-- One more message on the account. -/
theorem Accounted.concat {seen : List Bytes} {asked : List Frame} {logined logined' closed : Bool}
    {acts : List (Act Frame)} (h : Accounted host seen asked logined closed)
    (hentry : Answered host logined memory acts logined') :
    Accounted host (seen ++ [memory]) (asked ++ sends acts) logined' (closed || closes acts) where
  pongs := by
    rw [List.filter_append, List.filter_append, List.length_append, List.length_append, h.pongs]
    exact congrArg _ (hentry.answers .onPing fun hsum => absurd hsum (by decide))
  logins := by
    rw [List.filter_append, List.filter_append, List.length_append, List.length_append, h.logins]
    exact congrArg _ (hentry.answers .onLogin fun hsum => absurd hsum (by decide))
  sums := by
    have hlogined := h.logined
    rw [List.filter_append, List.length_append, h.sums, List.dropWhile_append]
    cases logined with
    | true =>
        have hne : (seen.dropWhile fun memory =>
            !RequestHandler.onLogin.takes host memory).isEmpty = false := by
          obtain ⟨login, hmem, htakes⟩ := List.any_eq_true.mp hlogined.symm
          refine Bool.eq_false_of_not_eq_true fun hempty => ?_
          have hall := List.dropWhile_eq_nil_iff.mp (List.isEmpty_iff.mp hempty) login hmem
          rw [htakes] at hall
          cases hall
        rw [hne, if_neg Bool.false_ne_true, List.filter_append, List.length_append]
        exact congrArg _ (hentry.answers .onReqSum fun _ => rfl)
    | false =>
        have hnil : seen.dropWhile (fun memory =>
            !RequestHandler.onLogin.takes host memory) = [] := by
          refine List.dropWhile_eq_nil_iff.mpr fun login hmem => ?_
          have hnone := List.any_eq_false.mp hlogined.symm login hmem
          rw [Bool.eq_false_of_not_eq_true hnone, Bool.not_false]
        have hrefused : (sends acts).filter (Frame.hasId host demoMsgIdRspSum) = [] :=
          hentry.refused rfl
        rw [hnil, hrefused, List.isEmpty_nil, if_pos rfl]
        cases htakes : RequestHandler.onLogin.takes host memory with
        | true =>
            have hsum := RequestHandler.takes_eq htakes .onReqSum
            simp [htakes, hsum]
        | false => simp [htakes]
  others := List.forall_mem_append.mpr ⟨h.others, hentry.others⟩
  logined := by
    rw [hentry.state, List.any_append, ← h.logined, List.any_cons, List.any_nil, Bool.or_false]
  closed := by
    rw [Bool.or_eq_false_iff, h.closed, Runs.throughout_append_iff, Runs.throughout_cons_iff,
      List.append_nil, ← h.logined, ← hentry.closed, Bool.not_eq_true,
      and_iff_left Runs.throughout_nil]

end Server

section ServerRuns

variable {β κ : Type} [BytesBuffer β] [FifoContract β] [SocketContext κ] (host : Host)
  (sent : κ → Bytes) (down : κ → Prop) (buf : β) (ctx : κ) (moves : List (Bytes × Move Empty))

end ServerRuns

end BabelTrader
