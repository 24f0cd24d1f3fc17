import BabelTrader.Proof.Confined
import BabelTrader.Proof.ChannelDelivery

/-!
# The two servers

`tcp_server` handles a frame where it is decoded, `tcp_server_channel` in another thread and later.
The session of a context is only changed by that thread, so whatever the two threads do in between,
the handlers see the frames of a connection one after the other, as they do in `tcp_server`.
-/

namespace BabelTrader

open Runs BytesBuffer Mailbox

variable {ι : Type}

theorem ChanConn.dispatch_session (host : Host) (memory : Bytes) (conn : ChanConn) :
    (conn.dispatch host memory).session = ((tcpServer host).onRead conn.session memory).2 := by
  simp only [ChanConn.dispatch, tcpServer]
  cases RequestHandler.dispatcher.dispatch (MsgHdr.load host memory) <;> rfl

/-- As long as the channel takes every frame of a connection, it keeps them all in order. -/
theorem Account.split {conn : Option ChanConn} {accepted dispatched : List Frame}
    {mine refused : List (ChanMsg ι)} (h : Account conn accepted dispatched mine refused)
    (hrefused : dataFrames refused = []) : accepted = dispatched ++ dataFrames mine := by
  have hdata := h.data
  rw [hrefused, List.length_nil, Nat.add_zero, ← List.length_append] at hdata
  exact (h.order.eq_of_length hdata.symm).symm

namespace ChannelServer

variable [DecidableEq ι] {host : Host} {capacity : Option Nat} {server server' : ChannelServer ι}
  {i : ι}

/-! ### What the worker asks of a session -/

/-- What the handlers ask of the session of one context in one step. -/
def asks (host : Host) (i : ι) (p : ChannelServer ι × ChannelEvent ι) : List Effect :=
  match p.2, p.1.queue with
  | .work beyond, msg :: _ =>
      if msg.ctx = i ∧ msg.msgType = .data then
        (p.1.conns i).elim [] fun conn =>
          ((tcpServer host).onRead conn.session (msg.data.getD [] ++ beyond)).1
      else []
  | _, _ => []

/-- The session of a context; before it is connected, a new one. -/
def sessionOf (server : ChannelServer ι) (i : ι) : TcpServerSession :=
  (server.conns i).elim .new ChanConn.session

omit [DecidableEq ι] in
theorem sessionOf_eq {conn : ChanConn} (h : server.conns i = some conn) :
    server.sessionOf i = conn.session := by
  rw [sessionOf, h, Option.elim_some]

theorem sessionOf_modify (j : ι) {f : ChanConn → ChanConn}
    (hf : j = i → ∀ conn, (f conn).session = conn.session) :
    (server.modify j f).sessionOf i = server.sessionOf i := by
  by_cases hji : j = i
  · subst hji
    simp only [sessionOf, modify, Function.update_self]
    cases server.conns j with
    | none => rfl
    | some conn => exact hf rfl conn
  · simp only [sessionOf, modify, Function.update_of_ne (Ne.symm hji)]

/-- A step leaves the session of a context alone, or it is the worker's, who handles a frame. -/
inductive Handles (host : Host) (i : ι) (event : ChannelEvent ι)
    (server server' : ChannelServer ι) : Prop where
  | quiet (asks : asks host i (server, event) = [])
      (dispatched : framesOf i server'.dispatched = framesOf i server.dispatched)
      (session : server'.sessionOf i = server.sessionOf i)
  | frame (frame : Frame) (memory : Bytes) (data : frame.data <+: memory)
      (asks : asks host i (server, event)
        = ((tcpServer host).onRead (server.sessionOf i) memory).1)
      (dispatched : framesOf i server'.dispatched = framesOf i server.dispatched ++ [frame])
      (session : server'.sessionOf i = ((tcpServer host).onRead (server.sessionOf i) memory).2)

variable (i) in
theorem Sound.handles_work (h : server.Sound) {msg : ChanMsg ι} {queue : List (ChanMsg ι)}
    (hqueue : server.queue = msg :: queue) (beyond : Bytes) :
    Handles host i (.work beyond) server
      ({ server with queue := queue }.handle host beyond msg) := by
  have hasks : asks host i (server, .work beyond)
      = if msg.ctx = i ∧ msg.msgType = .data then
          (server.conns i).elim [] fun conn =>
            ((tcpServer host).onRead conn.session (msg.data.getD [] ++ beyond)).1
        else [] := by
    simp only [asks, hqueue]
  cases htype : msg.msgType with
  | connect =>
      apply Handles.quiet
      · rw [hasks, htype, if_neg (by simp)]
      · simp only [handle, htype]
      · simp only [handle, htype]
        rfl
  | disconnect =>
      apply Handles.quiet
      · rw [hasks, htype, if_neg (by simp)]
      · simp only [handle, htype]
        rfl
      · simp only [handle, htype]
        exact sessionOf_modify msg.ctx fun _ _ => rfl
  | data =>
      by_cases hctx : msg.ctx = i
      · subst hctx
        have hmine : server.mine msg.ctx ≠ [] := by
          rw [mine_of_queue hqueue]
          exact List.cons_ne_nil _ _
        obtain ⟨conn, hconn⟩ := h.exists_conn_of_mine hmine
        apply Handles.frame ⟨msg.data.getD [], msg.datalen⟩ (msg.data.getD [] ++ beyond)
          (List.prefix_append _ _)
        · rw [hasks, if_pos ⟨rfl, htype⟩, hconn, Option.elim_some, sessionOf_eq hconn]
        · simp only [handle, htype]
          exact framesOf_snoc_self _ _ _
        · simp only [handle, htype]
          rw [sessionOf_eq hconn, ← conn.dispatch_session host]
          apply sessionOf_eq
          simp only [modify, use, hconn, Function.update_self, Option.map_some]
      · apply Handles.quiet
        · rw [hasks, if_neg fun hself => hctx hself.1]
        · simp only [handle, htype]
          exact framesOf_snoc_of_ne _ (Ne.symm hctx) _
        · simp only [handle, htype]
          exact sessionOf_modify msg.ctx fun hself => absurd hself hctx

/-- **One step of either thread.** -/
theorem Sound.handles (h : server.Sound) {event : ChannelEvent ι}
    (hstep : server.step host capacity event = some server') (i : ι) :
    Handles host i event server server' := by
  cases event with
  | connect j =>
      obtain ⟨hphase, hsome⟩ := Option.ite_none_right_eq_some.mp hstep
      cases hsome
      have hnone : server.conns j = none := Option.map_eq_none_iff.mp hphase
      apply Handles.quiet rfl
      · rw [onConnect, notifyChannel, write_dispatched]
      · simp only [sessionOf, onConnect, notifyChannel, write_conns]
        by_cases hji : j = i
        · subst hji
          rw [Function.update_self, hnone]
          rfl
        · rw [Function.update_of_ne (Ne.symm hji)]
  | message j =>
      obtain ⟨_, hsome⟩ := Option.ite_none_right_eq_some.mp hstep
      cases hsome
      exact .quiet rfl rfl rfl
  | read j frame =>
      obtain ⟨_, hsome⟩ := Option.ite_none_right_eq_some.mp hstep
      cases hsome
      apply Handles.quiet rfl
      · simp only [onRead, write_dispatched]
        rfl
      · simp only [sessionOf, onRead, write_conns]
        rfl
  | timer =>
      cases hstep
      obtain ⟨misused, heq⟩ := server.onTimer_eq
      rw [heq]
      exact .quiet rfl rfl rfl
  | close j =>
      obtain ⟨_, hsome⟩ := Option.ite_none_right_eq_some.mp hstep
      cases hsome
      apply Handles.quiet rfl
      · simp only [modify, onClose, notifyChannel, write_dispatched]
        rfl
      · trans (server.onClose capacity j).sessionOf i
        · exact sessionOf_modify j fun _ _ => rfl
        · simp only [sessionOf, onClose, notifyChannel, write_conns]
          rfl
  | release j =>
      obtain ⟨_, hsome⟩ := Option.ite_none_right_eq_some.mp hstep
      cases hsome
      apply Handles.quiet rfl
      · rfl
      · exact sessionOf_modify j fun _ _ => rfl
  | work beyond =>
      simp only [ChannelServer.step] at hstep
      split at hstep
      next => cases hstep
      next msg queue hqueue =>
        cases hstep
        exact h.handles_work i hqueue beyond

/-! ### Whole runs -/

/-- These effects, and this session, are what the handlers of `tcp_server` make of some frames. -/
def Followed (host : Host) (frames : List Frame) (effects : List Effect)
    (session : TcpServerSession) : Prop :=
  ∃ seen, Frame.Sees frames seen ∧ effects = ((tcpServer host).replay .new seen).1
    ∧ session = ((tcpServer host).replay .new seen).2

theorem Followed.handles {event : ChannelEvent ι} {effects : List Effect}
    (h : Followed host (framesOf i server.dispatched) effects (server.sessionOf i))
    (hhandles : Handles host i event server server') :
    Followed host (framesOf i server'.dispatched) (effects ++ asks host i (server, event))
      (server'.sessionOf i) := by
  obtain ⟨seen, hsees, heffects, hsession⟩ := h
  cases hhandles with
  | quiet hquiet hdispatched hsame =>
      rw [hquiet, hdispatched, hsame, List.append_nil]
      exact ⟨seen, hsees, heffects, hsession⟩
  | frame frame memory hdata hasks hdispatched hleft =>
      refine ⟨seen ++ [memory], ?_, ?_, ?_⟩
      · rw [hdispatched]
        exact List.rel_append hsees (.cons hdata .nil)
      · rw [Application.replay_concat, ← hsession, ← heffects, hasks]
      · rw [Application.replay_concat, ← hsession, hleft]

theorem followed_of_run {before : List (ChannelServer ι × ChannelEvent ι)}
    (hrun : Run (ChannelServer.step host capacity) start before server) (i : ι) :
    Followed host (framesOf i server.dispatched) (before.flatMap (asks host i))
      (server.sessionOf i) := by
  have hinvariant : server.Sound ∧ Followed host (framesOf i server.dispatched)
      (before.flatMap (asks host i)) (server.sessionOf i) := by
    apply hrun.invariant (I := fun before server => server.Sound
      ∧ Followed host (framesOf i server.dispatched) (before.flatMap (asks host i))
        (server.sessionOf i))
    · exact ⟨start_sound, [], .nil, rfl, rfl⟩
    · rintro before server event server' ⟨hsound, hfollowed⟩ hstep
      rw [List.flatMap_append, List.flatMap_singleton]
      exact ⟨hsound.step hstep, hfollowed.handles (hsound.handles hstep i)⟩
  exact hinvariant.2

end ChannelServer

section Prefix

variable {host : Host} {session : TcpServerSession} {frames frames' : List Frame}

theorem Frame.AllConfined.append_left
    (h : Frame.AllConfined host session (frames ++ frames')) :
    Frame.AllConfined host session frames := by
  induction frames generalizing session with
  | nil => exact trivial
  | cons frame frames ih => exact ⟨h.1, h.2.1, ih h.2.2⟩

/-- What has been seen behind the first frames decides nothing either. -/
theorem Frame.AllConfined.replay_prefix {seen seen' : List Bytes}
    (h : Frame.AllConfined host session (frames ++ frames')) (hsees : Frame.Sees frames seen)
    (hsees' : Frame.Sees (frames ++ frames') seen') :
    ((tcpServer host).replay session seen).1 <+: ((tcpServer host).replay session seen').1 := by
  rw [h.append_left.replay_eq hsees, h.replay_eq hsees', List.map_append,
    Application.replay_append]
  exact List.prefix_append _ _

end Prefix

namespace ChannelServer

variable [DecidableEq ι] {host : Host} {capacity : Option Nat} {server : ChannelServer ι}
  {before : List (ChannelServer ι × ChannelEvent ι)} {i : ι}

/-- The worker is behind a party that has taken what the session has accepted, and no more than
that. -/
theorem agrees_of_replays {p : Party TcpServerSession Frame}
    (hrun : Run (ChannelServer.step host capacity) start before server)
    (hp : Replays host (tcpServer host) .new p) (htaken : p.taken = framesOf i server.accepted)
    (hrefused : ∀ msg ∈ server.refused, msg.ctx = i → msg.msgType ≠ .data)
    (hconfined : Frame.AllConfined host .new p.taken) :
    let acts := Effect.acts host (before.flatMap (asks host i))
    sends acts <+: p.asked
      ∧ (server.mine i = [] →
        sends acts = p.asked ∧ server.sessionOf i = p.state ∧ closes acts = p.closed) := by
  intro acts
  obtain ⟨seen, hsees, hasks, hsession⟩ := followed_of_run hrun i
  obtain ⟨seen', hsees', hasked, hclosed, hstate⟩ := hp
  have hnone : dataFrames (server.refusedOf i) = [] := by
    rw [dataFrames, List.filterMap_eq_nil_iff]
    intro msg hmsg
    obtain ⟨hmem, hctx⟩ := List.mem_filter.mp hmsg
    rw [if_neg (hrefused msg hmem (of_decide_eq_true hctx))]
  have hsplit := (balanced_of_run hrun i).split hnone
  rw [htaken, hsplit] at hconfined hsees'
  constructor
  · have hbegins := hconfined.replay_prefix hsees hsees'
    rw [← hasks] at hbegins
    rw [hasked]
    exact (hbegins.filterMap _).filterMap _
  · intro hempty
    have hframes : dataFrames (server.mine i) = [] := by
      rw [hempty]
      rfl
    rw [hframes, List.append_nil] at hconfined hsees'
    have hseen : (tcpServer host).replay .new seen = (tcpServer host).replay .new seen' := by
      rw [hconfined.replay_eq hsees, hconfined.replay_eq hsees']
    rw [hseen] at hasks hsession
    refine ⟨?_, hsession.trans hstate.symm, ?_⟩
    · rw [hasked, ← hasks]
    · rw [hclosed, ← hasks]

/-- **The channel makes no difference.** A run of `tcp_server_channel` and one of `tcp_server` in
which a session has accepted the frames that the other has handed over: as long as these decide by
themselves and the channel has refused none of them, the messages that the worker has sent are the
first ones that the other server has sent; and they are all of them, and the two sessions are in the
same state and have or have not been closed alike, when the channel has nothing for the worker. -/
theorem channel_agrees {β κ : Type} [BytesBuffer β] [FifoContract β] [SocketContext κ]
    (host : Host) (capacity : Option Nat) (before : List (ChannelServer ι × ChannelEvent ι))
    (server : ChannelServer ι) (hrun : Run (ChannelServer.step host capacity) start before server)
    (i : ι) (sent : κ → Bytes) (down : κ → Prop) (buf : β) (ctx : κ)
    (moves : List (Bytes × Move Empty)) (hsocket : SocketContract sent down)
    (hbuf : contents buf = []) (hctx : sent ctx = []) :
    let t := (runTcpServer host).run host ⟨.idle, .init buf (.start .new ctx)⟩ moves
    let acts := Effect.acts host (before.flatMap (asks host i))
    t.session.passed = framesOf i server.accepted →
    (∀ msg ∈ server.refused, msg.ctx = i → msg.msgType ≠ .data) →
    Frame.AllConfined host .new t.session.passed →
      sends acts <+: t.session.env.asked.map (fun p => encoded host p.1)
        ∧ (server.mine i = [] →
          sends acts = t.session.env.asked.map (fun p => encoded host p.1)
            ∧ server.sessionOf i = t.session.env.app ∧ closes acts = t.session.env.closed) := by
  intro t acts hpassed hrefused hconfined
  obtain ⟨_, hreaches⟩ := endpoint_refines host sent down (runTcpServer host) 88 .new buf ctx
    moves hsocket (prepared_runTcpServer host (by decide)) (by decide) hbuf hctx
  have hreplays : Replays host (tcpServer host) .new (t.party host) :=
    hreaches.invariant ⟨[], .nil, rfl, rfl, rfl⟩ Replays.moves
  exact agrees_of_replays hrun hreplays hpassed hrefused hconfined

/-- The frames of `earlySum`, which the worker reads one after the other. -/
def earlySumOverChannel : List (ChannelEvent Unit) :=
  [.connect (), .read () ((Request.sum 0 [1, 2]).frame Host.little), .work [],
    .read () ((Request.ping 1 2).frame Host.little), .work [7, 7], .work []]

theorem channel_agrees_earlySum :
    let t := (runTcpServer Host.little).run Host.little ⟨.idle, .init
      (FlatBuffer.init 32768 (by decide)) (.start .new (⟨[28], [], false⟩ : ScriptedSocket))⟩
      earlySum
    ∃ before server, Run (ChannelServer.step Host.little (some 4)) start before server
      ∧ (framesOf () server.accepted).length = 2 ∧ server.sessionOf () = t.session.env.app
      ∧ closes (Effect.acts Host.little (before.flatMap (asks Host.little ())))
        = t.session.env.closed := by
  intro t
  have hrun : (exec (ChannelServer.step Host.little (some 4)) start earlySumOverChannel).map
      (fun r => (r.2.queue, r.2.refused, framesOf () r.2.accepted))
        = some ([], [], t.session.passed) := by decide +kernel
  obtain ⟨⟨before, server⟩, hexec, hend⟩ := Option.map_eq_some_iff.mp hrun
  simp only [Prod.mk.injEq] at hend
  obtain ⟨hqueue, hrefused, haccepted⟩ := hend
  have hbefore := run_of_exec hexec
  have hagrees := channel_agrees Host.little (some 4) before server hbefore ()
    ScriptedSocket.sent (fun ctx => ctx.down = true) (FlatBuffer.init 32768 (by decide))
    ⟨[28], [], false⟩ earlySum ScriptedSocket.contract (FlatBuffer.contents_init (by decide)) rfl
    haccepted.symm
    (by
      rw [hrefused]
      exact fun _ hmsg => absurd hmsg List.not_mem_nil)
    (by decide +kernel)
  have hmine : server.mine () = [] := by
    rw [mine, hqueue]
    rfl
  obtain ⟨_, happ, hclosed⟩ := hagrees.2 hmine
  refine ⟨before, server, hbefore, ?_, happ, hclosed⟩
  rw [haccepted]
  decide +kernel

end ChannelServer

end BabelTrader
