import BabelTrader.Proof.ChannelLifetime

/-!
# What a full channel loses

`OnRead` and `NotifyChannel` do not look at what `Write` returns. So of the frames that a session
has accepted, those are missing on the other side that met a full channel, and no others; and a
context whose last message met one keeps the worker's reference for ever.
-/

namespace BabelTrader

open Runs

variable {ι : Type}

/-! ### Accounts -/

def framesOf [DecidableEq ι] (i : ι) (frames : List (ι × Frame)) : List Frame :=
  frames.filterMap fun p => if p.1 = i then some p.2 else none

/-- The frames in the messages that carry one. -/
def dataFrames (msgs : List (ChanMsg ι)) : List Frame :=
  msgs.filterMap fun msg =>
    if msg.msgType = .data then some ⟨msg.data.getD [], msg.datalen⟩ else none

def disconnects (msgs : List (ChanMsg ι)) : Nat :=
  msgs.countP fun msg => msg.msgType = .disconnect

/-- How often the worker has handled that a connection is gone. -/
def handled (conn : Option ChanConn) : Nat := conn.elim 0 ChanConn.disconnects

/-- How often it has been gone. -/
def ended (conn : Option ChanConn) : Nat :=
  match conn.map ChanConn.phase with
  | none | some .connected => 0
  | some .closed | some .released => 1

/-- **The account of one context.** What has been accepted has been dispatched, waits in the channel
or has been refused by it, and the former two are in order; and so has the message that the
connection is gone, once it is. -/
structure Account (conn : Option ChanConn) (accepted dispatched : List Frame)
    (mine refused : List (ChanMsg ι)) : Prop where
  order : (dispatched ++ dataFrames mine).Sublist accepted
  data : accepted.length
    = dispatched.length + (dataFrames mine).length + (dataFrames refused).length
  disconnect : handled conn + disconnects mine + disconnects refused = ended conn

section

variable {conn conn' : Option ChanConn} {accepted dispatched : List Frame}
  {mine refused : List (ChanMsg ι)} {msg : ChanMsg ι}

theorem dataFrames_append (msgs msgs' : List (ChanMsg ι)) :
    dataFrames (msgs ++ msgs') = dataFrames msgs ++ dataFrames msgs' := List.filterMap_append

theorem disconnects_append (msgs msgs' : List (ChanMsg ι)) :
    disconnects (msgs ++ msgs') = disconnects msgs + disconnects msgs' := List.countP_append

/-- A message without a frame is written, and stored or not. -/
theorem Account.notify (h : Account conn accepted dispatched mine refused)
    (hdata : dataFrames [msg] = [])
    (hdisconnect : handled conn' + disconnects [msg] + ended conn = handled conn + ended conn') :
    Account conn' accepted dispatched (mine ++ [msg]) refused
      ∧ Account conn' accepted dispatched mine (refused ++ [msg]) := by
  have hsum := h.disconnect
  refine ⟨⟨?_, ?_, ?_⟩, ⟨h.order, ?_, ?_⟩⟩
  · rw [dataFrames_append, hdata, List.append_nil]
    exact h.order
  · rw [dataFrames_append, hdata, List.append_nil]
    exact h.data
  · rw [disconnects_append]
    omega
  · rw [dataFrames_append, hdata, List.append_nil]
    exact h.data
  · rw [disconnects_append]
    omega

theorem Account.accept (h : Account conn accepted dispatched mine refused) {frame : Frame}
    (hmsg : dataFrames [msg] = [frame]) (hdisconnect : disconnects [msg] = 0) :
    Account conn (accepted ++ [frame]) dispatched (mine ++ [msg]) refused
      ∧ Account conn (accepted ++ [frame]) dispatched mine (refused ++ [msg]) := by
  have hdata := h.data
  have hsum := h.disconnect
  refine ⟨⟨?_, ?_, ?_⟩, ⟨?_, ?_, ?_⟩⟩
  · rw [dataFrames_append, hmsg, ← List.append_assoc]
    exact h.order.append (List.Sublist.refl _)
  · rw [dataFrames_append, hmsg]
    simp only [List.length_append, List.length_singleton]
    omega
  · rw [disconnects_append]
    omega
  · exact h.order.trans (List.sublist_append_left _ _)
  · rw [dataFrames_append, hmsg]
    simp only [List.length_append, List.length_singleton]
    omega
  · rw [disconnects_append]
    omega

/-- The worker handles the message at the front. -/
theorem Account.handle (h : Account conn accepted dispatched (msg :: mine) refused)
    (hphase : conn'.map ChanConn.phase = conn.map ChanConn.phase)
    (hdisconnect : handled conn' = handled conn + disconnects [msg]) :
    Account conn' accepted (dispatched ++ dataFrames [msg]) mine refused := by
  have hdata := h.data
  have hsum := h.disconnect
  have horder := h.order
  rw [← List.singleton_append, dataFrames_append] at horder hdata
  rw [← List.singleton_append, disconnects_append] at hsum
  refine ⟨by rwa [List.append_assoc], ?_, ?_⟩
  · simp only [List.length_append] at hdata ⊢
    omega
  · rw [ended, hphase, ← ended]
    omega

theorem Account.phase (h : Account conn accepted dispatched mine refused)
    (hhandled : handled conn' = handled conn) (hended : ended conn' = ended conn) :
    Account conn' accepted dispatched mine refused := by
  refine ⟨h.order, h.data, ?_⟩
  rw [hhandled, hended]
  exact h.disconnect

end

/-! ### The server -/

namespace ChannelServer

variable [DecidableEq ι] {host : Host} {capacity : Option Nat} {server server' : ChannelServer ι}
  {i : ι} {conn : ChanConn}

def refusedOf (server : ChannelServer ι) (i : ι) : List (ChanMsg ι) :=
  server.refused.filter fun msg => msg.ctx = i

def Balanced (server : ChannelServer ι) : Prop :=
  ∀ i, Account (server.conns i) (framesOf i server.accepted) (framesOf i server.dispatched)
    (server.mine i) (server.refusedOf i)

theorem Balanced.update (h : server.Balanced)
    (hconns : ∀ j, j ≠ i → server'.conns j = server.conns j)
    (haccepted : ∀ j, j ≠ i → framesOf j server'.accepted = framesOf j server.accepted)
    (hdispatched : ∀ j, j ≠ i → framesOf j server'.dispatched = framesOf j server.dispatched)
    (hmine : ∀ j, j ≠ i → server'.mine j = server.mine j)
    (hrefused : ∀ j, j ≠ i → server'.refusedOf j = server.refusedOf j)
    (hself : Account (server'.conns i) (framesOf i server'.accepted)
      (framesOf i server'.dispatched) (server'.mine i) (server'.refusedOf i)) :
    server'.Balanced := by
  intro j
  by_cases hji : j = i
  · rw [hji]
    exact hself
  · rw [hconns j hji, haccepted j hji, hdispatched j hji, hmine j hji, hrefused j hji]
    exact h j

section Write

variable (capacity : Option Nat) (server : ChannelServer ι) (msg : ChanMsg ι)

omit [DecidableEq ι] in
@[simp]
theorem write_accepted : (server.write capacity msg).2.accepted = server.accepted := by
  obtain h | h := write_cases capacity server msg <;> rw [h]

omit [DecidableEq ι] in
@[simp]
theorem write_dispatched : (server.write capacity msg).2.dispatched = server.dispatched := by
  obtain h | h := write_cases capacity server msg <;> rw [h]

variable {msg} in
theorem write_refusedOf_of_ne {j : ι} (hj : j ≠ msg.ctx) :
    (server.write capacity msg).2.refusedOf j = server.refusedOf j := by
  obtain h | h := write_cases capacity server msg
  · rw [h]
    simp [refusedOf, Ne.symm hj]
  · rw [h]
    rfl

/-- A message ends up in the channel or among the refused ones. -/
theorem write_mine_refusedOf {P : List (ChanMsg ι) → List (ChanMsg ι) → Prop}
    (h : P (server.mine msg.ctx ++ [msg]) (server.refusedOf msg.ctx)
      ∧ P (server.mine msg.ctx) (server.refusedOf msg.ctx ++ [msg])) :
    P ((server.write capacity msg).2.mine msg.ctx)
      ((server.write capacity msg).2.refusedOf msg.ctx) := by
  obtain hwrite | hwrite := write_cases capacity server msg
  · rw [hwrite]
    simpa [mine, refusedOf] using h.2
  · rw [hwrite]
    simpa [mine, refusedOf] using h.1

end Write

theorem framesOf_snoc_self (frames : List (ι × Frame)) (i : ι) (frame : Frame) :
    framesOf i (frames ++ [(i, frame)]) = framesOf i frames ++ [frame] := by
  simp [framesOf]

theorem framesOf_snoc_of_ne (frames : List (ι × Frame)) {i j : ι} (h : j ≠ i) (frame : Frame) :
    framesOf j (frames ++ [(i, frame)]) = framesOf j frames := by
  simp [framesOf, Ne.symm h]

/-- One message is written, and besides that only the context of the message changes. -/
theorem Balanced.written (h : server.Balanced) {base : ChannelServer ι} (msg : ChanMsg ι)
    (hmine : server'.mine = (base.write capacity msg).2.mine)
    (hrefused : server'.refusedOf = (base.write capacity msg).2.refusedOf)
    (hbase : base.mine = server.mine ∧ base.refusedOf = server.refusedOf)
    (hdispatched : server'.dispatched = server.dispatched)
    (hconns : ∀ j, j ≠ msg.ctx → server'.conns j = server.conns j)
    (haccepted : ∀ j, j ≠ msg.ctx → framesOf j server'.accepted = framesOf j server.accepted)
    (hself : Account (server'.conns msg.ctx) (framesOf msg.ctx server'.accepted)
        (framesOf msg.ctx server.dispatched) (server.mine msg.ctx ++ [msg])
        (server.refusedOf msg.ctx)
      ∧ Account (server'.conns msg.ctx) (framesOf msg.ctx server'.accepted)
        (framesOf msg.ctx server.dispatched) (server.mine msg.ctx)
        (server.refusedOf msg.ctx ++ [msg])) : server'.Balanced := by
  obtain ⟨hmineBase, hrefusedBase⟩ := hbase
  refine h.update (i := msg.ctx) hconns haccepted ?_ ?_ ?_ ?_
  · intro j _
    rw [hdispatched]
  · intro j hj
    rw [hmine, write_mine_of_ne capacity base hj, hmineBase]
  · intro j hj
    rw [hrefused, write_refusedOf_of_ne capacity base hj, hrefusedBase]
  · rw [hdispatched, hmine, hrefused]
    apply write_mine_refusedOf
    rwa [hmineBase, hrefusedBase]

theorem Balanced.connect (h : server.Balanced) (hphase : server.phase i = none) :
    (server.onConnect capacity i).Balanced := by
  have hnone : server.conns i = none := Option.map_eq_none_iff.mp hphase
  have hi := h i
  rw [hnone] at hi
  simp only [onConnect, notifyChannel]
  refine h.written ⟨i, .connect, none, 0⟩ rfl rfl ⟨rfl, rfl⟩ ?_ ?_ ?_ ?_
  · rw [write_dispatched]
  · intro j hj
    simp only [write_conns, Function.update_of_ne hj]
  · intro j _
    rw [write_accepted]
  · simp only [write_conns, write_accepted, Function.update_self]
    exact hi.notify rfl rfl

theorem Balanced.read (h : server.Balanced) {frame : Frame}
    (hlen : frame.data.length = frame.datalen.toNat) :
    Balanced { (server.onRead capacity i frame).2 with
      accepted := (server.onRead capacity i frame).2.accepted ++ [(i, frame)] } := by
  have hframe : dataFrames [(⟨i, .data, if 0 < frame.datalen then some frame.data else none,
      frame.datalen⟩ : ChanMsg ι)] = [frame] := by
    by_cases hpos : 0 < frame.datalen
    · simp [dataFrames, hpos]
    · have hzero : frame.datalen.toNat = 0 := by
        rw [UInt32.lt_iff_toNat_lt] at hpos
        exact Nat.eq_zero_of_not_pos hpos
      have hnil : frame.data = [] := List.length_eq_zero_iff.mp (by omega)
      simp [dataFrames, hpos, ← hnil]
  simp only [onRead]
  refine h.written ⟨i, .data, _, frame.datalen⟩ rfl rfl ⟨rfl, rfl⟩ ?_ ?_ ?_ ?_
  · rw [write_dispatched]
    rfl
  · intro j _
    rw [write_conns]
    rfl
  · intro j hj
    simp only [write_accepted]
    exact framesOf_snoc_of_ne _ hj _
  · simp only [write_conns, write_accepted, framesOf_snoc_self]
    exact (h i).accept hframe rfl

theorem Balanced.close (h : server.Balanced) (hphase : server.phase i = some .connected) :
    ((server.onClose capacity i).modify i fun conn => { conn with phase := .closed }).Balanced := by
  obtain ⟨conn, hconn, hconnected⟩ := exists_conn_of_phase hphase
  have hi := h i
  rw [hconn] at hi
  simp only [onClose, notifyChannel]
  refine h.written ⟨i, .disconnect, none, 0⟩ rfl rfl ⟨rfl, rfl⟩ ?_ ?_ ?_ ?_
  · simp only [modify, write_dispatched]
    rfl
  · intro j hj
    simp only [modify, write_conns, Function.update_of_ne hj]
    rfl
  · intro j _
    simp only [modify, write_accepted]
    rfl
  · simp only [modify, write_conns, write_accepted, Function.update_self]
    have hconn' : (server.use i).conns i = some conn := hconn
    rw [hconn']
    refine hi.notify rfl ?_
    simp only [handled, ended, disconnects, Option.map_some, Option.elim_some, hconnected]
    rfl

theorem Balanced.release (h : server.Balanced) (hphase : server.phase i = some .closed) :
    ((server.use i).modify i fun conn => { conn.release with phase := .released }).Balanced := by
  obtain ⟨conn, hconn, hclosed⟩ := exists_conn_of_phase hphase
  have hi := h i
  rw [hconn] at hi
  refine h.update (i := i) ?_ (fun _ _ => rfl) (fun _ _ => rfl) (fun _ _ => rfl)
    (fun _ _ => rfl) ?_
  · intro j hj
    simp only [modify, Function.update_of_ne hj]
    rfl
  · have hconn' : (server.use i).conns i = some conn := hconn
    simp only [modify, Function.update_self, hconn', Option.map_some]
    refine hi.phase rfl ?_
    simp only [ended, Option.map_some, hclosed]

theorem Balanced.work (h : server.Balanced) {msg : ChanMsg ι} {queue : List (ChanMsg ι)}
    (hqueue : server.queue = msg :: queue) (beyond : Bytes) :
    ({ server with queue := queue }.handle host beyond msg).Balanced := by
  have hself := mine_of_queue hqueue
  have hother (j : ι) (hj : j ≠ msg.ctx) := mine_of_queue_of_ne hqueue hj
  set rest : ChannelServer ι := { server with queue := queue }
  have hi := h msg.ctx
  rw [hself] at hi
  have hmodify (f : ChanConn → ChanConn) (j : ι) (hj : j ≠ msg.ctx) :
      ((rest.use msg.ctx).modify msg.ctx f).conns j = server.conns j := by
    simp only [modify, Function.update_of_ne hj]
    rfl
  cases htype : msg.msgType with
  | data =>
      have hframe : dataFrames [msg] = [⟨msg.data.getD [], msg.datalen⟩] := by
        simp [dataFrames, htype]
      have hnone : disconnects [msg] = 0 := by simp [disconnects, htype]
      simp only [handle, htype]
      refine h.update (i := msg.ctx) (hmodify _) (fun _ _ => rfl) ?_ hother (fun _ _ => rfl) ?_
      · intro j hj
        exact framesOf_snoc_of_ne _ hj _
      · simp only [modify, Function.update_self, framesOf_snoc_self, ← hframe]
        refine hi.handle ?_ ?_
        · change ((server.conns msg.ctx).map _).map _ = _
          rw [Option.map_map]
          congr 1
          funext conn
          obtain ⟨session, hdispatch⟩ := dispatch_eq host (msg.data.getD [] ++ beyond) conn
          simp only [Function.comp_apply, hdispatch]
        · rw [hnone, Nat.add_zero]
          change handled ((server.conns msg.ctx).map _) = _
          cases server.conns msg.ctx with
          | none => rfl
          | some conn =>
              obtain ⟨session, hdispatch⟩ := dispatch_eq host (msg.data.getD [] ++ beyond) conn
              simp only [handled, Option.map_some, Option.elim_some, hdispatch]
  | connect =>
      have hframe : dataFrames [msg] = [] := by simp [dataFrames, htype]
      have hnone : disconnects [msg] = 0 := by simp [disconnects, htype]
      simp only [handle, htype]
      refine h.update (i := msg.ctx) (fun _ _ => rfl) (fun _ _ => rfl) (fun _ _ => rfl) hother
        (fun _ _ => rfl) ?_
      have hhandle := hi.handle rfl (by rw [hnone, Nat.add_zero])
      rwa [hframe, List.append_nil] at hhandle
  | disconnect =>
      have hframe : dataFrames [msg] = [] := by simp [dataFrames, htype]
      have hone : disconnects [msg] = 1 := by simp [disconnects, htype]
      simp only [handle, htype]
      refine h.update (i := msg.ctx) (hmodify _) (fun _ _ => rfl) (fun _ _ => rfl) hother
        (fun _ _ => rfl) ?_
      simp only [modify, Function.update_self]
      cases hconn : server.conns msg.ctx with
      | none =>
          -- the end of a connection is only written when there has been one
          have hsum := hi.disconnect
          rw [hconn, ← List.singleton_append, disconnects_append, hone] at hsum
          simp only [handled, ended, Option.map_none, Option.elim_none] at hsum
          omega
      | some conn =>
          rw [hconn] at hi
          have hconn' : (rest.use msg.ctx).conns msg.ctx = some conn := hconn
          rw [hconn']
          have hhandle : Account (some { conn.release with disconnects := conn.disconnects + 1 })
              _ _ _ _ := hi.handle rfl (by rw [hone]; rfl)
          rwa [hframe, List.append_nil] at hhandle

omit [DecidableEq ι] in
theorem onTimer_eq (server : ChannelServer ι) :
    ∃ misused, server.onTimer = { server with misused := misused } := by
  have hall (ctxs : List ι) (server : ChannelServer ι) :
      ∃ misused, ctxs.foldl use server = { server with misused := misused } := by
    induction ctxs generalizing server with
    | nil => exact ⟨server.misused, rfl⟩
    | cons i ctxs ih =>
        obtain ⟨misused, heq⟩ := ih (server.use i)
        exact ⟨misused, by rw [List.foldl_cons, heq]; rfl⟩
  exact hall _ _

theorem Balanced.step (h : server.Balanced) {event : ChannelEvent ι}
    (hstep : server.step host capacity event = some server') : server'.Balanced := by
  cases event with
  | connect i =>
      obtain ⟨hphase, hsome⟩ := Option.ite_none_right_eq_some.mp hstep
      cases hsome
      exact h.connect hphase
  | message i =>
      obtain ⟨_, hsome⟩ := Option.ite_none_right_eq_some.mp hstep
      cases hsome
      exact h
  | read i frame =>
      obtain ⟨⟨_, hlen⟩, hsome⟩ := Option.ite_none_right_eq_some.mp hstep
      cases hsome
      exact h.read hlen
  | timer =>
      cases hstep
      obtain ⟨misused, heq⟩ := server.onTimer_eq
      rw [heq]
      exact h
  | close i =>
      obtain ⟨hphase, hsome⟩ := Option.ite_none_right_eq_some.mp hstep
      cases hsome
      exact h.close hphase
  | release i =>
      obtain ⟨hphase, hsome⟩ := Option.ite_none_right_eq_some.mp hstep
      cases hsome
      exact h.release hphase
  | work beyond =>
      simp only [ChannelServer.step] at hstep
      split at hstep
      next => cases hstep
      next msg queue hqueue =>
        cases hstep
        exact h.work hqueue beyond

theorem balanced_of_run {before : List (ChannelServer ι × ChannelEvent ι)}
    (hrun : Run (ChannelServer.step host capacity) start before server) : server.Balanced := by
  apply hrun.invariant (I := fun _ server => server.Balanced)
  · exact fun i => ⟨List.Sublist.refl _, rfl, rfl⟩
  · intro before server event server' h hstep
    exact h.step hstep

end ChannelServer

/-! ### What has been refused -/

/-- A frame, or the end of a connection, does not meet a full channel. -/
def ChannelEvent.Fits (capacity : Nat) (server : ChannelServer ι) : ChannelEvent ι → Prop
  | .read _ _ | .close _ => server.queue.length < capacity
  | .connect _ | .message _ | .timer | .release _ | .work _ => True

namespace ChannelServer

variable [DecidableEq ι] {host : Host} {capacity : Nat} {server server' : ChannelServer ι}

/-- **What was promised.** Every frame accepted has been dispatched, in the order of its connection,
and the worker has given back its reference to every context that is disconnected. -/
structure Delivered (server : ChannelServer ι) : Prop where
  frames : ∀ i, framesOf i server.dispatched = framesOf i server.accepted
  references : ∀ i conn, server.conns i = some conn → conn.phase ≠ .connected →
    conn.disconnects = 1

end ChannelServer

end BabelTrader
