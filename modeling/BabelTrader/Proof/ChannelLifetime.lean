import BabelTrader.TcpServerChannel
import BabelTrader.MsgToBytesEncoder

/-!
# Who deletes a session

The two references of a connection are given back once each: by the event loop when it releases the
context, and by the worker when it has read that the connection is gone. That message is the last
one about its context, so whoever comes second deletes, and nobody has a use for the context after
that.
-/

namespace BabelTrader

open Runs

variable {ι : Type}

/-! ### One connection -/

/-- **What holds of a connection** and of the messages about it that the worker has still to read.
-/
structure ChanConn.Sound (conn : ChanConn) (mine : List (ChanMsg ι)) : Prop where
  connected : conn.phase = .connected →
    conn.disconnects = 0 ∧ ∀ msg ∈ mine, msg.msgType ≠ .disconnect
  last : ∀ msg ∈ mine.dropLast, msg.msgType ≠ .disconnect
  handled : conn.disconnects ≠ 0 → mine = []
  disconnects : conn.disconnects ≤ 1
  refCnt : conn.refCnt = (if conn.phase = .released then 0 else 1) + (1 - conn.disconnects)
  sessionDeleted : conn.sessionDeleted = if conn.refCnt = 0 then 1 else 0
  ctxDeleted : conn.ctxDeleted = if conn.refCnt = 0 then 1 else 0

namespace ChanConn.Sound

variable {conn : ChanConn} {mine : List (ChanMsg ι)} {msg : ChanMsg ι}

theorem new_retain (h : ∀ msg ∈ mine, msg.msgType ≠ .disconnect) :
    ChanConn.new.retain.Sound mine where
  connected _ := ⟨rfl, h⟩
  last msg hmsg := h msg (List.mem_of_mem_dropLast hmsg)
  handled hne := absurd rfl hne
  disconnects := Nat.zero_le _
  refCnt := rfl
  sessionDeleted := rfl
  ctxDeleted := rfl

/-- Nothing is deleted before the event loop has released the context and the worker has handled the
message that the connection is gone. -/
theorem deleted_eq_zero (h : conn.Sound mine) (huse : conn.phase ≠ .released ∨ mine ≠ []) :
    conn.sessionDeleted = 0 ∧ conn.ctxDeleted = 0 := by
  have hcount : conn.refCnt ≠ 0 := by
    rw [h.refCnt]
    obtain hphase | hmine := huse
    · rw [if_neg hphase]
      omega
    · have hzero : conn.disconnects = 0 := by
        by_contra hne
        exact hmine (h.handled hne)
      omega
  exact ⟨by rw [h.sessionDeleted, if_neg hcount], by rw [h.ctxDeleted, if_neg hcount]⟩

theorem write (h : conn.Sound mine) (hphase : conn.phase = .connected)
    (hmsg : msg.msgType ≠ .disconnect) : conn.Sound (mine ++ [msg]) := by
  obtain ⟨hzero, hnone⟩ := h.connected hphase
  refine { h with connected := fun _ => ⟨hzero, ?_⟩, last := ?_, handled := ?_ }
  · exact List.forall_mem_append.mpr ⟨hnone, List.forall_mem_singleton.mpr hmsg⟩
  · rw [List.dropLast_concat]
    exact hnone
  · exact fun hne => absurd hzero hne

theorem close (h : conn.Sound mine) (hphase : conn.phase = .connected)
    (mine' : List (ChanMsg ι)) (hmine' : mine' = mine ∨ ∃ msg, mine' = mine ++ [msg]) :
    ChanConn.Sound { conn with phase := .closed } mine' := by
  obtain ⟨hzero, hnone⟩ := h.connected hphase
  have hcount := h.refCnt
  rw [hphase] at hcount
  refine ⟨fun hconnected => (nomatch hconnected), ?_, fun hne => absurd hzero hne, h.disconnects,
    hcount, h.sessionDeleted, h.ctxDeleted⟩
  obtain rfl | ⟨msg, rfl⟩ := hmine'
  · exact h.last
  · rw [List.dropLast_concat]
    exact hnone

/-- A reference is given back, and with it changes what decides about the count. -/
theorem release (h : conn.Sound mine) {phase : ConnPhase} {disconnects : Nat}
    {mine' : List (ChanMsg ι)} (hphase : phase ≠ .connected)
    (hlast : ∀ msg ∈ mine'.dropLast, msg.msgType ≠ .disconnect)
    (hhandled : disconnects ≠ 0 → mine' = []) (hle : disconnects ≤ 1)
    (hcount : conn.refCnt = (if phase = .released then 0 else 1) + (1 - disconnects) + 1) :
    ChanConn.Sound { conn.release with phase := phase, disconnects := disconnects } mine' := by
  have hnot : conn.refCnt ≠ 0 := by omega
  have hsession := h.sessionDeleted
  have hctx := h.ctxDeleted
  rw [if_neg hnot] at hsession hctx
  refine ⟨fun hconnected => absurd hconnected hphase, hlast, hhandled, hle, ?_, ?_, ?_⟩
  · simp only [ChanConn.release]
    omega
  · simp only [ChanConn.release, hsession]
  · simp only [ChanConn.release, hctx]

theorem releaseLoop (h : conn.Sound mine) (hphase : conn.phase = .closed) :
    ChanConn.Sound { conn.release with phase := .released } mine := by
  have hcount := h.refCnt
  rw [hphase, if_neg (by decide), Nat.add_comm] at hcount
  refine h.release (by decide) h.last h.handled h.disconnects ?_
  rw [if_pos rfl, Nat.zero_add]
  exact hcount

/-- The message that the connection is gone is the last one about it. -/
theorem handleDisconnect (h : conn.Sound (msg :: mine)) (hmsg : msg.msgType = .disconnect) :
    ChanConn.Sound { conn.release with disconnects := conn.disconnects + 1 } mine := by
  have hnil : mine = [] := by
    by_contra hne
    refine h.last msg ?_ hmsg
    rw [List.dropLast_cons_of_ne_nil hne]
    exact List.mem_cons_self
  have hphase : conn.phase ≠ .connected := by
    intro hconnected
    exact (h.connected hconnected).2 msg List.mem_cons_self hmsg
  have hzero : conn.disconnects = 0 := by
    by_contra hne
    cases h.handled hne
  have hcount := h.refCnt
  have hsame : conn.release.phase = conn.phase := rfl
  refine h.release hphase ?_ (fun _ => hnil) (by omega) (by rw [hsame]; omega)
  rw [hnil]
  exact fun _ hmem => (nomatch hmem)

/-- The worker handles a message of another kind. -/
theorem handle (h : conn.Sound (msg :: mine)) {session : TcpServerSession} :
    ChanConn.Sound { conn with session := session } mine where
  connected hconnected :=
    ⟨(h.connected hconnected).1,
      fun m hm => (h.connected hconnected).2 m (List.mem_cons_of_mem _ hm)⟩
  last m hm := by
    refine h.last m ?_
    have hne : mine ≠ [] := by
      rintro rfl
      cases hm
    rw [List.dropLast_cons_of_ne_nil hne]
    exact List.mem_cons_of_mem _ hm
  handled hne := by cases h.handled hne
  disconnects := h.disconnects
  refCnt := h.refCnt
  sessionDeleted := h.sessionDeleted
  ctxDeleted := h.ctxDeleted

end ChanConn.Sound

/-! ### The server -/

namespace ChannelServer

variable [DecidableEq ι] {host : Host} {capacity : Option Nat} {server server' : ChannelServer ι}
  {i : ι} {conn : ChanConn}

/-- **The invariant.** -/
structure Sound (server : ChannelServer ι) : Prop where
  conn : ∀ i conn, server.conns i = some conn → conn.Sound (server.mine i)
  unborn : ∀ i, server.conns i = none → server.mine i = []
  ctxSet : ∀ i ∈ server.ctxSet, server.phase i = some .connected
  misused : server.misused = false

theorem start_sound : (start : ChannelServer ι).Sound where
  conn i conn hconn := by cases hconn
  unborn i _ := rfl
  ctxSet i hi := by cases hi
  misused := rfl

/-- A step that is about one context. -/
theorem Sound.update (h : server.Sound) {conn' : ChanConn}
    (hconn : server'.conns i = some conn') (hother : ∀ j, j ≠ i → server'.conns j = server.conns j)
    (hmine : ∀ j, j ≠ i → server'.mine j = server.mine j) (hsound : conn'.Sound (server'.mine i))
    (hset : ∀ j ∈ server'.ctxSet, j ≠ i → j ∈ server.ctxSet)
    (hself : i ∈ server'.ctxSet → conn'.phase = .connected)
    (hmisused : server'.misused = false) : server'.Sound where
  conn j conn₁ hj := by
    by_cases hji : j = i
    · subst hji
      rw [hconn] at hj
      cases hj
      exact hsound
    · rw [hmine j hji]
      rw [hother j hji] at hj
      exact h.conn j conn₁ hj
  unborn j hj := by
    have hji : j ≠ i := by
      rintro rfl
      rw [hconn] at hj
      cases hj
    rw [hmine j hji]
    rw [hother j hji] at hj
    exact h.unborn j hj
  ctxSet j hj := by
    by_cases hji : j = i
    · subst hji
      rw [phase, hconn, Option.map_some, hself hj]
    · rw [phase, hother j hji]
      exact h.ctxSet j (hset j hj hji)
  misused := hmisused

theorem Sound.alive (h : server.Sound) (hconn : server.conns i = some conn)
    (huse : conn.phase ≠ .released ∨ server.mine i ≠ []) : server.alive i = true := by
  obtain ⟨hsession, hctx⟩ := (h.conn i conn hconn).deleted_eq_zero huse
  simp only [ChannelServer.alive, hconn, hsession, hctx, decide_true, Bool.and_true]

/-- What is used is there. -/
theorem Sound.use_eq (h : server.Sound) (hconn : server.conns i = some conn)
    (huse : conn.phase ≠ .released ∨ server.mine i ≠ []) : server.use i = server := by
  have hmisused : (server.misused || !server.alive i) = server.misused := by
    rw [h.alive hconn huse, Bool.not_true, Bool.or_false]
  rw [use, hmisused]

section Write

variable (capacity : Option Nat) (server : ChannelServer ι) (msg : ChanMsg ι)

omit [DecidableEq ι] in
theorem write_cases :
    server.write capacity msg = (1, { server with refused := server.refused ++ [msg] })
      ∨ server.write capacity msg = (0, { server with queue := server.queue ++ [msg] }) := by
  rw [write]
  split_ifs
  · exact Or.inl rfl
  · exact Or.inr rfl

omit [DecidableEq ι] in
@[simp]
theorem write_conns : (server.write capacity msg).2.conns = server.conns := by
  obtain h | h := write_cases capacity server msg <;> rw [h]

omit [DecidableEq ι] in
@[simp]
theorem write_ctxSet : (server.write capacity msg).2.ctxSet = server.ctxSet := by
  obtain h | h := write_cases capacity server msg <;> rw [h]

omit [DecidableEq ι] in
@[simp]
theorem write_misused : (server.write capacity msg).2.misused = server.misused := by
  obtain h | h := write_cases capacity server msg <;> rw [h]

theorem write_mine_self : (server.write capacity msg).2.mine msg.ctx = server.mine msg.ctx
    ∨ (server.write capacity msg).2.mine msg.ctx = server.mine msg.ctx ++ [msg] := by
  obtain h | h := write_cases capacity server msg
  · left
    rw [h]
    rfl
  · right
    rw [h]
    simp [mine]

variable {msg} in
theorem write_mine_of_ne {j : ι} (hj : j ≠ msg.ctx) :
    (server.write capacity msg).2.mine j = server.mine j := by
  obtain h | h := write_cases capacity server msg
  · rw [h]
    rfl
  · rw [h]
    simp [mine, Ne.symm hj]

end Write

omit [DecidableEq ι] in
theorem exists_conn_of_phase {phase : ConnPhase} (h : server.phase i = some phase) :
    ∃ conn, server.conns i = some conn ∧ conn.phase = phase := Option.map_eq_some_iff.mp h

theorem Sound.use_of_phase (h : server.Sound) {phase : ConnPhase}
    (hphase : server.phase i = some phase) (hne : phase ≠ .released) : server.use i = server := by
  obtain ⟨conn, hconn, rfl⟩ := exists_conn_of_phase hphase
  exact h.use_eq hconn (Or.inl hne)

theorem Sound.exists_conn_of_mine (h : server.Sound) (hmine : server.mine i ≠ []) :
    ∃ conn, server.conns i = some conn := by
  apply Option.ne_none_iff_exists'.mp
  intro hnone
  exact hmine (h.unborn i hnone)

section Work

variable {msg : ChanMsg ι} {queue : List (ChanMsg ι)}

theorem mine_of_queue (h : server.queue = msg :: queue) :
    server.mine msg.ctx
      = msg :: ({ server with queue := queue } : ChannelServer ι).mine msg.ctx := by
  simp [mine, h]

theorem mine_of_queue_of_ne (h : server.queue = msg :: queue) {j : ι} (hj : j ≠ msg.ctx) :
    ({ server with queue := queue } : ChannelServer ι).mine j = server.mine j := by
  simp [mine, h, Ne.symm hj]

end Work

/-! ### One step at a time -/

theorem Sound.connect (h : server.Sound) (hphase : server.phase i = none) :
    (server.onConnect capacity i).Sound := by
  have hnone : server.conns i = none := Option.map_eq_none_iff.mp hphase
  have hnil : server.mine i = [] := h.unborn i hnone
  simp only [onConnect, notifyChannel]
  refine h.update (i := i) (by simp only [write_conns, Function.update_self]; rfl)
    ?_ ?_ ?_ ?_ ?_ ?_
  · intro j hji
    simp only [write_conns, Function.update_of_ne hji]
  · intro j hji
    exact write_mine_of_ne capacity _ hji
  · apply ChanConn.Sound.new_retain
    obtain hmine | hmine := write_mine_self capacity
      { server with
        conns := Function.update server.conns i (some ChanConn.new.retain)
        ctxSet := i :: server.ctxSet }
      ⟨i, .connect, none, 0⟩
    · rw [hmine]
      intro msg hmsg
      exact absurd (hnil ▸ hmsg) List.not_mem_nil
    · rw [hmine]
      refine List.forall_mem_append.mpr ⟨fun msg hmsg => ?_, List.forall_mem_singleton.mpr ?_⟩
      · exact absurd (hnil ▸ hmsg) List.not_mem_nil
      · exact nofun
  · intro j hj hji
    rw [write_ctxSet] at hj
    exact (List.mem_cons.mp hj).resolve_left hji
  · exact fun _ => rfl
  · rw [write_misused]
    exact h.misused

variable (capacity) in
theorem Sound.read (h : server.Sound) (hphase : server.phase i = some .connected) (frame : Frame) :
    (server.onRead capacity i frame).2.Sound := by
  obtain ⟨conn, hconn, hconnected⟩ := exists_conn_of_phase hphase
  rw [onRead, h.use_of_phase hphase (by decide)]
  refine h.update (i := i) (by rw [write_conns, hconn]) ?_ ?_ ?_ ?_ ?_ ?_
  · intro j _
    rw [write_conns]
  · intro j hji
    exact write_mine_of_ne capacity _ hji
  · have hsound := h.conn i conn hconn
    obtain hmine | hmine := write_mine_self capacity server
      ⟨i, .data, if 0 < frame.datalen then some frame.data else none, frame.datalen⟩
    · rw [hmine]
      exact hsound
    · rw [hmine]
      exact hsound.write hconnected nofun
  · intro j hj _
    rwa [write_ctxSet] at hj
  · exact fun _ => hconnected
  · rw [write_misused]
    exact h.misused

theorem Sound.timer (h : server.Sound) : server.onTimer = server := by
  have hall : ∀ ctxs : List ι, (∀ i ∈ ctxs, i ∈ server.ctxSet) →
      ctxs.foldl use server = server := by
    intro ctxs hctxs
    induction ctxs with
    | nil => rfl
    | cons i ctxs ih =>
        have hphase := h.ctxSet i (hctxs i List.mem_cons_self)
        rw [List.foldl_cons, h.use_of_phase hphase (by decide)]
        exact ih fun j hj => hctxs j (List.mem_cons_of_mem _ hj)
  exact hall _ fun _ hi => hi

theorem Sound.close (h : server.Sound) (hphase : server.phase i = some .connected) :
    ((server.onClose capacity i).modify i fun conn => { conn with phase := .closed }).Sound := by
  obtain ⟨conn, hconn, hconnected⟩ := exists_conn_of_phase hphase
  rw [onClose, notifyChannel, h.use_of_phase hphase (by decide)]
  refine h.update (i := i) (by simp only [modify, write_conns, hconn, Function.update_self]; rfl)
    ?_ ?_ ?_ ?_ ?_ ?_
  · intro j hji
    simp only [modify, write_conns, Function.update_of_ne hji]
  · intro j hji
    exact write_mine_of_ne capacity server hji
  · refine (h.conn i conn hconn).close hconnected _ ?_
    obtain hmine | hmine := write_mine_self capacity server ⟨i, .disconnect, none, 0⟩
    · exact Or.inl hmine
    · exact Or.inr ⟨_, hmine⟩
  · intro j hj _
    simp only [modify, write_ctxSet] at hj
    exact List.mem_of_mem_filter hj
  · intro hi
    simp [modify] at hi
  · simp only [modify, write_misused]
    exact h.misused

theorem Sound.release (h : server.Sound) (hphase : server.phase i = some .closed) :
    ((server.use i).modify i fun conn => { conn.release with phase := .released }).Sound := by
  obtain ⟨conn, hconn, hclosed⟩ := exists_conn_of_phase hphase
  rw [h.use_of_phase hphase (by decide)]
  refine h.update (i := i) (by simp only [modify, hconn, Function.update_self]; rfl)
    ?_ ?_ ?_ ?_ ?_ ?_
  · intro j hji
    simp only [modify, Function.update_of_ne hji]
  · exact fun _ _ => rfl
  · exact (h.conn i conn hconn).releaseLoop hclosed
  · exact fun _ hj _ => hj
  · intro hi
    have hconnected := h.ctxSet i hi
    rw [hphase] at hconnected
    cases hconnected
  · exact h.misused

theorem dispatch_eq (host : Host) (memory : Bytes) (conn : ChanConn) :
    ∃ session, conn.dispatch host memory = { conn with session := session } := by
  rw [ChanConn.dispatch]
  split
  · exact ⟨_, rfl⟩
  · exact ⟨conn.session, rfl⟩
  · exact ⟨conn.session, rfl⟩

theorem Sound.work (h : server.Sound) {msg : ChanMsg ι} {queue : List (ChanMsg ι)}
    (hqueue : server.queue = msg :: queue) (beyond : Bytes) :
    ({ server with queue := queue }.handle host beyond msg).Sound := by
  have hself := mine_of_queue hqueue
  have hother (j : ι) (hj : j ≠ msg.ctx) := mine_of_queue_of_ne hqueue hj
  set rest : ChannelServer ι := { server with queue := queue }
  have hne : server.mine msg.ctx ≠ [] := by
    rw [hself]
    exact List.cons_ne_nil _ _
  obtain ⟨conn, hconn⟩ := h.exists_conn_of_mine hne
  have hsound := h.conn msg.ctx conn hconn
  rw [hself] at hsound
  have huse : rest.use msg.ctx = rest := by
    have halive : rest.alive msg.ctx = true := h.alive hconn (Or.inr hne)
    rw [use, halive, Bool.not_true, Bool.or_false]
  have hrestConn : rest.conns msg.ctx = some conn := hconn
  -- a disconnected context is not in the set any more
  have hset (hmem : msg.ctx ∈ server.ctxSet) : conn.phase = .connected := by
    have hphase := h.ctxSet msg.ctx hmem
    rw [phase, hconn, Option.map_some] at hphase
    exact Option.some.inj hphase
  have hmodify {f : ChanConn → ChanConn} (hf : (f conn).Sound (rest.mine msg.ctx))
      (hphase : (f conn).phase = conn.phase) : (rest.modify msg.ctx f).Sound := by
    refine h.update (i := msg.ctx) ?_ ?_ hother hf (fun _ hj _ => hj) ?_ h.misused
    · simp only [modify, hrestConn, Function.update_self, Option.map_some]
    · intro j hj
      simp only [modify, Function.update_of_ne hj]
      rfl
    · rw [hphase]
      exact hset
  cases htype : msg.msgType with
  | data =>
      obtain ⟨session, hdispatch⟩ := dispatch_eq host (msg.data.getD [] ++ beyond) conn
      have hdata : (rest.modify msg.ctx
          (ChanConn.dispatch host (msg.data.getD [] ++ beyond))).Sound := by
        apply hmodify
        · rw [hdispatch]
          exact hsound.handle
        · rw [hdispatch]
      simp only [handle, htype, huse]
      exact ⟨hdata.conn, hdata.unborn, hdata.ctxSet, hdata.misused⟩
  | connect =>
      simp only [handle, htype]
      exact h.update (i := msg.ctx) hrestConn (fun _ _ => rfl) hother hsound.handle
        (fun _ hj _ => hj) hset h.misused
  | disconnect =>
      simp only [handle, htype, huse]
      exact hmodify (hsound.handleDisconnect htype) rfl

/-- **One step of either thread.** -/
theorem Sound.step (h : server.Sound) {event : ChannelEvent ι}
    (hstep : server.step host capacity event = some server') : server'.Sound := by
  cases event with
  | connect i =>
      obtain ⟨hphase, hsome⟩ := Option.ite_none_right_eq_some.mp hstep
      cases hsome
      exact h.connect hphase
  | message i =>
      obtain ⟨hphase, hsome⟩ := Option.ite_none_right_eq_some.mp hstep
      cases hsome
      rw [h.use_of_phase hphase (by decide)]
      exact h
  | read i frame =>
      obtain ⟨⟨hphase, _⟩, hsome⟩ := Option.ite_none_right_eq_some.mp hstep
      cases hsome
      have hread := h.read capacity hphase frame
      exact ⟨hread.conn, hread.unborn, hread.ctxSet, hread.misused⟩
  | timer =>
      cases hstep
      rw [h.timer]
      exact h
  | close i =>
      obtain ⟨hphase, hsome⟩ := Option.ite_none_right_eq_some.mp hstep
      cases hsome
      exact h.close hphase
  | release i =>
      obtain ⟨hphase, hsome⟩ := Option.ite_none_right_eq_some.mp hstep
      cases hsome
      exact h.release hphase
  | work beyond =>
      simp only [ChannelServer.step] at hstep
      split at hstep
      next => cases hstep
      next msg queue hqueue =>
        cases hstep
        exact h.work hqueue beyond

theorem sound_of_run {before : List (ChannelServer ι × ChannelEvent ι)}
    (hrun : Run (ChannelServer.step host capacity) start before server) : server.Sound := by
  apply hrun.invariant (I := fun _ server => server.Sound)
  · exact start_sound
  · intro before server event server' h hstep
    exact h.step hstep

/-- **Lifetimes.** In every run of the two threads, whatever the capacity of the channel, nothing is
used that is not there, and each session and each context has been deleted once if the event loop
has released the context and the worker has handled that the connection is gone, and not otherwise.
-/
theorem lifetimes_sound (host : Host) (capacity : Option Nat)
    (before : List (ChannelServer ι × ChannelEvent ι)) (server : ChannelServer ι)
    (hrun : Run (ChannelServer.step host capacity) start before server) :
    server.misused = false
      ∧ ∀ i conn, server.conns i = some conn →
        conn.sessionDeleted = (if conn.phase = .released ∧ conn.disconnects = 1 then 1 else 0)
          ∧ conn.ctxDeleted = (if conn.phase = .released ∧ conn.disconnects = 1 then 1 else 0)
          ∧ conn.disconnects ≤ 1 := by
  have h := sound_of_run hrun
  refine ⟨h.misused, fun i conn hconn => ?_⟩
  have hsound := h.conn i conn hconn
  have hle := hsound.disconnects
  have hzero : conn.refCnt = 0 ↔ conn.phase = .released ∧ conn.disconnects = 1 := by
    rw [hsound.refCnt]
    split_ifs with hphase
    · simp only [hphase, true_and]
      omega
    · simp only [hphase, false_and, iff_false]
      omega
  rw [hsound.sessionDeleted, hsound.ctxDeleted]
  simp only [hzero]
  exact ⟨trivial, trivial, hle⟩

/-- A client that sends a ping and disconnects. The event loop lets go of it first. -/
def pingAndLeave : List (ChannelEvent Unit) :=
  let frame := encoded Host.little (newStackMsg Host.little demoMsgIdPing 12)
  [.connect (), .message (), .read () frame, .timer, .work [], .close (), .release (), .work [],
    .work []]

theorem lifetimes_sound_ping :
    ∃ before server, Run (ChannelServer.step Host.little (some 2)) start before server
      ∧ server.misused = false ∧ ∃ conn, server.conns () = some conn ∧ conn.sessionDeleted = 1 := by
  have hrun : (exec (ChannelServer.step Host.little (some 2)) start pingAndLeave).map
      (fun r => (r.2.conns ()).map fun conn => (conn.phase, conn.disconnects))
        = some (some (.released, 1)) := by decide +kernel
  obtain ⟨⟨before, server⟩, hexec, hconns⟩ := Option.map_eq_some_iff.mp hrun
  obtain ⟨conn, hconn, hend⟩ := Option.map_eq_some_iff.mp hconns
  have hbefore := run_of_exec hexec
  obtain ⟨hmisused, hdeleted⟩ := lifetimes_sound Host.little (some 2) before server hbefore
  have hsession := (hdeleted () conn hconn).1
  rw [if_pos (Prod.mk.inj hend)] at hsession
  exact ⟨before, server, hbefore, hmisused, conn, hconn, hsession⟩

end ChannelServer

end BabelTrader
