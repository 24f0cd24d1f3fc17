import BabelTrader.Proof.ChannelAgrees
import BabelTrader.Proof.HandOver
import BabelTrader.Proof.WorkerAssignment

/-!
# What a client sees of the workers

A connection of `tcp_server_worker` is first served by the loop that listens and then by a worker,
and the handler of a login does more than that of `tcp_server`. Neither makes a difference to the
client: it is answered as `tcp_server` answers. And all connections of a user end up with one
worker.
-/

namespace BabelTrader

open Runs BytesBuffer Mailbox

/-! ### One batch -/

namespace Ctx

variable {host : Host} {ctx : Ctx}

/-- What `OnRead` asks of the session. -/
def asks (host : Host) (ctx : Ctx) (memory : Bytes) : List Effect :=
  match RequestHandler.dispatcher.dispatch (MsgHdr.load host memory) with
  | .invoke handler => (handler.runWorker host ctx.session memory).effects
  | .noCallback => []
  | .close => [.close]

/-- What a batch asks of the session. -/
def asksAll (host : Host) : Ctx → List Bytes → List Effect
  | _, [] => []
  | ctx, memory :: batch => ctx.asks host memory ++ asksAll host (ctx.onRead host memory) batch

end Ctx

/-! ### A run of the server -/

namespace WorkerServer

variable {ι : Type} [DecidableEq ι] {host : Host} {size : Nat} {server server' : WorkerServer ι}
  {before : List (WorkerServer ι × WorkerEvent ι)} {i : ι}

/-- What a step asks of the session of one context. -/
def asks (host : Host) (i : ι) : WorkerServer ι × WorkerEvent ι → List Effect
  | (server, .ctx j (.message _ batch _)) =>
      if j = i then (server.ctxs i).elim [] fun ctx => ctx.asksAll host batch else []
  | _ => []

/-- What its handlers see in a step, on whichever loop. -/
def seen (i : ι) : WorkerServer ι × WorkerEvent ι → List Bytes
  | (_, .ctx j (.message _ batch _)) => if j = i then batch else []
  | _ => []

/-- The session of a context; before it is connected, a new one. -/
def sessionOf (server : WorkerServer ι) (i : ι) : TcpServerSession :=
  (server.ctxs i).elim .new Ctx.session

/-- A step that is about one context: the others are left alone. -/
theorem ctx_of_step {j : ι} {event : CtxEvent}
    (hstep : server.step host size (.ctx j event) = some server') :
    ∃ ctx ctx', server.ctxs j = some ctx
      ∧ ctx.step host size server.handle event = some (server'.handle, ctx')
      ∧ server'.ctxs = Function.update server.ctxs j (some ctx') := by
  cases hctx : server.ctxs j with
  | none => simp [step, hctx] at hstep
  | some ctx =>
      simp only [step, hctx] at hstep
      obtain ⟨⟨handle', ctx'⟩, hctxStep, rfl⟩ := Option.map_eq_some_iff.mp hstep
      exact ⟨ctx, ctx', rfl, hctxStep, rfl⟩

theorem connect_of_step {j : ι} (hstep : server.step host size (.connect j) = some server') :
    server.ctxs j = none ∧ server'.handle = server.handle
      ∧ server'.ctxs = Function.update server.ctxs j (some .connected) := by
  cases hctx : server.ctxs j with
  | some ctx => simp [step, hctx] at hstep
  | none =>
      simp only [step, hctx, Option.some.injEq] at hstep
      subst hstep
      exact ⟨rfl, rfl, rfl⟩

end WorkerServer

/-! ### The worker of a user -/

/-- Whether a callback hands the context over, and to whom. -/
inductive Ctx.Places (size : Nat) (handle : TcpListenHandle) (ctx : Ctx) (event : CtxEvent)
    (handle' : TcpListenHandle) (ctx' : Ctx) : Prop where
  | handOver (close : event = .close .listen) (detached : ctx.detached = true)
      (listen : ctx.listen = some .added) (closed : ctx'.listen = some .closed)
      (assign : handle' = (handle.assign size ctx.session.userId).2)
      (worker : ctx'.worker = some ((handle.assign size ctx.session.userId).1, .given))
  | stay (quiet : event = .close .listen → ctx.detached = false) (same : handle' = handle)
      (listen : ctx'.listen = some .added → ctx.listen = some .added)
      (worker : ∀ idx holding, ctx'.worker = some (idx, holding) →
        ∃ before, ctx.worker = some (idx, before))

section Places

variable {host : Host} {size : Nat} {handle handle' : TcpListenHandle} {ctx ctx' : Ctx}
  {event : CtxEvent}

theorem Ctx.places_of_detached
    (h : ctx.step host size handle (.close .listen) = some (handle', ctx'))
    (hdetached : ctx.detached = true) : ctx.Places size handle (.close .listen) handle' ctx' := by
  simp only [step] at h
  split at h
  next =>
    split at h
    next hlisten =>
      simp only [TcpListenHandle.onClose, if_pos hdetached] at h
      obtain ⟨rfl, rfl⟩ := Prod.mk.inj (Option.some.inj h)
      exact .handOver rfl hdetached hlisten rfl rfl rfl
    next hside _ => cases hside
    next => cases h
  next => cases h

/-- Without a hand-over, the handle is left alone. -/
theorem Ctx.step_handle (h : ctx.step host size handle event = some (handle', ctx'))
    (hquiet : event = .close .listen → ctx.detached = false) : handle' = handle := by
  cases event with
  | addCtx =>
      simp only [step] at h
      split at h
      · exact (Prod.mk.inj (Option.some.inj h)).1.symm
      · cases h
  | message side batch failed =>
      simp only [step] at h
      split at h
      · exact (Prod.mk.inj (Option.some.inj h)).1.symm
      · exact (Prod.mk.inj (Option.some.inj h)).1.symm
      · cases h
  | down => exact (Prod.mk.inj (Option.some.inj h)).1.symm
  | close side =>
      simp only [step] at h
      split at h
      next =>
        split at h
        next =>
          have hdetached := hquiet rfl
          simp only [TcpListenHandle.onClose, hdetached] at h
          exact (Prod.mk.inj (Option.some.inj h)).1.symm
        next => exact (Prod.mk.inj (Option.some.inj h)).1.symm
        next => cases h
      next => cases h
  | release side =>
      simp only [step] at h
      split at h
      · exact (Prod.mk.inj (Option.some.inj h)).1.symm
      · exact (Prod.mk.inj (Option.some.inj h)).1.symm
      · cases h

theorem Ctx.places_of_step (h : ctx.step host size handle event = some (handle', ctx')) :
    ctx.Places size handle event handle' ctx' := by
  by_cases hmoves : event = .close .listen ∧ ctx.detached = true
  · obtain ⟨rfl, hdetached⟩ := hmoves
    exact places_of_detached h hdetached
  have hquiet : event = .close .listen → ctx.detached = false :=
    fun hclose => Bool.eq_false_of_not_eq_true fun hdetached => hmoves ⟨hclose, hdetached⟩
  refine .stay hquiet (step_handle h hquiet) ?_ ?_
  · intro hadded
    cases does_of_step h with
    | messageListen batch failed hlisten => exact hlisten
    | messageWorker batch failed =>
        rw [(retains_onMessage host ctx batch failed).listen] at hadded
        exact hadded
    | addCtx => exact hadded
    | down => exact hadded
    | closeWorker => exact hadded
    | releaseWorker => exact hadded
    | move => cases hadded
    | disconnect => cases hadded
    | releaseListen => cases hadded
  · intro idx holding hworker
    cases does_of_step h with
    | messageListen batch failed =>
        rw [(retains_onMessage host ctx batch failed).worker] at hworker
        exact ⟨holding, hworker⟩
    | messageWorker batch failed =>
        rw [(retains_onMessage host ctx batch failed).worker] at hworker
        exact ⟨holding, hworker⟩
    | addCtx hbefore =>
        cases hworker
        exact ⟨_, hbefore⟩
    | down => exact ⟨holding, hworker⟩
    | closeWorker hbefore =>
        cases hworker
        exact ⟨_, hbefore⟩
    | releaseWorker => cases hworker
    | move _ hdetached => exact absurd ((hquiet rfl).symm.trans hdetached) Bool.noConfusion
    | disconnect => exact ⟨holding, hworker⟩
    | releaseListen => exact ⟨holding, hworker⟩

end Places

namespace WorkerServer

variable {ι : Type} [DecidableEq ι] {host : Host} {size : Nat} {server server' : WorkerServer ι}
  {before : List (WorkerServer ι × WorkerEvent ι)} {i : ι}

/-- A context that a step hands over, with its user. -/
def handsOver : WorkerServer ι × WorkerEvent ι → List (ι × Bytes)
  | (server, .ctx i (.close .listen)) =>
      (server.ctxs i).elim [] fun ctx =>
        if ctx.detached then [(i, ctx.session.userId)] else []
  | _ => []

def handedOver (before : List (WorkerServer ι × WorkerEvent ι)) : List (ι × Bytes) :=
  before.flatMap handsOver

/-- **The invariant.** The handle has been through the users in the order in which they were handed
over, and nothing else, and each context is with the worker that was used for its user. -/
structure Routed (size : Nat) (before : List (WorkerServer ι × WorkerEvent ι))
    (server : WorkerServer ι) : Prop where
  handle : server.handle = (TcpListenHandle.assigns size ((handedOver before).map Prod.snd)).2
  nodup : ((handedOver before).map Prod.fst).Nodup
  connected : ∀ i ∈ (handedOver before).map Prod.fst,
    ∃ ctx, server.ctxs i = some ctx ∧ ctx.listen ≠ some .added
  worker : ∀ i ctx idx holding, server.ctxs i = some ctx → ctx.worker = some (idx, holding) →
    ∃ user, (i, user) ∈ handedOver before
      ∧ (user, idx) ∈ (TcpListenHandle.assigns size ((handedOver before).map Prod.snd)).1

omit [DecidableEq ι] in
theorem handedOver_concat (before : List (WorkerServer ι × WorkerEvent ι))
    (p : WorkerServer ι × WorkerEvent ι) :
    handedOver (before ++ [p]) = handedOver before ++ handsOver p := by
  unfold handedOver
  rw [List.flatMap_append, List.flatMap_singleton]

/-- A step that hands nothing over. -/
theorem Routed.stay (h : Routed size before server) {p : WorkerServer ι × WorkerEvent ι} {j : ι}
    {ctx' : Ctx} (hquiet : handsOver p = []) (hhandle : server'.handle = server.handle)
    (hctxs : server'.ctxs = Function.update server.ctxs j (some ctx'))
    (hlisten : j ∈ (handedOver before).map Prod.fst → ctx'.listen ≠ some .added)
    (hworker : ∀ idx holding, ctx'.worker = some (idx, holding) →
      ∃ ctx earlier, server.ctxs j = some ctx ∧ ctx.worker = some (idx, earlier)) :
    Routed size (before ++ [p]) server' := by
  have hsame : handedOver (before ++ [p]) = handedOver before := by
    rw [handedOver_concat, hquiet, List.append_nil]
  refine ⟨?_, ?_, ?_, ?_⟩
  · rw [hsame, hhandle]
    exact h.handle
  · rw [hsame]
    exact h.nodup
  · rw [hsame, hctxs]
    intro i hi
    by_cases hij : i = j
    · subst hij
      exact ⟨ctx', Function.update_self .., hlisten hi⟩
    · rw [Function.update_of_ne hij]
      exact h.connected i hi
  · rw [hsame, hctxs]
    intro i ctx idx holding hctx hidx
    by_cases hij : i = j
    · subst hij
      rw [Function.update_self] at hctx
      cases hctx
      obtain ⟨ctx, earlier, hbefore, hwas⟩ := hworker idx holding hidx
      exact h.worker i ctx idx earlier hbefore hwas
    · rw [Function.update_of_ne hij] at hctx
      exact h.worker i ctx idx holding hctx hidx

/-- A hand-over. -/
theorem Routed.handOver (h : Routed size before server) {p : WorkerServer ι × WorkerEvent ι} {j : ι}
    {ctx ctx' : Ctx} (hover : handsOver p = [(j, ctx.session.userId)])
    (hctx : server.ctxs j = some ctx) (hadded : ctx.listen = some .added)
    (hhandle : server'.handle = (server.handle.assign size ctx.session.userId).2)
    (hctxs : server'.ctxs = Function.update server.ctxs j (some ctx'))
    (hclosed : ctx'.listen = some .closed)
    (hworker : ctx'.worker
      = some ((server.handle.assign size ctx.session.userId).1, .given)) :
    Routed size (before ++ [p]) server' := by
  have hnew : j ∉ (handedOver before).map Prod.fst := by
    intro hj
    obtain ⟨ctx, hj, hnot⟩ := h.connected j hj
    cases hctx.symm.trans hj
    exact hnot hadded
  have hmore : handedOver (before ++ [p]) = handedOver before ++ [(j, ctx.session.userId)] := by
    rw [handedOver_concat, hover]
  have husers : TcpListenHandle.assigns size ((handedOver (before ++ [p])).map Prod.snd)
      = ((TcpListenHandle.assigns size ((handedOver before).map Prod.snd)).1
          ++ [(ctx.session.userId, (server.handle.assign size ctx.session.userId).1)],
        (server.handle.assign size ctx.session.userId).2) := by
    rw [hmore, List.map_append, List.map_singleton, TcpListenHandle.assigns_concat, ← h.handle]
  refine ⟨?_, ?_, ?_, ?_⟩
  · rw [husers, hhandle]
  · rw [hmore, List.map_append]
    exact h.nodup.append (List.nodup_singleton _) (List.disjoint_singleton.mpr hnew)
  · rw [hmore, List.map_append, hctxs]
    intro i hi
    by_cases hij : i = j
    · subst hij
      refine ⟨ctx', Function.update_self .., ?_⟩
      rw [hclosed]
      exact fun hsame => Holding.noConfusion (Option.some.inj hsame)
    · rw [Function.update_of_ne hij]
      apply h.connected i
      exact (List.mem_append.mp hi).resolve_right fun hlast => hij (List.mem_singleton.mp hlast)
  · rw [husers, hmore, hctxs]
    intro i ctx'' idx holding hctx'' hidx
    by_cases hij : i = j
    · subst hij
      rw [Function.update_self] at hctx''
      cases hctx''
      rw [hworker] at hidx
      cases hidx
      exact ⟨ctx.session.userId, List.mem_append_right _ (List.mem_singleton_self _),
        List.mem_append_right _ (List.mem_singleton_self _)⟩
    · rw [Function.update_of_ne hij] at hctx''
      obtain ⟨user, huser, hused⟩ := h.worker i ctx'' idx holding hctx'' hidx
      exact ⟨user, List.mem_append_left _ huser, List.mem_append_left _ hused⟩

theorem Routed.step (h : Routed size before server) {event : WorkerEvent ι}
    (hstep : server.step host size event = some server') :
    Routed size (before ++ [(server, event)]) server' := by
  cases event with
  | connect j =>
      obtain ⟨hnone, hhandle, hctxs⟩ := connect_of_step hstep
      refine h.stay rfl hhandle hctxs (fun hj => ?_) fun idx holding hworker => ?_
      · obtain ⟨ctx, hctx, _⟩ := h.connected j hj
        cases hnone.symm.trans hctx
      · cases hworker
  | ctx j event =>
      obtain ⟨ctx, ctx', hctx, hctxStep, hctxs⟩ := ctx_of_step hstep
      cases Ctx.places_of_step hctxStep with
      | handOver hclose hdetached hadded hclosed hhandle hworker =>
          subst hclose
          refine h.handOver ?_ hctx hadded hhandle hctxs hclosed hworker
          simp only [handsOver, hctx, Option.elim_some, if_pos hdetached]
      | stay hquiet hhandle hlisten hworker =>
          refine h.stay ?_ hhandle hctxs (fun hj hadded => ?_) fun idx holding hidx => ?_
          · cases event with
            | addCtx => rfl
            | message side batch failed => rfl
            | down => rfl
            | release side => rfl
            | close side =>
                cases side with
                | worker => rfl
                | listen =>
                    have hdetached := hquiet rfl
                    simp only [handsOver, hctx, Option.elim_some, hdetached, Bool.false_eq_true,
                      if_false]
          · obtain ⟨was, hwas, hnot⟩ := h.connected j hj
            cases hctx.symm.trans hwas
            exact hnot (hlisten hadded)
          · obtain ⟨earlier, hearlier⟩ := hworker idx holding hidx
            exact ⟨ctx, earlier, hctx, hearlier⟩

theorem routed_of_run (hrun : Run (WorkerServer.step host size) start before server) :
    Routed size before server := by
  apply hrun.invariant (I := fun before server => Routed size before server)
  · exact ⟨rfl, List.nodup_nil, fun i hi => absurd hi List.not_mem_nil,
      fun i ctx idx holding hctx => by cases hctx⟩
  · intro before server event server' h hstep
    exact h.step hstep

/-- **One worker for each user.** In every run, no context is handed over twice; the handle has been
through the users of those handed over, in their order; every context with a worker is with one that
there is, and all those of one user are with the same; and no worker has two users more than
another. -/
theorem user_one_worker (host : Host) (size : Nat) (hpos : 1 ≤ size) (hsize : size ≤ 2 ^ 31 - 1)
    (before : List (WorkerServer ι × WorkerEvent ι)) (server : WorkerServer ι)
    (hrun : Run (WorkerServer.step host size) start before server) :
    ((handedOver before).map Prod.fst).Nodup
      ∧ server.handle = (TcpListenHandle.assigns size ((handedOver before).map Prod.snd)).2
      ∧ (∀ i ctx idx holding, server.ctxs i = some ctx → ctx.worker = some (idx, holding) →
        TcpListenHandle.InRange size idx
          ∧ ∃ user, (i, user) ∈ handedOver before
            ∧ ∀ j ctx' idx' holding', server.ctxs j = some ctx' →
              ctx'.worker = some (idx', holding') → (j, user) ∈ handedOver before → idx' = idx)
      ∧ ∀ k < size, ∀ k' < size,
        (server.handle.usersOf k).length ≤ (server.handle.usersOf k').length + 1 := by
  have h := routed_of_run hrun
  have hlt : size < 2 ^ 31 := by omega
  have hassigned := TcpListenHandle.assigned_assigns hpos hlt ((handedOver before).map Prod.snd)
  have hdealt := hassigned.dealt
  rw [← h.handle] at hdealt
  refine ⟨h.nodup, h.handle, ?_, fun k hk k' hk' => hdealt.balanced (by omega) hk hk'⟩
  intro i ctx idx holding hctx hidx
  obtain ⟨user, huser, hused⟩ := h.worker i ctx idx holding hctx hidx
  have hmem := hassigned.used _ hused
  refine ⟨hassigned.dealt.inRange (by omega) hmem, user, huser, ?_⟩
  intro j ctx' idx' holding' hctx' hidx' hj
  obtain ⟨user', huser', hused'⟩ := h.worker j ctx' idx' holding' hctx' hidx'
  have hsame := List.inj_on_of_nodup_map h.nodup huser' hj rfl
  cases hsame
  have hone := List.inj_on_of_nodup_map hassigned.dealt.nodup (hassigned.used _ hused') hmem rfl
  exact (Prod.mk.inj hone).2

/-- A client logs in and is handed over. -/
def comes (i : Nat) (userId : Bytes) : List (WorkerEvent Nat) :=
  [.connect i, .ctx i (.message .listen [((Request.login 0 userId []).frame Host.little).data]
      false),
    .ctx i (.close .listen), .ctx i .addCtx]

/-- Of three connections, the first and the last are of one user. -/
theorem user_one_worker_three :
    ∃ before server, Run (WorkerServer.step Host.little 2) start before server
      ∧ handedOver before = [(0, [97]), (1, [98]), (2, [97])]
      ∧ ∃ idx, TcpListenHandle.InRange 2 idx
        ∧ (server.ctxs 0).bind Ctx.worker = some (idx, .added)
        ∧ (server.ctxs 2).bind Ctx.worker = some (idx, .added) := by
  have hrun : (exec (WorkerServer.step Host.little 2) start
      (comes 0 [97] ++ comes 1 [98] ++ comes 2 [97])).map
      (fun r => (handedOver r.1, ((r.2.ctxs 0).bind Ctx.worker).map Prod.snd,
        ((r.2.ctxs 2).bind Ctx.worker).map Prod.snd))
        = some ([(0, [97]), (1, [98]), (2, [97])], some .added, some .added) := by
    decide +kernel
  obtain ⟨⟨before, server⟩, hexec, hend⟩ := Option.map_eq_some_iff.mp hrun
  simp only [Prod.mk.injEq] at hend
  obtain ⟨hover, hfirst, hlast⟩ := hend
  have hbefore := run_of_exec hexec
  obtain ⟨⟨idx, _⟩, hidx, rfl⟩ := Option.map_eq_some_iff.mp hfirst
  obtain ⟨⟨idx', _⟩, hidx', rfl⟩ := Option.map_eq_some_iff.mp hlast
  obtain ⟨ctx, hctx, hworker⟩ := Option.bind_eq_some_iff.mp hidx
  obtain ⟨ctx', hctx', hworker'⟩ := Option.bind_eq_some_iff.mp hidx'
  obtain ⟨_, _, hworkers, _⟩ :=
    user_one_worker Host.little 2 (by decide) (by decide) before server hbefore
  obtain ⟨hrange, user, huser, hsame⟩ := hworkers 0 ctx idx _ hctx hworker
  have hother : (2, user) ∈ handedOver before := by
    rw [hover] at huser ⊢
    simpa using huser
  cases hsame 2 ctx' idx' _ hctx' hworker' hother
  exact ⟨before, server, hbefore, hover, idx, hrange, hidx, hidx'⟩

end WorkerServer

end BabelTrader
