import BabelTrader.TcpServerWorker
import BabelTrader.Proof.RequestHandlers

/-!
# The references of a context

Every login takes a reference, and only the next `OnClose` of the listening loop has a use for one.
So the count is exact as long as a login comes at most once and comes there, and every other login
adds one reference that nobody gives back.
-/

namespace BabelTrader

open Runs CString

/-- A frame for which `OnLogin` gets as far as `Detach`. -/
def LogsIn (host : Host) (memory : Bytes) : Prop :=
  (MsgHdr.load host memory).msgId = demoMsgIdReqLogin
    ∧ strlen (memory.drop DemoMsgReqLogin.userId.start) < DemoMsgReqLogin.userId.size
    ∧ strlen (memory.drop DemoMsgReqLogin.password.start) < DemoMsgReqLogin.password.size

instance (host : Host) (memory : Bytes) : Decidable (LogsIn host memory) :=
  inferInstanceAs (Decidable (_ ∧ _))

def logins (host : Host) (batch : List Bytes) : Nat := batch.countP fun memory => LogsIn host memory

namespace Ctx

/-- The loops that hold the context. -/
def holders (ctx : Ctx) : Nat :=
  (if ctx.listen.isSome then 1 else 0) + if ctx.worker.isSome then 1 else 0

/-- The hand-overs that the listening loop has still to perform. -/
def pending (ctx : Ctx) : Nat := if ctx.listen = some .added ∧ ctx.detached = true then 1 else 0

/-- The count is exact, and the session is deleted once, when the last loop has let go. -/
structure Exact (ctx : Ctx) : Prop where
  refCnt : ctx.refCnt = ctx.holders + ctx.pending
  deleted : ctx.deleted = if ctx.holders = 0 then 1 else 0

/-- `ctx'` is what `count` logins have made of the context. -/
structure Retains (ctx : Ctx) (count : Nat) (ctx' : Ctx) : Prop where
  refCnt : ctx'.refCnt = ctx.refCnt + count
  detached : ctx'.detached = true ↔ ctx.detached = true ∨ 0 < count
  deleted : ctx'.deleted = ctx.deleted
  listen : ctx'.listen = ctx.listen
  worker : ctx'.worker = ctx.worker

end Ctx

/-! ### Logins -/

section

variable {host : Host} {ctx ctx' ctx'' : Ctx} {m n : Nat}

theorem Ctx.Retains.trans (h : ctx.Retains m ctx') (h' : ctx'.Retains n ctx'') :
    ctx.Retains (m + n) ctx'' where
  refCnt := by rw [h'.refCnt, h.refCnt, Nat.add_assoc]
  detached := by rw [h'.detached, h.detached, or_assoc, Nat.add_pos_iff_pos_or_pos]
  deleted := h'.deleted.trans h.deleted
  listen := h'.listen.trans h.listen
  worker := h'.worker.trans h.worker

theorem checkMsgStrLen_effects (session : TcpServerSession) (memory : Bytes) (field : Field)
    (rest : Reaction) :
    (session.checkMsgStrLen memory field rest).effects
      = if strlen (memory.drop field.start) < field.size then rest.effects else [.close] := by
  rw [TcpServerSession.checkMsgStrLen]
  split_ifs <;> first | rfl | omega

theorem count_detach_effects (session : TcpServerSession) (memory : Bytes)
    (handler : RequestHandler) (hid : (MsgHdr.load host memory).msgId = handler.msgId) :
    (handler.runWorker host session memory).effects.count .detach
      = if LogsIn host memory then 1 else 0 := by
  have hother (hne : handler.msgId ≠ demoMsgIdReqLogin) : ¬ LogsIn host memory := by
    intro hlogs
    exact hne (hid ▸ hlogs.1)
  cases handler with
  | onPing =>
      rw [if_neg (hother (by decide))]
      rfl
  | onLogin =>
      rw [RequestHandler.runWorker, TcpServerSession.onLoginDetach, TcpServerSession.onLoginThen,
        checkMsgStrLen_effects, checkMsgStrLen_effects]
      by_cases huser : strlen (memory.drop DemoMsgReqLogin.userId.start)
          < DemoMsgReqLogin.userId.size
      · rw [if_pos huser]
        by_cases hpassword : strlen (memory.drop DemoMsgReqLogin.password.start)
            < DemoMsgReqLogin.password.size
        · rw [if_pos hpassword, if_pos ⟨hid, huser, hpassword⟩]
          rfl
        · rw [if_neg hpassword, if_neg fun h => hpassword h.2.2]
          rfl
      · rw [if_neg huser, if_neg fun h => huser h.2.1]
        rfl
  | onReqSum =>
      rw [if_neg (hother (by decide)), RequestHandler.runWorker, TcpServerSession.onReqSum,
        TcpServerSession.checkAuth]
      split_ifs <;> rfl

theorem retains_performs (effects : List Effect) (ctx : Ctx) :
    ctx.Retains (effects.count .detach) (effects.foldl Ctx.perform ctx) := by
  induction effects generalizing ctx with
  | nil => exact ⟨rfl, by simp, rfl, rfl, rfl⟩
  | cons effect effects ih =>
      rw [List.foldl_cons, List.count_cons, Nat.add_comm]
      refine Ctx.Retains.trans ?_ (ih _)
      cases effect <;> exact ⟨rfl, by simp [Ctx.perform], rfl, rfl, rfl⟩

variable (host) in
theorem retains_onRead (ctx : Ctx) (memory : Bytes) :
    ctx.Retains (if LogsIn host memory then 1 else 0) (ctx.onRead host memory) := by
  have hnone (hdispatch : ∀ handler,
      RequestHandler.dispatcher.dispatch (MsgHdr.load host memory) ≠ .invoke handler) :
      ¬ LogsIn host memory := by
    intro hlogs
    exact hdispatch .onLogin ((RequestHandler.dispatch_eq_invoke_iff _ _).mpr hlogs.1)
  cases hdispatch : RequestHandler.dispatcher.dispatch (MsgHdr.load host memory) with
  | invoke handler =>
      have hid := (RequestHandler.dispatch_eq_invoke_iff _ _).mp hdispatch
      simp only [Ctx.onRead, hdispatch]
      rw [← count_detach_effects ctx.session memory handler hid]
      have hperforms := retains_performs
        (handler.runWorker host ctx.session memory).effects
        { ctx with session := (handler.runWorker host ctx.session memory).session }
      exact ⟨hperforms.refCnt, hperforms.detached, hperforms.deleted, hperforms.listen,
        hperforms.worker⟩
  | noCallback =>
      simp only [Ctx.onRead, hdispatch]
      rw [if_neg (hnone fun handler heq => by rw [hdispatch] at heq; cases heq)]
      exact ⟨rfl, by simp, rfl, rfl, rfl⟩
  | close =>
      simp only [Ctx.onRead, hdispatch]
      rw [if_neg (hnone fun handler heq => by rw [hdispatch] at heq; cases heq)]
      exact ⟨rfl, by simp, rfl, rfl, rfl⟩

variable (host) in
/-- **One batch.** Every login in it has taken a reference. -/
theorem retains_onMessage (ctx : Ctx) (batch : List Bytes) (failed : Bool) :
    ctx.Retains (logins host batch) (ctx.onMessage host batch failed) := by
  have hbatch : ctx.Retains (logins host batch) (batch.foldl (Ctx.onRead host) ctx) := by
    clear failed
    induction batch generalizing ctx with
    | nil => exact ⟨rfl, by simp [logins], rfl, rfl, rfl⟩
    | cons memory batch ih =>
        rw [logins, List.countP_cons, Nat.add_comm, List.foldl_cons]
        have hread := retains_onRead host ctx memory
        simp only [decide_eq_true_eq]
        exact hread.trans (ih _)
  exact ⟨hbatch.refCnt, hbatch.detached, hbatch.deleted, hbatch.listen, hbatch.worker⟩

end

/-! ### The ledger of one context -/

/-- A callback brings no login that is one too many: on the listening loop at most one, and that
only as long as the session is not detached, and on a worker's loop none. -/
def CtxEvent.Clean (host : Host) (ctx : Ctx) : CtxEvent → Prop
  | .message .listen batch _ => logins host batch ≤ if ctx.detached then 0 else 1
  | .message .worker batch _ => logins host batch = 0
  | .addCtx | .down | .close _ | .release _ => True

/-- How many logins are too many. -/
def CtxEvent.superfluous (host : Host) (ctx : Ctx) : CtxEvent → Nat
  | .message .listen batch _ => logins host batch - if ctx.detached then 0 else 1
  | .message .worker batch _ => logins host batch
  | .addCtx | .down | .close _ | .release _ => 0

/-- `extra` references belong to nobody. -/
structure Ctx.Ledger (ctx : Ctx) (extra : Nat) : Prop where
  refCnt : ctx.refCnt = ctx.holders + ctx.pending + extra
  deleted : ctx.deleted = if ctx.refCnt = 0 then 1 else 0
  listen : ctx.listen ≠ some .given
  worker : ctx.worker.isSome → ctx.listen ≠ some .added

section

variable {host : Host} {size : Nat} {handle handle' : TcpListenHandle} {ctx ctx' : Ctx}
  {extra : Nat}

theorem CtxEvent.superfluous_eq_zero_iff (event : CtxEvent) :
    event.superfluous host ctx = 0 ↔ event.Clean host ctx := by
  cases event with
  | message side batch failed =>
      cases side with
      | listen => exact Nat.sub_eq_zero_iff_le
      | worker => exact Iff.rfl
  | addCtx | down | close _ | release _ => exact iff_of_true rfl trivial

namespace Ctx

theorem connected_ledger : connected.Ledger 0 :=
  ⟨rfl, rfl, by decide, fun h => by cases h⟩

theorem Ledger.exact_iff (h : ctx.Ledger extra) : ctx.Exact ↔ extra = 0 := by
  have hrefCnt := h.refCnt
  constructor
  · intro hexact
    have hcount := hexact.refCnt
    omega
  · rintro rfl
    refine ⟨hrefCnt, ?_⟩
    have hzero : ctx.refCnt = 0 ↔ ctx.holders = 0 := by
      rw [hrefCnt, Ctx.holders, Ctx.pending]
      cases ctx.listen <;> simp
    rw [h.deleted]
    simp only [hzero]

/-- Holders and hand-overs only change places. -/
theorem Ledger.move (h : ctx.Ledger extra) (hrefCnt : ctx'.refCnt = ctx.refCnt)
    (hsum : ctx'.holders + ctx'.pending = ctx.holders + ctx.pending)
    (hdeleted : ctx'.deleted = ctx.deleted) (hlisten : ctx'.listen ≠ some .given)
    (hworker : ctx'.worker.isSome → ctx'.listen ≠ some .added) : ctx'.Ledger extra := by
  refine ⟨?_, by rw [hdeleted, hrefCnt, h.deleted], hlisten, hworker⟩
  have hcount := h.refCnt
  omega

theorem Ledger.release (h : ctx.Ledger extra) (hrefCnt : ctx'.refCnt = ctx.release.refCnt)
    (hdeleted : ctx'.deleted = ctx.release.deleted)
    (hsum : ctx'.holders + ctx'.pending + 1 = ctx.holders + ctx.pending)
    (hlisten : ctx'.listen ≠ some .given)
    (hworker : ctx'.worker.isSome → ctx'.listen ≠ some .added) : ctx'.Ledger extra := by
  have hcount := h.refCnt
  have hrelease : ctx.release.refCnt = ctx.refCnt - 1 := rfl
  have hzero : ctx.deleted = 0 := by rw [h.deleted, if_neg (by omega)]
  refine ⟨by omega, ?_, hlisten, hworker⟩
  calc ctx'.deleted
    _ = if ctx.refCnt - 1 = 0 then ctx.deleted + 1 else ctx.deleted := hdeleted
    _ = if ctx'.refCnt = 0 then 1 else 0 := by rw [hzero, hrefCnt, hrelease]

theorem Ledger.onMessage (h : ctx.Ledger extra) {batch : List Bytes} {failed : Bool}
    {more : Nat} (hheld : 0 < ctx.holders)
    (hmore : logins host batch + ctx.pending = (ctx.onMessage host batch failed).pending + more) :
    (ctx.onMessage host batch failed).Ledger (extra + more) := by
  obtain ⟨hrefCnt, hdetached, hdeleted, hlisten, hworker⟩ :=
    retains_onMessage host ctx batch failed
  have hholders : (ctx.onMessage host batch failed).holders = ctx.holders := by
    rw [holders, holders, hlisten, hworker]
  have hcount := h.refCnt
  refine ⟨by omega, ?_, hlisten ▸ h.listen, ?_⟩
  · rw [hdeleted, h.deleted, hrefCnt, if_neg (by omega), if_neg (by omega)]
  · rw [hlisten, hworker]
    exact h.worker

/-! ### What one event can do -/

variable (host ctx) in
/-- The events that are possible, each with its guard and its result. -/
inductive Does : CtxEvent → Ctx → Prop where
  | addCtx {idx : Int32} : ctx.worker = some (idx, .given) →
      Does .addCtx { ctx with worker := some (idx, .added) }
  | messageListen (batch : List Bytes) (failed : Bool) : ctx.listen = some .added →
      Does (.message .listen batch failed) (ctx.onMessage host batch failed)
  | messageWorker (batch : List Bytes) (failed : Bool) {idx : Int32} :
      ctx.worker = some (idx, .added) →
      Does (.message .worker batch failed) (ctx.onMessage host batch failed)
  | down : Does .down { ctx with down := true }
  | move {idx : Int32} : ctx.listen = some .added → ctx.detached = true →
      Does (.close .listen) { ctx with
        detached := false, flagClose := false, worker := some (idx, .given)
        listen := some .closed }
  | disconnect : ctx.listen = some .added → ctx.detached = false →
      Does (.close .listen) { ctx with listen := some .closed }
  | closeWorker {idx : Int32} : ctx.worker = some (idx, .added) →
      Does (.close .worker) { ctx with worker := some (idx, .closed) }
  | releaseListen : ctx.listen = some .closed →
      Does (.release .listen) { ctx.release with listen := none }
  | releaseWorker {idx : Int32} : ctx.worker = some (idx, .closed) →
      Does (.release .worker) { ctx.release with worker := none }

theorem does_of_step {event : CtxEvent}
    (h : ctx.step host size handle event = some (handle', ctx')) : Does host ctx event ctx' := by
  cases event with
  | addCtx =>
      simp only [step] at h
      split at h
      next idx hworker =>
        obtain ⟨_, rfl⟩ := Prod.mk.inj (Option.some.inj h)
        exact .addCtx hworker
      next => cases h
  | message side batch failed =>
      simp only [step] at h
      split at h
      next hlisten =>
        obtain ⟨_, rfl⟩ := Prod.mk.inj (Option.some.inj h)
        exact .messageListen batch failed hlisten
      next hworker =>
        obtain ⟨_, rfl⟩ := Prod.mk.inj (Option.some.inj h)
        exact .messageWorker batch failed hworker
      next => cases h
  | down =>
      obtain ⟨_, rfl⟩ := Prod.mk.inj (Option.some.inj h)
      exact .down
  | close side =>
      simp only [step] at h
      split at h
      next =>
        split at h
        next hlisten =>
          obtain ⟨_, rfl⟩ := Prod.mk.inj (Option.some.inj h)
          by_cases hdetached : ctx.detached = true
          · simp only [TcpListenHandle.onClose, if_pos hdetached]
            exact .move hlisten hdetached
          · simp only [TcpListenHandle.onClose, if_neg hdetached]
            exact .disconnect hlisten (Bool.eq_false_of_not_eq_true hdetached)
        next hworker =>
          obtain ⟨_, rfl⟩ := Prod.mk.inj (Option.some.inj h)
          exact .closeWorker hworker
        next => cases h
      next => cases h
  | release side =>
      simp only [step] at h
      split at h
      next hlisten =>
        obtain ⟨_, rfl⟩ := Prod.mk.inj (Option.some.inj h)
        exact .releaseListen hlisten
      next hworker =>
        obtain ⟨_, rfl⟩ := Prod.mk.inj (Option.some.inj h)
        exact .releaseWorker hworker
      next => cases h

/-- **One event.** It leaves as many more references to nobody as it brings superfluous logins. -/
theorem Ledger.does (h : ctx.Ledger extra) {event : CtxEvent} (hdoes : Does host ctx event ctx') :
    ctx'.Ledger (extra + event.superfluous host ctx) := by
  cases hdoes with
  | addCtx hworker =>
      refine h.move rfl ?_ rfl h.listen fun _ => h.worker (by rw [hworker]; rfl)
      simp [holders, pending, hworker]
  | messageListen batch failed hlisten =>
      have hheld : 0 < ctx.holders := by
        simp only [holders, hlisten, Option.isSome_some, if_true]
        omega
      refine h.onMessage hheld ?_
      have hretains := retains_onMessage host ctx batch failed
      simp only [pending, hretains.listen, hretains.detached, hlisten, CtxEvent.superfluous]
      by_cases hdetached : ctx.detached = true
      · simp [hdetached, Nat.add_comm]
      · by_cases hnone : 0 < logins host batch
        · simp [hdetached, hnone]
          omega
        · simp [hdetached, Nat.eq_zero_of_not_pos hnone]
  | messageWorker batch failed hworker =>
      refine h.onMessage (by simp [holders, hworker]) ?_
      have hretains := retains_onMessage host ctx batch failed
      have hlisten : ctx.listen ≠ some .added := h.worker (by rw [hworker]; rfl)
      simp [pending, hretains.listen, hlisten, CtxEvent.superfluous]
  | down => exact h.move rfl rfl rfl h.listen h.worker
  | move hlisten hdetached =>
      have hworker : ctx.worker = none := by
        by_contra hsome
        exact h.worker (Option.isSome_iff_ne_none.mpr hsome) hlisten
      refine h.move rfl ?_ rfl (by simp) (by simp)
      simp [holders, pending, hlisten, hdetached, hworker]
  | disconnect hlisten hdetached =>
      refine h.move rfl ?_ rfl (by simp) (by simp)
      simp [holders, pending, hlisten, hdetached]
  | closeWorker hworker =>
      refine h.move rfl ?_ rfl h.listen fun _ => h.worker (by rw [hworker]; rfl)
      simp [holders, pending, hworker]
  | releaseListen hlisten =>
      refine h.release rfl rfl ?_ (by simp) (by simp)
      simp [holders, pending, Ctx.release, hlisten]
      omega
  | releaseWorker hworker =>
      refine h.release rfl rfl ?_ h.listen (by simp)
      simp [holders, pending, Ctx.release, hworker]
      omega

end Ctx

end

/-! ### The whole server -/

section

variable {ι : Type} [DecidableEq ι] {host : Host} {size : Nat}

def WorkerEvent.Clean (host : Host) (server : WorkerServer ι) : WorkerEvent ι → Prop
  | .connect _ => True
  | .ctx i event => ∀ ctx, server.ctxs i = some ctx → event.Clean host ctx

/-- The superfluous logins that one context has had. -/
def superfluousLogins (host : Host) (i : ι)
    (before : List (WorkerServer ι × WorkerEvent ι)) : Nat :=
  (before.map fun
    | (server, .ctx j event) =>
        if j = i then (server.ctxs i).elim 0 fun ctx => event.superfluous host ctx else 0
    | (_, .connect _) => 0).sum

def WorkerServer.Exact (server : WorkerServer ι) : Prop :=
  ∀ i ctx, server.ctxs i = some ctx → ctx.Exact

/-- Every context has its ledger. -/
structure WorkerServer.Ledgers (host : Host) (before : List (WorkerServer ι × WorkerEvent ι))
    (server : WorkerServer ι) : Prop where
  ledger : ∀ i ctx, server.ctxs i = some ctx → ctx.Ledger (superfluousLogins host i before)
  unborn : ∀ i, server.ctxs i = none → superfluousLogins host i before = 0

theorem superfluousLogins_snoc (i : ι) (before : List (WorkerServer ι × WorkerEvent ι))
    (p : WorkerServer ι × WorkerEvent ι) :
    superfluousLogins host i (before ++ [p])
      = superfluousLogins host i before + superfluousLogins host i [p] := by
  simp only [superfluousLogins, List.map_append, List.sum_append]

/-- A step that is about one context. -/
theorem WorkerServer.Ledgers.update {before : List (WorkerServer ι × WorkerEvent ι)}
    {server server' : WorkerServer ι} (h : server.Ledgers host before)
    {p : WorkerServer ι × WorkerEvent ι} {i : ι} {ctx' : Ctx}
    (hctxs : server'.ctxs = Function.update server.ctxs i (some ctx'))
    (hother : ∀ j, j ≠ i → superfluousLogins host j [p] = 0)
    (hledger : ctx'.Ledger (superfluousLogins host i before + superfluousLogins host i [p])) :
    server'.Ledgers host (before ++ [p]) := by
  refine ⟨fun j ctx hj => ?_, fun j hj => ?_⟩
  · rw [superfluousLogins_snoc]
    by_cases hji : j = i
    · subst hji
      rw [hctxs, Function.update_self] at hj
      exact Option.some.inj hj ▸ hledger
    · rw [hctxs, Function.update_of_ne hji] at hj
      rw [hother j hji]
      exact h.ledger j ctx hj
  · by_cases hji : j = i
    · subst hji
      rw [hctxs, Function.update_self] at hj
      cases hj
    · rw [hctxs, Function.update_of_ne hji] at hj
      rw [superfluousLogins_snoc, hother j hji, h.unborn j hj]

theorem ledgers_step {before : List (WorkerServer ι × WorkerEvent ι)}
    {server server' : WorkerServer ι} {event : WorkerEvent ι}
    (h : server.Ledgers host before) (hstep : server.step host size event = some server') :
    server'.Ledgers host (before ++ [(server, event)]) := by
  cases event with
  | connect i =>
      cases hctx : server.ctxs i with
      | some ctx => simp [WorkerServer.step, hctx] at hstep
      | none =>
          simp only [WorkerServer.step, hctx, Option.some.injEq] at hstep
          subst hstep
          refine h.update (i := i) rfl (fun _ _ => rfl) ?_
          rw [h.unborn i hctx]
          exact Ctx.connected_ledger
  | ctx i event =>
      cases hctx : server.ctxs i with
      | none => simp [WorkerServer.step, hctx] at hstep
      | some ctx =>
          simp only [WorkerServer.step, hctx] at hstep
          obtain ⟨⟨handle', ctx'⟩, hctxStep, rfl⟩ := Option.map_eq_some_iff.mp hstep
          refine h.update (i := i) rfl (fun j hji => ?_) ?_
          · simp [superfluousLogins, Ne.symm hji]
          · have hmore : superfluousLogins host i [(server, .ctx i event)]
                = event.superfluous host ctx := by
              simp [superfluousLogins, hctx]
            rw [hmore]
            exact (h.ledger i ctx hctx).does (Ctx.does_of_step hctxStep)

theorem ledgers_of_run {before : List (WorkerServer ι × WorkerEvent ι)} {server : WorkerServer ι}
    (hrun : Run (WorkerServer.step host size) .start before server) :
    server.Ledgers host before := by
  apply hrun.invariant (I := fun before server => server.Ledgers host before)
  · exact ⟨fun i ctx hctx => (nomatch hctx), fun _ _ => rfl⟩
  · intro before server event server' h hstep
    exact ledgers_step h hstep

omit [DecidableEq ι] in
theorem exists_superfluous_of_not_clean {server : WorkerServer ι} {event : WorkerEvent ι}
    (h : ¬ event.Clean host server) :
    ∃ i ctx ctxEvent, event = .ctx i ctxEvent ∧ server.ctxs i = some ctx
      ∧ ctxEvent.superfluous host ctx ≠ 0 := by
  cases event with
  | connect i => exact absurd trivial h
  | ctx i event =>
      simp only [WorkerEvent.Clean, not_forall] at h
      obtain ⟨ctx, hctx, hnot⟩ := h
      exact ⟨i, ctx, event, rfl, hctx, fun hzero => hnot (event.superfluous_eq_zero_iff.mp hzero)⟩

theorem superfluousLogins_eq_zero_iff (before : List (WorkerServer ι × WorkerEvent ι)) :
    (∀ i, superfluousLogins host i before = 0) ↔ ∀ p ∈ before, p.2.Clean host p.1 := by
  simp only [superfluousLogins, List.sum_eq_zero_iff_forall_eq_nat, List.forall_mem_map]
  constructor
  · intro h p hp
    by_contra hnot
    obtain ⟨i, ctx, event, hevent, hctx, hne⟩ := exists_superfluous_of_not_clean hnot
    have hzero := h i p hp
    obtain ⟨server, _⟩ := p
    obtain rfl : _ = WorkerEvent.ctx i event := hevent
    dsimp only at hctx
    simp only [if_true, hctx, Option.elim_some] at hzero
    exact hne hzero
  · rintro h i ⟨server, event⟩ hp
    cases event with
    | connect j => rfl
    | ctx j event =>
        dsimp only
        by_cases hji : j = i
        · rw [if_pos hji]
          cases hctx : server.ctxs i with
          | none => rfl
          | some ctx =>
              have hclean := h _ hp ctx (by rw [hji, hctx])
              exact (event.superfluous_eq_zero_iff).mpr hclean
        · rw [if_neg hji]

theorem exact_iff_clean {before : List (WorkerServer ι × WorkerEvent ι)} {server : WorkerServer ι}
    (hrun : Run (WorkerServer.step host size) .start before server) :
    server.Exact ↔ ∀ p ∈ before, p.2.Clean host p.1 := by
  have h := ledgers_of_run hrun
  rw [← superfluousLogins_eq_zero_iff]
  constructor
  · intro hexact i
    cases hctx : server.ctxs i with
    | none => exact h.unborn i hctx
    | some ctx => exact (h.ledger i ctx hctx).exact_iff.mp (hexact i ctx hctx)
  · intro hzero i ctx hctx
    exact (h.ledger i ctx hctx).exact_iff.mpr (hzero i)

/-- **When the counts are exact.** In every state of a run, each context's count is the number of
loops that hold it plus the hand-overs to come, and its session has been deleted once if no loop
holds it and not otherwise, iff no callback of the run brings a superfluous login. -/
theorem counts_exact_iff (host : Host) (size : Nat)
    (before : List (WorkerServer ι × WorkerEvent ι)) (server : WorkerServer ι)
    (hrun : Run (WorkerServer.step host size) .start before server) :
    ((∀ p ∈ before, p.1.Exact) ∧ server.Exact) ↔ ∀ p ∈ before, p.2.Clean host p.1 := by
  constructor
  · rintro ⟨_, hexact⟩
    exact (exact_iff_clean hrun).mp hexact
  · intro hclean
    refine ⟨fun p hp => ?_, (exact_iff_clean hrun).mpr hclean⟩
    obtain ⟨earlier, hpre, hearlier⟩ := hrun.exists_earlier hp
    exact (exact_iff_clean hearlier).mpr fun q hq => hclean q (hpre.subset hq)

end

/-! ### A client that logs in -/

/-- The frame of a login with an empty user id and an empty password. -/
def loginFrame : Bytes := (encoded Host.little (newStackMsg Host.little demoMsgIdReqLogin 52)).data

/-- A client that sends `batch`, is handed over, and disconnects. -/
def visit (batch : List Bytes) : List (WorkerEvent Unit) :=
  [.connect (), .ctx () (.message .listen batch false), .ctx () (.close .listen),
    .ctx () (.release .listen), .ctx () .addCtx, .ctx () .down, .ctx () (.close .worker),
    .ctx () (.release .worker)]

theorem counts_exact_iff_visit :
    ∃ before server, Run (WorkerServer.step (ι := Unit) Host.little 2) .start before server
      ∧ before.length = 8 ∧ (∀ p ∈ before, p.1.Exact) ∧ server.Exact := by
  have hrun : (exec (WorkerServer.step Host.little 2) .start (visit [loginFrame])).map
      (fun r => (r.1.length, superfluousLogins Host.little () r.1)) = some (8, 0) := by
    decide +kernel
  obtain ⟨⟨before, server⟩, hexec, hcounts⟩ := Option.map_eq_some_iff.mp hrun
  obtain ⟨hlen, hzero⟩ := Prod.mk.inj hcounts
  have hbefore := run_of_exec hexec
  have hclean := (superfluousLogins_eq_zero_iff before).mp fun _ => hzero
  exact ⟨before, server, hbefore, hlen,
    (counts_exact_iff Host.little 2 before server hbefore).mpr hclean⟩

/-- Two logins in one batch: no loop holds the context any more, and it is still there. -/
theorem two_logins_leak :
    ∃ before server, Run (WorkerServer.step (ι := Unit) Host.little 2) .start before server
      ∧ ∃ ctx, server.ctxs () = some ctx ∧ ctx.holders + ctx.pending = 0 ∧ ctx.refCnt = 1
        ∧ ctx.deleted = 0 := by
  have hrun : (exec (WorkerServer.step Host.little 2) .start (visit [loginFrame, loginFrame])).map
      (fun r => (r.2.ctxs ()).map fun ctx => (ctx.holders + ctx.pending, ctx.refCnt, ctx.deleted))
        = some (some (0, 1, 0)) := by decide +kernel
  obtain ⟨⟨before, server⟩, hexec, hctxs⟩ := Option.map_eq_some_iff.mp hrun
  obtain ⟨ctx, hctx, hcounts⟩ := Option.map_eq_some_iff.mp hctxs
  simp only [Prod.mk.injEq] at hcounts
  exact ⟨before, server, run_of_exec hexec, ctx, hctx, hcounts⟩

end BabelTrader
