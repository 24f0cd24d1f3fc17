import BabelTrader.TcpServerHandle
import BabelTrader.Proof.AnyPeer

/-!
# Who is shut down, and when

The timer looks at the contexts of its set, and these are the ones whose session is there. It has
something to do at most once in five seconds, so a context may be idle for fifteen seconds and five
more before it is shut down, and no longer than that.
-/

namespace BabelTrader

open Runs

/-! ### Signs of life -/

section Signs

variable {host : Host}

theorem updateActiveTime_mem_iff (session : TcpServerSession) (memory : Bytes) :
    Effect.updateActiveTime ∈ ((tcpServer host).onRead session memory).1
      ↔ (MsgHdr.load host memory).msgId = demoMsgIdPing := by
  by_cases hhandler : ∃ handler : RequestHandler, (MsgHdr.load host memory).msgId = handler.msgId
  · obtain ⟨handler, hid⟩ := hhandler
    rw [tcpServer_invoke session hid, hid]
    cases handler with
    | onPing => exact iff_of_true List.mem_cons_self rfl
    | onLogin =>
        refine iff_of_false ?_ (by decide)
        rw [RequestHandler.run]
        cases hpasses : RequestHandler.onLogin.passes host memory with
        | true => simp [(onLogin_passes session hpasses).1]
        | false => simp [(onLogin_fails session hpasses).1]
    | onReqSum =>
        refine iff_of_false ?_ (by decide)
        rw [RequestHandler.run]
        by_cases hfails : RequestHandler.onReqSum.passes host memory = false
            ∨ session.isLogined = false
        · simp [(onReqSum_fails host memory session hfails).1]
        · obtain ⟨hpasses, hlogined⟩ := not_or.mp hfails
          simp [(onReqSum_passes session (Bool.eq_true_of_not_eq_false hpasses)
            (Bool.eq_true_of_not_eq_false hlogined)).1]
  · refine iff_of_false ?_ fun hping => hhandler ⟨.onPing, hping⟩
    simp only [tcpServer]
    cases hdispatch : RequestHandler.dispatcher.dispatch (MsgHdr.load host memory) with
    | invoke handler =>
        exact absurd ⟨handler, (RequestHandler.dispatch_eq_invoke_iff _ handler).mp hdispatch⟩
          hhandler
    | noCallback => exact List.not_mem_nil
    | close => simp

theorem updateActiveTime_mem_replay_iff (session : TcpServerSession) (batch : List Bytes) :
    Effect.updateActiveTime ∈ ((tcpServer host).replay session batch).1
      ↔ ∃ memory ∈ batch, (MsgHdr.load host memory).msgId = demoMsgIdPing := by
  induction batch generalizing session with
  | nil => simp [Application.replay]
  | cons memory batch ih =>
      rw [Application.replay_cons, List.mem_append, updateActiveTime_mem_iff, ih,
        List.exists_mem_cons_iff]

end Signs

namespace TcpServerHandle

variable {ι : Type} [DecidableEq ι] {host : Host} {handle handle' : TcpServerHandle ι} {i : ι}
  {ctx ctx' : ServerCtx}

/-- The time of the step, if the client gives a sign of life in it. -/
def sign (host : Host) (i : ι) : TcpServerHandle ι × ServerEvent ι × Int → Option Int
  | (_, .connect j, now) => if j = i then some now else none
  | (_, .message j batch _, now) =>
      if j = i ∧ ∃ memory ∈ batch, (MsgHdr.load host memory).msgId = demoMsgIdPing then some now
      else none
  | _ => none

def lastSign (host : Host) (i : ι) (before : List (TcpServerHandle ι × ServerEvent ι × Int)) :
    Option Int := (before.filterMap (sign host i)).getLast?

/-! ### Lifetimes -/

/-- **The invariant.** The set is that of the contexts that are not released, and only these have a
session. -/
structure Sound (handle : TcpServerHandle ι) : Prop where
  mem_iff : ∀ i, i ∈ handle.ctxSet.ctxSet
    ↔ ∃ ctx, handle.ctxs i = some ctx ∧ ctx.phase ≠ .released
  deleted : ∀ i ctx, handle.ctxs i = some ctx →
    ctx.deleted = if ctx.phase = .released then 1 else 0
  misused : handle.misused = false

omit [DecidableEq ι] in
theorem exists_ctx_of_phase {phase : ConnPhase} (h : handle.phase i = some phase) :
    ∃ ctx, handle.ctxs i = some ctx ∧ ctx.phase = phase := Option.map_eq_some_iff.mp h

omit [DecidableEq ι] in
theorem Sound.alive (h : handle.Sound) (hctx : handle.ctxs i = some ctx)
    (hphase : ctx.phase ≠ .released) : handle.alive i = true := by
  rw [TcpServerHandle.alive, hctx, Option.any_some, h.deleted i ctx hctx, if_neg hphase]
  rfl

omit [DecidableEq ι] in
theorem Sound.use_eq (h : handle.Sound) (hctx : handle.ctxs i = some ctx)
    (hphase : ctx.phase ≠ .released) : handle.use i = handle := by
  have hmisused : (handle.misused || !handle.alive i) = handle.misused := by
    rw [h.alive hctx hphase, Bool.not_true, Bool.or_false]
  rw [use, hmisused]

variable (ctx') in
/-- A step that is about one context. -/
theorem Sound.update (h : handle.Sound)
    (hctxs : handle'.ctxs = Function.update handle.ctxs i (some ctx'))
    (hset : ∀ j, j ≠ i → (j ∈ handle'.ctxSet.ctxSet ↔ j ∈ handle.ctxSet.ctxSet))
    (hself : i ∈ handle'.ctxSet.ctxSet ↔ ctx'.phase ≠ .released)
    (hdeleted : ctx'.deleted = if ctx'.phase = .released then 1 else 0)
    (hmisused : handle'.misused = false) : handle'.Sound where
  mem_iff j := by
    by_cases hji : j = i
    · subst hji
      rw [hctxs, Function.update_self, hself]
      simp
    · rw [hctxs, Function.update_of_ne hji, hset j hji]
      exact h.mem_iff j
  deleted j ctx hj := by
    by_cases hji : j = i
    · subst hji
      rw [hctxs, Function.update_self] at hj
      exact Option.some.inj hj ▸ hdeleted
    · rw [hctxs, Function.update_of_ne hji] at hj
      exact h.deleted j ctx hj
  misused := hmisused

/-- One in which it is neither born nor released. -/
theorem Sound.keep (h : handle.Sound) (hctx : handle.ctxs i = some ctx)
    {f : ServerCtx → ServerCtx} (hphase : (f ctx).phase = .released ↔ ctx.phase = .released)
    (hdeleted : (f ctx).deleted = ctx.deleted) : (handle.modify i f).Sound := by
  refine h.update (i := i) (f ctx) ?_ (fun _ _ => Iff.rfl) ?_ ?_ h.misused
  · simp only [modify, hctx, Option.map_some]
  · refine (h.mem_iff i).trans ?_
    simp [hctx, hphase]
  · rw [hdeleted, h.deleted i ctx hctx]
    simp only [hphase]

theorem Sound.connect (h : handle.Sound) (i : ι) (now : Int) :
    (handle.onConnect i now).Sound := by
  refine h.update (i := i) _ rfl ?_ ?_ rfl h.misused
  · intro j hji
    simp [onConnect, CtxSet.insert, hji]
  · simp [onConnect, CtxSet.insert]

theorem Sound.release (h : handle.Sound) (hctx : handle.ctxs i = some ctx)
    (hphase : ctx.phase = .closed) : (handle.onRelease i).Sound := by
  have hne : ctx.phase ≠ .released := by
    rw [hphase]
    decide
  rw [onRelease, h.use_eq hctx hne]
  refine h.update (i := i) { ctx with phase := .released, deleted := ctx.deleted + 1 } ?_ ?_ ?_ ?_
    h.misused
  · simp only [modify, hctx, Option.map_some]
  · intro j hji
    simp [modify, CtxSet.erase, hji]
  · simp [modify, CtxSet.erase]
  · rw [if_pos rfl, h.deleted i ctx hctx, if_neg hne]

theorem Sound.timer (h : handle.Sound) (currTs : Int) : (handle.onTimer currTs).Sound := by
  refine ⟨fun j => ?_, fun j ctx hj => ?_, ?_⟩
  · change j ∈ (handle.ctxSet.onTimer currTs).2.ctxSet ↔ _
    rw [CtxSet.onTimer_ctxSet, h.mem_iff j]
    simp only [onTimer]
    cases handle.ctxs j with
    | none => simp
    | some ctx =>
        rw [Option.map_some]
        split_ifs <;> simp
  · simp only [onTimer] at hj
    obtain ⟨ctx', hctx', heq⟩ := Option.map_eq_some_iff.mp hj
    have hdeleted := h.deleted j ctx' hctx'
    split_ifs at heq <;> cases heq <;> exact hdeleted
  · have hnone : ¬ ∃ j ∈ (handle.ctxSet.onTimer currTs).1, handle.alive j = false := by
      rintro ⟨j, hj, hdead⟩
      obtain ⟨ctx, hctx, hphase⟩ := (h.mem_iff j).mp (CtxSet.mem_onTimer_iff.mp hj).2
      rw [h.alive hctx hphase] at hdead
      cases hdead
    simp only [onTimer, h.misused, decide_eq_false hnone, Bool.or_false]

/-- **One step.** -/
theorem Sound.step (h : handle.Sound) {event : ServerEvent ι} {now : Int}
    (hstep : handle.step host (event, now) = some handle') : handle'.Sound := by
  cases event with
  | connect i =>
      obtain ⟨_, hsome⟩ := Option.ite_none_right_eq_some.mp hstep
      cases hsome
      exact h.connect i now
  | message i batch failed =>
      obtain ⟨hphase, hsome⟩ := Option.ite_none_right_eq_some.mp hstep
      cases hsome
      obtain ⟨ctx, hctx, hconnected⟩ := exists_ctx_of_phase hphase
      rw [onMessage, h.use_eq hctx (by rw [hconnected]; decide)]
      exact h.keep hctx Iff.rfl rfl
  | down i =>
      cases hstep
      cases hctx : handle.ctxs i with
      | none =>
          have hsame : handle.modify i (fun ctx => { ctx with down := true }) = handle := by
            rw [modify, hctx, Option.map_none, ← hctx, Function.update_eq_self]
          rw [hsame]
          exact h
      | some ctx => exact h.keep hctx Iff.rfl rfl
  | timer =>
      cases hstep
      exact h.timer now
  | close i =>
      obtain ⟨⟨hphase, _⟩, hsome⟩ := Option.ite_none_right_eq_some.mp hstep
      cases hsome
      obtain ⟨ctx, hctx, hconnected⟩ := exists_ctx_of_phase hphase
      rw [h.use_eq hctx (by rw [hconnected]; decide)]
      exact h.keep hctx (iff_of_false (fun h => ConnPhase.noConfusion h)
        (by rw [hconnected]; decide)) rfl
  | release i =>
      obtain ⟨hphase, hsome⟩ := Option.ite_none_right_eq_some.mp hstep
      cases hsome
      obtain ⟨ctx, hctx, hclosed⟩ := exists_ctx_of_phase hphase
      exact h.release hctx hclosed

omit [DecidableEq ι] in
theorem start_sound : (start : TcpServerHandle ι).Sound where
  mem_iff i := by simp [start, CtxSet.new]
  deleted i ctx hctx := by cases hctx
  misused := rfl

theorem sound_of_run {before : List (TcpServerHandle ι × ServerEvent ι × Int)}
    (hrun : Run (step host) start before handle) : handle.Sound := by
  apply hrun.invariant (I := fun _ handle => handle.Sound)
  · exact start_sound
  · intro before handle event handle' h hstep
    exact h.step hstep

/-! ### One context -/

/-- What a step does to a context: nothing as long as there is none, it is connected, or it is kept,
with a later sign of life if there is one. -/
inductive Changes (host : Host) (i : ι) (event : ServerEvent ι) (now : Int)
    (handle handle' : TcpServerHandle ι) : Prop where
  | unborn (before : handle.ctxs i = none) (after : handle'.ctxs i = none)
  | connected (before : handle.ctxs i = none)
      (signed : sign host i (handle, event, now) = some now)
      (after : handle'.ctxs i = some ⟨.connected, false, .new, now, 0⟩)
  | kept (ctx ctx' : ServerCtx) (before : handle.ctxs i = some ctx)
      (after : handle'.ctxs i = some ctx')
      (active : ctx'.lastActiveTime
        = (sign host i (handle, event, now)).getD ctx.lastActiveTime)
      (down : ctx.down = true → ctx'.down = true)
      (released : ctx.phase = .released → ctx'.phase = .released)

/-- Changes of one context that are not about signs of life. -/
theorem changes_modify {event : ServerEvent ι} {now : Int} {j : ι} {f : ServerCtx → ServerCtx}
    (hctxs : handle'.ctxs = Function.update handle.ctxs j ((handle.ctxs j).map f))
    (hother : j ≠ i → sign host i (handle, event, now) = none)
    (hself : j = i → ∀ ctx, handle.ctxs i = some ctx →
      (f ctx).lastActiveTime = (sign host i (handle, event, now)).getD ctx.lastActiveTime
        ∧ (ctx.down = true → (f ctx).down = true)
        ∧ (ctx.phase = .released → (f ctx).phase = .released)) :
    Changes host i event now handle handle' := by
  by_cases hji : j = i
  · subst hji
    cases hctx : handle.ctxs j with
    | none => exact .unborn hctx (by rw [hctxs, Function.update_self, hctx, Option.map_none])
    | some ctx =>
        obtain ⟨hactive, hdown, hreleased⟩ := hself rfl ctx hctx
        exact .kept ctx (f ctx) hctx (by rw [hctxs, Function.update_self, hctx, Option.map_some])
          hactive hdown hreleased
  · have hsame : handle'.ctxs i = handle.ctxs i := by
      rw [hctxs, Function.update_of_ne (Ne.symm hji)]
    cases hctx : handle.ctxs i with
    | none => exact .unborn hctx (hsame.trans hctx)
    | some ctx =>
        refine .kept ctx ctx hctx (hsame.trans hctx) ?_ id id
        rw [hother hji, Option.getD_none]

variable (i) in
theorem changes_of_step {event : ServerEvent ι} {now : Int}
    (hstep : handle.step host (event, now) = some handle') :
    Changes host i event now handle handle' := by
  cases event with
  | connect j =>
      obtain ⟨hphase, hsome⟩ := Option.ite_none_right_eq_some.mp hstep
      cases hsome
      have hnone : handle.ctxs j = none := Option.map_eq_none_iff.mp hphase
      by_cases hji : j = i
      · subst hji
        exact .connected hnone (if_pos rfl) (Function.update_self _ _ _)
      · have hsame : (handle.onConnect j now).ctxs i = handle.ctxs i :=
          Function.update_of_ne (Ne.symm hji) _ _
        cases hctx : handle.ctxs i with
        | none => exact .unborn hctx (hsame.trans hctx)
        | some ctx =>
            refine .kept ctx ctx hctx (hsame.trans hctx) ?_ id id
            rw [sign, if_neg hji, Option.getD_none]
  | message j batch failed =>
      obtain ⟨_, hsome⟩ := Option.ite_none_right_eq_some.mp hstep
      cases hsome
      refine changes_modify rfl (fun hji => if_neg fun h => hji h.1) ?_
      intro hji ctx _
      refine ⟨?_, fun hdown => ?_, id⟩
      · simp only [sign, hji, true_and, ← updateActiveTime_mem_replay_iff ctx.session]
        split_ifs <;> rfl
      · simp only [hdown, Bool.true_or]
  | down j =>
      cases hstep
      exact changes_modify rfl (fun _ => rfl) fun _ _ _ => ⟨rfl, fun _ => rfl, id⟩
  | timer =>
      cases hstep
      cases hctx : handle.ctxs i with
      | none => exact .unborn hctx (by simp only [onTimer, hctx, Option.map_none])
      | some ctx =>
          refine .kept ctx _ hctx (by simp only [onTimer, hctx, Option.map_some]; rfl) ?_ ?_ ?_
          · split_ifs <;> rfl
          · intro hdown
            split_ifs
            · rfl
            · exact hdown
          · intro hreleased
            split_ifs <;> exact hreleased
  | close j =>
      obtain ⟨⟨hphase, _⟩, hsome⟩ := Option.ite_none_right_eq_some.mp hstep
      cases hsome
      refine changes_modify rfl (fun _ => rfl) fun hji ctx hctx => ⟨rfl, id, fun hreleased => ?_⟩
      rw [phase, hji, hctx, Option.map_some, hreleased] at hphase
      cases hphase
  | release j =>
      obtain ⟨_, hsome⟩ := Option.ite_none_right_eq_some.mp hstep
      cases hsome
      exact changes_modify rfl (fun _ => rfl) fun _ _ _ => ⟨rfl, id, fun _ => rfl⟩

/-! ### The clock of the timer -/

theorem sign_cases (host : Host) (i : ι) (p : TcpServerHandle ι × ServerEvent ι × Int) :
    sign host i p = none ∨ sign host i p = some p.2.2 := by
  unfold sign
  split
  · split_ifs
    · exact Or.inr rfl
    · exact Or.inl rfl
  · split_ifs
    · exact Or.inr rfl
    · exact Or.inl rfl
  · exact Or.inl rfl

/-- What the timer does to a context, if it does anything. -/
theorem onTimer_ctxs (hctx : handle.ctxs i = some ctx) (now : Int) :
    (handle.onTimer now).ctxs i = some (if 5 ≤ now - handle.ctxSet.lastTimerTrigger
        ∧ i ∈ handle.ctxSet.ctxSet ∧ 15 < now - ctx.lastActiveTime then { ctx with down := true }
      else ctx) := by
  simp only [onTimer, hctx, Option.map_some, CtxSet.mem_onTimer_iff, isIdle, decide_eq_true_eq,
    and_assoc]

/-- The timer is only set forward, and when it is, it has shut down what was idle. -/
theorem lastTimerTrigger_of_step {event : ServerEvent ι} {now : Int}
    (hstep : handle.step host (event, now) = some handle') :
    handle'.ctxSet.lastTimerTrigger = handle.ctxSet.lastTimerTrigger
      ∨ (handle' = handle.onTimer now ∧ 5 ≤ now - handle.ctxSet.lastTimerTrigger
        ∧ handle'.ctxSet.lastTimerTrigger = now) := by
  cases event with
  | connect j =>
      obtain ⟨_, hsome⟩ := Option.ite_none_right_eq_some.mp hstep
      cases hsome
      exact Or.inl rfl
  | message j batch failed =>
      obtain ⟨_, hsome⟩ := Option.ite_none_right_eq_some.mp hstep
      cases hsome
      exact Or.inl rfl
  | down j =>
      cases hstep
      exact Or.inl rfl
  | timer =>
      cases hstep
      by_cases hearly : now - handle.ctxSet.lastTimerTrigger < 5
      · left
        simp only [onTimer, CtxSet.onTimer, if_pos hearly]
      · right
        refine ⟨rfl, not_lt.mp hearly, ?_⟩
        simp only [onTimer, CtxSet.onTimer, if_neg hearly]
  | close j =>
      obtain ⟨_, hsome⟩ := Option.ite_none_right_eq_some.mp hstep
      cases hsome
      exact Or.inl rfl
  | release j =>
      obtain ⟨_, hsome⟩ := Option.ite_none_right_eq_some.mp hstep
      cases hsome
      exact Or.inl rfl

/-- **The invariant in time.** When the timer last had something to do, it has shut down every
context that was idle then. -/
structure Watched (host : Host) (before : List (TcpServerHandle ι × ServerEvent ι × Int)) (t : Int)
    (handle : TcpServerHandle ι) : Prop where
  sound : handle.Sound
  trigger : handle.ctxSet.lastTimerTrigger ≤ t
  sign : ∀ i ctx, handle.ctxs i = some ctx → lastSign host i before = some ctx.lastActiveTime
  idle : ∀ i ctx, handle.ctxs i = some ctx → ctx.phase ≠ .released →
    15 < handle.ctxSet.lastTimerTrigger - ctx.lastActiveTime → ctx.down = true

theorem lastSign_concat (i : ι) (before : List (TcpServerHandle ι × ServerEvent ι × Int))
    (p : TcpServerHandle ι × ServerEvent ι × Int) :
    lastSign host i (before ++ [p]) = (sign host i p).or (lastSign host i before) := by
  rw [lastSign, lastSign, List.filterMap_append, List.getLast?_append]
  cases hsign : sign host i p <;> simp [hsign]

theorem Watched.step {before : List (TcpServerHandle ι × ServerEvent ι × Int)} {t now : Int}
    {event : ServerEvent ι} (h : Watched host before t handle) (hnow : t ≤ now)
    (hstep : handle.step host (event, now) = some handle') :
    Watched host (before ++ [(handle, event, now)]) now handle' := by
  have hsound := h.sound.step hstep
  have htrigger : handle'.ctxSet.lastTimerTrigger ≤ now := by
    have hbefore := h.trigger
    obtain hsame | ⟨_, _, hset⟩ := lastTimerTrigger_of_step hstep <;> omega
  refine ⟨hsound, htrigger, fun i ctx' hctx' => ?_, fun i ctx' hctx' hphase hidle => ?_⟩
  · rw [lastSign_concat]
    obtain ⟨_, hnone⟩ | ⟨_, hsign, hnew⟩ | ⟨ctx, ctx'', hctx, hafter, hactive, _, _⟩ :=
      changes_of_step i hstep
    · rw [hnone] at hctx'
      cases hctx'
    · rw [hnew] at hctx'
      cases hctx'
      rw [hsign, Option.some_or]
    · rw [hafter] at hctx'
      cases hctx'
      rw [hactive, h.sign i ctx hctx]
      cases TcpServerHandle.sign host i (handle, event, now) <;> rfl
  · obtain ⟨_, hnone⟩ | ⟨_, _, hnew⟩ | ⟨ctx, ctx'', hctx, hafter, hactive, hdown, hreleased⟩ :=
      changes_of_step i hstep
    · rw [hnone] at hctx'
      cases hctx'
    · rw [hnew] at hctx'
      cases hctx'
      dsimp only at hidle
      omega
    · rw [hafter] at hctx'
      cases hctx'
      have hlive : ctx.phase ≠ .released := fun hgone => hphase (hreleased hgone)
      obtain hquiet | hsign := sign_cases host i (handle, event, now)
      · rw [hquiet, Option.getD_none] at hactive
        obtain hsame | ⟨rfl, hlate, hset⟩ := lastTimerTrigger_of_step hstep
        · rw [hsame, hactive] at hidle
          exact hdown (h.idle i ctx hctx hlive hidle)
        · rw [hset, hactive] at hidle
          have hmem := (h.sound.mem_iff i).mpr ⟨ctx, hctx, hlive⟩
          rw [onTimer_ctxs hctx, if_pos ⟨hlate, hmem, hidle⟩] at hafter
          cases hafter
          rfl
      · rw [hsign, Option.getD_some] at hactive
        dsimp only at hactive
        omega

theorem watched_of_run {before : List (TcpServerHandle ι × ServerEvent ι × Int)}
    (hrun : Run (step host) start before handle) (hclocked : Clocked before) :
    ∃ t ∈ times before, Watched host before t handle := by
  apply hrun.clocked_invariant hclocked
  · refine ⟨start_sound, le_refl _, fun i ctx hctx => ?_, fun i ctx hctx => ?_⟩
    · cases hctx
    · cases hctx
  · intro before t handle event now handle' h hnow hstep
    exact h.step hnow hstep

/-! ### Any run -/

/-- **Lifetimes.** In every run no callback and no timer uses a session that is not there, the set
is that of the contexts which are not released, and each session is deleted once, when its context
is. -/
theorem handle_sound (host : Host) (before : List (TcpServerHandle ι × ServerEvent ι × Int))
    (handle : TcpServerHandle ι) (hrun : Run (step host) start before handle) :
    handle.misused = false
      ∧ (∀ i, i ∈ handle.ctxSet.ctxSet ↔ ∃ ctx, handle.ctxs i = some ctx ∧ ctx.phase ≠ .released)
      ∧ ∀ i ctx, handle.ctxs i = some ctx → ctx.deleted = if ctx.phase = .released then 1 else 0 :=
  have h := sound_of_run hrun
  ⟨h.misused, h.mem_iff, h.deleted⟩

/-- **Idle clients.** A run in which time does not go back, and then the timer. Of every context
that is not released there is a last sign of life. The timer has shut it down only if that has been
more than fifteen seconds before; and if that has been twenty seconds before, it is down. -/
theorem idle_timer (host : Host) (before : List (TcpServerHandle ι × ServerEvent ι × Int))
    (handle : TcpServerHandle ι) (now : Int) (hrun : Run (step host) start before handle)
    (hclocked : Clocked (before ++ [(handle, .timer, now)])) (i : ι) (ctx ctx' : ServerCtx)
    (hctx : handle.ctxs i = some ctx) (hctx' : (handle.onTimer now).ctxs i = some ctx')
    (hphase : ctx.phase ≠ .released) :
    ∃ t, lastSign host i before = some t
      ∧ (ctx.down = false → ctx'.down = true → 15 < now - t)
      ∧ (20 ≤ now - t → ctx'.down = true) := by
  obtain ⟨hbefore, hnow⟩ := clocked_concat_iff.mp hclocked
  obtain ⟨t, ht, hwatched⟩ := watched_of_run hrun hbefore
  rw [onTimer_ctxs hctx] at hctx'
  have hmem := (hwatched.sound.mem_iff i).mpr ⟨ctx, hctx, hphase⟩
  refine ⟨ctx.lastActiveTime, hwatched.sign i ctx hctx, fun hup hdown => ?_, fun hlong => ?_⟩
  · split_ifs at hctx' with hshut
    · exact hshut.2.2
    · cases hctx'
      rw [hup] at hdown
      cases hdown
  · split_ifs at hctx' with hshut
    · cases hctx'
      rfl
    · -- the timer had nothing to do, and so it had less than five seconds before
      have hearly : now - handle.ctxSet.lastTimerTrigger < 5 := by
        by_contra hlate
        exact hshut ⟨not_lt.mp hlate, hmem, by omega⟩
      cases hctx'
      exact hwatched.idle i ctx hctx hphase (by omega)

/-- One client pings, and the other one goes away between two calls of the timer. -/
def pingAndLeave : List (ServerEvent (Fin 2) × Int) :=
  let ping := (encoded Host.little (newStackMsg Host.little demoMsgIdPing 12)).data
  [(.connect 0, 100), (.connect 1, 101), (.message 0 [ping] false, 103), (.timer, 104),
    (.down 1, 110), (.close 1, 110), (.release 1, 111), (.timer, 118)]

theorem handle_sound_ping :
    ∃ before ctx, ∃ handle : TcpServerHandle (Fin 2), Run (step Host.little) start before handle
      ∧ before.length = 8
      ∧ handle.misused = false ∧ 0 ∈ handle.ctxSet.ctxSet ∧ 1 ∉ handle.ctxSet.ctxSet
      ∧ handle.ctxs 1 = some ctx ∧ ctx.deleted = 1 := by
  have hrun : (exec (step Host.little) start pingAndLeave).map
      (fun r => (r.1.length, (r.2.ctxs 0).map ServerCtx.phase, (r.2.ctxs 1).map ServerCtx.phase))
      = some (8, some .connected, some .released) := by
    decide +kernel
  obtain ⟨⟨before, handle⟩, hexec, hend⟩ := Option.map_eq_some_iff.mp hrun
  simp only [Prod.mk.injEq] at hend
  obtain ⟨hlen, hstays, hleaves⟩ := hend
  obtain ⟨ctx, hctx, hconnected⟩ := Option.map_eq_some_iff.mp hstays
  obtain ⟨ctx', hctx', hreleased⟩ := Option.map_eq_some_iff.mp hleaves
  have hbefore := run_of_exec hexec
  obtain ⟨hmisused, hmem, hdeleted⟩ := handle_sound Host.little before handle hbefore
  refine ⟨before, ctx', handle, hbefore, hlen, hmisused, (hmem 0).mpr ⟨ctx, hctx, ?_⟩, ?_, hctx',
    ?_⟩
  · rw [hconnected]
    decide
  · intro hin
    obtain ⟨ctx, hctx, hphase⟩ := (hmem 1).mp hin
    obtain rfl := Option.some.inj (hctx'.symm.trans hctx)
    exact hphase hreleased
  · rw [hdeleted 1 ctx' hctx', if_pos hreleased]

/-- A client that pings once. -/
def pingOnce : List (ServerEvent Unit × Int) :=
  let ping := (encoded Host.little (newStackMsg Host.little demoMsgIdPing 12)).data
  [(.connect (), 100), (.message () [ping] false, 103), (.timer, 104), (.timer, 118), (.timer, 122)]

/-- The client is still there nineteen seconds after the ping, and not after twenty. -/
theorem idle_timer_ping :
    ∃ before handle ctx ctx', Run (step Host.little) start before handle
      ∧ (before.map fun p => p.2.2).getLast? = some 122
      ∧ handle.ctxs () = some ctx ∧ ctx.down = false
      ∧ (handle.onTimer 123).ctxs () = some ctx' ∧ ctx'.down = true := by
  have hrun : (exec (step Host.little) start pingOnce).map
      (fun r => (r.1.map fun p => p.2.2, lastSign Host.little () r.1,
        (r.2.ctxs ()).map fun ctx => (ctx.phase, ctx.down)))
      = some ([100, 103, 104, 118, 122], some 103, some (.connected, false)) := by decide +kernel
  obtain ⟨⟨before, handle⟩, hexec, hend⟩ := Option.map_eq_some_iff.mp hrun
  simp only [Prod.mk.injEq] at hend
  obtain ⟨htimes, hsign, hphase⟩ := hend
  obtain ⟨ctx, hctx, hconnected⟩ := Option.map_eq_some_iff.mp hphase
  obtain ⟨hconnected, hup⟩ := Prod.mk.inj hconnected
  have hbefore := run_of_exec hexec
  have hclocked : Clocked (before ++ [(handle, .timer, 123)]) := by
    rw [clocked_concat_iff, Clocked, times, htimes]
    refine ⟨by decide, ?_⟩
    change ∀ t ∈ [(0 : Int), 100, 103, 104, 118, 122], t ≤ 123
    decide
  have hafter := onTimer_ctxs hctx 123
  obtain ⟨t, ht, _, hdown⟩ := idle_timer Host.little before handle 123 hbefore hclocked () ctx _
    hctx hafter (by rw [hconnected]; decide)
  rw [hsign] at ht
  cases ht
  refine ⟨before, handle, ctx, _, hbefore, ?_, hctx, hup, hafter, hdown (by decide)⟩
  rw [htimes]
  rfl

end TcpServerHandle

end BabelTrader
