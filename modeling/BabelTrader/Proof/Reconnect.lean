import BabelTrader.TcpClientHandle
import BabelTrader.Proof.DemoMessages

/-!
# One connection at a time

There is always one thing that keeps the client going: a thread that tries to connect, a context on
its way to the loop, or a session. And what each session goes through is what `tcpClient` goes
through on its connection, so the handle may reconnect without a session noticing anything of it.
-/

namespace BabelTrader

open Runs

/-! ### What is done with a session -/

/-- A call of the handle, or a frame that is handed over, with what lies behind it. -/
inductive ClientCall where
  | event (act : ClientEvent)
  | read (memory : Bytes)

namespace ClientCall

/-- What the application makes of it. -/
def run (host : Host) (r : List Effect × Option TcpClientSession) :
    ClientCall → List Effect × Option TcpClientSession
  | .event act =>
      (r.1 ++ ((tcpClient host).onEvent r.2 act).1, ((tcpClient host).onEvent r.2 act).2)
  | .read memory =>
      (r.1 ++ ((tcpClient host).onRead r.2 memory).1, ((tcpClient host).onRead r.2 memory).2)

def runs (host : Host) (calls : List ClientCall) : List Effect × Option TcpClientSession :=
  calls.foldl (run host) ([], none)

theorem run_read (host : Host) (effects : List Effect) (session : TcpClientSession)
    (memory : Bytes) :
    run host (effects, some session) (read memory)
      = (effects ++ (TcpClientHandle.onRead host session memory).1,
        some (TcpClientHandle.onRead host session memory).2) := by
  simp only [run, tcpClient, TcpClientHandle.onRead]
  cases ResponseHandler.dispatcher.dispatch (MsgHdr.load host memory) <;> rfl

end ClientCall

namespace TcpClientHandle

variable {ι : Type} [DecidableEq ι] {host : Host} {handle handle' : TcpClientHandle ι} {i : ι}
  {ctx : ClientCtx}

/-- What a step does with the session of a context, and when. -/
def calls (i : ι) :
    TcpClientHandle ι × ClientHandleEvent ι × Int → List (ClientCall × Int)
  | (_, .addCtx j rand, now) => if j = i then [(.event (.addCtx rand), now)] else []
  | (_, .message j batch _, now) =>
      if j = i then batch.map fun memory => (.read memory, now) else []
  | (handle, .timer sec nsec count rands, now) =>
      if handle.session_ = some i ∧ 3 ≤ now - handle.lastTimerTrigger then
        [(.event (.timer sec nsec count rands), now)]
      else []
  | _ => []

/-! ### Calls -/

/-- Something has been done with a session, which has asked for something. -/
def drive (handle : TcpClientHandle ι) (i : ι) (ctx : ClientCtx) (effects : List Effect) :
    TcpClientHandle ι :=
  { handle with
    ctxs := Function.update handle.ctxs i (some ctx)
    asked := Function.update handle.asked i (handle.asked i ++ effects) }

theorem drive_drive (ctx ctx' : ClientCtx) (effects effects' : List Effect) :
    (handle.drive i ctx effects).drive i ctx' effects'
      = handle.drive i ctx' (effects ++ effects') := by
  simp only [drive, Function.update_idem, Function.update_self, List.append_assoc]

omit [DecidableEq ι] in
theorem use_eq (hctx : handle.ctxs i = some ctx) (hdeleted : ctx.deleted = 0) :
    handle.use i = handle := by
  have hmisused : (handle.misused || !handle.alive i) = handle.misused := by
    rw [alive, hctx, Option.any_some, hdeleted]
    exact Bool.or_false _
  rw [use, hmisused]

theorem call_eq (hctx : handle.ctxs i = some ctx) (hdeleted : ctx.deleted = 0)
    (method : TcpClientSession → List Effect × TcpClientSession) :
    ∃ down, handle.call i method = handle.drive i
      { ctx with down := down, session := (method ctx.session).2 } (method ctx.session).1 := by
  refine ⟨ctx.down || decide (Effect.close ∈ (method ctx.session).1), ?_⟩
  simp only [call, hctx, use_eq hctx hdeleted, modify, Option.map_some]
  rfl

/-- A batch. -/
theorem foldl_call_eq (hctx : handle.ctxs i = some ctx) (hdeleted : ctx.deleted = 0)
    (batch : List Bytes) :
    ∃ ctx' effects, batch.foldl
        (fun handle memory => handle.call i fun session => onRead host session memory) handle
        = handle.drive i ctx' effects
      ∧ ctx'.phase = ctx.phase ∧ ctx'.deleted = 0
      ∧ ∀ before, (before ++ effects, some ctx'.session)
        = (batch.map ClientCall.read).foldl (ClientCall.run host) (before, some ctx.session) := by
  induction batch generalizing handle ctx with
  | nil =>
      refine ⟨ctx, [], ?_, rfl, hdeleted, fun before => ?_⟩
      · simp only [List.foldl_nil, drive, List.append_nil, Function.update_eq_self, ← hctx]
      · rw [List.append_nil]
        rfl
  | cons memory batch ih =>
      obtain ⟨down, hcall⟩ := call_eq hctx hdeleted fun session => onRead host session memory
      have hctx' := (congrArg (fun h => h.ctxs i) hcall).trans (Function.update_self i _ _)
      obtain ⟨ctx', effects, hbatch, hphase, hdeleted', hruns⟩ := ih hctx' hdeleted
      refine ⟨ctx', (onRead host ctx.session memory).1 ++ effects, ?_, hphase, hdeleted',
        fun before => ?_⟩
      · rw [List.foldl_cons, hbatch, hcall, drive_drive]
      · rw [List.map_cons, List.foldl_cons, ClientCall.run_read, ← hruns, List.append_assoc]

/-! ### One connection -/

/-- **The invariant.** One thread, context or session, and `session_` is that of the context which
is connected. -/
structure Sound (handle : TcpClientHandle ι) : Prop where
  count : handle.connecting + handle.given.length + (if handle.session_.isSome then 1 else 0) = 1
  session : ∀ i, handle.session_ = some i ↔ handle.phase i = some .connected
  given : ∀ i ∈ handle.given, handle.ctxs i = none
  deleted : ∀ i ctx, handle.ctxs i = some ctx →
    ctx.deleted = if ctx.phase = .released then 1 else 0
  misused : handle.misused = false

omit [DecidableEq ι] in
theorem start_sound : (start : TcpClientHandle ι).Sound where
  count := rfl
  session i := iff_of_false (by simp [start]) (by simp [start, phase])
  given i hi := absurd hi List.not_mem_nil
  deleted i ctx hctx := by cases hctx
  misused := rfl

omit [DecidableEq ι] in
theorem exists_ctx_of_phase {phase : ConnPhase} (h : handle.phase i = some phase) :
    ∃ ctx, handle.ctxs i = some ctx ∧ ctx.phase = phase := Option.map_eq_some_iff.mp h

omit [DecidableEq ι] in
theorem Sound.deleted_eq_zero (h : handle.Sound) (hctx : handle.ctxs i = some ctx)
    (hphase : ctx.phase ≠ .released) : ctx.deleted = 0 := by
  rw [h.deleted i ctx hctx, if_neg hphase]

/-- A context takes a step. -/
theorem Sound.update (h : handle.Sound) (ctx' : ClientCtx)
    (hctxs : handle'.ctxs = Function.update handle.ctxs i (some ctx'))
    (hcount : handle'.connecting + handle'.given.length
      + (if handle'.session_.isSome then 1 else 0) = 1)
    (hsession : ∀ j, j ≠ i → (handle'.session_ = some j ↔ handle.session_ = some j))
    (hself : handle'.session_ = some i ↔ ctx'.phase = .connected)
    (hgiven : ∀ j ∈ handle'.given, j ≠ i ∧ j ∈ handle.given)
    (hdeleted : ctx'.deleted = if ctx'.phase = .released then 1 else 0)
    (hmisused : handle'.misused = false) : handle'.Sound where
  count := hcount
  session j := by
    by_cases hji : j = i
    · subst hji
      rw [phase, hctxs, Function.update_self, hself]
      simp
    · rw [hsession j hji, phase, hctxs, Function.update_of_ne hji]
      exact h.session j
  given j hj := by
    obtain ⟨hji, hbefore⟩ := hgiven j hj
    rw [hctxs, Function.update_of_ne hji]
    exact h.given j hbefore
  deleted j ctx hj := by
    by_cases hji : j = i
    · subst hji
      rw [hctxs, Function.update_self] at hj
      exact Option.some.inj hj ▸ hdeleted
    · rw [hctxs, Function.update_of_ne hji] at hj
      exact h.deleted j ctx hj
  misused := hmisused

theorem Sound.driven (h : handle.Sound) (hctx : handle.ctxs i = some ctx) {ctx' : ClientCtx}
    {effects : List Effect} (hphase : ctx'.phase = ctx.phase)
    (hdeleted : ctx'.deleted = ctx.deleted) : (handle.drive i ctx' effects).Sound := by
  refine h.update ctx' rfl h.count (fun _ _ => Iff.rfl) ?_ (fun j hj => ⟨?_, hj⟩) ?_ h.misused
  · refine (h.session i).trans ?_
    rw [phase, hctx, Option.map_some, Option.some_inj, hphase]
  · rintro rfl
    rw [h.given j hj] at hctx
    cases hctx
  · rw [hdeleted, hphase]
    exact h.deleted i ctx hctx

/-- What has become of a session. -/
def view (handle : TcpClientHandle ι) (i : ι) : List Effect × Option TcpClientSession :=
  (handle.asked i, (handle.ctxs i).map ClientCtx.session)

theorem view_drive (ctx' : ClientCtx) (effects : List Effect) (j : ι) :
    (handle.drive i ctx' effects).view j
      = if j = i then (handle.asked i ++ effects, some ctx'.session) else handle.view j := by
  split_ifs with hji
  · subst hji
    simp only [view, TcpClientHandle.drive, Function.update_self, Option.map_some]
  · simp only [view, TcpClientHandle.drive, Function.update_of_ne hji]

omit [DecidableEq ι] in
theorem view_eq (hctx : handle.ctxs i = some ctx) :
    handle.view i = (handle.asked i, some ctx.session) := by
  rw [view, hctx, Option.map_some]

/-! ### One step at a time -/

/-- What a step comes to: the invariant is kept, and the application goes through the same calls. -/
structure Follows (host : Host) (handle : TcpClientHandle ι) (event : ClientHandleEvent ι)
    (now : Int) (handle' : TcpClientHandle ι) : Prop where
  sound : handle'.Sound
  view : ∀ i, handle'.view i = ((calls i (handle, event, now)).map Prod.fst).foldl
    (ClientCall.run host) (handle.view i)

theorem Sound.addCtx (h : handle.Sound) (hi : i ∈ handle.given) (rand : Nat) (now : Int) :
    Follows host handle (.addCtx i rand) now (handle.onAddCtx host i rand) := by
  have hlen := List.length_pos_of_mem hi
  have hnone : handle.session_ = none := by
    have hcount := h.count
    by_contra hsome
    rw [if_pos (Option.isSome_iff_ne_none.mpr hsome)] at hcount
    omega
  have hcount := h.count
  simp only [hnone, Option.isSome_none, Bool.false_eq_true, if_false] at hcount
  set added : TcpClientHandle ι := { handle with
    ctxs := Function.update handle.ctxs i (some ⟨.connected, false, .new, 0⟩)
    given := handle.given.erase i
    session_ := some i } with hadded
  have hctx : added.ctxs i = some ⟨.connected, false, .new, 0⟩ := Function.update_self _ _ _
  have hlenErase := List.length_erase_of_mem hi
  have hempty : handle.given.erase i = [] := List.length_eq_zero_iff.mp (by omega)
  have hsound : added.Sound := by
    refine h.update (i := i) _ rfl ?_ (fun j hji => ?_) (iff_of_true rfl rfl) ?_ rfl h.misused
    · simp only [hadded, hempty, Option.isSome_some, if_true, List.length_nil]
      omega
    · refine iff_of_false ?_ (by simp [hnone])
      intro hself
      exact hji (Option.some.inj hself).symm
    · intro j hj
      simp only [hadded, hempty] at hj
      cases hj
  obtain ⟨down, hcall⟩ := call_eq hctx rfl fun session => session.onConnection host rand
  rw [onAddCtx, ← hadded, hcall]
  refine ⟨?_, fun j => ?_⟩
  · exact hsound.driven hctx rfl rfl
  rw [view_drive]
  by_cases hji : j = i
  · subst hji
    rw [if_pos rfl, calls, if_pos rfl, TcpClientHandle.view, h.given j hi]
    rfl
  · rw [if_neg hji, calls, if_neg (Ne.symm hji)]
    simp only [TcpClientHandle.view, hadded, Function.update_of_ne hji]
    rfl

theorem Sound.message (h : handle.Sound) (hphase : handle.phase i = some .connected)
    (batch : List Bytes) (failed : Bool) (now : Int) :
    Follows host handle (.message i batch failed) now (handle.onMessage host i batch failed) := by
  obtain ⟨ctx, hctx, hconnected⟩ := exists_ctx_of_phase hphase
  have hdeleted := h.deleted_eq_zero hctx (by rw [hconnected]; decide)
  obtain ⟨ctx', effects, hbatch, hsame, hdeleted', hruns⟩ := foldl_call_eq hctx hdeleted batch
  have hdrive : handle.onMessage host i batch failed
      = handle.drive i { ctx' with down := ctx'.down || failed } effects := by
    rw [onMessage, use_eq hctx hdeleted, hbatch]
    simp only [modify, drive, Function.update_self, Option.map_some, Function.update_idem]
  rw [hdrive]
  refine ⟨?_, fun j => ?_⟩
  · exact h.driven hctx hsame (hdeleted'.trans hdeleted.symm)
  rw [view_drive]
  by_cases hji : j = i
  · subst hji
    rw [if_pos rfl, calls, if_pos rfl, view_eq hctx, List.map_map]
    exact hruns _
  · rw [if_neg hji, calls, if_neg (Ne.symm hji)]
    rfl

theorem Sound.timer (h : handle.Sound) (sec : UInt64) (nsec : UInt32) (count : UInt32)
    (rands : Nat → UInt32) (now : Int) :
    Follows host handle (.timer sec nsec count rands) now
      (handle.onTimer host now sec nsec count rands) := by
  cases hsession : handle.session_ with
  | none =>
      simp only [onTimer, hsession]
      refine ⟨h, fun j => ?_⟩
      rw [calls, if_neg (by simp [hsession])]
      rfl
  | some i =>
      by_cases hearly : now - handle.lastTimerTrigger < 3
      · simp only [onTimer, hsession, if_pos hearly]
        refine ⟨h, fun j => ?_⟩
        rw [calls, if_neg fun hlate => absurd hlate.2 (not_le.mpr hearly)]
        rfl
      · obtain ⟨ctx, hctx, hconnected⟩ := exists_ctx_of_phase ((h.session i).mp hsession)
        have hdeleted := h.deleted_eq_zero hctx (by rw [hconnected]; decide)
        let late : TcpClientHandle ι := { handle with lastTimerTrigger := now }
        have hlate : late.Sound := ⟨h.count, h.session, h.given, h.deleted, h.misused⟩
        have htimer : handle.onTimer host now sec nsec count rands
            = late.call i fun session => session.onTimer host sec nsec count rands := by
          simp only [onTimer, hsession, if_neg hearly, late]
        have hctxLate : late.ctxs i = some ctx := hctx
        obtain ⟨down, hcall⟩ := call_eq hctxLate hdeleted
          fun session => session.onTimer host sec nsec count rands
        rw [htimer, hcall]
        refine ⟨?_, fun j => ?_⟩
        · exact hlate.driven hctx rfl rfl
        rw [view_drive]
        by_cases hji : j = i
        · subst hji
          rw [if_pos rfl, calls, if_pos ⟨hsession, not_lt.mp hearly⟩, view_eq hctx]
          rfl
        · have hother : handle.session_ ≠ some j := by
            rw [hsession]
            exact fun hself => hji (Option.some.inj hself).symm
          rw [if_neg hji, calls, if_neg fun hself => hother hself.1]
          rfl

/-- A context takes a step that is not about its session. -/
theorem Follows.of_modify {event : ClientHandleEvent ι} {now : Int} {f : ClientCtx → ClientCtx}
    (hsound : handle'.Sound) (hcalls : ∀ j, calls j (handle, event, now) = [])
    (hctxs : handle'.ctxs = Function.update handle.ctxs i ((handle.ctxs i).map f))
    (hasked : handle'.asked = handle.asked) (hf : ∀ ctx, (f ctx).session = ctx.session) :
    Follows host handle event now handle' := by
  refine ⟨hsound, fun j => ?_⟩
  rw [hcalls j, TcpClientHandle.view, hctxs, hasked]
  by_cases hji : j = i
  · subst hji
    rw [Function.update_self, Option.map_map]
    exact congrArg _ (congrArg (fun g => (handle.ctxs j).map g) (funext hf))
  · rw [Function.update_of_ne hji]
    rfl

theorem Sound.close (h : handle.Sound) (hphase : handle.phase i = some .connected) :
    (handle.onClose.modify i fun ctx => { ctx with phase := .closed }).Sound := by
  obtain ⟨ctx, hctx, hconnected⟩ := exists_ctx_of_phase hphase
  have hsession := (h.session i).mpr hphase
  have hcount := h.count
  simp only [hsession, Option.isSome_some, if_true] at hcount
  have hgiven : handle.given = [] := List.length_eq_zero_iff.mp (by omega)
  refine h.update (i := i) { ctx with phase := .closed } ?_ ?_ ?_ ?_ ?_ ?_ h.misused
  · simp only [modify, onClose, connect, hctx, Option.map_some]
  · simp only [modify, onClose, connect, hgiven, Option.isSome_none, Bool.false_eq_true, if_false,
      List.length_nil]
    omega
  · intro j hji
    refine iff_of_false (by simp [modify, onClose, connect]) ?_
    rw [hsession]
    exact fun hself => hji (Option.some.inj hself).symm
  · exact iff_of_false (by simp [modify, onClose, connect]) (by simp)
  · intro j hj
    simp only [modify, onClose, connect, hgiven] at hj
    cases hj
  · rw [h.deleted_eq_zero hctx (by rw [hconnected]; decide), if_neg]
    simp

theorem Sound.release (h : handle.Sound) (hphase : handle.phase i = some .closed) :
    (handle.onRelease i).Sound := by
  obtain ⟨ctx, hctx, hclosed⟩ := exists_ctx_of_phase hphase
  have hdeleted := h.deleted_eq_zero hctx (by rw [hclosed]; decide)
  rw [onRelease, use_eq hctx hdeleted]
  refine h.update (i := i) { ctx with phase := .released, deleted := ctx.deleted + 1 } ?_ h.count
    (fun _ _ => Iff.rfl) ?_ (fun j hj => ⟨?_, hj⟩) ?_ h.misused
  · simp only [modify, hctx, Option.map_some]
  · refine iff_of_false ?_ (by simp)
    change handle.session_ ≠ some i
    intro hself
    rw [(h.session i).mp hself] at hphase
    cases hphase
  · rintro rfl
    rw [h.given j hj] at hctx
    cases hctx
  · rw [if_pos rfl, hdeleted]

omit [DecidableEq ι] in
theorem Sound.of_counts (h : handle.Sound) (hctxs : handle'.ctxs = handle.ctxs)
    (hcount : handle'.connecting + handle'.given.length
      = handle.connecting + handle.given.length)
    (hsession : handle'.session_ = handle.session_)
    (hgiven : ∀ i ∈ handle'.given, handle.ctxs i = none) (hmisused : handle'.misused = false) :
    handle'.Sound where
  count := by
    rw [hcount, hsession]
    exact h.count
  session i := by
    rw [hsession, phase, hctxs]
    exact h.session i
  given := by
    rw [hctxs]
    exact hgiven
  deleted := by
    rw [hctxs]
    exact h.deleted
  misused := hmisused

/-- **One step.** -/
theorem Sound.step (h : handle.Sound) {event : ClientHandleEvent ι} {now : Int}
    (hstep : handle.step host (event, now) = some handle') :
    Follows host handle event now handle' := by
  cases event with
  | connectFailed =>
      obtain ⟨_, hsome⟩ := Option.ite_none_right_eq_some.mp hstep
      cases hsome
      exact ⟨h, fun _ => rfl⟩
  | connected i =>
      obtain ⟨⟨hconnecting, hphase, _⟩, hsome⟩ := Option.ite_none_right_eq_some.mp hstep
      cases hsome
      refine ⟨h.of_counts rfl ?_ rfl ?_ h.misused, fun _ => rfl⟩
      · simp only [List.length_append, List.length_singleton]
        omega
      · exact List.forall_mem_append.mpr
          ⟨h.given, List.forall_mem_singleton.mpr (Option.map_eq_none_iff.mp hphase)⟩
  | addCtx i rand =>
      obtain ⟨hi, hsome⟩ := Option.ite_none_right_eq_some.mp hstep
      cases hsome
      exact h.addCtx hi rand now
  | message i batch failed =>
      obtain ⟨hphase, hsome⟩ := Option.ite_none_right_eq_some.mp hstep
      cases hsome
      exact h.message hphase batch failed now
  | down i =>
      cases hstep
      refine Follows.of_modify (i := i) ?_ (fun _ => rfl) rfl rfl fun _ => rfl
      cases hctx : handle.ctxs i with
      | none =>
          refine h.of_counts ?_ rfl rfl h.given h.misused
          rw [modify, hctx, Option.map_none, ← hctx, Function.update_eq_self]
      | some ctx =>
          refine h.update (i := i) { ctx with down := true } ?_ h.count (fun _ _ => Iff.rfl) ?_
            (fun j hj => ⟨?_, hj⟩) (h.deleted i ctx hctx) h.misused
          · simp only [modify, hctx, Option.map_some]
          · refine (h.session i).trans ?_
            rw [phase, hctx, Option.map_some, Option.some_inj]
          · rintro rfl
            rw [h.given j hj] at hctx
            cases hctx
  | timer sec nsec count rands =>
      cases hstep
      exact h.timer sec nsec count rands now
  | close i =>
      obtain ⟨⟨hphase, _⟩, hsome⟩ := Option.ite_none_right_eq_some.mp hstep
      cases hsome
      exact Follows.of_modify (h.close hphase) (fun _ => rfl) rfl rfl fun _ => rfl
  | release i =>
      obtain ⟨hphase, hsome⟩ := Option.ite_none_right_eq_some.mp hstep
      cases hsome
      exact Follows.of_modify (h.release hphase) (fun _ => rfl) rfl rfl fun _ => rfl

/-! ### Whole runs -/

def callsOf (i : ι) (before : List (TcpClientHandle ι × ClientHandleEvent ι × Int)) :
    List (ClientCall × Int) := before.flatMap (calls i)

theorem callsOf_concat (i : ι) (before : List (TcpClientHandle ι × ClientHandleEvent ι × Int))
    (p : TcpClientHandle ι × ClientHandleEvent ι × Int) :
    callsOf i (before ++ [p]) = callsOf i before ++ calls i p := by
  rw [callsOf, List.flatMap_append, List.flatMap_singleton]
  rfl

theorem follows_of_run {before : List (TcpClientHandle ι × ClientHandleEvent ι × Int)}
    (hrun : Run (step host) start before handle) :
    handle.Sound ∧ ∀ i, handle.view i
      = ClientCall.runs host ((callsOf i before).map Prod.fst) := by
  apply hrun.invariant (I := fun before handle => handle.Sound ∧ ∀ i, handle.view i
    = ClientCall.runs host ((callsOf i before).map Prod.fst))
  · exact ⟨start_sound, fun _ => rfl⟩
  · rintro before handle ⟨event, now⟩ handle' ⟨hsound, hview⟩ hstep
    have hfollows := hsound.step hstep
    refine ⟨hfollows.sound, fun i => ?_⟩
    rw [hfollows.view i, hview i, callsOf_concat, List.map_append]
    exact (List.foldl_append).symm

/-- **One connection at a time.** In every run of the client, there is one of these: a thread that
tries to connect, a context on its way to the loop, or a session to which `session_` points; this is
that of the context which is connected; nothing is used that is not there; and each session is
deleted once, when its context is released. -/
theorem one_connection (host : Host)
    (before : List (TcpClientHandle ι × ClientHandleEvent ι × Int)) (handle : TcpClientHandle ι)
    (hrun : Run (step host) start before handle) :
    handle.connecting + handle.given.length + (if handle.session_.isSome then 1 else 0) = 1
      ∧ (∀ i, handle.session_ = some i ↔ handle.phase i = some .connected)
      ∧ handle.misused = false
      ∧ ∀ i ctx, handle.ctxs i = some ctx → ctx.deleted = if ctx.phase = .released then 1 else 0 :=
  have h := (follows_of_run hrun).1
  ⟨h.count, h.session, h.misused, h.deleted⟩

/-! ### What a session goes through -/

/-- When the timer has called a session. -/
def timerTime : ClientCall × Int → Option Int
  | (.event (.timer _ _ _ _), now) => some now
  | (.event (.addCtx _), _) | (.read _, _) => none

/-- A session is connected first and once, and its timer calls are three seconds apart. -/
structure Lives (calls : List (ClientCall × Int)) : Prop where
  first : calls = [] ∨ ∃ rand t rest, calls = (.event (.addCtx rand), t) :: rest
    ∧ ∀ c ∈ rest, ∀ rand', c.1 ≠ .event (.addCtx rand')
  timers : (calls.filterMap timerTime).Pairwise fun t t' => 3 ≤ t' - t

/-- What a step adds to the calls of a session, with its guard. -/
inductive Adds (i : ι) (handle : TcpClientHandle ι) (now : Int) (handle' : TcpClientHandle ι) :
    List (ClientCall × Int) → Prop where
  | connect (rand : Nat) (before : handle.ctxs i = none)
      (last : handle'.lastTimerTrigger = handle.lastTimerTrigger) :
      Adds i handle now handle' [(.event (.addCtx rand), now)]
  | reads (batch : List Bytes) (before : batch = [] ∨ handle.ctxs i ≠ none)
      (last : handle.lastTimerTrigger ≤ handle'.lastTimerTrigger) :
      Adds i handle now handle' (batch.map fun memory => (.read memory, now))
  | timer (sec : UInt64) (nsec count : UInt32) (rands : Nat → UInt32)
      (before : handle.ctxs i ≠ none) (late : 3 ≤ now - handle.lastTimerTrigger)
      (last : handle'.lastTimerTrigger = now) :
      Adds i handle now handle' [(.event (.timer sec nsec count rands), now)]

omit [DecidableEq ι] in
theorem Adds.nothing (h : handle.lastTimerTrigger ≤ handle'.lastTimerTrigger) {now : Int} :
    Adds i handle now handle' [] := .reads [] (Or.inl rfl) h

theorem call_lastTimerTrigger (handle : TcpClientHandle ι) (i : ι)
    (method : TcpClientSession → List Effect × TcpClientSession) :
    (handle.call i method).lastTimerTrigger = handle.lastTimerTrigger := by
  rw [call]
  split <;> rfl

variable (host) in
theorem onMessage_lastTimerTrigger (handle : TcpClientHandle ι) (i : ι) (batch : List Bytes)
    (failed : Bool) :
    (handle.onMessage host i batch failed).lastTimerTrigger = handle.lastTimerTrigger := by
  have hbatch (base : TcpClientHandle ι) :
      (batch.foldl (fun handle memory => handle.call i fun session => onRead host session memory)
        base).lastTimerTrigger = base.lastTimerTrigger := by
    induction batch generalizing base with
    | nil => rfl
    | cons memory batch ih => rw [List.foldl_cons, ih, call_lastTimerTrigger]
  exact hbatch _

theorem Sound.adds (h : handle.Sound) {event : ClientHandleEvent ι} {now : Int}
    (hstep : handle.step host (event, now) = some handle') (i : ι) :
    Adds i handle now handle' (calls i (handle, event, now)) := by
  cases event with
  | connectFailed =>
      obtain ⟨_, hsome⟩ := Option.ite_none_right_eq_some.mp hstep
      cases hsome
      refine .nothing ?_
      exact le_rfl
  | connected j =>
      obtain ⟨_, hsome⟩ := Option.ite_none_right_eq_some.mp hstep
      cases hsome
      refine .nothing ?_
      exact le_rfl
  | addCtx j rand =>
      obtain ⟨hj, hsome⟩ := Option.ite_none_right_eq_some.mp hstep
      cases hsome
      have hlast : (handle.onAddCtx host j rand).lastTimerTrigger = handle.lastTimerTrigger :=
        call_lastTimerTrigger _ _ _
      rw [calls]
      split_ifs with hji
      · subst hji
        exact .connect rand (h.given j hj) hlast
      · exact .nothing hlast.ge
  | message j batch failed =>
      obtain ⟨hphase, hsome⟩ := Option.ite_none_right_eq_some.mp hstep
      cases hsome
      have hlast := onMessage_lastTimerTrigger host handle j batch failed
      rw [calls]
      split_ifs with hji
      · subst hji
        obtain ⟨ctx, hctx, _⟩ := exists_ctx_of_phase hphase
        exact .reads batch (Or.inr (by rw [hctx]; exact Option.some_ne_none ctx)) hlast.ge
      · exact .nothing hlast.ge
  | down j =>
      cases hstep
      refine .nothing ?_
      exact le_rfl
  | timer sec nsec count rands =>
      cases hstep
      rw [calls]
      split_ifs with hself
      · obtain ⟨hsession, hlate⟩ := hself
        obtain ⟨ctx, hctx, _⟩ := exists_ctx_of_phase ((h.session i).mp hsession)
        refine .timer sec nsec count rands (by rw [hctx]; exact Option.some_ne_none ctx) hlate ?_
        simp only [onTimer, hsession, if_neg (not_lt.mpr hlate)]
        exact call_lastTimerTrigger _ _ _
      · refine .nothing ?_
        rw [onTimer]
        split
        · exact le_rfl
        · split_ifs with hearly
          · exact le_rfl
          · rw [call_lastTimerTrigger]
            exact Int.le_of_sub_nonneg (le_trans (by decide) (not_lt.mp hearly))
  | close j =>
      obtain ⟨_, hsome⟩ := Option.ite_none_right_eq_some.mp hstep
      cases hsome
      refine .nothing ?_
      exact le_rfl
  | release j =>
      obtain ⟨_, hsome⟩ := Option.ite_none_right_eq_some.mp hstep
      cases hsome
      refine .nothing ?_
      exact le_rfl

omit [DecidableEq ι] in
/-- Once there is a session, the application has one. -/
theorem isSome_foldl_run (host : Host) (cs : List ClientCall)
    (r : List Effect × Option TcpClientSession) (h : r.2.isSome) :
    (cs.foldl (ClientCall.run host) r).2.isSome := by
  induction cs generalizing r with
  | nil => exact h
  | cons c cs ih =>
      obtain ⟨effects, session_⟩ := r
      obtain ⟨session, rfl⟩ := Option.isSome_iff_exists.mp h
      refine ih _ ?_
      cases c with
      | event act => cases act <;> rfl
      | read memory =>
          rw [ClientCall.run_read]
          rfl

/-- What holds of the calls of one session, and the timer of the handle. -/
structure Lived (handle : TcpClientHandle ι) (cs : List (ClientCall × Int)) : Prop where
  lives : Lives cs
  times : ∀ t ∈ cs.filterMap timerTime, t ≤ handle.lastTimerTrigger

omit [DecidableEq ι] in
/-- There is a session once there has been a call. -/
theorem Lives.unborn_iff {cs : List (ClientCall × Int)} (h : Lives cs)
    (hview : handle.view i = ClientCall.runs host (cs.map Prod.fst)) :
    handle.ctxs i = none ↔ cs = [] := by
  have hsession : handle.ctxs i = none ↔ (ClientCall.runs host (cs.map Prod.fst)).2 = none := by
    rw [← hview, view, Option.map_eq_none_iff]
  rw [hsession]
  obtain rfl | ⟨rand, t, rest, rfl, _⟩ := h.first
  · exact iff_of_true rfl rfl
  · refine iff_of_false ?_ (List.cons_ne_nil _ _)
    apply Option.isSome_iff_ne_none.mp
    exact isSome_foldl_run host (rest.map Prod.fst)
      (ClientCall.run host ([], none) (.event (.addCtx rand))) rfl

omit [DecidableEq ι] in
theorem Lived.adds {now : Int} {cs more : List (ClientCall × Int)} (h : Lived handle cs)
    (hunborn : handle.ctxs i = none ↔ cs = []) (hadds : Adds i handle now handle' more) :
    Lived handle' (cs ++ more) := by
  obtain ⟨hfirst, htimers⟩ := h.lives
  cases hadds with
  | connect rand hbefore hlast =>
      have hnil := hunborn.mp hbefore
      subst hnil
      refine ⟨⟨Or.inr ⟨rand, now, [], rfl, fun c hc => absurd hc List.not_mem_nil⟩, ?_⟩, ?_⟩
      · exact List.Pairwise.nil
      · exact fun t ht => absurd ht List.not_mem_nil
  | reads batch hbefore hlast =>
      have hnone : (batch.map fun memory => ((.read memory, now) : ClientCall × Int)).filterMap
          timerTime = [] := by
        rw [List.filterMap_map]
        exact List.filterMap_eq_nil_iff.mpr fun _ _ => rfl
      refine ⟨⟨?_, ?_⟩, ?_⟩
      · obtain rfl | ⟨rand, t, rest, rfl, hrest⟩ := hfirst
        · obtain rfl | hne := hbefore
          · exact Or.inl rfl
          · exact absurd (hunborn.mpr rfl) hne
        · refine Or.inr ⟨rand, t, rest ++ _, rfl, ?_⟩
          refine List.forall_mem_append.mpr ⟨hrest, fun c hc rand' => ?_⟩
          obtain ⟨memory, _, rfl⟩ := List.mem_map.mp hc
          exact fun heq => ClientCall.noConfusion heq
      · rw [List.filterMap_append, hnone, List.append_nil]
        exact htimers
      · rw [List.filterMap_append, hnone, List.append_nil]
        exact fun t ht => le_trans (h.times t ht) hlast
  | timer sec nsec count rands hbefore hlate hlast =>
      refine ⟨⟨?_, ?_⟩, ?_⟩
      · obtain rfl | ⟨rand, t, rest, rfl, hrest⟩ := hfirst
        · exact absurd (hunborn.mpr rfl) hbefore
        · refine Or.inr ⟨rand, t, rest ++ _, rfl, ?_⟩
          refine List.forall_mem_append.mpr ⟨hrest, List.forall_mem_singleton.mpr ?_⟩
          exact fun rand' heq => ClientEvent.noConfusion (ClientCall.event.inj heq)
      · rw [List.filterMap_append]
        refine List.pairwise_append.mpr ⟨htimers, List.pairwise_singleton _ _, ?_⟩
        intro t ht
        have hle := h.times t ht
        refine List.forall_mem_singleton.mpr ?_
        omega
      · rw [List.filterMap_append]
        refine List.forall_mem_append.mpr ⟨fun t ht => ?_, List.forall_mem_singleton.mpr ?_⟩
        · have hle := h.times t ht
          omega
        · exact hlast.ge

theorem lived_of_run {before : List (TcpClientHandle ι × ClientHandleEvent ι × Int)}
    (hrun : Run (step host) start before handle) (i : ι) : Lived handle (callsOf i before) := by
  induction hrun with
  | start => exact ⟨⟨Or.inl rfl, List.Pairwise.nil⟩, fun t ht => absurd ht List.not_mem_nil⟩
  | @step before handle handle' p hrun hstep ih =>
      obtain ⟨hsound, hview⟩ := follows_of_run hrun
      rw [callsOf_concat]
      exact ih.adds (ih.lives.unborn_iff (hview i)) (hsound.adds hstep i)

omit [DecidableEq ι] in
theorem Adds.late {now : Int} {more : List (ClientCall × Int)}
    (h : Adds i handle now handle' more) :
    ∀ t ∈ more.filterMap timerTime, 3 ≤ t - handle.lastTimerTrigger := by
  cases h with
  | connect rand hbefore hlast => exact fun t ht => absurd ht List.not_mem_nil
  | reads batch hbefore hlast =>
      intro t ht
      obtain ⟨c, hc, hsome⟩ := List.mem_filterMap.mp ht
      obtain ⟨memory, _, rfl⟩ := List.mem_map.mp hc
      cases hsome
  | timer sec nsec count rands hbefore hlate hlast => exact List.forall_mem_singleton.mpr hlate

theorem mem_callsOf_of_prefix
    {earlier before : List (TcpClientHandle ι × ClientHandleEvent ι × Int)}
    (hpre : earlier <+: before) {c : ClientCall × Int} (hc : c ∈ callsOf i earlier) :
    c ∈ callsOf i before := by
  obtain ⟨p, hp, hcall⟩ := List.mem_flatMap.mp hc
  exact List.mem_flatMap.mpr ⟨p, hpre.subset hp, hcall⟩

/-- **One timer for all sessions.** A timer call comes three seconds or more after every earlier
one, whichever sessions the two are for. -/
theorem timers_spaced {before : List (TcpClientHandle ι × ClientHandleEvent ι × Int)}
    (hrun : Run (step host) start before handle) (i j : ι)
    {earlier later : List (TcpClientHandle ι × ClientHandleEvent ι × Int)}
    (hsplit : before = earlier ++ later) :
    ∀ t ∈ (callsOf i earlier).filterMap timerTime,
      ∀ t' ∈ (callsOf j later).filterMap timerTime, 3 ≤ t' - t := by
  induction hrun generalizing later with
  | start =>
      obtain ⟨rfl, rfl⟩ := List.append_eq_nil_iff.mp hsplit.symm
      exact fun t ht => absurd ht List.not_mem_nil
  | @step before handle handle' p hrun hstep ih =>
      obtain rfl | ⟨later, q, rfl⟩ := List.eq_nil_or_concat later
      · exact fun t _ t' ht' => absurd ht' List.not_mem_nil
      rw [List.concat_eq_append, ← List.append_assoc] at hsplit
      obtain ⟨rfl, hlast⟩ := List.append_inj' hsplit rfl
      obtain rfl := (List.singleton_inj.mp hlast).symm
      intro t ht
      rw [List.concat_eq_append, callsOf_concat, List.filterMap_append]
      refine List.forall_mem_append.mpr ⟨ih rfl t ht, fun t' ht' => ?_⟩
      -- the timer of the handle has seen every earlier call
      have hseen : t ≤ handle.lastTimerTrigger := by
        obtain ⟨c, hc, hsome⟩ := List.mem_filterMap.mp ht
        refine (lived_of_run hrun i).times t (List.mem_filterMap.mpr ⟨c, ?_, hsome⟩)
        exact mem_callsOf_of_prefix (List.prefix_append _ _) hc
      have hlate := ((follows_of_run hrun).1.adds hstep j).late t' ht'
      omega

/-- **What a session goes through.** In every run of the client, whatever becomes of its other
connections, each of its sessions is connected first and once, is called by the timer at most every
three seconds, and not within three seconds of an earlier timer call of any other session, and has
asked for the messages, and is in the state, that the application `tcpClient` comes to by the same
calls. -/
theorem session_calls (host : Host)
    (before : List (TcpClientHandle ι × ClientHandleEvent ι × Int)) (handle : TcpClientHandle ι)
    (hrun : Run (step host) start before handle) (i : ι) :
    Lives (callsOf i before)
      ∧ (∀ j earlier later, before = earlier ++ later →
        ∀ t ∈ (callsOf j earlier).filterMap timerTime,
          ∀ t' ∈ (callsOf i later).filterMap timerTime, 3 ≤ t' - t)
      ∧ (handle.asked i, (handle.ctxs i).map ClientCtx.session)
        = ClientCall.runs host ((callsOf i before).map Prod.fst) :=
  ⟨(lived_of_run hrun i).lives, fun j _ _ hsplit => timers_spaced hrun j i hsplit,
    (follows_of_run hrun).2 i⟩

/-- The first connection is gone after a while, and the timer comes a second after it is replaced.
-/
def reconnectOnce : List (ClientHandleEvent Nat × Int) :=
  [(.connectFailed, 0), (.connected 0, 3), (.addCtx 0 0, 3), (.timer 4 0 0 fun _ => 0, 4),
    (.down 0, 5), (.close 0, 5), (.release 0, 5), (.connected 1, 5), (.addCtx 1 1, 5),
    (.timer 6 0 0 fun _ => 0, 6), (.timer 7 0 0 fun _ => 0, 7)]

theorem one_connection_reconnect :
    ∃ before handle, Run (step Host.little) start before handle ∧ before.length = 11
      ∧ handle.phase 1 = some .connected
      ∧ handle.connecting + handle.given.length + (if handle.session_.isSome then 1 else 0)
        = 1 := by
  have hrun : (exec (step Host.little) start reconnectOnce).map
      (fun r => (r.1.length, r.2.session_)) = some (11, some 1) := by decide +kernel
  obtain ⟨⟨before, handle⟩, hexec, hend⟩ := Option.map_eq_some_iff.mp hrun
  obtain ⟨hlen, hsession⟩ := Prod.mk.inj hend
  have hbefore := run_of_exec hexec
  obtain ⟨hcount, hiff, _⟩ := one_connection Host.little before handle hbefore
  exact ⟨before, handle, hbefore, hlen, (hiff 1).mp hsession, hcount⟩

theorem session_calls_reconnect :
    ∃ before handle, Run (step Host.little) start before handle
      ∧ (callsOf 0 (before.take 7)).filterMap timerTime = [4]
      ∧ (callsOf 1 (before.drop 7)).map Prod.snd = [5, 7] ∧ Lives (callsOf 1 before)
      ∧ (∀ t' ∈ (callsOf 1 (before.drop 7)).filterMap timerTime, 3 ≤ t' - 4)
      ∧ (handle.asked 1).length = 2 := by
  have hrun : (exec (step Host.little) start reconnectOnce).map
      (fun r => ((callsOf 0 (r.1.take 7)).filterMap timerTime,
        (callsOf 1 (r.1.drop 7)).map Prod.snd, (r.2.asked 1).length))
      = some ([4], [5, 7], 2) := by
    decide +kernel
  obtain ⟨⟨before, handle⟩, hexec, hend⟩ := Option.map_eq_some_iff.mp hrun
  simp only [Prod.mk.injEq] at hend
  obtain ⟨hfirst, htimes, hlen⟩ := hend
  have hbefore := run_of_exec hexec
  obtain ⟨hlives, hspaced, _⟩ := session_calls Host.little before handle hbefore 1
  refine ⟨before, handle, hbefore, hfirst, htimes, hlives, ?_, hlen⟩
  apply hspaced 0 (before.take 7) (before.drop 7) (List.take_append_drop 7 before).symm
  rw [hfirst]
  exact List.mem_singleton_self _

end TcpClientHandle

end BabelTrader
