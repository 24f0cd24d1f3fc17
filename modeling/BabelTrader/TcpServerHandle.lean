import BabelTrader.TcpClientSession
import BabelTrader.TcpServerChannel
import BabelTrader.Library.Runs
import Mathlib.Data.Finset.Basic

/-!
# The timers of the servers

Every handle of the example servers keeps the contexts that it looks after in a set, and its timer
shuts down those whose session has given no sign of life for a while. Such signs are the connection
itself and every ping. Times are in seconds, as `time` has them.
-/

namespace BabelTrader

open Runs

/-! ### The set of a handle -/

/-- `ctx_set_` and `last_timer_trigger_`, the same in all handles. -/
structure CtxSet (ι : Type) where
  ctxSet : Finset ι
  lastTimerTrigger : Int

namespace CtxSet

variable {ι : Type} [DecidableEq ι]

def new : CtxSet ι := ⟨∅, 0⟩

def insert (handle : CtxSet ι) (i : ι) : CtxSet ι :=
  { handle with ctxSet := Insert.insert i handle.ctxSet }

def erase (handle : CtxSet ι) (i : ι) : CtxSet ι :=
  { handle with ctxSet := handle.ctxSet.erase i }

/-- `OnTimer`: the contexts that it looks at, and the handle after it. -/
def onTimer (handle : CtxSet ι) (currTs : Int) : Finset ι × CtxSet ι :=
  if currTs - handle.lastTimerTrigger < 5 then (∅, handle)
  else (handle.ctxSet, { handle with lastTimerTrigger := currTs })

variable {handle : CtxSet ι} {i : ι} {currTs : Int}

omit [DecidableEq ι] in
theorem mem_onTimer_iff : i ∈ (handle.onTimer currTs).1
    ↔ 5 ≤ currTs - handle.lastTimerTrigger ∧ i ∈ handle.ctxSet := by
  rw [onTimer]
  split_ifs with hearly
  · exact iff_of_false (Finset.notMem_empty i) fun h => absurd h.1 (not_le.mpr hearly)
  · exact (and_iff_right (not_lt.mp hearly)).symm

omit [DecidableEq ι] in
@[simp]
theorem onTimer_ctxSet : (handle.onTimer currTs).2.ctxSet = handle.ctxSet := by
  rw [onTimer]
  split_ifs <;> rfl

end CtxSet

/-- Whether a context that the timer looks at is shut down. -/
def isIdle (currTs lastActiveTime : Int) : Bool := 15 < currTs - lastActiveTime

/-! ### The handle of `tcp_server` -/

/-- A context and the session in its user data, with a count of how often this has been deleted. -/
structure ServerCtx where
  phase : ConnPhase
  down : Bool
  session : TcpServerSession
  lastActiveTime : Int
  deleted : Nat
deriving DecidableEq

/-- `misused` says that a session has been used that is not there. -/
structure TcpServerHandle (ι : Type) where
  ctxs : ι → Option ServerCtx
  ctxSet : CtxSet ι
  misused : Bool

/-- The callbacks, and sockets going down. A batch is what one `OnMessage` decodes, each frame with
what lies behind it, and `failed` says that a write or `HandleMessage` itself failed. -/
inductive ServerEvent (ι : Type) where
  | connect (i : ι)
  | message (i : ι) (batch : List Bytes) (failed : Bool)
  | down (i : ι)
  | timer
  | close (i : ι)
  | release (i : ι)

namespace TcpServerHandle

variable {ι : Type} [DecidableEq ι]

def start : TcpServerHandle ι := ⟨fun _ => none, .new, false⟩

def phase (handle : TcpServerHandle ι) (i : ι) : Option ConnPhase :=
  (handle.ctxs i).map ServerCtx.phase

def alive (handle : TcpServerHandle ι) (i : ι) : Bool :=
  (handle.ctxs i).any fun ctx => ctx.deleted = 0

def use (handle : TcpServerHandle ι) (i : ι) : TcpServerHandle ι :=
  { handle with misused := handle.misused || !handle.alive i }

def modify (handle : TcpServerHandle ι) (i : ι) (f : ServerCtx → ServerCtx) : TcpServerHandle ι :=
  { handle with ctxs := Function.update handle.ctxs i ((handle.ctxs i).map f) }

def onConnect (handle : TcpServerHandle ι) (i : ι) (now : Int) : TcpServerHandle ι where
  ctxs := Function.update handle.ctxs i (some ⟨.connected, false, .new, now, 0⟩)
  ctxSet := handle.ctxSet.insert i
  misused := handle.misused

/-- `now` is the time at the last ping, if there is one in the batch. -/
def onMessage (host : Host) (handle : TcpServerHandle ι) (i : ι) (batch : List Bytes)
    (failed : Bool) (now : Int) : TcpServerHandle ι :=
  (handle.use i).modify i fun ctx =>
    let r := (tcpServer host).replay ctx.session batch
    { ctx with
      down := ctx.down || failed || decide (Effect.close ∈ r.1)
      session := r.2
      lastActiveTime := if .updateActiveTime ∈ r.1 then now else ctx.lastActiveTime }

/-- The last reference to the context has been given back, and its session is deleted. -/
def onRelease (handle : TcpServerHandle ι) (i : ι) : TcpServerHandle ι :=
  let handle' := (handle.use i).modify i fun ctx =>
    { ctx with phase := .released, deleted := ctx.deleted + 1 }
  { handle' with ctxSet := handle'.ctxSet.erase i }

def onTimer (handle : TcpServerHandle ι) (currTs : Int) : TcpServerHandle ι :=
  let r := handle.ctxSet.onTimer currTs
  { ctxs := fun i => (handle.ctxs i).map fun ctx =>
      if i ∈ r.1 ∧ isIdle currTs ctx.lastActiveTime then { ctx with down := true } else ctx
    ctxSet := r.2
    misused := handle.misused || decide (∃ i ∈ r.1, handle.alive i = false) }

/-- One step at a time, as far as it is possible. A loop closes a context when its socket is down.
-/
def step (host : Host) (handle : TcpServerHandle ι) :
    ServerEvent ι × Int → Option (TcpServerHandle ι)
  | (.connect i, now) => if handle.phase i = none then some (handle.onConnect i now) else none
  | (.message i batch failed, now) =>
      if handle.phase i = some .connected then some (handle.onMessage host i batch failed now)
      else none
  | (.down i, _) => some (handle.modify i fun ctx => { ctx with down := true })
  | (.timer, now) => some (handle.onTimer now)
  | (.close i, _) =>
      if handle.phase i = some .connected ∧ (handle.ctxs i).any ServerCtx.down then
        some ((handle.use i).modify i fun ctx => { ctx with phase := .closed })
      else none
  | (.release i, _) => if handle.phase i = some .closed then some (handle.onRelease i) else none

end TcpServerHandle

end BabelTrader
