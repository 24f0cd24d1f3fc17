import BabelTrader.TcpServerHandle
import BabelTrader.TcpServerWorker

/-!
# The sets of the server with workers

The listening loop and each worker have a handle with a set of its own. A context is in the set of
the former until it is handed over or released there, and in the set of a worker from when it has
been added there. Whichever loop gives back the last reference deletes the session, and takes the
context out of its own set and of no other.
-/

namespace BabelTrader

open Runs

/-- The server with the handles of its loops, the workers' by their index, and the last sign of life
of each session. `misused` says that a session has been used that is not there. -/
structure WorkerHandles (ι : Type) where
  server : WorkerServer ι
  listen : CtxSet ι
  workers : Int32 → CtxSet ι
  lastActiveTime : ι → Int
  misused : Bool

/-- What happens to the server, and the timers: that of the listening loop, or of a worker. -/
inductive HandlesEvent (ι : Type) where
  | server (event : WorkerEvent ι)
  | timer (worker : Option Int32)

namespace WorkerHandles

variable {ι : Type} [DecidableEq ι]

def start : WorkerHandles ι := ⟨.start, .new, fun _ => .new, fun _ => 0, false⟩

def alive (s : WorkerHandles ι) (i : ι) : Bool := (s.server.ctxs i).any fun ctx => ctx.deleted = 0

def use (s : WorkerHandles ι) (i : ι) : WorkerHandles ι :=
  { s with misused := s.misused || !s.alive i }

def modifyWorker (s : WorkerHandles ι) (idx : Int32) (f : CtxSet ι → CtxSet ι) : WorkerHandles ι :=
  { s with workers := Function.update s.workers idx (f (s.workers idx)) }

/-- What the callbacks do to the sets, for a context as it is before the callback. -/
def updateSets (s : WorkerHandles ι) (i : ι) (ctx : Ctx) : CtxEvent → WorkerHandles ι
  | .addCtx =>
      match ctx.worker with
      | some (idx, _) => s.modifyWorker idx fun handle => handle.insert i
      | none => s
  | .close .listen => if ctx.detached then { s with listen := s.listen.erase i } else s
  | .release .listen => if ctx.refCnt - 1 = 0 then { s with listen := s.listen.erase i } else s
  | .release .worker =>
      match ctx.worker with
      | some (idx, _) =>
          if ctx.refCnt - 1 = 0 then s.modifyWorker idx fun handle => handle.erase i else s
      | none => s
  | .message _ _ _ | .down | .close .worker => s

/-- Whether a batch has a ping, for which `OnPing` takes the time. -/
def pings (host : Host) (batch : List Bytes) : Bool :=
  batch.any fun memory =>
    match RequestHandler.dispatcher.dispatch (MsgHdr.load host memory) with
    | .invoke .onPing => true
    | .invoke _ | .noCallback | .close => false

/-- `now` is the time at the last ping, if there is one in a batch. -/
def signs (host : Host) (s : WorkerHandles ι) (i : ι) (event : CtxEvent) (now : Int) :
    WorkerHandles ι :=
  match event with
  | .message _ batch _ =>
      if pings host batch then { s with lastActiveTime := Function.update s.lastActiveTime i now }
      else s
  | .addCtx | .down | .close _ | .release _ => s

/-- `OnTimer` of either handle. -/
def onTimer (s : WorkerHandles ι) (worker : Option Int32) (currTs : Int) : WorkerHandles ι :=
  let r := (worker.elim s.listen s.workers).onTimer currTs
  let ctxs := fun i => (s.server.ctxs i).map fun ctx =>
    if i ∈ r.1 ∧ isIdle currTs (s.lastActiveTime i) then { ctx with down := true } else ctx
  let s' : WorkerHandles ι := { s with
    server := ⟨s.server.handle, ctxs⟩
    misused := s.misused || decide (∃ i ∈ r.1, s.alive i = false) }
  match worker with
  | none => { s' with listen := r.2 }
  | some idx => s'.modifyWorker idx fun _ => r.2

/-- One step at a time, as far as it is possible. -/
def step (host : Host) (size : Nat) (s : WorkerHandles ι) :
    HandlesEvent ι × Int → Option (WorkerHandles ι)
  | (.server (.connect i), now) =>
      (s.server.step host size (.connect i)).map fun server =>
        { s with
          server := server
          listen := s.listen.insert i
          lastActiveTime := Function.update s.lastActiveTime i now }
  | (.server (.ctx i event), now) =>
      match s.server.ctxs i with
      | none => none
      | some ctx =>
          (s.server.step host size (.ctx i event)).map fun server =>
            let used := if event = .down then s else s.use i
            let s' := (used.updateSets i ctx event).signs host i event now
            { s' with server := server }
  | (.timer worker, now) => some (s.onTimer worker now)

end WorkerHandles

end BabelTrader
