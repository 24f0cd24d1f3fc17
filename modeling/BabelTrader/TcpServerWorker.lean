import BabelTrader.TcpServerSession
import BabelTrader.Library.Runs
import Mathlib.Logic.Function.Basic

/-!
# The server with workers

A connection starts out on the loop that listens. When its client has logged in, the session asks
for being detached: it takes a reference for the loop to come and flags its context as closed, and
when the listening loop then closes the context, it does not let it go but adds it to the loop of
one of the workers. Loops run at the same time, each through one callback after the other.
-/

namespace BabelTrader

open Runs CString

/-! ### Which worker -/

/-- `worker_idx_` and `user_workder_dict_`, users in the order in which they were assigned. -/
structure TcpListenHandle where
  workerIdx : Int32
  userWorkderDict : List (Bytes × Int32)
deriving DecidableEq

namespace TcpListenHandle

def new : TcpListenHandle := ⟨0, []⟩

/-- `idx %= worker_evloops_->size()`. The `int` is taken as a `size_t` for that. -/
def modSize (idx : Int32) (size : Nat) : Int32 :=
  Int32.ofNat ((idx.toInt % 2 ^ 64).toNat % size)

/-- The part of `OnClose` that looks for the worker of a user. -/
def assign (size : Nat) (handle : TcpListenHandle) (userId : Bytes) : Int32 × TcpListenHandle :=
  match handle.userWorkderDict.lookup userId with
  | some idx => (idx, handle)
  | none =>
      let idx := modSize handle.workerIdx size
      (idx,
        { workerIdx := modSize (handle.workerIdx + 1) size
          userWorkderDict := handle.userWorkderDict ++ [(userId, idx)] })

/-- One user after the other: each with the index used, and the handle after them. -/
def assigns (size : Nat) (users : List Bytes) : List (Bytes × Int32) × TcpListenHandle :=
  users.foldl
    (fun r user => (r.1 ++ [(user, (r.2.assign size user).1)], (r.2.assign size user).2)) ([], new)

end TcpListenHandle

/-! ### Contexts -/

/-- Where a loop is with a context that it holds: it has been given it, it has added it, or it has
called `OnClose` for it. -/
inductive Holding where
  | given
  | added
  | closed
deriving DecidableEq

/-- A socket context and the session in its user data. `down` says that the socket has been shut
down from either side, `deleted` counts how often `OnRelease` has deleted the session, and `listen`
and `worker` are the loops that hold the context, the latter with its index. -/
structure Ctx where
  refCnt : Nat
  flagClose : Bool
  down : Bool
  detached : Bool
  session : TcpServerSession
  deleted : Nat
  listen : Option Holding
  worker : Option (Int32 × Holding)
deriving DecidableEq

inductive Side where
  | listen
  | worker
deriving DecidableEq

/-- What happens to a context: callbacks of a loop that holds it, and its socket going down. A batch
is what one `OnMessage` decodes, each frame with what lies behind it, and `failed` says that a write
or `HandleMessage` itself failed. -/
inductive CtxEvent where
  | addCtx
  | message (side : Side) (batch : List Bytes) (failed : Bool)
  | down
  | close (side : Side)
  | release (side : Side)
deriving DecidableEq

/-- The handlers of this server. -/
def RequestHandler.runWorker (host : Host) (session : TcpServerSession) (memory : Bytes) :
    RequestHandler → Reaction
  | onPing => session.onPing host memory
  | onLogin => session.onLoginDetach host memory
  | onReqSum => session.onReqSum host memory

namespace Ctx

/-- A context that `OnConnect` has given a session. -/
def connected : Ctx where
  refCnt := 1
  flagClose := false
  down := false
  detached := false
  session := .new
  deleted := 0
  listen := some .added
  worker := none

/-- `detach` is the session's `Detach`. -/
def perform (ctx : Ctx) : Effect → Ctx
  | .updateActiveTime | .sendMessage _ => ctx
  | .close => { ctx with down := true }
  | .detach => { ctx with detached := true, refCnt := ctx.refCnt + 1, flagClose := true }

/-- `OnRead` of its session. -/
def onRead (host : Host) (ctx : Ctx) (memory : Bytes) : Ctx :=
  match RequestHandler.dispatcher.dispatch (MsgHdr.load host memory) with
  | .invoke handler =>
      let reaction := handler.runWorker host ctx.session memory
      reaction.effects.foldl perform { ctx with session := reaction.session }
  | .noCallback => ctx
  | .close => { ctx with down := true }

/-- `OnMessage` of either handle. -/
def onMessage (host : Host) (ctx : Ctx) (batch : List Bytes) (failed : Bool) : Ctx :=
  let ctx' := batch.foldl (onRead host) ctx
  { ctx' with down := ctx'.down || failed }

/-- A loop's reference is released, with `OnRelease` if it was the last one. -/
def release (ctx : Ctx) : Ctx :=
  { ctx with
    refCnt := ctx.refCnt - 1
    deleted := if ctx.refCnt - 1 = 0 then ctx.deleted + 1 else ctx.deleted }

end Ctx

/-- `OnClose` of the listening loop. -/
def TcpListenHandle.onClose (size : Nat) (handle : TcpListenHandle) (ctx : Ctx) :
    TcpListenHandle × Ctx :=
  if ctx.detached then
    let assigned := handle.assign size ctx.session.userId
    (assigned.2,
      { ctx with detached := false, flagClose := false, worker := some (assigned.1, .given) })
  else (handle, ctx)

/-- One event, as far as it is possible. -/
def Ctx.step (host : Host) (size : Nat) (handle : TcpListenHandle) (ctx : Ctx) :
    CtxEvent → Option (TcpListenHandle × Ctx)
  | .addCtx =>
      match ctx.worker with
      | some (idx, .given) => some (handle, { ctx with worker := some (idx, .added) })
      | _ => none
  | .message side batch failed =>
      match side, ctx.listen, ctx.worker with
      | .listen, some .added, _ => some (handle, ctx.onMessage host batch failed)
      | .worker, _, some (_, .added) => some (handle, ctx.onMessage host batch failed)
      | _, _, _ => none
  | .down => some (handle, { ctx with down := true })
  | .close side =>
      if ctx.flagClose || ctx.down then
        match side, ctx.listen, ctx.worker with
        | .listen, some .added, _ =>
            let moved := handle.onClose size ctx
            some (moved.1, { moved.2 with listen := some .closed })
        | .worker, _, some (idx, .added) =>
            some (handle, { ctx with worker := some (idx, .closed) })
        | _, _, _ => none
      else none
  | .release side =>
      match side, ctx.listen, ctx.worker with
      | .listen, some .closed, _ => some (handle, { ctx.release with listen := none })
      | .worker, _, some (_, .closed) => some (handle, { ctx.release with worker := none })
      | _, _, _ => none

/-! ### The server -/

/-- The contexts that may come to exist have names from `ι`. -/
structure WorkerServer (ι : Type) where
  handle : TcpListenHandle
  ctxs : ι → Option Ctx

/-- What happens: a new connection, or something to one that there is. -/
inductive WorkerEvent (ι : Type) where
  | connect (i : ι)
  | ctx (i : ι) (event : CtxEvent)

namespace WorkerServer

variable {ι : Type} [DecidableEq ι]

def start : WorkerServer ι := ⟨.new, fun _ => none⟩

def step (host : Host) (size : Nat) (server : WorkerServer ι) :
    WorkerEvent ι → Option (WorkerServer ι)
  | .connect i =>
      match server.ctxs i with
      | none => some { server with ctxs := Function.update server.ctxs i (some .connected) }
      | some _ => none
  | .ctx i event =>
      match server.ctxs i with
      | none => none
      | some ctx =>
          (ctx.step host size server.handle event).map fun (handle, ctx') =>
            ⟨handle, Function.update server.ctxs i (some ctx')⟩

end WorkerServer

end BabelTrader
