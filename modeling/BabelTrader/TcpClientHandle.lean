import BabelTrader.TcpClientSession
import BabelTrader.TcpServerChannel
import BabelTrader.Library.Runs

/-!
# `TcpClientHandle`

The client keeps one connection. `Connect` starts a thread that tries until it has a socket, and
gives its context to the event loop; when the connection is gone, `OnClose` calls `Connect` again.
Each connection has a session of its own, and `session_` points to the present one.
-/

namespace BabelTrader

open Runs

/-- A context that the loop has added, and the session in its user data, with a count of how often
this has been deleted. -/
structure ClientCtx where
  phase : ConnPhase
  down : Bool
  session : TcpClientSession
  deleted : Nat
deriving DecidableEq

/-- The handle, the threads that are trying to connect, and the contexts that these have given to
the loop. `session_` is known by the context of the session. No code reads what each session has
been asked for, and whether a session has been used that is not there. -/
structure TcpClientHandle (ι : Type) where
  ctxs : ι → Option ClientCtx
  connecting : Nat
  given : List ι
  session_ : Option ι
  lastTimerTrigger : Int
  asked : ι → List Effect
  misused : Bool

/-- What a thread of `Connect` comes to, the callbacks of the loop, and sockets going down. A batch
is what one `OnMessage` decodes, each frame with what lies behind it; the session's choices by
`rand`, and what its clock says, are arguments. -/
inductive ClientHandleEvent (ι : Type) where
  | connectFailed
  | connected (i : ι)
  | addCtx (i : ι) (rand : Nat)
  | message (i : ι) (batch : List Bytes) (failed : Bool)
  | down (i : ι)
  | timer (sec : UInt64) (nsec : UInt32) (count : UInt32) (rands : Nat → UInt32)
  | close (i : ι)
  | release (i : ι)

namespace TcpClientHandle

variable {ι : Type} [DecidableEq ι]

/-- `main` calls `Connect` once. -/
def start : TcpClientHandle ι := ⟨fun _ => none, 1, [], none, 0, fun _ => [], false⟩

def phase (handle : TcpClientHandle ι) (i : ι) : Option ConnPhase :=
  (handle.ctxs i).map ClientCtx.phase

def alive (handle : TcpClientHandle ι) (i : ι) : Bool :=
  (handle.ctxs i).any fun ctx => ctx.deleted = 0

def use (handle : TcpClientHandle ι) (i : ι) : TcpClientHandle ι :=
  { handle with misused := handle.misused || !handle.alive i }

def modify (handle : TcpClientHandle ι) (i : ι) (f : ClientCtx → ClientCtx) : TcpClientHandle ι :=
  { handle with ctxs := Function.update handle.ctxs i ((handle.ctxs i).map f) }

/-- A method of a session, with what it asks for and the session that it leaves. -/
def call (handle : TcpClientHandle ι) (i : ι)
    (method : TcpClientSession → List Effect × TcpClientSession) : TcpClientHandle ι :=
  match handle.ctxs i with
  | none => handle.use i
  | some ctx =>
      let r := method ctx.session
      let handle' := (handle.use i).modify i fun ctx =>
        { ctx with session := r.2, down := ctx.down || decide (Effect.close ∈ r.1) }
      { handle' with asked := Function.update handle.asked i (handle.asked i ++ r.1) }

def connect (handle : TcpClientHandle ι) : TcpClientHandle ι :=
  { handle with connecting := handle.connecting + 1 }

def onAddCtx (host : Host) (handle : TcpClientHandle ι) (i : ι) (rand : Nat) :
    TcpClientHandle ι :=
  let handle' := { handle with
    ctxs := Function.update handle.ctxs i (some ⟨.connected, false, .new, 0⟩)
    given := handle.given.erase i
    session_ := some i }
  handle'.call i fun session => session.onConnection host rand

/-- `OnRead` of the session. -/
def onRead (host : Host) (session : TcpClientSession) (memory : Bytes) :
    List Effect × TcpClientSession :=
  match ResponseHandler.dispatcher.dispatch (MsgHdr.load host memory) with
  | .invoke handler =>
      let reaction := handler.run session memory
      (reaction.effects, reaction.session)
  | .noCallback => ([], session)
  | .close => ([.close], session)

def onMessage (host : Host) (handle : TcpClientHandle ι) (i : ι) (batch : List Bytes)
    (failed : Bool) : TcpClientHandle ι :=
  let handle' := batch.foldl
    (fun handle memory => handle.call i fun session => onRead host session memory) (handle.use i)
  handle'.modify i fun ctx => { ctx with down := ctx.down || failed }

def onClose (handle : TcpClientHandle ι) : TcpClientHandle ι :=
  { handle with session_ := none }.connect

def onRelease (handle : TcpClientHandle ι) (i : ι) : TcpClientHandle ι :=
  (handle.use i).modify i fun ctx => { ctx with phase := .released, deleted := ctx.deleted + 1 }

def onTimer (host : Host) (handle : TcpClientHandle ι) (currTs : Int) (sec : UInt64)
    (nsec : UInt32) (count : UInt32) (rands : Nat → UInt32) : TcpClientHandle ι :=
  match handle.session_ with
  | none => handle
  | some i =>
      if currTs - handle.lastTimerTrigger < 3 then handle
      else
        let handle' := { handle with lastTimerTrigger := currTs }
        handle'.call i fun session => session.onTimer host sec nsec count rands

/-- One step at a time, as far as it is possible. -/
def step (host : Host) (handle : TcpClientHandle ι) :
    ClientHandleEvent ι × Int → Option (TcpClientHandle ι)
  | (.connectFailed, _) => if 0 < handle.connecting then some handle else none
  | (.connected i, _) =>
      if 0 < handle.connecting ∧ handle.phase i = none ∧ i ∉ handle.given then
        some { handle with connecting := handle.connecting - 1, given := handle.given ++ [i] }
      else none
  | (.addCtx i rand, _) => if i ∈ handle.given then some (handle.onAddCtx host i rand) else none
  | (.message i batch failed, _) =>
      if handle.phase i = some .connected then some (handle.onMessage host i batch failed) else none
  | (.down i, _) => some (handle.modify i fun ctx => { ctx with down := true })
  | (.timer sec nsec count rands, now) => some (handle.onTimer host now sec nsec count rands)
  | (.close i, _) =>
      if handle.phase i = some .connected ∧ (handle.ctxs i).any ClientCtx.down then
        some (handle.onClose.modify i fun ctx => { ctx with phase := .closed })
      else none
  | (.release i, _) => if handle.phase i = some .closed then some (handle.onRelease i) else none

end TcpClientHandle

end BabelTrader
