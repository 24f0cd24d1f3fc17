import BabelTrader.TcpServerSession
import BabelTrader.Library.Runs
import Mathlib.Logic.Function.Basic

/-!
# The server with a channel

The event loop decodes frames and writes them to a channel, and a worker on a thread of its own
reads them there and dispatches them. Each of the two holds a reference to a context: the loop until
it has closed and released it, the worker until it has read that the connection is gone.
-/

namespace BabelTrader

/-! ### Messages -/

inductive ChanMsgType where
  | data
  | connect
  | disconnect
deriving DecidableEq

/-- `chan_msg_t`. Contexts have names from `ι`. -/
structure ChanMsg (ι : Type) where
  ctx : ι
  msgType : ChanMsgType
  data : Option Bytes
  datalen : UInt32
deriving DecidableEq

/-! ### Connections -/

/-- Where the event loop is with a context. -/
inductive ConnPhase where
  | connected
  | closed
  | released
deriving DecidableEq

/-- A context and its session. The last three count how often these have been deleted, and how many
messages about the end of the connection the worker has handled. -/
structure ChanConn where
  refCnt : Nat
  phase : ConnPhase
  session : TcpServerSession
  sessionDeleted : Nat
  ctxDeleted : Nat
  disconnects : Nat
deriving DecidableEq

namespace ChanConn

/-- A new context whose session has been set up. -/
def new : ChanConn := ⟨1, .connected, .new, 0, 0, 0⟩

def retain (conn : ChanConn) : ChanConn := { conn with refCnt := conn.refCnt + 1 }

/-- `RefCntRelease`, and what both threads do when it returns zero. -/
def release (conn : ChanConn) : ChanConn :=
  { conn with
    refCnt := conn.refCnt - 1
    sessionDeleted := if conn.refCnt - 1 = 0 then conn.sessionDeleted + 1 else conn.sessionDeleted
    ctxDeleted := if conn.refCnt - 1 = 0 then conn.ctxDeleted + 1 else conn.ctxDeleted }

/-- `Dispatch`, where `memory` is what lies at `data`. -/
def dispatch (host : Host) (memory : Bytes) (conn : ChanConn) : ChanConn :=
  match RequestHandler.dispatcher.dispatch (MsgHdr.load host memory) with
  | .invoke handler => { conn with session := (handler.run host conn.session memory).session }
  | .noCallback | .close => conn

end ChanConn

/-! ### The server -/

/-- Both threads and the channel, with histories that no code reads: the frames for which `OnRead`
has returned `true`, the frames dispatched, the messages that `Write` has not stored, and whether a
session or a context has been used that is not there (any more). -/
structure ChannelServer (ι : Type) where
  conns : ι → Option ChanConn
  ctxSet : List ι
  queue : List (ChanMsg ι)
  accepted : List (ι × Frame)
  dispatched : List (ι × Frame)
  refused : List (ChanMsg ι)
  misused : Bool

/-- Steps of the event loop, and one message handled by the worker. Behind a frame that the worker
has a copy of lies `beyond`. -/
inductive ChannelEvent (ι : Type) where
  | connect (i : ι)
  | message (i : ι)
  | read (i : ι) (frame : Frame)
  | timer
  | close (i : ι)
  | release (i : ι)
  | work (beyond : Bytes)

namespace ChannelServer

variable {ι : Type} [DecidableEq ι]

def start : ChannelServer ι := ⟨fun _ => none, [], [], [], [], [], false⟩

def alive (server : ChannelServer ι) (i : ι) : Bool :=
  match server.conns i with
  | none => false
  | some conn => conn.sessionDeleted = 0 && conn.ctxDeleted = 0

/-- Something is done with a context or its session. -/
def use (server : ChannelServer ι) (i : ι) : ChannelServer ι :=
  { server with misused := server.misused || !server.alive i }

def modify (server : ChannelServer ι) (i : ι) (f : ChanConn → ChanConn) : ChannelServer ι :=
  { server with conns := Function.update server.conns i ((server.conns i).map f) }

/-- `Channel::Write`. A channel without a capacity is never full. -/
def write (capacity : Option Nat) (server : ChannelServer ι) (msg : ChanMsg ι) :
    Int × ChannelServer ι :=
  if capacity.any fun c => c ≤ server.queue.length then
    (1, { server with refused := server.refused ++ [msg] })
  else (0, { server with queue := server.queue ++ [msg] })

def notifyChannel (capacity : Option Nat) (server : ChannelServer ι) (msgType : ChanMsgType)
    (ctx : ι) : ChannelServer ι :=
  (server.write capacity ⟨ctx, msgType, none, 0⟩).2

def onConnect (capacity : Option Nat) (server : ChannelServer ι) (i : ι) : ChannelServer ι :=
  let server' := { server with
    conns := Function.update server.conns i (some ChanConn.new.retain)
    ctxSet := i :: server.ctxSet }
  server'.notifyChannel capacity .connect i

/-- `OnRead` of the session. -/
def onRead (capacity : Option Nat) (server : ChannelServer ι) (i : ι) (frame : Frame) :
    Bool × ChannelServer ι :=
  let data := if 0 < frame.datalen then some frame.data else none
  (true, ((server.use i).write capacity ⟨i, .data, data, frame.datalen⟩).2)

/-- `OnClose` of the handle. -/
def onClose (capacity : Option Nat) (server : ChannelServer ι) (i : ι) : ChannelServer ι :=
  let server' := (server.use i).notifyChannel capacity .disconnect i
  { server' with ctxSet := server'.ctxSet.filter fun j => j ≠ i }

/-- `OnTimer` looks at every context in the set. -/
def onTimer (server : ChannelServer ι) : ChannelServer ι := server.ctxSet.foldl use server

/-- One message in `Run`. -/
def handle (host : Host) (beyond : Bytes) (server : ChannelServer ι) (msg : ChanMsg ι) :
    ChannelServer ι :=
  match msg.msgType with
  | .data =>
      let data := msg.data.getD []
      let server' := (server.use msg.ctx).modify msg.ctx (ChanConn.dispatch host (data ++ beyond))
      { server' with dispatched := server'.dispatched ++ [(msg.ctx, ⟨data, msg.datalen⟩)] }
  | .connect => server
  | .disconnect =>
      (server.use msg.ctx).modify msg.ctx fun conn =>
        { conn.release with disconnects := conn.disconnects + 1 }

def phase (server : ChannelServer ι) (i : ι) : Option ConnPhase :=
  (server.conns i).map ChanConn.phase

/-- One step, as far as it is possible. A frame comes with its length. -/
def step (host : Host) (capacity : Option Nat) (server : ChannelServer ι) :
    ChannelEvent ι → Option (ChannelServer ι)
  | .connect i => if server.phase i = none then some (server.onConnect capacity i) else none
  | .message i => if server.phase i = some .connected then some (server.use i) else none
  | .read i frame =>
      if server.phase i = some .connected ∧ frame.data.length = frame.datalen.toNat then
        let r := server.onRead capacity i frame
        some (if r.1 then { r.2 with accepted := r.2.accepted ++ [(i, frame)] } else r.2)
      else none
  | .timer => some server.onTimer
  | .close i =>
      if server.phase i = some .connected then
        some ((server.onClose capacity i).modify i fun conn => { conn with phase := .closed })
      else none
  | .release i =>
      if server.phase i = some .closed then
        some ((server.use i).modify i fun conn => { conn.release with phase := .released })
      else none
  | .work beyond =>
      match server.queue with
      | [] => none
      | msg :: queue => some ({ server with queue := queue }.handle host beyond msg)

/-- The messages about one context that the worker has still to read. -/
def mine (server : ChannelServer ι) (i : ι) : List (ChanMsg ι) :=
  server.queue.filter fun msg => msg.ctx = i

end ChannelServer

end BabelTrader
