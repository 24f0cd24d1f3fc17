import BabelTrader.Dispatcher
import BabelTrader.Library.CString

/-!
# `TcpServerSession`

The session of the example servers. Its three request handlers are given pointers into a frame and
not its length, so each of them is described by what it reads there, as offsets from the start of
the frame, next to what it does.
-/

namespace BabelTrader

open MachineWord CString

/-! ### The demo messages -/

def demoMsgIdReqLogin : UInt32 := 1

def demoMsgIdRspLogin : UInt32 := 2

def demoMsgIdPing : UInt32 := 3

def demoMsgIdPong : UInt32 := 4

def demoMsgIdReqSum : UInt32 := 5

def demoMsgIdRspSum : UInt32 := 6

def maxDemoMsgId : UInt32 := 7

/-- A member of a packed struct. -/
structure Field where
  offset : Nat
  size : Nat

namespace Field

/-- Where the member is when the struct follows a header. -/
def start (field : Field) : Nat := sizeofMsgHdr + field.offset

def offsets (field : Field) : List Nat := List.range' field.start field.size

def bytes (memory : Bytes) (field : Field) : Bytes :=
  (List.range field.size).map fun i => memory.getD (field.start + i) 0

end Field

namespace DemoMsgReqLogin

def reqId : Field := ⟨0, 4⟩

def userId : Field := ⟨4, 16⟩

def password : Field := ⟨20, 32⟩

end DemoMsgReqLogin

namespace DemoMsgPing

def sec : Field := ⟨0, 8⟩

def nsec : Field := ⟨8, 4⟩

end DemoMsgPing

namespace DemoMsgReqSum

def reqId : Field := ⟨0, 4⟩

def arrLen : Field := ⟨4, 4⟩

/-- `arr[i]`, behind the struct. -/
def arr (i : Nat) : Field := ⟨8 + 4 * i, 4⟩

end DemoMsgReqSum

/-! ### The session -/

structure TcpServerSession where
  userId : Bytes
  isLogined : Bool
deriving DecidableEq

/-- What a handler asks of the session it runs for. -/
inductive Effect where
  | updateActiveTime
  | sendMessage (msg : Bytes)
  | close
  | detach
deriving DecidableEq

/-- What a handler reads through `msg`, what it asks for, and the session that it leaves. -/
structure Reaction where
  reads : List Nat
  effects : List Effect
  session : TcpServerSession

/-- A message on the stack with its payload filled in, as it is given to `SendMessage`. -/
def stackMsg (host : Host) (msgId : UInt32) (payload : Bytes) : Bytes :=
  MsgHdr.store host ⟨fun _ => 0, fun _ => 0, msgId, 0⟩ ++ payload

namespace TcpServerSession

def new : TcpServerSession := ⟨[], false⟩

/-- `CHECK_AUTH`, in front of the rest of a handler. -/
def checkAuth (session : TcpServerSession) (rest : Reaction) : Reaction :=
  if session.isLogined then rest else ⟨[], [.close], session⟩

/-- `CHECK_MSG_STR_LEN`, in front of the rest of a handler. -/
def checkMsgStrLen (memory : Bytes) (field : Field) (session : TcpServerSession)
    (rest : Reaction) : Reaction :=
  if field.size ≤ strlen (memory.drop field.start) then
    ⟨scanned memory field.start, [.close], session⟩
  else { rest with reads := scanned memory field.start ++ rest.reads }

variable (host : Host) (session : TcpServerSession) (memory : Bytes)

def onPing : Reaction where
  -- once for the log line, and once for the response
  reads := DemoMsgPing.sec.offsets ++ DemoMsgPing.nsec.offsets
    ++ (DemoMsgPing.sec.offsets ++ DemoMsgPing.nsec.offsets)
  effects :=
    [.updateActiveTime,
      .sendMessage (stackMsg host demoMsgIdPong
        (DemoMsgPing.sec.bytes memory ++ DemoMsgPing.nsec.bytes memory))]
  session := session

/-- `OnLogin` up to the response, and then `detached`. -/
def onLoginThen (detached : List Effect) : Reaction :=
  let userId := DemoMsgReqLogin.userId
  let reqId := DemoMsgReqLogin.reqId
  checkMsgStrLen memory userId session <|
    checkMsgStrLen memory DemoMsgReqLogin.password session
      -- the log line, `user_id_`, and the response
      { reads := scanned memory userId.start ++ reqId.offsets ++ scanned memory userId.start
          ++ reqId.offsets
        effects :=
          .sendMessage (stackMsg host demoMsgIdRspLogin (reqId.bytes memory ++ [1])) :: detached
        session := ⟨string (memory.drop userId.start), true⟩ }

/-- `OnLogin` of `tcp_server` and of `tcp_server_channel`. -/
def onLogin : Reaction := onLoginThen host session memory []

/-- `OnLogin` of `tcp_server_worker`, which ends in `Detach`. -/
def onLoginDetach : Reaction := onLoginThen host session memory [.detach]

/-- The elements are added up in 32 bits. -/
def onReqSum : Reaction :=
  open DemoMsgReqSum in
  let len := load32 host.byteOrder (bytesAt memory arrLen.start)
  checkAuth session <|
    if 16 < len then ⟨arrLen.offsets, [.close], session⟩
    else
      let indices := List.range len.toNat
      let sum := indices.foldl
        (fun sum i => sum + load32 host.byteOrder (bytesAt memory (arr i).start)) 0
      -- the check, the log line, the loop with its own look at `arr_len`, and the response
      { reads := arrLen.offsets ++ reqId.offsets ++ arrLen.offsets
          ++ indices.flatMap (fun i => (arr i).offsets ++ arrLen.offsets) ++ reqId.offsets
        effects := [.sendMessage (stackMsg host demoMsgIdRspSum
          (reqId.bytes memory ++ List.ofFn (store32 host.byteOrder sum)))]
        session := session }

end TcpServerSession

/-! ### The callbacks of a server -/

inductive RequestHandler where
  | onPing
  | onLogin
  | onReqSum
deriving DecidableEq

namespace RequestHandler

/-- The message id that `register_callbacks` registers it for. -/
def msgId : RequestHandler → UInt32
  | onPing => demoMsgIdPing
  | onLogin => demoMsgIdReqLogin
  | onReqSum => demoMsgIdReqSum

/-- `SetTotalMessage` and `register_callbacks`. -/
def registerCallbacks : List (Setup RequestHandler) :=
  [.setTotalMessage maxDemoMsgId true, .registerCallback demoMsgIdPing (some onPing),
    .registerCallback demoMsgIdReqLogin (some onLogin),
    .registerCallback demoMsgIdReqSum (some onReqSum)]

def dispatcher : Dispatcher RequestHandler := (Dispatcher.setups registerCallbacks).2

def run (host : Host) (session : TcpServerSession) (memory : Bytes) : RequestHandler → Reaction
  | onPing => session.onPing host memory
  | onLogin => session.onLogin host memory
  | onReqSum => session.onReqSum host memory

end RequestHandler

end BabelTrader
