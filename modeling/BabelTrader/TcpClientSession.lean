import BabelTrader.Endpoint

/-!
# `TcpClientSession`

The session of the example client. It logs in when it is connected, and whenever its handle's timer
calls it, it sends a ping and, once the login has succeeded, a request to add up some numbers. The
choices it makes by `rand` are arguments here. Its callbacks look at responses in the way in which
the server's look at requests.
-/

namespace BabelTrader

open MachineWord CString

/-! ### The responses -/

namespace DemoMsgRspLogin

def reqId : Field := ⟨0, 4⟩

def loginResult : Field := ⟨4, 1⟩

end DemoMsgRspLogin

namespace DemoMsgPong

def sec : Field := ⟨0, 8⟩

def nsec : Field := ⟨8, 4⟩

end DemoMsgPong

namespace DemoMsgRspSum

def reqId : Field := ⟨0, 4⟩

def sum : Field := ⟨4, 4⟩

end DemoMsgRspSum

/-! ### The session -/

structure TcpClientSession where
  reqId : UInt32
  isLogined : Bool
deriving DecidableEq

namespace TcpClientSession

def new : TcpClientSession := ⟨0, false⟩

/-- The characters of a literal. -/
def chars (text : List Char) : Bytes := text.map fun c => UInt8.ofNat c.toNat

/-- `users`. -/
def users : List Bytes :=
  [chars ['f', 'o', 'o'], chars ['b', 'a', 'r'], chars ['b', 'a', 'z'], chars ['b', 'i', 'l', 'l'],
    chars ['s', 't', 'e', 'v', 'e'], chars ['j', 'o', 'h', 'n']]

def password : Bytes := chars ['1', '2', '3', '4', '5', '6']

variable (host : Host) (session : TcpClientSession)

/-- `OnConnection`, with what `rand` returns there. Both strings leave the last byte of their
members as the zero that `BABELTRADER_CPP_NEW_STACK_MSG` has put there. -/
def onConnection (rand : Nat) : List Effect × TcpClientSession :=
  let user := users.getD (rand % users.length) []
  ([.sendMessage (stackMsg host demoMsgIdReqLogin
      (List.ofFn (store32 host.byteOrder session.reqId) ++ (strncpy user 15 ++ [0])
        ++ (strncpy password 31 ++ [0])))],
    { session with reqId := session.reqId + 1 })

/-- The element that `RequestSum` makes of `rand`, as it is stored in `arr`. -/
def sumElement (rand : UInt32) : UInt32 := rand % 201 - 100

/-- How many elements `RequestSum` makes. -/
def sumCount (rand : UInt32) : UInt32 := rand % 10 + 1

/-- `RequestSum`, with what `rand` returns first for the number of elements and then for each. -/
def requestSum (count : UInt32) (rands : Nat → UInt32) : List Effect × TcpClientSession :=
  let cnt := sumCount count
  let arr := (List.range cnt.toNat).map fun i => sumElement (rands i)
  ([.sendMessage (stackMsg host demoMsgIdReqSum
      (List.ofFn (store32 host.byteOrder session.reqId) ++ List.ofFn (store32 host.byteOrder cnt)
        ++ arr.flatMap fun element => List.ofFn (store32 host.byteOrder element)))],
    { session with reqId := session.reqId + 1 })

/-- `OnTimer`, with what `timespec_get` returns. -/
def onTimer (sec : UInt64) (nsec : UInt32) (count : UInt32) (rands : Nat → UInt32) :
    List Effect × TcpClientSession :=
  let ping := Effect.sendMessage (stackMsg host demoMsgIdPing
    (List.ofFn (store64 host.byteOrder sec) ++ List.ofFn (store32 host.byteOrder nsec)))
  if session.isLogined then
    let request := session.requestSum host count rands
    (ping :: request.1, request.2)
  else ([ping], session)

/-- What a callback reads through `msg`, what it asks for, and the session that it leaves. -/
structure Reaction where
  reads : List Nat
  effects : List Effect
  session : TcpClientSession

variable (memory : Bytes)

def onPong : Reaction where
  reads := DemoMsgPong.sec.offsets ++ DemoMsgPong.nsec.offsets
  effects := [.updateActiveTime]
  session := session

def onRspLogin : Reaction :=
  let reads := DemoMsgRspLogin.loginResult.offsets
  if DemoMsgRspLogin.loginResult.bytes memory = [0] then ⟨reads, [.close], session⟩
  else ⟨reads, [], { session with isLogined := true }⟩

def onRspSum : Reaction where
  reads := DemoMsgRspSum.reqId.offsets ++ DemoMsgRspSum.sum.offsets
  effects := []
  session := session

end TcpClientSession

/-! ### The callbacks of a client -/

inductive ResponseHandler where
  | onPong
  | onRspLogin
  | onRspSum
deriving DecidableEq

namespace ResponseHandler

def msgId : ResponseHandler → UInt32
  | onPong => demoMsgIdPong
  | onRspLogin => demoMsgIdRspLogin
  | onRspSum => demoMsgIdRspSum

/-- `SetTotalMessage` and `register_callbacks`. -/
def registerCallbacks : List (Setup ResponseHandler) :=
  [.setTotalMessage maxDemoMsgId true, .registerCallback demoMsgIdPong (some onPong),
    .registerCallback demoMsgIdRspLogin (some onRspLogin),
    .registerCallback demoMsgIdRspSum (some onRspSum)]

def dispatcher : Dispatcher ResponseHandler := (Dispatcher.setups registerCallbacks).2

def run (session : TcpClientSession) (memory : Bytes) :
    ResponseHandler → TcpClientSession.Reaction
  | onPong => session.onPong
  | onRspLogin => session.onRspLogin memory
  | onRspSum => session.onRspSum

end ResponseHandler

/-! ### The two applications -/

/-- What the client's handle calls its session for. -/
inductive ClientEvent where
  | addCtx (rand : Nat)
  | timer (sec : UInt64) (nsec : UInt32) (count : UInt32) (rands : Nat → UInt32)

/-- The client, with `session_` of its handle, which is null before `OnAddCtx`. -/
def tcpClient (host : Host) : Application (Option TcpClientSession) ClientEvent where
  onRead session_ memory :=
    match session_ with
    | none => ([], none)
    | some session =>
        match ResponseHandler.dispatcher.dispatch (MsgHdr.load host memory) with
        | .invoke handler =>
            let reaction := handler.run session memory
            (reaction.effects, some reaction.session)
        | .noCallback => ([], some session)
        | .close => ([.close], some session)
  onEvent session_ event :=
    match session_, event with
    | none, .addCtx rand =>
        let r := TcpClientSession.new.onConnection host rand
        (r.1, some r.2)
    | some session, .timer sec nsec count rands =>
        let r := session.onTimer host sec nsec count rands
        (r.1, some r.2)
    | some session, .addCtx _ => ([], some session)
    | none, .timer _ _ _ _ => ([], none)

/-- The session of `tcp_server`; its handle calls it for nothing but messages. -/
def tcpServer (host : Host) : Application TcpServerSession Empty where
  onRead session memory :=
    match RequestHandler.dispatcher.dispatch (MsgHdr.load host memory) with
    | .invoke handler =>
        let reaction := handler.run host session memory
        (reaction.effects, reaction.session)
    | .noCallback => ([], session)
    | .close => ([.close], session)
  onEvent _ event := event.elim

/-- `run_tcp_client`: one encoder and one decoder as they are constructed. -/
def runTcpClient {κ : Type} (host : Host) : Process (Option TcpClientSession) ClientEvent κ :=
  ⟨tcpClient host, .new⟩

/-- `run_tcp_server`. -/
def runTcpServer {κ : Type} (host : Host) : Process TcpServerSession Empty κ :=
  ⟨tcpServer host, .new⟩

end BabelTrader
