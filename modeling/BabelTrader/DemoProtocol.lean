import BabelTrader.Library.Runs
import BabelTrader.TcpClientSession

/-!
# What the demo protocol is for

Requests and responses as values, apart from the bytes that stand for them. A server answers every
request with one response, and a client of it sees its requests answered one after the other.
-/

namespace BabelTrader

open MachineWord CString

/-- The strings of a login are the `user_id` and the `password` without their last bytes. -/
inductive Request where
  | login (reqId : UInt32) (userId password : Bytes)
  | ping (sec : UInt64) (nsec : UInt32)
  | sum (reqId : UInt32) (arr : List UInt32)
deriving DecidableEq

inductive Response where
  | login (reqId : UInt32) (result : UInt8)
  | pong (sec : UInt64) (nsec : UInt32)
  | sum (reqId total : UInt32)
deriving DecidableEq

namespace Request

def payload (order : ByteOrder) : Request → Bytes
  | login reqId userId password =>
      List.ofFn (store32 order reqId) ++ (strncpy userId 15 ++ [0]) ++ (strncpy password 31 ++ [0])
  | ping sec nsec => List.ofFn (store64 order sec) ++ List.ofFn (store32 order nsec)
  | sum reqId arr =>
      List.ofFn (store32 order reqId) ++ List.ofFn (store32 order (UInt32.ofNat arr.length))
        ++ arr.flatMap fun element => List.ofFn (store32 order element)

def msgId : Request → UInt32
  | login _ _ _ => demoMsgIdReqLogin
  | ping _ _ => demoMsgIdPing
  | sum _ _ => demoMsgIdReqSum

/-- The message that a request is sent as. -/
def msg (host : Host) (req : Request) : Bytes :=
  stackMsg host req.msgId (req.payload host.byteOrder)

/-- The frame that it arrives as. -/
def frame (host : Host) (req : Request) : Frame := encoded host (req.msg host)

/-- The servers take at most 16 elements. -/
def Fits : Request → Prop
  | sum _ arr => arr.length ≤ 16
  | login _ _ _ | ping _ _ => True

/-- A client that follows `RequestSum` asks for at most 10 numbers from -100 to 100. -/
def Small : Request → Prop
  | sum _ arr => arr.length ≤ 10 ∧ ∀ element ∈ arr, -100 ≤ toInt element ∧ toInt element ≤ 100
  | login _ _ _ | ping _ _ => True

def isLogin : Request → Bool
  | login _ _ _ => true
  | ping _ _ | sum _ _ => false

def needsLogin : Request → Bool
  | sum _ _ => true
  | login _ _ _ | ping _ _ => false

/-- The id of a request that has one. -/
def id? : Request → Option UInt32
  | login reqId _ _ | sum reqId _ => some reqId
  | ping _ _ => none

/-- What the request is answered with, on a session that is logged in. -/
def respond : Request → Response
  | login reqId _ _ => .login reqId 1
  | ping sec nsec => .pong sec nsec
  | sum reqId arr => .sum reqId (arr.foldl (· + ·) 0)

end Request

namespace Response

def payload (order : ByteOrder) : Response → Bytes
  | login reqId result => List.ofFn (store32 order reqId) ++ [result]
  | pong sec nsec => List.ofFn (store64 order sec) ++ List.ofFn (store32 order nsec)
  | sum reqId total => List.ofFn (store32 order reqId) ++ List.ofFn (store32 order total)

def msgId : Response → UInt32
  | login _ _ => demoMsgIdRspLogin
  | pong _ _ => demoMsgIdPong
  | sum _ _ => demoMsgIdRspSum

def msg (host : Host) (rsp : Response) : Bytes :=
  stackMsg host rsp.msgId (rsp.payload host.byteOrder)

def frame (host : Host) (rsp : Response) : Frame := encoded host (rsp.msg host)

end Response

namespace Response

/-- A login that has succeeded. -/
def grants : Response → Bool
  | login _ result => result ≠ 0
  | pong _ _ | sum _ _ => false

end Response

/-! ### What can be held against anyone

Nothing is known of the peer here. `memory` is what a handler sees: a frame, with anything behind
it. -/

namespace RequestHandler

/-- The id of what the handler sends. -/
def responseId : RequestHandler → UInt32
  | onPing => demoMsgIdPong
  | onLogin => demoMsgIdRspLogin
  | onReqSum => demoMsgIdRspSum

/-- The handler's checks of the message: on its strings, and on the length of its array. -/
def passes (host : Host) (memory : Bytes) : RequestHandler → Bool
  | onPing => true
  | onLogin => strlen (memory.drop DemoMsgReqLogin.userId.start) < DemoMsgReqLogin.userId.size
      && strlen (memory.drop DemoMsgReqLogin.password.start) < DemoMsgReqLogin.password.size
  | onReqSum => load32 host.byteOrder (bytesAt memory DemoMsgReqSum.arrLen.start) ≤ 16

/-- It is a message for the handler, and passes its checks. -/
def takes (host : Host) (handler : RequestHandler) (memory : Bytes) : Bool :=
  (MsgHdr.load host memory).msgId == handler.msgId && handler.passes host memory

/-- What a server closes for: an id out of range, a message that fails the checks of its handler,
and a sum before a login. -/
def Offends (host : Host) (logined : Bool) (memory : Bytes) : Prop :=
  maxDemoMsgId ≤ (MsgHdr.load host memory).msgId
    ∨ ∃ handler : RequestHandler, (MsgHdr.load host memory).msgId = handler.msgId
      ∧ (handler.passes host memory = false ∨ (handler = onReqSum ∧ logined = false))

end RequestHandler

def Frame.hasId (host : Host) (msgId : UInt32) (frame : Frame) : Bool :=
  (MsgHdr.load host frame.data).msgId == msgId

/-- What a server has asked, and what has become of it, as an account of what its handlers have
seen: a pong for each ping, a response for each login, and one for each sum after the first login,
and no `Close` unless something was an offence. -/
structure Accounted (host : Host) (seen : List Bytes) (asked : List Frame) (logined closed : Bool) :
    Prop where
  pongs : (asked.filter (Frame.hasId host demoMsgIdPong)).length
    = (seen.filter (RequestHandler.onPing.takes host)).length
  logins : (asked.filter (Frame.hasId host demoMsgIdRspLogin)).length
    = (seen.filter (RequestHandler.onLogin.takes host)).length
  sums : (asked.filter (Frame.hasId host demoMsgIdRspSum)).length
    = ((seen.dropWhile fun memory => !RequestHandler.onLogin.takes host memory).filter
      (RequestHandler.onReqSum.takes host)).length
  others : ∀ frame ∈ asked, ∃ handler : RequestHandler, frame.hasId host handler.responseId = true
  logined : logined = seen.any (RequestHandler.onLogin.takes host)
  closed : closed = false ↔ Runs.Throughout (fun earlier memory =>
    ¬ RequestHandler.Offends host (earlier.any (RequestHandler.onLogin.takes host)) memory) seen

namespace ResponseHandler

/-- A response that makes a client log itself in. -/
def Grants (host : Host) (memory : Bytes) : Prop :=
  (MsgHdr.load host memory).msgId = demoMsgIdRspLogin
    ∧ DemoMsgRspLogin.loginResult.bytes memory ≠ [0]

/-- What a client closes for: an id out of range, and a login that is refused. -/
def Refuses (host : Host) (memory : Bytes) : Prop :=
  maxDemoMsgId ≤ (MsgHdr.load host memory).msgId
    ∨ (MsgHdr.load host memory).msgId = demoMsgIdRspLogin
      ∧ DemoMsgRspLogin.loginResult.bytes memory = [0]

end ResponseHandler

/-! ### What the two sides agree on -/

/-- What a client has asked so far: one login, first of all, then pings and sums, the latter only
once the login has been granted, and ids counted up from zero. -/
structure Planned (session_ : Option TcpClientSession) (reqs : List Request) : Prop where
  small : ∀ req ∈ reqs, req.Small
  start : session_ = none → reqs = []
  login : ∀ session, session_ = some session →
    ∃ first rest, reqs = first :: rest ∧ first.isLogin = true ∧ ∀ req ∈ rest, req.isLogin = false
  ids : reqs.filterMap Request.id?
    = (List.range (reqs.filterMap Request.id?).length).map UInt32.ofNat
  reqId : ∀ session, session_ = some session →
    session.reqId = UInt32.ofNat (reqs.filterMap Request.id?).length
  sums : ∀ session, session_ = some session → ∀ req ∈ reqs, req.needsLogin = true →
    session.isLogined = true

/-- The client has asked `reqs`. The server has been handed the first `handled` of them and has
answered each, and the client has been handed the first `answered` of the answers. Neither side has
closed. -/
structure Agree (host : Host)
    (conf : Mailbox.Config (Option TcpClientSession) TcpServerSession Frame) (reqs : List Request)
    (handled answered : Nat) : Prop where
  answered_le : answered ≤ handled
  handled_le : handled ≤ reqs.length
  planned : Planned conf.left.state reqs
  asked : conf.left.asked = reqs.map (Request.frame host)
  requests : conf.right.taken = (reqs.take handled).map (Request.frame host)
  answers : conf.right.asked = (reqs.take handled).map fun req => req.respond.frame host
  responses : conf.left.taken = (reqs.take answered).map fun req => req.respond.frame host
  client_open : conf.left.closed = false
  server_open : conf.right.closed = false
  server_logined : conf.right.state.isLogined = (reqs.take handled).any Request.isLogin
  client_logined : ∀ session, conf.left.state = some session → session.isLogined = true →
    ((reqs.take answered).map Request.respond).any Response.grants = true

end BabelTrader
