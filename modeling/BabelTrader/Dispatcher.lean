import BabelTrader.BytesToMsgDecoder

/-!
# `Dispatcher`

A table of callbacks, one slot for each message id below a total that is set once. A session hands
every frame it is given to the dispatcher, and accepts it whatever becomes of it there: neither
`Dispatch` nor a callback returns anything, and closing a session leaves no trace that anyone looks
at before the next frame.
-/

namespace BabelTrader

/-- `callbacks` is `callbacks_`, which may be null, and a slot may be null too. -/
structure Dispatcher (κ : Type) where
  totalMsg : UInt32
  callbacks : Option (List (Option κ))

inductive Dispatched (κ : Type) where
  | invoke (cb : κ)
  | noCallback
  | close

namespace Dispatcher

variable {κ : Type}

def new : Dispatcher κ := ⟨0, none⟩

/-- `allocates` tells whether `malloc` succeeds. -/
def setTotalMessage (d : Dispatcher κ) (allocates : Bool) (totalMsg : UInt32) :
    Bool × Dispatcher κ :=
  if d.totalMsg ≠ 0 then (false, d)
  else if allocates then (true, ⟨totalMsg, some (List.replicate totalMsg.toNat none)⟩)
  else (false, { d with callbacks := none })

/-- `callbacks_[msg_id]`. -/
def callback (d : Dispatcher κ) (msgId : UInt32) : Option κ :=
  ((d.callbacks.getD [])[msgId.toNat]?).join

def registerCallback (d : Dispatcher κ) (msgId : UInt32) (cb : Option κ) : Bool × Dispatcher κ :=
  if d.totalMsg ≤ msgId then (false, d)
  else
    match d.callback msgId with
    | some _ => (false, d)
    | none => (true, { d with callbacks := d.callbacks.map fun slots => slots.set msgId.toNat cb })

def dispatch (d : Dispatcher κ) (hdr : MsgHdr) : Dispatched κ :=
  if hdr.msgId < d.totalMsg then
    match d.callback hdr.msgId with
    | some cb => .invoke cb
    | none => .noCallback
  else .close

def handles (d : Dispatcher κ) (hdr : MsgHdr) : Bool :=
  match d.dispatch hdr with
  | .invoke _ => true
  | .noCallback | .close => false

/-- The session is closed for an id out of range, and for nothing else. -/
theorem dispatch_eq_close_iff {d : Dispatcher κ} {hdr : MsgHdr} :
    d.dispatch hdr = .close ↔ d.totalMsg ≤ hdr.msgId := by
  rw [dispatch]
  by_cases hlt : hdr.msgId < d.totalMsg
  · rw [if_pos hlt]
    refine iff_of_false ?_ (UInt32.not_le.mpr hlt)
    cases d.callback hdr.msgId <;> exact fun h => by cases h
  · rw [if_neg hlt]
    exact iff_of_true rfl (UInt32.not_lt.mp hlt)

end Dispatcher

/-! ### Setting up a dispatcher -/

/-- A call that sets up a dispatcher. -/
inductive Setup (κ : Type) where
  | setTotalMessage (totalMsg : UInt32) (allocates : Bool)
  | registerCallback (msgId : UInt32) (cb : Option κ)
deriving DecidableEq

/-- A callback with its two pointers, the header and what follows it. -/
structure Invocation (κ : Type) where
  cb : κ
  hdr : Nat
  msg : Nat
deriving DecidableEq

/-- What one `Dispatch` does: the callbacks that it invokes, and whether it closes the session. -/
structure Dispatching (κ : Type) where
  invoked : List (Invocation κ)
  closes : Bool
deriving DecidableEq

namespace Dispatcher

variable {κ : Type}

def setup (d : Dispatcher κ) : Setup κ → Bool × Dispatcher κ
  | .setTotalMessage totalMsg allocates => d.setTotalMessage allocates totalMsg
  | .registerCallback msgId cb => d.registerCallback msgId cb

/-- One such call after the other on a new dispatcher: each with what it returned, and the
dispatcher after them. -/
def setups (calls : List (Setup κ)) : List (Setup κ × Bool) × Dispatcher κ :=
  calls.foldl (fun r call => (r.1 ++ [(call, (r.2.setup call).1)], (r.2.setup call).2)) ([], new)

/-- `Dispatch` for the frame at the address `data`, where `memory` is what lies from there on. -/
def dispatchAt (host : Host) (d : Dispatcher κ) (data : Nat) (memory : Bytes) : Dispatching κ :=
  match d.dispatch (MsgHdr.load host memory) with
  | .invoke cb => ⟨[⟨cb, data, data + sizeofMsgHdr⟩], false⟩
  | .noCallback => ⟨[], false⟩
  | .close => ⟨[], true⟩

end Dispatcher

/-- The first callback, null ones aside, whose registration for `msgId` returned `true`. -/
def firstRegistered {κ : Type} (msgId : UInt32) (history : List (Setup κ × Bool)) : Option κ :=
  history.findSome? fun
    | (.registerCallback i cb, true) => if i = msgId then cb else none
    | _ => none

/-! ### Sessions that forward to a dispatcher -/

/-- What a callback does with the frame it is given: to the application, to the session, and to the
bytes of the frame. -/
structure Called (α : Type) (data : Bytes) where
  app : α
  closes : Bool
  left : Bytes
  length_left : left.length = data.length

/-- `FnMsgCallback`. Its two pointers are the start of the frame, and what follows the header. -/
abbrev Callback (α : Type) := α → (frame : Frame) → Called α frame.data

/-- A session of the application `app`, with three histories that no code reads: whether `Close` has
been called, the frames given to `OnRead`, and those for which a callback was invoked, each with
whether `Close` had been called before. -/
structure Conn (α : Type) where
  app : α
  closed : Bool
  given : List (Frame × Bool)
  invoked : List (Frame × Bool)

namespace Conn

variable {α : Type}

def start (app : α) : Conn α := ⟨app, false, [], []⟩

/-- `OnRead`. The header is looked at whatever the length of the frame, so `beyond` is what lies in
memory after it. -/
def onRead (host : Host) (dispatcher : Dispatcher (Callback α)) (beyond : α → Bytes) :
    Handler (Conn α) := fun conn frame =>
  let given := conn.given ++ [(frame, conn.closed)]
  match dispatcher.dispatch (MsgHdr.load host (frame.data ++ beyond conn.app)) with
  | .invoke cb =>
      let called := cb conn.app frame
      (⟨true, called.left, called.length_left⟩,
        { app := called.app
          closed := conn.closed || called.closes
          given := given
          invoked := conn.invoked ++ [(frame, conn.closed)] })
  | .noCallback => (.untouched true frame.data, { conn with given := given })
  | .close => (.untouched true frame.data, { conn with given := given, closed := true })

/-- The methods of such a session, over a socket whose reads may depend on everything. -/
def methods (host : Host) (dispatcher : Dispatcher (Callback α)) (beyond : α → Bytes)
    (read : Conn α → (len : Nat) → ReadResult len × α) : Methods (Conn α) where
  read conn len := ((read conn len).1, { conn with app := (read conn len).2 })
  onRead := onRead host dispatcher beyond

end Conn

end BabelTrader
