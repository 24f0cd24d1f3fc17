import BabelTrader.Library.Mailbox
import BabelTrader.Proof.Sending
import BabelTrader.SharedDecoder
import BabelTrader.TcpServerSession

/-!
# The two ends of a connection

A client and a server, each with a session, a socket and a decoder of its own. What one of them
sends is what the other one's socket may give, and all else is left open: which of them moves next,
how far a call of `Decode` has come when the other side goes on, how much of what was sent has
arrived, what a write to a socket transfers, and when a socket is shut down.
-/

namespace BabelTrader

open MachineWord BytesBuffer

/-! ### One end -/

/-- The class of a session: `OnRead`, given the memory that `data` points into, and what else its
handle calls. Either asks for effects and leaves a new state. -/
structure Application (α τ : Type) where
  onRead : α → Bytes → List Effect × α
  onEvent : α → τ → List Effect × α

/-- What a session sees besides its buffer: the application, the socket, the bytes that the socket
has to give, and what lies in memory behind the next frame. Two histories that no code reads follow,
the messages given to `SendMessage` with what it returned, and whether `Close` has been called. -/
structure Endpoint (α κ : Type) where
  app : α
  ctx : κ
  arrived : Bytes
  beyond : Bytes
  asked : List (Bytes × Bool)
  closed : Bool

namespace Endpoint

variable {α κ : Type}

def start (app : α) (ctx : κ) : Endpoint α κ := ⟨app, ctx, [], [], [], false⟩

theorem length_take_min_le (arrived : Bytes) (len : Nat) :
    (arrived.take (min len (2 ^ 31 - 1))).length ≤ len :=
  Nat.le_trans (List.length_take_le _ _) (Nat.min_le_left _ _)

theorem length_take_min_lt (arrived : Bytes) (len : Nat) :
    (arrived.take (min len (2 ^ 31 - 1))).length < 2 ^ 31 := by
  rw [List.length_take]
  omega

theorem zero_le_zero : (0 : Int) ≤ 0 := Int.le_refl 0

/-- The socket gives all it has, as far as there is room for it and an `int` can say so. -/
def read (e : Endpoint α κ) (len : Nat) : ReadResult len × Endpoint α κ :=
  if h : 0 < (e.arrived.take (min len (2 ^ 31 - 1))).length then
    (.bytes (e.arrived.take (min len (2 ^ 31 - 1))) h (length_take_min_le e.arrived len)
        (length_take_min_lt e.arrived len),
      { e with arrived := e.arrived.drop (min len (2 ^ 31 - 1)) })
  else (.nothing 0 zero_le_zero, e)

variable [SocketContext κ] (host : Host)

def perform (e : Endpoint α κ) : Effect → Endpoint α κ
  | .sendMessage msg =>
      let sent :=
        Session.sendMessage (Session.encoderChain host) e.ctx msg (UInt32.ofNat msg.length)
      { e with ctx := sent.2, asked := e.asked ++ [(msg, sent.1)] }
  | .close => { e with ctx := Session.close e.ctx, closed := true }
  | .updateActiveTime | .detach => e

def react (e : Endpoint α κ) (reaction : List Effect × α) : Endpoint α κ :=
  reaction.1.foldl (perform host) { e with app := reaction.2 }

/-- The virtual methods of the session. `OnRead` accepts every frame. -/
def methods {τ : Type} (app : Application α τ) : Methods (Endpoint α κ) where
  read := read
  onRead e frame :=
    (.untouched true frame.data, e.react host (app.onRead e.app (frame.data ++ e.beyond)))

end Endpoint

/-! ### What one end may do -/

/-- What a process runs: the class of its session, and its decoder. -/
structure Process (α τ κ : Type) where
  app : Application α τ
  decoder : BytesToMsgDecoder (Endpoint α κ)

inductive Move (τ : Type) where
  /-- The next pass of the session's `Decode`. -/
  | turn
  /-- The handle calls the session, while it is not in `Decode`. -/
  | event (event : τ)
  /-- The socket has this many of the bytes still to come. -/
  | arrive (n : Nat)
  | shutdown
  /-- Something else is written to the memory behind the frames. -/
  | scribble (bytes : Bytes)

/-- A process and the state of its session; `wire` is what the other side's socket has
transferred. -/
def Process.move {α τ κ β : Type} [SocketContext κ] [BytesBuffer β] (host : Host)
    (p : Process α τ κ) (wire : Bytes) (t : Task β (Endpoint α κ)) : Move τ → Task β (Endpoint α κ)
  | .turn => t.step host p.decoder (Endpoint.methods host p.app)
  | .event event =>
      match t.phase with
      | .idle =>
          let env := t.session.env
          { t with session := { t.session with
              env := env.react host (p.app.onEvent env.app event) } }
      | .reading | .parsing => t
  | .arrive n =>
      { t with session := { t.session with
          env := { t.session.env with arrived := (wire.drop t.session.received.length).take n } } }
  | .shutdown =>
      { t with session := { t.session with
          env := { t.session.env with ctx := SocketContext.shutdown t.session.env.ctx } } }
  | .scribble bytes =>
      { t with session := { t.session with env := { t.session.env with beyond := bytes } } }

/-- A process whose peer may be anything: whatever the wire holds at each of its moves. -/
def Process.run {α τ κ β : Type} [SocketContext κ] [BytesBuffer β] (host : Host)
    (p : Process α τ κ) (t : Task β (Endpoint α κ)) (moves : List (Bytes × Move τ)) :
    Task β (Endpoint α κ) :=
  moves.foldl (fun t turn => p.move host turn.1 t turn.2) t

/-! ### Both ends -/

structure Connection (α α' β κ : Type) where
  client : Task β (Endpoint α κ)
  server : Task β (Endpoint α' κ)

inductive Turn (τ τ' : Type) where
  | client (move : Move τ)
  | server (move : Move τ')

namespace Connection

variable {α α' β κ τ τ' : Type} [BytesBuffer β] [SocketContext κ]

/-- Two processes with nothing sent yet. -/
def start (app : α) (app' : α') (buf buf' : β) (ctx ctx' : κ) : Connection α α' β κ where
  client := ⟨.idle, .init buf (.start app ctx)⟩
  server := ⟨.idle, .init buf' (.start app' ctx')⟩

/-- `sent` is what a socket has transferred. -/
def step (host : Host) (sent : κ → Bytes) (client : Process α τ κ) (server : Process α' τ' κ)
    (conn : Connection α α' β κ) : Turn τ τ' → Connection α α' β κ
  | .client move =>
      { conn with
        client := client.move host (sent conn.server.session.env.ctx) conn.client move }
  | .server move =>
      { conn with
        server := server.move host (sent conn.client.session.env.ctx) conn.server move }

def run (host : Host) (sent : κ → Bytes) (client : Process α τ κ) (server : Process α' τ' κ)
    (conn : Connection α α' β κ) (turns : List (Turn τ τ')) : Connection α α' β κ :=
  turns.foldl (step host sent client server) conn

end Connection

/-! ### The conversation

What the two sides say to each other, in whole messages. -/

namespace Effect

/-- The acts among some effects, with each message as the encoder leaves it. -/
def acts (host : Host) (effects : List Effect) : List (Mailbox.Act Frame) :=
  effects.filterMap fun
    | .sendMessage msg => some (.send (encoded host msg))
    | .close => some .close
    | .updateActiveTime | .detach => none

theorem acts_append (host : Host) (effects effects' : List Effect) :
    acts host (effects ++ effects') = acts host effects ++ acts host effects' :=
  List.filterMap_append

end Effect

namespace Application

variable {α τ : Type}

def behaviour (host : Host) (app : Application α τ) : Mailbox.Behaviour α Frame where
  act state acts state' :=
    ∃ event, acts = Effect.acts host (app.onEvent state event).1
      ∧ state' = (app.onEvent state event).2
  receive state frame acts state' :=
    ∃ beyond, acts = Effect.acts host (app.onRead state (frame.data ++ beyond)).1
      ∧ state' = (app.onRead state (frame.data ++ beyond)).2

/-- What the handlers ask for when they see these memories one after the other, and the state that
they leave. -/
def replay (app : Application α τ) (state : α) (seen : List Bytes) : List Effect × α :=
  seen.foldl
    (fun r memory => (r.1 ++ (app.onRead r.2 memory).1, (app.onRead r.2 memory).2)) ([], state)

theorem replay_concat (app : Application α τ) (state : α) (seen : List Bytes) (memory : Bytes) :
    app.replay state (seen ++ [memory])
      = ((app.replay state seen).1 ++ (app.onRead (app.replay state seen).2 memory).1,
        (app.onRead (app.replay state seen).2 memory).2) := by
  rw [replay, List.foldl_append]
  rfl

theorem replay_append (app : Application α τ) (state : α) (seen seen' : List Bytes) :
    app.replay state (seen ++ seen')
      = ((app.replay state seen).1 ++ (app.replay (app.replay state seen).2 seen').1,
        (app.replay (app.replay state seen).2 seen').2) := by
  induction seen' using List.reverseRecOn with
  | nil =>
      rw [List.append_nil]
      exact congrArg (·, _) (List.append_nil _).symm
  | append_singleton seen' last ih =>
      rw [← List.append_assoc, replay_concat, ih, replay_concat, List.append_assoc]

theorem replay_cons (app : Application α τ) (state : α) (memory : Bytes) (seen : List Bytes) :
    app.replay state (memory :: seen)
      = ((app.onRead state memory).1 ++ (app.replay (app.onRead state memory).2 seen).1,
        (app.replay (app.onRead state memory).2 seen).2) := by
  rw [← List.singleton_append, replay_append]
  rfl

/-- Whatever it is given, it sends messages prepared for a peer with this limit. -/
structure Sends (host : Host) (limit : UInt32) (app : Application α τ) : Prop where
  onRead : ∀ state memory, ∀ msg, Effect.sendMessage msg ∈ (app.onRead state memory).1 →
    Sendable host limit msg
  onEvent : ∀ state event, ∀ msg, Effect.sendMessage msg ∈ (app.onEvent state event).1 →
    Sendable host limit msg

end Application

namespace Endpoint

variable {α κ : Type}

/-- `SendMessage` has returned `false`. -/
def lost (e : Endpoint α κ) : Bool := e.asked.any fun p => !p.2

/-- The messages for which `SendMessage` has returned `true`. -/
def accepted (e : Endpoint α κ) : List Bytes := (e.asked.filter Prod.snd).map Prod.fst

def party (host : Host) (e : Endpoint α κ) (passed : List Frame) : Mailbox.Party α Frame where
  state := e.app
  asked := e.asked.map fun p => encoded host p.1
  posted := e.accepted.map (encoded host)
  taken := passed
  lost := e.lost
  closed := e.closed

end Endpoint

def Task.party {α κ β : Type} (host : Host) (t : Task β (Endpoint α κ)) : Mailbox.Party α Frame :=
  t.session.env.party host t.session.passed

def Connection.config {α α' β κ : Type} (host : Host) (conn : Connection α α' β κ) :
    Mailbox.Config α α' Frame where
  left := conn.client.party host
  right := conn.server.party host

end BabelTrader
