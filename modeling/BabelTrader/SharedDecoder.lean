import BabelTrader.BytesToMsgDecoder
import Mathlib.Logic.Function.Basic

/-!
# Many sessions and one decoder

One decoder object serves every session of a server. A task is what one session is at: idle, or
somewhere in a call of `Decode`, between two passes of one of its loops. Any task may make the next
move, and in between the decoder's settings may be changed, and a session's environment may be
changed from outside. A list of events is therefore an arbitrary interleaving of calls, of which
some may still be under way and some may never return.
-/

namespace BabelTrader

open WhileLoop BytesBuffer BytesToMsgDecoder

inductive Phase where
  | idle
  | reading
  | parsing
deriving DecidableEq

structure Task (β ε : Type) where
  phase : Phase
  session : Session β ε

/-- The next move of a task; an idle one calls `Decode`, which returns at once without a buffer. -/
def Task.step {β ε : Type} [BytesBuffer β] (host : Host) (d : BytesToMsgDecoder ε) (m : Methods ε)
    (t : Task β ε) : Task β ε :=
  match t.phase with
  | .idle =>
      match t.session.bytesBuf with
      | none => t
      | some _ => { t with phase := .reading }
  | .reading =>
      match d.readPass m t.session with
      | .again s => ⟨.reading, s⟩
      | .leave s => ⟨.parsing, s⟩
  | .parsing =>
      match d.parsePass host m t.session with
      | .again s => ⟨.parsing, s⟩
      | .leave (_, s) => ⟨.idle, s⟩

structure Server (ι β ε : Type) where
  decoder : BytesToMsgDecoder ε
  task : ι → Task β ε

inductive Event (ι ε : Type) where
  | turn (i : ι)
  | outside (i : ι) (env : ε)
  | setRecvUnitSize (recvUnitSize : UInt32)
  | setMsgLenLimit (msgLenLimit : UInt32)

namespace Server

variable {ι β ε : Type} [DecidableEq ι] [BytesBuffer β]

def step (host : Host) (m : ι → Methods ε) (srv : Server ι β ε) : Event ι ε → Server ι β ε
  | .turn i =>
      { srv with task := Function.update srv.task i ((srv.task i).step host srv.decoder (m i)) }
  | .outside i env =>
      { srv with
        task := Function.update srv.task i
          { srv.task i with session := { (srv.task i).session with env := env } } }
  | .setRecvUnitSize n => { srv with decoder := srv.decoder.setRecvUnitSize n }
  | .setMsgLenLimit n => { srv with decoder := srv.decoder.setMsgLenLimit n }

def run (host : Host) (m : ι → Methods ε) (srv : Server ι β ε) (events : List (Event ι ε)) :
    Server ι β ε :=
  events.foldl (step host m) srv

/-- A receive unit that fits an `int`, whatever the settings are changed to. -/
def FitsInt (srv : Server ι β ε) (events : List (Event ι ε)) : Prop :=
  srv.decoder.recvUnitSize.toNat < 2 ^ 31
    ∧ ∀ n, Event.setRecvUnitSize n ∈ events → n.toNat < 2 ^ 31

end Server

namespace Task

variable {β ε : Type} [BytesBuffer β]

/-- The states a session goes through when `Decode` is called on it over and over. -/
inductive Reachable (host : Host) (d : BytesToMsgDecoder ε) (m : Methods ε) (s : Session β ε) :
    Task β ε → Prop where
  | start : Reachable host d m s ⟨.idle, s⟩
  | step {t : Task β ε} : Reachable host d m s t → Reachable host d m s (t.step host d m)

end Task

end BabelTrader
