import BabelTrader.MsgToBytesEncoder

/-!
# `SendMessage`

A message goes from the session through the encoders of its chain, and the last of them calls
`OnWrite`, which writes to the socket once: what the socket does not take is not offered again, the
session is closed instead. Closing a session shuts its socket down and nothing else.
-/

namespace BabelTrader

open MachineWord

/-- The operations of `muggle::SocketContext` that sending calls. `Write` returns an `int`. -/
class SocketContext (κ : Type) where
  write : κ → Bytes → UInt32 → Int × κ
  shutdown : κ → κ

/-- The encoders of a chain, from `encode_head_` on in the order of `next_`. Each of them is given
what its `Next` calls. -/
structure CodecChain (κ : Type) where
  encoders : List (Sink κ → Sink κ)

section

variable {κ : Type}

/-- `CodecChain::Encode`, with the session's `OnWrite`. -/
def CodecChain.encode (chain : CodecChain κ) (onWrite : Sink κ) : Sink κ :=
  chain.encoders.foldr (fun encode next => encode next) onWrite

variable [SocketContext κ]

def Session.close (ctx : κ) : κ := SocketContext.shutdown ctx

def Session.onWrite : Sink κ := fun ctx data datalen =>
  let n := (SocketContext.write ctx data datalen).1
  let ctx' := (SocketContext.write ctx data datalen).2
  if n ≠ toInt datalen then (false, close ctx') else (true, ctx')

def Session.sendMessage (codecChain : Option (CodecChain κ)) : Sink κ :=
  match codecChain with
  | some chain => chain.encode onWrite
  | none => onWrite

/-- One `SendMessage` after the other: what they return, and the socket after them. -/
def Session.sendMessages (codecChain : Option (CodecChain κ)) (ctx : κ) (msgs : List Bytes) :
    List Bool × κ :=
  msgs.foldl
    (fun r msg =>
      let sent := sendMessage codecChain r.2 msg (UInt32.ofNat msg.length)
      (r.1 ++ [sent.1], sent.2))
    ([], ctx)

end

/-- What the socket is relied on for: a write transfers what it says, from the front, and after a
shutdown that is nothing. `sent` is what has been transferred so far. -/
structure SocketContract {κ : Type} [SocketContext κ] (sent : κ → Bytes) (down : κ → Prop) :
    Prop where
  count_le : ∀ (ctx : κ) data datalen, (SocketContext.write ctx data datalen).1 ≤ datalen.toNat
  sent_write : ∀ (ctx : κ) data datalen, sent (SocketContext.write ctx data datalen).2
    = sent ctx ++ data.take (SocketContext.write ctx data datalen).1.toNat
  down_write : ∀ (ctx : κ) data datalen, down ctx →
    (SocketContext.write ctx data datalen).1 ≤ 0 ∧ down (SocketContext.write ctx data datalen).2
  sent_shutdown : ∀ ctx : κ, sent (SocketContext.shutdown ctx) = sent ctx
  down_shutdown : ∀ ctx : κ, down (SocketContext.shutdown ctx)

/-! ### A socket that keeps the contract -/

/-- What each further write will return, what has been transferred, and whether the socket is shut
down. -/
structure ScriptedSocket where
  counts : List Int
  sent : Bytes
  down : Bool

namespace ScriptedSocket

instance : SocketContext ScriptedSocket where
  write ctx data datalen :=
    let n : Int := if ctx.down then 0 else min (ctx.counts.headD 0) datalen.toNat
    (n, { ctx with counts := ctx.counts.tail, sent := ctx.sent ++ data.take n.toNat })
  shutdown ctx := { ctx with down := true }

theorem contract : SocketContract ScriptedSocket.sent (fun ctx => ctx.down = true) where
  count_le ctx data datalen := by
    simp only [SocketContext.write]
    split
    next => exact Int.natCast_nonneg _
    next => exact Int.min_le_right _ _
  sent_write ctx data datalen := rfl
  down_write ctx data datalen hdown := by
    simp only [SocketContext.write, hdown, if_true, Int.le_refl, true_and]
  sent_shutdown ctx := rfl
  down_shutdown ctx := rfl

end ScriptedSocket

end BabelTrader
