import BabelTrader.SendMessage
import Mathlib.Logic.Function.Basic

/-!
# How chains are linked

A chain knows its first and its last codec, and a codec knows the next one and the chain it belongs
to. Encoders and decoders are linked in the same way and apart from each other, so one direction is
described once, for any chains and any codecs, and a run of `Append` calls works on both.
-/

namespace BabelTrader

/-! ### One direction -/

/-- One direction of all chains: the ends of each chain (`encode_head_` and `encode_tail_`, or
`decode_head_` and `decode_tail_`), and `next_` and `chain_` of each codec. -/
structure Links (γ ι : Type) where
  head : γ → Option ι
  tail : γ → Option ι
  next_ : ι → Option ι
  chain_ : ι → Option γ

/-- A codec that calls `Next` once. What it does after that is up to what it did before. -/
structure Codec (σ : Type) where
  before : σ → Bytes → UInt32 → (σ × Bytes × UInt32) × (Bool → σ → Bool × σ)

/-- `Encode` or `Decode` of such a codec, with what it calls as `Next`. -/
def Codec.call {σ : Type} (codec : Codec σ) (next : Sink σ) : Sink σ := fun st data datalen =>
  let b := codec.before st data datalen
  let r := next b.1.1 b.1.2.1 b.1.2.2
  b.2 r.1 r.2

/-- What a call goes through: codecs, and `OnWrite` or `OnRead` of the session. -/
inductive Callee (ι : Type) where
  | codec (i : ι)
  | session
deriving DecidableEq

namespace Links

variable {γ ι σ : Type}

/-- The constructors of chains and codecs. -/
def fresh : Links γ ι := ⟨fun _ => none, fun _ => none, fun _ => none, fun _ => none⟩

/-- `CodecChain::Append`. -/
def append [DecidableEq γ] [DecidableEq ι] (links : Links γ ι) (chain : γ) (codec : ι) :
    Bool × Links γ ι :=
  match links.chain_ codec with
  | some _ => (false, links) -- append to multiple chain is not allowed
  | none =>
      let linked : Links γ ι :=
        match links.tail chain with
        | some last => { links with next_ := Function.update links.next_ last (some codec) }
        | none => { links with head := Function.update links.head chain (some codec) }
      (true,
        { linked with
          tail := Function.update links.tail chain (some codec)
          chain_ := Function.update links.chain_ codec (some chain) })

/-- `Next`, and `CodecChain::Encode` or `Decode`, on the codec that a pointer names: what is called,
in order, and the result. The calls are nested as deep as the codecs are linked, so `depth` bounds
them. -/
def follow (links : Links γ ι) (code : ι → Codec σ) (session : Sink σ) :
    Nat → Option ι → σ → Bytes → UInt32 → Option (List (Callee ι) × Bool × σ)
  | 0, _, _, _, _ => none
  | _ + 1, none, st, data, datalen => some ([.session], session st data datalen)
  | depth + 1, some i, st, data, datalen =>
      let b := (code i).before st data datalen
      match links.follow code session depth (links.next_ i) b.1.1 b.1.2.1 b.1.2.2 with
      | none => none
      | some (callees, ret, st') => some (.codec i :: callees, b.2 ret st')

end Links

/-! ### Both directions -/

/-- A call of `Append` on a chain, with an encoder or a decoder. -/
inductive Append (γ ι δ : Type) where
  | encoder (chain : γ) (e : ι)
  | decoder (chain : γ) (d : δ)

structure CodecLinks (γ ι δ : Type) where
  encode : Links γ ι
  decode : Links γ δ

namespace CodecLinks

variable {γ ι δ : Type}

def fresh : CodecLinks γ ι δ := ⟨.fresh, .fresh⟩

variable [DecidableEq γ] [DecidableEq ι] [DecidableEq δ]

def append (links : CodecLinks γ ι δ) : Append γ ι δ → Bool × CodecLinks γ ι δ
  | .encoder chain e =>
      let r := links.encode.append chain e
      (r.1, { links with encode := r.2 })
  | .decoder chain d =>
      let r := links.decode.append chain d
      (r.1, { links with decode := r.2 })

/-- One `Append` after the other: each of them with what it returned, and the links after them. -/
def appends (calls : List (Append γ ι δ)) : List (Append γ ι δ × Bool) × CodecLinks γ ι δ :=
  calls.foldl
    (fun r call => (r.1 ++ [(call, (r.2.append call).1)], (r.2.append call).2)) ([], fresh)

end CodecLinks

section

variable {γ ι δ : Type} [DecidableEq γ]

/-- The encoders that a chain has accepted, in order. -/
def acceptedEncoders (chain : γ) (history : List (Append γ ι δ × Bool)) : List ι :=
  history.filterMap fun
    | (.encoder c e, true) => if c = chain then some e else none
    | _ => none

/-- The decoders that a chain has accepted, in order. -/
def acceptedDecoders (chain : γ) (history : List (Append γ ι δ × Bool)) : List δ :=
  history.filterMap fun
    | (.decoder c d, true) => if c = chain then some d else none
    | _ => none

end

end BabelTrader
