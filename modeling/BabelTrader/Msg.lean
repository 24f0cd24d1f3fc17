import BabelTrader.Library.MachineWord
import Mathlib.Data.Fin.VecNotation

/-!
# Messages

A message is a 16-byte header followed by its payload, packed, with the two integers of the header
in the byte order of the machine that wrote it.
-/

namespace BabelTrader

open MachineWord

abbrev Bytes := List UInt8

/-- What the build fixes about a machine: the byte order of its integers, and `MUGGLE_ENDIANNESS`,
the `char` that both codecs use to tell byte orders apart. -/
structure Host where
  byteOrder : ByteOrder
  muggleEndianness : UInt8

/-- A machine that stores the low byte first. -/
def Host.little : Host := ⟨.little, 1⟩

/-- `BABELTRADER_CPP_MSG_HDR_MAGIC_WORD`, `"BBTR"`. -/
def magicWord : Fin 4 → UInt8 := ![0x42, 0x42, 0x54, 0x52]

/-- `BABELTRADER_CPP_PROTOCOL_VERSION`. -/
def protocolVersion : UInt8 := 1

/-- `BABELTRADER_CPP_MSG_HDR_FLAG_ENDIAN`, and below it the other three indices into the flags. -/
def flagEndian : Fin 4 := ⟨0, by decide⟩

def flagVer : Fin 4 := ⟨1, by decide⟩

def flagReversed1 : Fin 4 := ⟨2, by decide⟩

def flagReversed2 : Fin 4 := ⟨3, by decide⟩

/-- `msg_hdr_t`. -/
structure MsgHdr where
  magic : Fin 4 → UInt8
  flags : Fin 4 → UInt8
  msgId : UInt32
  payloadLen : UInt32

/-- `sizeof(msg_hdr_t)`. -/
def sizeofMsgHdr : Nat := 16

def bytesAt (bytes : Bytes) (offset : Nat) : Fin 4 → UInt8 := fun i => bytes.getD (offset + i) 0

namespace MsgHdr

/-- The header that a machine sees at the front of `bytes`. -/
def load (host : Host) (bytes : Bytes) : MsgHdr where
  magic := bytesAt bytes 0
  flags := bytesAt bytes 4
  msgId := load32 host.byteOrder (bytesAt bytes 8)
  payloadLen := load32 host.byteOrder (bytesAt bytes 12)

def store (host : Host) (hdr : MsgHdr) : Bytes :=
  List.ofFn hdr.magic ++ (List.ofFn hdr.flags ++ (List.ofFn (store32 host.byteOrder hdr.msgId)
    ++ List.ofFn (store32 host.byteOrder hdr.payloadLen)))

end MsgHdr

/-- `BABELTRADER_CPP_NEW_STACK_MSG`: a message of `size` payload bytes, all zero but its id. -/
def newStackMsg (host : Host) (msgId : UInt32) (size : Nat) : Bytes :=
  MsgHdr.store host ⟨fun _ => 0, fun _ => 0, msgId, 0⟩ ++ List.replicate size 0

/-! ### Headers and their bytes -/

theorem bytesAt_append {xs : Bytes} (ys : Bytes) {offset : Nat} (h : offset + 4 ≤ xs.length) :
    bytesAt (xs ++ ys) offset = bytesAt xs offset := by
  funext i
  have hi := i.isLt
  simp only [bytesAt, List.getD_eq_getElem?_getD]
  rw [List.getElem?_append_left (by omega)]

theorem bytesAt_ofFn (f : Fin 4 → UInt8) (rest : Bytes) : bytesAt (List.ofFn f ++ rest) 0 = f := by
  rw [bytesAt_append _ (by rw [List.length_ofFn])]
  funext i
  have hi := i.isLt
  simp only [bytesAt, List.getD_eq_getElem?_getD, Nat.zero_add, List.getElem?_ofFn, dif_pos hi,
    Option.getD_some, Fin.eta]

theorem bytesAt_ofFn_skip (f : Fin 4 → UInt8) (rest : Bytes) (offset : Nat) :
    bytesAt (List.ofFn f ++ rest) (offset + 4) = bytesAt rest offset := by
  funext i
  simp only [bytesAt, List.getD_eq_getElem?_getD]
  rw [List.getElem?_append_right (by rw [List.length_ofFn]; omega), List.length_ofFn,
    show offset + 4 + i.val - 4 = offset + i.val by omega]

theorem ofFn_bytesAt {bytes : Bytes} {offset : Nat} (h : offset + 4 ≤ bytes.length) :
    List.ofFn (bytesAt bytes offset) = (bytes.drop offset).take 4 := by
  apply List.ext_getElem
  · simp only [List.length_ofFn, List.length_take, List.length_drop]
    omega
  · intro i hi _
    rw [List.length_ofFn] at hi
    have hlt : offset + i < bytes.length := by omega
    simp only [List.getElem_ofFn, List.getElem_take, List.getElem_drop, bytesAt,
      List.getD_eq_getElem?_getD, List.getElem?_eq_getElem hlt, Option.getD_some]

namespace MsgHdr

variable (host : Host)

@[simp]
theorem store_length (hdr : MsgHdr) : (hdr.store host).length = sizeofMsgHdr := by
  simp [store, sizeofMsgHdr]

@[simp]
theorem load_store (hdr : MsgHdr) (rest : Bytes) : load host (hdr.store host ++ rest) = hdr := by
  obtain ⟨magic, flags, msgId, payloadLen⟩ := hdr
  have hflags (f₀ f₁ : Fin 4 → UInt8) (ys : Bytes) :
      bytesAt (List.ofFn f₀ ++ (List.ofFn f₁ ++ ys)) 4 = f₁ := by
    rw [bytesAt_ofFn_skip _ _ 0, bytesAt_ofFn]
  have hmsgId (f₀ f₁ f₂ : Fin 4 → UInt8) (ys : Bytes) :
      bytesAt (List.ofFn f₀ ++ (List.ofFn f₁ ++ (List.ofFn f₂ ++ ys))) 8 = f₂ := by
    rw [bytesAt_ofFn_skip _ _ 4, hflags]
  have hpayloadLen (f₀ f₁ f₂ f₃ : Fin 4 → UInt8) (ys : Bytes) :
      bytesAt (List.ofFn f₀ ++ (List.ofFn f₁ ++ (List.ofFn f₂ ++ (List.ofFn f₃ ++ ys)))) 12
        = f₃ := by
    rw [bytesAt_ofFn_skip _ _ 8, hmsgId]
  simp only [load, store, List.append_assoc, bytesAt_ofFn, hflags, hmsgId, hpayloadLen,
    load32_store32]

theorem load_append {xs : Bytes} (ys : Bytes) (h : sizeofMsgHdr ≤ xs.length) :
    load host (xs ++ ys) = load host xs := by
  rw [sizeofMsgHdr] at h
  simp only [load, bytesAt_append ys (show 0 + 4 ≤ xs.length by omega),
    bytesAt_append ys (show 4 + 4 ≤ xs.length by omega),
    bytesAt_append ys (show 8 + 4 ≤ xs.length by omega),
    bytesAt_append ys (show 12 + 4 ≤ xs.length by omega)]

theorem load_take {bytes : Bytes} {n : Nat} (h : sizeofMsgHdr ≤ n) (hn : n ≤ bytes.length) :
    load host (bytes.take n) = load host bytes := by
  have hlen : (bytes.take n).length = n := List.length_take_of_le hn
  conv_rhs => rw [← List.take_append_drop n bytes]
  exact (load_append host _ (by rwa [hlen])).symm

theorem store_load {bytes : Bytes} (h : sizeofMsgHdr ≤ bytes.length) :
    (load host bytes).store host = bytes.take sizeofMsgHdr := by
  rw [sizeofMsgHdr] at h ⊢
  have hsplit : bytes.take 16 = bytes.take 4 ++ ((bytes.drop 4).take 4
      ++ ((bytes.drop 8).take 4 ++ (bytes.drop 12).take 4)) := by
    rw [show 16 = 4 + (4 + (4 + 4)) from rfl, List.take_add, List.take_add, List.take_add]
    simp only [List.drop_drop]
  simp only [store, load, store32_load32]
  rw [ofFn_bytesAt (by omega), ofFn_bytesAt (by omega), ofFn_bytesAt (by omega),
    ofFn_bytesAt (by omega), hsplit, List.drop_zero]

end MsgHdr

end BabelTrader
