import BabelTrader.Proof.Passes
import BabelTrader.RingBuffer
import BabelTrader.ScriptedPeer

/-!
# Receive units beyond an `int`

The receive unit is a `uint32_t`. `Read` is given it as it is, but `WriterFc` and the comparison
that ends the loop of `ReadBytes` get it as an `int`. From 2^31 on that `int` is negative:
`WriterFc` finds room for it in every buffer, and only an error of the socket is less than it.
-/

namespace BabelTrader

open MachineWord WhileLoop BytesBuffer BytesToMsgDecoder

variable {β ε : Type} [BytesBuffer β]

/-- **What was promised.** No `Read` is given more than the free run it may fill, and the loop ends:
after a bounded number of passes, each with at most one `Read`, and in any case after a `Read` that
gives nothing. -/
structure ReadsSafely [FreeSpace β] (d : BytesToMsgDecoder ε) (m : Methods ε) (s : Session β ε)
    (buf : β) : Prop where
  room : ∀ t buf' addr, Tops (d.readPass m) s t → t.bytesBuf = some buf' →
    writerFc buf' (toInt d.recvUnitSize) = some addr →
      d.recvUnitSize.toNat ≤ FreeSpace.runAt buf' addr
  ends : ∃ r, d.readBytes m (FreeSpace.free buf / d.recvUnitSize.toNat + 1) s = some r
  stops : ∀ t, Tops (d.readPass m) s t → (m.read t.env d.recvUnitSize.toNat).1.count ≤ 0 →
    ∃ t', d.readPass m t = .leave t'

variable {d : BytesToMsgDecoder ε} {m : Methods ε} {s s' : Session β ε} {buf : β}

theorem readPass_again_inv (hbuf : s.bytesBuf = some buf) (hagain : d.readPass m s = .again s') :
    ∃ addr, writerFc buf (toInt d.recvUnitSize) = some addr
      ∧ toInt d.recvUnitSize ≤ (m.read s.env d.recvUnitSize.toNat).1.count
      ∧ s'.bytesBuf = some (if 0 < (m.read s.env d.recvUnitSize.toNat).1.count then
          (writerMove (poke buf addr (m.read s.env d.recvUnitSize.toNat).1.stored)
            (m.read s.env d.recvUnitSize.toNat).1.count).2
        else buf) := by
  cases hfc : writerFc buf (toInt d.recvUnitSize) with
  | none =>
      simp only [readPass, hbuf, hfc] at hagain
      cases hagain
  | some addr =>
      simp only [readPass, hbuf, hfc] at hagain
      split at hagain <;> cases hagain
      exact ⟨addr, rfl, by omega, rfl⟩

/-! ### Units that are an `int` -/

section

variable [FreeSpace β]

theorem free_of_again (hunit : d.recvUnitSize.toNat < 2 ^ 31) (hbuf : s.bytesBuf = some buf)
    (hagain : d.readPass m s = .again s') :
    ∃ buf', s'.bytesBuf = some buf'
      ∧ FreeSpace.free buf' + d.recvUnitSize.toNat ≤ FreeSpace.free buf := by
  have hpos := d.recvUnitSize_pos
  obtain ⟨addr, hfc, hcount, hbuf'⟩ := readPass_again_inv hbuf hagain
  rw [toInt_of_lt hunit] at hfc hcount
  have hlen := (m.read s.env d.recvUnitSize.toNat).1.length_stored_le
  have hstored := ReadResult.count_of_pos
    (show 0 < (m.read s.env d.recvUnitSize.toNat).1.count by omega)
  rw [if_pos (by omega), hstored] at hbuf'
  have hfree := FreeSpace.free_writerMove buf hfc (Int.ofNat_le.mpr hlen)
  refine ⟨_, hbuf', ?_⟩
  omega

theorem readBytes_ends (hunit : d.recvUnitSize.toNat < 2 ^ 31) (hbuf : s.bytesBuf = some buf) :
    ∃ r, d.readBytes m (FreeSpace.free buf / d.recvUnitSize.toNat + 1) s = some r := by
  have hpos := d.recvUnitSize_pos
  have hrun : ∃ t, run (d.readPass m) (FreeSpace.free buf / d.recvUnitSize.toNat + 1) s
      = some t := by
    refine run_of_measure (fun t => t.bytesBuf.elim 0 FreeSpace.free / d.recvUnitSize.toNat)
      (I := fun t => ∃ buf, t.bytesBuf = some buf) ⟨buf, hbuf⟩ ?_ ?_
    · -- a pass that goes on has used up a whole unit
      rintro t u ⟨buf, hbuf⟩ hagain
      obtain ⟨buf', hbuf', hfree⟩ := free_of_again hunit hbuf hagain
      refine ⟨⟨buf', hbuf'⟩, ?_⟩
      simp only [hbuf, hbuf', Option.elim_some]
      calc FreeSpace.free buf' / d.recvUnitSize.toNat
          < FreeSpace.free buf' / d.recvUnitSize.toNat + 1 := Nat.lt_succ_self _
        _ = (FreeSpace.free buf' + d.recvUnitSize.toNat) / d.recvUnitSize.toNat :=
            (Nat.add_div_right _ hpos).symm
        _ ≤ FreeSpace.free buf / d.recvUnitSize.toNat := Nat.div_le_div_right hfree
    · simp only [hbuf, Option.elim_some]
      exact Nat.lt_succ_self _
  obtain ⟨t, hrun⟩ := hrun
  exact ⟨(true, t), by simp only [readBytes, hbuf, hrun, Option.map_some]⟩

omit [FreeSpace β] in
theorem readPass_stops (hunit : d.recvUnitSize.toNat < 2 ^ 31)
    (hcount : (m.read s.env d.recvUnitSize.toNat).1.count ≤ 0) :
    ∃ s', d.readPass m s = .leave s' := by
  have hpos := d.recvUnitSize_pos
  cases hpass : d.readPass m s with
  | leave s' => exact ⟨s', rfl⟩
  | again s' =>
      cases hbuf : s.bytesBuf with
      | none =>
          simp only [readPass, hbuf] at hpass
          cases hpass
      | some buf =>
          obtain ⟨_, _, hle, _⟩ := readPass_again_inv hbuf hpass
          rw [toInt_of_lt hunit] at hle
          omega

end

/-! ### Units that are not -/

theorem readPass_again_of_huge (hhuge : 2 ^ 31 ≤ d.recvUnitSize.toNat) {addr : Nat}
    (hbuf : s.bytesBuf = some buf) (hfc : writerFc buf (toInt d.recvUnitSize) = some addr)
    (hcount : 0 ≤ (m.read s.env d.recvUnitSize.toNat).1.count) :
    ∃ s' buf', d.readPass m s = .again s' ∧ s'.bytesBuf = some buf' := by
  have hneg := toInt_neg_iff.mpr hhuge
  simp only [readPass, hbuf, hfc]
  rw [if_neg (by omega)]
  exact ⟨_, _, rfl, rfl⟩

variable [FreeSpace β]

theorem writerFc_of_neg (buf : β) {k : Int} (h : k < 0) : ∃ addr, writerFc buf k = some addr := by
  cases hfc : writerFc buf k with
  | some addr => exact ⟨addr, rfl⟩
  | none =>
      have hrun := (FreeSpace.writerFc_none_iff buf k).mp hfc 0
      omega

/-- A socket that reports no error keeps `ReadBytes` from returning. -/
theorem not_ends_of_huge (hhuge : 2 ^ 31 ≤ d.recvUnitSize.toNat) (hbuf : s.bytesBuf = some buf)
    (hcount : ∀ env, 0 ≤ (m.read env d.recvUnitSize.toNat).1.count) :
    ¬ Ends (d.readPass m) s s' := by
  apply not_ends_of_invariant (I := fun t => ∃ buf, t.bytesBuf = some buf) ⟨buf, hbuf⟩
  rintro t ⟨buf, hbuf⟩
  obtain ⟨addr, hfc⟩ := writerFc_of_neg buf (toInt_neg_iff.mpr hhuge)
  obtain ⟨u, buf', hagain, hbuf'⟩ := readPass_again_of_huge hhuge hbuf hfc (hcount t.env)
  exact ⟨u, hagain, buf', hbuf'⟩

/-- **When `ReadBytes` is safe.** With every session method, from every buffer state: iff the
receive unit is an `int`. -/
theorem reads_safe_iff (d : BytesToMsgDecoder ε) (m : Methods ε) (s : Session β ε) (buf : β)
    (hbuf : s.bytesBuf = some buf) :
    ReadsSafely d m s buf ↔ d.recvUnitSize.toNat < 2 ^ 31 := by
  constructor
  · intro hsafe
    by_contra hhuge
    obtain ⟨addr, hfc⟩ :=
      writerFc_of_neg buf (toInt_neg_iff.mpr (Nat.not_lt.mp hhuge))
    have hroom := hsafe.room s buf addr .start hbuf hfc
    have hle := FreeSpace.runAt_le buf addr
    have hlt := FreeSpace.free_lt buf
    omega
  · intro hunit
    refine ⟨?_, readBytes_ends hunit hbuf, fun t _ => readPass_stops hunit⟩
    intro t buf' addr _ _ hfc
    rw [toInt_of_lt hunit] at hfc
    exact Int.ofNat_le.mp (FreeSpace.le_runAt buf' hfc)

theorem reads_safe_iff_ring :
    let d := ScriptedPeer.decoder 16 64
    let m := ScriptedPeer.methods fun _ => true
    let buf := RingBuffer.init 64 (by decide)
    ReadsSafely d m (Session.init buf ⟨List.replicate 40 0, [16, 16, 8]⟩) buf := by
  intro d m buf
  exact (reads_safe_iff d m _ buf rfl).mpr (by decide)

theorem ScriptedPeer.count_nonneg (peer : ScriptedPeer) (len : Nat) :
    0 ≤ (peer.read len).1.count := by
  rw [read]
  split
  next => exact Int.le_refl 0
  next =>
    dsimp only
    split
    next => exact Int.natCast_nonneg _
    next => exact Int.le_refl 0

/-- With a unit of 2^31 bytes, 64 free ones are taken for enough, and the end of the stream does not
end the loop. -/
theorem huge_unit_overruns :
    let d := ScriptedPeer.decoder 0x80000000 64
    let m := ScriptedPeer.methods fun _ => true
    let buf := RingBuffer.init 64 (by decide)
    let s : Session (RingBuffer 64) ScriptedPeer := Session.init buf ⟨[], []⟩
    writerFc buf (toInt d.recvUnitSize) = some 0 ∧ FreeSpace.runAt buf 0 = 64
      ∧ ¬ ReadsSafely d m s buf ∧ ∀ t, ¬ Ends (d.readPass m) s t := by
  intro d m buf s
  have hfc : writerFc buf (toInt d.recvUnitSize) = some 0 := by decide
  have hrun : FreeSpace.runAt buf 0 = 64 := by decide
  refine ⟨hfc, hrun, ?_, fun t => ?_⟩
  · intro hsafe
    have hroom := hsafe.room s buf 0 .start rfl hfc
    rw [hrun] at hroom
    exact absurd hroom (by decide)
  · exact not_ends_of_huge (by decide) rfl fun env => env.count_nonneg _

end BabelTrader
