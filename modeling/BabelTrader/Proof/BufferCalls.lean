import BabelTrader.BufferCalls
import BabelTrader.Proof.Decode
import BabelTrader.Library.Runs
import BabelTrader.MsgToBytesEncoder
import BabelTrader.ScriptedPeer

/-!
# No ignored result is a failure

`Decode` and `ReadBytes` never look at what `Read`, `ReaderMove` and `WriterMove` return. They need
not: the check before them says that so many bytes are there, a length that passes it fits an `int`,
and a handler that writes over its frame does not change how much there is to consume.
-/

namespace BabelTrader

open MachineWord WhileLoop BytesBuffer Runs BytesToMsgDecoder
open BufferCall (Leads InRange Covered)

variable {β ε : Type} [BytesBuffer β]

/-! ### Passes -/

section

variable {host : Host} {d : BytesToMsgDecoder ε} {m : Methods ε} {start s s' : Session β ε}
  {before : List (Session β ε × BufferPass ε)} {rets : List Bool} {p : BufferPass ε} {buf : β}
  {addr : Nat}

theorem pass_of_readPass (h : d.readPass m s = .again s' ∨ d.readPass m s = .leave s') :
    s.pass host m (.read d) = some s' := by
  obtain h | h := h <;> simp only [Session.pass, h]

theorem pass_of_parsePass
    (h : d.parsePass host m s = .again s' ∨ ∃ exit, d.parsePass host m s = .leave (exit, s')) :
    s.pass host m (.parse d) = some s' := by
  obtain h | ⟨exit, h⟩ := h <;> simp only [Session.pass, h]

/-- A history of calls of `Decode` is a run of passes. -/
theorem run_of_calls (h : Calls host d m s rets s') :
    ∃ before, Run (Session.pass host m) s before s' ∧ ∀ p ∈ before, p.2.decoder = d := by
  induction h with
  | none => exact ⟨[], .start, nofun⟩
  | @call rets t u exit _ hdecodes ih =>
      obtain ⟨before, hrun, hall⟩ := ih
      cases hbuf : t.bytesBuf with
      | none =>
          obtain ⟨_, rfl⟩ := Prod.mk.inj ((decodes_noBuffer_iff hbuf).mp hdecodes)
          exact ⟨before, hrun, hall⟩
      | some buf =>
          obtain ⟨top, hread, hparse⟩ := (decodes_iff hbuf).mp hdecodes
          obtain ⟨reads, hreads, hallReads⟩ := hrun.append_loop
            (fun hagain => pass_of_readPass (Or.inl hagain))
            (fun hleave => pass_of_readPass (Or.inr hleave)) hread
          obtain ⟨parses, hparses, hallParses⟩ := hreads.append_loop
            (fun hagain => pass_of_parsePass (Or.inl hagain))
            (fun hleave => pass_of_parsePass (Or.inr ⟨exit, hleave⟩)) hparse
          refine ⟨_, hparses, ?_⟩
          intro p hp
          obtain hp | hp := List.mem_append.mp hp
          · obtain hp | hp := List.mem_append.mp hp
            · exact hall p hp
            · rw [hallReads p hp]
              rfl
          · rw [hallParses p hp]
            rfl

/-! ### What a pass calls -/

/-- The parse loop looks at the header, perhaps at how much there is, and perhaps handles a frame
that is there. -/
theorem pass_parse_cases (hbuf : s.bytesBuf = some buf)
    (hpass : s.pass host m (.parse d) = some s') :
    (s' = s ∧ (s.calls host m (.parse d) = [.fetch buf sizeofMsgHdr]
          ∨ s.calls host m (.parse d) = [.fetch buf sizeofMsgHdr, .readable buf]))
      ∨ (∃ totalBytes, ¬ ofInt (readable buf) < totalBytes
        ∧ s' = (d.handleMessage m s buf totalBytes).2
        ∧ s.calls host m (.parse d)
          = .fetch buf sizeofMsgHdr :: .readable buf :: d.handleCalls m s buf totalBytes) := by
  simp only [Session.calls, parseCalls, hbuf]
  cases hfetch : fetch buf sizeofMsgHdr with
  | none =>
      simp only [Session.pass, parsePass, hbuf, hfetch, Option.some.injEq] at hpass
      exact Or.inl ⟨hpass.symm, Or.inl rfl⟩
  | some bytes =>
      cases hcheck : checkHeader host d.msgLenLimit (MsgHdr.load host bytes) with
      | some why =>
          simp only [Session.pass, parsePass, hbuf, hfetch, hcheck, Option.some.injEq] at hpass
          exact Or.inl ⟨hpass.symm, Or.inl (by simp only [hcheck])⟩
      | none =>
          simp only [Session.pass, parsePass, hbuf, hfetch, hcheck] at hpass
          simp only [hcheck]
          by_cases hmissing : ofInt (readable buf) < (MsgHdr.load host bytes).totalBytes
          · rw [if_pos hmissing, Option.some.injEq] at hpass
            rw [if_pos hmissing]
            exact Or.inl ⟨hpass.symm, Or.inr rfl⟩
          · rw [if_neg hmissing] at hpass
            rw [if_neg hmissing]
            refine Or.inr ⟨_, hmissing, ?_, rfl⟩
            by_cases hret : (d.handleMessage m s buf (MsgHdr.load host bytes).totalBytes).1
            · rw [if_pos hret, Option.some.injEq] at hpass
              exact hpass.symm
            · rw [if_neg hret, Option.some.injEq] at hpass
              exact hpass.symm

theorem pass_read_some (hbuf : s.bytesBuf = some buf)
    (hfc : writerFc buf (toInt d.recvUnitSize) = some addr)
    (hpass : s.pass host m (.read d) = some s') :
    s'.received = s.received ++ (m.read s.env d.recvUnitSize.toNat).1.stored
      ∧ s'.bytesBuf = some (if 0 < (m.read s.env d.recvUnitSize.toNat).1.count then
          (writerMove (poke buf addr (m.read s.env d.recvUnitSize.toNat).1.stored)
            (m.read s.env d.recvUnitSize.toNat).1.count).2
        else buf) := by
  simp only [Session.pass, readPass, hbuf, hfc] at hpass
  split at hpass
  next hagain =>
    split at hagain <;> cases hagain
    cases hpass
    exact ⟨rfl, rfl⟩
  next hleave =>
    split at hleave <;> cases hleave
    cases hpass
    exact ⟨rfl, rfl⟩

/-- `ReadBytes` asks for room, and commits what it has read if that is anything. -/
theorem pass_read_cases (hbuf : s.bytesBuf = some buf)
    (hpass : s.pass host m (.read d) = some s') :
    (s'.bytesBuf = some buf ∧ s.calls host m (.read d) = [.writerFc buf d.recvUnitSize])
      ∨ (∃ addr n bytes, s'.bytesBuf = some (writerMove (poke buf addr bytes) n).2
        ∧ s.calls host m (.read d)
          = [.writerFc buf d.recvUnitSize, .writerMove (poke buf addr bytes) n]
        ∧ writerFc buf (toInt d.recvUnitSize) = some addr
        ∧ bytes.length = n ∧ 0 < n ∧ n ≤ d.recvUnitSize.toNat) := by
  cases hfc : writerFc buf (toInt d.recvUnitSize) with
  | none =>
      simp only [Session.pass, readPass, hbuf, hfc, Option.some.injEq] at hpass
      refine Or.inl ⟨hpass ▸ hbuf, ?_⟩
      simp only [Session.calls, readCalls, hbuf, hfc]
  | some addr =>
      obtain ⟨_, hbuf'⟩ := pass_read_some hbuf hfc hpass
      simp only [Session.calls, readCalls, hbuf, hfc]
      by_cases hpos : 0 < (m.read s.env d.recvUnitSize.toNat).1.count
      · have hcount := ReadResult.count_of_pos hpos
        have hlen := (m.read s.env d.recvUnitSize.toNat).1.length_stored_le
        rw [if_pos hpos] at hbuf'
        rw [if_pos hpos]
        exact Or.inr ⟨addr, _, _, hbuf', rfl, rfl, hcount.symm, hpos, by omega⟩
      · rw [if_neg hpos] at hbuf'
        rw [if_neg hpos]
        exact Or.inl ⟨hbuf', rfl⟩

/-! ### Where the buffer goes -/

theorem BufferCall.Leads.append {b b' b'' : Option β} {calls calls' : List (BufferCall β)}
    (h : Leads b calls b') (h' : Leads b' calls' b'') : Leads b (calls ++ calls') b'' := by
  induction h with
  | stay => exact h'
  | call hfinds _ ih => exact .call hfinds (ih h')

theorem leads_handleCalls (totalBytes : UInt32) :
    Leads (some buf) (d.handleCalls m s buf totalBytes)
      (d.handleMessage m s buf totalBytes).2.bytesBuf := by
  cases hfc : readerFc buf (toInt totalBytes) with
  | none =>
      simp only [handleCalls, handleMessage, hfc]
      exact .call (Or.inl rfl) (.call (Or.inl rfl) (.stay _))
  | some addr =>
      simp only [handleCalls, handleMessage, hfc]
      exact .call (Or.inl rfl) (.call (Or.inr ⟨addr, _, rfl⟩) (.stay _))

theorem leads_pass (hpass : s.pass host m p = some s') :
    Leads s.bytesBuf (s.calls host m p) s'.bytesBuf := by
  cases hbuf : s.bytesBuf with
  | none =>
      cases p with
      | read d =>
          simp only [Session.pass, readPass, hbuf, Option.some.injEq] at hpass
          simp only [Session.calls, readCalls, ← hpass, hbuf]
          exact .stay _
      | parse d =>
          simp only [Session.pass, parsePass, hbuf, Option.some.injEq] at hpass
          simp only [Session.calls, parseCalls, ← hpass, hbuf]
          exact .stay _
  | some buf =>
      cases p with
      | read d =>
          obtain ⟨hbuf', hcalls⟩ | ⟨addr, n, bytes, hbuf', hcalls, _⟩ :=
            pass_read_cases hbuf hpass
          · rw [hbuf', hcalls]
            exact .call (Or.inl rfl) (.stay _)
          · rw [hbuf', hcalls]
            exact .call (Or.inl rfl) (.call (Or.inr ⟨addr, bytes, rfl⟩) (.stay _))
      | parse d =>
          obtain ⟨rfl, hcalls | hcalls⟩ | ⟨totalBytes, _, rfl, hcalls⟩ :=
            pass_parse_cases hbuf hpass
          · rw [hbuf, hcalls]
            exact .call (Or.inl rfl) (.stay _)
          · rw [hbuf, hcalls]
            exact .call (Or.inl rfl) (.call (Or.inl rfl) (.stay _))
          · rw [hcalls]
            exact .call (Or.inl rfl) (.call (Or.inl rfl) (leads_handleCalls totalBytes))

theorem leads_bufferCalls (hrun : Run (Session.pass host m) start before s) :
    Leads start.bytesBuf (bufferCalls host m before) s.bytesBuf := by
  induction hrun with
  | start => exact .stay _
  | step _ hpass ih =>
      rw [bufferCalls, List.flatMap_append, List.flatMap_singleton]
      exact ih.append (leads_pass hpass)

/-! ### Lengths -/

theorem BufferCall.InRange.older {earlier : List (BufferCall β)} {call : BufferCall β}
    (h : call.InRange earlier) (older : List (BufferCall β)) : call.InRange (older ++ earlier) := by
  cases call with
  | writerMove buf n =>
      obtain ⟨buf', recvUnitSize, addr, bytes, hlast, hreserved⟩ := h
      refine ⟨buf', recvUnitSize, addr, bytes, ?_, hreserved⟩
      rw [List.getLast?_append, hlast, Option.some_or]
  | _ => exact h

variable [FifoContract β]

theorem covered_iff {totalBytes : UInt32} :
    Covered buf totalBytes ↔ totalBytes.toNat ≤ (contents buf).length := by
  have hreadable := FifoContract.readable_eq buf
  constructor
  · intro h
    apply Int.ofNat_le.mp
    calc
      (totalBytes.toNat : Int) = toInt totalBytes := h.cast.symm
      _ ≤ readable buf := h.le
      _ = (contents buf).length := hreadable
  · intro h
    have hcast := toInt_of_lt (Nat.lt_of_le_of_lt h (FifoContract.length_lt buf))
    refine ⟨hcast, ?_, ?_⟩
    · rw [hcast]
      exact Int.natCast_nonneg _
    · calc
        toInt totalBytes = totalBytes.toNat := hcast
        _ ≤ (contents buf).length := Int.ofNat_le.mpr h
        _ = readable buf := hreadable.symm

/-- What is in range does not fail, so nothing is lost by not looking. -/
theorem ignored_of_inRange {earlier : List (BufferCall β)} {call : BufferCall β}
    (h : call.InRange earlier) : call.ignored ≠ some false := by
  cases call with
  | writerMove buf n =>
      obtain ⟨buf', recvUnitSize, addr, bytes, _, hcast, hfc, rfl, rfl, _, hle⟩ := h
      rw [hcast] at hfc
      obtain ⟨buf'', hmove, _⟩ := FifoContract.writerMove_eq buf' hfc (Int.ofNat_le.mp hle)
      simp [BufferCall.ignored, hmove]
  | read buf totalBytes =>
      obtain ⟨buf', hread, _⟩ := FifoContract.read_eq buf (covered_iff.mp h)
      simp [BufferCall.ignored, h.cast, hread]
  | readerMove buf totalBytes =>
      obtain ⟨buf', hmove, _⟩ := FifoContract.readerMove_eq buf (covered_iff.mp h)
      simp [BufferCall.ignored, h.cast, hmove]
  | _ => simp [BufferCall.ignored]

theorem readable_inRange (buf : β) {earlier : List (BufferCall β)} :
    (BufferCall.readable buf).InRange earlier := by
  change ((ofInt (readable buf)).toNat : Int) = readable buf
  rw [toNat_ofInt_readable, FifoContract.readable_eq]

/-- What a handler writes over its frame does not change how much there is to consume. -/
theorem throughout_handleCalls {totalBytes : UInt32}
    (hle : totalBytes.toNat ≤ (contents buf).length) :
    Throughout InRange (d.handleCalls m s buf totalBytes) := by
  have hcovered := covered_iff.mpr hle
  rw [handleCalls]
  refine throughout_cons_iff.mpr ⟨hcovered, ?_⟩
  cases hfc : readerFc buf (toInt totalBytes) with
  | none => exact throughout_singleton hcovered
  | some addr =>
      -- between the two calls the handler has had the frame, and may have written over it
      rw [hcovered.cast] at hfc
      have hpeek := FifoContract.peek_readerFc buf hle hfc
      apply throughout_singleton
      apply covered_iff.mpr
      rw [hpeek]
      generalize d.next m s.env ⟨(contents buf).take totalBytes.toNat, totalBytes⟩ = handled
      have hleft : handled.1.left.length = totalBytes.toNat := by
        rw [handled.1.length_left, List.length_take_of_le hle]
      rw [FifoContract.poke_readerFc buf hle hfc hleft, List.length_append, hleft]
      exact Nat.le_add_right _ _

theorem throughout_pass (hunit : p.decoder.recvUnitSize.toNat < 2 ^ 31)
    (hpass : s.pass host m p = some s') : Throughout InRange (s.calls host m p) := by
  cases hbuf : s.bytesBuf with
  | none =>
      cases p with
      | read d =>
          simp only [Session.calls, readCalls, hbuf]
          exact throughout_nil
      | parse d =>
          simp only [Session.calls, parseCalls, hbuf]
          exact throughout_nil
  | some buf =>
      cases p with
      | read d =>
          have hcast := toInt_of_lt hunit
          obtain ⟨_, hcalls⟩ | ⟨addr, n, bytes, _, hcalls, hfc, hlen, hpos, hle⟩ :=
            pass_read_cases hbuf hpass
          · rw [hcalls]
            exact throughout_singleton hcast
          · rw [hcalls]
            refine throughout_cons_iff.mpr ⟨hcast, throughout_singleton ?_⟩
            exact ⟨buf, _, addr, bytes, rfl, hcast, hfc, rfl, hlen, hpos, hle⟩
      | parse d =>
          obtain ⟨_, hcalls | hcalls⟩ | ⟨totalBytes, hthere, _, hcalls⟩ :=
            pass_parse_cases hbuf hpass
          · rw [hcalls]
            exact throughout_singleton rfl
          · rw [hcalls]
            exact throughout_cons_iff.mpr ⟨rfl, throughout_singleton (readable_inRange buf)⟩
          · rw [UInt32.lt_iff_toNat_lt, toNat_ofInt_readable, Nat.not_lt] at hthere
            have hhandle := throughout_handleCalls (d := d) (m := m) (s := s) hthere
            rw [hcalls]
            exact throughout_cons_iff.mpr ⟨rfl, throughout_cons_iff.mpr ⟨readable_inRange buf,
              hhandle.imp fun _ _ h => h.older [.fetch buf sizeofMsgHdr, .readable buf]⟩⟩

/-- **No ignored result is a failure.** In every run: each call of the buffer works on what the call
before it has left, every length is what it was before it was cast, as many bytes as are consumed
can be read, as many as are committed have room, and no result that is not looked at is a failure.
-/
theorem ignored_results_succeed (host : Host) (m : Methods ε) (start s : Session β ε)
    (before : List (Session β ε × BufferPass ε))
    (hunits : ∀ p ∈ before, p.2.decoder.recvUnitSize.toNat < 2 ^ 31)
    (hrun : Run (Session.pass host m) start before s) :
    Leads start.bytesBuf (bufferCalls host m before) s.bytesBuf
      ∧ ∀ earlier call later, bufferCalls host m before = earlier ++ call :: later →
        call.InRange earlier ∧ call.ignored ≠ some false := by
  refine ⟨leads_bufferCalls hrun, ?_⟩
  have hall : Throughout InRange (bufferCalls host m before) := by
    apply throughout_flatMap
    · exact fun older _ _ h => h.older older
    · intro p hp
      obtain ⟨_, hpass⟩ := hrun.exists_step hp
      exact throughout_pass (hunits p hp) hpass
  intro earlier call later hsplit
  have hcall := hall earlier call later hsplit
  exact ⟨hcall, ignored_of_inRange hcall⟩

end

/-- A frame of 20 bytes that comes in two reads: two commits and one consumption. -/
theorem ignored_results_succeed_twoReads :
    let m := ScriptedPeer.methods fun _ => true
    let start := ScriptedPeer.connect
      ⟨(encoded Host.little (newStackMsg Host.little 3 4)).data, [16, 4]⟩ 64 (by decide)
    ∃ before s, Run (Session.pass Host.little m) start before s
      ∧ (bufferCalls Host.little m before).filterMap BufferCall.ignored = [true, true, true]
      ∧ Leads start.bytesBuf (bufferCalls Host.little m before) s.bytesBuf
      ∧ ∀ earlier call later, bufferCalls Host.little m before = earlier ++ call :: later →
        call.InRange earlier ∧ call.ignored ≠ some false := by
  intro m start
  let d := ScriptedPeer.decoder 16 64
  have heval : (exec (Session.pass Host.little m) start
        [.read d, .read d, .parse d, .parse d]).map (fun r =>
          (r.1.all fun p => decide (p.2.decoder.recvUnitSize.toNat < 2 ^ 31),
            (bufferCalls Host.little m r.1).filterMap BufferCall.ignored))
      = some (true, [true, true, true]) := by decide +kernel
  obtain ⟨⟨before, s⟩, hexec, hr⟩ := Option.map_eq_some_iff.mp heval
  obtain ⟨hunits, hignored⟩ := Prod.mk.inj hr
  have hrun := run_of_exec hexec
  refine ⟨before, s, hrun, hignored, ignored_results_succeed Host.little m start s before ?_ hrun⟩
  exact fun p hp => of_decide_eq_true (List.all_eq_true.mp hunits p hp)

end BabelTrader
