import BabelTrader.Proof.BufferCalls
import BabelTrader.RingBuffer
import BabelTrader.ScriptedPeer
import BabelTrader.Proof.RoundTrip

/-!
# Short reads near the end of a ring

`ReadBytes` reserves a receive unit and commits what it has read, and each of the two calls chooses
a run for its own length. They choose differently when the unit does not fit at the writer but the
bytes that were read do: then the bytes lie at the start of the array, and what becomes readable is
whatever was left behind at the writer.
-/

namespace BabelTrader

open MachineWord WhileLoop BytesBuffer Runs BytesToMsgDecoder

/-! ### One read -/

/-- The unit only fits at the start of the array, the bytes that were read fit at the writer, and
they are not what lies there anyway. -/
structure Misplaced {β : Type} [BytesBuffer β] [RingGeometry β] (buf : β) (recvUnitSize : Nat)
    (data : Bytes) : Prop where
  full : (RingGeometry.positions buf).atWriter < recvUnitSize
  ahead : (RingGeometry.positions buf).reader ≤ (RingGeometry.positions buf).writer
  room : recvUnitSize ≤ (RingGeometry.positions buf).atStart
  nonempty : 0 < data.length
  short : data.length ≤ (RingGeometry.positions buf).atWriter
  stale : peek buf (RingGeometry.positions buf).writer data.length ≠ data

section

variable {β : Type} [BytesBuffer β] [RingGeometry β] {buf : β} {recvUnitSize addr : Nat}
  {data : Bytes}

theorem Misplaced.place (h : Misplaced buf recvUnitSize data) :
    (RingGeometry.positions buf).place recvUnitSize = some 0 := by
  have hfull := h.full
  exact RingPositions.place_start (by omega) h.ahead (Int.ofNat_le.mpr h.room)

/-- **What one read makes readable.** -/
theorem writerMove_poke (hfc : writerFc buf recvUnitSize = some addr)
    (hlen : data.length ≤ recvUnitSize) (hpos : 0 < data.length) :
    ∃ buf' made, writerMove (poke buf addr data) data.length = (true, buf')
      ∧ contents buf' = contents buf ++ made ∧ made.length = data.length
      ∧ (made = data ↔ ¬ Misplaced buf recvUnitSize data) := by
  rw [RingGeometry.writerFc_eq] at hfc
  have hle : (data.length : Int) ≤ recvUnitSize := Int.ofNat_le.mpr hlen
  have hpositions := RingGeometry.positions_poke buf hfc hle
  obtain ⟨addr', hplace⟩ := RingPositions.place_shorter hfc hle
  rw [← hpositions] at hplace
  obtain ⟨buf', hmove, hcontents⟩ := RingGeometry.writerMove_eq _ hplace
  rw [RingGeometry.contents_poke buf hfc hle] at hcontents
  refine ⟨buf', _, hmove, hcontents, RingGeometry.length_peek _ hplace, ?_⟩
  rw [hpositions] at hplace
  have hsame := RingGeometry.peek_poke buf hfc hle
  obtain ⟨rfl, hroom⟩ | ⟨rfl, hfull, hahead, hroom⟩ := RingPositions.place_cases hfc
  · -- the unit fits at the writer, and so do the bytes
    rw [RingPositions.place_writer (by omega)] at hplace
    obtain rfl := Option.some.inj hplace
    exact iff_of_true hsame fun h => absurd h.full (by omega)
  · by_cases hshort : (data.length : Int) ≤ (RingGeometry.positions buf).atWriter
    · rw [RingPositions.place_writer hshort] at hplace
      obtain rfl := Option.some.inj hplace
      have hstart := RingGeometry.atStart_le buf
      rw [RingGeometry.peek_poke_after buf hfc hle (by omega)]
      constructor
      · intro heq h
        exact h.stale heq
      · intro h
        by_contra hstale
        exact h ⟨by omega, hahead, by omega, hpos, by omega, hstale⟩
    · rw [RingPositions.place_start hshort hahead (by omega)] at hplace
      obtain rfl := Option.some.inj hplace
      exact iff_of_true hsame fun h => hshort (Int.ofNat_le.mpr h.short)

end

/-! ### Runs -/

section

variable {β ε : Type} [BytesBuffer β] {host : Host} {d : BytesToMsgDecoder ε} {m : Methods ε}
  {start s s' : Session β ε} {before : List (Session β ε × BufferPass ε)} {buf : β} {addr : Nat}

/-- The bytes that a pass makes readable. -/
def Session.madeReadable (host : Host) (m : Methods ε) (s : Session β ε) : BufferPass ε → Bytes
  | .read d =>
      match s.pass host m (.read d) with
      | none => []
      | some s' => s'.unread.drop s.unread.length
  | .parse _ => []

/-- What was promised of a read: `WriterMove` makes the very bytes readable that `Read` has stored
where `WriterFc` said. -/
def Session.Commits (m : Methods ε) (s : Session β ε) : BufferPass ε → Prop
  | .read d =>
      ∀ buf addr, s.bytesBuf = some buf → writerFc buf (toInt d.recvUnitSize) = some addr →
        0 < (m.read s.env d.recvUnitSize.toNat).1.count →
          ∃ buf', writerMove (poke buf addr (m.read s.env d.recvUnitSize.toNat).1.stored)
              (m.read s.env d.recvUnitSize.toNat).1.count = (true, buf')
            ∧ contents buf' = contents buf ++ (m.read s.env d.recvUnitSize.toNat).1.stored
  | .parse _ => True

def Session.Misplaces [RingGeometry β] (m : Methods ε) (s : Session β ε) : BufferPass ε → Prop
  | .read d =>
      ∃ buf, s.bytesBuf = some buf
        ∧ Misplaced buf d.recvUnitSize.toNat (m.read s.env d.recvUnitSize.toNat).1.stored
  | .parse _ => False

theorem handleMessage_received (buf : β) (totalBytes : UInt32) :
    (d.handleMessage m s buf totalBytes).2.received = s.received := by
  rw [handleMessage]
  split <;> rfl

theorem pass_parse_received (hpass : s.pass host m (.parse d) = some s') :
    s'.received = s.received := by
  cases hbuf : s.bytesBuf with
  | none =>
      simp only [Session.pass, parsePass, hbuf, Option.some.injEq] at hpass
      rw [hpass]
  | some buf =>
      obtain ⟨rfl, _⟩ | ⟨totalBytes, _, rfl, _⟩ := pass_parse_cases hbuf hpass
      · rfl
      · exact handleMessage_received buf totalBytes

theorem commits_read_iff (hbuf : s.bytesBuf = some buf)
    (hfc : writerFc buf (toInt d.recvUnitSize) = some addr) :
    s.Commits m (.read d) ↔ (0 < (m.read s.env d.recvUnitSize.toNat).1.count →
      ∃ buf', writerMove (poke buf addr (m.read s.env d.recvUnitSize.toNat).1.stored)
          (m.read s.env d.recvUnitSize.toNat).1.count = (true, buf')
        ∧ contents buf' = contents buf ++ (m.read s.env d.recvUnitSize.toNat).1.stored) := by
  constructor
  · exact fun h => h buf addr hbuf hfc
  · intro h buf' addr' hbuf' hfc'
    obtain rfl := Option.some.inj (hbuf.symm.trans hbuf')
    obtain rfl := Option.some.inj (hfc.symm.trans hfc')
    exact h

variable (host) in
theorem madeReadable_of_commits (h : s.Commits m (.read d))
    (hbuf : s.bytesBuf = some buf) (hfc : writerFc buf (toInt d.recvUnitSize) = some addr) :
    s.madeReadable host m (.read d) = (m.read s.env d.recvUnitSize.toNat).1.stored := by
  have hunread : s.unread = contents buf := by simp only [Session.unread, hbuf]
  cases hpass : s.pass host m (.read d) with
  | none =>
      simp only [Session.pass] at hpass
      split at hpass <;> cases hpass
  | some s' =>
      obtain ⟨_, hbuf'⟩ := pass_read_some hbuf hfc hpass
      simp only [Session.madeReadable, hpass]
      by_cases hpos : 0 < (m.read s.env d.recvUnitSize.toNat).1.count
      · obtain ⟨buf', hmove, hcontents⟩ := (commits_read_iff hbuf hfc).mp h hpos
        rw [if_pos hpos, hmove] at hbuf'
        have hunread' : s'.unread = contents buf' := by simp only [Session.unread, hbuf']
        rw [hunread', hcontents, hunread, List.drop_left]
      · rw [if_neg hpos, ← hbuf] at hbuf'
        have hunread' : s'.unread = s.unread := by simp only [Session.unread, hbuf']
        rw [hunread', List.drop_length, ReadResult.stored_of_count_nonpos (Int.not_lt.mp hpos)]

variable [RingGeometry β]

/-- As many bytes become readable in a pass as are received in it, and they are the same bytes, and
committed by the book, unless they are misplaced. -/
def Session.Accounts (host : Host) (m : Methods ε) (s : Session β ε) (p : BufferPass ε)
    (s' : Session β ε) : Prop :=
  ∃ data, s'.received = s.received ++ data ∧ data.length = (s.madeReadable host m p).length
    ∧ (data = s.madeReadable host m p ↔ ¬ s.Misplaces m p)
    ∧ (s.Commits m p ↔ ¬ s.Misplaces m p)

theorem accounts_idle {p : BufferPass ε} (hreceived : s'.received = s.received)
    (hmade : s.madeReadable host m p = []) (hcommits : s.Commits m p)
    (hplaced : ¬ s.Misplaces m p) : s.Accounts host m p s' := by
  refine ⟨[], by rw [hreceived, List.append_nil], by rw [hmade], ?_, iff_of_true hcommits hplaced⟩
  exact iff_of_true hmade.symm hplaced

theorem misplaces_read_iff (hbuf : s.bytesBuf = some buf) :
    s.Misplaces m (.read d)
      ↔ Misplaced buf d.recvUnitSize.toNat (m.read s.env d.recvUnitSize.toNat).1.stored := by
  simp only [Session.Misplaces, hbuf, Option.some.injEq, exists_eq_left']

/-- A read that gives something. -/
theorem accounts_given (hunit : d.recvUnitSize.toNat < 2 ^ 31) (hbuf : s.bytesBuf = some buf)
    (hfc : writerFc buf (toInt d.recvUnitSize) = some addr)
    (hpos : 0 < (m.read s.env d.recvUnitSize.toNat).1.count)
    (hpass : s.pass host m (.read d) = some s') : s.Accounts host m (.read d) s' := by
  have hcount := ReadResult.count_of_pos hpos
  have hlen := (m.read s.env d.recvUnitSize.toNat).1.length_stored_le
  have hfc' := hfc
  rw [toInt_of_lt hunit] at hfc'
  obtain ⟨buf', made, hmove, hcontents, hmadeLen, hiff⟩ := writerMove_poke hfc' hlen (by omega)
  obtain ⟨hreceived, hbuf'⟩ := pass_read_some hbuf hfc hpass
  rw [if_pos hpos, hcount, hmove] at hbuf'
  have hunread : s.unread = contents buf := by simp only [Session.unread, hbuf]
  have hunread' : s'.unread = contents buf' := by simp only [Session.unread, hbuf']
  have hmade : s.madeReadable host m (.read d) = made := by
    simp only [Session.madeReadable, hpass]
    rw [hunread', hunread, hcontents, List.drop_left]
  refine ⟨_, hreceived, by rw [hmade, hmadeLen], ?_, ?_⟩
  · rw [hmade, misplaces_read_iff hbuf, eq_comm, hiff]
  · rw [commits_read_iff hbuf hfc, misplaces_read_iff hbuf, ← hiff, hcount, hmove]
    constructor
    · intro hcommits
      obtain ⟨buf'', heq, hcontents'⟩ := hcommits (hcount ▸ hpos)
      cases heq
      rw [hcontents] at hcontents'
      exact List.append_cancel_left hcontents'
    · rintro heq -
      exact ⟨buf', rfl, by rw [hcontents, heq]⟩

theorem accounts_read (hunit : d.recvUnitSize.toNat < 2 ^ 31)
    (hpass : s.pass host m (.read d) = some s') : s.Accounts host m (.read d) s' := by
  have hidle (hunread : s'.unread = s.unread) : s.madeReadable host m (.read d) = [] := by
    simp only [Session.madeReadable, hpass]
    rw [hunread, List.drop_length]
  cases hbuf : s.bytesBuf with
  | none =>
      simp only [Session.pass, readPass, hbuf, Option.some.injEq] at hpass
      refine accounts_idle (by rw [hpass]) (hidle (by rw [hpass])) ?_ ?_
      · intro buf addr hsome
        rw [hbuf] at hsome
        cases hsome
      · rintro ⟨buf, hsome, _⟩
        rw [hbuf] at hsome
        cases hsome
  | some buf =>
      cases hfc : writerFc buf (toInt d.recvUnitSize) with
      | none =>
          simp only [Session.pass, readPass, hbuf, hfc, Option.some.injEq] at hpass
          refine accounts_idle (by rw [hpass]) (hidle (by rw [hpass])) ?_ ?_
          · intro buf' addr hsome hfc'
            obtain rfl := Option.some.inj (hbuf.symm.trans hsome)
            rw [hfc] at hfc'
            cases hfc'
          · rw [misplaces_read_iff hbuf]
            intro hmisplaced
            rw [toInt_of_lt hunit, RingGeometry.writerFc_eq, hmisplaced.place] at hfc
            cases hfc
      | some addr =>
          by_cases hpos : 0 < (m.read s.env d.recvUnitSize.toNat).1.count
          · exact accounts_given hunit hbuf hfc hpos hpass
          · have hstored := ReadResult.stored_of_count_nonpos (Int.not_lt.mp hpos)
            obtain ⟨hreceived, hbuf'⟩ := pass_read_some hbuf hfc hpass
            rw [hstored, List.append_nil] at hreceived
            rw [if_neg hpos, ← hbuf] at hbuf'
            refine accounts_idle hreceived (hidle (by simp only [Session.unread, hbuf'])) ?_ ?_
            · exact (commits_read_iff hbuf hfc).mpr fun hpos' => absurd hpos' hpos
            · rw [misplaces_read_iff hbuf, hstored]
              exact fun hmisplaced => absurd hmisplaced.nonempty (Nat.lt_irrefl 0)

theorem accounts {p : BufferPass ε} (hunit : p.decoder.recvUnitSize.toNat < 2 ^ 31)
    (hpass : s.pass host m p = some s') : s.Accounts host m p s' := by
  cases p with
  | read d => exact accounts_read hunit hpass
  | parse d => exact accounts_idle (pass_parse_received hpass) rfl trivial id

/-- **When short reads are right.** In every run: each read commits the bytes that it has stored,
and all that becomes readable is what the socket has given, iff no read of the run is misplaced. -/
theorem reads_committed_iff (host : Host) (m : Methods ε) (start s : Session β ε)
    (before : List (Session β ε × BufferPass ε))
    (hunits : ∀ p ∈ before, p.2.decoder.recvUnitSize.toNat < 2 ^ 31)
    (hrun : Run (Session.pass host m) start before s) :
    ((∀ p ∈ before, p.1.Commits m p.2) ↔ ∀ p ∈ before, ¬ p.1.Misplaces m p.2)
      ∧ (s.received = start.received ++ before.flatMap (fun p => p.1.madeReadable host m p.2)
        ↔ ∀ p ∈ before, ¬ p.1.Misplaces m p.2) := by
  have hall : (∀ p ∈ before, (p.1.Commits m p.2 ↔ ¬ p.1.Misplaces m p.2))
      ∧ ∃ data, s.received = start.received ++ data
        ∧ data.length = (before.flatMap fun p => p.1.madeReadable host m p.2).length
        ∧ (data = before.flatMap (fun p => p.1.madeReadable host m p.2)
          ↔ ∀ p ∈ before, ¬ p.1.Misplaces m p.2) := by
    induction hrun with
    | start => exact ⟨nofun, [], (List.append_nil _).symm, rfl, iff_of_true rfl nofun⟩
    | @step before s s' p _ hpass ih =>
        obtain ⟨hbefore, hunit⟩ := List.forall_mem_append.mp hunits
        obtain ⟨hcommits, data, hreceived, hlen, hiff⟩ := ih hbefore
        obtain ⟨data', hreceived', hlen', hiff', hcommits'⟩ :=
          accounts (hunit (s, p) (List.mem_singleton_self _)) hpass
        refine ⟨List.forall_mem_append.mpr ⟨hcommits, List.forall_mem_singleton.mpr hcommits'⟩,
          data ++ data', by rw [hreceived', hreceived, List.append_assoc], ?_, ?_⟩
        · simp only [List.flatMap_append, List.flatMap_singleton, List.length_append, hlen, hlen']
        · rw [List.flatMap_append, List.flatMap_singleton, List.forall_mem_append,
            List.forall_mem_singleton, ← hiff, ← hiff']
          constructor
          · exact fun heq => List.append_inj heq hlen
          · rintro ⟨heq, heq'⟩
            rw [heq, heq']
  obtain ⟨hcommits, data, hreceived, _, hiff⟩ := hall
  refine ⟨forall₂_congr hcommits, ?_⟩
  rw [hreceived, List.append_cancel_left_eq, hiff]

end

/-! ### A ring of 64 bytes -/

namespace ScriptedPeer

/-- Two messages of 50 and 20 bytes, of which five bytes of the second one come too late. -/
def ring : Session (RingBuffer 64) ScriptedPeer :=
  let msgs := [newStackMsg Host.little 3 34, newStackMsg Host.little 4 4]
  Session.init (RingBuffer.init 64 (by decide))
    ⟨((msgs.map (encoded Host.little)).map Frame.data).flatten, [16, 16, 16, 5, 5]⟩

end ScriptedPeer

/-- A message is read in two pieces, passed on and consumed, and of the next one all but the last
byte is read in two pieces. -/
theorem reads_committed_iff_ring :
    let m := ScriptedPeer.methods fun _ => true
    let msgs := [newStackMsg Host.little 3 4, newStackMsg Host.little 4 4]
    let wire := ((msgs.map (encoded Host.little)).map Frame.data).flatten
    let start := Session.init (RingBuffer.init 64 (by decide)) ⟨wire, [16, 4, 16, 3]⟩
    ∃ before s, Run (Session.pass Host.little m) start before s
      ∧ s.passed.length = 1 ∧ s.received.length = 39
      ∧ s.received = before.flatMap (fun p => p.1.madeReadable Host.little m p.2) := by
  intro m msgs wire start
  let d := ScriptedPeer.decoder 16 64
  have hexec : (exec (Session.pass Host.little m) start
      [.read d, .read d, .parse d, .parse d, .read d, .read d]).map (fun r =>
        (r.2.passed.length, r.2.received.length, r.1.all fun p =>
          p.2.decoder.recvUnitSize = 16 ∧ p.1.bytesBuf.all fun buf =>
            16 ≤ (RingGeometry.positions buf).atWriter))
      = some (1, 39, true) := by decide +kernel
  obtain ⟨⟨before, s⟩, hexec, hend⟩ := Option.map_eq_some_iff.mp hexec
  simp only [Prod.mk.injEq, List.all_eq_true, decide_eq_true_eq] at hend
  obtain ⟨hpassed, hlen, hfits⟩ := hend
  have hrun := run_of_exec hexec
  have hunits : ∀ p ∈ before, p.2.decoder.recvUnitSize.toNat < 2 ^ 31 := by
    intro p hp
    rw [(hfits p hp).1]
    decide
  have hplaced : ∀ p ∈ before, ¬ p.1.Misplaces m p.2 := by
    rintro ⟨t, pass⟩ hp hmisplaced
    obtain ⟨hunit, hroom⟩ := hfits _ hp
    cases pass with
    | parse d' => exact hmisplaced
    | read d' =>
        obtain ⟨buf, hbuf, hmisplaced⟩ := hmisplaced
        have hfull := hmisplaced.full
        change d'.recvUnitSize = 16 at hunit
        rw [hunit] at hfull
        change t.bytesBuf.all _ = true at hroom
        rw [hbuf, Option.all_some, decide_eq_true_eq] at hroom
        exact absurd hroom (not_le.mpr hfull)
  have hreceived := (reads_committed_iff Host.little m start s before hunits hrun).2.mpr hplaced
  exact ⟨before, s, hrun, hpassed, hlen, hreceived⟩

/-- The unit of 16 bytes only fits at the start of the array, the five bytes that come fit behind
the three that are left of the first call, and five zeros that were never written become readable.
-/
theorem short_read_commits_stale_bytes :
    let d := ScriptedPeer.decoder 16 64
    let m := ScriptedPeer.methods fun _ => true
    ∃ before t, Run (Session.pass Host.little m) ScriptedPeer.ring before t
      ∧ Calls Host.little d m ScriptedPeer.ring [true] t
      ∧ (m.read t.env d.recvUnitSize.toNat).1.stored = [0x52, 1, 1, 0, 0]
      ∧ t.madeReadable Host.little m (.read d) = [0, 0, 0, 0, 0] ∧ ¬ t.Commits m (.read d) := by
  intro d m
  have hrun : (d.decodeTimes Host.little m 5 ScriptedPeer.ring 1).map (fun r =>
        (r.1, r.2.bytesBuf.bind fun buf => writerFc buf (toInt d.recvUnitSize),
          (m.read r.2.env d.recvUnitSize.toNat).1.stored,
          r.2.madeReadable Host.little m (.read d)))
      = some ([true], some 0, [0x52, 1, 1, 0, 0], [0, 0, 0, 0, 0]) := by decide +kernel
  obtain ⟨⟨_, t⟩, heval, hr⟩ := Option.map_eq_some_iff.mp hrun
  simp only [Prod.mk.injEq] at hr
  obtain ⟨rfl, hfc, hstored, hmade⟩ := hr
  obtain ⟨buf, hbuf, hfc⟩ := Option.bind_eq_some_iff.mp hfc
  have hcalls := calls_of_decodeTimes heval
  obtain ⟨before, hrun, _⟩ := run_of_calls hcalls
  refine ⟨before, t, hrun, hcalls, hstored, hmade, ?_⟩
  intro hcommits
  have hsame := madeReadable_of_commits Host.little hcommits hbuf hfc
  rw [hstored, hmade] at hsame
  exact absurd hsame (by decide)

end BabelTrader
