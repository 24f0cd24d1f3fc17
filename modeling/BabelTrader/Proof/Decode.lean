import BabelTrader.Proof.Passes

/-!
# What a call of `Decode` can do

A property of sessions that survives taking bytes in and handing a frame over survives every call of
`Decode`, and every run of calls. Where a call stops is then a question about the bytes left in the
buffer. Both loops end: reading because a buffer only holds so much, and parsing because a frame
that is handed over makes the buffer shorter, unless its length is zero.
-/

namespace BabelTrader

open WhileLoop Framing BytesBuffer

namespace BytesToMsgDecoder

variable {β ε : Type} [BytesBuffer β] [FifoContract β] {host : Host} {d : BytesToMsgDecoder ε}
  {m : Methods ε} {s s' : Session β ε} {xs : Bytes} {exit : Exit} {rets : List Bool}

/-! ### What the front of the buffer decides -/

theorem parsePass_of_more (h : s.Holds xs) (hfront : front host d.msgLenLimit xs = .more) :
    d.parsePass host m s = .leave (.incomplete, s) := by
  obtain ⟨_, hleave⟩ | ⟨why, hbad, _⟩ | ⟨frame, t, hhands, _⟩ := parsePass_cases host d m h
  · exact hleave
  · rw [hfront] at hbad
    cases hbad
  · have hframe := hhands.front
    rw [hfront] at hframe
    cases hframe

theorem parsePass_of_frame {len : Nat} (h : s.Holds xs)
    (hfront : front host d.msgLenLimit xs = .frame len) :
    ∃ frame s', HandsOver host d m s xs frame s' ∧ frame.data.length = len
      ∧ d.parsePass host m s
        = if (d.next m s.env frame).1.ret then .again s' else .leave (.refused, s') := by
  obtain ⟨hmore, _⟩ | ⟨why, hbad, _⟩ | ⟨frame, s', hhands, hpass⟩ := parsePass_cases host d m h
  · rw [hfront] at hmore
    cases hmore
  · rw [hfront] at hbad
    cases hbad
  · have hframe := hhands.front
    rw [hfront] at hframe
    exact ⟨frame, s', hhands, (Front.frame.inj hframe).symm, hpass⟩

/-! ### Inverting a pass -/

theorem parsePass_again (h : s.Holds xs) (hagain : d.parsePass host m s = .again s') :
    ∃ frame, HandsOver host d m s xs frame s' ∧ (d.next m s.env frame).1.ret = true := by
  obtain ⟨_, hleave⟩ | ⟨why, _, hleave⟩ | ⟨frame, t, hhands, hpass⟩ :=
    parsePass_cases host d m h
  · rw [hleave] at hagain
    cases hagain
  · rw [hleave] at hagain
    cases hagain
  · rw [hpass] at hagain
    by_cases hret : (d.next m s.env frame).1.ret
    · rw [if_pos hret] at hagain
      cases hagain
      exact ⟨frame, hhands, hret⟩
    · rw [if_neg hret] at hagain
      cases hagain

theorem parsePass_leave (h : s.Holds xs) (hleave : d.parsePass host m s = .leave (exit, s')) :
    (exit = .incomplete ∧ s' = s ∧ front host d.msgLenLimit xs = .more)
      ∨ (∃ why, exit = .rejected why ∧ s' = s ∧ front host d.msgLenLimit xs = .bad)
      ∨ (exit = .refused ∧ ∃ frame, HandsOver host d m s xs frame s'
        ∧ (d.next m s.env frame).1.ret = false) := by
  obtain ⟨hfront, hpass⟩ | ⟨why, hfront, hpass⟩ | ⟨frame, t, hhands, hpass⟩ :=
    parsePass_cases host d m h
  · rw [hpass] at hleave
    cases hleave
    exact Or.inl ⟨rfl, rfl, hfront⟩
  · rw [hpass] at hleave
    cases hleave
    exact Or.inr (Or.inl ⟨why, rfl, rfl, hfront⟩)
  · rw [hpass] at hleave
    by_cases hret : (d.next m s.env frame).1.ret
    · rw [if_pos hret] at hleave
      cases hleave
    · rw [if_neg hret] at hleave
      cases hleave
      exact Or.inr (Or.inr ⟨rfl, frame, hhands, Bool.eq_false_of_not_eq_true hret⟩)

theorem readPass_inv (hunit : d.recvUnitSize.toNat < 2 ^ 31) (h : s.Holds xs)
    (hpass : d.readPass m s = .again s' ∨ d.readPass m s = .leave s') :
    s' = s ∨ TakesIn d m s xs s' := by
  obtain ⟨_, hleave⟩ | ⟨t, htakes, hnext⟩ := readPass_cases (m := m) hunit h
  · rw [hleave] at hpass
    obtain hpass | hpass := hpass <;> cases hpass
    exact Or.inl rfl
  · rw [hnext] at hpass
    right
    by_cases hlast : (m.read s.env d.recvUnitSize.toNat).1.count < d.recvUnitSize.toNat
    · rw [if_pos hlast] at hpass
      obtain hpass | hpass := hpass <;> cases hpass
      exact htakes
    · rw [if_neg hlast] at hpass
      obtain hpass | hpass := hpass <;> cases hpass
      exact htakes

theorem readPass_again (hunit : d.recvUnitSize.toNat < 2 ^ 31) (h : s.Holds xs)
    (hagain : d.readPass m s = .again s') :
    TakesIn d m s xs s'
      ∧ (m.read s.env d.recvUnitSize.toNat).1.stored.length = d.recvUnitSize.toNat := by
  have hunitPos := d.recvUnitSize_pos
  obtain ⟨_, hleave⟩ | ⟨t, htakes, hnext⟩ := readPass_cases (m := m) hunit h
  · rw [hleave] at hagain
    cases hagain
  · rw [hnext] at hagain
    by_cases hfull : (m.read s.env d.recvUnitSize.toNat).1.count < d.recvUnitSize.toNat
    · rw [if_pos hfull] at hagain
      cases hagain
    · rw [if_neg hfull] at hagain
      cases hagain
      have hle := (m.read s.env d.recvUnitSize.toNat).1.length_stored_le
      have hpos : 0 < (m.read s.env d.recvUnitSize.toNat).1.count := by omega
      have hcount := ReadResult.count_of_pos hpos
      exact ⟨htakes, by omega⟩

/-! ### Invariants -/

/-- A property of sessions that taking bytes in and handing a frame over both keep. -/
structure Preserved (host : Host) (d : BytesToMsgDecoder ε) (m : Methods ε)
    (I : Session β ε → Prop) : Prop where
  takesIn : ∀ {s s' : Session β ε} {xs : Bytes},
    I s → s.Holds xs → TakesIn d m s xs s' → I s'
  handsOver : ∀ {s s' : Session β ε} {xs : Bytes} {frame : Frame},
    I s → s.Holds xs → HandsOver host d m s xs frame s' → I s'

omit [FifoContract β] in
theorem TakesIn.hasBuffer (h : TakesIn d m s xs s') : ∃ ys, s'.Holds ys := ⟨_, h.holds⟩

omit [FifoContract β] in
theorem HandsOver.hasBuffer {frame : Frame} (h : HandsOver host d m s xs frame s') :
    ∃ ys, s'.Holds ys := ⟨_, h.holds⟩

namespace Preserved

variable {I : Session β ε → Prop}

omit [FifoContract β] in
protected theorem and {J : Session β ε → Prop} (hI : Preserved host d m I)
    (hJ : Preserved host d m J) : Preserved host d m fun s => I s ∧ J s where
  takesIn hs hxs htakes := ⟨hI.takesIn hs.1 hxs htakes, hJ.takesIn hs.2 hxs htakes⟩
  handsOver hs hxs hhands := ⟨hI.handsOver hs.1 hxs hhands, hJ.handsOver hs.2 hxs hhands⟩

theorem readPass (hI : Preserved host d m I) (hunit : d.recvUnitSize.toNat < 2 ^ 31)
    (hs : I s ∧ ∃ xs, s.Holds xs)
    (hpass : d.readPass m s = .again s' ∨ d.readPass m s = .leave s') :
    I s' ∧ ∃ xs, s'.Holds xs := by
  obtain ⟨hIs, xs, hxs⟩ := hs
  obtain rfl | htakes := readPass_inv hunit hxs hpass
  · exact ⟨hIs, xs, hxs⟩
  · exact ⟨hI.takesIn hIs hxs htakes, htakes.hasBuffer⟩

theorem parseAgain (hI : Preserved host d m I) (hs : I s ∧ ∃ xs, s.Holds xs)
    (hagain : d.parsePass host m s = .again s') : I s' ∧ ∃ xs, s'.Holds xs := by
  obtain ⟨hIs, xs, hxs⟩ := hs
  obtain ⟨frame, hhands, _⟩ := parsePass_again hxs hagain
  exact ⟨hI.handsOver hIs hxs hhands, hhands.hasBuffer⟩

theorem parseLeave (hI : Preserved host d m I) (hs : I s ∧ ∃ xs, s.Holds xs)
    (hleave : d.parsePass host m s = .leave (exit, s')) : I s' ∧ ∃ xs, s'.Holds xs := by
  obtain ⟨hIs, xs, hxs⟩ := hs
  obtain ⟨_, rfl, _⟩ | ⟨_, _, rfl, _⟩ | ⟨_, frame, hhands, _⟩ := parsePass_leave hxs hleave
  · exact ⟨hIs, xs, hxs⟩
  · exact ⟨hIs, xs, hxs⟩
  · exact ⟨hI.handsOver hIs hxs hhands, hhands.hasBuffer⟩

theorem readEnds (hI : Preserved host d m I) (hunit : d.recvUnitSize.toNat < 2 ^ 31)
    (hs : I s ∧ ∃ xs, s.Holds xs) (hends : Ends (d.readPass m) s s') :
    I s' ∧ ∃ xs, s'.Holds xs := by
  obtain ⟨t, htop, hleave⟩ := hends.exists_top
  have ht := htop.invariant (I := fun t => I t ∧ ∃ xs, t.Holds xs) hs
    fun _ _ ht hagain => hI.readPass hunit ht (Or.inl hagain)
  exact hI.readPass hunit ht (Or.inr hleave)

theorem parseTops (hI : Preserved host d m I) (hs : I s ∧ ∃ xs, s.Holds xs)
    (htop : Tops (d.parsePass host m) s s') : I s' ∧ ∃ xs, s'.Holds xs :=
  htop.invariant (I := fun t => I t ∧ ∃ xs, t.Holds xs) hs
    fun _ _ ht hagain => hI.parseAgain ht hagain

theorem parseEnds (hI : Preserved host d m I) (hs : I s ∧ ∃ xs, s.Holds xs)
    (hends : Ends (d.parsePass host m) s (exit, s')) : I s' ∧ ∃ xs, s'.Holds xs := by
  obtain ⟨t, htop, hleave⟩ := hends.exists_top
  exact hI.parseLeave (hI.parseTops hs htop) hleave

end Preserved

/-! ### Calls -/

omit [FifoContract β] in
theorem decodes_noBuffer_iff {r : Exit × Session β ε} (h : s.bytesBuf = none) :
    Decodes host d m s r ↔ r = (.noBuffer, s) := by
  have hdecode (passes : Nat) : d.decode host m passes s = some (.noBuffer, s) := by
    simp only [decode, readBytes, h]
  constructor
  · rintro ⟨passes, hr⟩
    rw [hdecode] at hr
    exact (Option.some.inj hr).symm
  · rintro rfl
    exact ⟨0, hdecode 0⟩

omit [FifoContract β] in
/-- With a buffer, a call reads until reading ends, and then parses until parsing ends. -/
theorem decodes_iff {r : Exit × Session β ε} {buf : β} (h : s.bytesBuf = some buf) :
    Decodes host d m s r
      ↔ ∃ t, Ends (d.readPass m) s t ∧ Ends (d.parsePass host m) t r := by
  constructor
  · rintro ⟨passes, hr⟩
    simp only [decode, readBytes, h] at hr
    cases hread : run (d.readPass m) passes s with
    | none => simp [hread] at hr
    | some t =>
        simp only [hread, Option.map_some] at hr
        exact ⟨t, ⟨passes, hread⟩, ⟨passes, hr⟩⟩
  · rintro ⟨t, ⟨reads, hread⟩, ⟨parses, hparse⟩⟩
    refine ⟨max reads parses, ?_⟩
    have hread' := run_mono (Nat.le_max_left reads parses) hread
    have hparse' := run_mono (Nat.le_max_right reads parses) hparse
    simp only [decode, readBytes, h, hread', Option.map_some, hparse']

omit [FifoContract β] in
theorem Decodes.unique {r₁ r₂ : Exit × Session β ε} (h₁ : Decodes host d m s r₁)
    (h₂ : Decodes host d m s r₂) : r₁ = r₂ := by
  cases hbuf : s.bytesBuf with
  | none => rw [(decodes_noBuffer_iff hbuf).mp h₁, (decodes_noBuffer_iff hbuf).mp h₂]
  | some buf =>
      obtain ⟨t₁, hread₁, hparse₁⟩ := (decodes_iff hbuf).mp h₁
      obtain ⟨t₂, hread₂, hparse₂⟩ := (decodes_iff hbuf).mp h₂
      obtain rfl := hread₁.unique hread₂
      exact hparse₁.unique hparse₂

/-- The state in which the last pass of a call began, and what held of it. -/
theorem Decodes.exists_top {I : Session β ε → Prop} (hI : Preserved host d m I)
    (hunit : d.recvUnitSize.toNat < 2 ^ 31) (h : Decodes host d m s (exit, s')) (hs : I s)
    (hxs : s.Holds xs) :
    ∃ t ys, I t ∧ t.Holds ys ∧ d.parsePass host m t = .leave (exit, s') := by
  obtain ⟨buf, hbuf, _⟩ := id hxs
  obtain ⟨t, hread, hparse⟩ := (decodes_iff hbuf).mp h
  have ht := hI.readEnds hunit ⟨hs, xs, hxs⟩ hread
  obtain ⟨u, htop, hleave⟩ := hparse.exists_top
  obtain ⟨hu, ys, hys⟩ := hI.parseTops ht htop
  exact ⟨u, ys, hu, hys, hleave⟩

/-- **Invariant rule for a call.** -/
theorem Decodes.preserves {I : Session β ε → Prop} (hI : Preserved host d m I)
    (hunit : d.recvUnitSize.toNat < 2 ^ 31) (h : Decodes host d m s (exit, s')) (hs : I s)
    (hbuf : ∃ xs, s.Holds xs) : I s' ∧ ∃ xs, s'.Holds xs := by
  obtain ⟨xs, buf, hbuf, hxs⟩ := hbuf
  obtain ⟨t, hread, hparse⟩ := (decodes_iff hbuf).mp h
  exact hI.parseEnds (hI.readEnds hunit ⟨hs, xs, buf, hbuf, hxs⟩ hread) hparse

/-- **Invariant rule for a run of calls.** -/
theorem Calls.preserves {I : Session β ε → Prop} (hI : Preserved host d m I)
    (hunit : d.recvUnitSize.toNat < 2 ^ 31) (h : Calls host d m s rets s') (hs : I s)
    (hbuf : ∃ xs, s.Holds xs) : I s' ∧ ∃ xs, s'.Holds xs := by
  induction h with
  | none => exact ⟨hs, hbuf⟩
  | call _ hdecode ih => exact hdecode.preserves hI hunit ih.1 ih.2

omit [FifoContract β] in
theorem calls_of_decodeTimes {passes n : Nat}
    (h : d.decodeTimes host m passes s n = some (rets, s')) : Calls host d m s rets s' := by
  induction n generalizing rets s' with
  | zero =>
      obtain ⟨rfl, rfl⟩ := Prod.mk.inj (Option.some.inj h)
      exact .none
  | succ n ih =>
      rw [decodeTimes] at h
      cases hcalls : d.decodeTimes host m passes s n with
      | none => simp [hcalls] at h
      | some r =>
          obtain ⟨before, t⟩ := r
          simp only [hcalls] at h
          obtain ⟨⟨exit, u⟩, hdecode, heq⟩ := Option.map_eq_some_iff.mp h
          obtain ⟨rfl, rfl⟩ := Prod.mk.inj heq
          exact .call (ih hcalls) ⟨passes, hdecode⟩

omit [FifoContract β] in
theorem Calls.rets_eq {ret : Bool} (h : Calls host d m s rets s')
    (hcall : ∀ {rets : List Bool} {t u : Session β ε} {exit : Exit}, Calls host d m s rets t →
      Decodes host d m t (exit, u) → exit.ret = ret) :
    rets = List.replicate rets.length ret := by
  induction h with
  | none => rfl
  | call hcalls hdecodes ih =>
      rw [hcall hcalls hdecodes, List.length_append, List.length_singleton, List.replicate_succ',
        ← ih]

omit [FifoContract β] in
theorem exists_calls {ret : Bool}
    (hcall : ∀ {rets : List Bool} {t : Session β ε}, Calls host d m s rets t →
      ∃ exit u, Decodes host d m t (exit, u) ∧ exit.ret = ret) (n : Nat) :
    ∃ t, Calls host d m s (List.replicate n ret) t := by
  induction n with
  | zero => exact ⟨s, .none⟩
  | succ n ih =>
      obtain ⟨t, hcalls⟩ := ih
      obtain ⟨exit, u, hdecodes, hret⟩ := hcall hcalls
      have hcalls' := Calls.call hcalls hdecodes
      rw [hret, ← List.replicate_succ'] at hcalls'
      exact ⟨u, hcalls'⟩

omit [FifoContract β] in
/-- What holds of every frame that is handed over holds of all frames passed on. -/
theorem preserved_forall_passed {P : Frame → Prop}
    (hP : ∀ {s s' : Session β ε} {xs : Bytes} {frame : Frame}, s.Holds xs →
      HandsOver host d m s xs frame s' → P frame) :
    Preserved host d m fun s : Session β ε => ∀ frame ∈ s.passed, P frame where
  takesIn hs _ htakes := by rwa [htakes.passed]
  handsOver hs hxs hhands := by
    rw [hhands.passed]
    exact List.forall_mem_append.mpr ⟨hs, List.forall_mem_singleton.mpr (hP hxs hhands)⟩

/-! ### Where a call stops -/

omit [FifoContract β] in
theorem preserved_true : Preserved host d m fun _ : Session β ε => True :=
  ⟨fun _ _ _ => trivial, fun _ _ _ => trivial⟩

theorem Decodes.front_of_true (hunit : d.recvUnitSize.toNat < 2 ^ 31)
    (h : Decodes host d m s (exit, s')) (hret : exit.ret = true) (hxs : s.Holds xs) :
    ∃ ys, s'.Holds ys ∧ front host d.msgLenLimit ys = .more := by
  obtain ⟨t, ys, _, hys, hleave⟩ := h.exists_top preserved_true hunit trivial hxs
  obtain ⟨_, rfl, hmore⟩ | ⟨why, rfl, _⟩ | ⟨rfl, _⟩ := parsePass_leave hys hleave
  · exact ⟨ys, hys, hmore⟩
  · cases hret
  · cases hret

theorem Decodes.front_of_rejected (hunit : d.recvUnitSize.toNat < 2 ^ 31) {why : Reject}
    (h : Decodes host d m s (.rejected why, s')) (hxs : s.Holds xs) :
    ∃ ys, s'.Holds ys ∧ front host d.msgLenLimit ys = .bad := by
  obtain ⟨t, ys, _, hys, hleave⟩ := h.exists_top preserved_true hunit trivial hxs
  obtain ⟨hexit, _⟩ | ⟨_, _, rfl, hbad⟩ | ⟨hexit, _⟩ := parsePass_leave hys hleave
  · cases hexit
  · exact ⟨ys, hys, hbad⟩
  · cases hexit

theorem Decodes.exit_of_neverRefuses (hunit : d.recvUnitSize.toNat < 2 ^ 31)
    (hnever : d.NeverRefuses m) (h : Decodes host d m s (exit, s')) (hxs : s.Holds xs) :
    exit = .incomplete ∨ ∃ why, exit = .rejected why := by
  obtain ⟨t, ys, _, hys, hleave⟩ := h.exists_top preserved_true hunit trivial hxs
  obtain ⟨hexit, _⟩ | ⟨why, hexit, _⟩ | ⟨_, frame, _, hret⟩ := parsePass_leave hys hleave
  · exact Or.inl hexit
  · exact Or.inr ⟨why, hexit⟩
  · rw [hnever] at hret
    cases hret

/-! ### Termination -/

theorem readPass_ends (hunit : d.recvUnitSize.toNat < 2 ^ 31) (h : s.Holds xs) :
    ∃ t, Ends (d.readPass m) s t := by
  have hunitPos := d.recvUnitSize_pos
  -- a pass that goes on has filled the buffer further, and a buffer only holds so much
  refine ends_of_measure
    (fun t => 2 ^ 31 - (t.bytesBuf.elim 0 fun buf => (contents buf).length))
    (I := fun t => ∃ ys, t.Holds ys) ⟨xs, h⟩ ?_
  rintro t u ⟨ys, hys⟩ hagain
  obtain ⟨htakes, hfull⟩ := readPass_again hunit hys hagain
  have hlt := htakes.holds.length_lt
  obtain ⟨buf, hbuf, hcontents⟩ := hys
  obtain ⟨buf', hbuf', hcontents'⟩ := htakes.holds
  refine ⟨⟨_, buf', hbuf', hcontents'⟩, ?_⟩
  simp only [hbuf, hbuf', hcontents, hcontents', Option.elim_some]
  rw [List.length_append, hfull] at hlt ⊢
  omega

theorem parsePass_ends {I : Session β ε → Prop} (hs : I s ∧ ∃ ys, s.Holds ys)
    (hI : ∀ {t u : Session β ε} {ys : Bytes} {frame : Frame}, I t → t.Holds ys →
      HandsOver host d m t ys frame u → I u)
    (hpos : ∀ {t : Session β ε} {ys : Bytes}, I t → t.Holds ys →
      front host d.msgLenLimit ys ≠ .frame 0) :
    ∃ r, Ends (d.parsePass host m) s r := by
  -- a pass that goes on has taken a frame out of the buffer
  refine ends_of_measure
    (fun t => t.bytesBuf.elim 0 fun buf => (contents buf).length)
    (I := fun t => I t ∧ ∃ ys, t.Holds ys) hs ?_
  rintro t u ⟨ht, ys, hys⟩ hagain
  obtain ⟨frame, hhands, _⟩ := parsePass_again hys hagain
  have hlen := (front_stable host d.msgLenLimit).length hhands.front
  have hframe : frame.data.length ≠ 0 := by
    intro hzero
    have hfront := hhands.front
    rw [hzero] at hfront
    exact hpos ht hys hfront
  refine ⟨⟨hI ht hys hhands, hhands.hasBuffer⟩, ?_⟩
  obtain ⟨buf, hbuf, hcontents⟩ := hys
  obtain ⟨buf', hbuf', hcontents'⟩ := hhands.holds
  simp only [hbuf, hbuf', hcontents, hcontents', Option.elim_some]
  rw [List.length_drop]
  omega

/-- **A call returns** when no frame of length zero can come to the front. -/
theorem exists_decodes {I : Session β ε → Prop} (hI : Preserved host d m I)
    (hunit : d.recvUnitSize.toNat < 2 ^ 31) (hs : I s) (hbuf : ∃ xs, s.Holds xs)
    (hpos : ∀ {t : Session β ε} {ys : Bytes}, I t → t.Holds ys →
      front host d.msgLenLimit ys ≠ .frame 0) :
    ∃ exit s', Decodes host d m s (exit, s') := by
  obtain ⟨xs, hxs⟩ := hbuf
  obtain ⟨t, hread⟩ := readPass_ends (m := m) hunit hxs
  have ht := hI.readEnds hunit ⟨hs, xs, hxs⟩ hread
  obtain ⟨r, hparse⟩ := parsePass_ends ht hI.handsOver hpos
  obtain ⟨buf, hbuf, _⟩ := hxs
  exact ⟨r.1, r.2, (decodes_iff hbuf).mpr ⟨t, hread, hparse⟩⟩

end BytesToMsgDecoder

end BabelTrader
