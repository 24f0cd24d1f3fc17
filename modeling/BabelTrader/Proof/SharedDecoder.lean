import BabelTrader.SharedDecoder
import BabelTrader.Proof.Decode

/-!
# Interleaved calls

A call of `Decode` that returns is a piece of a task's run, and what a pass keeps is kept by every
move of every task, however the moves are interleaved and whatever the settings are changed to.
-/

namespace BabelTrader

open WhileLoop BytesBuffer BytesToMsgDecoder

namespace Task

variable {β ε : Type} [BytesBuffer β] {host : Host} {d : BytesToMsgDecoder ε} {m : Methods ε}
  {s s' : Session β ε} {exit : Exit}

theorem Reachable.read {t : Session β ε} (h : Reachable host d m s ⟨.reading, t⟩)
    {u : Session β ε} (hends : Ends (d.readPass m) t u) : Reachable host d m s ⟨.parsing, u⟩ := by
  obtain ⟨v, htop, hleave⟩ := hends.exists_top
  have hv := htop.invariant (I := fun v => Reachable host d m s ⟨.reading, v⟩) h
    fun v w hv hagain => by simpa only [Task.step, hagain] using hv.step
  simpa only [Task.step, hleave] using hv.step

theorem Reachable.parseTop {t : Session β ε} (h : Reachable host d m s ⟨.parsing, t⟩)
    {u : Session β ε} (htop : Tops (d.parsePass host m) t u) :
    Reachable host d m s ⟨.parsing, u⟩ :=
  htop.invariant (I := fun v => Reachable host d m s ⟨.parsing, v⟩) h
    fun v w hv hagain => by simpa only [Task.step, hagain] using hv.step

/-- **Calls are runs of the task.** A call of `Decode` that returns takes the task from idle to
idle. -/
theorem Reachable.decodes {t : Session β ε} (h : Reachable host d m s ⟨.idle, t⟩)
    {u : Session β ε} (hdecodes : Decodes host d m t (exit, u)) :
    Reachable host d m s ⟨.idle, u⟩ := by
  cases hbuf : t.bytesBuf with
  | none =>
      obtain ⟨-, rfl⟩ := Prod.mk.inj ((decodes_noBuffer_iff hbuf).mp hdecodes)
      exact h
  | some buf =>
      obtain ⟨v, hread, hparse⟩ := (decodes_iff hbuf).mp hdecodes
      have hreading : Reachable host d m s ⟨.reading, t⟩ := by
        simpa only [Task.step, hbuf] using h.step
      obtain ⟨w, htop, hleave⟩ := hparse.exists_top
      have hparsing := (hreading.read hread).parseTop htop
      simpa only [Task.step, hleave] using hparsing.step

theorem reachable_of_calls {rets : List Bool} (h : Calls host d m s rets s') :
    Reachable host d m s ⟨.idle, s'⟩ := by
  induction h with
  | none => exact .start
  | call _ hdecodes ih => exact ih.decodes hdecodes

theorem step_noBuffer {t : Task β ε} (hbuf : t.session.bytesBuf = none) :
    (t.step host d m).session = t.session := by
  obtain ⟨phase, s⟩ := t
  change s.bytesBuf = none at hbuf
  cases phase <;> simp only [Task.step, hbuf, readPass, parsePass]

variable [FifoContract β]

/-- **Invariant rule for a move.** -/
theorem step_preserves {I : Session β ε → Prop} (hI : Preserved host d m I)
    (hunit : d.recvUnitSize.toNat < 2 ^ 31) {t : Task β ε} (ht : I t.session) :
    I (t.step host d m).session := by
  obtain ⟨phase, s⟩ := t
  cases hbuf : s.bytesBuf with
  | none => rwa [step_noBuffer hbuf]
  | some buf =>
      have hs : I s ∧ ∃ xs, s.Holds xs := ⟨ht, _, buf, hbuf, rfl⟩
      cases phase with
      | idle => simpa only [Task.step, hbuf] using ht
      | reading =>
          cases hpass : d.readPass m s with
          | again u => simpa only [Task.step, hpass] using (hI.readPass hunit hs (Or.inl hpass)).1
          | leave u => simpa only [Task.step, hpass] using (hI.readPass hunit hs (Or.inr hpass)).1
      | parsing =>
          cases hpass : d.parsePass host m s with
          | again u => simpa only [Task.step, hpass] using (hI.parseAgain hs hpass).1
          | leave r => simpa only [Task.step, hpass] using (hI.parseLeave hs hpass).1

variable (host m) in
/-- **What a move can do.** To the session it does nothing, or what one of the two kinds of passes
does. -/
theorem step_cases (hunit : d.recvUnitSize.toNat < 2 ^ 31) {t : Task β ε} {xs : Bytes}
    (hxs : t.session.Holds xs) :
    (t.step host d m).session = t.session ∨ TakesIn d m t.session xs (t.step host d m).session
      ∨ ∃ frame, HandsOver host d m t.session xs frame (t.step host d m).session := by
  obtain ⟨phase, s⟩ := t
  change s.Holds xs at hxs
  cases phase with
  | idle =>
      obtain ⟨buf, hbuf, _⟩ := hxs
      left
      simp only [Task.step, hbuf]
  | reading =>
      cases hpass : d.readPass m s with
      | again u =>
          simp only [Task.step, hpass]
          exact (readPass_inv hunit hxs (Or.inl hpass)).imp_right Or.inl
      | leave u =>
          simp only [Task.step, hpass]
          exact (readPass_inv hunit hxs (Or.inr hpass)).imp_right Or.inl
  | parsing =>
      cases hpass : d.parsePass host m s with
      | again u =>
          simp only [Task.step, hpass]
          obtain ⟨frame, hhands, _⟩ := parsePass_again hxs hpass
          exact Or.inr (Or.inr ⟨frame, hhands⟩)
      | leave r =>
          obtain ⟨exit, u⟩ := r
          simp only [Task.step, hpass]
          obtain ⟨_, rfl, _⟩ | ⟨_, _, rfl, _⟩ | ⟨_, frame, hhands, _⟩ :=
            parsePass_leave hxs hpass
          · exact Or.inl rfl
          · exact Or.inl rfl
          · exact Or.inr (Or.inr ⟨frame, hhands⟩)

variable (host m) in
theorem step_passed (hunit : d.recvUnitSize.toNat < 2 ^ 31) {t : Task β ε} {xs : Bytes}
    (hxs : t.session.Holds xs) :
    (t.step host d m).session.passed = t.session.passed
      ∨ (t.phase = .parsing
        ∧ ∃ frame, HandsOver host d m t.session xs frame (t.step host d m).session) := by
  obtain ⟨phase, s⟩ := t
  cases phase with
  | idle =>
      left
      simp only [Task.step]
      split <;> rfl
  | reading =>
      left
      have hpassed {u : Session β ε} (hu : u = s ∨ TakesIn d m s xs u) : u.passed = s.passed := by
        obtain rfl | htakes := hu
        · rfl
        · exact htakes.passed
      cases hpass : d.readPass m s with
      | again u =>
          simpa only [Task.step, hpass] using hpassed (readPass_inv hunit hxs (Or.inl hpass))
      | leave u =>
          simpa only [Task.step, hpass] using hpassed (readPass_inv hunit hxs (Or.inr hpass))
  | parsing =>
      cases hpass : d.parsePass host m s with
      | again u =>
          obtain ⟨frame, hhands, _⟩ := parsePass_again hxs hpass
          exact Or.inr ⟨rfl, frame, by simpa only [Task.step, hpass] using hhands⟩
      | leave r =>
          obtain ⟨exit, u⟩ := r
          obtain ⟨_, rfl, _⟩ | ⟨_, _, rfl, _⟩ | ⟨_, frame, hhands, _⟩ := parsePass_leave hxs hpass
          · exact Or.inl (by simp only [Task.step, hpass])
          · exact Or.inl (by simp only [Task.step, hpass])
          · exact Or.inr ⟨rfl, frame, by simpa only [Task.step, hpass] using hhands⟩

theorem step_of_frame {xs : Bytes} {len : Nat} (hxs : s.Holds xs)
    (hfront : front host d.msgLenLimit xs = .frame len) :
    ∃ frame, HandsOver host d m s xs frame (Task.step host d m ⟨.parsing, s⟩).session
      ∧ frame.data.length = len := by
  obtain ⟨frame, u, hhands, hlen, hpass⟩ := parsePass_of_frame (m := m) hxs hfront
  refine ⟨frame, ?_, hlen⟩
  by_cases hret : (d.next m s.env frame).1.ret
  · rw [if_pos hret] at hpass
    simpa only [Task.step, hpass] using hhands
  · rw [if_neg hret] at hpass
    simpa only [Task.step, hpass] using hhands

theorem Reachable.preserves {I : Session β ε → Prop} (hI : Preserved host d m I)
    (hunit : d.recvUnitSize.toNat < 2 ^ 31) {t : Task β ε} (h : Reachable host d m s t)
    (hs : I s) : I t.session := by
  induction h with
  | start => exact hs
  | step _ ih => exact step_preserves hI hunit ih

end Task

namespace Server

variable {ι β ε : Type} [DecidableEq ι] [BytesBuffer β] {host : Host} {m : ι → Methods ε}
  {I : Session β ε → Prop}

theorem run_concat (host : Host) (m : ι → Methods ε) (srv : Server ι β ε)
    (events : List (Event ι ε)) (event : Event ι ε) :
    srv.run host m (events ++ [event]) = (srv.run host m events).step host m event :=
  List.foldl_concat _ _ _ _

theorem FitsInt.step {srv : Server ι β ε} {event : Event ι ε} {events : List (Event ι ε)}
    (h : srv.FitsInt (event :: events)) : (srv.step host m event).FitsInt events := by
  obtain ⟨hnow, hlater⟩ := h
  refine ⟨?_, fun n hn => hlater n (List.mem_cons_of_mem _ hn)⟩
  cases event with
  | turn j => exact hnow
  | outside j env => exact hnow
  | setMsgLenLimit n => exact hnow
  | setRecvUnitSize n =>
      simp only [Server.step, setRecvUnitSize]
      split
      next => exact hnow
      next => exact hlater n List.mem_cons_self

theorem FitsInt.run {srv : Server ι β ε} {earlier later : List (Event ι ε)}
    (h : srv.FitsInt (earlier ++ later)) : (srv.run host m earlier).FitsInt later := by
  induction earlier generalizing srv with
  | nil => exact h
  | cons event earlier ih => exact ih h.step

/-- **Invariant rule for a server.** What one move keeps under every setting, and does not depend on
the environment, holds in every state of every run. -/
theorem run_preserves [FifoContract β] (hI : ∀ d i, Preserved host d (m i) I)
    (henv : ∀ (s : Session β ε) env, I s → I { s with env := env }) {srv : Server ι β ε}
    {events : List (Event ι ε)} (hunit : srv.FitsInt events) (hsrv : ∀ i, I (srv.task i).session)
    (i : ι) : I ((srv.run host m events).task i).session := by
  have hupdate {srv : Server ι β ε} {k : ι} {t : Task β ε}
      (hsrv : ∀ i, I (srv.task i).session) (ht : I t.session) (j : ι) :
      I (Function.update srv.task k t j).session := by
    by_cases hjk : j = k
    · subst hjk
      rwa [Function.update_self]
    · rw [Function.update_of_ne hjk]
      exact hsrv j
  induction events generalizing srv with
  | nil => exact hsrv i
  | cons event events ih =>
      refine ih hunit.step ?_
      intro j
      cases event with
      | setRecvUnitSize n => exact hsrv j
      | setMsgLenLimit n => exact hsrv j
      | turn k => exact hupdate hsrv (Task.step_preserves (hI _ k) hunit.1 (hsrv k)) j
      | outside k env => exact hupdate hsrv (henv _ env (hsrv k)) j

end Server

end BabelTrader
