import BabelTrader.TcpServerWorker
import Mathlib.Data.Int.CardIntervalMod

/-!
# Users and workers

A user who is new gets the next worker, and keeps it. So the dictionary lists the users in the order
in which they came, with worker `i % n` for the one with number `i`, and `worker_idx_` is the number
of users modulo `n`.
-/

namespace BabelTrader.TcpListenHandle

variable {size : Nat}

/-- An `int` that is an index of a worker. -/
def InRange (size : Nat) (idx : Int32) : Prop := 0 ≤ idx.toInt ∧ idx.toInt < size

/-- Users are dealt out one after the other. -/
structure Dealt (size : Nat) (handle : TcpListenHandle) : Prop where
  nodup : (handle.userWorkderDict.map Prod.fst).Nodup
  workers : handle.userWorkderDict.map (fun p => p.2.toInt)
    = (List.range handle.userWorkderDict.length).map fun i => ((i % size : Nat) : Int)
  next : handle.workerIdx.toInt = (handle.userWorkderDict.length % size : Nat)

/-- The users assigned to a worker. -/
def usersOf (handle : TcpListenHandle) (k : Nat) : List Bytes :=
  (handle.userWorkderDict.filter fun p => p.2.toInt = (k : Int)).map Prod.fst

theorem toInt_modSize {idx : Int32} {n : Nat} (hidx : idx.toInt = n) (hn : n < 2 ^ 31)
    (hsize : size < 2 ^ 31) (hpos : 0 < size) : (modSize idx size).toInt = (n % size : Nat) := by
  have hcast : (((n : Int) % 2 ^ 64).toNat) = n := by omega
  have hlt := Nat.mod_lt n hpos
  rw [modSize, hidx, hcast, Int32.toInt_ofNat_of_lt (by omega)]

theorem new_dealt : Dealt size new where
  nodup := List.nodup_nil
  workers := rfl
  next := by rw [show new.userWorkderDict.length = 0 from rfl, Nat.zero_mod]; rfl

/-! ### One assignment -/

variable (size) in
theorem assign_cases (handle : TcpListenHandle) (user : Bytes) :
    (∃ idx, (user, idx) ∈ handle.userWorkderDict
        ∧ handle.assign size user = (idx, handle))
      ∨ (user ∉ handle.userWorkderDict.map Prod.fst
        ∧ handle.assign size user
          = (modSize handle.workerIdx size,
            ⟨modSize (handle.workerIdx + 1) size,
              handle.userWorkderDict ++ [(user, modSize handle.workerIdx size)]⟩)) := by
  cases hlookup : handle.userWorkderDict.lookup user with
  | some idx =>
      left
      refine ⟨idx, ?_, by simp only [assign, hlookup]⟩
      obtain ⟨before, after, hsplit, _⟩ := List.lookup_eq_some_iff.mp hlookup
      rw [hsplit]
      simp
  | none =>
      right
      refine ⟨?_, by simp only [assign, hlookup]⟩
      rw [List.lookup_eq_none_iff] at hlookup
      rintro hmem
      obtain ⟨p, hp, rfl⟩ := List.mem_map.mp hmem
      exact absurd (hlookup p hp) (by simp)

namespace Dealt

variable {handle : TcpListenHandle}

theorem inRange (h : handle.Dealt size) (hpos : 0 < size) {p : Bytes × Int32}
    (hp : p ∈ handle.userWorkderDict) : InRange size p.2 := by
  have hmem : p.2.toInt ∈ handle.userWorkderDict.map fun p => p.2.toInt :=
    List.mem_map_of_mem hp
  rw [h.workers] at hmem
  obtain ⟨i, _, hi⟩ := List.mem_map.mp hmem
  have hlt := Nat.mod_lt i hpos
  rw [InRange, ← hi]
  omega

theorem assign (h : handle.Dealt size) (hpos : 0 < size) (hsize : size < 2 ^ 31) (user : Bytes) :
    (handle.assign size user).2.Dealt size
      ∧ (user, (handle.assign size user).1) ∈ (handle.assign size user).2.userWorkderDict
      ∧ handle.userWorkderDict <+: (handle.assign size user).2.userWorkderDict := by
  obtain ⟨idx, hmem, heq⟩ | ⟨hnew, heq⟩ := assign_cases size handle user
  · rw [heq]
    exact ⟨h, hmem, List.prefix_refl _⟩
  · rw [heq]
    have hlt := Nat.mod_lt handle.userWorkderDict.length hpos
    have hidx := toInt_modSize h.next (by omega) hsize hpos
    rw [Nat.mod_mod] at hidx
    have hnext : (handle.workerIdx + 1).toInt
        = ((handle.userWorkderDict.length % size + 1 : Nat) : Int) := by
      rw [Int32.toInt_add, h.next, show (1 : Int32).toInt = 1 by decide]
      refine Int.bmod_eq_of_le ?_ ?_ <;> omega
    refine ⟨⟨?_, ?_, ?_⟩, List.mem_append_right _ (List.mem_singleton_self _),
      List.prefix_append _ _⟩
    · rw [List.map_append]
      exact h.nodup.append (List.nodup_singleton _) (List.disjoint_singleton.mpr hnew)
    · rw [List.map_append, h.workers, List.length_append, List.length_singleton, List.range_succ,
        List.map_append, List.map_singleton, List.map_singleton, hidx]
    · rw [toInt_modSize hnext (by omega) hsize hpos, List.length_append, List.length_singleton,
        Nat.mod_add_mod]

/-- **How many users a worker has.** -/
theorem length_usersOf (h : handle.Dealt size) (hpos : 0 < size) {k : Nat} (hk : k < size) :
    (handle.usersOf k).length
      = handle.userWorkderDict.length / size
        + if k < handle.userWorkderDict.length % size then 1 else 0 := by
  have hcount : (handle.usersOf k).length
      = (handle.userWorkderDict.map fun p => p.2.toInt).countP fun idx => idx = (k : Int) := by
    rw [usersOf, List.length_map, ← List.countP_eq_length_filter, List.countP_map]
    rfl
  have hmod (i : Nat) : ((i % size : Nat) : Int) = k ↔ i ≡ k [MOD size] := by
    rw [Nat.ModEq, Nat.mod_eq_of_lt hk]
    exact Int.ofNat_inj
  rw [hcount, h.workers, List.countP_map]
  calc (List.range handle.userWorkderDict.length).countP _
    _ = Nat.count (· ≡ k [MOD size]) handle.userWorkderDict.length := by
      rw [Nat.count]
      simp only [Function.comp_def, hmod]
    _ = _ := by rw [Nat.count_modEq_card _ hpos, Nat.mod_eq_of_lt hk]

theorem balanced (h : handle.Dealt size) (hpos : 0 < size) {k k' : Nat} (hk : k < size)
    (hk' : k' < size) : (handle.usersOf k).length ≤ (handle.usersOf k').length + 1 := by
  rw [h.length_usersOf hpos hk, h.length_usersOf hpos hk']
  split_ifs <;> omega

end Dealt

/-! ### Any run -/

theorem assigns_concat (size : Nat) (users : List Bytes) (user : Bytes) :
    assigns size (users ++ [user])
      = ((assigns size users).1 ++ [(user, ((assigns size users).2.assign size user).1)],
        ((assigns size users).2.assign size user).2) := by
  unfold assigns
  rw [List.foldl_append]
  rfl

theorem map_fst_assigns (size : Nat) (users : List Bytes) :
    (assigns size users).1.map Prod.fst = users := by
  induction users using List.reverseRecOn with
  | nil => rfl
  | append_singleton users user ih =>
      rw [assigns_concat, List.map_append, ih]
      rfl

/-- What has been used is what the dictionary says. -/
structure Assigned (size : Nat) (used : List (Bytes × Int32)) (handle : TcpListenHandle) :
    Prop where
  dealt : handle.Dealt size
  used : ∀ p ∈ used, p ∈ handle.userWorkderDict

theorem assigned_assigns (hpos : 0 < size) (hsize : size < 2 ^ 31) (users : List Bytes) :
    Assigned size (assigns size users).1 (assigns size users).2 := by
  apply List.foldlRecOn
    (motive := fun r : List (Bytes × Int32) × TcpListenHandle => Assigned size r.1 r.2)
  · exact ⟨new_dealt, fun _ hp => nomatch hp⟩
  intro r hr user _
  obtain ⟨hdealt, hmem, hpre⟩ := hr.dealt.assign hpos hsize user
  refine ⟨hdealt, List.forall_mem_append.mpr ⟨?_, List.forall_mem_singleton.mpr hmem⟩⟩
  exact fun p hp => hpre.subset (hr.used p hp)

/-- **Sticky, in range and balanced.** After any hand-overs to `n` workers, each has used an index,
every index that has been used or stored is one of theirs, all hand-overs of one user went to one
worker, and no worker has two users more than another. -/
theorem workers_balanced (n : Nat) (hpos : 1 ≤ n) (hn : n ≤ 2 ^ 31 - 1) (users : List Bytes) :
    let used := (assigns n users).1
    let handle := (assigns n users).2
    used.map Prod.fst = users ∧ (∀ p ∈ used, InRange n p.2)
      ∧ (∀ p ∈ handle.userWorkderDict, InRange n p.2) ∧ InRange n handle.workerIdx
      ∧ (∀ p ∈ used, ∀ q ∈ used, p.1 = q.1 → p.2 = q.2)
      ∧ (∀ p ∈ used, p ∈ handle.userWorkderDict)
      ∧ (handle.userWorkderDict.map Prod.fst).Nodup
      ∧ ∀ k < n, ∀ k' < n, (handle.usersOf k).length ≤ (handle.usersOf k').length + 1 := by
  intro used handle
  have h : Assigned n used handle := assigned_assigns hpos (by omega) users
  have hrange (p : Bytes × Int32) (hp : p ∈ handle.userWorkderDict) : InRange n p.2 :=
    h.dealt.inRange hpos hp
  refine ⟨map_fst_assigns n users, fun p hp => hrange p (h.used p hp), hrange, ?_, ?_, h.used,
    h.dealt.nodup, fun k hk k' hk' => h.dealt.balanced hpos hk hk'⟩
  · have hlt := Nat.mod_lt handle.userWorkderDict.length hpos
    rw [InRange, h.dealt.next]
    omega
  · intro p hp q hq heq
    have hinj := List.inj_on_of_nodup_map h.dealt.nodup (h.used p hp) (h.used q hq) heq
    rw [hinj]

theorem workers_balanced_two :
    let used := (assigns 2 [[1], [2], [1], [3]]).1
    let handle := (assigns 2 [[1], [2], [1], [3]]).2
    used.map Prod.fst = [[1], [2], [1], [3]] ∧ (∀ p ∈ handle.userWorkderDict, InRange 2 p.2)
      ∧ (handle.usersOf 0).length ≤ (handle.usersOf 1).length + 1 := by
  obtain ⟨hused, _, hdict, _, _, _, _, hbalanced⟩ :=
    workers_balanced 2 (by decide) (by decide) [[1], [2], [1], [3]]
  exact ⟨hused, hdict, hbalanced 0 (by decide) 1 (by decide)⟩

example : (assigns 2 [[1], [2], [1], [3]]).1.map Prod.snd = [0, 1, 0, 0] := by decide

end BabelTrader.TcpListenHandle
