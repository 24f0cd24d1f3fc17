import Mathlib.Data.List.Basic

/-!
# Cutting a stream into frames

A framing rule looks at the front of a stream and answers that more is needed, that no frame can
start there, or that the first `len` elements are a frame. When an answer, once given, stands
however the stream goes on, the frames do not depend on the pieces in which the stream arrives: a
reader that cuts what it has, keeps the rest and goes on when more comes cuts the same frames as one
that had the whole stream from the start.
-/

namespace Framing

/-- What a framing rule says about the front of a stream. -/
inductive Front where
  | more
  | bad
  | frame (len : Nat)
deriving DecidableEq

variable {α : Type} (front : List α → Front)

/-- An answer other than `more` stands when the stream goes on, and a frame is wholly there. -/
structure Stable : Prop where
  nil : front [] = .more
  bad : ∀ {xs : List α} (ys : List α), front xs = .bad → front (xs ++ ys) = .bad
  frame : ∀ {xs : List α} {len : Nat} (ys : List α),
    front xs = .frame len → front (xs ++ ys) = .frame len
  length : ∀ {xs : List α} {len : Nat}, front xs = .frame len → len ≤ xs.length

/-- Some frames can be cut off the front of `xs`, one after the other, and `rest` remains. -/
inductive Cuts : List α → List (List α) → List α → Prop where
  | stop (xs : List α) : Cuts xs [] xs
  | frame {xs rest : List α} {len : Nat} {frames : List (List α)} :
      front xs = .frame len → Cuts (xs.drop len) frames rest → Cuts xs (xs.take len :: frames) rest

def Stuck (xs : List α) : Prop := ∀ len, front xs ≠ .frame len

variable {front} {xs ys rest rest' : List α} {frames frames' : List (List α)} {len : Nat}

theorem stuck_of_more (h : front xs = .more) : Stuck front xs := by
  intro len hframe
  rw [h] at hframe
  cases hframe

theorem stuck_of_bad (h : front xs = .bad) : Stuck front xs := by
  intro len hframe
  rw [h] at hframe
  cases hframe

theorem Cuts.flatten_append (h : Cuts front xs frames rest) : frames.flatten ++ rest = xs := by
  induction h with
  | stop => rfl
  | frame _ _ ih => rw [List.flatten_cons, List.append_assoc, ih, List.take_append_drop]

theorem Cuts.trans {xs' : List α} (h : Cuts front xs frames xs')
    (h' : Cuts front xs' frames' rest) : Cuts front xs (frames ++ frames') rest := by
  induction h with
  | stop => exact h'
  | frame hfront _ ih => exact .frame hfront (ih h')

/-- What holds of whatever is cut off holds of every frame. -/
theorem Cuts.forall_frames {P : List α → Prop} (h : Cuts front xs frames rest)
    (hcut : ∀ xs len, front xs = .frame len → P (xs.take len)) : ∀ frame ∈ frames, P frame := by
  induction h with
  | stop => exact fun frame hframe => absurd hframe List.not_mem_nil
  | frame hfront _ ih => exact List.forall_mem_cons.mpr ⟨hcut _ _ hfront, ih⟩

theorem Cuts.snoc (h : Cuts front xs frames rest) (hfront : front rest = .frame len) :
    Cuts front xs (frames ++ [rest.take len]) (rest.drop len) :=
  h.trans (.frame hfront (.stop _))

/-- What has been cut stays cut when the stream goes on. -/
theorem Cuts.append (hstable : Stable front) (h : Cuts front xs frames rest) (ys : List α) :
    Cuts front (xs ++ ys) frames (rest ++ ys) := by
  induction h with
  | stop => exact .stop _
  | @frame xs rest len frames hfront _ ih =>
      have hlen := hstable.length hfront
      have hcut := Cuts.frame (hstable.frame ys hfront)
        (by rwa [List.drop_append_of_le_length hlen])
      rwa [List.take_append_of_le_length hlen] at hcut

/-- A cut can be carried on to any cut that got stuck. -/
theorem Cuts.extend (h : Cuts front xs frames rest) (h' : Cuts front xs frames' rest')
    (hstuck : Stuck front rest') :
    ∃ more, frames' = frames ++ more ∧ Cuts front rest more rest' := by
  induction h generalizing frames' with
  | stop => exact ⟨frames', rfl, h'⟩
  | frame hfront _ ih =>
      cases h' with
      | stop => exact absurd hfront (hstuck _)
      | frame hfront' htail =>
          rw [hfront] at hfront'
          cases hfront'
          obtain ⟨more, rfl, hmore⟩ := ih htail
          exact ⟨more, rfl, hmore⟩

/-- **Uniqueness.** Two cuts of one stream that both got stuck are the same cut. -/
theorem Cuts.unique (h : Cuts front xs frames rest) (hstuck : Stuck front rest)
    (h' : Cuts front xs frames' rest') (hstuck' : Stuck front rest') :
    frames = frames' ∧ rest = rest' := by
  obtain ⟨more, rfl, hmore⟩ := h.extend h' hstuck'
  cases hmore with
  | stop => simp
  | frame hfront _ => exact absurd hfront (hstuck _)

/-! ### Where frames begin -/

/-- Where each of some frames that follow one another from position `n` begins, and where the last
one ends. -/
def offsets : Nat → List (List α) → List Nat
  | n, [] => [n]
  | n, frame :: frames => n :: offsets (n + frame.length) frames

theorem mem_offsets (n : Nat) (frames : List (List α)) : n ∈ offsets n frames := by
  cases frames with
  | nil => exact List.mem_cons_self
  | cons frame frames => exact List.mem_cons_self

theorem le_of_mem_offsets {n k : Nat} (h : k ∈ offsets n frames) : n ≤ k := by
  induction frames generalizing n with
  | nil => exact Nat.le_of_eq (List.mem_singleton.mp h).symm
  | cons frame frames ih =>
      obtain rfl | htail := List.mem_cons.mp h
      · exact Nat.le_refl _
      · exact Nat.le_trans (Nat.le_add_right _ _) (ih htail)

theorem offsets_nodup_iff {n : Nat} :
    (offsets n frames).Nodup ↔ ∀ frame ∈ frames, frame ≠ [] := by
  induction frames generalizing n with
  | nil => simp [offsets]
  | cons frame frames ih =>
      have hhead : n ∉ offsets (n + frame.length) frames ↔ frame ≠ [] := by
        constructor
        · rintro hnot rfl
          exact hnot (mem_offsets n frames)
        · intro hne hmem
          have hpos := List.length_pos_iff.mpr hne
          have hle := le_of_mem_offsets hmem
          omega
      rw [offsets, List.nodup_cons, hhead, ih, List.forall_mem_cons]

/-! ### Streams made of whole frames -/

variable (front) in
/-- A list that is one frame from its first element to its last. -/
def Whole (frame : List α) : Prop := front frame = .frame frame.length

/-- The leading frames that end within the first `n` elements of their concatenation. -/
def within : Nat → List (List α) → List (List α)
  | _, [] => []
  | n, frame :: frames =>
      if frame.length ≤ n then frame :: within (n - frame.length) frames else []

theorem within_of_length_le {n : Nat} (h : frames.flatten.length ≤ n) :
    within n frames = frames := by
  induction frames generalizing n with
  | nil => rfl
  | cons frame frames ih =>
      rw [List.flatten_cons, List.length_append] at h
      rw [within, if_pos (by omega), ih (by omega)]

theorem mem_of_mem_within {n : Nat} {frame : List α} (h : frame ∈ within n frames) :
    frame ∈ frames := by
  induction frames generalizing n with
  | nil => exact h
  | cons head frames ih =>
      unfold within at h
      by_cases hle : head.length ≤ n
      · rw [if_pos hle] at h
        obtain rfl | htail := List.mem_cons.mp h
        · exact List.mem_cons_self
        · exact List.mem_cons_of_mem _ (ih htail)
      · rw [if_neg hle] at h
        cases h

theorem within_map {β : Type} {g : List α → List β}
    (hlen : ∀ frame ∈ frames, (g frame).length = frame.length) (n : Nat) :
    within n (frames.map g) = (within n frames).map g := by
  induction frames generalizing n with
  | nil => rfl
  | cons frame frames ih =>
      have htail := ih fun f hf => hlen f (List.mem_cons_of_mem _ hf)
      rw [List.map_cons]
      unfold within
      rw [hlen frame List.mem_cons_self]
      by_cases hle : frame.length ≤ n
      · rw [if_pos hle, if_pos hle, List.map_cons, htail]
      · rw [if_neg hle, if_neg hle, List.map_nil]

theorem Whole.front_of_prefix (hstable : Stable front) {frame : List α} (h : Whole front frame)
    (hpre : xs <+: frame) (hlt : xs.length < frame.length) : front xs = .more := by
  obtain ⟨ys, rfl⟩ := hpre
  rw [Whole] at h
  cases hfront : front xs with
  | more => rfl
  | bad =>
      rw [hstable.bad ys hfront] at h
      cases h
  | frame len =>
      rw [hstable.frame ys hfront] at h
      cases h
      have hlen := hstable.length hfront
      omega

/-- **Round trip.** Of a stream of whole frames, what has arrived is cut into exactly the frames
that have arrived whole, and more is needed. -/
theorem cuts_within (hstable : Stable front) (hwhole : ∀ frame ∈ frames, Whole front frame)
    (hpre : xs <+: frames.flatten) :
    ∃ rest, Cuts front xs (within xs.length frames) rest ∧ front rest = .more
      ∧ (xs = frames.flatten → rest = []) := by
  induction frames generalizing xs with
  | nil =>
      obtain rfl : xs = [] := List.prefix_nil.mp hpre
      exact ⟨[], .stop _, hstable.nil, fun _ => rfl⟩
  | cons frame frames ih =>
      have hhead : Whole front frame := hwhole frame List.mem_cons_self
      rw [List.flatten_cons] at hpre ⊢
      by_cases hle : frame.length ≤ xs.length
      · obtain ⟨ys, rfl⟩ : frame <+: xs :=
          List.prefix_of_prefix_length_le (List.prefix_append _ _) hpre hle
        have htail : ys <+: frames.flatten := (List.prefix_append_right_inj frame).mp hpre
        obtain ⟨rest, hcuts, hmore, hall⟩ :=
          ih (fun f hf => hwhole f (List.mem_cons_of_mem _ hf)) htail
        refine ⟨rest, ?_, hmore, ?_⟩
        · have hcut := Cuts.frame (hstable.frame ys hhead) (by rwa [List.drop_left])
          rw [within, if_pos hle, List.length_append, Nat.add_sub_cancel_left]
          rwa [List.take_left] at hcut
        · intro heq
          exact hall (List.append_cancel_left heq)
      · have hpre : xs <+: frame :=
          List.prefix_of_prefix_length_le hpre (List.prefix_append _ _) (by omega)
        rw [within, if_neg hle]
        refine ⟨xs, .stop _, hhead.front_of_prefix hstable hpre (by omega), ?_⟩
        rintro rfl
        rw [List.length_append] at hle
        omega

theorem cuts_flatten (hstable : Stable front) (hwhole : ∀ frame ∈ frames, Whole front frame) :
    Cuts front frames.flatten frames [] := by
  obtain ⟨rest, hcuts, _, hall⟩ := cuts_within hstable hwhole (List.prefix_refl _)
  rwa [within_of_length_le (Nat.le_refl _), hall rfl] at hcuts

/-- Whatever is cut off what has arrived of a stream of whole frames is one of them. -/
theorem Cuts.take_mem (hstable : Stable front) (hwhole : ∀ frame ∈ frames, Whole front frame)
    (hpre : xs <+: frames.flatten) (hcuts : Cuts front xs frames' rest)
    (hfront : front rest = .frame len) : rest.take len ∈ frames := by
  obtain ⟨ys, hys⟩ := hpre
  have hcuts' := (hcuts.snoc hfront).append hstable ys
  rw [hys] at hcuts'
  obtain ⟨more, hframes, _⟩ :=
    hcuts'.extend (cuts_flatten hstable hwhole) (stuck_of_more hstable.nil)
  rw [hframes]
  simp

/-! ### Streams that may end in a torn frame -/

variable (front) in
/-- A proper beginning of a frame, or nothing. -/
def Torn (xs : List α) : Prop :=
  xs = [] ∨ ∃ frame, Whole front frame ∧ xs <+: frame ∧ xs.length < frame.length

theorem front_of_torn (hstable : Stable front) {torn : List α} (htorn : Torn front torn)
    (hpre : xs <+: torn) : front xs = .more := by
  obtain rfl | ⟨frame, hwhole, hframe, hlt⟩ := htorn
  · rw [List.prefix_nil.mp hpre]
    exact hstable.nil
  · have hle := hpre.length_le
    exact hwhole.front_of_prefix hstable (hpre.trans hframe) (by omega)

/-- The front of such a stream, as far as it has arrived, is a frame of the stream, or more is
needed. -/
theorem front_cases (hstable : Stable front) (hwhole : ∀ frame ∈ frames, Whole front frame)
    {torn : List α} (htorn : Torn front torn) (hpre : xs <+: frames.flatten ++ torn) :
    front xs = .more
      ∨ ∃ frame rest, frames = frame :: rest ∧ frame <+: xs ∧ front xs = .frame frame.length := by
  cases frames with
  | nil => exact Or.inl (front_of_torn hstable htorn hpre)
  | cons frame rest =>
      have hhead : Whole front frame := hwhole frame List.mem_cons_self
      have hbegins : frame <+: (frame :: rest).flatten ++ torn := by
        rw [List.flatten_cons, List.append_assoc]
        exact List.prefix_append _ _
      by_cases hle : frame.length ≤ xs.length
      · have hframe := List.prefix_of_prefix_length_le hbegins hpre hle
        obtain ⟨ys, rfl⟩ := hframe
        exact Or.inr ⟨frame, rest, rfl, List.prefix_append _ _, hstable.frame ys hhead⟩
      · have hshort := List.prefix_of_prefix_length_le hpre hbegins (by omega)
        exact Or.inl (hhead.front_of_prefix hstable hshort (by omega))

/-- **Cutting such a stream** gives its frames from the first on, whatever part of it has arrived,
and leaves the beginning of what follows them. -/
theorem Cuts.of_torn (hstable : Stable front) (h : Cuts front xs frames' rest)
    (hwhole : ∀ frame ∈ frames, Whole front frame) {torn : List α} (htorn : Torn front torn)
    {ys : List α} (hall : xs ++ ys = frames.flatten ++ torn) :
    ∃ left, frames = frames' ++ left ∧ rest ++ ys = left.flatten ++ torn := by
  induction h generalizing frames with
  | stop => exact ⟨frames, rfl, hall⟩
  | @frame xs rest len frames' hfront _ ih =>
      obtain hmore | ⟨frame, tail, rfl, ⟨zs, rfl⟩, hframe⟩ :=
        front_cases hstable hwhole htorn ⟨ys, hall⟩
      · rw [hmore] at hfront
        cases hfront
      · obtain rfl : frame.length = len := by
          rw [hframe] at hfront
          exact Front.frame.inj hfront
        rw [List.flatten_cons, List.append_assoc, List.append_assoc] at hall
        rw [List.drop_left] at ih
        rw [List.take_left]
        obtain ⟨left, rfl, hleft⟩ :=
          ih (fun f hf => hwhole f (List.mem_cons_of_mem _ hf)) (List.append_cancel_left hall)
        exact ⟨left, rfl, hleft⟩

end Framing
