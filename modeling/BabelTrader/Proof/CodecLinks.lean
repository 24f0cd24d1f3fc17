import BabelTrader.CodecLinks
import BabelTrader.Library.Linked

/-!
# What chains look like

The history of `Append` calls fixes the links. In each direction, the codecs that a chain has
accepted are those on the path from its head, so a call that enters the chain goes through each of
them once.
-/

namespace BabelTrader

open Linked

variable {γ ι δ σ : Type}

namespace Links

/-- **The shape.** `accepted` gives the codecs of every chain, in order. -/
structure Shaped (links : Links γ ι) (accepted : γ → List ι) : Prop where
  chain_iff : ∀ i c, links.chain_ i = some c ↔ i ∈ accepted c
  path : ∀ c, Path links.next_ (links.head c) (accepted c)
  tail : ∀ c, links.tail c = (accepted c).getLast?
  unlinked : ∀ i, links.chain_ i = none → links.next_ i = none

theorem fresh_shaped : (fresh : Links γ ι).Shaped fun _ => [] where
  chain_iff i c := by simp [fresh]
  path c := .nil
  tail c := rfl
  unlinked i _ := rfl

namespace Shaped

variable {links : Links γ ι} {accepted : γ → List ι}

theorem chain_eq_none_iff (h : links.Shaped accepted) {i : ι} :
    links.chain_ i = none ↔ ∀ c, i ∉ accepted c := by
  simp only [Option.eq_none_iff_forall_ne_some, ne_eq, h.chain_iff]

theorem disjoint (h : links.Shaped accepted) {i : ι} {c c' : γ} (hi : i ∈ accepted c)
    (hi' : i ∈ accepted c') : c = c' := by
  rw [← h.chain_iff] at hi hi'
  rw [hi] at hi'
  exact Option.some.inj hi'

theorem head_eq_none_iff (h : links.Shaped accepted) (c : γ) :
    links.head c = none ↔ links.tail c = none := by
  rw [(h.path c).start_eq_none_iff, h.tail, List.getLast?_eq_none_iff]

section

variable [DecidableEq γ] [DecidableEq ι] {c : γ} {i : ι}

theorem append_of_member (h : links.Shaped accepted) {c' : γ} (hi : i ∈ accepted c') :
    links.append c i = (false, links) := by
  rw [← h.chain_iff] at hi
  simp only [append, hi]

/-- **One `Append` that is accepted.** The codec comes last in its chain, and the other chains stay
as they are. -/
theorem append_new (h : links.Shaped accepted) (hi : ∀ c', i ∉ accepted c') :
    (links.append c i).1 = true
      ∧ (links.append c i).2.Shaped (Function.update accepted c (accepted c ++ [i])) := by
  have hchain : links.chain_ i = none := h.chain_eq_none_iff.mpr hi
  have hnext : links.next_ i = none := h.unlinked i hchain
  refine ⟨by simp only [append, hchain], ?_⟩
  have chain_iff (j : ι) (c' : γ) : Function.update links.chain_ i (some c) j = some c'
      ↔ j ∈ Function.update accepted c (accepted c ++ [i]) c' := by
    by_cases hc : c' = c
    · subst hc
      by_cases hj : j = i
      · simp [hj]
      · simp [hj, h.chain_iff]
    · by_cases hj : j = i
      · subst hj
        simp [hc, hi c', Ne.symm hc]
      · simp [hc, hj, h.chain_iff]
  have tail (c' : γ) : Function.update links.tail c (some i) c'
      = (Function.update accepted c (accepted c ++ [i]) c').getLast? := by
    by_cases hc : c' = c
    · subst hc
      simp
    · simp [hc, h.tail]
  cases htail : links.tail c with
  | none =>
      have hempty : accepted c = [] := by
        rw [← List.getLast?_eq_none_iff, ← h.tail, htail]
      simp only [append, hchain, htail]
      refine ⟨chain_iff, ?_, tail, ?_⟩
      · intro c'
        by_cases hc : c' = c
        · subst hc
          simp only [Function.update_self, hempty, List.nil_append]
          exact Path.singleton hnext
        · simp only [Function.update_of_ne hc]
          exact h.path c'
      · intro j hj
        by_cases hji : j = i
        · rw [hji, hnext]
        · dsimp only at hj
          rw [Function.update_of_ne hji] at hj
          exact h.unlinked j hj
  | some last =>
      have hlast : (accepted c).getLast? = some last := by rw [← h.tail, htail]
      have hmem : last ∈ accepted c := List.mem_of_getLast? hlast
      simp only [append, hchain, htail]
      refine ⟨chain_iff, ?_, tail, ?_⟩
      · intro c'
        by_cases hc : c' = c
        · subst hc
          simp only [Function.update_self]
          exact (h.path c').snoc hlast (hi c') hnext
        · simp only [Function.update_of_ne hc]
          -- `last` is in `c`, so no codec of another chain has a new successor
          refine (h.path c').congr fun j hj => Function.update_of_ne ?_ _ _
          rintro rfl
          exact hc (h.disjoint hj hmem)
      · intro j hj
        have hji : j ≠ i := by
          rintro rfl
          simp at hj
        dsimp only at hj ⊢
        rw [Function.update_of_ne hji] at hj
        have hjlast : j ≠ last := by
          rintro rfl
          exact absurd ((h.chain_iff j c).mpr hmem) (by rw [hj]; exact nofun)
        rw [Function.update_of_ne hjlast]
        exact h.unlinked j hj

theorem append (h : links.Shaped accepted) (c : γ) (i : ι) :
    (links.append c i).2.Shaped
      (if (links.append c i).1 then Function.update accepted c (accepted c ++ [i])
        else accepted) := by
  by_cases hi : ∀ c', i ∉ accepted c'
  · obtain ⟨htrue, hshaped⟩ := h.append_new (c := c) hi
    rw [if_pos htrue]
    exact hshaped
  · push Not at hi
    obtain ⟨c', hmem⟩ := hi
    rw [h.append_of_member hmem, if_neg Bool.false_ne_true]
    exact h

theorem append_iff (h : links.Shaped accepted) :
    (links.append c i).1 = true ↔ ∀ c', i ∉ accepted c' := by
  constructor
  · intro htrue c' hi
    rw [h.append_of_member hi] at htrue
    cases htrue
  · intro hi
    exact (h.append_new hi).1

theorem append_false (h : links.Shaped accepted) (hfalse : (links.append c i).1 = false) :
    (links.append c i).2 = links := by
  by_cases hi : ∀ c', i ∉ accepted c'
  · rw [h.append_iff.mpr hi] at hfalse
    cases hfalse
  · push Not at hi
    obtain ⟨c', hmem⟩ := hi
    rw [h.append_of_member hmem]

end

end Shaped

/-! ### Calls along a path -/

/-- **One call each.** A call that enters at `start` goes through the codecs on the path from there,
and then reaches the session; it is the call that the codecs make when they are nested. -/
theorem follow_of_path {links : Links γ ι} {start : Option ι} {nodes : List ι}
    (h : Path links.next_ start nodes) (code : ι → Codec σ) (session : Sink σ) {depth : Nat}
    (hdepth : nodes.length < depth) (st : σ) (data : Bytes) (datalen : UInt32) :
    links.follow code session depth start st data datalen
      = some (nodes.map Callee.codec ++ [.session],
          (CodecChain.mk (nodes.map fun i => (code i).call)).encode session st data datalen) := by
  induction h generalizing depth st data datalen with
  | nil =>
      obtain ⟨depth, rfl⟩ : ∃ k, depth = k + 1 := ⟨depth - 1, by simp at hdepth; omega⟩
      rfl
  | @cons i nodes _ ih =>
      rw [List.length_cons] at hdepth
      obtain ⟨depth, rfl⟩ : ∃ k, depth = k + 1 := ⟨depth - 1, by omega⟩
      have hnext := ih (show nodes.length < depth by omega)
      simp only [follow, hnext, List.map_cons, List.cons_append]
      rfl

end Links

/-! ### Any history -/

section

variable [DecidableEq γ] [DecidableEq ι] [DecidableEq δ]

/-- Both directions have the shape that the history gives. -/
structure CodecLinks.Shaped (links : CodecLinks γ ι δ) (history : List (Append γ ι δ × Bool)) :
    Prop where
  encode : links.encode.Shaped fun c => acceptedEncoders c history
  decode : links.decode.Shaped fun c => acceptedDecoders c history

omit [DecidableEq ι] [DecidableEq δ] in
theorem acceptedEncoders_snoc (history : List (Append γ ι δ × Bool)) (chain : γ) (e : ι)
    (ret : Bool) :
    (fun c => acceptedEncoders c (history ++ [(Append.encoder chain e, ret)]))
      = if ret then Function.update (fun c => acceptedEncoders c history) chain
          (acceptedEncoders chain history ++ [e])
        else fun c => acceptedEncoders c history := by
  funext c
  cases ret with
  | false => simp [acceptedEncoders]
  | true =>
      by_cases hc : c = chain
      · subst hc
        simp [acceptedEncoders]
      · simp [acceptedEncoders, hc, Ne.symm hc]

omit [DecidableEq ι] [DecidableEq δ] in
theorem acceptedDecoders_snoc (history : List (Append γ ι δ × Bool)) (chain : γ) (d : δ)
    (ret : Bool) :
    (fun c => acceptedDecoders c (history ++ [(Append.decoder chain d, ret)]))
      = if ret then Function.update (fun c => acceptedDecoders c history) chain
          (acceptedDecoders chain history ++ [d])
        else fun c => acceptedDecoders c history := by
  funext c
  cases ret with
  | false => simp [acceptedDecoders]
  | true =>
      by_cases hc : c = chain
      · subst hc
        simp [acceptedDecoders]
      · simp [acceptedDecoders, hc, Ne.symm hc]

theorem CodecLinks.Shaped.append {links : CodecLinks γ ι δ} {history : List (Append γ ι δ × Bool)}
    (h : links.Shaped history) (call : Append γ ι δ) :
    (links.append call).2.Shaped (history ++ [(call, (links.append call).1)]) := by
  cases call with
  | encoder chain e =>
      have hdecoders (ret : Bool) (c : γ) :
          acceptedDecoders c (history ++ [(Append.encoder chain e, ret)])
            = acceptedDecoders c history := by
        simp [acceptedDecoders]
      refine ⟨?_, by simpa only [CodecLinks.append, hdecoders] using h.decode⟩
      rw [acceptedEncoders_snoc]
      exact h.encode.append chain e
  | decoder chain d =>
      have hencoders (ret : Bool) (c : γ) :
          acceptedEncoders c (history ++ [(Append.decoder chain d, ret)])
            = acceptedEncoders c history := by
        simp [acceptedEncoders]
      refine ⟨by simpa only [CodecLinks.append, hencoders] using h.encode, ?_⟩
      rw [acceptedDecoders_snoc]
      exact h.decode.append chain d

theorem CodecLinks.shaped_appends (calls : List (Append γ ι δ)) :
    (CodecLinks.appends calls).2.Shaped (CodecLinks.appends calls).1 := by
  apply List.foldlRecOn
    (motive := fun r : List (Append γ ι δ × Bool) × CodecLinks γ ι δ => r.2.Shaped r.1)
  · exact ⟨Links.fresh_shaped, Links.fresh_shaped⟩
  intro r hr call _
  exact hr.append call

/-- What holds of one direction of the links when `accepted` are the codecs of the chains. `nested`
is the call of codecs that are nested. -/
structure Links.Sound (links : Links γ ι) (accepted : γ → List ι) : Prop where
  append_iff : ∀ c i, (links.append c i).1 = true ↔ ∀ c', i ∉ accepted c'
  append_false : ∀ c i, (links.append c i).1 = false → (links.append c i).2 = links
  chain_iff : ∀ i c, links.chain_ i = some c ↔ i ∈ accepted c
  head_iff : ∀ c, links.head c = none ↔ links.tail c = none
  visits : ∀ c, Path links.next_ (links.head c) (accepted c)
  once : ∀ c, (accepted c).Nodup
  tail : ∀ c, links.tail c = (accepted c).getLast?
  stops : ∀ c last, links.tail c = some last → links.next_ last = none
  disjoint : ∀ c c' i, i ∈ accepted c → i ∈ accepted c' → c = c'
  calls : ∀ (σ : Type) (code : ι → Codec σ) (session : Sink σ) c depth st data datalen,
    (accepted c).length < depth →
      links.follow code session depth (links.head c) st data datalen
        = some ((accepted c).map Callee.codec ++ [.session],
            (CodecChain.mk ((accepted c).map fun i => (code i).call)).encode session st data
              datalen)

omit [DecidableEq δ] in
theorem Links.Shaped.sound {links : Links γ ι} {accepted : γ → List ι}
    (h : links.Shaped accepted) : links.Sound accepted where
  append_iff _ _ := h.append_iff
  append_false _ _ := h.append_false
  chain_iff := h.chain_iff
  head_iff := h.head_eq_none_iff
  visits := h.path
  once c := (h.path c).nodup
  tail := h.tail
  stops c last hlast := (h.path c).next_getLast (by rw [← h.tail, hlast])
  disjoint _ _ _ := h.disjoint
  calls _ code session c _ st data datalen hdepth :=
    follow_of_path (h.path c) code session hdepth st data datalen

/-- **Chains over any history.** After any `Append` calls on any chains and codecs, each direction
is linked up from the codecs that its chains have accepted, and a call runs each of these once, in
the order of their `Append`s, and then the session's method once. -/
theorem codec_chains_sound (calls : List (Append γ ι δ)) :
    (CodecLinks.appends calls).2.encode.Sound
        (fun c => acceptedEncoders c (CodecLinks.appends calls).1)
      ∧ (CodecLinks.appends calls).2.decode.Sound
        (fun c => acceptedDecoders c (CodecLinks.appends calls).1) :=
  ⟨(CodecLinks.shaped_appends calls).encode.sound, (CodecLinks.shaped_appends calls).decode.sound⟩

/-- The second chain refuses the encoder of the first one, which also refuses it again. -/
example :
    let r := CodecLinks.appends (γ := Bool) (ι := Nat) (δ := Nat)
      [.encoder true 0, .encoder false 0, .encoder true 1, .encoder true 0, .decoder false 0]
    r.1.map Prod.snd = [true, false, true, false, true]
      ∧ acceptedEncoders true r.1 = [0, 1] ∧ acceptedEncoders false r.1 = [] := by decide

end

end BabelTrader
