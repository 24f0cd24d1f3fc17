import Mathlib.Data.List.Basic
import Mathlib.Logic.Function.Basic

/-!
# Nodes linked by their successors

Nodes that name their successor, if they have one, make up a list when following the successors
comes to an end. Such a list has no cycle, it is determined by its first node, and it only depends
on the successors of its own nodes: a node can be linked behind its last one, and nothing else
notices.
-/

namespace Linked

variable {ι : Type}

/-- Following `next` from `start` visits `nodes`, in this order, and then ends. -/
inductive Path (next : ι → Option ι) : Option ι → List ι → Prop where
  | nil : Path next none []
  | cons {i : ι} {nodes : List ι} : Path next (next i) nodes → Path next (some i) (i :: nodes)

variable {next next' : ι → Option ι} {start : Option ι} {nodes nodes' : List ι}

theorem Path.unique (h : Path next start nodes) (h' : Path next start nodes') :
    nodes = nodes' := by
  induction h generalizing nodes' with
  | nil =>
      cases h' with
      | nil => rfl
  | cons _ ih =>
      cases h' with
      | cons htail => rw [ih htail]

theorem Path.congr (h : Path next start nodes) (heq : ∀ i ∈ nodes, next' i = next i) :
    Path next' start nodes := by
  induction h with
  | nil => exact .nil
  | @cons i nodes _ ih =>
      apply Path.cons
      rw [heq i List.mem_cons_self]
      exact ih fun j hj => heq j (List.mem_cons_of_mem _ hj)

theorem Path.start_eq_none_iff (h : Path next start nodes) : start = none ↔ nodes = [] := by
  cases h with
  | nil => simp
  | cons _ => simp

/-- What follows a node that is visited is visited too. -/
theorem Path.suffix {i : ι} (h : Path next start nodes) (hi : i ∈ nodes) :
    ∃ tail, Path next (some i) tail ∧ tail <:+ nodes := by
  induction h with
  | nil => cases hi
  | @cons j nodes htail ih =>
      obtain rfl | hmem := List.mem_cons.mp hi
      · exact ⟨_, .cons htail, List.suffix_refl _⟩
      · obtain ⟨tail, hpath, hsuffix⟩ := ih hmem
        exact ⟨tail, hpath, hsuffix.trans (List.suffix_cons j nodes)⟩

/-- **No cycles.** A path that ends visits no node twice. -/
theorem Path.nodup (h : Path next start nodes) : nodes.Nodup := by
  induction h with
  | nil => exact List.nodup_nil
  | @cons i nodes htail ih =>
      refine List.nodup_cons.mpr ⟨?_, ih⟩
      intro hi
      -- what follows the second visit is as long as what follows the first one
      obtain ⟨tail, hpath, hsuffix⟩ := htail.suffix hi
      have hlen := hsuffix.length_le
      rw [hpath.unique (.cons htail), List.length_cons] at hlen
      omega

theorem Path.next_getLast {last : ι} (h : Path next start nodes)
    (hlast : nodes.getLast? = some last) : next last = none := by
  induction h with
  | nil => cases hlast
  | @cons i nodes htail ih =>
      cases nodes with
      | nil =>
          obtain rfl : i = last := by simpa using hlast
          cases hnext : next i with
          | none => rfl
          | some j =>
              rw [hnext] at htail
              cases htail
      | cons j nodes => exact ih (by rwa [List.getLast?_cons_cons] at hlast)

theorem Path.singleton {i : ι} (h : next i = none) : Path next (some i) [i] := by
  apply Path.cons
  rw [h]
  exact .nil

/-- **Linking a node behind the last one.** -/
theorem Path.snoc [DecidableEq ι] {last i : ι} (h : Path next start nodes)
    (hlast : nodes.getLast? = some last) (hi : i ∉ nodes) (hnext : next i = none) :
    Path (Function.update next last (some i)) start (nodes ++ [i]) := by
  induction h with
  | nil => cases hlast
  | @cons j nodes htail ih =>
      have hij : i ≠ j := fun heq => hi (heq ▸ List.mem_cons_self)
      cases nodes with
      | nil =>
          obtain rfl : j = last := by simpa using hlast
          apply Path.cons
          rw [Function.update_self]
          apply Path.singleton
          rwa [Function.update_of_ne hij]
      | cons k nodes =>
          rw [List.getLast?_cons_cons] at hlast
          have hj : j ≠ last := by
            rintro rfl
            have hnodup := (Path.cons htail).nodup
            exact (List.nodup_cons.mp hnodup).1 (List.mem_of_getLast? hlast)
          apply Path.cons
          rw [Function.update_of_ne hj]
          exact ih hlast fun hmem => hi (List.mem_cons_of_mem _ hmem)

end Linked
