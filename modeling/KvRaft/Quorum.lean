import Mathlib.Data.List.Sort
import Mathlib.Data.List.Perm.Subperm

/-!
# KvRaft.Quorum

Majorities of a list of voters, and the order statistic that a leader reads
its commit candidate from.

* `IsMajority.meet` — two majorities of one voter list share a member, and so
  do majorities of lists that differ by one voter (`IsMajority.meet_fewer`);
* `le_insertionSort_iff_lt_countP` — the element at position `k` of a list
  sorted downwards is the largest value that more than `k` of its elements reach.
-/

namespace KvRaft

/-- `q` selects, without repetition, more than half of `voters`. -/
structure IsMajority (voters q : List ι) : Prop where
  nodup : q.Nodup
  sub : ∀ v ∈ q, v ∈ voters
  more : voters.length < 2 * q.length

/-- Two majorities of the same voters share a member. -/
theorem IsMajority.meet {voters q q' : List ι} (h : IsMajority voters q)
    (h' : IsMajority voters q') : ∃ v, v ∈ q ∧ v ∈ q' := by
  by_contra hno
  have hdis : q.Disjoint q' := fun v hv hv' => hno ⟨v, hv, hv'⟩
  have hnd : (q ++ q').Nodup := List.nodup_append'.mpr ⟨h.nodup, h'.nodup, hdis⟩
  have hsub : q ++ q' ⊆ voters := by
    intro v hv
    rcases List.mem_append.mp hv with hv | hv
    · exact h.sub v hv
    · exact h'.sub v hv
  have hlen := (hnd.subperm hsub).length_le
  have hm := h.more
  have hm' := h'.more
  rw [List.length_append] at hlen
  omega

/-- So do a majority and one of fewer voters, where all but one of the voters
are among the fewer. -/
theorem IsMajority.meet_fewer {voters fewer q q' : List ι} {x : ι} (h : IsMajority voters q)
    (h' : IsMajority fewer q') (hall : ∀ v ∈ voters, v = x ∨ v ∈ fewer)
    (hlt : fewer.length < voters.length) : ∃ v, v ∈ q ∧ v ∈ q' := by
  by_contra hno
  have hdis : q.Disjoint q' := fun v hv hv' => hno ⟨v, hv, hv'⟩
  have hnd : (q ++ q').Nodup := List.nodup_append'.mpr ⟨h.nodup, h'.nodup, hdis⟩
  have hsub : q ++ q' ⊆ x :: fewer := by
    intro v hv
    rcases List.mem_append.mp hv with hv | hv
    · exact List.mem_cons.mpr (hall v (h.sub v hv))
    · exact List.mem_cons_of_mem x (h'.sub v hv)
  have hlen := (hnd.subperm hsub).length_le
  have hm := h.more
  have hm' := h'.more
  rw [List.length_append, List.length_cons] at hlen
  omega

/-- More than half of the voters are like the members of a majority. -/
theorem IsMajority.countP {voters q : List ι} (h : IsMajority voters q) {p : ι → Bool}
    (hp : ∀ v ∈ q, p v = true) : voters.length < 2 * voters.countP p := by
  have hsub : q ⊆ voters.filter p := fun v hv => List.mem_filter.mpr ⟨h.sub v hv, hp v hv⟩
  have hlen := (h.nodup.subperm hsub).length_le
  rw [← List.countP_eq_length_filter] at hlen
  have hm := h.more
  omega

/-- In a list sorted downwards, the element at position `k` reaches exactly what
more than `k` elements reach. -/
theorem le_getElem?_iff_lt_countP {m : List Nat} (hm : m.Pairwise (· ≥ ·)) {k x : Nat}
    (h : m[k]? = some x) (y : Nat) : y ≤ x ↔ k < m.countP (fun z => decide (y ≤ z)) := by
  induction m generalizing k with
  | nil => simp at h
  | cons a m ih =>
      obtain ⟨hle, hm⟩ := List.pairwise_cons.mp hm
      rw [List.countP_cons]
      by_cases hya : y ≤ a
      · cases k with
        | zero =>
            cases h
            simp [hya]
        | succ k =>
            rw [ih hm h]
            simp [hya]
      · -- nothing reaches `y`
        have hzero : m.countP (fun z => decide (y ≤ z)) = 0 := by
          rw [List.countP_eq_zero]
          intro z hz
          have := hle z hz
          simp only [decide_eq_true_eq]
          omega
        have hxa : x ≤ a := by
          cases k with
          | zero => cases h; exact Nat.le_refl _
          | succ k => exact hle x (List.mem_of_getElem? h)
        simp only [hzero, hya, decide_false, Bool.false_eq_true, if_false]
        omega

/-- The same of a list that is sorted downwards before. -/
theorem le_insertionSort_iff_lt_countP {l : List Nat} {k x : Nat}
    (h : (l.insertionSort (· ≥ ·))[k]? = some x) (y : Nat) :
    y ≤ x ↔ k < l.countP (fun z => decide (y ≤ z)) := by
  rw [le_getElem?_iff_lt_countP (List.pairwise_insertionSort _ l) h,
    (List.perm_insertionSort _ l).countP_eq]

end KvRaft
