import Mathlib.Data.List.Basic
import Mathlib.Data.UInt

/-!
# KvRaft.Successor

The successor of a point on the ring of 64-bit numbers: the first entry of a map
at or after the point, or the first entry of all where there is none.

With subtraction that wraps around, `p - x` is the way from `x` ahead to `p`, and
the successor is the entry with the shortest one (`successor_eq_some_iff`).  So it
is clear what new entries do to it (`successor_of_insert`), and what becomes of it
when others are erased (`successor_of_erase`).
-/

namespace KvRaft

open Std

section

variable {α β : Type} {cmp : α → α → Ordering} [TransCmp cmp]

theorem getEntryGE?_eq_find? (t : ExtTreeMap α β cmp) (k : α) :
    t.getEntryGE? k = t.toList.find? fun e => (cmp e.1 k).isGE := by
  obtain ⟨t⟩ := t
  induction t using ExtDTreeMap.inductionOn with
  | _ m =>
      let _ : Ord α := ⟨cmp⟩
      have hordered : m.inner.Ordered := m.wf.ordered
      change DTreeMap.Internal.Impl.Const.getEntryGE? k m.inner =
        (DTreeMap.Internal.Impl.Const.toList m.inner).find? fun e => (cmp e.1 k).isGE
      rw [DTreeMap.Internal.Impl.Const.getEntryGE?_eq_map,
        DTreeMap.Internal.Impl.getEntryGE?_eq_find? hordered,
        DTreeMap.Internal.Impl.Const.toList_eq_toListModel_map, List.find?_map]
      rfl

theorem minEntry?_eq_head? (t : ExtTreeMap α β cmp) : t.minEntry? = t.toList.head? := by
  obtain ⟨t⟩ := t
  induction t using ExtDTreeMap.inductionOn with
  | _ m =>
      let _ : Ord α := ⟨cmp⟩
      have hordered : m.inner.Ordered := m.wf.ordered
      change DTreeMap.Internal.Impl.Const.minEntry? m.inner =
        (DTreeMap.Internal.Impl.Const.toList m.inner).head?
      rw [DTreeMap.Internal.Impl.Const.minEntry?_eq_minEntry?,
        DTreeMap.Internal.Impl.minEntry?_eq_minEntry? hordered,
        Internal.List.minEntry?_eq_head? hordered,
        DTreeMap.Internal.Impl.Const.toList_eq_toListModel_map, List.head?_map]

end

variable {β : Type} {t t' : ExtTreeMap UInt64 β} {x : UInt64} {e : UInt64 × β}

/-- The first entry at or after `x`, or the first one of all. -/
def successor (t : ExtTreeMap UInt64 β) (x : UInt64) : Option (UInt64 × β) :=
  (t.getEntryGE? x).or t.minEntry?

/-- The entry with the shortest way ahead from `x`. -/
structure Nearest (t : ExtTreeMap UInt64 β) (x : UInt64) (e : UInt64 × β) : Prop where
  mem : t[e.1]? = some e.2
  le : ∀ q b, t[q]? = some b → e.1 - x ≤ q - x

/-- There is only one. -/
theorem Nearest.unique {e' : UInt64 × β} (h : Nearest t x e) (h' : Nearest t x e') : e = e' := by
  have hway : e.1 - x = e'.1 - x :=
    UInt64.le_antisymm (h.le e'.1 e'.2 h'.mem) (h'.le e.1 e.2 h.mem)
  have hkey : e.1 = e'.1 := by
    rw [← UInt64.sub_add_cancel e.1 x, hway, UInt64.sub_add_cancel]
  have hvalue := h.mem
  rw [hkey, h'.mem] at hvalue
  exact Prod.ext hkey (Option.some.inj hvalue).symm

/-- From `x` the way is shorter to what lies ahead than to what lies behind, and on
either side it grows with the point. -/
theorem sub_le_sub_of_ahead {p q : UInt64} (h : p ≤ q ∧ (x ≤ p ∨ q < x) ∨ x ≤ p ∧ q < x) :
    p - x ≤ q - x := by
  have hp := p.toNat_lt
  have hq := q.toNat_lt
  have hx := x.toNat_lt
  simp only [UInt64.le_iff_toNat_le, UInt64.lt_iff_toNat_lt, UInt64.toNat_sub] at h ⊢
  omega

/-- The keys of a map come in ascending order. -/
theorem pairwise_toList (t : ExtTreeMap UInt64 β) : t.toList.Pairwise fun a b => a.1 < b.1 := by
  have hkeys := t.ordered_keys_toList
  exact hkeys.imp fun h => compareOfLessAndEq_eq_lt.mp h

theorem head_le {e : UInt64 × β} {after : List (UInt64 × β)} {q : UInt64} {b : β}
    (hordered : (e :: after).Pairwise fun a b => a.1 < b.1) (hq : (q, b) ∈ e :: after) :
    e.1 ≤ q := by
  rcases List.mem_cons.mp hq with rfl | hq
  · exact UInt64.le_refl _
  · exact UInt64.le_of_lt ((List.pairwise_cons.mp hordered).1 _ hq)

theorem nearest_of_successor (h : successor t x = some e) : Nearest t x e := by
  have hmem (q : UInt64) (b : β) : t[q]? = some b ↔ (q, b) ∈ t.toList :=
    ExtTreeMap.mem_toList_iff_getElem?_eq_some.symm
  have hordered := pairwise_toList t
  rw [successor, getEntryGE?_eq_find?, minEntry?_eq_head?] at h
  cases hfind : t.toList.find? fun e => (compare e.1 x).isGE with
  | some e' =>
      -- what comes before the entry lies behind `x`
      rw [hfind, Option.some_or] at h
      cases h
      obtain ⟨hge, before, after, hlist, hbehind⟩ := List.find?_eq_some_iff_append.mp hfind
      have hx : x ≤ e.1 := LawfulOrderOrd.isGE_compare _ _ |>.mp hge
      rw [hlist] at hordered hmem
      refine ⟨(hmem _ _).mpr (by simp), fun q b hq => sub_le_sub_of_ahead ?_⟩
      rcases List.mem_append.mp ((hmem q b).mp hq) with hq | hq
      · have hlt : ¬ x ≤ q := fun hle => by
          simpa [LawfulOrderOrd.isGE_compare _ _ |>.mpr hle] using hbehind _ hq
        exact .inr ⟨hx, UInt64.not_le.mp hlt⟩
      · have hle := head_le (List.pairwise_append.mp hordered).2.1 hq
        exact .inl ⟨hle, .inl hx⟩
  | none =>
      -- everything lies behind `x`
      rw [hfind, Option.none_or] at h
      obtain ⟨after, hlist⟩ := List.head?_eq_some_iff.mp h
      have hbehind := List.find?_eq_none.mp hfind
      rw [hlist] at hordered hmem hbehind
      refine ⟨(hmem _ _).mpr (by simp), fun q b hq => sub_le_sub_of_ahead ?_⟩
      have hq := (hmem q b).mp hq
      have hlt : ¬ x ≤ q := fun hle =>
        hbehind _ hq (LawfulOrderOrd.isGE_compare _ _ |>.mpr hle)
      exact .inl ⟨head_le hordered hq, .inr (UInt64.not_le.mp hlt)⟩

/-- Only the empty map has no successor. -/
theorem getElem?_of_successor_eq_none (h : successor t x = none) (q : UInt64) : t[q]? = none := by
  rw [successor, minEntry?_eq_head?, Option.or_eq_none_iff, List.head?_eq_none_iff] at h
  refine Option.eq_none_iff_forall_not_mem.mpr fun b hb => ?_
  have hmem := ExtTreeMap.mem_toList_iff_getElem?_eq_some.mpr hb
  rw [h.2] at hmem
  cases hmem

/-- **The successor is the nearest entry.** -/
theorem successor_eq_some_iff : successor t x = some e ↔ Nearest t x e := by
  refine ⟨nearest_of_successor, fun h => ?_⟩
  cases hsuccessor : successor t x with
  | none =>
      have hnone := getElem?_of_successor_eq_none hsuccessor e.1
      rw [h.mem] at hnone
      cases hnone
  | some e' => rw [h.unique (nearest_of_successor hsuccessor)]

@[simp]
theorem successor_empty (x : UInt64) : successor (∅ : ExtTreeMap UInt64 β) x = none := by
  cases hsuccessor : successor (∅ : ExtTreeMap UInt64 β) x with
  | none => rfl
  | some e => simpa using (nearest_of_successor hsuccessor).mem

/-! ## Other maps -/

/-- New entries, all of one value: the successor is one of them or the old one. -/
theorem successor_of_insert {ps : List UInt64} {b : β}
    (h : ∀ q : UInt64, t'[q]? = if q ∈ ps then some b else t[q]?) (x : UInt64) :
    successor t' x = successor t x ∨ (successor t' x).map Prod.snd = some b := by
  cases hsuccessor : successor t' x with
  | none =>
      left
      cases hold : successor t x with
      | none => rfl
      | some e =>
          have hnone := getElem?_of_successor_eq_none hsuccessor e.1
          rw [h, (successor_eq_some_iff.mp hold).mem] at hnone
          split at hnone <;> cases hnone
  | some e =>
      have hnearest := successor_eq_some_iff.mp hsuccessor
      have hmem := hnearest.mem
      rw [h] at hmem
      split at hmem
      · right
        exact hmem.symm
      · -- an old entry that is the nearest of all is the nearest of the old ones
        left
        refine (successor_eq_some_iff.mpr ⟨hmem, fun q b' hq => ?_⟩).symm
        by_cases hps : q ∈ ps
        · exact hnearest.le q b (by rw [h, if_pos hps])
        · exact hnearest.le q b' (by rw [h, if_neg hps, hq])

/-- A successor that is not erased itself stays the successor. -/
theorem successor_of_erase {ps : List UInt64}
    (h : ∀ q : UInt64, t'[q]? = if q ∈ ps then none else t[q]?)
    (hstays : ∀ e ∈ successor t x, e.1 ∉ ps) : successor t' x = successor t x := by
  have hsub (q : UInt64) (b : β) (hq : t'[q]? = some b) : t[q]? = some b := by
    rw [h] at hq
    split at hq
    · cases hq
    · exact hq
  cases hold : successor t x with
  | none =>
      cases hsuccessor : successor t' x with
      | none => rfl
      | some e =>
          have hmem := hsub _ _ (successor_eq_some_iff.mp hsuccessor).mem
          rw [getElem?_of_successor_eq_none hold] at hmem
          cases hmem
  | some e =>
      have hnearest := successor_eq_some_iff.mp hold
      refine successor_eq_some_iff.mpr ⟨?_, fun q b hq => hnearest.le q b (hsub q b hq)⟩
      rw [h, if_neg (hstays e hold), hnearest.mem]

end KvRaft
