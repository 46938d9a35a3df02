import Mathlib.Data.List.Basic

/-!
# KvRaft.Drain

Loops that take records off something until there is none to take: `next` gives
the first record and what is left then, or nothing, and the loop ends.

* `Drains` — a run of such a loop that has ended, with the records it took and
  what is left;
* `drains_drain` — a loop ends if every turn leaves less;
* `Drains.append` — on a buffer that grows between the runs, the loop takes the
  records that it would take from the whole, if `next` takes no other record
  when more has arrived (`Incremental`).
-/

namespace KvRaft

/-- The loop takes `xs` from the first state and ends in the second one. -/
inductive Drains {σ α : Type} (next : σ → Option (α × σ)) : σ → List α → σ → Prop
  | stop {s : σ} (h : next s = none) : Drains next s [] s
  | turn {s t rest : σ} {x : α} {xs : List α} (h : next s = some (x, t))
      (hrest : Drains next t xs rest) : Drains next s (x :: xs) rest

/-- The loop with at most `turns` turns. -/
def drain {σ α : Type} (next : σ → Option (α × σ)) : Nat → σ → List α × σ
  | 0, s => ([], s)
  | turns + 1, s =>
      match next s with
      | none => ([], s)
      | some (x, t) =>
          let (xs, rest) := drain next turns t
          (x :: xs, rest)

section

variable {σ α : Type} {next : σ → Option (α × σ)}

theorem Drains.next_eq_none {s rest : σ} {xs : List α} (h : Drains next s xs rest) :
    next rest = none := by
  induction h with
  | stop h => exact h
  | turn _ _ ih => exact ih

theorem Drains.unique {s rest rest' : σ} {xs xs' : List α} (h : Drains next s xs rest)
    (h' : Drains next s xs' rest') : xs = xs' ∧ rest = rest' := by
  induction h generalizing xs' with
  | stop h =>
      cases h' with
      | stop => exact ⟨rfl, rfl⟩
      | turn h' => rw [h] at h'; cases h'
  | turn h _ ih =>
      cases h' with
      | stop h' => rw [h] at h'; cases h'
      | turn h' hrest' =>
          rw [h] at h'
          cases h'
          obtain ⟨rfl, rfl⟩ := ih hrest'
          exact ⟨rfl, rfl⟩

/-- The loop ends if there is less left after every turn. -/
theorem drains_drain {size : σ → Nat} (hsize : ∀ s x t, next s = some (x, t) → size t < size s)
    {turns : Nat} {s : σ} (hturns : size s ≤ turns) :
    Drains next s (drain next turns s).1 (drain next turns s).2 := by
  induction turns generalizing s with
  | zero =>
      -- no turns are left, but then nothing is left to take either
      refine .stop ?_
      cases hnext : next s with
      | none => rfl
      | some p =>
          have := hsize s p.1 p.2 hnext
          omega
  | succ turns ih =>
      rw [drain]
      cases hnext : next s with
      | none => exact .stop hnext
      | some p =>
          have := hsize s p.1 p.2 hnext
          exact .turn hnext (ih (by omega))

/-- A loop that is seen through `f`: the turns are those of `next'`. -/
theorem Drains.of_map {τ : Type} {next' : τ → Option (α × τ)} {f : σ → τ}
    (hf : ∀ s, (next s).map (Prod.map id f) = next' (f s)) {t rest : τ} {xs : List α}
    (h : Drains next' t xs rest) {s : σ} (hs : f s = t) :
    ∃ s', Drains next s xs s' ∧ f s' = rest := by
  induction h generalizing s with
  | stop h =>
      rw [← hs, ← hf, Option.map_eq_none_iff] at h
      exact ⟨s, .stop h, hs⟩
  | turn h _ ih =>
      rw [← hs, ← hf, Option.map_eq_some_iff] at h
      obtain ⟨⟨x, u⟩, hnext, heq⟩ := h
      cases heq
      obtain ⟨s', hrest, heq⟩ := ih rfl
      exact ⟨s', .turn hnext hrest, heq⟩

end

/-! ## Buffers that grow -/

section

variable {α β : Type} {next : List β → Option (α × List β)}

/-- A record that can be taken is taken alike when more has arrived. -/
def Incremental (next : List β → Option (α × List β)) : Prop :=
  ∀ b x b', next b = some (x, b') → ∀ c, next (b ++ c) = some (x, b' ++ c)

theorem Drains.append (hincremental : Incremental next) {a r c rest : List β} {xs ys : List α}
    (h : Drains next a xs r) (h' : Drains next (r ++ c) ys rest) :
    Drains next (a ++ c) (xs ++ ys) rest := by
  induction h with
  | stop => exact h'
  | turn h _ ih => exact .turn (hincremental _ _ _ h c) (ih h')

end

end KvRaft
