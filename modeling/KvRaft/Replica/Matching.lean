import KvRaft.Replica.Election

/-!
# KvRaft.Replica.Matching

Log matching.  A log is *sound* when each of its entries sits on top of
exactly the prefix that the leader of the entry's term had below it
(`Sound`).  The log of a term's leader only grows, so soundness is stable, and
two sound logs that hold an entry of the same term at the same index agree up
to that index (`Sound.take_eq`).

Nothing here depends on entries being kept: a node may drop any part of its
log, as long as what it takes over is a prefix of its leader's log.  Only the
part of a log below its `base` is sound; a log is *clean* when that is all of
it.
-/

namespace KvRaft.Replica

open HasTerm

variable {ι ε : Type} [HasTerm ε] {voters : List ι} {s s' : State ι ε} {n c v : ι} {l l' : List ε}

/-- Every entry of `l` has below it what the leader of its term had. -/
def Sound (s : State ι ε) (l : List ε) : Prop :=
  ∀ i e, l[i]? = some e → l.take (i + 1) <+: s.hist (term e)

namespace Sound

theorem nil (s : State ι ε) : Sound s [] := by
  intro i e h
  simp at h

/-- Leader logs grow, so soundness lasts. -/
theorem mono (hh : ∀ t, s.hist t <+: s'.hist t) (h : Sound s l) : Sound s' l :=
  fun i e he => (h i e he).trans (hh (term e))

theorem of_isPrefix (h : Sound s l) (hp : l' <+: l) : Sound s l' := by
  intro i e he
  obtain ⟨x, rfl⟩ := hp
  have hi : i < l'.length := (List.getElem?_eq_some_iff.mp he).1
  have he' : (l' ++ x)[i]? = some e := by rw [List.getElem?_append_left hi, he]
  have htake : (l' ++ x).take (i + 1) = l'.take (i + 1) := List.take_append_of_le_length hi
  exact htake ▸ h i e he'

/-- The prefix below a positive term is a prefix of that term's leader log. -/
theorem take_isPrefix_hist (h : Sound s l) {i : Nat} (hi : i ≤ l.length) (hpos : 0 < i) :
    l.take i <+: s.hist (termAt l i) := by
  obtain ⟨j, rfl⟩ : ∃ j, i = j + 1 := ⟨i - 1, by omega⟩
  rw [termAt_succ_of_lt hi]
  exact h j l[j] (List.getElem?_eq_getElem hi)

/-- **Log matching**: sound logs with the same term at an index agree up to it. -/
theorem take_eq (h : Sound s l) (h' : Sound s l') {i : Nat} (hi : i ≤ l.length)
    (hi' : i ≤ l'.length) (ht : termAt l i = termAt l' i) : l.take i = l'.take i := by
  rcases Nat.eq_zero_or_pos i with h0 | hpos
  · subst h0; simp
  · have hp := h.take_isPrefix_hist hi hpos
    have hp' := h'.take_isPrefix_hist hi' hpos
    rw [ht] at hp
    refine (List.prefix_of_prefix_length_le hp hp' ?_).eq_of_length ?_ <;>
      simp only [List.length_take] <;> omega

/-- A sound log is a prefix of the log of the leader of its last term. -/
theorem isPrefix_hist_lastTerm (h : Sound s l) (hne : l ≠ []) : l <+: s.hist (lastTerm l) := by
  have hpos : 0 < l.length := List.length_pos_iff.mpr hne
  have := h.take_isPrefix_hist (Nat.le_refl _) hpos
  rwa [List.take_length] at this

/-- One more entry of a leader keeps a log sound when it is on that leader's log. -/
theorem concat {e : ε} (h : Sound s l) (he : l ++ [e] <+: s.hist (term e)) :
    Sound s (l ++ [e]) := by
  intro i x hx
  obtain ⟨hi, hxe⟩ := List.getElem?_eq_some_iff.mp hx
  rw [List.length_append, List.length_singleton] at hi
  rcases Nat.lt_or_ge i l.length with hlt | hge
  · rw [List.getElem?_append_left hlt] at hx
    rw [List.take_append_of_le_length hlt]
    exact h i x hx
  · have hil : i = l.length := by omega
    subst hil
    have hxe' : e = x := by simpa using hxe
    subst hxe'
    rw [List.take_of_length_le (by simp)]
    exact he

end Sound

/-- All of the node's log comes from one leader. -/
def State.Clean (s : State ι ε) (n : ι) : Prop := s.base n = (s.log n).length

/-- Logs fit the leaders that made them. -/
structure Logs (s : State ι ε) : Prop where
  split : ∀ t, ∃ x, s.hist t = s.elected t ++ x ∧ ∀ e ∈ x, term e = t
  elected_lt : ∀ t, ∀ e ∈ s.elected t, term e < t
  lead : ∀ t c, s.leader t = some c → s.term c = t → s.log c = s.hist t ∧ s.Clean c
  base_le : ∀ n, s.base n ≤ (s.log n).length
  log_sound : ∀ n, Sound s ((s.log n).take (s.base n))
  elected_sound : ∀ t, Sound s (s.elected t)
  log_le : ∀ n, ∀ e ∈ s.log n, term e ≤ s.term n

namespace Logs

theorem init : Logs (State.init : State ι ε) where
  split := fun _ => ⟨[], rfl, by simp⟩
  elected_lt := by intro t e he; simp [State.init] at he
  lead := by intro t c h; simp [State.init] at h
  base_le := fun _ => Nat.le_refl _
  log_sound := fun _ => .nil _
  elected_sound := fun _ => .nil _
  log_le := by intro n e he; simp [State.init] at he

/-- The log a leader was elected with stays at the bottom of its log. -/
theorem elected_isPrefix (h : Logs s) (t : Nat) : s.elected t <+: s.hist t := by
  obtain ⟨x, hx, _⟩ := h.split t
  exact ⟨x, hx.symm⟩

/-- No entry of a leader's log is newer than its term. -/
theorem hist_le (h : Logs s) {t : Nat} {e : ε} (he : e ∈ s.hist t) : term e ≤ t := by
  obtain ⟨x, hx, hxt⟩ := h.split t
  rw [hx] at he
  rcases List.mem_append.mp he with he | he
  · exact Nat.le_of_lt (h.elected_lt t e he)
  · exact Nat.le_of_eq (hxt e he)

/-- An entry of the leader's own term lies above the log it was elected with. -/
theorem elected_length_lt (h : Logs s) {t i : Nat} (hi : termAt (s.hist t) i = t) (hpos : 0 < t) :
    (s.elected t).length < i := by
  by_contra hle
  have hile : i ≤ (s.elected t).length := by omega
  rw [termAt_eq_of_isPrefix (h.elected_isPrefix t) hile] at hi
  cases i with
  | zero => rw [termAt_zero] at hi; omega
  | succ i =>
      rw [termAt_succ_of_lt hile] at hi
      have := h.elected_lt t _ (List.getElem_mem hile)
      omega

theorem hist_sound (h : Logs s) (t : Nat) : Sound s (s.hist t) := by
  intro i e he
  obtain ⟨x, hx, hxt⟩ := h.split t
  rcases Nat.lt_or_ge i (s.elected t).length with hlt | hge
  · have he' := he
    rw [hx, List.getElem?_append_left hlt] at he'
    have htake : (s.hist t).take (i + 1) = (s.elected t).take (i + 1) := by
      rw [hx, List.take_append_of_le_length hlt]
    exact htake ▸ h.elected_sound t i e he'
  · have he' := he
    rw [hx, List.getElem?_append_right hge] at he'
    rw [hxt e (List.mem_of_getElem? he')]
    exact List.take_prefix _ _

/-- Terms do not decrease along a sound log. -/
theorem termAt_le (h : Logs s) (hl : Sound s l) {i j : Nat} (hij : i ≤ j) (hj : j ≤ l.length) :
    termAt l i ≤ termAt l j := by
  cases i with
  | zero => simp
  | succ i =>
      have hp := hl.take_isPrefix_hist hj (by omega)
      have hmem : l[i] ∈ l.take j := List.mem_take_iff_getElem.mpr ⟨i, by omega, rfl⟩
      rw [termAt_succ_of_lt (by omega : i < l.length)]
      exact h.hist_le (hp.subset hmem)

theorem termAt_le_lastTerm (h : Logs s) (hl : Sound s l) {i : Nat} (hi : i ≤ l.length) :
    termAt l i ≤ lastTerm l := h.termAt_le hl hi (Nat.le_refl _)

/-- A log that ends in a term without a leader cannot exist. -/
theorem term_ne_of_unled (hE : Elections voters s) (hl : Sound s l) {t : Nat}
    (hun : s.leader t = none) {e : ε} (he : e ∈ l) : term e ≠ t := by
  intro ht
  obtain ⟨i, hi, rfl⟩ := List.getElem_of_mem he
  have hp := hl i l[i] (List.getElem?_eq_getElem hi)
  rw [ht, (hE.unled t hun).1] at hp
  have := hp.length_le
  simp only [List.length_take, List.length_nil] at this
  omega

/-- A clean log is sound. -/
theorem sound_of_clean (h : Logs s) (hn : s.Clean n) : Sound s (s.log n) := by
  have := h.log_sound n
  rwa [hn, List.take_length] at this

theorem commitTo (h : Logs s) (t m : Nat) : Logs (s.commitTo t m) :=
  ⟨h.split, h.elected_lt, h.lead, h.base_le, h.log_sound, h.elected_sound, h.log_le⟩

variable [DecidableEq ι]

theorem raise (hE : Elections voters s) (h : Logs s) (n : ι) (t : Nat) : Logs (s.raise n t) where
  split := h.split
  elected_lt := h.elected_lt
  lead := fun u c hl hu => by
    refine h.lead u c hl ?_
    have hle := (hE.leader_le u c hl).2
    have hge : s.term c ≤ u := hu ▸ (Extends.raise s n t).term c
    omega
  base_le := h.base_le
  log_sound := h.log_sound
  elected_sound := h.elected_sound
  log_le := fun m e he => Nat.le_trans (h.log_le m e he) ((Extends.raise s n t).term m)

theorem stand (hE : Elections voters s) (h : Logs s) (c : ι) : Logs (s.stand c) where
  split := h.split
  elected_lt := h.elected_lt
  lead := fun u x hl hu => by
    refine h.lead u x hl ?_
    have hle := (hE.leader_le u x hl).2
    have hge : s.term x ≤ u := hu ▸ (Extends.stand hE c).term x
    omega
  base_le := h.base_le
  log_sound := h.log_sound
  elected_sound := h.elected_sound
  log_le := fun m e he => Nat.le_trans (h.log_le m e he) ((Extends.stand hE c).term m)

theorem castVote (h : Logs s) (v c : ι) : Logs (s.castVote v c) := by
  unfold State.castVote
  split
  · exact ⟨h.split, h.elected_lt, h.lead, h.base_le, h.log_sound, h.elected_sound, h.log_le⟩
  · exact h

theorem count (h : Logs s) (c v : ι) : Logs (s.count c v) :=
  ⟨h.split, h.elected_lt, h.lead, h.base_le, h.log_sound, h.elected_sound, h.log_le⟩

theorem acknowledge (h : Logs s) (n : ι) (m : Nat) : Logs (s.acknowledge n m) :=
  ⟨h.split, h.elected_lt, h.lead, h.base_le, h.log_sound, h.elected_sound, h.log_le⟩

theorem elect (hE : Elections voters s) (h : Logs s) (c : ι)
    (hun : s.leader (s.term c) = none) (hclean : s.Clean c) : Logs (s.elect c) := by
  have hgrow := (Extends.elect hE c hun).hist
  exact {
    split := fun t => by
      by_cases ht : t = s.term c
      · subst ht
        -- the history of the new term is the log its leader stood with
        exact ⟨[], by simp [State.elect], by simp⟩
      · simpa only [State.elect, Function.update_of_ne ht] using h.split t
    elected_lt := fun t e he => by
      by_cases ht : t = s.term c
      · subst ht
        simp only [State.elect, Function.update_self] at he
        -- entries of the leader's own term cannot be there yet
        have hne := term_ne_of_unled hE (h.sound_of_clean hclean) hun he
        have hle := h.log_le c e he
        omega
      · simp only [State.elect, Function.update_of_ne ht] at he
        exact h.elected_lt t e he
    lead := fun t x hl hx => by
      by_cases ht : t = s.term c
      · subst ht
        have hxc : c = x := by simpa [State.elect] using hl
        subst hxc
        exact ⟨by simp [State.elect], hclean⟩
      · simp only [State.elect, Function.update_of_ne ht] at hl ⊢
        exact h.lead t x hl hx
    base_le := h.base_le
    log_sound := fun n => (h.log_sound n).mono hgrow
    elected_sound := fun t => by
      by_cases ht : t = s.term c
      · subst ht
        simp only [State.elect, Function.update_self]
        exact (h.sound_of_clean hclean).mono hgrow
      · simp only [State.elect, Function.update_of_ne ht]
        exact (h.elected_sound t).mono hgrow
    log_le := h.log_le }

theorem append (h : Logs s) (c : ι) (e : ε) (hl : s.leader (s.term c) = some c)
    (he : term e = s.term c) : Logs (s.append c e) := by
  have hgrow := (Extends.append s c e).hist
  obtain ⟨hlog, hclean⟩ := h.lead _ c hl rfl
  have hself := s.append_hist_self c e
  exact {
    split := fun t => by
      by_cases ht : t = s.term c
      · -- the new entry is one of its leader's term
        subst ht
        obtain ⟨x, hx, hxt⟩ := h.split (s.term c)
        refine ⟨x ++ [e], ?_, ?_⟩
        · rw [hself, hx, List.append_assoc]
          rfl
        · intro y hy
          rcases List.mem_append.mp hy with hy | hy
          · exact hxt y hy
          · rw [List.mem_singleton.mp hy, he]
      · simpa only [State.append, Function.update_of_ne ht] using h.split t
    elected_lt := h.elected_lt
    lead := fun t x hx hxt => by
      by_cases ht : t = s.term c
      · subst ht
        have hxc : x = c := Option.some.inj (hx.symm.trans hl)
        subst hxc
        refine ⟨?_, by simp [State.Clean, State.append]⟩
        rw [hself]
        simp only [State.append, Function.update_self, hlog]
      · -- another leader is in another term
        have hxc : x ≠ c := by
          intro hxc
          subst hxc
          exact ht hxt.symm
        simp only [State.Clean, State.append, Function.update_of_ne ht, Function.update_of_ne hxc]
        exact h.lead t x hx hxt
    base_le := fun n => by
      by_cases hn : n = c
      · subst hn; simp [State.append]
      · simp only [State.append, Function.update_of_ne hn]; exact h.base_le n
    log_sound := fun n => by
      by_cases hn : n = c
      · subst hn
        simp only [State.append, Function.update_self]
        rw [List.take_of_length_le (by simp)]
        -- the prefix up to the new entry is the history itself
        refine ((h.sound_of_clean hclean).mono hgrow).concat ?_
        rw [he]
        exact (by rw [hself, hlog] : s.log n ++ [e] <+: (s.append n e).hist (s.term n))
      · simp only [State.append, Function.update_of_ne hn]
        exact (h.log_sound n).mono hgrow
    elected_sound := fun t => (h.elected_sound t).mono hgrow
    log_le := fun n y hy => by
      by_cases hn : n = c
      · subst hn
        simp only [State.append, Function.update_self] at hy
        rcases List.mem_append.mp hy with hy | hy
        · exact h.log_le n y hy
        · rw [List.mem_singleton.mp hy, he]
          exact Nat.le_refl _
      · simp only [State.append, Function.update_of_ne hn] at hy
        exact h.log_le n y hy }

theorem graft (h : Logs s) (n : ι) (p : List ε) (hl : s.leader (s.term n) ≠ some n)
    (hp : Sound s p) (hle : ∀ e ∈ p, term e ≤ s.term n) : Logs (s.graft n p) where
  split := h.split
  elected_lt := h.elected_lt
  lead := fun t x hx hxt => by
    -- the node leads nothing, so no leader's log changes
    have hxn : x ≠ n := by
      intro hxn
      subst hxn
      subst hxt
      exact hl hx
    simp only [State.Clean, State.graft, Function.update_of_ne hxn]
    exact h.lead t x hx hxt
  base_le := fun m => by
    by_cases hm : m = n
    · subst hm; simp [State.graft]
    · simp only [State.graft, Function.update_of_ne hm]; exact h.base_le m
  log_sound := fun m => by
    by_cases hm : m = n
    · subst hm
      simp only [State.graft, Function.update_self, List.take_left]
      exact hp
    · simp only [State.graft, Function.update_of_ne hm]
      exact h.log_sound m
  elected_sound := h.elected_sound
  log_le := fun m e he => by
    by_cases hm : m = n
    · subst hm
      simp only [State.graft, Function.update_self] at he
      rcases List.mem_append.mp he with he | he
      · exact hle e he
      · exact h.log_le m e (List.mem_of_mem_drop he)
    · simp only [State.graft, Function.update_of_ne hm] at he
      exact h.log_le m e he

theorem install (h : Logs s) (n : ι) (p : List ε) (hl : s.leader (s.term n) ≠ some n)
    (hp : Sound s p) (hle : ∀ e ∈ p, term e ≤ s.term n) : Logs (s.install n p) where
  split := h.split
  elected_lt := h.elected_lt
  lead := fun t x hx hxt => by
    -- here too no leader's log changes
    have hxn : x ≠ n := by
      intro hxn
      subst hxn
      subst hxt
      exact hl hx
    simp only [State.Clean, State.install, Function.update_of_ne hxn]
    exact h.lead t x hx hxt
  base_le := fun m => by
    by_cases hm : m = n
    · subst hm; simp [State.install]
    · simp only [State.install, Function.update_of_ne hm]; exact h.base_le m
  log_sound := fun m => by
    by_cases hm : m = n
    · subst hm
      simp only [State.install, Function.update_self, List.take_length]
      exact hp
    · simp only [State.install, Function.update_of_ne hm]
      exact h.log_sound m
  elected_sound := h.elected_sound
  log_le := fun m e he => by
    by_cases hm : m = n
    · subst hm
      simp only [State.install, Function.update_self] at he
      exact hle e he
    · simp only [State.install, Function.update_of_ne hm] at he
      exact h.log_le m e he

theorem replicate (h : Logs s) (n : ι) (m : Nat) (hl : s.leader (s.term n) ≠ some n) :
    Logs (s.replicate n m) := by
  have hp : (s.hist (s.term n)).take m <+: s.hist (s.term n) := List.take_prefix _ _
  refine (h.install n _ hl ((h.hist_sound _).of_isPrefix hp) ?_).acknowledge n m
  exact fun e he => h.hist_le (List.mem_of_mem_take he)

end Logs

end KvRaft.Replica
