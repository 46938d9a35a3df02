import KvRaft.Replica.State

/-!
# KvRaft.Replica.Election

Votes and leaders.  The invariant `Elections` says that every vote belongs to
a term its voter and its candidate have reached, that a candidate only counts
votes that were cast for it, once each, and that a leader has counted a
majority.  It speaks of terms, votes and leaders only, never of what the logs
hold.

* `Elections.unique` — **election safety**: a majority of counted votes in a
  term that has a leader was counted by that leader;
* `Extends.*` — every move only adds to the history.
-/

namespace KvRaft.Replica

variable {ι ε : Type} {voters : List ι} {s s' : State ι ε} {n c v : ι}

/-- Votes and leaders fit together. -/
structure Elections (voters : List ι) (s : State ι ε) : Prop where
  vote_le : ∀ v t c, s.vote v t = some c → t ≤ s.term v
  stood_le : ∀ v t c, s.vote v t = some c → t ≤ s.term c
  tally_vote : ∀ c t v, v ∈ s.tally c t → s.vote v t = some c
  tally_nodup : ∀ c t, (s.tally c t).Nodup
  tally_sub : ∀ c t v, v ∈ s.tally c t → v ∈ voters
  won : ∀ t c, s.leader t = some c → IsMajority voters (s.tally c t)
  leader_le : ∀ t c, s.leader t = some c → 0 < t ∧ t ≤ s.term c
  member : ∀ t c, s.leader t = some c → c ∈ voters
  unled : ∀ t, s.leader t = none → s.hist t = [] ∧ ∀ n, s.acked n t = 0

namespace Elections

theorem init (voters : List ι) : Elections voters (State.init : State ι ε) where
  vote_le := by intro v t c h; simp [State.init] at h
  stood_le := by intro v t c h; simp [State.init] at h
  tally_vote := by intro c t v h; simp [State.init] at h
  tally_nodup := by intro c t; simp [State.init]
  tally_sub := by intro c t v h; simp [State.init] at h
  won := by intro t c h; simp [State.init] at h
  leader_le := by intro t c h; simp [State.init] at h
  member := by intro t c h; simp [State.init] at h
  unled := by intro t _; simp [State.init]

/-- **Election safety.**  Two majorities of votes counted in one term were
counted by the same node. -/
theorem unique (h : Elections voters s) {t : Nat} {c' : ι} (hl : s.leader t = some c)
    (hm : IsMajority voters (s.tally c' t)) : c' = c := by
  obtain ⟨v, hv, hv'⟩ := (h.won t c hl).meet hm
  have h₁ := h.tally_vote c t v hv
  have h₂ := h.tally_vote c' t v hv'
  rw [h₁] at h₂
  exact (Option.some.inj h₂).symm

/-- A candidate that has a majority in its term is elected in a term that has
no leader yet, unless it leads that term already. -/
theorem unled_of_majority (h : Elections voters s) {t : Nat}
    (hm : IsMajority voters (s.tally c t)) (hne : s.leader t ≠ some c) : s.leader t = none := by
  cases hl : s.leader t with
  | none => rfl
  | some c' =>
      rw [h.unique hl hm] at hne
      exact absurd hl hne

/-- The next term of a node is one in which it has not voted. -/
theorem vote_next (h : Elections voters s) (c : ι) : s.vote c (s.term c + 1) = none := by
  cases hv : s.vote c (s.term c + 1) with
  | none => rfl
  | some c' =>
      have := h.vote_le c _ c' hv
      omega

/-- Moves that leave votes, tallies and leaders alone keep the invariant. -/
theorem of_same (h : Elections voters s) (hterm : ∀ n, s.term n ≤ s'.term n)
    (hvote : s'.vote = s.vote) (htally : s'.tally = s.tally) (hleader : s'.leader = s.leader)
    (hhist : ∀ t, s.leader t = none → s'.hist t = s.hist t)
    (hacked : ∀ t n, s.leader t = none → s'.acked n t = s.acked n t) :
    Elections voters s' where
  vote_le := fun v t c hv => Nat.le_trans (h.vote_le v t c (hvote ▸ hv)) (hterm v)
  stood_le := fun v t c hv => Nat.le_trans (h.stood_le v t c (hvote ▸ hv)) (hterm c)
  tally_vote := by rw [hvote, htally]; exact h.tally_vote
  tally_nodup := by rw [htally]; exact h.tally_nodup
  tally_sub := by rw [htally]; exact h.tally_sub
  won := by rw [htally, hleader]; exact h.won
  leader_le := fun t c hl => by
    have hle := h.leader_le t c (hleader ▸ hl)
    exact ⟨hle.1, Nat.le_trans hle.2 (hterm c)⟩
  member := by rw [hleader]; exact h.member
  unled := fun t hl => by
    rw [hleader] at hl
    have hun := h.unled t hl
    exact ⟨by rw [hhist t hl, hun.1], fun n => by rw [hacked t n hl, hun.2 n]⟩

/-- In a term without a leader nothing at the place of an update of another,
led term changes. -/
private theorem ne_of_led {t u : Nat} (hl : s.leader t ≠ none) (hu : s.leader u = none) :
    u ≠ t := by
  intro h
  subst h
  exact hl hu

theorem commitTo (h : Elections voters s) (t m : Nat) : Elections voters (s.commitTo t m) :=
  h.of_same (fun _ => Nat.le_refl _) rfl rfl rfl (fun _ _ => rfl) (fun _ _ _ => rfl)

variable [DecidableEq ι]

theorem raise (h : Elections voters s) (n : ι) (t : Nat) : Elections voters (s.raise n t) := by
  refine h.of_same (fun m => ?_) rfl rfl rfl (fun _ _ => rfl) (fun _ _ _ => rfl)
  by_cases hm : m = n
  · subst hm
    simp only [State.raise, Function.update_self]
    exact Nat.le_max_left _ _
  · simp only [State.raise, Function.update_of_ne hm]
    exact Nat.le_refl _

theorem stand (h : Elections voters s) (c : ι) : Elections voters (s.stand c) where
  vote_le := fun v t c' hv => by
    rcases set₂_cases s.vote c (s.term c + 1) (some c) v t with ⟨rfl, rfl, _⟩ | ⟨_, heq⟩
    · -- the candidate's own vote is in the term it has just begun
      simp [State.stand]
    · have hle := h.vote_le v t c' (heq ▸ hv)
      by_cases hvc : v = c
      · subst hvc; simp only [State.stand, Function.update_self]; omega
      · simpa only [State.stand, Function.update_of_ne hvc] using hle
  stood_le := fun v t c' hv => by
    rcases set₂_cases s.vote c (s.term c + 1) (some c) v t with ⟨rfl, rfl, heq⟩ | ⟨_, heq⟩
    · have hcc : v = c' := Option.some.inj (heq.symm.trans hv)
      subst hcc
      simp [State.stand]
    · have hle := h.stood_le v t c' (heq ▸ hv)
      by_cases hvc : c' = c
      · subst hvc; simp only [State.stand, Function.update_self]; omega
      · simpa only [State.stand, Function.update_of_ne hvc] using hle
  tally_vote := fun c' t v hv => by
    have hold := h.tally_vote c' t v hv
    rcases set₂_cases s.vote c (s.term c + 1) (some c) v t with ⟨rfl, rfl, _⟩ | ⟨_, heq⟩
    · -- nobody was counted in that term
      rw [h.vote_next v] at hold
      contradiction
    · exact heq.trans hold
  tally_nodup := h.tally_nodup
  tally_sub := h.tally_sub
  won := h.won
  leader_le := fun t c' hl => by
    have hle := h.leader_le t c' hl
    by_cases hc : c' = c
    · subst hc; simp only [State.stand, Function.update_self]; omega
    · simpa only [State.stand, Function.update_of_ne hc] using hle
  member := h.member
  unled := h.unled

theorem castVote (h : Elections voters s) (v : ι) (hc : s.term v ≤ s.term c) :
    Elections voters (s.castVote v c) := by
  unfold State.castVote
  split
  · next hnone =>
    -- a vote that was cast stays cast
    have hkeep : ∀ w t x, s.vote w t = some x →
        set₂ s.vote v (s.term v) (some c) w t = some x := by
      intro w t x hw
      rcases set₂_cases s.vote v (s.term v) (some c) w t with ⟨rfl, rfl, _⟩ | ⟨_, heq⟩
      · rw [hnone] at hw; contradiction
      · exact heq.trans hw
    exact {
      vote_le := fun w t x hw => by
        rcases set₂_cases s.vote v (s.term v) (some c) w t with ⟨rfl, rfl, _⟩ | ⟨_, heq⟩
        · exact Nat.le_refl _
        · exact h.vote_le w t x (heq ▸ hw)
      stood_le := fun w t x hw => by
        rcases set₂_cases s.vote v (s.term v) (some c) w t with ⟨rfl, rfl, heq⟩ | ⟨_, heq⟩
        · have hcx : c = x := Option.some.inj (heq.symm.trans hw)
          subst hcx
          exact hc
        · exact h.stood_le w t x (heq ▸ hw)
      tally_vote := fun x t w hw => hkeep w t x (h.tally_vote x t w hw)
      tally_nodup := h.tally_nodup
      tally_sub := h.tally_sub
      won := h.won
      leader_le := h.leader_le
      member := h.member
      unled := h.unled }
  · exact h

theorem count (h : Elections voters s) (c : ι) (hv : s.vote v (s.term c) = some c)
    (hnew : v ∉ s.tally c (s.term c)) (hmem : v ∈ voters) : Elections voters (s.count c v) := by
  -- the only tally that changes is the one `v` is put in front of
  have htally : ∀ x t, (x = c ∧ t = s.term c ∧
        (s.count c v).tally x t = v :: s.tally c (s.term c)) ∨
      (s.count c v).tally x t = s.tally x t := by
    intro x t
    rcases set₂_cases s.tally c (s.term c) (v :: s.tally c (s.term c)) x t with
      ⟨hx, ht, heq⟩ | ⟨_, heq⟩
    · exact .inl ⟨hx, ht, heq⟩
    · exact .inr heq
  have hcases : ∀ x t w, w ∈ (s.count c v).tally x t →
      (w = v ∧ x = c ∧ t = s.term c) ∨ w ∈ s.tally x t := by
    intro x t w hw
    rcases htally x t with ⟨rfl, rfl, heq⟩ | heq
    · rw [heq] at hw
      rcases List.mem_cons.mp hw with hw | hw
      · exact .inl ⟨hw, rfl, rfl⟩
      · exact .inr hw
    · exact .inr (heq ▸ hw)
  have hnodup : ∀ x t, ((s.count c v).tally x t).Nodup := by
    intro x t
    rcases htally x t with ⟨rfl, rfl, heq⟩ | heq
    · rw [heq]
      exact List.nodup_cons.mpr ⟨hnew, h.tally_nodup _ _⟩
    · rw [heq]
      exact h.tally_nodup _ _
  have hsub : ∀ x t w, w ∈ (s.count c v).tally x t → w ∈ voters := by
    intro x t w hw
    rcases hcases x t w hw with ⟨rfl, _, _⟩ | hw
    · exact hmem
    · exact h.tally_sub x t w hw
  exact {
    vote_le := h.vote_le
    stood_le := h.stood_le
    tally_vote := fun x t w hw => by
      rcases hcases x t w hw with ⟨rfl, rfl, rfl⟩ | hw
      · exact hv
      · exact h.tally_vote x t w hw
    tally_nodup := hnodup
    tally_sub := hsub
    won := fun t x hl => by
      refine ⟨hnodup x t, hsub x t, ?_⟩
      have hmore := (h.won t x hl).more
      -- a majority with one more vote is a majority
      rcases htally x t with ⟨rfl, rfl, heq⟩ | heq
      · rw [heq, List.length_cons]
        omega
      · rw [heq]
        exact hmore
    leader_le := h.leader_le
    member := h.member
    unled := h.unled }

theorem elect (h : Elections voters s) (c : ι) (hpos : 0 < s.term c) (hmem : c ∈ voters)
    (hwon : IsMajority voters (s.tally c (s.term c))) : Elections voters (s.elect c) where
  vote_le := h.vote_le
  stood_le := h.stood_le
  tally_vote := h.tally_vote
  tally_nodup := h.tally_nodup
  tally_sub := h.tally_sub
  won := fun t x hl => by
    by_cases ht : t = s.term c
    · -- in the new leader's term, its tally is the majority
      subst ht
      simp only [State.elect, Function.update_self, Option.some.injEq] at hl
      exact hl ▸ hwon
    · simp only [State.elect, Function.update_of_ne ht] at hl
      exact h.won t x hl
  leader_le := fun t x hl => by
    by_cases ht : t = s.term c
    · subst ht
      simp only [State.elect, Function.update_self, Option.some.injEq] at hl
      subst hl
      exact ⟨hpos, Nat.le_refl _⟩
    · simp only [State.elect, Function.update_of_ne ht] at hl
      exact h.leader_le t x hl
  member := fun t x hl => by
    by_cases ht : t = s.term c
    · subst ht
      simp only [State.elect, Function.update_self, Option.some.injEq] at hl
      exact hl ▸ hmem
    · simp only [State.elect, Function.update_of_ne ht] at hl
      exact h.member t x hl
  unled := fun t hl => by
    by_cases ht : t = s.term c
    · subst ht
      simp [State.elect] at hl
    · simp only [State.elect, Function.update_of_ne ht] at hl ⊢
      refine ⟨(h.unled t hl).1, fun n => ?_⟩
      rw [set₂_of_ne (.inr ht)]
      exact (h.unled t hl).2 n

theorem append (h : Elections voters s) (c : ι) (e : ε) (hl : s.leader (s.term c) ≠ none) :
    Elections voters (s.append c e) :=
  h.of_same (fun _ => Nat.le_refl _) rfl rfl rfl
    (fun _ hu => Function.update_of_ne (ne_of_led hl hu) _ _)
    (fun _ _ hu => set₂_of_ne (.inr (ne_of_led hl hu)))

theorem acknowledge (h : Elections voters s) (n : ι) (m : Nat)
    (hl : s.leader (s.term n) ≠ none) : Elections voters (s.acknowledge n m) :=
  h.of_same (fun _ => Nat.le_refl _) rfl rfl rfl (fun _ _ => rfl)
    (fun _ _ hu => set₂_of_ne (.inr (ne_of_led hl hu)))

theorem replicate (h : Elections voters s) (n : ι) (m : Nat)
    (hl : s.leader (s.term n) ≠ none) : Elections voters (s.replicate n m) :=
  h.of_same (fun _ => Nat.le_refl _) rfl rfl rfl (fun _ _ => rfl)
    (fun _ _ hu => set₂_of_ne (.inr (ne_of_led hl hu)))

theorem install (h : Elections voters s) (n : ι) (p : List ε) :
    Elections voters (s.install n p) :=
  h.of_same (fun _ => Nat.le_refl _) rfl rfl rfl (fun _ _ => rfl) (fun _ _ _ => rfl)

theorem graft (h : Elections voters s) (n : ι) (p : List ε) : Elections voters (s.graft n p) :=
  h.of_same (fun _ => Nat.le_refl _) rfl rfl rfl (fun _ _ => rfl) (fun _ _ _ => rfl)

end Elections

/-! ## Every move only adds to the history -/

namespace Extends

/-- Moves that keep votes, leaders and the logs they were elected with. -/
private theorem of_same (hterm : ∀ n, s.term n ≤ s'.term n) (hvote : s'.vote = s.vote)
    (hstood : s'.stood = s.stood) (hleader : s'.leader = s.leader)
    (helected : s'.elected = s.elected) (hhist : ∀ t, s.hist t <+: s'.hist t)
    (hacked : ∀ n t, s.acked n t ≤ s'.acked n t) (hcommit : ∀ t, s.commit t ≤ s'.commit t) :
    Extends s s' where
  term := hterm
  vote := by rw [hvote]; exact fun _ _ _ h => h
  stood := by rw [hstood]; exact fun _ _ _ => rfl
  leader := by rw [hleader]; exact fun _ _ h => h
  elected := by rw [helected]; exact fun _ _ _ => rfl
  hist := hhist
  acked := hacked
  commit := hcommit

theorem commitTo (s : State ι ε) (t m : Nat) : Extends s (s.commitTo t m) := by
  refine of_same (fun _ => Nat.le_refl _) rfl rfl rfl rfl (fun _ => List.prefix_refl _)
    (fun _ _ => Nat.le_refl _) (fun u => ?_)
  by_cases hu : u = t
  · subst hu
    simp only [State.commitTo, Function.update_self]
    exact Nat.le_max_left _ _
  · simp only [State.commitTo, Function.update_of_ne hu]
    exact Nat.le_refl _

variable [DecidableEq ι]

theorem raise (s : State ι ε) (n : ι) (t : Nat) : Extends s (s.raise n t) := by
  refine of_same (fun m => ?_) rfl rfl rfl rfl (fun _ => List.prefix_refl _)
    (fun _ _ => Nat.le_refl _) (fun _ => Nat.le_refl _)
  by_cases hm : m = n
  · subst hm
    simp only [State.raise, Function.update_self]
    exact Nat.le_max_left _ _
  · simp only [State.raise, Function.update_of_ne hm]
    exact Nat.le_refl _

theorem stand (h : Elections voters s) (c : ι) : Extends s (s.stand c) where
  term := fun n => by
    by_cases hn : n = c
    · subst hn; simp [State.stand]
    · simp [State.stand, Function.update_of_ne hn]
  vote := fun v t x hv => by
    rcases set₂_cases s.vote c (s.term c + 1) (some c) v t with ⟨rfl, rfl, _⟩ | ⟨_, heq⟩
    · rw [h.vote_next v] at hv; contradiction
    · exact heq.trans hv
  stood := fun x t ht => by
    refine set₂_of_ne ?_
    by_cases hx : x = c
    · subst hx; right; omega
    · exact .inl hx
  leader := fun _ _ hl => hl
  elected := fun _ _ _ => rfl
  hist := fun _ => List.prefix_refl _
  acked := fun _ _ => Nat.le_refl _
  commit := fun _ => Nat.le_refl _

theorem castVote (s : State ι ε) (v c : ι) : Extends s (s.castVote v c) := by
  unfold State.castVote
  split
  · next hnone =>
    refine ⟨fun _ => Nat.le_refl _, fun w t x hw => ?_, fun _ _ _ => rfl, fun _ _ h => h,
      fun _ _ _ => rfl, fun _ => List.prefix_refl _, fun _ _ => Nat.le_refl _,
      fun _ => Nat.le_refl _⟩
    rcases set₂_cases s.vote v (s.term v) (some c) w t with ⟨rfl, rfl, _⟩ | ⟨_, heq⟩
    · rw [hnone] at hw; contradiction
    · exact heq.trans hw
  · exact .refl s

theorem count (s : State ι ε) (c v : ι) : Extends s (s.count c v) :=
  of_same (fun _ => Nat.le_refl _) rfl rfl rfl rfl (fun _ => List.prefix_refl _)
    (fun _ _ => Nat.le_refl _) (fun _ => Nat.le_refl _)

theorem elect (h : Elections voters s) (c : ι) (hl : s.leader (s.term c) = none) :
    Extends s (s.elect c) where
  term := fun _ => Nat.le_refl _
  vote := fun _ _ _ hv => hv
  stood := fun _ _ _ => rfl
  leader := fun t x hx => by
    by_cases ht : t = s.term c
    · subst ht; rw [hl] at hx; contradiction
    · simpa only [State.elect, Function.update_of_ne ht] using hx
  elected := fun t x hx => by
    by_cases ht : t = s.term c
    · subst ht; rw [hl] at hx; contradiction
    · simp only [State.elect, Function.update_of_ne ht]
  hist := fun t => by
    by_cases ht : t = s.term c
    · subst ht
      -- the term had no leader, so its history was empty
      rw [(h.unled _ hl).1]
      exact List.nil_prefix
    · simp only [State.elect, Function.update_of_ne ht]
      exact List.prefix_refl _
  acked := fun n t => by
    rcases set₂_cases s.acked c (s.term c) (s.log c).length n t with ⟨rfl, rfl, _⟩ | ⟨_, heq⟩
    · rw [(h.unled _ hl).2]
      exact Nat.zero_le _
    · exact Nat.le_of_eq heq.symm
  commit := fun _ => Nat.le_refl _

/-- Raising one entry of the acknowledgement table. -/
private theorem acked_le (s : State ι ε) (n : ι) (t k : Nat) (m : ι) (u : Nat) :
    s.acked m u ≤ set₂ s.acked n t (max (s.acked n t) k) m u := by
  rcases set₂_cases s.acked n t (max (s.acked n t) k) m u with ⟨rfl, rfl, heq⟩ | ⟨_, heq⟩
  · rw [heq]; exact Nat.le_max_left _ _
  · exact Nat.le_of_eq heq.symm

theorem append (s : State ι ε) (c : ι) (e : ε) : Extends s (s.append c e) := by
  refine of_same (fun _ => Nat.le_refl _) rfl rfl rfl rfl (fun t => ?_)
    (acked_le s c _ _) (fun _ => Nat.le_refl _)
  by_cases ht : t = s.term c
  · subst ht
    simp only [State.append, Function.update_self]
    exact List.prefix_append _ _
  · simp only [State.append, Function.update_of_ne ht]
    exact List.prefix_refl _

theorem acknowledge (s : State ι ε) (n : ι) (m : Nat) : Extends s (s.acknowledge n m) :=
  of_same (fun _ => Nat.le_refl _) rfl rfl rfl rfl (fun _ => List.prefix_refl _)
    (acked_le s n _ _) (fun _ => Nat.le_refl _)

theorem replicate (s : State ι ε) (n : ι) (m : Nat) : Extends s (s.replicate n m) :=
  of_same (fun _ => Nat.le_refl _) rfl rfl rfl rfl (fun _ => List.prefix_refl _)
    (acked_le s n _ _) (fun _ => Nat.le_refl _)

theorem graft (s : State ι ε) (n : ι) (p : List ε) : Extends s (s.graft n p) :=
  of_same (fun _ => Nat.le_refl _) rfl rfl rfl rfl (fun _ => List.prefix_refl _)
    (fun _ _ => Nat.le_refl _) (fun _ => Nat.le_refl _)

theorem install (s : State ι ε) (n : ι) (p : List ε) : Extends s (s.install n p) :=
  of_same (fun _ => Nat.le_refl _) rfl rfl rfl rfl (fun _ => List.prefix_refl _)
    (fun _ _ => Nat.le_refl _) (fun _ => Nat.le_refl _)

end Extends

end KvRaft.Replica
