import KvRaft.Replica.Matching

/-!
# KvRaft.Replica.Completeness

Leader completeness.  A prefix that a majority has acknowledged in a term is
kept by those nodes as long as every later leader has it (`Commits.retained`),
so it is in the log of every voter when it votes in a later term
(`Commits.balloted`); the election restriction carries it to the log the next
leader is elected with.  By induction on the term every later leader has it:

* `leader_complete` — what the leader of a term commits is in the log of
  every later leader when it is elected;
* `Committed.comparable` — any two committed prefixes are one a prefix of the
  other.

The one requirement on a node's log that goes beyond log matching is the
hypothesis of `Commits.replicate`: taking over a prefix of the leader's log
must not throw away entries that agree with it.

A node may also put a committed prefix under entries that do not fit it
(`Commits.graft`).  Such leftovers are older than the commit they sit on
(`Grafted`): they match nothing a later leader sends
(`Commits.not_matched`) and win no election (`Commits.clean_of_majority`).
-/

namespace KvRaft.Replica

open HasTerm

variable {ι ε : Type} [HasTerm ε] {voters : List ι} {s s' : State ι ε} {n c v : ι}

/-- `p` was committed by a leader of a term up to `t`. -/
def Committed (s : State ι ε) (t : Nat) (p : List ε) : Prop :=
  ∃ u ≤ t, p <+: (s.hist u).take (s.commit u)

/-- `l` starts with `p`, and what it holds above `p` does not make it look
older than `p` when `p` ends in term `t`. -/
def Holds (l p : List ε) (t : Nat) : Prop := p <+: l ∧ (lastTerm p = t → t ≤ lastTerm l)

/-- What the node holds above its base is left over from before a committed
prefix was put under it: entries of leaders whose logs do not have that prefix. -/
structure Grafted (s : State ι ε) (n : ι) : Prop where
  committed : s.Clean n ∨ Committed s (s.term n) ((s.log n).take (s.base n))
  leftover : ∀ i e, s.base n ≤ i → (s.log n)[i]? = some e →
    i < (s.hist (term e)).length ∧ ¬ (s.log n).take (s.base n) <+: s.hist (term e)

/-- Acknowledged prefixes are kept, and commits rest on a majority of
acknowledgements. -/
structure Commits (voters : List ι) (s : State ι ε) : Prop where
  acked_le : ∀ n t, s.acked n t ≤ (s.hist t).length
  acked_term : ∀ n t, 0 < s.acked n t → t ≤ s.term n
  acked_lead : ∀ t c, s.leader t = some c → s.acked c t = (s.hist t).length
  retained : ∀ n t k, k ≤ s.acked n t →
    (∀ u, s.leader u ≠ none → t < u → u ≤ s.term n → (s.hist t).take k <+: s.elected u) →
    Holds (s.log n) ((s.hist t).take k) t
  balloted : ∀ v u c, s.vote v u = some c →
    s.leader u = none ∨ (s.leader u = some c ∧ v ∈ s.tally c u) →
    ∀ t k, t < u → k ≤ s.acked v t →
    (∀ w, s.leader w ≠ none → t < w → w < u → (s.hist t).take k <+: s.elected w) →
    Holds (s.ballot v u) ((s.hist t).take k) t
  upToDate : ∀ v t c, s.vote v t = some c → UpToDate (s.stood c t) (s.ballot v t)
  stood_elected : ∀ t c, s.leader t = some c → s.elected t = s.stood c t
  quorum : ∀ t, s.commit t ≠ 0 → s.commit t ≤ (s.hist t).length ∧
    termAt (s.hist t) (s.commit t) = t ∧
    ∃ q, IsMajority voters q ∧ ∀ v ∈ q, s.commit t ≤ s.acked v t
  grafted : ∀ n, Grafted s n

theorem Holds.nil (l : List ε) (t : Nat) : Holds l [] t := by
  refine ⟨List.nil_prefix, fun h => ?_⟩
  have h0 : 0 = t := h
  exact h0 ▸ Nat.zero_le _

/-- A sound log holds each of its prefixes. -/
theorem Holds.of_sound (hL : Logs s) {l p : List ε} (hl : Sound s l) (hp : p <+: l) (t : Nat) :
    Holds l p t := by
  refine ⟨hp, fun h => ?_⟩
  rw [← h, lastTerm, ← termAt_eq_of_isPrefix hp (Nat.le_refl _)]
  exact hL.termAt_le_lastTerm hl hp.length_le

/-! ## Leader completeness -/

/-- **Domination carries a prefix.**  If `b` holds the prefix `p` that ends in
an entry of term `t`, `a` is up to date with respect to `b`, and every leader
between `t` and the last term of `a` was elected with `p`, then `a` holds `p`. -/
theorem isPrefix_of_upToDate (hE : Elections voters s) (hL : Logs s) {a b p : List ε} {t : Nat}
    (hpos : 0 < t) (ha : Sound s a) (hp : p <+: s.hist t)
    (hpt : lastTerm p = t) (hpb : Holds b p t) (hup : UpToDate a b)
    (hlater : ∀ u, s.leader u ≠ none → t < u → u ≤ lastTerm a → p <+: s.elected u) :
    p <+: a := by
  have hple : p.length ≤ b.length := hpb.1.length_le
  have hlast : t ≤ lastTerm b := hpb.2 hpt
  have hta : t ≤ lastTerm a := by
    rcases hup with hlt | ⟨heq, _⟩ <;> omega
  have hane : a ≠ [] := by
    intro h
    subst h
    simp [lastTerm] at hta
    omega
  have hah : a <+: s.hist (lastTerm a) := ha.isPrefix_hist_lastTerm hane
  rcases Nat.lt_or_ge t (lastTerm a) with hlt | hge
  · -- a later term: its own leader was elected with the prefix
    have hled : s.leader (lastTerm a) ≠ none := by
      intro hun
      rw [(hE.unled _ hun).1] at hah
      exact hane (List.prefix_nil.mp hah)
    have hpe := hlater _ hled hlt (Nat.le_refl _)
    have hlen : (s.elected (lastTerm a)).length < a.length := by
      refine hL.elected_length_lt ?_ (by omega)
      rw [termAt_eq_of_isPrefix hah (Nat.le_refl _)]
      rfl
    refine List.prefix_of_prefix_length_le (hpe.trans (hL.elected_isPrefix _)) hah ?_
    have := hpe.length_le
    omega
  · -- the same term: both end in the same leader's log, and `a` is the longer
    have heq : lastTerm a = t := by omega
    rw [heq] at hah
    refine List.prefix_of_prefix_length_le hp hah ?_
    rcases hup with hlt | ⟨_, hle⟩ <;> omega

omit [HasTerm ε] in
/-- No one leads term `0`. -/
theorem unled_zero (hE : Elections voters s) : s.leader 0 = none := by
  cases hl : s.leader 0 with
  | none => rfl
  | some x => exact absurd (hE.leader_le 0 x hl).1 (Nat.lt_irrefl 0)

/-- A term with a commit has a leader, and the committed prefix ends in it. -/
theorem Commits.lastTerm_commit (hE : Elections voters s) (hC : Commits voters s) {t : Nat}
    (h0 : s.commit t ≠ 0) : 0 < t ∧ lastTerm ((s.hist t).take (s.commit t)) = t := by
  obtain ⟨hlen, hterm, _⟩ := hC.quorum t h0
  refine ⟨?_, ?_⟩
  · rcases Nat.eq_zero_or_pos t with h | h
    · subst h
      rw [(hE.unled 0 (unled_zero hE)).1, List.length_nil] at hlen
      omega
    · exact h
  · have hplen : ((s.hist t).take (s.commit t)).length = s.commit t := by
      rw [List.length_take]; omega
    rw [lastTerm, hplen, termAt_take (Nat.le_refl _) hlen, hterm]

/-- **Leader completeness.**  What the leader of term `t` has committed is in
the log every leader of a later term is elected with. -/
theorem leader_complete (hE : Elections voters s) (hL : Logs s) (hC : Commits voters s)
    {t : Nat} : ∀ u, t < u → s.leader u ≠ none → (s.hist t).take (s.commit t) <+: s.elected u := by
  intro u
  induction u using Nat.strong_induction_on with
  | _ u ih =>
    intro htu hled
    obtain ⟨c, hc⟩ := Option.ne_none_iff_exists'.mp hled
    by_cases h0 : s.commit t = 0
    · rw [h0]; exact List.nil_prefix
    obtain ⟨_, _, q, hq, hacked⟩ := hC.quorum t h0
    obtain ⟨hpos, hplast⟩ := hC.lastTerm_commit hE h0
    -- the commit's majority and the leader's voters share a node
    obtain ⟨v, hvq, hvt⟩ := hq.meet (hE.won u c hc)
    have hvote := hE.tally_vote c u v hvt
    have hballot : Holds (s.ballot v u) ((s.hist t).take (s.commit t)) t :=
      hC.balloted v u c hvote (.inr ⟨hc, hvt⟩) t _ htu (hacked v hvq)
        (fun w hw htw hwu => ih w hwu htw hw)
    refine isPrefix_of_upToDate hE hL hpos (hL.elected_sound u)
      ⟨_, List.take_append_drop _ _⟩ hplast hballot ?_ ?_
    · rw [hC.stood_elected u c hc]
      exact hC.upToDate v u c hvote
    · intro w hw htw hwl
      refine ih w ?_ htw hw
      -- the last entry of `elected u` is older than `u`
      have hne : s.elected u ≠ [] := by
        intro h
        rw [h] at hwl
        simp [lastTerm] at hwl
        omega
      have hlt : lastTerm (s.elected u) < u := by
        rw [lastTerm]
        obtain ⟨i, hi⟩ : ∃ i, (s.elected u).length = i + 1 :=
          ⟨(s.elected u).length - 1, by have := List.length_pos_iff.mpr hne; omega⟩
        rw [hi, termAt_succ_of_lt (by omega)]
        exact hL.elected_lt u _ (List.getElem_mem _)
      omega

/-! ## Committed prefixes -/

namespace Committed

variable {t t' : Nat} {p q : List ε}

omit [HasTerm ε] in
theorem nil (s : State ι ε) (t : Nat) : Committed s t [] := ⟨t, Nat.le_refl _, List.nil_prefix⟩

omit [HasTerm ε] in
theorem of_isPrefix (h : Committed s t p) (hq : q <+: p) : Committed s t q := by
  obtain ⟨u, hu, hp⟩ := h
  exact ⟨u, hu, hq.trans hp⟩

omit [HasTerm ε] in
theorem term_mono (h : Committed s t p) (ht : t ≤ t') : Committed s t' p := by
  obtain ⟨u, hu, hp⟩ := h
  exact ⟨u, Nat.le_trans hu ht, hp⟩

omit [HasTerm ε] in
/-- What is committed stays committed. -/
theorem mono (hx : Extends s s') (h : Committed s t p) : Committed s' t p := by
  obtain ⟨u, hu, hp⟩ := h
  refine ⟨u, hu, hp.trans ?_⟩
  exact ((hx.hist u).take _).trans (List.take_prefix_take_left (hx.commit u))

theorem le (hL : Logs s) (h : Committed s t p) {e : ε} (he : e ∈ p) : term e ≤ t := by
  obtain ⟨u, hu, hp⟩ := h
  exact Nat.le_trans (hL.hist_le (List.mem_of_mem_take (hp.subset he))) hu

theorem sound (hL : Logs s) (h : Committed s t p) : Sound s p := by
  obtain ⟨u, _, hp⟩ := h
  exact (hL.hist_sound u).of_isPrefix (hp.trans ⟨_, List.take_append_drop _ _⟩)

/-- A committed prefix is on the log of every leader of its term or later. -/
theorem isPrefix_hist (hE : Elections voters s) (hL : Logs s) (hC : Commits voters s)
    (h : Committed s t p) (ht : t ≤ t') (hled : s.leader t' ≠ none) : p <+: s.hist t' := by
  obtain ⟨u, hu, hp⟩ := h
  rcases Nat.lt_or_ge u t' with hlt | hge
  · exact hp.trans ((leader_complete hE hL hC t' hlt hled).trans (hL.elected_isPrefix t'))
  · have hut : u = t' := by omega
    subst hut
    exact hp.trans ⟨_, List.take_append_drop _ _⟩

/-- What a log has committed it shares with the leader of that term or later. -/
theorem take_eq_hist (hE : Elections voters s) (hL : Logs s) (hC : Commits voters s) {l : List ε}
    {i : Nat} (h : Committed s t (l.take i)) (hi : i ≤ l.length) (ht : t ≤ t')
    (hled : s.leader t' ≠ none) :
    i ≤ (s.hist t').length ∧ l.take i = (s.hist t').take i := by
  have hp := h.isPrefix_hist hE hL hC ht hled
  have hlen : (l.take i).length = i := by rw [List.length_take]; omega
  have heq := List.prefix_iff_eq_take.mp hp
  rw [hlen] at heq
  exact ⟨hlen ▸ hp.length_le, heq⟩

/-- **Committed prefixes agree**: of any two, one is a prefix of the other. -/
theorem comparable (hE : Elections voters s) (hL : Logs s) (hC : Commits voters s)
    (h : Committed s t p) (h' : Committed s t' q) : p <+: q ∨ q <+: p := by
  obtain ⟨u, _, hp⟩ := h
  obtain ⟨u', _, hq⟩ := h'
  have hunled : ∀ w r, s.leader w = none → r <+: (s.hist w).take (s.commit w) → r = [] := by
    intro w r hw hr
    rw [(hE.unled w hw).1, List.take_nil] at hr
    exact List.prefix_nil.mp hr
  by_cases hu : s.leader u = none
  · rw [hunled u p hu hp]; exact .inl List.nil_prefix
  by_cases hu' : s.leader u' = none
  · rw [hunled u' q hu' hq]; exact .inr List.nil_prefix
  -- both lie on the log of the later of the two leaders
  have hon : ∃ w, p <+: s.hist w ∧ q <+: s.hist w := by
    rcases Nat.le_total u u' with hle | hle
    · exact ⟨u', isPrefix_hist hE hL hC ⟨u, Nat.le_refl _, hp⟩ hle hu',
        hq.trans ⟨_, List.take_append_drop _ _⟩⟩
    · exact ⟨u, hp.trans ⟨_, List.take_append_drop _ _⟩,
        isPrefix_hist hE hL hC ⟨u', Nat.le_refl _, hq⟩ hle hu⟩
  obtain ⟨w, hpw, hqw⟩ := hon
  rcases Nat.le_total p.length q.length with hle | hle
  · exact .inl (List.prefix_of_prefix_length_le hpw hqw hle)
  · exact .inr (List.prefix_of_prefix_length_le hqw hpw hle)

/-- Committed prefixes hold the same entry at the same place. -/
theorem getElem?_eq (hE : Elections voters s) (hL : Logs s) (hC : Commits voters s)
    (h : Committed s t p) (h' : Committed s t' q) {i : Nat} {e e' : ε} (he : p[i]? = some e)
    (he' : q[i]? = some e') : e = e' := by
  have hi : i < p.length := (List.getElem?_eq_some_iff.mp he).1
  have hi' : i < q.length := (List.getElem?_eq_some_iff.mp he').1
  rcases comparable hE hL hC h h' with ⟨x, rfl⟩ | ⟨x, rfl⟩
  · rw [List.getElem?_append_left hi, he] at he'
    exact Option.some.inj he'
  · rw [List.getElem?_append_left hi', he'] at he
    exact (Option.some.inj he).symm

end Committed

/-! ## Leftovers -/

namespace Grafted

theorem of_clean (h : s.Clean n) : Grafted s n where
  committed := .inl h
  leftover := fun i e hi he => by
    have hlt := (List.getElem?_eq_some_iff.mp he).1
    rw [State.Clean] at h
    omega

/-- A node keeps its leftovers while the others go on. -/
theorem mono (hx : Extends s s') (hlog : s'.log n = s.log n) (hbase : s'.base n = s.base n)
    (h : Grafted s n) : Grafted s' n where
  committed := by
    rw [State.Clean, hlog, hbase]
    exact h.committed.imp_right (fun hc => (hc.mono hx).term_mono (hx.term n))
  leftover := fun i e hi he => by
    rw [hlog] at he
    rw [hbase] at hi
    rw [hlog, hbase]
    obtain ⟨hlt, hnot⟩ := h.leftover i e hi he
    refine ⟨Nat.lt_of_lt_of_le hlt (hx.hist _).length_le, fun hp => hnot ?_⟩
    refine List.prefix_of_prefix_length_le hp (hx.hist _) ?_
    rw [List.length_take]
    omega

/-- A leftover is older than any term whose leader has the prefix below it. -/
theorem not_isPrefix_hist (h : Grafted s n) {i : Nat} (hi : s.base n < i)
    (hlen : i ≤ (s.log n).length) :
    i ≤ (s.hist (termAt (s.log n) i)).length ∧
      ¬ (s.log n).take (s.base n) <+: s.hist (termAt (s.log n) i) := by
  obtain ⟨j, rfl⟩ : ∃ j, i = j + 1 := ⟨i - 1, by omega⟩
  rw [termAt_succ_of_lt hlen]
  exact h.leftover j _ (by omega) (List.getElem?_eq_getElem hlen)

end Grafted

/-! ## Every move keeps the invariant -/

namespace Commits

theorem init (voters : List ι) : Commits voters (State.init : State ι ε) where
  acked_le := by intro n t; simp [State.init]
  acked_term := by intro n t h; simp [State.init] at h
  acked_lead := by intro t c h; simp [State.init] at h
  retained := by intro n t k _ _; simpa [State.init] using Holds.nil [] t
  balloted := by intro v u c h; simp [State.init] at h
  upToDate := by intro v t c h; simp [State.init] at h
  stood_elected := by intro t c h; simp [State.init] at h
  quorum := by intro t h; simp [State.init] at h
  grafted := fun _ => .of_clean rfl

/-- Nothing is committed in a term that has no leader. -/
theorem commit_unled (hC : Commits voters s) (hE : Elections voters s) {t : Nat}
    (hun : s.leader t = none) : s.commit t = 0 := by
  by_contra hne
  have hle := (hC.quorum t hne).1
  rw [(hE.unled t hun).1] at hle
  exact hne (Nat.le_zero.mp hle)

theorem commitTo (hC : Commits voters s) {t m : Nat} {q : List ι} (hm : m ≤ (s.hist t).length)
    (ht : termAt (s.hist t) m = t) (hq : IsMajority voters q) (hacked : ∀ v ∈ q, m ≤ s.acked v t) :
    Commits voters (s.commitTo t m) where
  acked_le := hC.acked_le
  acked_term := hC.acked_term
  acked_lead := hC.acked_lead
  retained := hC.retained
  balloted := hC.balloted
  upToDate := hC.upToDate
  stood_elected := hC.stood_elected
  quorum := fun u hu => by
    by_cases hut : u = t
    · subst hut
      simp only [State.commitTo, Function.update_self] at hu ⊢
      -- the larger of the two indices has a quorum either way
      rcases Nat.le_total (s.commit u) m with hle | hle
      · rw [Nat.max_eq_right hle]
        exact ⟨hm, ht, q, hq, hacked⟩
      · rw [Nat.max_eq_left hle] at hu ⊢
        exact hC.quorum u hu
    · simp only [State.commitTo, Function.update_of_ne hut] at hu ⊢
      exact hC.quorum u hu
  grafted := fun x => (hC.grafted x).mono (Extends.commitTo s t m) rfl rfl

/-- What every leader since its term has is on the log of the node's leader. -/
private theorem on_leader (hL : Logs s) (hC : Commits voters s) {t k : Nat}
    (hled : s.leader (s.term n) ≠ none) (hk : k ≤ s.acked n t)
    (hlater : ∀ u, s.leader u ≠ none → t < u → u ≤ s.term n → (s.hist t).take k <+: s.elected u) :
    (s.hist t).take k <+: s.hist (s.term n) := by
  rcases Nat.lt_trichotomy t (s.term n) with hlt | heq | hgt
  · exact (hlater _ hled hlt (Nat.le_refl _)).trans (hL.elected_isPrefix _)
  · rw [heq]; exact List.take_prefix _ _
  · have hk0 : k = 0 := by
      rcases Nat.eq_zero_or_pos k with h | h
      · exact h
      · have := hC.acked_term n t (by omega)
        omega
    rw [hk0]; exact List.nil_prefix

/-- An acknowledged prefix that a node still holds is below every committed
prefix that it does not hold. -/
private theorem acked_isPrefix_of_committed (hE : Elections voters s) (hL : Logs s)
    (hC : Commits voters s) {p : List ε} (hp : Committed s (s.term n) p) (hnot : ¬ p <+: s.log n)
    {t k : Nat} (hold : (s.hist t).take k <+: s.log n)
    (hlater : ∀ u, s.leader u ≠ none → t < u → u ≤ s.term n → (s.hist t).take k <+: s.elected u) :
    (s.hist t).take k <+: p := by
  obtain ⟨u, hu, hpu⟩ := hp
  have hpne : p ≠ [] := by
    intro h
    subst h
    exact hnot List.nil_prefix
  have hled : s.leader u ≠ none := by
    intro hun
    rw [(hE.unled u hun).1, List.take_nil] at hpu
    exact hpne (List.prefix_nil.mp hpu)
  by_cases hk0 : (s.hist t).take k = []
  · rw [hk0]; exact List.nil_prefix
  have htled : s.leader t ≠ none := by
    intro hun
    rw [(hE.unled t hun).1, List.take_nil] at hk0
    exact hk0 rfl
  -- the acknowledged prefix and `p` lie on the log of one leader
  have hon : ∃ w, (s.hist t).take k <+: s.hist w ∧ p <+: s.hist w := by
    rcases Nat.lt_or_ge t u with htu | hut
    · exact ⟨u, (hlater u hled htu hu).trans (hL.elected_isPrefix u),
        hpu.trans ⟨_, List.take_append_drop _ _⟩⟩
    · exact ⟨t, List.take_prefix _ _,
        Committed.isPrefix_hist hE hL hC ⟨u, Nat.le_refl _, hpu⟩ hut htled⟩
  obtain ⟨w, hxw, hpw⟩ := hon
  -- the shorter of the two is a prefix of the longer
  rcases Nat.le_total ((s.hist t).take k).length p.length with hle | hle
  · exact List.prefix_of_prefix_length_le hxw hpw hle
  · exact absurd ((List.prefix_of_prefix_length_le hpw hxw hle).trans hold) hnot

/-- A committed prefix that a node holds does not reach into its leftovers. -/
theorem length_le_base (hL : Logs s) (hC : Commits voters s) {t : Nat} {p : List ε}
    (hp : Committed s t p) (hlog : p <+: s.log n) : p.length ≤ s.base n := by
  by_contra hlt
  have hb : s.base n < p.length := by omega
  have hlen := hlog.length_le
  have hget : (s.log n)[s.base n]? = some p[s.base n] := by
    obtain ⟨x, hx⟩ := hlog
    rw [← hx, List.getElem?_append_left hb, List.getElem?_eq_getElem hb]
  refine ((hC.grafted n).leftover _ _ (Nat.le_refl _) hget).2 ?_
  have hs := hp.sound hL _ _ (List.getElem?_eq_getElem hb)
  refine (List.prefix_of_prefix_length_le ⟨_, List.take_append_drop _ _⟩
    (.trans ⟨_, List.take_append_drop _ p⟩ hlog) ?_).trans hs
  rw [List.length_take, List.length_take]
  omega

/-- Leftovers match nothing that the leader of the node's term sends. -/
theorem not_matched (hE : Elections voters s) (hL : Logs s) (hC : Commits voters s)
    (hled : s.leader (s.term n) ≠ none) {i : Nat} (hi : i ≤ (s.log n).length)
    (hih : i ≤ (s.hist (s.term n)).length)
    (hmatch : termAt (s.log n) i = termAt (s.hist (s.term n)) i) : i ≤ s.base n := by
  by_contra hlt
  have hbi : s.base n < i := by omega
  rcases (hC.grafted n).committed with hclean | hc
  · rw [State.Clean] at hclean
    omega
  refine ((hC.grafted n).not_isPrefix_hist hbi hi).2 ?_
  -- the leader has the committed base, so the leader of the entry's term has it
  have hp := hc.isPrefix_hist hE hL hC (Nat.le_refl _) hled
  have hs := (hL.hist_sound (s.term n)).take_isPrefix_hist hih (by omega)
  rw [hmatch]
  refine (List.prefix_of_prefix_length_le hp ⟨_, List.take_append_drop i _⟩ ?_).trans hs
  rw [List.length_take, List.length_take]
  omega

/-- A node with leftovers is behind a majority, so a candidate that has counted
a majority has none. -/
theorem clean_of_majority (hE : Elections voters s) (hL : Logs s) (hC : Commits voters s)
    (hun : s.leader (s.term c) = none) (hstood : s.log c = s.stood c (s.term c))
    (hmaj : IsMajority voters (s.tally c (s.term c))) : s.Clean c := by
  by_contra hnc
  have hlt : s.base c < (s.log c).length := Nat.lt_of_le_of_ne (hL.base_le c) hnc
  obtain ⟨hlen, hnot⟩ := (hC.grafted c).not_isPrefix_hist hlt (Nat.le_refl _)
  obtain ⟨u, hu, hp⟩ := (hC.grafted c).committed.resolve_left hnc
  have h0 : s.commit u ≠ 0 := by
    intro h
    rw [h, List.take_zero] at hp
    rw [List.prefix_nil.mp hp] at hnot
    exact hnot List.nil_prefix
  obtain ⟨_, hulast⟩ := hC.lastTerm_commit hE h0
  obtain ⟨hulen, _, q, hq, hacked⟩ := hC.quorum u h0
  have huc : u < s.term c := by
    refine Nat.lt_of_le_of_ne hu ?_
    intro h
    rw [h, (hE.unled _ hun).1, List.length_nil] at hulen
    rw [h] at h0
    omega
  -- a voter that acknowledged the commit voted for `c`
  obtain ⟨v, hvq, hvt⟩ := hq.meet hmaj
  have hvote := hE.tally_vote c _ v hvt
  have hballot := hC.balloted v _ c hvote (.inl hun) u _ huc (hacked v hvq)
    (fun w hw huw _ => leader_complete hE hL hC w huw hw)
  have hub := hballot.2 hulast
  have hup := hC.upToDate v _ c hvote
  rw [← hstood] at hup
  have hul : u ≤ lastTerm (s.log c) := by
    rcases hup with h | ⟨h, _⟩ <;> omega
  -- so the last entry of `c` is from a leader that has the committed base
  refine hnot (Committed.isPrefix_hist hE hL hC ⟨u, Nat.le_refl _, hp⟩ hul ?_)
  intro hunled
  rw [(hE.unled _ hunled).1, List.length_nil] at hlen
  omega

variable [DecidableEq ι]

theorem raise (hC : Commits voters s) (n : ι) (t : Nat) : Commits voters (s.raise n t) where
  acked_le := hC.acked_le
  acked_term := fun m u h =>
    Nat.le_trans (hC.acked_term m u h) ((Extends.raise s n t).term m)
  acked_lead := hC.acked_lead
  retained := fun m u k hk hlater => by
    refine hC.retained m u k hk (fun w hw huw hwm => hlater w hw huw ?_)
    exact Nat.le_trans hwm ((Extends.raise s n t).term m)
  balloted := hC.balloted
  upToDate := hC.upToDate
  stood_elected := hC.stood_elected
  quorum := hC.quorum
  grafted := fun x => (hC.grafted x).mono (Extends.raise s n t) rfl rfl

theorem stand (hE : Elections voters s) (hC : Commits voters s) (c : ι) :
    Commits voters (s.stand c) where
  acked_le := hC.acked_le
  acked_term := fun m u h =>
    Nat.le_trans (hC.acked_term m u h) ((Extends.stand hE c).term m)
  acked_lead := hC.acked_lead
  retained := fun m u k hk hlater => by
    refine hC.retained m u k hk (fun w hw huw hwm => hlater w hw huw ?_)
    exact Nat.le_trans hwm ((Extends.stand hE c).term m)
  balloted := fun v u x hv hor t k htu hk hlater => by
    rcases set₂_cases s.vote c (s.term c + 1) (some c) v u with ⟨rfl, rfl, _⟩ | ⟨hne, heq⟩
    · -- its own vote: the ballot is the log it holds now
      simp only [State.stand, set₂_self]
      refine hC.retained v t k hk (fun w hw htw hwv => hlater w hw htw ?_)
      omega
    · change Holds (set₂ s.ballot c (s.term c + 1) (s.log c) v u) _ _
      rw [set₂_of_ne hne]
      exact hC.balloted v u x (heq ▸ hv) hor t k htu hk hlater
  upToDate := fun v t x hv => by
    rcases set₂_cases s.vote c (s.term c + 1) (some c) v t with ⟨rfl, rfl, heq⟩ | ⟨hne, heq⟩
    · -- its own vote is for the log it stands with
      have hx : v = x := Option.some.inj (heq.symm.trans hv)
      subst hx
      simp only [State.stand, set₂_self]
      exact .refl _
    · -- the log a candidate stood with is kept
      have hold : s.vote v t = some x := heq ▸ hv
      have hstood : (s.stand c).stood x t = s.stood x t :=
        (Extends.stand hE c).stood x t (hE.stood_le v t x hold)
      change UpToDate _ (set₂ s.ballot c (s.term c + 1) (s.log c) v t)
      rw [hstood, set₂_of_ne hne]
      exact hC.upToDate v t x hold
  stood_elected := fun t x hl => by
    rw [(Extends.stand hE c).stood x t (hE.leader_le t x hl).2]
    exact hC.stood_elected t x hl
  quorum := hC.quorum
  grafted := fun x => (hC.grafted x).mono (Extends.stand hE c) rfl rfl

theorem castVote (hE : Elections voters s) (hC : Commits voters s) (v : ι)
    (hup : UpToDate (s.stood c (s.term v)) (s.log v)) : Commits voters (s.castVote v c) := by
  have hx := Extends.castVote s v c
  unfold State.castVote at hx ⊢
  by_cases hnone : s.vote v (s.term v) = none
  · rw [if_pos hnone] at hx ⊢
    exact {
      acked_le := hC.acked_le
      acked_term := hC.acked_term
      acked_lead := hC.acked_lead
      retained := hC.retained
      balloted := fun w u x hw hor t k htu hk hlater => by
        rcases set₂_cases s.vote v (s.term v) (some c) w u with ⟨rfl, rfl, _⟩ | ⟨hne, heq⟩
        · -- a vote counted already was cast already, so the term has no leader
          have hun : s.leader (s.term w) = none := by
            rcases hor with hun | ⟨_, hmem⟩
            · exact hun
            · have hold : s.vote w (s.term w) = some x := hE.tally_vote x _ w hmem
              rw [hnone] at hold
              contradiction
          simp only [set₂_self]
          refine hC.retained w t k hk (fun y hy hty hyw => hlater y hy hty ?_)
          refine Nat.lt_of_le_of_ne hyw ?_
          intro hyw'
          subst hyw'
          exact hy hun
        · change Holds (set₂ s.ballot v (s.term v) (s.log v) w u) _ _
          rw [set₂_of_ne hne]
          exact hC.balloted w u x (heq ▸ hw) hor t k htu hk hlater
      upToDate := fun w t x hw => by
        rcases set₂_cases s.vote v (s.term v) (some c) w t with ⟨rfl, rfl, heq⟩ | ⟨hne, heq⟩
        · -- the ballot is the log the voter has now, and the candidate's is up to date with it
          have hx : c = x := Option.some.inj (heq.symm.trans hw)
          subst hx
          simp only [set₂_self]
          exact hup
        · change UpToDate _ (set₂ s.ballot v (s.term v) (s.log v) w t)
          rw [set₂_of_ne hne]
          exact hC.upToDate w t x (heq ▸ hw)
      stood_elected := hC.stood_elected
      quorum := hC.quorum
      grafted := fun x => (hC.grafted x).mono hx rfl rfl }
  · rwa [if_neg hnone]

theorem count (hC : Commits voters s) (c v : ι) (hne : s.leader (s.term c) ≠ some c) :
    Commits voters (s.count c v) where
  acked_le := hC.acked_le
  acked_term := hC.acked_term
  acked_lead := hC.acked_lead
  retained := hC.retained
  balloted := fun w u x hw hor => by
    refine hC.balloted w u x hw ?_
    rcases set₂_cases s.tally c (s.term c) (v :: s.tally c (s.term c)) x u with
      ⟨rfl, rfl, _⟩ | ⟨_, heq⟩
    · exact hor.imp_right (fun hw => absurd hw.1 hne)
    · exact hor.imp_right (fun hw => ⟨hw.1, heq ▸ hw.2⟩)
  upToDate := hC.upToDate
  stood_elected := hC.stood_elected
  quorum := hC.quorum
  grafted := fun x => (hC.grafted x).mono (Extends.count s c v) rfl rfl

/-! ### An election -/

omit [HasTerm ε] in
theorem led_elect (hun : s.leader (s.term c) = none) {t : Nat} (ht : s.leader t ≠ none) :
    t ≠ s.term c ∧ (s.elect c).leader t ≠ none := by
  have hne : t ≠ s.term c := by
    intro h
    subst h
    exact ht hun
  refine ⟨hne, ?_⟩
  rwa [State.elect_leader_of_ne hne]

omit [HasTerm ε] in
/-- In its new term only the leader has acknowledged anything: its own log. -/
theorem acked_elect_self (hE : Elections voters s) (hun : s.leader (s.term c) = none) (n : ι) :
    n = c ∨ (s.elect c).acked n (s.term c) = 0 := by
  by_cases hn : n = c
  · exact .inl hn
  · exact .inr ((set₂_of_ne (.inl hn)).trans ((hE.unled _ hun).2 n))

theorem elect_retained (hE : Elections voters s) (hL : Logs s) (hC : Commits voters s)
    (hun : s.leader (s.term c) = none) (hclean : s.Clean c) {t k : Nat}
    (hk : k ≤ (s.elect c).acked n t)
    (hlater : ∀ u, (s.elect c).leader u ≠ none → t < u → u ≤ s.term n →
      ((s.elect c).hist t).take k <+: (s.elect c).elected u) :
    Holds (s.log n) (((s.elect c).hist t).take k) t := by
  by_cases ht : t = s.term c
  · subst ht
    rw [State.elect_hist_self]
    obtain rfl | hnone := acked_elect_self hE hun n
    · exact .of_sound hL (hL.sound_of_clean hclean) ⟨_, List.take_append_drop _ _⟩ _
    · rw [hnone] at hk
      rw [Nat.le_zero.mp hk]
      exact .nil _ _
  · -- for the other terms the new leader is one more that was elected with the prefix
    rw [State.elect_hist_of_ne ht] at hlater ⊢
    rw [State.elect_acked_of_ne ht] at hk
    refine hC.retained n t k hk fun u hu htu hle => ?_
    obtain ⟨hne, hled⟩ := led_elect hun hu
    rw [← State.elect_elected_of_ne hne]
    exact hlater u hled htu hle

theorem elect_balloted (hE : Elections voters s) (hC : Commits voters s)
    (hun : s.leader (s.term c) = none) {x : ι} {u t k : Nat} (hv : s.vote v u = some x)
    (hor : (s.elect c).leader u = none ∨ ((s.elect c).leader u = some x ∧ v ∈ s.tally x u))
    (htu : t < u) (hk : k ≤ (s.elect c).acked v t)
    (hlater : ∀ w, (s.elect c).leader w ≠ none → t < w → w < u →
      ((s.elect c).hist t).take k <+: (s.elect c).elected w) :
    Holds (s.ballot v u) (((s.elect c).hist t).take k) t := by
  by_cases ht : t = s.term c
  · -- whoever has voted in a later term has acknowledged nothing in the new one
    subst ht
    have hvu := hE.vote_le v u x hv
    have hnone : k = 0 := by
      obtain rfl | hnone := acked_elect_self hE hun v <;> omega
    rw [hnone]
    exact .nil _ _
  · rw [State.elect_hist_of_ne ht] at hlater ⊢
    rw [State.elect_acked_of_ne ht] at hk
    refine hC.balloted v u x hv ?_ t k htu hk fun w hw htw hwu => ?_
    · by_cases hu : u = s.term c
      · subst hu
        exact .inl hun
      · rwa [State.elect_leader_of_ne hu] at hor
    · obtain ⟨hne, hled⟩ := led_elect hun hw
      rw [← State.elect_elected_of_ne hne]
      exact hlater w hled htw hwu

theorem elect (hE : Elections voters s) (hL : Logs s) (hC : Commits voters s) (c : ι)
    (hun : s.leader (s.term c) = none) (hclean : s.Clean c)
    (hstood : s.log c = s.stood c (s.term c)) :
    Commits voters (s.elect c) where
  acked_le := fun n t => by
    by_cases ht : t = s.term c
    · subst ht
      -- the new leader acknowledges its own log, and nobody else anything of its term
      obtain rfl | hnone := acked_elect_self hE hun n
      · rw [State.elect_hist_self]
        exact Nat.le_of_eq (set₂_self ..)
      · rw [hnone]
        exact Nat.zero_le _
    · rw [State.elect_hist_of_ne ht, State.elect_acked_of_ne ht]
      exact hC.acked_le n t
  acked_term := fun n t h => by
    by_cases ht : t = s.term c
    · subst ht
      obtain rfl | hnone := acked_elect_self hE hun n
      · exact Nat.le_refl _
      · rw [hnone] at h
        exact absurd h (Nat.lt_irrefl 0)
    · rw [State.elect_acked_of_ne ht] at h
      exact hC.acked_term n t h
  acked_lead := fun t x hl => by
    by_cases ht : t = s.term c
    · subst ht
      have hx : c = x := by simpa [State.elect] using hl
      subst hx
      rw [State.elect_hist_self]
      exact set₂_self ..
    · rw [State.elect_leader_of_ne ht] at hl
      rw [State.elect_acked_of_ne ht, State.elect_hist_of_ne ht]
      exact hC.acked_lead t x hl
  retained := fun _ _ _ => elect_retained hE hL hC hun hclean
  balloted := fun _ _ _ hv hor _ _ => elect_balloted hE hC hun hv hor
  upToDate := hC.upToDate
  stood_elected := fun t x hl => by
    by_cases ht : t = s.term c
    · subst ht
      have hx : c = x := by simpa [State.elect] using hl
      subst hx
      simp only [State.elect, Function.update_self]
      exact hstood
    · rw [State.elect_leader_of_ne ht] at hl
      rw [State.elect_elected_of_ne ht]
      exact hC.stood_elected t x hl
  quorum := fun t hpos => by
    obtain ⟨hlen, hterm, q, hq, hacked⟩ := hC.quorum t hpos
    -- nothing was committed in a term without a leader
    have ht : t ≠ s.term c := by
      intro h
      subst h
      rw [(hE.unled _ hun).1, List.length_nil] at hlen
      exact hpos (Nat.le_zero.mp hlen)
    rw [State.elect_hist_of_ne ht]
    exact ⟨hlen, hterm, q, hq, fun v hv =>
      Nat.le_trans (hacked v hv) ((Extends.elect hE c hun).acked v t)⟩
  grafted := fun x => (hC.grafted x).mono (Extends.elect hE c hun) rfl rfl

/-! ### A new entry -/

/-- The leader has acknowledged its new entry, and nobody else anything new. -/
theorem acked_append (hC : Commits voters s) (hl : s.leader (s.term c) = some c) (e : ε) (n : ι)
    (t : Nat) :
    (n = c ∧ t = s.term c ∧ (s.append c e).acked n t = (s.hist (s.term c)).length + 1) ∨
      (s.append c e).acked n t = s.acked n t := by
  have hown := hC.acked_lead _ c hl
  rcases set₂_cases s.acked c (s.term c)
    (max (s.acked c (s.term c)) ((s.hist (s.term c)).length + 1)) n t with
    ⟨hn, ht, heq⟩ | ⟨_, heq⟩
  · exact .inl ⟨hn, ht, heq.trans (by omega)⟩
  · exact .inr heq

/-- What was acknowledged before lies below the new entry. -/
theorem take_hist_append (hC : Commits voters s) (c : ι) (e : ε) {t k : Nat}
    (hk : k ≤ s.acked n t) : ((s.append c e).hist t).take k = (s.hist t).take k := by
  by_cases ht : t = s.term c
  · subst ht
    rw [State.append_hist_self, List.take_append_of_le_length (hk.trans (hC.acked_le n _))]
  · rw [State.append_hist_of_ne ht]

theorem append_retained (hL : Logs s) (hC : Commits voters s) {e : ε}
    (hl : s.leader (s.term c) = some c) (he : term e = s.term c) {t k : Nat}
    (hk : k ≤ (s.append c e).acked n t)
    (hlater : ∀ u, s.leader u ≠ none → t < u → u ≤ s.term n →
      ((s.append c e).hist t).take k <+: s.elected u) :
    Holds ((s.append c e).log n) (((s.append c e).hist t).take k) t := by
  have hL' := hL.append c e hl he
  obtain ⟨hlog, hclean⟩ := hL'.lead _ c hl rfl
  by_cases hn : n = c
  · -- the leader's log is that of its term, with the new entry at its end
    subst hn
    refine .of_sound hL' (hL'.sound_of_clean hclean) ?_ t
    rcases acked_append hC hl e n t with ⟨_, rfl, _⟩ | heq
    · rw [hlog]
      exact List.take_prefix _ _
    · rw [heq] at hk
      rw [take_hist_append hC n e hk] at hlater ⊢
      refine (hC.retained n t k hk hlater).1.trans ?_
      simp only [State.append, Function.update_self]
      exact List.prefix_append _ _
  · rcases acked_append hC hl e n t with ⟨hnc, _, _⟩ | heq
    · exact absurd hnc hn
    · rw [heq] at hk
      rw [take_hist_append hC c e hk] at hlater ⊢
      simp only [State.append, Function.update_of_ne hn]
      exact hC.retained n t k hk hlater

theorem append (hE : Elections voters s) (hL : Logs s) (hC : Commits voters s) (c : ι) (e : ε)
    (hl : s.leader (s.term c) = some c) (he : term e = s.term c) :
    Commits voters (s.append c e) where
  acked_le := fun n t => by
    -- the leader acknowledges its own entry
    rcases acked_append hC hl e n t with ⟨rfl, rfl, heq⟩ | heq
    · rw [heq, State.append_hist_self, List.length_append, List.length_singleton]
    · rw [heq]
      exact Nat.le_trans (hC.acked_le n t) ((Extends.append s c e).hist t).length_le
  acked_term := fun n t h => by
    rcases acked_append hC hl e n t with ⟨rfl, rfl, _⟩ | heq
    · exact Nat.le_refl _
    · exact hC.acked_term n t (heq ▸ h)
  acked_lead := fun t x hx => by
    by_cases ht : t = s.term c
    · subst ht
      have hxc : x = c := Option.some.inj (hx.symm.trans hl)
      subst hxc
      have hown := hC.acked_lead _ x hl
      rw [State.append_hist_self, List.length_append, List.length_singleton]
      exact (set₂_self ..).trans (by omega)
    · rw [State.append_hist_of_ne ht]
      exact (set₂_of_ne (.inr ht)).trans (hC.acked_lead t x hx)
  retained := fun _ _ _ => append_retained hL hC hl he
  balloted := fun v u x hv hor t k htu hk hlater => by
    rcases acked_append hC hl e v t with ⟨rfl, rfl, _⟩ | heq
    · -- the leader has not voted in a later term
      have := hE.vote_le v u x hv
      omega
    · rw [heq] at hk
      rw [take_hist_append hC c e hk] at hlater ⊢
      exact hC.balloted v u x hv hor t k htu hk hlater
  upToDate := hC.upToDate
  stood_elected := hC.stood_elected
  quorum := fun t hpos => by
    obtain ⟨hlen, hterm, q, hq, hqa⟩ := hC.quorum t hpos
    have hp := (Extends.append s c e).hist t
    refine ⟨Nat.le_trans hlen hp.length_le, ?_, q, hq, fun v hv => ?_⟩
    · exact (termAt_eq_of_isPrefix hp hlen).trans hterm
    · exact Nat.le_trans (hqa v hv) ((Extends.append s c e).acked v t)
  grafted := fun n => by
    by_cases hn : n = c
    · -- a leader's log is all its own
      subst hn
      exact .of_clean ((hL.append n e hl he).lead _ n hl rfl).2
    · exact (hC.grafted n).mono (Extends.append s c e) (Function.update_of_ne hn _ _)
        (Function.update_of_ne hn _ _)

/-! ### Acknowledgements and logs that are replaced -/

theorem acknowledge (hE : Elections voters s) (hL : Logs s) (hC : Commits voters s) (n : ι)
    {m : Nat} (hclean : s.Clean n) (hm : m ≤ (s.hist (s.term n)).length)
    (hp : (s.hist (s.term n)).take m <+: s.log n) : Commits voters (s.acknowledge n m) := by
  -- only the node's own acknowledgement in its current term grows
  have hacked : ∀ x t, (x = n ∧ t = s.term n ∧
        (s.acknowledge n m).acked x t = max (s.acked n (s.term n)) m) ∨
      (s.acknowledge n m).acked x t = s.acked x t := by
    intro x t
    rcases set₂_cases s.acked n (s.term n) (max (s.acked n (s.term n)) m) x t with
      ⟨hn, ht, heq⟩ | ⟨_, heq⟩
    · exact .inl ⟨hn, ht, heq⟩
    · exact .inr heq
  exact {
    acked_le := fun x t => by
      rcases hacked x t with ⟨rfl, rfl, heq⟩ | heq
      · rw [heq]; exact Nat.max_le.mpr ⟨hC.acked_le _ _, hm⟩
      · rw [heq]; exact hC.acked_le x t
    acked_term := fun x t h => by
      rcases hacked x t with ⟨rfl, rfl, _⟩ | heq
      · exact Nat.le_refl _
      · exact hC.acked_term x t (heq ▸ h)
    acked_lead := fun t x hl => by
      rcases hacked x t with ⟨rfl, rfl, heq⟩ | heq
      · rw [heq, hC.acked_lead _ x hl]; exact Nat.max_eq_left hm
      · rw [heq]; exact hC.acked_lead t x hl
    retained := fun x t k hk hlater => by
      rcases hacked x t with ⟨rfl, rfl, heq⟩ | heq
      · rw [heq] at hk
        by_cases hka : k ≤ s.acked x (s.term x)
        · exact hC.retained x _ k hka hlater
        · -- the newly acknowledged part is in the log, and its entries are sound
          have hkm : k ≤ m := by omega
          exact .of_sound hL (hL.sound_of_clean hclean)
            ((List.take_prefix_take_left hkm).trans hp) _
      · exact hC.retained x t k (heq ▸ hk) hlater
    balloted := fun v u x hv hor t k htu hk hlater => by
      rcases hacked v t with ⟨rfl, rfl, _⟩ | heq
      · -- the node has not voted in a later term
        have := hE.vote_le v u x hv
        omega
      · exact hC.balloted v u x hv hor t k htu (heq ▸ hk) hlater
    upToDate := hC.upToDate
    stood_elected := hC.stood_elected
    quorum := fun t hpos => by
      obtain ⟨hlen, hterm, q, hq, hqa⟩ := hC.quorum t hpos
      exact ⟨hlen, hterm, q, hq, fun v hv =>
        Nat.le_trans (hqa v hv) ((Extends.acknowledge s n m).acked v t)⟩
    grafted := fun x => (hC.grafted x).mono (Extends.acknowledge s n m) rfl rfl }

/-- Replacing a log is harmless as long as what was acknowledged stays. -/
theorem install (hL : Logs s) (hC : Commits voters s) (n : ι) (p : List ε) (hp : Sound s p)
    (hkeep : ∀ t k, k ≤ s.acked n t → (s.hist t).take k <+: s.log n →
      (∀ u, s.leader u ≠ none → t < u → u ≤ s.term n → (s.hist t).take k <+: s.elected u) →
      (s.hist t).take k <+: p) : Commits voters (s.install n p) where
  acked_le := hC.acked_le
  acked_term := hC.acked_term
  acked_lead := hC.acked_lead
  retained := fun x t k hk hlater => by
    by_cases hx : x = n
    · -- what was acknowledged is kept by assumption
      subst hx
      simp only [State.install, Function.update_self]
      exact .of_sound hL hp (hkeep t k hk (hC.retained x t k hk hlater).1 hlater) t
    · simp only [State.install, Function.update_of_ne hx]
      exact hC.retained x t k hk hlater
  balloted := hC.balloted
  upToDate := hC.upToDate
  stood_elected := hC.stood_elected
  quorum := hC.quorum
  grafted := fun x => by
    by_cases hx : x = n
    · subst hx
      exact .of_clean (by simp [State.Clean, State.install])
    · exact (hC.grafted x).mono (Extends.install s n p) (Function.update_of_ne hx _ _)
        (Function.update_of_ne hx _ _)

/-- **The retention step.**  A node that takes over the first `m` entries of
its leader's log, without throwing away entries that agree with them, keeps
everything it acknowledged. -/
theorem replicate (hE : Elections voters s) (hL : Logs s) (hC : Commits voters s) (n : ι) {m : Nat}
    (hled : s.leader (s.term n) ≠ none) (hself : s.leader (s.term n) ≠ some n)
    (hm : m ≤ (s.hist (s.term n)).length)
    (hkeep : (s.hist (s.term n)).take m <+: s.log n → (s.log n).length ≤ m) :
    Commits voters (s.replicate n m) := by
  have hp : (s.hist (s.term n)).take m <+: s.hist (s.term n) := List.take_prefix _ _
  have hsound := (hL.hist_sound _).of_isPrefix hp
  have hL' := hL.install n _ hself hsound (fun e he => hL.hist_le (hp.subset he))
  refine acknowledge (hE.install n _) hL' (hC.install hL n _ hsound ?_) n ?_ hm ?_
  · intro t k hk hold hlater
    exact isPrefix_take_of_keeps hm hkeep (on_leader hL hC hled hk hlater) hold
  · simp [State.Clean, State.install]
  · simp only [State.install, Function.update_self]
    exact List.prefix_refl _

/-- A node that puts a committed prefix it does not hold under the end of its
log keeps everything it acknowledged. -/
theorem graft (hE : Elections voters s) (hL : Logs s) (hC : Commits voters s) (n : ι)
    {p : List ε} (hp : Committed s (s.term n) p) (hnot : ¬ p <+: s.log n) :
    Commits voters (s.graft n p) where
  acked_le := hC.acked_le
  acked_term := hC.acked_term
  acked_lead := hC.acked_lead
  retained := fun x t k hk hlater => by
    by_cases hx : x = n
    · subst hx
      obtain ⟨hold, hlast⟩ := hC.retained x t k hk hlater
      have hbelow := acked_isPrefix_of_committed hE hL hC hp hnot hold hlater
      simp only [State.graft, Function.update_self]
      -- the log ends with the prefix, or keeps its end and with it its last term
      by_cases hend : (s.log x).length ≤ p.length
      · rw [List.drop_eq_nil_of_le hend, List.append_nil]
        exact .of_sound hL (hp.sound hL) hbelow t
      · refine ⟨hbelow.trans (List.prefix_append _ _), fun h => ?_⟩
        rw [lastTerm_append_drop (by omega)]
        exact hlast h
    · simp only [State.graft, Function.update_of_ne hx]
      exact hC.retained x t k hk hlater
  balloted := hC.balloted
  upToDate := hC.upToDate
  stood_elected := hC.stood_elected
  quorum := hC.quorum
  grafted := fun x => by
    by_cases hx : x = n
    · subst hx
      refine ⟨.inr ?_, fun i e hi he => ?_⟩
      · simp only [State.graft, Function.update_self, List.take_left]
        exact hp
      · simp only [State.graft, Function.update_self, List.take_left] at hi he ⊢
        rw [List.getElem?_append_right hi, List.getElem?_drop, Nat.add_sub_cancel' hi] at he
        rcases Nat.lt_or_ge i (s.base x) with hlt | hge
        · -- the entry came from the leader of its term, whose log the node held
          have hs := hL.log_sound x i e (by rw [List.getElem?_take_of_lt hlt, he])
          rw [List.take_take, Nat.min_eq_left hlt] at hs
          have hilen := (List.getElem?_eq_some_iff.mp he).1
          have hslen := hs.length_le
          rw [List.length_take, Nat.min_eq_left hilen] at hslen
          refine ⟨hslen, fun hpe => hnot ?_⟩
          refine (List.prefix_of_prefix_length_le hpe hs ?_).trans ⟨_, List.take_append_drop _ _⟩
          rw [List.length_take]
          omega
        · -- the entry was left over already, from below an older prefix
          obtain ⟨hlen, hnot'⟩ := (hC.grafted x).leftover i e hge he
          refine ⟨hlen, fun hpe => ?_⟩
          rcases (hC.grafted x).committed with hclean | hold
          · have := (List.getElem?_eq_some_iff.mp he).1
            rw [State.Clean] at hclean
            omega
          · rcases hold.comparable hE hL hC hp with hle | hle
            · exact hnot' (hle.trans hpe)
            · exact hnot (hle.trans ⟨_, List.take_append_drop _ _⟩)
    · exact (hC.grafted x).mono (Extends.graft s n p) (Function.update_of_ne hx _ _)
        (Function.update_of_ne hx _ _)

end Commits

end KvRaft.Replica
