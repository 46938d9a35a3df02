import Mathlib.Data.Set.Basic

/-!
# KvRaft.Heartbeat

One process sends beats to another, which takes it for dead when its deadline has
passed.  The sender looks at the clock now and then and beats when its last beat is old
enough; a beat is on its way for a while; whatever the watcher takes for a sign of life
puts its deadline off.

* `Pace` — bounds under which a beat always comes in time;
* `Watch.Step` — what the two may do;
* `Watch.Calm` — a beat is on its way, or will be sent, before it is too late: every step
  keeps this while the bounds hold (`Calm.step`), and the deadline is then still ahead
  (`Calm.now_lt`).
-/

namespace KvRaft

structure Pace where
  /-- the sender beats when its last beat is at least this old -/
  interval : Nat
  /-- it looks at the clock at least this often -/
  nap : Nat
  /-- a beat is on its way for at most this long -/
  delay : Nat
  /-- a sign of life puts the deadline off by at least this much -/
  patience : Nat
  fast : interval + nap + delay < patience

/-- One sender and one watcher. -/
structure Watch where
  now : Nat
  /-- when the sender last looked at the clock -/
  looked : Nat
  /-- when it last beat by the clock -/
  beat : Nat
  /-- when the beats that are on their way were sent -/
  coming : Set Nat
  deadline : Nat

namespace Watch

variable {p : Pace} {w w' : Watch}

/-- Nothing is late. -/
structure OnTime (p : Pace) (w : Watch) : Prop where
  looks : w.now ≤ w.looked + p.nap
  arrives : ∀ t ∈ w.coming, w.now ≤ t + p.delay

/-- What may happen.  Beats may be sent at any time, but a beat arrives only with a
sign of life. -/
inductive Step (p : Pace) : Watch → Watch → Prop
  | pass (w : Watch) (d : Nat) : Step p w { w with now := w.now + d }
  | send (w : Watch) {coming : Set Nat} (h : w.coming ⊆ coming) : Step p w { w with coming }
  /-- the sender finds that it is too early for a beat -/
  | look (w : Watch) {coming : Set Nat} (h : w.coming ⊆ coming)
      (hearly : w.now < w.beat + p.interval) : Step p w { w with looked := w.now, coming }
  | beat (w : Watch) {coming : Set Nat} (h : w.coming ⊆ coming) (hsent : w.now ∈ coming) :
      Step p w { w with looked := w.now, beat := w.now, coming }
  /-- the watcher sees a sign of life -/
  | hear (w : Watch) (coming : Set Nat) {deadline : Nat} (h : w.now + p.patience ≤ deadline) :
      Step p w { w with coming, deadline }

/-- The next beat comes before the deadline: it is on its way, or the sender will look
at the clock in time to send it. -/
structure Calm (p : Pace) (w : Watch) : Prop where
  looked_le : w.looked ≤ w.now
  beat_le : w.beat ≤ w.now
  ahead : (∃ t ∈ w.coming, t + p.delay < w.deadline) ∨
    max w.looked (w.beat + p.interval) + p.nap + p.delay < w.deadline

theorem Calm.now_lt (h : Calm p w) (ht : OnTime p w) : w.now < w.deadline := by
  rcases h.ahead with ⟨t, hcoming, hlt⟩ | hlt
  · exact (ht.arrives t hcoming).trans_lt hlt
  · have hlooks := ht.looks
    have hle := Nat.le_max_left w.looked (w.beat + p.interval)
    omega

/-- Right after a sign of life there is time for the whole way. -/
theorem Calm.of_heard (hlooked : w.looked ≤ w.now) (hbeat : w.beat ≤ w.now)
    (h : w.now + p.interval + p.nap + p.delay < w.deadline) : Calm p w where
  looked_le := hlooked
  beat_le := hbeat
  ahead := by
    have hmax : max w.looked (w.beat + p.interval) ≤ w.now + p.interval :=
      Nat.max_le.mpr ⟨by omega, by omega⟩
    exact .inr (by omega)

/-- **Nobody is suspected**: the watcher stays calm as long as nothing is late. -/
theorem Calm.step (h : Calm p w) (ht : OnTime p w) (hs : Step p w w') : Calm p w' := by
  have hlooked := h.looked_le
  have hbeat := h.beat_le
  cases hs with
  | pass d =>
      exact ⟨hlooked.trans (Nat.le_add_right _ _), hbeat.trans (Nat.le_add_right _ _), h.ahead⟩
  | send hsub =>
      exact ⟨hlooked, hbeat, h.ahead.imp_left (Exists.imp fun t ht => ⟨hsub ht.1, ht.2⟩)⟩
  | look hsub hearly =>
      refine ⟨Nat.le_refl _, hbeat, h.ahead.imp (Exists.imp fun t ht => ⟨hsub ht.1, ht.2⟩) ?_⟩
      intro hlt
      -- the look leaves the time of the next beat where it was
      have hsame : max w.now (w.beat + p.interval) ≤ max w.looked (w.beat + p.interval) := by
        rw [Nat.max_eq_right hearly.le]
        exact Nat.le_max_right _ _
      change max w.now (w.beat + p.interval) + p.nap + p.delay < w.deadline
      omega
  | beat hsub hsent =>
      refine ⟨Nat.le_refl _, Nat.le_refl _, .inl ?_⟩
      rcases h.ahead with ⟨t, hmem, hlt⟩ | hlt
      · exact ⟨t, hsub hmem, hlt⟩
      · refine ⟨w.now, hsent, ?_⟩
        have hlooks := ht.looks
        have hle := Nat.le_max_left w.looked (w.beat + p.interval)
        change w.now + p.delay < w.deadline
        omega
  | hear coming hlate =>
      have hfast := p.fast
      exact .of_heard hlooked hbeat (by simp only; omega)

end Watch

end KvRaft
