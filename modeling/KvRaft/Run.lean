import Mathlib.Data.List.Basic
import Mathlib.Logic.Function.Iterate

/-!
# KvRaft.Run

Runs of a labelled transition system whose step function may refuse a
label.  A run carries a predicate on the steps it is allowed to take, so
that "every run in which …" is a choice of that predicate and nothing else
changes.

Two rules carry every argument about whole runs:

* `Run.invariant` — what every allowed step preserves, a run preserves;
* `Run.simulate` — a run is followed by an abstract state that only grows.

Of a loop, `exists_iterate_of_lt` says that it ends.

A `Trace` is a run together with the steps it took, for properties that speak
of the past.  `replay` follows a list of labels, which is how concrete runs are
evaluated.
-/

namespace KvRaft

/-- Runs of `step` all of whose steps satisfy `ok`. -/
inductive Run (step : σ → α → Option σ) (ok : σ → α → Prop) : σ → σ → Prop where
  | refl (s : σ) : Run step ok s s
  | snoc {s t u : σ} {a : α} (r : Run step ok s t) (hok : ok t a) (h : step t a = some u) :
      Run step ok s u

namespace Run

variable {step : σ → α → Option σ} {ok ok' : σ → α → Prop} {s t u : σ}

/-- A single allowed step is a run. -/
theorem single {a : α} (hok : ok s a) (h : step s a = some t) : Run step ok s t :=
  .snoc (.refl s) hok h

/-- Runs compose. -/
theorem trans (r : Run step ok s t) (r' : Run step ok t u) : Run step ok s u := by
  induction r' with
  | refl => exact r
  | snoc _ hok h ih => exact .snoc ih hok h

/-- A run that obeys a condition obeys every weaker one. -/
theorem mono (hw : ∀ t a, ok t a → ok' t a) (r : Run step ok s t) : Run step ok' s t := by
  induction r with
  | refl => exact .refl s
  | snoc _ hok h ih => exact .snoc ih (hw _ _ hok) h

/-- **Invariant rule**: what holds at the start and is kept by every allowed
step holds at the end of every run. -/
theorem invariant {P : σ → Prop} (r : Run step ok s t) (h0 : P s)
    (hstep : ∀ t a u, P t → ok t a → step t a = some u → P u) : P t := by
  induction r with
  | refl => exact h0
  | snoc _ hok h ih => exact hstep _ _ _ ih hok h

/-- **Simulation rule**: when every allowed step can be followed by a growing
abstract state, so can every run. -/
theorem simulate {R : σ → γ → Prop} {le : γ → γ → Prop} (hrefl : ∀ g, le g g)
    (htrans : ∀ g g' g'', le g g' → le g' g'' → le g g'')
    (hstep : ∀ t a u g, R t g → ok t a → step t a = some u → ∃ g', le g g' ∧ R u g')
    (r : Run step ok s t) {g : γ} (h0 : R s g) : ∃ g', le g g' ∧ R t g' := by
  induction r with
  | refl => exact ⟨g, hrefl g, h0⟩
  | snoc _ hok h ih =>
      obtain ⟨g₁, hle₁, hR₁⟩ := ih
      obtain ⟨g₂, hle₂, hR₂⟩ := hstep _ _ _ g₁ hR₁ hok h
      exact ⟨g₂, htrans _ _ _ hle₁ hle₂, hR₂⟩

end Run

/-- **Measure rule**: a function that lowers a measure and keeps an invariant as
long as it is not done, is done after finitely many times. -/
theorem exists_iterate_of_lt {f : σ → σ} {m : σ → Nat} {P done : σ → Prop}
    (h : ∀ s, P s → ¬ done s → m (f s) < m s ∧ P (f s)) {s : σ} (hs : P s) :
    ∃ k, done (f^[k] s) := by
  by_cases hdone : done s
  · exact ⟨0, hdone⟩
  · obtain ⟨hlt, hnext⟩ := h s hs hdone
    obtain ⟨k, hk⟩ := exists_iterate_of_lt h hnext
    exact ⟨k + 1, hk⟩
termination_by m s

/-! ## Two moments of one run -/

/-- `s` and `t` both occur in one run from `init`, in either order. -/
def OnOneRun (step : σ → α → Option σ) (ok : σ → α → Prop) (init s t : σ) : Prop :=
  (Run step ok init s ∧ Run step ok s t) ∨ (Run step ok init t ∧ Run step ok t s)

/-- Two moments of a run that is followed by a growing abstract state are
followed by two abstract states, the later of which extends the earlier. -/
theorem OnOneRun.simulate {step : σ → α → Option σ} {ok : σ → α → Prop} {init s t : σ}
    {R : σ → γ → Prop} {le : γ → γ → Prop}
    (hrun : ∀ s t g, Run step ok s t → R s g → ∃ g', le g g' ∧ R t g')
    (h : OnOneRun step ok init s t) {g : γ} (h0 : R init g) :
    ∃ g₁ g₂, R s g₁ ∧ R t g₂ ∧ (le g₁ g₂ ∨ le g₂ g₁) := by
  rcases h with ⟨r, r'⟩ | ⟨r, r'⟩
  · obtain ⟨g₁, _, hR₁⟩ := hrun _ _ g r h0
    obtain ⟨g₂, hle, hR₂⟩ := hrun _ _ g₁ r' hR₁
    exact ⟨g₁, g₂, hR₁, hR₂, .inl hle⟩
  · obtain ⟨g₁, _, hR₁⟩ := hrun _ _ g r h0
    obtain ⟨g₂, hle, hR₂⟩ := hrun _ _ g₁ r' hR₁
    exact ⟨g₂, g₁, hR₂, hR₁, .inr hle⟩

theorem OnOneRun.mono {step : σ → α → Option σ} {ok ok' : σ → α → Prop} {init s t : σ}
    (hw : ∀ s a, ok s a → ok' s a) (h : OnOneRun step ok init s t) :
    OnOneRun step ok' init s t :=
  h.imp (fun ⟨r, r'⟩ => ⟨r.mono hw, r'.mono hw⟩) (fun ⟨r, r'⟩ => ⟨r.mono hw, r'.mono hw⟩)

/-- The state `s` and the step `a` from `t` to `u` both occur in one run from
`init`, in either order. -/
structure StepOnOneRun (step : σ → α → Option σ) (ok : σ → α → Prop) (init s t : σ) (a : α)
    (u : σ) : Prop where
  allowed : ok t a
  taken : step t a = some u
  order : (Run step ok init s ∧ Run step ok s t) ∨ (Run step ok init t ∧ Run step ok u s)

theorem StepOnOneRun.onOneRun {step : σ → α → Option σ} {ok : σ → α → Prop} {init s t u : σ} {a : α}
    (h : StepOnOneRun step ok init s t a u) : OnOneRun step ok init s u :=
  h.order.imp (fun ⟨r, r'⟩ => ⟨r, .snoc r' h.allowed h.taken⟩)
    (fun ⟨r, r'⟩ => ⟨.snoc r h.allowed h.taken, r'⟩)

/-! ## The steps of a run -/

/-- A step that was taken. -/
structure Taken (σ α : Type) where
  before : σ
  action : α
  after : σ

/-- A run from `init` with the steps it took. -/
inductive Trace {σ α : Type} (step : σ → α → Option σ) (ok : σ → α → Prop) (init : σ) :
    List (Taken σ α) → σ → Prop where
  | nil : Trace step ok init [] init
  | snoc {trace : List (Taken σ α)} {s t : σ} {a : α} (r : Trace step ok init trace s)
      (hok : ok s a) (h : step s a = some t) : Trace step ok init (trace ++ [⟨s, a, t⟩]) t

/-- **Invariant rule** for a state and its past. -/
theorem Trace.invariant {σ α : Type} {step : σ → α → Option σ} {ok : σ → α → Prop} {init s : σ}
    {trace : List (Taken σ α)} {P : List (Taken σ α) → σ → Prop} (r : Trace step ok init trace s)
    (h0 : P [] init)
    (hstep : ∀ trace s a t, P trace s → ok s a → step s a = some t → P (trace ++ [⟨s, a, t⟩]) t) :
    P trace s := by
  induction r with
  | nil => exact h0
  | snoc _ hok h ih => exact hstep _ _ _ _ ih hok h

theorem Trace.run {σ α : Type} {step : σ → α → Option σ} {ok : σ → α → Prop} {init s : σ}
    {trace : List (Taken σ α)} (r : Trace step ok init trace s) : Run step ok init s :=
  r.invariant (P := fun _ s => Run step ok init s) (.refl init) fun _ _ _ _ h hok hstep =>
    .snoc h hok hstep

/-- A step of a run, with the run up to it and the run from it on. -/
theorem Trace.of_mem {σ α : Type} {step : σ → α → Option σ} {ok : σ → α → Prop} {init s : σ}
    {trace : List (Taken σ α)} (r : Trace step ok init trace s) {x : Taken σ α} (hx : x ∈ trace) :
    Run step ok init x.before ∧ ok x.before x.action ∧ step x.before x.action = some x.after ∧
      Run step ok x.after s := by
  induction r with
  | nil => cases hx
  | snoc r hok h ih =>
      rcases List.mem_append.mp hx with hx | hx
      · obtain ⟨hbefore, hallowed, htaken, hafter⟩ := ih hx
        exact ⟨hbefore, hallowed, htaken, .snoc hafter hok h⟩
      · cases List.mem_singleton.mp hx
        exact ⟨r.run, hok, h, .refl _⟩

/-! ## Replaying labels -/

/-- The state a list of labels leads to; the first label that is refused ends it. -/
def replay (step : σ → α → Option σ) : σ → List α → σ
  | s, [] => s
  | s, a :: as =>
      match step s a with
      | some t => replay step t as
      | none => s

/-- No label is refused, and every step satisfies a decidable condition. -/
def replays (step : σ → α → Option σ) (ok : σ → α → Prop) [∀ s a, Decidable (ok s a)] :
    σ → List α → Bool
  | _, [] => true
  | s, a :: as =>
      decide (ok s a) && match step s a with
        | some t => replays step ok t as
        | none => false

/-- A replay is a run. -/
theorem run_replay {step : σ → α → Option σ} {ok : σ → α → Prop} [∀ s a, Decidable (ok s a)]
    {s : σ} {as : List α} (h : replays step ok s as = true) :
    Run step ok s (replay step s as) := by
  induction as generalizing s with
  | nil => exact .refl s
  | cons a as ih =>
      rw [replays, Bool.and_eq_true, decide_eq_true_eq] at h
      rw [replay]
      cases hs : step s a with
      | none => rw [hs] at h; cases h.2
      | some t =>
          rw [hs] at h
          have hfirst : Run step ok s t := .single h.1 hs
          exact hfirst.trans (ih h.2)

/-- A label that is not refused. -/
theorem step_replay {step : σ → α → Option σ} {s : σ} {a : α} (h : (step s a).isSome = true) :
    step s a = some (replay step s [a]) := by
  obtain ⟨t, ht⟩ := Option.isSome_iff_exists.mp h
  rw [replay, ht]
  rfl

/-- The steps of a replay. -/
def traced {σ α : Type} (step : σ → α → Option σ) : σ → List α → List (Taken σ α)
  | _, [] => []
  | s, a :: as =>
      match step s a with
      | some t => ⟨s, a, t⟩ :: traced step t as
      | none => []

/-- A replay is a run with its steps. -/
theorem trace_replay {σ α : Type} {step : σ → α → Option σ} {ok : σ → α → Prop}
    [∀ s a, Decidable (ok s a)] {s : σ} {as : List α} (h : replays step ok s as = true) :
    Trace step ok s (traced step s as) (replay step s as) := by
  -- the run so far is carried along, because traces grow at their end
  have hgo : ∀ (trace : List (Taken σ α)) (t : σ) (as : List α), Trace step ok s trace t →
      replays step ok t as = true →
      Trace step ok s (trace ++ traced step t as) (replay step t as) := by
    intro trace t as r h
    induction as generalizing t trace with
    | nil =>
        rw [traced, List.append_nil]
        exact r
    | cons a as ih =>
        rw [replays, Bool.and_eq_true, decide_eq_true_eq] at h
        rw [replay, traced]
        cases hs : step t a with
        | none => rw [hs] at h; cases h.2
        | some u =>
            rw [hs] at h
            have hrest := ih _ u (.snoc r h.1 hs) h.2
            rwa [List.append_assoc, List.singleton_append] at hrest
  exact hgo [] s as .nil h

end KvRaft
