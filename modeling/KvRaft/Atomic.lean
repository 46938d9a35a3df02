import Mathlib.Logic.Relation
import Mathlib.Logic.Function.Basic
import KvRaft.Run

/-!
# KvRaft.Atomic

An object that several clients share and that serves each request at one moment
between the call and the reply.  What the clients see of it is a history of calls
and replies; a history is *linearizable* if the object can have it.

* `Object` — what one request does, what the object does on its own and what is
  left of it when everybody is disconnected;
* `Object.Linearizable` — the history is one of the object;
* `Object.follow` — the histories of a system that the object follows are
  linearizable.
-/

namespace KvRaft.Atomic

structure Object (σ α β : Type) where
  /-- `serves s q s' r`: the request `q` may be answered with `r` -/
  serves : σ → α → σ → β → Prop
  moves : σ → σ → Prop
  reset : σ → σ

/-- What clients see. -/
inductive Event (ι α β : Type)
  | call (i : ι) (request : α)
  | reply (i : ι) (response : β)
  /-- every client is disconnected -/
  | reset
  deriving DecidableEq

/-- How far the request of a client is. -/
inductive Status (α β : Type)
  | idle
  | called (request : α)
  | served (response : β)

structure Shared (ι σ α β : Type) where
  object : σ
  clients : ι → Status α β
  history : List (Event ι α β)

namespace Object

variable {ι σ α β : Type} [DecidableEq ι] (O : Object σ α β)

/-- Nobody has called yet. -/
def start (s : σ) : Shared ι σ α β := ⟨s, fun _ => .idle, []⟩

inductive Step : Shared ι σ α β → Shared ι σ α β → Prop
  | call {t : Shared ι σ α β} (i : ι) (q : α) (h : t.clients i = .idle) :
      Step t { t with
        clients := Function.update t.clients i (.called q)
        history := t.history ++ [.call i q] }
  /-- the request takes effect -/
  | serve {t : Shared ι σ α β} {i : ι} {q : α} {s : σ} {r : β} (h : t.clients i = .called q)
      (hs : O.serves t.object q s r) :
      Step t { t with object := s, clients := Function.update t.clients i (.served r) }
  | reply {t : Shared ι σ α β} {i : ι} {r : β} (h : t.clients i = .served r) :
      Step t { t with
        clients := Function.update t.clients i .idle
        history := t.history ++ [.reply i r] }
  | move {t : Shared ι σ α β} {s : σ} (h : O.moves t.object s) : Step t { t with object := s }
  /-- requests that were not answered are lost, whether they have taken effect or not -/
  | reset (t : Shared ι σ α β) :
      Step t {
        object := O.reset t.object
        clients := fun _ => .idle
        history := t.history ++ [.reset] }

/-- The history is one of the object. -/
def Linearizable (s : σ) (history : List (Event ι α β)) : Prop :=
  ∃ t, Relation.ReflTransGen O.Step (start s) t ∧ t.history = history

/-- **Linearizability by simulation**: a system that the object follows step by step has
the histories of the object. -/
theorem follow {τ γ : Type} {step : τ → γ → Option τ} {ok : τ → γ → Prop}
    {R : τ → Shared ι σ α β → Prop} {s : σ} {x y : τ} (hstart : R x (start s))
    (hstep : ∀ z a z' t, R z t → ok z a → step z a = some z' →
      ∃ t', Relation.ReflTransGen O.Step t t' ∧ R z' t')
    (hrun : Run step ok x y) : ∃ t, O.Linearizable s t.history ∧ R y t := by
  have hend : ∃ t, Relation.ReflTransGen O.Step (start s) t ∧ R y t :=
    hrun.simulate (fun _ => .refl) (fun _ _ _ => .trans) hstep hstart
  obtain ⟨t, ht, hR⟩ := hend
  exact ⟨t, ⟨t, ht, rfl⟩, hR⟩

end Object

end KvRaft.Atomic
