import KvRaft.KvStore
import Mathlib.Data.List.Induction

/-!
# KvRaft.Dedup

What `lastSeq_` remembers after a list of commands: for each client the highest
sequence number among its commands (`lastSeq_after`).  A command of a client
changes the store exactly if its sequence number is above that
(`applyCommand_ofCommands_eq_self`).

`exactly_once` compares the store with a plain map that executes every command
it is given: if the requests of a client are new in the order of their sequence
numbers, the store does what the plain map does without the repetitions
(`firsts`).
-/

namespace KvRaft

namespace KvStore

theorem applyCommand_of_cached {s : KvStore} {cmd : KvCommand} {result : Bytes}
    (h : s.cached cmd = some result) : s.applyCommand cmd = (s, result) := by
  rw [applyCommand, h]

theorem cached_eq_none_iff {s : KvStore} {cmd : KvCommand} (hclient : cmd.clientId ≠ 0) :
    s.cached cmd = none ↔ ∀ p ∈ s.lastSeq.lookup cmd.clientId, p.1 < cmd.requestSeq := by
  rw [cached, if_neg hclient]
  cases s.lastSeq.lookup cmd.clientId with
  | none => simp
  | some p =>
      obtain ⟨seq, result⟩ := p
      simp

/-- A command that is not recognised leaves its sequence number behind. -/
theorem lookup_lastSeq_applyCommand {s : KvStore} {cmd : KvCommand} (hclient : cmd.clientId ≠ 0)
    (h : s.cached cmd = none) :
    (s.applyCommand cmd).1.lastSeq.lookup cmd.clientId =
      some (cmd.requestSeq, (execute s.data cmd).2) := by
  rw [applyCommand, h]
  simp only [if_neg hclient]
  exact AList.lookup_insert _

theorem lookup_lastSeq_applyCommand_of_ne (s : KvStore) {cmd : KvCommand} {clientId : Nat}
    (h : clientId ≠ cmd.clientId) :
    (s.applyCommand cmd).1.lastSeq.lookup clientId = s.lastSeq.lookup clientId := by
  rw [applyCommand]
  cases s.cached cmd with
  | some result => rfl
  | none =>
      simp only
      split
      · rfl
      · exact AList.lookup_insert_ne h

/-- A command of a client changes the store unless it is recognised. -/
theorem applyCommand_eq_self_iff {s : KvStore} {cmd : KvCommand} (hclient : cmd.clientId ≠ 0) :
    (s.applyCommand cmd).1 = s ↔ s.cached cmd ≠ none := by
  constructor
  · intro hself hnone
    have hlookup := lookup_lastSeq_applyCommand hclient hnone
    rw [hself] at hlookup
    exact lt_irrefl _ ((cached_eq_none_iff hclient).mp hnone _ hlookup)
  · intro hsome
    obtain ⟨result, hresult⟩ := Option.ne_none_iff_exists'.mp hsome
    rw [applyCommand_of_cached hresult]

/-- A client's entry in `lastSeq_` is raised by its commands. -/
theorem lastSeq_applyCommand {s : KvStore} {cmd : KvCommand} {clientId : Nat}
    (hclient : clientId ≠ 0) (seq : Nat) :
    (∃ p ∈ (s.applyCommand cmd).1.lastSeq.lookup clientId, seq ≤ p.1) ↔
      (∃ p ∈ s.lastSeq.lookup clientId, seq ≤ p.1) ∨
        cmd.clientId = clientId ∧ seq ≤ cmd.requestSeq := by
  by_cases hmine : cmd.clientId = clientId
  · subst hmine
    have hnone := cached_eq_none_iff (s := s) hclient
    cases hcached : s.cached cmd with
    | some result =>
        -- the entry that recognises the command is as high as the command
        rw [hcached] at hnone
        have hseen := not_congr hnone
        push Not at hseen
        obtain ⟨p, hp, hple⟩ := hseen.mp nofun
        rw [applyCommand_of_cached hcached]
        exact ⟨.inl, fun h => h.elim (fun h => h) fun h => ⟨p, hp, h.2.trans hple⟩⟩
    | none =>
        -- a new command replaces an entry that was lower
        have hbelow := hnone.mp hcached
        rw [lookup_lastSeq_applyCommand hclient hcached]
        constructor
        · rintro ⟨p, hp, hle⟩
          cases hp
          exact .inr ⟨rfl, hle⟩
        · rintro (⟨p, hp, hle⟩ | ⟨-, hle⟩)
          · exact ⟨_, rfl, hle.trans (hbelow p hp).le⟩
          · exact ⟨_, rfl, hle⟩
  · rw [lookup_lastSeq_applyCommand_of_ne _ (Ne.symm hmine)]
    simp [hmine]

theorem lastSeq_after (s : KvStore) {clientId : Nat} (hclient : clientId ≠ 0)
    (cmds : List KvCommand) (seq : Nat) :
    (∃ p ∈ (s.after cmds).lastSeq.lookup clientId, seq ≤ p.1) ↔
      (∃ p ∈ s.lastSeq.lookup clientId, seq ≤ p.1) ∨
        ∃ cmd ∈ cmds, cmd.clientId = clientId ∧ seq ≤ cmd.requestSeq := by
  induction cmds generalizing s with
  | nil => simp
  | cons cmd cmds ih =>
      rw [after_cons, ih, lastSeq_applyCommand hclient, List.exists_mem_cons_iff, or_assoc]

/-- After a list of commands, another one is recognised unless it is above all
of its client's. -/
theorem cached_after_eq_none_iff {s : KvStore} {cmds : List KvCommand} {cmd : KvCommand}
    (hclient : cmd.clientId ≠ 0) :
    (s.after cmds).cached cmd = none ↔
      (∀ p ∈ s.lastSeq.lookup cmd.clientId, p.1 < cmd.requestSeq) ∧
        ∀ x ∈ cmds, x.clientId = cmd.clientId → x.requestSeq < cmd.requestSeq := by
  rw [cached_eq_none_iff hclient]
  have hseen := not_congr (lastSeq_after s hclient cmds cmd.requestSeq)
  push Not at hseen
  exact hseen

theorem cached_ofCommands_eq_none_iff {cmds : List KvCommand} {cmd : KvCommand}
    (hclient : cmd.clientId ≠ 0) :
    (ofCommands cmds).cached cmd = none ↔
      ∀ x ∈ cmds, x.clientId = cmd.clientId → x.requestSeq < cmd.requestSeq := by
  rw [show ofCommands cmds = empty.after cmds from rfl, cached_after_eq_none_iff hclient]
  simp [empty]

/-- After a list of commands, another one changes the store exactly if its
client has sent none with as high a sequence number. -/
theorem applyCommand_ofCommands_eq_self {cmds : List KvCommand} {cmd : KvCommand}
    (hclient : cmd.clientId ≠ 0) :
    ((ofCommands cmds).applyCommand cmd).1 = ofCommands cmds ↔
      ∃ x ∈ cmds, x.clientId = cmd.clientId ∧ cmd.requestSeq ≤ x.requestSeq := by
  rw [applyCommand_eq_self_iff hclient, Ne, cached_ofCommands_eq_none_iff hclient]
  push Not
  rfl

/-! ## The commands that change the store -/

/-- Those of the commands that change the store when they are applied. -/
def changing (s : KvStore) : List KvCommand → List KvCommand
  | [] => []
  | cmd :: cmds =>
      let s' := (s.applyCommand cmd).1
      if s' = s then changing s' cmds else cmd :: changing s' cmds

theorem changing_append (s : KvStore) (cmds cmds' : List KvCommand) :
    changing s (cmds ++ cmds') = changing s cmds ++
      changing (cmds.foldl (fun s cmd => (s.applyCommand cmd).1) s) cmds' := by
  induction cmds generalizing s with
  | nil => rfl
  | cons cmd cmds ih =>
      simp only [List.cons_append, changing, List.foldl_cons, ih]
      split <;> rfl

theorem changing_concat (cmds : List KvCommand) (cmd : KvCommand) :
    changing empty (cmds ++ [cmd]) = changing empty cmds ++
      if ((ofCommands cmds).applyCommand cmd).1 = ofCommands cmds then [] else [cmd] := by
  rw [changing_append]
  rfl

/-! ## A plain map -/

/-- What a map makes of commands when it executes every one of them. -/
def plain (cmds : List KvCommand) : AList fun _ : Bytes => Bytes :=
  cmds.foldl (fun data cmd => (execute data cmd).1) ∅

theorem plain_concat (cmds : List KvCommand) (cmd : KvCommand) :
    plain (cmds ++ [cmd]) = (execute (plain cmds) cmd).1 := by
  rw [plain, List.foldl_append]
  rfl

/-- The client has not sent this sequence number before. -/
def IsFirst (before : List KvCommand) (cmd : KvCommand) : Prop :=
  cmd.clientId = 0 ∨
    ∀ x ∈ before, (x.clientId, x.requestSeq) ≠ (cmd.clientId, cmd.requestSeq)

instance (before : List KvCommand) (cmd : KvCommand) : Decidable (IsFirst before cmd) :=
  inferInstanceAs (Decidable (_ ∨ _))

/-- The commands without repetitions, where those in `before` were sent already. -/
def firsts (before : List KvCommand) : List KvCommand → List KvCommand
  | [] => []
  | cmd :: cmds =>
      if IsFirst before cmd then cmd :: firsts (before ++ [cmd]) cmds
      else firsts (before ++ [cmd]) cmds

theorem firsts_append (before cmds cmds' : List KvCommand) :
    firsts before (cmds ++ cmds') = firsts before cmds ++ firsts (before ++ cmds) cmds' := by
  induction cmds generalizing before with
  | nil => simp [firsts]
  | cons cmd cmds ih =>
      simp only [List.cons_append, firsts, ih, List.append_assoc]
      split <;> rfl

theorem firsts_concat (cmds : List KvCommand) (cmd : KvCommand) :
    firsts [] (cmds ++ [cmd]) = firsts [] cmds ++ if IsFirst cmds cmd then [cmd] else [] := by
  rw [firsts_append]
  rfl

/-- Of every request there is a first one. -/
theorem exists_mem_firsts {cmds : List KvCommand} {x : KvCommand} (hx : x ∈ cmds)
    (hclient : x.clientId ≠ 0) :
    ∃ y ∈ firsts [] cmds, (y.clientId, y.requestSeq) = (x.clientId, x.requestSeq) := by
  induction cmds using List.reverseRecOn generalizing x with
  | nil => cases hx
  | append_singleton cmds cmd ih =>
      rw [firsts_concat]
      obtain hx | hx := List.mem_append.mp hx
      · obtain ⟨y, hy, heq⟩ := ih hx hclient
        exact ⟨y, List.mem_append_left _ hy, heq⟩
      · obtain rfl := List.mem_singleton.mp hx
        by_cases hfirst : IsFirst cmds x
        · exact ⟨x, by simp [hfirst], rfl⟩
        · -- the request was sent before, and that one has a first
          unfold IsFirst at hfirst
          push Not at hfirst
          obtain ⟨z, hz, heq⟩ := hfirst.2
          obtain ⟨y, hy, hyeq⟩ := ih hz ((Prod.mk.inj heq).1 ▸ hclient)
          exact ⟨y, List.mem_append_left _ hy, hyeq.trans heq⟩

/-- The first requests of each client come in the order of their sequence
numbers. -/
def InOrder (cmds : List KvCommand) : Prop :=
  (firsts [] cmds).Pairwise fun x y =>
    x.clientId ≠ 0 → x.clientId = y.clientId → x.requestSeq < y.requestSeq

instance (cmds : List KvCommand) : Decidable (InOrder cmds) :=
  inferInstanceAs (Decidable (List.Pairwise _ _))

theorem InOrder.of_isPrefix {before cmds : List KvCommand} (h : InOrder cmds)
    (hp : before <+: cmds) : InOrder before := by
  obtain ⟨rest, rfl⟩ := hp
  rw [InOrder, firsts_append] at h
  exact (List.pairwise_append.mp h).1

/-- The store recognises exactly the repetitions. -/
theorem InOrder.cached_eq_none_iff {cmds : List KvCommand} {cmd : KvCommand}
    (h : InOrder (cmds ++ [cmd])) : (ofCommands cmds).cached cmd = none ↔ IsFirst cmds cmd := by
  by_cases hclient : cmd.clientId = 0
  · simp [cached, IsFirst, hclient]
  rw [cached_ofCommands_eq_none_iff hclient]
  constructor
  · intro hbelow
    refine .inr fun x hx heq => ?_
    obtain ⟨hid, hseq⟩ := Prod.mk.inj heq
    exact absurd (hbelow x hx hid) (by omega)
  · intro hfirst x hx hid
    obtain ⟨y, hy, heq⟩ := exists_mem_firsts hx (hid ▸ hclient)
    obtain ⟨hyid, hyseq⟩ := Prod.mk.inj heq
    rw [InOrder, firsts_concat, if_pos hfirst] at h
    rw [← hyseq]
    exact (List.pairwise_append.mp h).2.2 y hy cmd List.mem_cons_self
      (hyid.trans hid ▸ hclient) (hyid.trans hid)

theorem applyCommand_of_cached_eq_none {s : KvStore} {cmd : KvCommand} (h : s.cached cmd = none) :
    (s.applyCommand cmd).1.data = (execute s.data cmd).1 ∧
      (s.applyCommand cmd).2 = (execute s.data cmd).2 := by
  rw [applyCommand, h]
  exact ⟨rfl, rfl⟩

theorem InOrder.data_eq {cmds : List KvCommand} (h : InOrder cmds) :
    (ofCommands cmds).data = plain (firsts [] cmds) := by
  induction cmds using List.reverseRecOn with
  | nil => rfl
  | append_singleton cmds cmd ih =>
      have hfront := ih (h.of_isPrefix (List.prefix_append cmds [cmd]))
      rw [ofCommands_concat, firsts_concat]
      by_cases hfirst : IsFirst cmds cmd
      · have hnone := h.cached_eq_none_iff.mpr hfirst
        rw [if_pos hfirst, plain_concat, (applyCommand_of_cached_eq_none hnone).1, hfront]
      · obtain ⟨result, hresult⟩ :=
          Option.ne_none_iff_exists'.mp (mt h.cached_eq_none_iff.mp hfirst)
        rw [if_neg hfirst, List.append_nil, applyCommand_of_cached hresult, hfront]

/-- **Exactly once for in-order clients**: the data of the store are those of a
plain map that executes the same commands without the repetitions, the first
request of each kind gets the plain map's result, and commands without a client
are always executed. -/
theorem exactly_once {cmds : List KvCommand} (h : InOrder cmds) :
    (ofCommands cmds).data = plain (firsts [] cmds) ∧
      (∀ before cmd, before ++ [cmd] <+: cmds → IsFirst before cmd →
        ((ofCommands before).applyCommand cmd).2 =
          (execute (plain (firsts [] before)) cmd).2) ∧
      ∀ before cmd, before ++ [cmd] <+: cmds → cmd.clientId = 0 →
        (ofCommands (before ++ [cmd])).data = (execute (ofCommands before).data cmd).1 := by
  refine ⟨h.data_eq, fun before cmd hp hfirst => ?_, fun before cmd hp hclient => ?_⟩
  · have horder := h.of_isPrefix hp
    have hbefore := (horder.of_isPrefix (List.prefix_append before [cmd])).data_eq
    rw [(applyCommand_of_cached_eq_none (horder.cached_eq_none_iff.mpr hfirst)).2, hbefore]
  · have hnone : (ofCommands before).cached cmd = none := if_pos hclient
    rw [ofCommands_concat, (applyCommand_of_cached_eq_none hnone).1]

/-- Two clients; the first one repeats its first request after its second. -/
theorem exactly_once_of_repeated :
    let cmds : List KvCommand :=
      [⟨.put, [107], [1], [], 7, 1⟩, ⟨.cas, [107], [2], [1], 8, 1⟩, ⟨.put, [108], [3], [], 7, 2⟩,
        ⟨.put, [107], [1], [], 7, 1⟩]
    (firsts [] cmds).length = 3 ∧ (ofCommands cmds).data = plain (firsts [] cmds) := by
  exact ⟨by decide, (exactly_once (by decide)).1⟩

end KvStore

end KvRaft
