/-
  RigVeh.Runner.Account — what interleaved operations leave, told by what they returned.

  The calls that leave something are marked: an append that was accepted, a sandbox that
  was opened, a teardown. Each operation's marks are told by its result (`op_tells`):
  one append for the node it returned and none for an error, and for a generation the
  same inside its sandbox, where alone a failed teardown hides a node that was stored.
  Whatever is interleaved, the ledger lists the accepted appends in order, each the work
  of one operation (`accounted`): nothing is lost, and nothing is stored twice.
-/

import RigVeh.Base.Account
import RigVeh.Ledger.Jsonl
import RigVeh.Runner.Based
import RigVeh.Runner.Made

namespace RigVeh

open RigVeh.Json RigVeh.Base RigVeh.Base.Prog

variable {X : Crates}

inductive Mark (X : Crates) where
  | appended (node : AgentNode X)
  | enforced
  | tornDown (ok : Bool)

def Mark.node : Mark X → Option (AgentNode X)
  | appended node => some node
  | _ => none

def mark : Answered X → Option (Mark X)
  | ⟨_, .ledger (.append node), .ok (), _, _⟩ => some (.appended node)
  | ⟨_, .enforce _ _, .ok (), _, _⟩ => some .enforced
  | ⟨_, .teardown, r, _, _⟩ => some (.tornDown r.isOk)
  | _ => none

/-- What operations leave, told by what they return. -/
inductive Receipt : Op X → Except Error (Outcome X) → List (Mark X) → Prop
  | failed (op : Op X) (e : Error) : Receipt op (.error e) []
  | returned {op : Op X} (o : Outcome X) : op.OfRunner → Receipt op (.ok o) (o.nodes.map .appended)
  | generated {op : Op X} (o : Outcome X) : ¬ op.OfRunner →
      Receipt op (.ok o) (.enforced :: o.nodes.map .appended ++ [.tornDown true])
  /-- The cycle in the sandbox failed. -/
  | aborted {op : Op X} (e : Error) (ok : Bool) : ¬ op.OfRunner → Receipt op (.error e) [.enforced, .tornDown ok]
  /-- The cycle in the sandbox succeeded, with an outcome the teardown's error replaced. -/
  | hidden {op : Op X} (e : Error) (o : Outcome X) : ¬ op.OfRunner →
      Receipt op (.error e) (.enforced :: o.nodes.map .appended ++ [.tornDown false])

/-! ## One operation -/

abbrev Marks {α : Type} (Q : Except Error α → List (Mark X) → Prop) (x : Act X α) : Prop := Tells Shared mark Q x.run

/-- An append for each node returned. -/
def kept {α : Type} (g : α → List (AgentNode X)) : Except Error α → List (Mark X)
  | .ok a => (g a).map .appended
  | .error _ => []

/-- Calls that leave nothing. -/
def Call.Leaves : Call X → Prop
  | .ledger (.append _) => True
  | .enforce _ _ => True
  | .teardown => True
  | _ => False

theorem mark_none {m : Answered X} (h : ¬ m.call.Leaves) : mark m = none := by
  obtain ⟨i, c, r, s, s'⟩ := m
  cases c with
  | ledger c =>
    cases c with
    | append node => exact absurd trivial h
    | _ => rfl
  | enforce => exact absurd trivial h
  | teardown => exact absurd trivial h
  | _ => rfl

theorem quiet_marks {α : Type} {x : Act X α} (hx : x.run.Makes fun c => ¬ Call.Leaves c) : Marks (fun _ w => w = []) x :=
  tells_makes (fun _ hm => mark_none hm) hx

theorem append_marks (node : AgentNode X) : Marks (fun r w => w = kept (fun _ => [node]) r) (Act.append node) := by
  refine tells_call fun i r s s' _ => tells_ret ?_
  cases r <;> rfl

theorem enforce_marks (artifact : AgentArtifact X) (scope : AllowedScope) :
    Marks (fun r w => w = if r.isOk then [.enforced] else []) (Act.enforce artifact scope) := by
  refine tells_call fun i r s s' _ => tells_ret ?_
  cases r <;> rfl

theorem teardown_marks : Marks (X := X) (fun r w => w = [.tornDown r.isOk]) Act.teardown :=
  tells_call fun _ _ _ _ _ => tells_ret rfl

/-- An outcome kept as a value leaves what it did. -/
theorem observe_marks {α : Type} {Q : Except Error α → List (Mark X) → Prop} {x : Act X α} (hx : Marks Q x) :
    Marks (fun r w => ∃ a, r = .ok a ∧ Q a w) (observe x) := by
  refine tells_bind hx fun r w hr => tells_ret ⟨r, rfl, ?_⟩
  rwa [List.append_nil]

theorem map_marks {α β : Type} {x : Act X α} {f : α → List (AgentNode X)} {g : β → List (AgentNode X)} (F : α → β)
    (hF : ∀ a, g (F a) = f a) (hx : Marks (fun r w => w = kept f r) x) :
    Marks (fun r w => w = kept g r) (x >>= fun a => pure (F a)) := by
  refine tells_seq hx (fun _ _ h => h) fun a w hw => tells_ret ?_
  subst hw
  simp [kept, hF]

theorem commit_marks (i : CommitInputs X) (k : X.SigningKey) : Marks (fun r w => w = kept (fun n => [n]) r) (commit i k) := by
  refine tells_check (fun _ => rfl) fun node _ => tells_seq (append_marks node) (fun _ _ h => h) fun _ w hw => tells_ret ?_
  subst hw
  rfl

theorem runCycle_marks (v : Veh X) (i : CycleInputs X) :
    Marks (fun r w => w = kept CycleOutcome.nodes r) (v.runCycle i) := by
  refine tells_check (fun _ => rfl) fun diff _ => ?_
  refine tells_seq (quiet_marks (x := Act.evaluate i.candidate) ⟨id, fun _ => trivial⟩) (fun _ _ h => h) fun eval w hw => ?_
  subst hw
  have hcommit (c : CommitInputs X) (F : AgentNode X → CycleOutcome X) (hF : ∀ n, (F n).nodes = [n]) :=
    map_marks (g := CycleOutcome.nodes) F hF (commit_marks c v.signingKey)
  rcases v.notImproved i.parent eval with _ | reason
  · rcases v.policy i.parent i.intent i.candidate.capabilitySbom with _ | reason | reason
    · exact hcommit _ _ fun _ => rfl
    · exact hcommit _ _ fun _ => rfl
    · exact tells_ret rfl
  · exact hcommit _ _ fun _ => rfl

theorem rollbackTarget_quiet (id : AgentId) :
    (rollbackTarget id : Act X (AgentNode X)).run.Makes fun c => ¬ Call.Leaves c := by
  refine makes_seq ⟨fun h => h, fun _ => trivial⟩ fun target => makes_check fun _ _ => ?_
  split <;> trivial

theorem commitRollback_marks (v : Veh X) (targetId : AgentId) (createdAt : String) :
    Marks (fun r w => w = kept (fun n => [n]) r) (v.commitRollback targetId createdAt) := by
  have hnext {α β : Type} {x : Act X α} {g : α → Act X β} {Q : β → List (AgentNode X)}
      (hx : x.run.Makes fun c => ¬ Call.Leaves c) (hg : ∀ a, Marks (fun r w => w = kept Q r) (g a)) :
      Marks (fun r w => w = kept Q r) (x >>= g) :=
    tells_seq (quiet_marks hx) (fun _ _ h => h) fun a w hw => by
      subst hw
      exact hg a
  refine hnext (rollbackTarget_quiet targetId) fun target => ?_
  refine hnext (x := Act.head) ⟨fun h => h, fun _ => trivial⟩ fun head => ?_
  cases head with
  | none => exact tells_ret rfl
  | some parentId => exact hnext (x := Act.get parentId) ⟨fun h => h, fun _ => trivial⟩ fun _ => commit_marks _ _

theorem reads_quiet {c : Call X} (h : c.Reads) : ¬ c.Leaves := by
  cases c with
  | ledger c =>
    cases c with
    | append | setHead => exact h.elim
    | get | head | nodes => exact fun h => h
  | now => exact fun h => h
  | evaluate | propose | enforce | teardown => exact h.elim

theorem runGeneration_marks (v : Veh X) {select : Act X AgentId} (hsel : select.run.Makes Call.Reads)
    (intent : MutationIntent) (allowedScope : AllowedScope) (context : MutationContext) (createdAt : String) :
    Marks (fun r w => Receipt (.runGeneration v select intent allowedScope context createdAt) (r.map .cycle) w)
      (v.runGeneration select intent allowedScope context createdAt) := by
  have hgen : ¬ Op.OfRunner (.runGeneration v select intent allowedScope context createdAt) := fun h => h
  have hquiet {α β : Type} {x : Act X α} {g : α → Act X β} {Q : Except Error β → List (Mark X) → Prop}
      (hx : x.run.Makes fun c => ¬ Call.Leaves c) (he : ∀ e, Q (.error e) []) (hg : ∀ a, Marks Q (g a)) :
      Marks Q (x >>= g) :=
    tells_seq (quiet_marks hx) (fun e w hw => hw ▸ he e) fun a w hw => by
      subst hw
      exact hg a
  refine hquiet (makes_mono (fun _ => reads_quiet) hsel) (.failed _) fun parentId => ?_
  refine hquiet (x := Act.get parentId) ⟨fun h => h, fun _ => trivial⟩ (.failed _) fun parent => ?_
  refine hquiet (x := Act.propose parent intent context) ⟨fun h => h, fun _ => trivial⟩ (.failed _) fun candidate => ?_
  refine tells_seq (enforce_marks candidate allowedScope) (fun e w hw => hw ▸ .failed _ e) fun _ w hw => ?_
  subst hw
  refine tells_seq (observe_marks (runCycle_marks v ⟨parent, intent, candidate, allowedScope, createdAt⟩)) ?_ ?_
  · intro e w ⟨_, h, _⟩
    cases h
  rintro cycle w ⟨_, ⟨⟩, rfl⟩
  refine tells_seq (observe_marks teardown_marks) ?_ ?_
  · intro e w ⟨_, h, _⟩
    cases h
  rintro down w ⟨_, ⟨⟩, rfl⟩
  -- the sandbox is closed; only the results are left to combine
  cases cycle with
  | error e => exact tells_ret (.aborted e _ hgen)
  | ok outcome =>
    cases down with
    | error e => exact tells_ret (.hidden e (.cycle outcome) hgen)
    | ok _ => exact tells_ret (.generated (.cycle outcome) hgen)

/-- What an operation's calls left is told by what it returned. -/
theorem op_tells {op : Op X} (hop : op.SelectsByReading) : Marks (Receipt op) op.act := by
  have hrunner {α : Type} {x : Act X α} {g : α → List (AgentNode X)} (F : α → Outcome X) (ho : op.OfRunner)
      (hF : ∀ a, (F a).nodes = g a) (hx : Marks (fun r w => w = kept g r) x) :
      Marks (Receipt op) (x >>= fun a => pure (F a)) := by
    refine tells_mono (fun r w hw => ?_) (map_marks F hF hx)
    subst hw
    cases r with
    | error e => exact .failed _ e
    | ok o => exact .returned o ho
  cases op with
  | commitRoot => exact hrunner .node trivial (fun _ => rfl) (commit_marks _ _)
  | runCycle v i => exact hrunner .cycle trivial (fun _ => rfl) (runCycle_marks v i)
  | resumeWithApproval => exact hrunner .node trivial (fun _ => rfl) (commit_marks _ _)
  | rollbackTo id =>
    refine hrunner (g := fun _ => []) (fun _ => .done) trivial (fun _ => rfl) (tells_mono (fun r w hw => ?_) (quiet_marks ?_))
    · subst hw
      cases r <;> rfl
    · exact makes_seq (rollbackTarget_quiet id) fun _ => ⟨fun h => h, fun _ => trivial⟩
  | commitRollback v targetId createdAt => exact hrunner .node trivial (fun _ => rfl) (commitRollback_marks v targetId createdAt)
  | runGeneration v select intent allowedScope context createdAt =>
    refine tells_seq (runGeneration_marks v hop intent allowedScope context createdAt) (fun _ _ h => h) fun o w hw => ?_
    refine tells_ret ?_
    rw [List.append_nil]
    exact hw

/-! ## Interleaved -/

theorem mark_answered : ∀ (c : Call X) (s : InMemoryInner X), ∃ r s', Shared c s r s' := by
  intro c s
  cases c with
  | ledger c => exact ⟨(c.answer s).1, (c.answer s).2, rfl⟩
  | now => exact ⟨0, s, rfl⟩
  | evaluate | propose | enforce | teardown => exact ⟨.error .missingParent, s, rfl⟩

theorem call_nodes {m : Answered X} (h : Shared m.call m.before m.ans m.after) (hw : m.before.Wf) :
    m.after.list = m.before.list ++ ((mark m).bind Mark.node).toList := by
  by_cases hleaves : m.call.Leaves
  · obtain ⟨i, c, r, s, s'⟩ := m
    cases c with
    | ledger c =>
      cases c with
      | append node =>
        rcases shared_append h with ⟨hf, rfl, hs⟩ | ⟨⟨e, rfl⟩, hs⟩
        · obtain rfl : s' = s.push node := hs
          exact InMemoryInner.list_push hw hf
        · obtain rfl : s' = s := hs
          exact (List.append_nil _).symm
      | _ => exact hleaves.elim
    | enforce =>
      obtain rfl : s' = s := h
      cases r <;> exact (List.append_nil _).symm
    | teardown =>
      obtain rfl : s' = s := h
      exact (List.append_nil _).symm
    | _ => exact hleaves.elim
  · -- nothing is left: at most the head moved
    rw [mark_none hleaves, Option.bind_none, Option.toList_none, List.append_nil]
    obtain ⟨i, c, r, s, s'⟩ := m
    cases c with
    | ledger c =>
      cases c with
      | append node => exact absurd trivial hleaves
      | setHead id =>
        rcases shared_setHead h with ⟨-, hs⟩ | ⟨-, hs⟩
        · exact (congrArg InMemoryInner.list hs).trans rfl
        · exact congrArg InMemoryInner.list hs
      | _ => exact congrArg InMemoryInner.list (congrArg Prod.snd h)
    | enforce => exact absurd trivial hleaves
    | teardown => exact absurd trivial hleaves
    | _ => exact congrArg InMemoryInner.list h

/-- The ledger lists the accepted appends. -/
theorem linked_nodes {s s' : InMemoryInner X} {l : List (Answered X)} (h : Linked s l s') (hw : s.Wf)
    (hstep : ∀ m ∈ l, Shared m.call m.before m.ans m.after) :
    s'.list = s.list ++ (l.filterMap mark).filterMap Mark.node := by
  induction l generalizing s with
  | nil =>
    obtain rfl : s = s' := h
    exact (List.append_nil _).symm
  | cons m l ih =>
    obtain ⟨rfl, h⟩ := h
    have hm := hstep m (.head l)
    rw [ih h (call_wf hm hw) fun m' hm' => hstep m' (.tail m hm'), call_nodes hm hw, List.append_assoc, List.filterMap_cons]
    cases mark m with
    | none => rfl
    | some x =>
      rw [List.filterMap_cons]
      cases hx : x.node <;> simp [hx]

/-- The ledger's nodes, and the calls that stored them. -/
theorem stored_once {t : List (Answered X)} {s : InMemoryInner X} (hw : s.Wf)
    (hlist : s.list = (t.filterMap mark).filterMap Mark.node) {n : AgentNode X} (hn : n ∈ s.list) :
    ∃! i, .appended n ∈ (t.filter (·.who = i)).filterMap mark := by
  have hown {i : Nat} : .appended n ∈ (t.filter (·.who = i)).filterMap mark ↔ ∃ m ∈ t, m.who = i ∧ mark m = some (.appended n) := by
    simp only [List.mem_filterMap, List.mem_filter, decide_eq_true_eq, and_assoc]
  have hnode (x : Mark X) (hx : x.node = some n) : x = .appended n := by
    cases x with
    | appended m => exact congrArg Mark.appended (Option.some.inj hx)
    | _ => cases hx
  have hnodup : (t.filterMap fun m => (mark m).bind Mark.node).Nodup := by
    have hids : (s.list.map (·.agentId)).Nodup := by
      rw [InMemoryInner.list_ids hw]
      exact hw.nodup
    rw [hlist, List.filterMap_filterMap] at hids
    exact .of_map _ hids
  rw [hlist] at hn
  obtain ⟨x, hx, hxn⟩ := List.mem_filterMap.mp hn
  obtain ⟨m, hm, hmark⟩ := List.mem_filterMap.mp hx
  obtain rfl := hnode x hxn
  refine ⟨m.who, hown.mpr ⟨m, hm, rfl, hmark⟩, fun i hi => ?_⟩
  obtain ⟨m', hm', rfl, hmark'⟩ := hown.mp hi
  have heq : m' = m := filterMap_inj hnodup hm' hm (b := n) (by rw [hmark']; rfl) (by rw [hmark]; rfl)
  rw [heq]

/-- However operations are interleaved and whatever the collaborators answer, the ledger
    lists the accepted appends in the order they were made, each node of it the append of
    one operation. The calls of an operation that returned come to what its result tells,
    those of one that has not to the beginning of what some result would. -/
theorem accounted {start : InMemoryInner X → List (Prog (calls X) (Except Error (Outcome X))) →
      Prog (calls X) (Except Error (Outcome X)) → Prop} {t : List (Answered X)} {s : InMemoryInner X}
    {ps : List (Prog (calls X) (Except Error (Outcome X)) × Prog (calls X) (Except Error (Outcome X)))}
    (ht : Timeline Shared start .default t s ps) :
    s.list = (t.filterMap mark).filterMap Mark.node ∧
      (∀ n ∈ s.list, ∃! i, .appended n ∈ (t.filter (·.who = i)).filterMap mark) ∧
      ∀ (i : Nat) (op : Op X) (q : Prog (calls X) (Except Error (Outcome X))), op.SelectsByReading →
        ps[i]? = some (op.act.run, q) →
          (∃ r w, Receipt op r w ∧ (t.filter (·.who = i)).filterMap mark <+: w) ∧
            ∀ r, q = .ret r → Receipt op r ((t.filter (·.who = i)).filterMap mark) := by
  have hlink := timeline_linked ht
  have hsteps : ∀ m ∈ t, Shared m.call m.before m.ans m.after := fun _ hm => timeline_steps ht hm
  have hwf := (linked_keeps hlink InMemoryInner.default_wf fun m hm => call_wf (hsteps m hm)).1
  have hlist : s.list = (t.filterMap mark).filterMap Mark.node := linked_nodes hlink InMemoryInner.default_wf hsteps
  refine ⟨hlist, fun n hn => stored_once hwf hlist hn, fun i op q hop hi => ?_⟩
  refine ⟨timeline_owes mark_answered ht hi (op_tells hop), fun r hr => ?_⟩
  subst hr
  exact timeline_tells ht hi (op_tells hop)

namespace Reference

/-- The rollback that was overtaken left the node it returned, after the second root. -/
theorem accounted_overtaken : ∃ s ps, Timeline Shared Started .default overtaken s ps ∧
    s.list = [cappedRoot, snapshotNode, rolledBack] ∧
      Receipt (.commitRollback veh cappedRoot.agentId "2026-01-01T00:01:00Z") (.ok (.node rolledBack))
        [.appended rolledBack] := by
  let rollback := Op.commitRollback veh cappedRoot.agentId "2026-01-01T00:01:00Z"
  obtain ⟨s, ps, ht, hi⟩ := overtaken_timeline
  obtain ⟨hlist, -, hops⟩ := accounted ht
  exact ⟨s, ps, ht, hlist, (hops 1 rollback _ trivial hi).2 _ rfl⟩

end Reference

end RigVeh
