/-
  RigVeh.Runner.Driver — evolution under the driver.

  A built-in selector reads the ledger and picks a node with `validParent`
  (`select_picks`). `Driven` are the histories of one root and then driver generations
  under the default gate, each with its parent's scope, resumed pauses and rollbacks.
  Over them (`Inv`, kept by every step) every node has the root's scope, a node that may
  become a parent is promoted, and every capability of a promoted node is the root's,
  admitted by the root's scope, or was approved (`no_capability_creep`).
-/

import RigVeh.Runner.Mediation
import RigVeh.Runner.Selection

namespace RigVeh

open RigVeh.Json RigVeh.Base

variable {X : Crates}

/-! ## What a selector picks -/

section

variable {R : Type} {A : Arith R} {hash : List Hashed → UInt64} {h : Host X} {s : InMemoryInner X}

/-- The program only reads, and returns an id that `P` holds of. -/
def Picks (h : Host X) (s : InMemoryInner X) (P : AgentId → Prop) (x : Act X AgentId) : Prop :=
  (exec h x s).2 = s ∧ ∀ id, (exec h x s).1 = .ok id → P id

/-- The id of a listed node that may become a parent. -/
def Eligible (s : InMemoryInner X) (id : AgentId) : Prop := ∃ n ∈ s.list, n.validParent = true ∧ n.agentId = id

/-- Every built-in selector reads the ledger and picks an eligible node. -/
theorem select_picks (b : ParentSelector) : Picks h s (Eligible s) (b.select A hash) := by
  rw [Picks, ParentSelector.select_choose, exec_bind, exec_nodes, Prog.andThen_ok]
  constructor
  · refine Prog.run_still h.answer ?_ (ParentSelector.choose_makes A hash s.list b) s
    intro c hc t
    obtain rfl := hc
    rfl
  · exact (choose_exact A hash h.answer s s.list b).1

end

/-! ## Histories of a driver -/

def BuiltIn (select : Act X AgentId) : Prop :=
  ∃ (R : Type) (A : Arith R) (hash : List Hashed → UInt64) (b : ParentSelector), select = b.select A hash

/-- What a built-in selector picks is stored and may be a parent. -/
theorem builtIn_parent {h : Host X} {s : InMemoryInner X} (hs : s.Wf) {select : Act X AgentId} (hb : BuiltIn select)
    {parentId : AgentId} {parent : AgentNode X} (hsel : (exec h select s).1 = .ok parentId)
    (hpar : s.nodes parentId = some parent) : parent.validParent = true := by
  obtain ⟨R, A, hash, b, rfl⟩ := hb
  obtain ⟨n, hn, hv, rfl⟩ := (select_picks b).2 parentId hsel
  rw [InMemoryInner.mem_list hs] at hn
  obtain rfl : n = parent := Option.some.inj (hn.symm.trans hpar)
  exact hv

/-- One root first, then generations with a built-in selector and the scope of the
    parent it picks, resumed pauses and rollbacks. -/
def Driven : Rule X := fun t s h op =>
  match op with
  | .commitRoot _ _ _ _ => t = []
  | .runGeneration v select _ allowedScope _ _ => v.policy = DefaultPolicyGate.evaluate ∧ BuiltIn select ∧
      ∀ id parent, (exec h select s).1 = .ok id → s.nodes id = some parent → allowedScope = parent.allowedScope
  | .resumeWithApproval pending _ => Paused t pending
  | .rollbackTo _ => True
  | .commitRollback _ _ _ => True
  | .runCycle _ _ => False

def Op.IsRoot : Op X → Prop
  | .commitRoot _ _ _ _ => True
  | _ => False

def Op.IsResume : Op X → Prop
  | .resumeWithApproval _ _ => True
  | _ => False

/-- The root's, admitted by the root's scope, or held by an approved node. -/
def Accounted (t : List (Event X)) (s : InMemoryInner X) (root : AgentNode X) (cap : String) : Prop :=
  cap ∈ root.capabilitySbom ∨ root.allowedScope.Admits cap ∨
    ∃ m, s.nodes m.agentId = some m ∧ (∃ e ∈ t, e.Commits m ∧ e.op.IsResume) ∧ cap ∈ m.capabilitySbom

structure Inv (root : AgentNode X) (t : List (Event X)) (s : InMemoryInner X) : Prop where
  scope : ∀ id n, s.nodes id = some n → n.allowedScope = root.allowedScope
  valid : ∀ id n, s.nodes id = some n → n.validParent = true → n.status = .promoted
  held : ∀ id n, s.nodes id = some n → n.status = .promoted → ∀ cap ∈ n.capabilitySbom, Accounted t s root cap
  paused : ∀ pending, Paused t pending → pending.allowedScope = root.allowedScope

theorem Accounted.later {t t' : List (Event X)} {s s' : InMemoryInner X} {root : AgentNode X} {cap : String}
    (ht : ∀ e ∈ t, e ∈ t') (hs : ∀ id n, s.nodes id = some n → s'.nodes id = some n) (h : Accounted t s root cap) :
    Accounted t' s' root cap := by
  rcases h with h | h | ⟨m, hm, ⟨e, he, hc⟩, hcap⟩
  · exact .inl h
  · exact .inr (.inl h)
  · exact .inr (.inr ⟨m, hs _ _ hm, ⟨e, ht e he, hc⟩, hcap⟩)

theorem paused_append {t : List (Event X)} {e : Event X} {pending : PendingApproval X} :
    Paused (t ++ [e]) pending ↔ Paused t pending ∨ e.result = .ok (.cycle (.awaitingApproval pending)) := by
  simp [Paused, or_and_right, exists_or]

/-- An operation that pauses ran a cycle that does. -/
theorem paused_cycle {c : Except Error (CycleOutcome X)} {r : Except Error (Outcome X)} {pending : PendingApproval X}
    (hres : r = c.map .cycle ∨ ∃ e, r = .error e) (hp : r = .ok (.cycle (.awaitingApproval pending))) :
    c = .ok (.awaitingApproval pending) := by
  rcases hres with rfl | ⟨e, rfl⟩
  · cases c with
    | error e => cases hp
    | ok o =>
      cases hp
      rfl
  · cases hp

section

variable {root : AgentNode X} {t : List (Event X)} {h : Host X} {op : Op X} {s s' : InMemoryInner X}
  {r : Except Error (Outcome X)}

/-- A step that stores nothing and pauses within the root's scope. -/
theorem Inv.still (hi : Inv root t s) (hn : s'.nodes = s.nodes)
    (hp : ∀ pending, r = .ok (.cycle (.awaitingApproval pending)) → pending.allowedScope = root.allowedScope) :
    Inv root (t ++ [⟨h, op, s, r, s'⟩]) s' where
  scope := by rw [hn]; exact hi.scope
  valid := by rw [hn]; exact hi.valid
  held id n h hpr cap hc := by
    rw [hn] at h
    exact (hi.held id n h hpr cap hc).later (fun _ h => by simp [h]) (fun id n h => by rw [hn]; exact h)
  paused pending h := (paused_append.mp h).elim (hi.paused pending) (hp pending)

/-- A step that stores `m` and pauses nothing. -/
theorem Inv.stores (hi : Inv root t s) {m : AgentNode X} (hf : s.nodes m.agentId = none)
    (hp : ∀ pending, r ≠ .ok (.cycle (.awaitingApproval pending))) (hscope : m.allowedScope = root.allowedScope)
    (hvalid : m.validParent = true → m.status = .promoted)
    (hheld : m.status = .promoted → ∀ cap ∈ m.capabilitySbom,
      Accounted (t ++ [⟨h, op, s, r, s.push m⟩]) (s.push m) root cap) :
    Inv root (t ++ [⟨h, op, s, r, s.push m⟩]) (s.push m) where
  scope id n h := by
    rcases InMemoryInner.stored_push h with h | ⟨-, rfl⟩
    · exact hi.scope id n h
    · exact hscope
  valid id n h := by
    rcases InMemoryInner.stored_push h with h | ⟨-, rfl⟩
    · exact hi.valid id n h
    · exact hvalid
  held id n h := by
    rcases InMemoryInner.stored_push h with h | ⟨-, rfl⟩
    · exact fun hpr cap hc =>
        (hi.held id n h hpr cap hc).later (fun _ h => by simp [h]) fun _ _ h => InMemoryInner.push_stored hf h
    · exact hheld
  paused pending h := (paused_append.mp h).elim (hi.paused pending) (fun h => absurd h (hp pending))

/-- A generation's cycle: a picked parent, its scope and the default gate. -/
theorem cycle_inv (hr : Runs Driven t s) (hi : Inv root t s) (hok : Driven t s h op) {v : Veh X} {i : CycleInputs X}
    {c : Except Error (CycleOutcome X)} (hc : op.Cycles h s v i) (hcy : Cycle v h i s c s')
    (hres : r = c.map .cycle ∨ ∃ e, r = .error e) : Inv root (t ++ [⟨h, op, s, r, s'⟩]) s' := by
  cases hc with
  | run => exact hok.elim
  | @generation v select intent allowedScope context createdAt parentId parent candidate hsel hpar =>
    obtain ⟨hpol, hb, hsc⟩ := hok
    have hv := builtIn_parent (runs_wf hr) hb hsel hpar
    have hscope : allowedScope = root.allowedScope := (hsc parentId parent hsel hpar).trans (hi.scope _ _ hpar)
    have hparent := hi.held _ _ hpar (hi.valid _ _ hpar hv)
    cases hcy with
    | failed e => exact hi.still rfl fun _ hp => by cases paused_cycle hres hp
    | awaiting =>
      refine hi.still rfl fun pending hp => ?_
      cases paused_cycle hres hp
      exact hscope
    | promoted _ _ ha hn hf =>
      obtain ⟨hin, hsbom, -⟩ := signNode_inputs hn
      refine hi.stores hf (fun _ hp => by cases paused_cycle hres hp)
        ((congrArg CommitInputs.allowedScope hin).trans hscope) (fun _ => congrArg CommitInputs.status hin)
        fun _ cap hcap => ?_
      rw [hsbom] at hcap
      rw [hpol] at ha
      rcases (DefaultPolicyGate.evaluate_approve.mp ha).capability cap hcap with hcap | hcap
      · exact (hparent cap hcap).later (fun _ h => by simp [h]) fun _ _ h => InMemoryInner.push_stored hf h
      · rw [show parent.allowedScope = root.allowedScope from hi.scope _ _ hpar] at hcap
        exact .inr (.inl hcap)
    | rejected _ _ hn hf =>
      obtain ⟨hin, -, -⟩ := signNode_inputs hn
      have hst := congrArg CommitInputs.status hin
      have hvp := congrArg CommitInputs.validParent hin
      refine hi.stores hf (fun _ hp => by cases paused_cycle hres hp)
        ((congrArg CommitInputs.allowedScope hin).trans hscope) (fun h => ?_) fun h => ?_
      · exact absurd (h.symm.trans hvp) (by simp [cycleInputs])
      · exact absurd (h.symm.trans hst) (by simp [cycleInputs])

/-- Every step of a driver keeps the invariant. -/
theorem inv_step (hr : Runs Driven t s) (hi : Inv root t s) (hok : Driven t s h op) (heff : Effect h s op r s')
    (hroot : op.IsRoot → ∀ n, s.nodes n.agentId = none → s'.nodes n.agentId = some n → n = root) :
    Inv root (t ++ [⟨h, op, s, r, s'⟩]) s' := by
  cases heff with
  | cycle hc hcy hres => exact cycle_inv hr hi hok hc hcy hres
  | failed op e => exact hi.still rfl (by simp)
  | pointed => exact hi.still rfl (by simp)
  | @root v artifact allowedScope createdAt node hn hf =>
    obtain rfl := hroot trivial node hf (InMemoryInner.push_same s node)
    obtain ⟨hin, -, -⟩ := signNode_inputs hn
    exact hi.stores hf (by simp) rfl (fun _ => congrArg CommitInputs.status hin) fun _ cap hcap => .inl hcap
  | @resumed pending key node hn hf =>
    obtain ⟨hin, -, -⟩ := signNode_inputs hn
    have hstored := InMemoryInner.push_same s node
    refine hi.stores hf (by simp) ((congrArg CommitInputs.allowedScope hin).trans (hi.paused pending hok))
      (fun _ => congrArg CommitInputs.status hin) fun _ cap hcap => ?_
    exact .inr (.inr ⟨node, hstored, ⟨_, List.mem_append_right t (.head _), ⟨hf, hstored⟩, trivial⟩, hcap⟩)
  | rolledBack ht _ hpr _ _ hn hf =>
    obtain ⟨hin, hsbom, -⟩ := signNode_inputs hn
    obtain ⟨_, _, _, hd⟩ := committed hr ht
    refine hi.stores hf (by simp) ((congrArg CommitInputs.allowedScope hin).trans (hi.scope _ _ ht))
      (fun _ => congrArg CommitInputs.status hin) fun _ cap hcap => ?_
    rw [hsbom, show (rollbackInputs _ _ _ _).artifact.capabilitySbom = _ from hd.derived.symm] at hcap
    exact (hi.held _ _ ht hpr cap hcap).later (fun _ h => by simp [h]) fun _ _ h => InMemoryInner.push_stored hf h

/-- A trace's root is its first event. -/
theorem root_first (hr : Runs Driven t s) {e : Event X} (he : e ∈ t) (hroot : e.op.IsRoot) : t.head? = some e := by
  induction hr with
  | empty => cases he
  | @next t s h op _ hok _ ih =>
    rcases List.mem_append.mp he with he | he
    · rw [List.head?_append, ih he]
      rfl
    · obtain rfl := List.mem_singleton.mp he
      have ht : t = [] := by
        cases op with
        | commitRoot => exact hok
        | _ => exact hroot.elim
      rw [ht]
      rfl

theorem driven_inv (hr : Runs Driven t s) (hroot : ∀ e ∈ t, e.op.IsRoot → ∀ n, e.Commits n → n = root) :
    Inv root t s := by
  induction hr with
  | empty =>
    refine ⟨fun _ _ h => ?_, fun _ _ h => ?_, fun _ _ h => ?_, fun _ ⟨_, h, _⟩ => ?_⟩ <;> cases h
  | @next t s h op hr hok hro ih =>
    exact inv_step hr (ih fun e he => hroot e (by simp [he])) hok (effect h op hro s)
      fun hisroot n hf hn => hroot (op.event h s) (by simp) hisroot n ⟨hf, hn⟩

/-- In every ledger a driver reaches, every capability of a promoted node is the root's,
    admitted by the root's scope, or held by a node that was approved. -/
theorem no_capability_creep (hr : Runs Driven t s) {e : Event X} (he : e ∈ t) (heroot : e.op.IsRoot)
    (hc : e.Commits root) {n : AgentNode X} (hn : s.nodes n.agentId = some n) (hp : n.status = .promoted) :
    ∀ cap ∈ n.capabilitySbom, cap ∈ root.capabilitySbom ∨ root.allowedScope.Admits cap ∨
      ∃ m, s.nodes m.agentId = some m ∧ (∃ e ∈ t, e.Commits m ∧ e.op.IsResume) ∧ cap ∈ m.capabilitySbom := by
  refine (driven_inv hr fun e' he' hroot' m hm => ?_).held _ n hn hp
  obtain rfl : e' = e := Option.some.inj ((root_first hr he' hroot').symm.trans (root_first hr he heroot))
  exact commits_unique hr he hm hc

end

namespace Reference

/-- `Latest` does not compute with scores. -/
def latest : Act Reference AgentId :=
  ParentSelector.latest.select (R := Nat) ⟨fun _ => 0, id, max, (· + ·), (· * ·), (· / ·), fun a b => a ≤ b, fun _ => 0⟩ fun _ => 0

def toolArtifact : AgentArtifact Reference := ⟨⟨some "root", [.Local "a"]⟩⟩

/-- A root with one tool, and a generation of it. -/
theorem no_capability_creep_tool : ∃ (t : List (Event Reference)) (s : InMemoryInner Reference) (root : AgentNode Reference),
    Runs Driven t s ∧ "tool:a" ∈ root.capabilitySbom ∧
      ("tool:a" ∈ root.capabilitySbom ∨ root.allowedScope.Admits "tool:a" ∨
        ∃ m, s.nodes m.agentId = some m ∧ (∃ e ∈ t, e.Commits m ∧ e.op.IsResume) ∧ "tool:a" ∈ m.capabilitySbom) := by
  obtain ⟨root, hroot⟩ := signNode_ok (rootInputs toolArtifact .default "2026-01-01T00:00:00Z") seed
  obtain ⟨hi, hsbom, -⟩ := signNode_inputs hroot
  have hcap : "tool:a" ∈ root.capabilitySbom := by
    rw [hsbom]
    decide
  have h₁ : Runs Driven _ (.push .default root) := commitRoot_commits .empty rfl hroot rfl
  have hstored := InMemoryInner.push_same .default root
  have h₂ := h₁.next host (.runGeneration veh latest (.new "x") root.allowedScope ⟨none, .null⟩ "2026-01-01T00:01:00Z")
    ⟨rfl, ⟨_, _, _, _, rfl⟩, fun id parent _ hp => ?_⟩ fun h s => (select_picks _).1
  · have hcommits : ((Op.commitRoot veh toolArtifact .default "2026-01-01T00:00:00Z").event host .default).Commits root := by
      refine ⟨rfl, ?_⟩
      rw [Op.event, commitRoot_pushes hroot rfl]
      exact hstored
    have hkept := effect_keeps (effect host (.runGeneration veh latest (.new "x") root.allowedScope ⟨none, .null⟩
      "2026-01-01T00:01:00Z") (fun h s => (select_picks _).1) _) hstored
    refine ⟨_, _, root, h₂, hcap, ?_⟩
    exact no_capability_creep h₂ (List.mem_append_left _ (.head _)) trivial hcommits hkept
      (congrArg CommitInputs.status hi) _ hcap
  · rcases InMemoryInner.stored_push hp with hp | ⟨-, rfl⟩
    · cases hp
    · rfl

end Reference

end RigVeh
