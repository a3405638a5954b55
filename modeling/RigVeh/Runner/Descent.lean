/-
  RigVeh.Runner.Descent — what a driver's nodes descend from.

  The selectors look at `validParent`, their contract speaks of promoted nodes, and
  `commit_rollback` takes its parent from the head. `Lineal` ties the three: a stored
  node may become a parent exactly if it is promoted, and the head, every recorded
  parent and every paused one are stored promoted nodes. Each step of an `Evolved`
  history keeps it, so all ancestors are promoted (`ancestors_promoted`).
-/

import Mathlib.Logic.Relation
import RigVeh.Runner.Driver
import RigVeh.Runner.Scope

namespace RigVeh

open RigVeh.Json RigVeh.Base

variable {X : Crates}

/-- Roots, generations with a built-in selector, resumed pauses and rollbacks. -/
def Evolved : Rule X := fun t _ _ op =>
  match op with
  | .runGeneration _ select _ _ _ _ => BuiltIn select
  | .resumeWithApproval pending _ => Paused t pending
  | .runCycle _ _ => False
  | _ => True

/-- The stored node that `n` names as its parent. -/
def InMemoryInner.ParentOf (s : InMemoryInner X) (n p : AgentNode X) : Prop :=
  n.parentId = some p.agentId ∧ s.nodes p.agentId = some p

/-- The parent, or an ancestor of the parent. -/
def InMemoryInner.Ancestor (s : InMemoryInner X) : AgentNode X → AgentNode X → Prop := Relation.TransGen s.ParentOf

/-- `id` is that of a stored promoted node. -/
def HasPromoted (s : InMemoryInner X) (id : AgentId) : Prop := ∃ n, s.nodes id = some n ∧ n.status = .promoted

theorem HasPromoted.later {s s' : InMemoryInner X} {id : AgentId} (hs : ∀ id n, s.nodes id = some n → s'.nodes id = some n)
    (h : HasPromoted s id) : HasPromoted s' id := by
  obtain ⟨n, hn, hp⟩ := h
  exact ⟨n, hs id n hn, hp⟩

/-- What every stored node is like. -/
structure Fits (s : InMemoryInner X) (n : AgentNode X) : Prop where
  valid : n.validParent = true ↔ n.status = .promoted
  parent : ∀ p, n.parentId = some p → HasPromoted s p

theorem fits_signed {s : InMemoryInner X} {i : CommitInputs X} {k : X.SigningKey} {n : AgentNode X}
    (hn : signNode i k = .ok n) (hv : i.validParent = true ↔ i.status = .promoted)
    (hp : ∀ p, i.parentId = some p → HasPromoted s p) : Fits s n := by
  obtain ⟨rfl, -⟩ := signNode_inputs hn
  exact ⟨hv, hp⟩

structure Lineal (t : List (Event X)) (s : InMemoryInner X) : Prop where
  nodes : ∀ id n, s.nodes id = some n → Fits s n
  head : ∀ id, s.head = some id → HasPromoted s id
  paused : ∀ pending, Paused t pending → ∀ p, pending.parentId = some p → HasPromoted s p

section

variable {t : List (Event X)} {h : Host X} {op : Op X} {s s' : InMemoryInner X} {r : Except Error (Outcome X)}

/-- A step that stores nothing, points at a promoted node and pauses on one. -/
theorem Lineal.still (hi : Lineal t s) (hn : s'.nodes = s.nodes) (hh : ∀ id, s'.head = some id → HasPromoted s id)
    (hp : ∀ pending, r = .ok (.cycle (.awaitingApproval pending)) → ∀ p, pending.parentId = some p → HasPromoted s p) :
    Lineal (t ++ [⟨h, op, s, r, s'⟩]) s' := by
  have hl {id : AgentId} (hid : HasPromoted s id) : HasPromoted s' id := hid.later fun id n h => by rw [hn]; exact h
  refine ⟨fun id n hid => ?_, fun id hid => hl (hh id hid), fun pending hpend p hpar => hl ?_⟩
  · rw [hn] at hid
    exact ⟨(hi.nodes id n hid).valid, fun p hpar => hl ((hi.nodes id n hid).parent p hpar)⟩
  · rcases paused_append.mp hpend with hpend | hpend
    · exact hi.paused pending hpend p hpar
    · exact hp pending hpend p hpar

/-- A step that stores `m` and pauses nothing. -/
theorem Lineal.stores (hi : Lineal t s) {m : AgentNode X} (hf : s.nodes m.agentId = none) (hm : Fits s m)
    (hr : ∀ pending, r ≠ .ok (.cycle (.awaitingApproval pending))) :
    Lineal (t ++ [⟨h, op, s, r, s.push m⟩]) (s.push m) := by
  have hl {id : AgentId} (hid : HasPromoted s id) : HasPromoted (s.push m) id :=
    hid.later fun _ _ h => InMemoryInner.push_stored hf h
  refine ⟨fun id n hid => ?_, fun id hid => ?_, fun pending hpend p hpar => hl ?_⟩
  · have hfits : Fits s n := by
      rcases InMemoryInner.stored_push hid with hid | ⟨-, rfl⟩
      · exact hi.nodes id n hid
      · exact hm
    exact ⟨hfits.valid, fun p hpar => hl (hfits.parent p hpar)⟩
  · rw [InMemoryInner.push_head] at hid
    split at hid
    · rename_i hprom
      cases hid
      exact ⟨m, InMemoryInner.push_same s m, hprom⟩
    · exact hl (hi.head id hid)
  · rcases paused_append.mp hpend with hpend | hpend
    · exact hi.paused pending hpend p hpar
    · exact absurd hpend (hr pending)

/-- A generation's parent is a stored promoted node. -/
theorem evolved_parent (hs : s.Wf) (hi : Lineal t s) (hok : Evolved t s h op) {v : Veh X} {i : CycleInputs X}
    (hc : op.Cycles h s v i) : HasPromoted s i.parent.agentId := by
  cases hc with
  | run => exact hok.elim
  | @generation v select intent allowedScope context createdAt parentId parent candidate hsel hpar =>
    have hv := builtIn_parent hs hok hsel hpar
    have hstored : s.nodes parent.agentId = some parent := by rw [hs.keyed parentId parent hpar, hpar]
    exact ⟨parent, hstored, (hi.nodes _ _ hpar).valid.mp hv⟩

/-- Every step of a driver keeps the invariant. -/
theorem lineal_step (hs : s.Wf) (hi : Lineal t s) (hok : Evolved t s h op) (heff : Effect h s op r s') :
    Lineal (t ++ [⟨h, op, s, r, s'⟩]) s' := by
  cases heff with
  | failed op e => exact hi.still rfl hi.head (by simp)
  | pointed hn _ hp =>
    refine hi.still rfl (fun id hid => ?_) (by simp)
    cases hid
    exact ⟨_, hn, hp⟩
  | root hn hf => exact hi.stores hf (fits_signed hn (by simp [rootInputs]) (by simp [rootInputs])) (by simp)
  | @resumed pending key node hn hf =>
    exact hi.stores hf (fits_signed hn (by simp [approvedInputs]) (hi.paused pending hok)) (by simp)
  | @rolledBack v targetId parentId createdAt target parent node _ _ _ hh hpar hn hf =>
    refine hi.stores hf (fits_signed hn (by simp [rollbackInputs]) fun p hp => ?_) (by simp)
    have hp : some parent.agentId = some p := hp
    cases hp
    -- the head is a promoted node, and `parent` is the node it names
    rw [hs.keyed parentId parent hpar]
    exact hi.head parentId hh
  | @cycle op v i r r' s' hc hcy hres =>
    have hparent : ∀ p, some i.parent.agentId = some p → HasPromoted s p := by
      intro p hp
      cases hp
      exact evolved_parent hs hi hok hc
    cases hcy with
    | failed e => exact hi.still rfl hi.head fun _ hp => by cases paused_cycle hres hp
    | awaiting =>
      refine hi.still rfl hi.head fun pending hp => ?_
      cases paused_cycle hres hp
      exact hparent
    | promoted _ _ _ hn hf =>
      exact hi.stores hf (fits_signed hn (by simp [cycleInputs]) hparent) fun _ hp => by cases paused_cycle hres hp
    | rejected _ _ hn hf =>
      exact hi.stores hf (fits_signed hn (by simp [cycleInputs]) hparent) fun _ hp => by cases paused_cycle hres hp

theorem evolved_lineal (hr : Runs Evolved t s) : Lineal t s := by
  induction hr with
  | empty => refine ⟨fun _ _ h => ?_, fun _ h => ?_, fun _ ⟨_, h, _⟩ => ?_⟩ <;> cases h
  | @next t s h op hr hok hro ih => exact lineal_step (runs_wf hr) ih hok (effect h op hro s)

/-- In every ledger a driver reaches, the nodes that may become parents are the promoted
    ones, and every parent and every ancestor is promoted. -/
theorem ancestors_promoted (hr : Runs Evolved t s) :
    (∀ n ∈ s.list, n.validParent = true ↔ n.status = .promoted) ∧
      (∀ n ∈ s.list, ∀ p, n.parentId = some p → ∃ m ∈ s.list, m.agentId = p ∧ m.status = .promoted) ∧
      ∀ n ∈ s.list, ∀ a, s.Ancestor n a → a ∈ s.list ∧ a.status = .promoted := by
  have hs := runs_wf hr
  have hi := evolved_lineal hr
  have hparent {n p : AgentNode X} (hn : n ∈ s.list) (hp : s.ParentOf n p) : p ∈ s.list ∧ p.status = .promoted := by
    obtain ⟨hid, hstored⟩ := hp
    obtain ⟨m, hm, hprom⟩ := (hi.nodes _ n ((InMemoryInner.mem_list hs).mp hn)).parent _ hid
    obtain rfl : m = p := Option.some.inj (hm.symm.trans hstored)
    exact ⟨(InMemoryInner.mem_list hs).mpr hm, hprom⟩
  refine ⟨fun n hn => (hi.nodes _ n ((InMemoryInner.mem_list hs).mp hn)).valid, fun n hn p hp => ?_, fun n hn a ha => ?_⟩
  · obtain ⟨m, hm, hprom⟩ := (hi.nodes _ n ((InMemoryInner.mem_list hs).mp hn)).parent p hp
    have hkey := hs.keyed p m hm
    exact ⟨m, (InMemoryInner.mem_list hs).mpr (hkey ▸ hm), hkey, hprom⟩
  · induction ha with
    | single hp => exact hparent hn hp
    | tail _ hp ih => exact hparent ih.1 hp

end

namespace Reference

/-- A generation of the pinned root. -/
def nextGeneration : Op Reference :=
  .runGeneration veh latest widening.intent widening.allowedScope ⟨none, .null⟩ widening.createdAt

/-- `Latest` picks the root, and the cycle promotes its child. -/
theorem nextGeneration_promotes :
    (exec host nextGeneration.act (.push .default snapshotNode)).2 = .push (.push .default snapshotNode) child := by
  have hsel : exec host latest (.push .default snapshotNode) = (.ok snapshotNode.agentId, .push .default snapshotNode) :=
    rfl
  have hrun : exec host (veh.runGeneration latest widening.intent widening.allowedScope ⟨none, .null⟩ widening.createdAt)
      (.push .default snapshotNode) = (.ok (.promoted child ⟨half, .null⟩), .push (.push .default snapshotNode) child) :=
    runGeneration_cycles hsel (InMemoryInner.push_same .default snapshotNode) rfl rfl rfl child_promoted
  rw [nextGeneration, Op.act, exec_bind]
  exact congrArg (fun out => (Prog.andThen out _).2) hrun

theorem ancestors_promoted_child : ∃ (t : List (Event Reference)) (s : InMemoryInner Reference),
    Runs Evolved t s ∧ child ∈ s.list ∧ s.Ancestor child snapshotNode ∧
      snapshotNode ∈ s.list ∧ snapshotNode.status = .promoted := by
  have h₁ : Runs Evolved _ (.push .default snapshotNode) := snapshot_run trivial
  have h₂ := h₁.then host nextGeneration ⟨_, _, _, _, rfl⟩ (fun h s => (select_picks _).1) nextGeneration_promotes
  have hchild := InMemoryInner.push_same (.push .default snapshotNode) child
  have hroot : (InMemoryInner.push (.push .default snapshotNode) child).nodes snapshotNode.agentId = some snapshotNode :=
    InMemoryInner.push_stored rfl (InMemoryInner.push_same .default snapshotNode)
  have hlisted := (InMemoryInner.mem_list (runs_wf h₂)).mpr hchild
  have hanc : InMemoryInner.Ancestor _ child snapshotNode := .single ⟨rfl, hroot⟩
  exact ⟨_, _, h₂, hlisted, hanc, (ancestors_promoted h₂).2.2 _ hlisted _ hanc⟩

end Reference

end RigVeh
