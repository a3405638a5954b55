/-
  RigVeh.Runner.Independent — cycles planned in advance, in any order.

  A planned cycle has its inputs and its evaluation fixed; what it `yields` does not
  depend on the ledger, which only refuses a node whose id is bound. So the ledger is a
  first-come store (`executed_nodes`): in any order the same ids are bound, each cycle
  commits its own node or is refused as a duplicate of an earlier one, and the map is
  the same exactly if cycles with one new id yield one node (`cycles_commute`). They may
  not: a NaN is signed as null is, so two intents can share an id (`twins_differ`).
-/

import RigVeh.Base.Inserts
import RigVeh.Runner.Plan

namespace RigVeh

open RigVeh.Json RigVeh.Base

variable {X : Crates}

structure PlannedCycle (X : Crates) where
  veh : Veh X
  host : Host X
  inputs : CycleInputs X

namespace PlannedCycle

def run (c : PlannedCycle X) (s : InMemoryInner X) : Except Error (CycleOutcome X) × InMemoryInner X :=
  exec c.host (c.veh.runCycle c.inputs) s

def plan (c : PlannedCycle X) : Except Error (CycleOutcome X) := c.veh.plan c.host c.inputs

/-- The node the cycle comes to append. -/
def yields (c : PlannedCycle X) : Option (AgentNode X) := c.plan.toOption.bind CycleOutcome.node

variable {c : PlannedCycle X} {s : InMemoryInner X}

theorem run_plan (c : PlannedCycle X) (s : InMemoryInner X) : c.run s = Prog.andThen (c.plan, s) fun o s => s.settle o :=
  runCycle_plan c.veh c.host c.inputs s

theorem yields_some {node : AgentNode X} : c.yields = some node ↔ ∃ o, c.plan = .ok o ∧ o.node = some node := by
  unfold yields
  rcases c.plan with e | o <;> simp [Except.toOption]

theorem run_unyielding (h : c.yields = none) : c.run s = (c.plan, s) := by
  rw [run_plan]
  rcases hp : c.plan with e | o
  · rfl
  · have hn : o.node = none := by simpa [yields, hp, Except.toOption] using h
    rw [Prog.andThen_ok, InMemoryInner.settle, hn]

theorem run_fresh {o : CycleOutcome X} {node : AgentNode X} (hp : c.plan = .ok o) (hn : o.node = some node)
    (hf : s.nodes node.agentId = none) : c.run s = (.ok o, s.push node) := by
  rw [run_plan, hp, Prog.andThen_ok, InMemoryInner.settle, hn]
  simp only [InMemoryInner.append_fresh hf, Prog.andThen_ok]

theorem run_duplicate {node : AgentNode X} (h : c.yields = some node) (hf : s.nodes node.agentId ≠ none) :
    c.run s = (.error (InMemoryInner.duplicate node.agentId), s) := by
  obtain ⟨o, hp, hn⟩ := yields_some.mp h
  rw [run_plan, hp, Prog.andThen_ok, InMemoryInner.settle, hn]
  simp only [InMemoryInner.append_duplicate hf, Prog.andThen_error]

end PlannedCycle

/-! ## Lists of cycles -/

/-- The ledger after the cycles, in this order. -/
def executed (calls : List (PlannedCycle X)) (s : InMemoryInner X) : InMemoryInner X :=
  calls.foldl (fun s c => (c.run s).2) s

/-- The nodes the cycles come to, in this order. -/
def yielded (calls : List (PlannedCycle X)) : List (AgentNode X) := calls.filterMap PlannedCycle.yields

/-- The nodes that the ledger takes of them. -/
def taken (calls : List (PlannedCycle X)) (s : InMemoryInner X) : List (AgentNode X) :=
  admitted AgentNode.agentId s.nodes (yielded calls)

section

variable {calls : List (PlannedCycle X)} {c : PlannedCycle X} {s : InMemoryInner X} {node : AgentNode X}

@[simp] theorem executed_nil : executed [] s = s := rfl
@[simp] theorem executed_cons : executed (c :: calls) s = executed calls (c.run s).2 := rfl

theorem mem_yielded : node ∈ yielded calls ↔ ∃ c ∈ calls, c.yields = some node := List.mem_filterMap

theorem push_put (hf : s.nodes node.agentId = none) : (s.push node).nodes = put AgentNode.agentId s.nodes node :=
  (put_free hf).symm

/-- Executing cycles pushes the nodes taken. -/
theorem executed_taken (calls : List (PlannedCycle X)) (s : InMemoryInner X) :
    executed calls s = (taken calls s).foldl .push s := by
  unfold taken
  induction calls generalizing s with
  | nil => rfl
  | cons c calls ih =>
    rw [executed_cons, ih]
    rcases hy : c.yields with _ | node
    · rw [PlannedCycle.run_unyielding hy, yielded, yielded, List.filterMap_cons_none hy]
    · have hcons : yielded (c :: calls) = node :: yielded calls := List.filterMap_cons_some hy
      rw [hcons, admitted]
      by_cases hf : s.nodes node.agentId = none
      · obtain ⟨o, hp, hn⟩ := PlannedCycle.yields_some.mp hy
        rw [PlannedCycle.run_fresh hp hn hf, push_put hf, if_neg (by simp [hf]), List.foldl_cons]
      · rw [PlannedCycle.run_duplicate hy hf, if_pos (Option.isSome_iff_ne_none.mpr hf)]

/-- Pushing the nodes taken of a list is putting them all. -/
theorem push_admitted (nodes : List (AgentNode X)) (s : InMemoryInner X) :
    ((admitted AgentNode.agentId s.nodes nodes).foldl .push s).nodes = place AgentNode.agentId s.nodes nodes := by
  induction nodes generalizing s with
  | nil => rfl
  | cons node nodes ih =>
    rw [admitted, place_cons]
    by_cases hf : s.nodes node.agentId = none
    · rw [if_neg (by simp [hf]), List.foldl_cons, ← push_put hf, ih]
    · have hbound : (s.nodes node.agentId).isSome := Option.isSome_iff_ne_none.mpr hf
      rw [if_pos hbound, put_bound hbound, ih]

/-- The map is a first-come store of the nodes yielded. -/
theorem executed_nodes (calls : List (PlannedCycle X)) (s : InMemoryInner X) :
    (executed calls s).nodes = place AgentNode.agentId s.nodes (yielded calls) := by
  rw [executed_taken, taken, push_admitted]

/-- The node's id is new to the ledger and to the cycles executed before. -/
def FirstOf (before : List (PlannedCycle X)) (s : InMemoryInner X) (node : AgentNode X) : Prop :=
  s.nodes node.agentId = none ∧ ∀ b ∈ before, ∀ m, b.yields = some m → m.agentId ≠ node.agentId

theorem firstOf_iff {before : List (PlannedCycle X)} :
    FirstOf before s node ↔ (executed before s).nodes node.agentId = none := by
  rw [executed_nodes, place_free, FirstOf]
  refine and_congr_right fun _ => ?_
  constructor
  · intro h m hm
    obtain ⟨b, hb, hy⟩ := mem_yielded.mp hm
    exact h b hb m hy
  · intro h b hb m hy
    exact h m (mem_yielded.mpr ⟨b, hb, hy⟩)

end

/-- What a planned cycle does after others: the outcome of its plan, unless that is to
    commit a node whose id is not new. -/
inductive PlannedCycle.Answers (c : PlannedCycle X) (before : List (PlannedCycle X)) (s : InMemoryInner X) : Prop
  | unyielding : c.yields = none → c.run (executed before s) = (c.plan, executed before s) → Answers c before s
  | first {o : CycleOutcome X} {node : AgentNode X} : c.plan = .ok o → o.node = some node → FirstOf before s node →
      c.run (executed before s) = (.ok o, (executed before s).push node) → Answers c before s
  | duplicate {node : AgentNode X} : c.yields = some node → ¬ FirstOf before s node →
      c.run (executed before s) = (.error (InMemoryInner.duplicate node.agentId), executed before s) → Answers c before s

theorem PlannedCycle.answers (c : PlannedCycle X) (before : List (PlannedCycle X)) (s : InMemoryInner X) :
    c.Answers before s := by
  rcases hy : c.yields with _ | node
  · exact .unyielding hy (run_unyielding hy)
  · by_cases hf : FirstOf before s node
    · obtain ⟨o, hp, hn⟩ := yields_some.mp hy
      exact .first hp hn hf (run_fresh hp hn (firstOf_iff.mp hf))
    · exact .duplicate hy hf (run_duplicate hy (mt firstOf_iff.mpr hf))

/-- In any order the cycles bind the same ids, each to the node of the first that yields
    it; the map is the same exactly if those with one new id yield one node, and the
    order and the head are those of the nodes taken. -/
theorem cycles_commute (calls : List (PlannedCycle X)) (s : InMemoryInner X) :
    (∀ before c after, calls = before ++ c :: after → c.Answers before s) ∧
    (∀ order : List (PlannedCycle X), order.Perm calls →
      ∀ id, (executed order s).nodes id = none ↔ (executed calls s).nodes id = none) ∧
    ((∀ order : List (PlannedCycle X), order.Perm calls → (executed order s).nodes = (executed calls s).nodes) ↔
      ∀ c ∈ calls, ∀ c' ∈ calls, ∀ n n', c.yields = some n → c'.yields = some n' → n.agentId = n'.agentId →
        s.nodes n.agentId = none → n = n') ∧
    (executed calls s).insertionOrder = s.insertionOrder ++ (taken calls s).map (·.agentId) ∧
    (executed calls s).head =
      (((taken calls s).reverse.find? (·.status = .promoted)).map (·.agentId)).or s.head := by
  refine ⟨fun before c _ _ => c.answers before s, ?_, ?_, ?_, ?_⟩
  · intro order hp id
    rw [executed_nodes, executed_nodes]
    exact place_free_perm (hp.filterMap _)
  · simp only [executed_nodes, yielded]
    rw [place_perm_iff]
    constructor
    · intro h c hc c' hc' n n' hn hn'
      exact h n (mem_yielded.mpr ⟨c, hc, hn⟩) n' (mem_yielded.mpr ⟨c', hc', hn'⟩)
    · intro h n hn n' hn'
      obtain ⟨c, hc, hy⟩ := mem_yielded.mp hn
      obtain ⟨c', hc', hy'⟩ := mem_yielded.mp hn'
      exact h c hc c' hc' n n' hy hy'
  · rw [executed_taken, InMemoryInner.foldl_push_order]
  · rw [executed_taken, InMemoryInner.foldl_push_head]

namespace Reference

/-- The cycle of `widening`, and one whose intent expects an improvement by NaN. -/
def quiet : PlannedCycle Reference := ⟨veh, host, widening⟩
def hopeful : PlannedCycle Reference :=
  ⟨veh, host, { widening with intent := { MutationIntent.new "x" with expectedImprovement := some nan } }⟩

theorem quiet_yields : quiet.yields = some child :=
  PlannedCycle.yields_some.mpr ⟨_, plan_promotes ⟨manifestDiff_self _, rfl⟩ rfl (by decide) child_signed, rfl⟩

/-- NaN is written as null. -/
theorem hopeful_intent : hopeful.inputs.intent.toValue = widening.intent.toValue := by
  have hnull : Value.ofF64 nan = .null := dif_neg (by decide)
  simp only [hopeful, MutationIntent.toValue, Value.ofOption, hnull]
  rfl

theorem hopeful_yields : ∃ twin, hopeful.yields = some twin ∧ twin.agentId = child.agentId ∧ twin ≠ child := by
  have hpay : (cycleInputs hopeful.inputs "" ⟨half, .null⟩ .promoted true).signingPayload =
      (cycleInputs widening "" ⟨half, .null⟩ .promoted true).signingPayload := by
    simp only [CommitInputs.signingPayload, CommitInputs.payload, cycleInputs, hopeful_intent]
    rfl
  obtain ⟨twin, htwin, hid⟩ := signNode_alike hpay child_signed
  have hyields : hopeful.yields = some twin :=
    PlannedCycle.yields_some.mpr ⟨_, plan_promotes ⟨manifestDiff_self _, rfl⟩ rfl (by decide) htwin, rfl⟩
  refine ⟨twin, hyields, hid, ?_⟩
  intro heq
  have hintent : twin.mutationIntent = hopeful.inputs.intent :=
    congrArg CommitInputs.mutationIntent (signNode_inputs htwin).1
  rw [heq] at hintent
  cases congrArg MutationIntent.expectedImprovement hintent

/-- The two cycles in the two orders leave different maps. -/
theorem twins_differ : (executed [quiet, hopeful] (.push .default snapshotNode)).nodes ≠
    (executed [hopeful, quiet] (.push .default snapshotNode)).nodes := by
  obtain ⟨twin, htwin, hid, hne⟩ := hopeful_yields
  have hnew : (InMemoryInner.push .default snapshotNode).nodes child.agentId = none := by decide
  have h₁ : (executed [quiet, hopeful] (.push .default snapshotNode)).nodes child.agentId = some child := by
    rw [executed_nodes, place_apply, hnew]
    simp [yielded, quiet_yields]
  have h₂ : (executed [hopeful, quiet] (.push .default snapshotNode)).nodes child.agentId = some twin := by
    rw [executed_nodes, place_apply, hnew]
    simp [yielded, htwin, hid]
  intro hsame
  rw [hsame, h₂] at h₁
  exact hne (Option.some.inj h₁)

end Reference

end RigVeh
