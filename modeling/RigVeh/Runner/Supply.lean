/-
  RigVeh.Runner.Supply — a driver has a parent to start from exactly if there is a head.

  Selectors look for `validParent`, the head follows the status; nothing but the
  operations ties the two together. Each operation signs a node as a possible parent
  exactly if it promotes it (`made_candid`), so in every ledger that interleaved
  operations reach a built-in selector finds a parent if and only if there is a head,
  and the parent is a promoted node that verifies (`driver_supplied`). A driver stops
  for want of a parent only before the first root.
-/

import RigVeh.Runner.Ancestry
import RigVeh.Runner.Driver

namespace RigVeh

open RigVeh.Json RigVeh.Base RigVeh.Base.Prog

variable {X : Crates}

section

variable {R : Type} (A : Arith R) (hash : List Hashed → UInt64) {h : Host X} {s : InMemoryInner X}

/-- With no possible parent in the list, nothing is drawn. -/
theorem choose_none {nodes : List (AgentNode X)} (hall : ∀ n ∈ nodes, n.validParent = false) (b : ParentSelector) :
    b.choose A hash nodes = Prog.attempt (.error noValidParent) := by
  have hvalid : nodes.filter (·.validParent) = [] :=
    List.filter_eq_nil_iff.mpr fun n hn => Bool.not_eq_true _ ▸ hall n hn
  cases b with
  | latest =>
    have hfind : nodes.reverse.find? (·.validParent) = none :=
      List.find?_eq_none.mpr fun n hn => Bool.not_eq_true _ ▸ hall n (List.mem_reverse.mp hn)
    rw [ParentSelector.choose, hfind]
    rfl
  | best =>
    rcases bestOf_cases A nodes with ⟨hb, -⟩ | ⟨n, hn, hv, -⟩
    · rw [ParentSelector.choose, hb]
      rfl
    · rw [hall n hn] at hv
      cases hv
  | random seed =>
    rw [ParentSelector.choose, hvalid]
    rfl
  | scoreProportional seed | scoreChildProportional seed =>
    rw [ParentSelector.choose, hvalid]
    rfl

/-- What a generation does once its parent is read. -/
def Veh.generate (v : Veh X) (parent : AgentNode X) (intent : MutationIntent) (allowedScope : AllowedScope)
    (context : MutationContext) (createdAt : String) : Act X (CycleOutcome X) := do
  let candidate ← Act.propose parent intent context
  Act.enforce candidate allowedScope
  let outcome ← observe (v.runCycle ⟨parent, intent, candidate, allowedScope, createdAt⟩)
  let teardown ← observe Act.teardown
  let result ← Prog.attempt outcome
  Prog.attempt teardown
  return result

theorem runGeneration_eq (v : Veh X) (select : Act X AgentId) (intent : MutationIntent) (scope : AllowedScope)
    (context : MutationContext) (createdAt : String) :
    v.runGeneration select intent scope context createdAt =
      (select >>= fun id => Act.get id >>= fun parent => v.generate parent intent scope context createdAt) := rfl

/-- A live ledger whose nodes are possible parents exactly if promoted supplies one
    exactly if it has a head. -/
theorem select_supplied (hs : Sound s) (b : ParentSelector) :
    (s.head = none ∧ exec h (b.select A hash) s = (.error noValidParent, s)) ∨
      ∃ parent, s.head ≠ none ∧ s.nodes parent.agentId = some parent ∧ parent.status = .promoted ∧
        exec h (b.select A hash) s = (.ok parent.agentId, s) := by
  have hcandid {n : AgentNode X} (hn : n ∈ s.list) : n.validParent = true ↔ n.status = .promoted := by
    obtain ⟨i, k, hi, hsign⟩ := hs.signed _ n ((InMemoryInner.mem_list hs.live.wf).mp hn)
    obtain ⟨hin, -⟩ := signNode_inputs hsign
    rw [← hin] at hi
    exact hi
  have hexec : exec h (b.select A hash) s = exec h (b.choose A hash s.list) s := by
    rw [ParentSelector.select_choose, exec_bind, exec_nodes, Prog.andThen_ok]
  rcases hhead : s.head with _ | id
  · have hall : ∀ n ∈ s.list, n.validParent = false := fun n hn => by
      have hnot := hs.live.headless hhead _ n ((InMemoryInner.mem_list hs.live.wf).mp hn)
      exact Bool.eq_false_iff.mpr fun hv => hnot ((hcandid hn).mp hv)
    rw [hexec, choose_none A hash hall]
    exact .inl ⟨rfl, rfl⟩
  · obtain ⟨n, hn, hp⟩ := hs.live.head id hhead
    have hmem : n ∈ s.list := (InMemoryInner.mem_list hs.live.wf).mpr (hs.live.wf.keyed id n hn ▸ hn)
    have hstill : (exec h (b.select A hash) s).2 = s := (select_picks b).1
    have hexact := choose_exact A hash h.answer s s.list b
    rcases hr : exec h (b.choose A hash s.list) s with ⟨r, s'⟩
    rw [hexec, hr] at hstill
    rw [show Prog.run h.answer (b.choose A hash s.list).run s = (r, s') from hr] at hexact
    obtain rfl : s' = s := hstill
    rcases r with e | picked
    · have hnone := hexact.2.mp ⟨e, rfl⟩ n hmem
      rw [(hcandid hmem).mpr hp] at hnone
      cases hnone
    · obtain ⟨parent, hpm, hv, rfl⟩ := hexact.1 picked rfl
      exact .inr ⟨parent, Option.some_ne_none _, (InMemoryInner.mem_list hs.live.wf).mp hpm, (hcandid hpm).mp hv, hexec.trans hr⟩

end

/-- In every ledger that interleaved operations reach, and for every built-in selector,
    either there is no head and a generation stops at once for want of a parent, or it
    goes on from a stored, promoted node that verifies. -/
theorem driver_supplied (hS : X.Signs) (hH : X.HexReads) {R : Type} (A : Arith R) (hash : List Hashed → UInt64)
    {ok : Op X → Prop} {s : InMemoryInner X} {ps : List (Prog (calls X) (Except Error (Outcome X)))}
    (hp : Pool Shared (Served ok) .default s ps) (h : Host X) (v : Veh X) (b : ParentSelector) (intent : MutationIntent)
    (scope : AllowedScope) (context : MutationContext) (createdAt : String) :
    (s.head = none ∧ exec h (v.runGeneration (b.select A hash) intent scope context createdAt) s =
        (.error noValidParent, s)) ∨
      ∃ parent, s.head ≠ none ∧ s.nodes parent.agentId = some parent ∧ parent.status = .promoted ∧
        verifyNode parent = .ok () ∧ exec h (v.runGeneration (b.select A hash) intent scope context createdAt) s =
          exec h (v.generate parent intent scope context createdAt) s := by
  have hs := served_sound hS hH hp
  rcases select_supplied A hash (h := h) hs b with ⟨hhead, hsel⟩ | ⟨parent, hhead, hstored, hpr, hsel⟩
  · refine .inl ⟨hhead, ?_⟩
    rw [runGeneration_eq, exec_bind, hsel, Prog.andThen_error]
  · refine .inr ⟨parent, hhead, hstored, hpr, hs.live.verified _ _ hstored, ?_⟩
    have hget : s.get parent.agentId = .ok parent := InMemoryInner.get_ok.mpr hstored
    rw [runGeneration_eq, exec_bind, hsel, Prog.andThen_ok, exec_bind, exec_get, hget, Prog.andThen_ok]

namespace Reference

/-- Once the root is committed, a driver that draws by score goes on from a promoted node. -/
theorem driver_supplied_root : ∃ parent : AgentNode Reference,
    InMemoryInner.nodes (.push .default snapshotNode) parent.agentId = some parent ∧ parent.status = .promoted ∧
      exec host (veh.runGeneration ((ParentSelector.scoreProportional none).select rational fun _ => 0) (.new "widen")
          .default ⟨none, .null⟩ "2026-01-02T00:00:00Z") (.push .default snapshotNode) =
        exec host (veh.generate parent (.new "widen") .default ⟨none, .null⟩ "2026-01-02T00:00:00Z")
          (.push .default snapshotNode) := by
  obtain ⟨k, hk⟩ := commitRoot_calls snapshot_signed
  have h₀ : Pool (Shared (X := Reference)) (Served fun _ => True) .default .default [] := .init
  have h₁ := h₀.spawn _ ⟨.commitRoot veh rootArtifact .default "2026-01-01T00:00:00Z", rfl, trivial, trivial, trivial⟩
  rw [hk] at h₁
  have happend : Shared (.ledger (.append snapshotNode)) .default (.ok ()) (.push .default snapshotNode) :=
    (InMemoryInner.append_fresh rfl).symm
  have h₂ := Pool.step _ k _ (show Pool Shared (Served fun _ => True) .default .default ([] ++ _ :: []) from h₁) happend
  rcases driver_supplied signs hexReads rational (fun _ => 0) h₂ host veh (.scoreProportional none) (.new "widen") .default
    ⟨none, .null⟩ "2026-01-02T00:00:00Z" with ⟨hnone, -⟩ | ⟨parent, -, hstored, hp, -, hgen⟩
  · cases hnone
  · exact ⟨parent, hstored, hp, hgen⟩

end Reference

end RigVeh
