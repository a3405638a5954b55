/-
  RigVeh.Runner.Line — the lineage that `Latest` draws.

  `Latest` picks the last node that may be a parent, and the head is the last promoted
  one. Over a history of one root, generations that select with `Latest` and signed
  rollbacks the two are the same node: every node, promoted or refused, is a child of the
  promoted node stored last before it, its generation is the number of those, and the
  head is the last of them (`latest_line`). The lineage is a line with stubs.
-/

import Mathlib.Data.List.Find
import RigVeh.Base.Line
import RigVeh.Runner.Descent

namespace RigVeh

open RigVeh.Json RigVeh.Base

variable {X : Crates}

/-- One root, generations on what `Latest` picks, and signed rollbacks. -/
def LedByLatest : Rule X := fun _ s _ op =>
  match op with
  | .commitRoot _ _ _ _ => s.list = []
  | .runGeneration _ select _ _ _ _ =>
    ∃ (R : Type) (A : Arith R) (hash : List Hashed → UInt64), select = ParentSelector.latest.select A hash
  | .commitRollback _ _ _ => True
  | _ => False

def AgentNode.isPromoted (n : AgentNode X) : Bool := n.status = .promoted

/-- The child of the last promoted node, if there is one, as deep as there are such. -/
def Follows (last : Option (AgentNode X)) (count : Nat) (n : AgentNode X) : Prop :=
  n.parentId = last.map (·.agentId) ∧ n.generation = UInt32.ofNat count

/-- A deed makes a possible parent exactly of what it promotes. -/
theorem Deed.candid {h : Host X} {s : InMemoryInner X} {op : Op X} {n : AgentNode X} (hd : Deed h s op n) :
    n.validParent = n.isPromoted := by
  have hof {i : CommitInputs X} {k : X.SigningKey} (hn : signNode i k = .ok n)
      (hi : i.validParent = decide (i.status = .promoted)) : n.validParent = n.isPromoted := by
    obtain ⟨rfl, -⟩ := signNode_inputs hn
    exact hi
  cases hd with
  | root hn | promoted _ _ _ _ hn | rejected _ _ hn | resumed hn | rolledBack _ _ _ _ _ hn => exact hof hn rfl

theorem runs_candid {ok : Rule X} {t : List (Event X)} {s : InMemoryInner X} (hr : Runs ok t s) {n : AgentNode X}
    (hn : n ∈ s.list) : n.validParent = n.isPromoted := by
  obtain ⟨_, _, _, hd⟩ := committed hr ((InMemoryInner.mem_list (runs_wf hr)).mp hn)
  exact hd.candid

structure Straight (s : InMemoryInner X) : Prop where
  head : s.head = (lastMarked AgentNode.isPromoted s.list).map (·.agentId)
  linked : Linked AgentNode.isPromoted Follows s.list

section

variable {s : InMemoryInner X} {n : AgentNode X}

/-- A node that follows the last promoted one is linked, and the new head if promoted. -/
theorem straight_push (hs : s.Wf) (h : Straight s) (hf : s.nodes n.agentId = none)
    (hn : Follows (lastMarked AgentNode.isPromoted s.list) (s.list.countP AgentNode.isPromoted) n) : Straight (s.push n) where
  head := by
    rw [InMemoryInner.push_head, InMemoryInner.list_push hs hf, lastMarked_snoc, h.head]
    by_cases hp : n.status = .promoted
    · rw [if_pos hp, if_pos (show n.isPromoted = true from decide_eq_true hp)]
      rfl
    · rw [if_neg hp, if_neg (show ¬ n.isPromoted = true from mt of_decide_eq_true hp)]
  linked := by
    rw [InMemoryInner.list_push hs hf]
    exact linked_snoc h.linked hn

/-- A child of the last promoted node follows it. -/
theorem follows_child (h : Straight s) {p : AgentNode X} (hlast : lastMarked AgentNode.isPromoted s.list = some p)
    (hid : n.parentId = some p.agentId) (hgen : n.generation = p.generation + 1) :
    Follows (lastMarked AgentNode.isPromoted s.list) (s.list.countP AgentNode.isPromoted) n := by
  obtain ⟨pre, post, hsplit, -, hcount⟩ := lastMarked_split AgentNode.isPromoted hlast
  have hp := (h.linked pre p post hsplit).2
  refine ⟨by rw [hlast, hid]; rfl, ?_⟩
  rw [hgen, hp, hcount, UInt32.ofNat_add]
  rfl

/-- What `Latest` picks is the last promoted node. -/
theorem latest_picks {R : Type} {A : Arith R} {hash : List Hashed → UInt64} {h : Host X}
    (hc : ∀ n ∈ s.list, n.validParent = n.isPromoted) {id : AgentId}
    (hsel : (exec h (ParentSelector.latest.select A hash) s).1 = .ok id) :
    (lastMarked AgentNode.isPromoted s.list).map (·.agentId) = some id := by
  have hfind : s.list.reverse.find? (·.validParent) = lastMarked AgentNode.isPromoted s.list :=
    List.find?_congr fun n hn => hc n (List.mem_reverse.mp hn)
  rw [ParentSelector.select_choose, exec_bind, exec_nodes, Prog.andThen_ok, ParentSelector.choose, exec_attempt, hfind] at hsel
  cases hlast : (lastMarked AgentNode.isPromoted s.list).map (·.agentId) with
  | none =>
    rw [hlast] at hsel
    cases hsel
  | some id' =>
    rw [hlast] at hsel
    cases hsel
    rfl

/-- The node of an id that the last promoted one has. -/
theorem last_stored (hs : s.Wf) {id : AgentId} (hlast : (lastMarked AgentNode.isPromoted s.list).map (·.agentId) = some id)
    (hn : s.nodes id = some n) : lastMarked AgentNode.isPromoted s.list = some n := by
  obtain ⟨p, hp, rfl⟩ := Option.map_eq_some_iff.mp hlast
  obtain ⟨pre, post, hsplit, -⟩ := lastMarked_split AgentNode.isPromoted hp
  have hmem : p ∈ s.list := by
    rw [hsplit]
    exact List.mem_append_right _ (List.mem_cons_self ..)
  rw [hp, ← hn, (InMemoryInner.mem_list hs).mp hmem]

end

theorem straight_runs {t : List (Event X)} {s : InMemoryInner X} (hr : Runs LedByLatest t s) : Straight s := by
  induction hr with
  | empty => exact ⟨rfl, linked_nil⟩
  | @next t s h op hr hok hro ih =>
    have hs := runs_wf hr
    have heff := effect h op hro s
    have hchild {p n : AgentNode X} {k : X.SigningKey} {i : CommitInputs X}
        (hlast : lastMarked AgentNode.isPromoted s.list = some p) (hn : signNode i k = .ok n) (hf : s.nodes n.agentId = none)
        (hid : i.parentId = some p.agentId) (hgen : i.generation = p.generation + 1) : Straight (s.push n) := by
      obtain ⟨rfl, -⟩ := signNode_inputs hn
      exact straight_push hs ih hf (follows_child ih hlast hid hgen)
    rw [Op.event]
    generalize (exec h op.act s).1 = r, (exec h op.act s).2 = s' at heff
    cases heff with
    | failed => exact ih
    | pointed | resumed => exact hok.elim
    | root hn hf =>
      have hempty : s.list = [] := hok
      refine straight_push hs ih hf ?_
      rw [hempty]
      obtain ⟨hi, -⟩ := signNode_inputs hn
      exact ⟨congrArg CommitInputs.parentId hi, congrArg CommitInputs.generation hi⟩
    | rolledBack _ _ _ hh hpar hn hf =>
      exact hchild (last_stored hs (ih.head.symm.trans hh) hpar) hn hf rfl rfl
    | cycle hc hcy _ =>
      cases hc with
      | run => exact hok.elim
      | generation hsel hpar =>
        obtain ⟨R, A, hash, rfl⟩ := hok
        have hlast := last_stored hs (latest_picks (fun n hn => runs_candid hr hn) hsel) hpar
        cases hcy with
        | failed | awaiting => exact ih
        | promoted _ _ _ hn hf => exact hchild hlast hn hf rfl rfl
        | rejected _ _ hn hf => exact hchild hlast hn hf rfl rfl

/-- In every history led by `Latest`, each node is the child of the promoted node stored
    last before it, of the generation that is the number of those, and the head is the
    last promoted node. -/
theorem latest_line {t : List (Event X)} {s : InMemoryInner X} (hr : Runs LedByLatest t s) :
    s.head = (lastMarked AgentNode.isPromoted s.list).map (·.agentId) ∧
      ∀ pre n post, s.list = pre ++ n :: post → n.parentId = (lastMarked AgentNode.isPromoted pre).map (·.agentId) ∧
        n.generation = UInt32.ofNat (pre.countP AgentNode.isPromoted) := by
  have h := straight_runs hr
  exact ⟨h.head, h.linked⟩

namespace Reference

/-- The child of the root that `Latest` picks. -/
theorem latest_line_child : child.parentId = (lastMarked AgentNode.isPromoted [snapshotNode]).map (·.agentId) ∧
    child.generation = UInt32.ofNat ([snapshotNode].countP AgentNode.isPromoted) := by
  have h₁ : Runs LedByLatest _ (.push .default snapshotNode) := snapshot_run rfl
  have h₂ := h₁.then host nextGeneration ⟨_, _, _, rfl⟩ (fun h s => (select_picks _).1) nextGeneration_promotes
  exact (latest_line h₂).2 [snapshotNode] child [] rfl

end Reference

end RigVeh
