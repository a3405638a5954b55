/-
  RigVeh.Ledger.Memory — the in-memory lineage ledger (`InMemoryLineage`,
  `src/ledger.rs`).

  Three fields move together: the map, the order of insertion and the head. `Wf` is
  what the store keeps of the first two (each id listed once, exactly the ids of the
  map, each bound to a node with that id); under it `list` is an append-only log
  (`list_push`) and `get` reads that log (`mem_list`).
-/

import Mathlib.Logic.Function.Basic
import RigVeh.Identity.Sign

namespace RigVeh

open RigVeh.Base

variable {X : Crates}

structure InMemoryInner (X : Crates) where
  nodes : AgentId → Option (AgentNode X)
  insertionOrder : List AgentId
  head : Option AgentId

namespace InMemoryInner

/-- `InMemoryInner::default`. -/
def default : InMemoryInner X := ⟨fun _ => none, [], none⟩

/-- What `append` and replay both do with a node: list its id, store it and make it
    the head if it is promoted. -/
def push (s : InMemoryInner X) (node : AgentNode X) : InMemoryInner X where
  nodes := Function.update s.nodes node.agentId (some node)
  insertionOrder := s.insertionOrder ++ [node.agentId]
  head := if node.status = .promoted then some node.agentId else s.head

def duplicate (id : AgentId) : Error := .ledger ("duplicate agent_id " ++ id)

def append (node : AgentNode X) (s : InMemoryInner X) : Except Error Unit × InMemoryInner X :=
  if (s.nodes node.agentId).isSome then (.error (duplicate node.agentId), s) else (.ok (), s.push node)

def get (id : AgentId) (s : InMemoryInner X) : Except Error (AgentNode X) :=
  match s.nodes id with
  | some node => .ok node
  | none => .error (.notFound id)

def setHead (id : AgentId) (s : InMemoryInner X) : Except Error Unit × InMemoryInner X :=
  if (s.nodes id).isSome then (.ok (), { s with head := some id }) else (.error (.notFound id), s)

/-- `nodes()`. -/
def list (s : InMemoryInner X) : List (AgentNode X) := s.insertionOrder.filterMap s.nodes

@[simp] theorem push_head (s : InMemoryInner X) (node : AgentNode X) :
    (s.push node).head = if node.status = .promoted then some node.agentId else s.head := rfl
@[simp] theorem push_same (s : InMemoryInner X) (node : AgentNode X) : (s.push node).nodes node.agentId = some node := by
  simp [push]
theorem push_ne (s : InMemoryInner X) (node : AgentNode X) {id : AgentId} (h : id ≠ node.agentId) :
    (s.push node).nodes id = s.nodes id := by simp [push, h]

theorem append_fresh {s : InMemoryInner X} {node : AgentNode X} (h : s.nodes node.agentId = none) :
    s.append node = (.ok (), s.push node) := by simp [append, h]

theorem append_duplicate {s : InMemoryInner X} {node : AgentNode X} (h : s.nodes node.agentId ≠ none) :
    s.append node = (.error (duplicate node.agentId), s) := by
  obtain ⟨n, hn⟩ := Option.ne_none_iff_exists'.mp h
  simp [append, hn]

theorem get_ok {s : InMemoryInner X} {id : AgentId} {node : AgentNode X} :
    s.get id = .ok node ↔ s.nodes id = some node := by
  unfold get
  cases s.nodes id <;> simp

/-- A fresh node leaves what is stored as it was. -/
theorem push_stored {s : InMemoryInner X} {node n : AgentNode X} {id : AgentId} (hf : s.nodes node.agentId = none)
    (h : s.nodes id = some n) : (s.push node).nodes id = some n := by
  have hne : id ≠ node.agentId := by rintro rfl; simp [hf] at h
  rw [push_ne s node hne, h]

/-- A stored node was stored before or is the one just pushed. -/
theorem stored_push {s : InMemoryInner X} {node n : AgentNode X} {id : AgentId} (h : (s.push node).nodes id = some n) :
    s.nodes id = some n ∨ (id = node.agentId ∧ n = node) := by
  by_cases hid : id = node.agentId
  · subst hid
    rw [push_same] at h
    exact .inr ⟨rfl, (Option.some.inj h).symm⟩
  · rw [push_ne s node hid] at h
    exact .inl h

/-! ## Many pushes -/

theorem foldl_push_order (s : InMemoryInner X) (nodes : List (AgentNode X)) :
    (nodes.foldl push s).insertionOrder = s.insertionOrder ++ nodes.map (·.agentId) := by
  induction nodes generalizing s with
  | nil => simp
  | cons node nodes ih =>
    rw [List.foldl_cons, ih, List.map_cons, push]
    exact List.append_assoc ..

/-- The last promoted node becomes the head. -/
theorem foldl_push_head (s : InMemoryInner X) (nodes : List (AgentNode X)) :
    (nodes.foldl push s).head = ((nodes.reverse.find? (·.status = .promoted)).map (·.agentId)).or s.head := by
  induction nodes using List.reverseRecOn with
  | nil => rfl
  | append_singleton nodes node ih =>
    rw [List.foldl_append, List.foldl_cons, List.foldl_nil, push_head, List.reverse_append, List.reverse_singleton,
      List.singleton_append, List.find?_cons]
    by_cases hp : node.status = .promoted
    · simp [hp]
    · simp [hp, ih]

/-! ## The store as a log -/

structure Wf (s : InMemoryInner X) : Prop where
  nodup : s.insertionOrder.Nodup
  stored : ∀ id, id ∈ s.insertionOrder ↔ (s.nodes id).isSome
  keyed : ∀ id n, s.nodes id = some n → n.agentId = id

theorem default_wf : (default : InMemoryInner X).Wf := ⟨.nil, by simp [default], by simp [default]⟩

theorem push_wf {s : InMemoryInner X} (h : s.Wf) {node : AgentNode X} (hf : s.nodes node.agentId = none) :
    (s.push node).Wf where
  nodup := by
    have : node.agentId ∉ s.insertionOrder := by simp [h.stored, hf]
    simpa [push, List.nodup_append] using ⟨h.nodup, fun a ha => ne_of_mem_of_not_mem ha this⟩
  stored id := by
    by_cases hid : id = node.agentId
    · simp [hid, push]
    · rw [push_ne s node hid, ← h.stored id]
      simp [push, hid]
  keyed id n hn := by
    rcases stored_push hn with hn | ⟨rfl, rfl⟩
    · exact h.keyed id n hn
    · rfl

theorem head_wf {s : InMemoryInner X} (h : s.Wf) (id : Option AgentId) : Wf { s with head := id } :=
  ⟨h.nodup, h.stored, h.keyed⟩

theorem list_push {s : InMemoryInner X} (h : s.Wf) {node : AgentNode X} (hf : s.nodes node.agentId = none) :
    (s.push node).list = s.list ++ [node] := by
  have hold : s.insertionOrder.filterMap (s.push node).nodes = s.insertionOrder.filterMap s.nodes := by
    refine List.filterMap_congr fun id hid => push_ne s node ?_
    rintro rfl
    simp [h.stored, hf] at hid
  rw [list, show (s.push node).insertionOrder = s.insertionOrder ++ [node.agentId] from rfl, List.filterMap_append, hold]
  simp [list]

theorem mem_list {s : InMemoryInner X} (h : s.Wf) {n : AgentNode X} : n ∈ s.list ↔ s.nodes n.agentId = some n := by
  rw [list, List.mem_filterMap]
  constructor
  · rintro ⟨id, -, hn⟩
    rwa [h.keyed id n hn]
  · intro hn
    exact ⟨n.agentId, (h.stored _).mpr (by simp [hn]), hn⟩

end InMemoryInner

/-! ## Calls on a ledger -/

/-- The calls of `LineageStore` that the runner and the selectors make. -/
inductive LedgerCall (X : Crates) where
  | append (node : AgentNode X)
  | get (id : AgentId)
  | head
  | setHead (id : AgentId)
  | nodes

namespace LedgerCall

@[reducible] def Ans : LedgerCall X → Type
  | append _ => Except Error Unit
  | get _ => Except Error (AgentNode X)
  | head => Except Error (Option AgentId)
  | setHead _ => Except Error Unit
  | nodes => Except Error (List (AgentNode X))

/-- `InMemoryLineage as LineageStore`. -/
def answer : (c : LedgerCall X) → InMemoryInner X → c.Ans × InMemoryInner X
  | append node, s => s.append node
  | get id, s => (s.get id, s)
  | head, s => (.ok s.head, s)
  | setHead id, s => s.setHead id
  | nodes, s => (.ok s.list, s)

/-- Everything a call can do to the ledger. -/
inductive Moves (s : InMemoryInner X) : InMemoryInner X → Prop
  | stays : Moves s s
  | pushes {node : AgentNode X} : s.nodes node.agentId = none → Moves s (s.push node)
  | points {id : AgentId} : (s.nodes id).isSome → Moves s { s with head := some id }

theorem answer_moves (c : LedgerCall X) (s : InMemoryInner X) : Moves s (c.answer s).2 := by
  cases c with
  | append node =>
    by_cases h : s.nodes node.agentId = none
    · simpa [answer, InMemoryInner.append_fresh h] using .pushes h
    · simpa [answer, InMemoryInner.append_duplicate h] using .stays
  | setHead id =>
    by_cases h : (s.nodes id).isSome
    · simpa [answer, InMemoryInner.setHead, h] using .points h
    · simpa [answer, InMemoryInner.setHead, h] using .stays
  | get id => exact .stays
  | head => exact .stays
  | nodes => exact .stays

theorem Moves.wf {s s' : InMemoryInner X} (h : Moves s s') (hs : s.Wf) : s'.Wf := by
  cases h with
  | stays => exact hs
  | pushes hf => exact InMemoryInner.push_wf hs hf
  | points => exact InMemoryInner.head_wf hs _

end LedgerCall

end RigVeh
