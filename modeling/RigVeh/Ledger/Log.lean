/-
  RigVeh.Ledger.Log — the in-memory ledger is an append-only log.

  The store keeps a map, an order and a head that two calls update separately, and
  joins them when it is read. `Refines` ties it to a `Log` of nodes keyed by their ids:
  each write of one is a write of the other (`write_refines`). `Observed` is what the
  log's contents make of every reading call, and `log_refined` that along any history
  the store's contents are the nodes it accepted.
-/

import RigVeh.Base.Log
import RigVeh.Identity.Wire
import RigVeh.Ledger.Memory

namespace RigVeh

open RigVeh.Json RigVeh.Base

variable {X : Crates}

def AgentNode.promoted (n : AgentNode X) : Bool := n.status = .promoted

namespace InMemoryInner

/-- `append` and `set_head`. -/
abbrev WriteCall (X : Crates) := Log.Call (AgentNode X) AgentId

def write : WriteCall X → InMemoryInner X → Except Error Unit × InMemoryInner X
  | .append node => append node
  | .point id => setHead id

/-- `export_dag_json`; `json!` panics on a node without a serde form. -/
def exportDagJson (s : InMemoryInner X) : Option Value := do
  let nodes ← s.list.mapM fun n => n.toValue.toOption
  return .object [("head", .ofOption .string s.head), ("nodes", .array nodes)] (show ["head", "nodes"].Nodup by decide)

theorem mapM_some {α β : Type} {f : α → Option β} {l : List α} {l' : List β} :
    l.mapM f = some l' ↔ List.Forall₂ (fun a b => f a = some b) l l' := by
  induction l generalizing l' with
  | nil => cases l' <;> simp
  | cons a l ih =>
    rw [List.mapM_cons]
    cases l' with
    | nil => cases f a <;> cases l.mapM f <;> simp
    | cons b l' =>
      rw [List.forall₂_cons, ← ih]
      cases f a <;> cases l.mapM f <;> simp

theorem exists_forall₂ {α β : Type} {R : α → β → Prop} {l : List α} :
    (∃ l', List.Forall₂ R l l') ↔ ∀ a ∈ l, ∃ b, R a b := by
  induction l with
  | nil => simp
  | cons a l ih =>
    rw [List.forall_mem_cons, ← ih]
    constructor
    · intro ⟨l', h⟩
      cases h with
      | cons hab hl => exact ⟨⟨_, hab⟩, _, hl⟩
    · intro ⟨⟨b, hab⟩, l', hl⟩
      exact ⟨b :: l', .cons hab hl⟩

/-- The export is made of the nodes' serde forms, one for each node listed. -/
theorem exportDagJson_some {s : InMemoryInner X} {v : Value} : s.exportDagJson = some v ↔
    ∃ vs, List.Forall₂ (fun n w => n.toValue = .ok w) s.list vs ∧
      v = .object [("head", .ofOption .string s.head), ("nodes", .array vs)] (show ["head", "nodes"].Nodup by decide) := by
  have hok (r : Except Error Value) (w : Value) : r.toOption = some w ↔ r = .ok w := by cases r <;> simp [Except.toOption]
  simp only [exportDagJson, ← hok, ← mapM_some]
  cases s.list.mapM (fun n => n.toValue.toOption) with
  | none => simp
  | some vs => simp [eq_comm]

/-! ## Refinement -/

abbrev NodeLog (X : Crates) := Log (AgentNode.agentId (X := X))

structure Refines (s : InMemoryInner X) (l : NodeLog X) : Prop where
  wf : s.Wf
  records : s.list = l.records
  head : s.head = l.head

theorem Refines.stored {s : InMemoryInner X} {l : NodeLog X} (h : Refines s l) (id : AgentId) :
    id ∈ l.records.map AgentNode.agentId ↔ ∃ n, s.nodes id = some n := by
  rw [← h.records, List.mem_map]
  constructor
  · intro ⟨n, hn, hid⟩
    exact ⟨n, hid ▸ (mem_list h.wf).mp hn⟩
  · intro ⟨n, hn⟩
    have hid := h.wf.keyed id n hn
    exact ⟨n, (mem_list h.wf).mpr (hid ▸ hn), hid⟩

theorem Refines.absent {s : InMemoryInner X} {l : NodeLog X} (h : Refines s l) {id : AgentId} :
    id ∉ l.records.map AgentNode.agentId ↔ s.nodes id = none := by
  rw [h.stored id, ← Option.isSome_iff_exists, Option.not_isSome_iff_eq_none]

/-- The store and the log accept the same writes and stay alike. -/
theorem write_refines {s : InMemoryInner X} {l : NodeLog X} (h : Refines s l) (c : WriteCall X) :
    (write c s).1.isOk = (Log.answer AgentNode.promoted c l).1 ∧
      Refines (write c s).2 (Log.answer AgentNode.promoted c l).2 := by
  cases c with
  | append node =>
    by_cases hk : node.agentId ∈ l.records.map AgentNode.agentId
    · obtain ⟨n, hn⟩ := (h.stored _).mp hk
      have hs : s.append node = (.error (duplicate node.agentId), s) := append_duplicate (by simp [hn])
      simp only [write, Log.answer, hs, Log.append_refused hk]
      exact ⟨rfl, h⟩
    · have hf := h.absent.mp hk
      obtain ⟨hok, hrecords, hhead⟩ : (l.append AgentNode.promoted node).1 = true ∧ _ ∧ _ := Log.append_accepted hk
      simp only [write, Log.answer, append_fresh hf, hok]
      refine ⟨rfl, push_wf h.wf hf, ?_, ?_⟩
      · rw [list_push h.wf hf, hrecords, h.records]
      · rw [push_head, hhead, h.head, AgentNode.promoted]
        simp
  | point id =>
    by_cases hk : id ∈ l.records.map AgentNode.agentId
    · obtain ⟨n, hn⟩ := (h.stored _).mp hk
      obtain ⟨hok, hrecords, hhead⟩ := Log.point_accepted hk
      have hs : s.setHead id = (.ok (), { s with head := some id }) := by simp [setHead, hn]
      simp only [write, Log.answer, hs, hok]
      exact ⟨rfl, head_wf h.wf _, h.records.trans hrecords.symm, hhead.symm⟩
    · have hs : s.setHead id = (.error (.notFound id), s) := by simp [setHead, h.absent.mp hk]
      simp only [write, Log.answer, hs, Log.point_refused hk]
      exact ⟨rfl, h⟩

theorem default_refines : Refines (.default : InMemoryInner X) .empty := ⟨default_wf, rfl, rfl⟩

/-- The calls of a history with whether the store returned Ok. -/
def outcomes (calls : List (WriteCall X)) : Log.Trace (AgentNode X) AgentId :=
  calls.zip ((drive write .default calls).1.map (·.isOk))

theorem history_refines (calls : List (WriteCall X)) :
    outcomes calls = Log.trace AgentNode.agentId AgentNode.promoted calls ∧
      Refines (drive write .default calls).2 (drive (Log.answer AgentNode.promoted) .empty calls).2 := by
  have h := drive_sim (f := fun c s => ((write c s).1.isOk, (write c s).2)) (P := fun _ => True) default_refines
    (fun c _ _ _ hr => write_refines (X := X) hr c) calls fun _ _ => trivial
  rw [drive_map (f := write) (fun r => r.isOk) calls] at h
  exact ⟨congrArg calls.zip h.1, h.2⟩

/-! ## Observations -/

/-- What every call answers when the store holds these nodes and points at this one. -/
structure Observed (s : InMemoryInner X) (held : List (AgentNode X)) (pointer : Option AgentId) : Prop where
  nodes : s.list = held
  distinct : (held.map AgentNode.agentId).Nodup
  append : ∀ n, (s.append n).1.isOk = false ↔ n.agentId ∈ held.map AgentNode.agentId
  setHead : ∀ id, (s.setHead id).1.isOk = false ↔ id ∉ held.map AgentNode.agentId
  get : ∀ id n, s.get id = .ok n ↔ n ∈ held ∧ n.agentId = id
  missing : ∀ id, (s.get id).isOk = false ↔ id ∉ held.map AgentNode.agentId
  head : s.head = pointer
  exported : ∀ v, s.exportDagJson = some v ↔ ∃ vs, List.Forall₂ (fun n w => n.toValue = .ok w) held vs ∧
    v = .object [("head", .ofOption .string pointer), ("nodes", .array vs)] (show ["head", "nodes"].Nodup by decide)

theorem Refines.observed {s : InMemoryInner X} {l : NodeLog X} (h : Refines s l) : Observed s l.records l.head where
  nodes := h.records
  distinct := l.distinct
  append n := by
    rw [h.stored]
    cases hn : s.nodes n.agentId <;> simp [InMemoryInner.append, hn, Except.isOk, Except.toBool]
  setHead id := by
    rw [h.absent]
    cases hn : s.nodes id <;> simp [InMemoryInner.setHead, hn, Except.isOk, Except.toBool]
  get id n := by
    rw [get_ok, ← h.records]
    constructor
    · intro hn
      have hid := h.wf.keyed id n hn
      exact ⟨(mem_list h.wf).mpr (hid ▸ hn), hid⟩
    · rintro ⟨hn, hid⟩
      exact hid ▸ (mem_list h.wf).mp hn
  missing id := by
    rw [h.absent]
    cases hn : s.nodes id <;> simp [InMemoryInner.get, hn, Except.isOk, Except.toBool]
  head := h.head
  exported v := by rw [exportDagJson_some, h.records, h.head]

/-- A call that fails leaves the store as it was. -/
theorem write_failed {c : WriteCall X} {s : InMemoryInner X} (h : (write c s).1.isOk = false) : (write c s).2 = s := by
  cases c with
  | append node =>
    by_cases hf : s.nodes node.agentId = none
    · exact absurd h (by simp [write, append_fresh hf, Except.isOk, Except.toBool])
    · rw [write, append_duplicate hf]
  | point id =>
    by_cases hs : (s.nodes id).isSome
    · exact absurd h (by simp [write, setHead, hs, Except.isOk, Except.toBool])
    · simp [write, setHead, hs]

/-- Along every history the store holds the nodes whose append returned Ok, in order, and
    points at the last promoted one or the last id it was set to, whichever came later;
    what failed left no trace, and what was listed before is listed first. -/
theorem log_refined (calls : List (WriteCall X)) :
    Observed (drive write .default calls).2 (Log.accepted (outcomes calls))
        (Log.latest AgentNode.agentId AgentNode.promoted (outcomes calls)) ∧
      (∀ c, (write c (drive write .default calls).2).1.isOk = false →
        (write c (drive write .default calls).2).2 = (drive write .default calls).2) ∧
      ∀ newer older, calls = newer ++ older →
        (drive write .default older).2.list <+: (drive write .default calls).2.list := by
  obtain ⟨htrace, hr⟩ := history_refines calls
  refine ⟨?_, fun c hc => write_failed hc, ?_⟩
  · have h := hr.observed
    rwa [Log.records_accepted, Log.head_latest, ← htrace] at h
  · intro newer older hcalls
    subst hcalls
    rw [hr.records, (history_refines older).2.records]
    exact Log.drive_extends newer older

end InMemoryInner

end RigVeh
