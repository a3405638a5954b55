/-
  RigVeh.Ledger.Replay — what opening any file at all restores.

  Every append checks that its id is new, and replay checks nothing: it pushes what each
  line decodes to. `decoded` are those nodes, and a file opens exactly if it decodes
  (`open_decoded`). The store is `Intact` (each id listed once, and the map, the list and
  the head agree) exactly if no two of them share an id (`open_intact_iff`). Two handles
  on one path can write such a file, each refusing only its own duplicates
  (`twice_appended`).
-/

import RigVeh.Ledger.Jsonl

namespace RigVeh

open RigVeh.Base

variable {X : Crates}

/-! ## The nodes in a file -/

/-- The node a line of the file decodes to; a blank line is skipped. -/
def decodedLine (codec : NodeCodec X) (line : Bytes) : Except Error (Option (AgentNode X)) :=
  match fromUtf8 line with
  | none => .error (.io "stream did not contain valid UTF-8")
  | some text =>
    if text.all isWhitespace then .ok none
    else
      match codec.fromStr (.ofList text) with
      | .error e => .error (.json e)
      | .ok node => .ok (some node)

def decodedLines (codec : NodeCodec X) : List Bytes → Except Error (List (AgentNode X))
  | [] => .ok []
  | line :: rest => do
    let node ← decodedLine codec line
    let nodes ← decodedLines codec rest
    return node.toList ++ nodes

/-- The nodes of the file at the path, in order. -/
def decoded (codec : NodeCodec X) (file : Option Bytes) : Except Error (List (AgentNode X)) :=
  decodedLines codec (JsonlLineage.readLines (file.getD []))

namespace JsonlLineage

variable {codec : NodeCodec X}

theorem replayLine_decoded (line : Bytes) (inner : InMemoryInner X) :
    replayLine codec line inner = (decodedLine codec line).map fun node => node.toList.foldl .push inner := by
  unfold replayLine decodedLine
  rcases fromUtf8 line with _ | text
  · rfl
  · by_cases hblank : text.all isWhitespace = true
    · simp only [if_pos hblank]
      rfl
    · simp only [if_neg hblank]
      rcases codec.fromStr (.ofList text) with e | node <;> rfl

theorem replay_decoded (lines : List Bytes) (inner : InMemoryInner X) :
    replay codec lines inner = (decodedLines codec lines).map fun nodes => nodes.foldl .push inner := by
  induction lines generalizing inner with
  | nil => rfl
  | cons line rest ih =>
    rw [replay, decodedLines, replayLine_decoded]
    rcases decodedLine codec line with e | node
    · rfl
    · rw [Prog.ok_bind, Except.map, Prog.ok_bind, ih]
      rcases decodedLines codec rest with e | nodes
      · rfl
      · exact congrArg Except.ok List.foldl_append.symm

/-- A file opens if it decodes, to its nodes pushed in order. -/
theorem open_decoded {file : Option Bytes} {s : JsonlLineage X} :
    JsonlLineage.open codec file = .ok s ↔ ∃ nodes, decoded codec file = .ok nodes ∧ s = ⟨file, .replayed nodes⟩ := by
  cases file with
  | none =>
    constructor
    · intro h
      cases h
      exact ⟨[], rfl, rfl⟩
    · intro h
      obtain ⟨nodes, hd, rfl⟩ := h
      cases hd
      rfl
  | some bytes =>
    rw [JsonlLineage.open, replay_decoded, decoded, Option.getD_some]
    rcases decodedLines codec (readLines bytes) with e | nodes
    · constructor
      · intro h
        cases h
      · intro h
        obtain ⟨nodes, hd, -⟩ := h
        cases hd
    · constructor
      · intro h
        cases h
        exact ⟨nodes, rfl, rfl⟩
      · intro h
        obtain ⟨nodes', hd, rfl⟩ := h
        cases hd
        rfl

end JsonlLineage

/-! ## The store's invariant -/

namespace InMemoryInner

/-- Each id is listed once, and the map, the list and the head agree. -/
structure Intact (s : InMemoryInner X) : Prop where
  distinct : s.insertionOrder.Nodup
  ids : ∀ id, id ∈ s.insertionOrder ↔ (s.nodes id).isSome
  keyed : ∀ id n, s.nodes id = some n → n.agentId = id
  head : ∀ id, s.head = some id → ∃ n, s.nodes id = some n ∧ n.status = .promoted
  once : (s.list.map (·.agentId)).Nodup
  agree : ∀ id n, s.get id = .ok n ↔ n ∈ s.list ∧ n.agentId = id

theorem wf_intact {s : InMemoryInner X} (h : s.Wf)
    (hh : ∀ id, s.head = some id → ∃ n, s.nodes id = some n ∧ n.status = .promoted) : Intact s where
  distinct := h.nodup
  ids := h.stored
  keyed := h.keyed
  head := hh
  once := by
    rw [list_ids h]
    exact h.nodup
  agree id n := by
    rw [get_ok, mem_list h]
    constructor
    · intro hn
      obtain rfl := h.keyed id n hn
      exact ⟨hn, rfl⟩
    · intro hn
      rw [← hn.2]
      exact hn.1

theorem replayed_wf {nodes : List (AgentNode X)} (hd : (nodes.map (·.agentId)).Nodup) : (replayed nodes).Wf := by
  induction nodes using List.reverseRecOn with
  | nil => exact default_wf
  | append_singleton nodes node ih =>
    simp only [List.map_append, List.map_singleton, List.nodup_append, List.mem_singleton, forall_eq] at hd
    rw [replayed_append]
    apply push_wf (ih hd.1)
    apply replayed_absent
    intro hm
    exact hd.2.2 _ hm rfl

/-- Pushing nodes one after the other keeps the invariant exactly if their ids differ. -/
theorem replayed_intact_iff (nodes : List (AgentNode X)) : Intact (replayed nodes) ↔ (nodes.map (·.agentId)).Nodup := by
  constructor
  · intro h
    rw [← replayed_order]
    exact h.distinct
  · intro hd
    apply wf_intact (replayed_wf hd)
    intro id hid
    rw [replayed_head] at hid
    obtain ⟨n, hfind, rfl⟩ := Option.map_eq_some_iff.mp hid
    have hn : n ∈ nodes := List.mem_reverse.mp (List.mem_of_find?_eq_some hfind)
    exact ⟨n, replayed_stored hd hn, by simpa using List.find?_some hfind⟩

end InMemoryInner

/-- An opened ledger keeps the store's invariant exactly if the nodes in its file have
    different ids. -/
theorem open_intact_iff {codec : NodeCodec X} {file : Option Bytes} {s : JsonlLineage X}
    (ho : JsonlLineage.open codec file = .ok s) :
    s.inner.Intact ↔ ∃ nodes, decoded codec file = .ok nodes ∧ (nodes.map (·.agentId)).Nodup := by
  obtain ⟨nodes, hd, rfl⟩ := JsonlLineage.open_decoded.mp ho
  rw [InMemoryInner.replayed_intact_iff]
  constructor
  · intro h
    exact ⟨nodes, hd, h⟩
  · intro h
    obtain ⟨nodes', hd', hnodup⟩ := h
    obtain rfl := Except.ok.inj (hd.symm.trans hd')
    exact hnodup

/-! ## Two handles -/

section

variable {codec : NodeCodec X} {s : JsonlLineage X}

/-- A file of whole lines opens, whatever their ids. -/
theorem open_journal {nodes : List (AgentNode X)} (h : ∀ n ∈ nodes, codec.Reads n) :
    JsonlLineage.open codec (some (journal '\n'.toUInt8 (nodes.map codec.line))) =
      .ok ⟨some (journal '\n'.toUInt8 (nodes.map codec.line)), .replayed nodes⟩ := by
  rw [JsonlLineage.open, JsonlLineage.readLines_journal h, JsonlLineage.replay_lines h]
  rfl

/-- A handle writes behind whatever stands at its path. -/
theorem append_file {n : AgentNode X} (hr : codec.Reads n) (hf : s.inner.nodes n.agentId = none) :
    s.append codec .done n =
      (.ok (), ⟨some (s.file.getD [] ++ journal '\n'.toUInt8 [codec.line n]), s.inner.push n⟩) := by
  obtain ⟨text, ht⟩ := hr
  simp [JsonlLineage.append, ht.written, hf, ht.line_eq]

end

namespace Reference

/-- A handle that appended the pinned node, and another one, opened before that. -/
def firstHandle : JsonlLineage Reference := (JsonlLineage.append codec .done snapshotNode .fresh).2
def secondHandle : JsonlLineage Reference := ⟨firstHandle.file, .default⟩

theorem firstHandle_file : firstHandle.file = some (journal '\n'.toUInt8 [codec.line snapshotNode]) := by
  rw [firstHandle, append_file snapshot_reads rfl]
  exact congrArg some (List.nil_append _)

theorem twice_reads : ∀ n ∈ [snapshotNode, snapshotNode], codec.Reads n := by
  simp [snapshot_reads]

/-- The other one appends it too, and the file opens to a ledger that lists it twice. -/
theorem twice_appended : ∃ file s,
    secondHandle.append codec .done snapshotNode = (.ok (), ⟨file, .push .default snapshotNode⟩) ∧
    JsonlLineage.open codec file = .ok s ∧ s.list = [snapshotNode, snapshotNode] ∧ ¬ s.inner.Intact := by
  refine ⟨some (journal '\n'.toUInt8 ([snapshotNode, snapshotNode].map codec.line)),
    ⟨_, .replayed [snapshotNode, snapshotNode]⟩, ?_, open_journal twice_reads, rfl, ?_⟩
  · rw [append_file snapshot_reads rfl, secondHandle, firstHandle_file, Option.getD_some, ← journal_append]
    rfl
  · rw [InMemoryInner.replayed_intact_iff]
    simp

theorem renamed_intact : InMemoryInner.Intact (.replayed [snapshotNode, renamed]) := by
  have hr : ∀ n ∈ [snapshotNode, renamed], codec.Reads n := by simp [snapshot_reads, renamed_reads]
  obtain ⟨nodes, hd, hs⟩ := JsonlLineage.open_decoded.mp (open_journal hr)
  have hnodes : nodes.map (·.agentId) = [snapshotNode, renamed].map (·.agentId) := by
    rw [← InMemoryInner.replayed_order, ← InMemoryInner.replayed_order]
    exact congrArg (fun s => s.inner.insertionOrder) hs.symm
  refine (open_intact_iff (open_journal hr)).mpr ⟨nodes, hd, ?_⟩
  have hne : snapshotNode.agentId ≠ renamed.agentId := by decide +kernel
  rw [hnodes]
  exact List.nodup_cons.mpr ⟨fun h => hne (List.mem_singleton.mp h), List.nodup_singleton _⟩

end Reference

end RigVeh
