/-
  RigVeh.Ledger.Restart — the file-backed ledger over restarts.

  A history (newest step first) of appends, head moves and restarts drives both stores.
  The file-backed one mirrors the in-memory one (`Mirrors`, kept by every step): same
  answers, same nodes in the same order (`stores_agree`). The head is not in the file:
  a reopened ledger points at the promoted node appended last, so it has the head it was
  closed with exactly if the history is `Settled` (`head_survives_iff`).
-/

import RigVeh.Ledger.Jsonl

namespace RigVeh

open RigVeh.Base

variable {X : Crates}

inductive Step (X : Crates) where
  | append (node : AgentNode X)
  | setHead (id : AgentId)
  | restart

/-- All writes succeed. -/
def JsonlLineage.step (codec : NodeCodec X) : Step X → JsonlLineage X → Except Error Unit × JsonlLineage X
  | .append node, s => s.append codec .done node
  | .setHead id, s => s.setHead id
  | .restart, s =>
    match JsonlLineage.open codec s.file with
    | .ok reopened => (.ok (), reopened)
    | .error e => (.error e, s)

/-- A restart is none of this store's. -/
def InMemoryInner.step : Step X → InMemoryInner X → Except Error Unit × InMemoryInner X
  | .append node, s => s.append node
  | .setHead id, s => s.setHead id
  | .restart, s => (.ok (), s)

/-- Every node appended is read back. -/
def Step.Readable (codec : NodeCodec X) : Step X → Prop
  | .append node => codec.Reads node
  | _ => True

/-! ## Two stores -/

structure Mirrors (codec : NodeCodec X) (s : JsonlLineage X) (m : InMemoryInner X) : Prop where
  journaled : s.Journaled codec
  nodes : s.inner.nodes = m.nodes
  order : s.inner.insertionOrder = m.insertionOrder

section

variable {codec : NodeCodec X} {s : JsonlLineage X} {m : InMemoryInner X}

/-- A reopened ledger, seen through its file. -/
theorem reopened_journaled (h : s.Journaled codec) : JsonlLineage.Journaled codec ⟨s.file, .replayed s.inner.list⟩ ∧
    (InMemoryInner.replayed s.inner.list).list = s.inner.list := by
  obtain ⟨hnodes, horder⟩ := InMemoryInner.replayed_list h.wf
  have hlist : (InMemoryInner.replayed s.inner.list).list = s.inner.list := by
    rw [InMemoryInner.list, hnodes, horder]
    rfl
  refine ⟨⟨⟨?_, ?_, ?_⟩, ?_, ?_⟩, hlist⟩
  · rw [horder]
    exact h.wf.nodup
  · rw [horder, hnodes]
    exact h.wf.stored
  · rw [hnodes]
    exact h.wf.keyed
  · rw [hlist]
    exact h.reads
  · rw [hlist]
    exact h.file

theorem mirrors_step (i : Step X) (hi : i.Readable codec) (h : Mirrors codec s m) :
    (s.step codec i).1 = (m.step i).1 ∧ Mirrors codec (s.step codec i).2 (m.step i).2 := by
  cases i with
  | append n =>
    by_cases hf : s.inner.nodes n.agentId = none
    · obtain ⟨hans, hinner, hj⟩ := JsonlLineage.append_fresh h.journaled hi hf
      rw [JsonlLineage.step, InMemoryInner.step, InMemoryInner.append_fresh (h.nodes ▸ hf)]
      refine ⟨hans, hj, ?_, ?_⟩
      · rw [hinner, InMemoryInner.push, InMemoryInner.push, h.nodes]
      · rw [hinner, InMemoryInner.push, InMemoryInner.push, h.order]
    · rw [JsonlLineage.step, InMemoryInner.step, JsonlLineage.append_duplicate hi hf,
        InMemoryInner.append_duplicate (h.nodes ▸ hf)]
      exact ⟨rfl, h⟩
  | setHead id =>
    have hsame : (m.nodes id).isSome = (s.inner.nodes id).isSome := by rw [h.nodes]
    simp only [JsonlLineage.step, InMemoryInner.step, JsonlLineage.setHead, InMemoryInner.setHead, hsame]
    split
    · exact ⟨rfl, ⟨InMemoryInner.head_wf h.journaled.wf _, h.journaled.reads, h.journaled.file⟩, h.nodes, h.order⟩
    · exact ⟨rfl, h⟩
  | restart =>
    obtain ⟨hnodes, horder⟩ := InMemoryInner.replayed_list h.journaled.wf
    rw [JsonlLineage.step, JsonlLineage.open_journaled h.journaled]
    exact ⟨rfl, (reopened_journaled h.journaled).1, hnodes.trans h.nodes, horder.trans h.order⟩

end

/-- Along every history, restarts included, both stores answer alike and hold the same
    nodes in the same order. -/
theorem stores_agree (codec : NodeCodec X) (steps : List (Step X)) (hr : ∀ i ∈ steps, i.Readable codec) :
    let file := drive (JsonlLineage.step codec) .fresh steps
    let memory := drive InMemoryInner.step .default steps
    file.1 = memory.1 ∧ file.2.list = memory.2.list ∧ ∀ id, file.2.get id = memory.2.get id := by
  have h₀ : Mirrors codec .fresh .default := ⟨JsonlLineage.journaled_fresh, rfl, rfl⟩
  obtain ⟨hans, h⟩ := drive_sim h₀ (fun i s m => mirrors_step i) steps hr
  refine ⟨hans, ?_, fun id => ?_⟩
  · rw [JsonlLineage.list, InMemoryInner.list, InMemoryInner.list, h.nodes, h.order]
  · rw [JsonlLineage.get, InMemoryInner.get, InMemoryInner.get, h.nodes]

namespace Reference

/-- A promotion, a restart, the same promotion again and a head that is not there. -/
def restarted : List (Step Reference) := [.setHead "missing", .append snapshotNode, .restart, .append snapshotNode]

theorem stores_agree_restarted :
    let file := drive (JsonlLineage.step codec) .fresh restarted
    let memory := drive InMemoryInner.step .default restarted
    memory.1 = [.error (.notFound "missing"), .error (InMemoryInner.duplicate snapshotNode.agentId), .ok (), .ok ()] ∧
      file.1 = memory.1 ∧ file.2.list = memory.2.list ∧ ∀ id, file.2.get id = memory.2.get id := by
  refine ⟨by decide, stores_agree codec restarted ?_⟩
  simp [restarted, Step.Readable, snapshot_reads]

end Reference

/-! ## The head -/

def Step.appended : Step X → Option AgentId
  | .append n => some n.agentId
  | _ => none

/-- An append of the history stored this id. -/
abbrev Stored (steps : List (Step X)) (id : AgentId) : Prop := id ∈ steps.filterMap Step.appended

@[simp] theorem stored_append {steps : List (Step X)} {n : AgentNode X} {id : AgentId} :
    Stored (.append n :: steps) id ↔ id = n.agentId ∨ Stored steps id :=
  List.mem_cons

/-- The promoted node stored last. -/
def lastPromoted : List (Step X) → Option AgentId
  | [] => none
  | .append n :: older => if n.status = .promoted ∧ ¬ Stored older n.agentId then some n.agentId else lastPromoted older
  | .setHead _ :: older => lastPromoted older
  | .restart :: older => lastPromoted older

/-- The step that moved the head last did not point it at any other node than the
    promoted one stored last. -/
def Settled : List (Step X) → Prop
  | [] => True
  | .append n :: older => n.status = .promoted ∧ ¬ Stored older n.agentId ∨ Settled older
  | .setHead id :: older => if Stored older id then lastPromoted older = some id else Settled older
  | .restart :: _ => True

/-- What a ledger holds after a history. -/
structure Tracks (codec : NodeCodec X) (steps : List (Step X)) (s : JsonlLineage X) : Prop where
  journaled : s.Journaled codec
  stored : ∀ id, (s.inner.nodes id).isSome ↔ Stored steps id
  last : (InMemoryInner.replayed s.inner.list).head = lastPromoted steps
  settled : Settled steps ↔ s.head = lastPromoted steps

theorem tracks_append {codec : NodeCodec X} {steps : List (Step X)} {s : JsonlLineage X} (h : Tracks codec steps s)
    {n : AgentNode X} (hr : codec.Reads n) : Tracks codec (.append n :: steps) (s.append codec .done n).2 := by
  by_cases hf : s.inner.nodes n.agentId = none
  · have hnew : ¬ Stored steps n.agentId := by
      rw [← h.stored, hf]
      exact Bool.false_ne_true
    obtain ⟨-, hinner, hj⟩ := JsonlLineage.append_fresh h.journaled hr hf
    refine ⟨hj, fun id => ?_, ?_, ?_⟩
    · rw [hinner, stored_append, ← h.stored]
      by_cases hid : id = n.agentId
      · simp [hid]
      · simp [hid, InMemoryInner.push_ne s.inner n hid]
    · rw [hinner, InMemoryInner.list_push h.journaled.wf hf, InMemoryInner.replayed_append, InMemoryInner.push_head, h.last]
      simp [lastPromoted, hnew]
    · have hl := h.settled
      rw [JsonlLineage.head] at hl ⊢
      rw [hinner, InMemoryInner.push_head]
      by_cases hp : n.status = .promoted <;> simp [Settled, lastPromoted, hp, hnew, hl]
  · have hold : Stored steps n.agentId := (h.stored _).mp (Option.isSome_iff_ne_none.mpr hf)
    rw [JsonlLineage.append_duplicate hr hf]
    refine ⟨h.journaled, fun id => ?_, ?_, ?_⟩
    · rw [stored_append, h.stored]
      refine ⟨.inr, ?_⟩
      rintro (rfl | hid)
      · exact hold
      · exact hid
    · simpa [lastPromoted, hold] using h.last
    · simpa [Settled, lastPromoted, hold] using h.settled

theorem tracks_step {codec : NodeCodec X} {steps : List (Step X)} {s : JsonlLineage X} (h : Tracks codec steps s)
    (i : Step X) (hi : i.Readable codec) : Tracks codec (i :: steps) (s.step codec i).2 := by
  cases i with
  | append n => exact tracks_append h hi
  | setHead id =>
    by_cases hs : (s.inner.nodes id).isSome
    · have hstored := (h.stored id).mp hs
      simp only [JsonlLineage.step, JsonlLineage.setHead, InMemoryInner.setHead, hs, if_true]
      refine ⟨⟨InMemoryInner.head_wf h.journaled.wf _, h.journaled.reads, h.journaled.file⟩, h.stored, h.last, ?_⟩
      rw [Settled, if_pos hstored, lastPromoted, JsonlLineage.head, eq_comm]
    · have hstored : ¬ Stored steps id := fun hid => hs ((h.stored id).mpr hid)
      simp only [JsonlLineage.step, JsonlLineage.setHead, InMemoryInner.setHead, hs]
      refine ⟨h.journaled, h.stored, h.last, ?_⟩
      rw [Settled, if_neg hstored]
      exact h.settled
  | restart =>
    obtain ⟨hj, hlist⟩ := reopened_journaled h.journaled
    rw [JsonlLineage.step, JsonlLineage.open_journaled h.journaled]
    refine ⟨hj, fun id => ?_, ?_, ?_⟩
    · rw [(InMemoryInner.replayed_list h.journaled.wf).1]
      exact h.stored id
    · rw [hlist]
      exact h.last
    · exact iff_of_true trivial h.last

theorem tracks (codec : NodeCodec X) (steps : List (Step X)) (hr : ∀ i ∈ steps, i.Readable codec) :
    Tracks codec steps (drive (JsonlLineage.step codec) .fresh steps).2 := by
  induction steps with
  | nil => exact ⟨JsonlLineage.journaled_fresh, by simp [JsonlLineage.fresh, InMemoryInner.default], rfl, iff_of_true trivial rfl⟩
  | cons i older ih => exact tracks_step (ih fun j hj => hr j (by simp [hj])) i (hr i (by simp))

/-- A ledger closed after a history and opened again has the head it had if and only if
    the history is settled. -/
theorem head_survives_iff (codec : NodeCodec X) (steps : List (Step X)) (hr : ∀ i ∈ steps, i.Readable codec) :
    let s := (drive (JsonlLineage.step codec) .fresh steps).2
    (JsonlLineage.open codec s.file).map (·.head) = .ok s.head ↔ Settled steps := by
  have h := tracks codec steps hr
  intro s
  rw [JsonlLineage.open_journaled h.journaled, h.settled, ← h.last, Except.map, Except.ok.injEq, eq_comm]
  rfl

namespace Reference

theorem head_survives_restarted :
    let s := (drive (JsonlLineage.step codec) .fresh restarted).2
    (JsonlLineage.open codec s.file).map (·.head) = .ok s.head ↔ Settled restarted :=
  head_survives_iff codec restarted (by simp [restarted, Step.Readable, snapshot_reads])

/-- Two promoted nodes, and the head moved back to the first. -/
def movedBack : List (Step Reference) := [.setHead snapshotNode.agentId, .append renamed, .append snapshotNode]

/-- Every step succeeds, and reopening points at the second node. -/
theorem head_reinstated :
    let r := drive (JsonlLineage.step codec) .fresh movedBack
    (∀ i ∈ movedBack, i.Readable codec) ∧ r.1 = [.ok (), .ok (), .ok ()] ∧ r.2.head = some snapshotNode.agentId ∧
      (JsonlLineage.open codec r.2.file).map (·.head) = .ok (some renamed.agentId) ∧
      snapshotNode.agentId ≠ renamed.agentId := by
  have hr : ∀ i ∈ movedBack, i.Readable codec := by simp [movedBack, Step.Readable, snapshot_reads, renamed_reads]
  have h := tracks codec movedBack hr
  refine ⟨hr, by decide +kernel, by decide +kernel, ?_, by decide +kernel⟩
  rw [JsonlLineage.open_journaled h.journaled, Except.map, JsonlLineage.head, h.last]
  decide +kernel

end Reference

end RigVeh
