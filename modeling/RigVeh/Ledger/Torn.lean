/-
  RigVeh.Ledger.Torn — appends whose write fails.

  A failed append never touches what the process holds, but the bytes its write left stay
  in the file, and the next line is written behind them. While no write leaves a part of
  its line (`Whole`) the file replays to the accepted nodes (`failed_appends`); a line
  that lacks only its newline is replayed although its append failed
  (`refused_replayed`).
-/

import RigVeh.Ledger.Jsonl

namespace RigVeh

open RigVeh.Base

variable {X : Crates}

structure Attempt (X : Crates) where
  node : AgentNode X
  write : Write

namespace JsonlLineage

def attempt (codec : NodeCodec X) (a : Attempt X) (s : JsonlLineage X) : Except Error Unit × JsonlLineage X :=
  s.append codec a.write a.node

/-- The ledger after a history of attempts, the newest first. -/
def after (codec : NodeCodec X) (attempts : List (Attempt X)) : JsonlLineage X := (drive (attempt codec) .fresh attempts).2

/-- The nodes whose append returned `Ok`, oldest first. -/
def accepted (codec : NodeCodec X) : List (Attempt X) → List (AgentNode X)
  | [] => []
  | a :: older =>
    match ((after codec older).attempt codec a).1 with
    | .ok _ => accepted codec older ++ [a.node]
    | .error _ => accepted codec older

end JsonlLineage

/-- The write fails with bytes of the line in the file. -/
def Write.Tears : Write → Prop
  | .torn written _ => written ≠ 0
  | _ => False

/-- No write tears; a node whose id is stored is not written. -/
def Whole (codec : NodeCodec X) : List (Attempt X) → Prop
  | [] => True
  | a :: older =>
    (a.write.Tears → ((JsonlLineage.after codec older).inner.nodes a.node.agentId).isSome) ∧ Whole codec older

namespace JsonlLineage

section

variable {codec : NodeCodec X} {s : JsonlLineage X}

/-- A failed append leaves what the process holds. -/
theorem append_error {w : Write} {n : AgentNode X} {e : Error} (h : (s.append codec w n).1 = .error e) :
    (s.append codec w n).2.inner = s.inner := by
  unfold append at h ⊢
  split
  · rfl
  split
  · rfl
  · rename_i hw hs
    cases w with
    | done => simp [hw, hs] at h
    | refused => rfl
    | torn => rfl

/-- A write that fails before its line leaves the file's bytes too. -/
theorem append_refused (h : s.Journaled codec) {n : AgentNode X} (hr : codec.Reads n) {w : Write} (hw : w ≠ .done)
    (ht : ¬ w.Tears) (hf : s.inner.nodes n.agentId = none) :
    (∃ e, (s.append codec w n).1 = .error e) ∧ (s.append codec w n).2.Journaled codec := by
  obtain ⟨text, hr⟩ := hr
  cases w with
  | done => exact absurd rfl hw
  | refused msg =>
    simp only [append, hr.written, hf, Option.isSome_none, Bool.false_eq_true, if_false]
    exact ⟨⟨_, rfl⟩, h⟩
  | torn written msg =>
    obtain rfl : written = 0 := not_not.mp ht
    simp only [append, hr.written, hf, Option.isSome_none, Bool.false_eq_true, if_false, List.take_zero, List.append_nil]
    exact ⟨⟨_, rfl⟩, h.wf, h.reads, h.file⟩

theorem accepted_ok {a : Attempt X} {older : List (Attempt X)} {u : Unit}
    (h : ((after codec older).attempt codec a).1 = .ok u) : accepted codec (a :: older) = accepted codec older ++ [a.node] := by
  rw [accepted, h]

theorem accepted_error {a : Attempt X} {older : List (Attempt X)} {e : Error}
    (h : ((after codec older).attempt codec a).1 = .error e) : accepted codec (a :: older) = accepted codec older := by
  rw [accepted, h]

/-- While no write tears, the ledger lists the accepted nodes and its file holds them. -/
theorem whole_journaled (attempts : List (Attempt X)) (hr : ∀ a ∈ attempts, codec.Reads a.node)
    (hw : Whole codec attempts) :
    (after codec attempts).Journaled codec ∧ (after codec attempts).list = accepted codec attempts := by
  induction attempts with
  | nil => exact ⟨journaled_fresh, rfl⟩
  | cons a older ih =>
    obtain ⟨hj, hl⟩ := ih (fun b hb => hr b (by simp [hb])) hw.2
    have hra := hr a (by simp)
    rw [show after codec (a :: older) = ((after codec older).attempt codec a).2 from rfl]
    by_cases hf : (after codec older).inner.nodes a.node.agentId = none
    · by_cases hd : a.write = .done
      · have h := append_fresh hj hra hf
        rw [← hd] at h
        obtain ⟨hans, hinner, hj'⟩ := h
        refine ⟨hj', ?_⟩
        rw [accepted_ok hans, list, attempt, hinner, InMemoryInner.list_push hj.wf hf, ← hl]
        rfl
      · have ht : ¬ a.write.Tears := fun ht => by simpa [hf] using hw.1 ht
        obtain ⟨⟨e, he⟩, hj'⟩ := append_refused hj hra hd ht hf
        refine ⟨hj', ?_⟩
        rw [accepted_error he, list, attempt, append_error he]
        exact hl
    · have hdup := append_duplicate hra hf a.write
      rw [accepted_error (congrArg Prod.fst hdup), attempt, hdup]
      exact ⟨hj, hl⟩

end

/-- In every state that a history reaches whose nodes read back from their lines and whose
    writes are not torn, a failed append leaves the ledger as it was, and the file opens to exactly the accepted nodes, in order. -/
theorem failed_appends (codec : NodeCodec X) (attempts : List (Attempt X)) (hr : ∀ a ∈ attempts, codec.Reads a.node)
    (hw : Whole codec attempts) :
    let s := after codec attempts
    (∀ a e, (s.attempt codec a).1 = .error e → (s.attempt codec a).2.inner = s.inner) ∧
      ∃ reopened, JsonlLineage.open codec s.file = .ok reopened ∧ reopened.list = accepted codec attempts := by
  obtain ⟨hj, hl⟩ := whole_journaled attempts hr hw
  refine ⟨fun a e he => append_error he, _, open_journaled hj, ?_⟩
  obtain ⟨hnodes, horder⟩ := InMemoryInner.replayed_list hj.wf
  rw [list, InMemoryInner.list, hnodes, horder, ← hl]
  rfl

/-- A line that lacks only its newline is the file's last line. -/
theorem readLines_unended {codec : NodeCodec X} {nodes : List (AgentNode X)} (h : ∀ n ∈ nodes, codec.Reads n)
    {n : AgentNode X} (hn : codec.Reads n) :
    readLines (journal '\n'.toUInt8 (nodes.map codec.line) ++ codec.line n) = (nodes ++ [n]).map codec.line := by
  have hone : ∀ l ∈ nodes.map codec.line, OneLine '\n'.toUInt8 '\r'.toUInt8 l := by
    intro l hl
    obtain ⟨m, hm, rfl⟩ := List.mem_map.mp hl
    exact (h m hm).oneLine
  rw [readLines, lines_journal hone hn.oneLine.newline, if_neg hn.line_ne, List.map_append, List.map_singleton]

/-- So a node whose append failed after its last character is there after a restart. -/
theorem refused_replayed {codec : NodeCodec X} {s : JsonlLineage X} (h : s.Journaled codec) {n : AgentNode X}
    (hr : codec.Reads n) (hf : s.inner.nodes n.agentId = none) (msg : String) :
    let t := s.append codec (.torn (codec.line n).length msg) n
    t.1 = .error (.io msg) ∧
      ∃ reopened, JsonlLineage.open codec t.2.file = .ok reopened ∧ reopened.list = s.list ++ [n] := by
  obtain ⟨text, ht⟩ := id hr
  have hfile : s.append codec (.torn (codec.line n).length msg) n =
      (.error (.io msg), { s with file := some (s.file.getD [] ++ codec.line n) }) := by
    simp [append, ht.written, ht.line_eq, hf]
  have hlist := InMemoryInner.list_push h.wf hf
  have hall : ∀ m ∈ s.inner.list ++ [n], codec.Reads m := by
    intro m hm
    rcases List.mem_append.mp hm with hm | hm
    · exact h.reads m hm
    · rwa [List.mem_singleton.mp hm]
  obtain ⟨hnodes, horder⟩ := InMemoryInner.replayed_list (InMemoryInner.push_wf h.wf hf)
  have hopen : JsonlLineage.open codec (some (s.file.getD [] ++ codec.line n)) =
      .ok ⟨some (s.file.getD [] ++ codec.line n), .replayed (s.inner.list ++ [n])⟩ := by
    rw [JsonlLineage.open, h.file, readLines_unended h.reads hr, replay_lines hall]
    rfl
  intro t
  rw [show t = _ from hfile]
  refine ⟨rfl, _, hopen, ?_⟩
  rw [hlist] at hnodes horder
  rw [list, InMemoryInner.list, hnodes, horder]
  exact hlist

end JsonlLineage

namespace Reference

open JsonlLineage

/-- A refused append, its retry, and another that stops before its first byte. -/
def retried : List (Attempt Reference) :=
  [⟨renamed, .torn 0 "No space left on device"⟩, ⟨snapshotNode, .done⟩, ⟨snapshotNode, .refused "Permission denied"⟩]

theorem failed_appends_retried :
    let s := after codec retried
    (∀ a e, (s.attempt codec a).1 = .error e → (s.attempt codec a).2.inner = s.inner) ∧
      ∃ reopened, JsonlLineage.open codec s.file = .ok reopened ∧ reopened.list = accepted codec retried :=
  failed_appends codec retried (by simp [retried, snapshot_reads, renamed_reads]) (by simp [retried, Whole, Write.Tears])

/-- The disk is full after the last character of the JSON. -/
def unended : List (Attempt Reference) :=
  [⟨snapshotNode, .torn (codec.line snapshotNode).length "No space left on device"⟩]

/-- The append failed, and reopening yields its node. -/
theorem refused_node_returns : codec.Reads snapshotNode ∧ accepted codec unended = [] ∧
    ∃ reopened, JsonlLineage.open codec (after codec unended).file = .ok reopened ∧ reopened.list = [snapshotNode] := by
  have hfresh : (fresh : JsonlLineage Reference).Journaled codec := journaled_fresh
  obtain ⟨he, reopened, ho, hl⟩ := refused_replayed hfresh snapshot_reads rfl "No space left on device"
  exact ⟨snapshot_reads, accepted_error he, reopened, ho, hl⟩

end Reference

end RigVeh
