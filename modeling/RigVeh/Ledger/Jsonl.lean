/-
  RigVeh.Ledger.Jsonl — the file-backed lineage ledger (`JsonlLineage`,
  `src/ledger.rs`).

  What stands at the path is `file` (none where nothing does), what the process holds is
  `inner`. `open` replays the lines, `append` writes one behind what is there. A write
  may stop after some bytes of its line (`Write`). serde_json on a whole node is a
  parameter (`NodeCodec`); `Reads` is what the ledger relies on, node by node.

  `Journaled`: the file holds the listed nodes, one to a line. Such a file replays to
  the same nodes in the same order (`open_journaled`); only the head may differ.
-/

import RigVeh.Base.Lines
import RigVeh.Ledger.Memory
import RigVeh.Reference

namespace RigVeh

open RigVeh.Base

variable {X : Crates}

/-- `serde_json::to_string` and `serde_json::from_str` at `AgentNode`. -/
structure NodeCodec (X : Crates) where
  toString : AgentNode X → Except String String
  fromStr : String → Except String (AgentNode X)

/-- The node is written as one line, an object, that reads back as the node. -/
structure NodeCodec.ReadsAs (codec : NodeCodec X) (node : AgentNode X) (line : String) : Prop where
  written : codec.toString node = .ok line
  read : codec.fromStr line = .ok node
  object : '{' ∈ line.toList
  newline : '\n' ∉ line.toList
  carriage : '\r' ∉ line.toList

def NodeCodec.Reads (codec : NodeCodec X) (node : AgentNode X) : Prop := ∃ line, codec.ReadsAs node line

/-- `char::is_whitespace`. -/
def isWhitespace (c : Char) : Bool :=
  c.toNat ∈ [0x09, 0x0a, 0x0b, 0x0c, 0x0d, 0x20, 0x85, 0xa0, 0x1680, 0x2028, 0x2029, 0x202f, 0x205f, 0x3000] ||
    (decide (0x2000 ≤ c.toNat) && decide (c.toNat ≤ 0x200a))

/-- What the operating system makes of a write. -/
inductive Write where
  | done
  /-- The file could not be opened. -/
  | refused (msg : String)
  /-- The write stopped with this many bytes of the line in the file, its newline not. -/
  | torn (written : Nat) (msg : String)

structure JsonlLineage (X : Crates) where
  file : Option Bytes
  inner : InMemoryInner X

namespace JsonlLineage

/-- `BufRead::lines`. -/
def readLines (bytes : Bytes) : List Bytes := lines '\n'.toUInt8 '\r'.toUInt8 bytes

/-- One line of the file. -/
def replayLine (codec : NodeCodec X) (line : Bytes) (inner : InMemoryInner X) : Except Error (InMemoryInner X) :=
  match fromUtf8 line with
  | none => .error (.io "stream did not contain valid UTF-8")
  | some text =>
    -- `line.trim().is_empty()`
    if text.all isWhitespace then .ok inner
    else
      match codec.fromStr (.ofList text) with
      | .error e => .error (.json e)
      | .ok node => .ok (inner.push node)

def replay (codec : NodeCodec X) : List Bytes → InMemoryInner X → Except Error (InMemoryInner X)
  | [], inner => .ok inner
  | line :: rest, inner => do replay codec rest (← replayLine codec line inner)

def «open» (codec : NodeCodec X) (file : Option Bytes) : Except Error (JsonlLineage X) :=
  match file with
  | none => .ok ⟨none, .default⟩
  | some bytes => do return ⟨some bytes, ← replay codec (readLines bytes) .default⟩

def append (codec : NodeCodec X) (write : Write) (node : AgentNode X) (s : JsonlLineage X) :
    Except Error Unit × JsonlLineage X :=
  match codec.toString node with
  | .error e => (.error (.json e), s)
  | .ok serialised =>
    if (s.inner.nodes node.agentId).isSome then (.error (InMemoryInner.duplicate node.agentId), s)
    else
      let line := utf8 serialised.toList
      -- opening the file creates it
      let old := s.file.getD []
      match write with
      | .done => (.ok (), ⟨some (old ++ line ++ ['\n'.toUInt8]), s.inner.push node⟩)
      | .refused msg => (.error (.io msg), s)
      | .torn written msg => (.error (.io msg), { s with file := some (old ++ line.take written) })

def setHead (id : AgentId) (s : JsonlLineage X) : Except Error Unit × JsonlLineage X :=
  ((s.inner.setHead id).1, { s with inner := (s.inner.setHead id).2 })

def get (id : AgentId) (s : JsonlLineage X) : Except Error (AgentNode X) := s.inner.get id

def head (s : JsonlLineage X) : Option AgentId := s.inner.head

/-- `nodes()`. -/
def list (s : JsonlLineage X) : List (AgentNode X) := s.inner.list

/-- Opened where nothing stands at the path. -/
def fresh : JsonlLineage X := ⟨none, .default⟩

end JsonlLineage

/-! ## A list of nodes, replayed -/

namespace InMemoryInner

def replayed (nodes : List (AgentNode X)) : InMemoryInner X := nodes.foldl push .default

theorem replayed_append (nodes : List (AgentNode X)) (node : AgentNode X) :
    replayed (nodes ++ [node]) = (replayed nodes).push node := by
  rw [replayed, List.foldl_append]
  rfl

theorem replayed_order (nodes : List (AgentNode X)) : (replayed nodes).insertionOrder = nodes.map (·.agentId) := by
  rw [replayed, foldl_push_order]
  rfl

theorem replayed_absent {nodes : List (AgentNode X)} {id : AgentId} (h : id ∉ nodes.map (·.agentId)) :
    (replayed nodes).nodes id = none := by
  induction nodes using List.reverseRecOn with
  | nil => rfl
  | append_singleton nodes node ih =>
    simp only [List.map_append, List.map_singleton, List.mem_append, List.mem_singleton, not_or] at h
    rw [replayed_append, push_ne _ _ h.2, ih h.1]

theorem replayed_stored {nodes : List (AgentNode X)} (hd : (nodes.map (·.agentId)).Nodup) {n : AgentNode X}
    (hn : n ∈ nodes) : (replayed nodes).nodes n.agentId = some n := by
  induction nodes using List.reverseRecOn with
  | nil => cases hn
  | append_singleton nodes node ih =>
    simp only [List.map_append, List.map_singleton, List.nodup_append, List.mem_singleton, forall_eq] at hd
    rw [replayed_append]
    rcases List.mem_append.mp hn with hn | hn
    · rw [push_ne _ _ (hd.2.2 _ (List.mem_map_of_mem hn)), ih hd.1 hn]
    · obtain rfl := List.mem_singleton.mp hn
      exact push_same _ _

/-- The last promoted node becomes the head. -/
theorem replayed_head (nodes : List (AgentNode X)) :
    (replayed nodes).head = (nodes.reverse.find? (·.status = .promoted)).map (·.agentId) := by
  rw [replayed, foldl_push_head]
  exact Option.or_none

theorem list_ids {s : InMemoryInner X} (h : s.Wf) : s.list.map (·.agentId) = s.insertionOrder := by
  rw [list, List.map_filterMap]
  refine (List.filterMap_congr fun id hid => ?_).trans List.filterMap_some
  obtain ⟨n, hn⟩ := Option.isSome_iff_exists.mp ((h.stored id).mp hid)
  rw [hn, Option.map_some, h.keyed id n hn]

/-- The listed nodes determine a well-formed store but for its head. -/
theorem replayed_list {s : InMemoryInner X} (h : s.Wf) :
    (replayed s.list).nodes = s.nodes ∧ (replayed s.list).insertionOrder = s.insertionOrder := by
  have hids := list_ids h
  refine ⟨funext fun id => ?_, (replayed_order _).trans hids⟩
  rcases hn : s.nodes id with _ | n
  · refine replayed_absent ?_
    rw [hids, h.stored, hn]
    exact Bool.false_ne_true
  · obtain rfl := h.keyed id n hn
    exact replayed_stored (hids ▸ h.nodup) ((mem_list h).mpr hn)

end InMemoryInner

/-! ## A file written by the ledger -/

namespace NodeCodec

variable {codec : NodeCodec X} {n : AgentNode X}

/-- The bytes of a node's line. -/
def line (codec : NodeCodec X) (n : AgentNode X) : Bytes :=
  match codec.toString n with
  | .ok line => utf8 line.toList
  | .error _ => []

theorem ReadsAs.line_eq {text : String} (h : codec.ReadsAs n text) : codec.line n = utf8 text.toList := by
  rw [line, h.written]

theorem Reads.oneLine (h : codec.Reads n) : OneLine '\n'.toUInt8 '\r'.toUInt8 (codec.line n) := by
  obtain ⟨text, h⟩ := h
  rw [h.line_eq]
  refine ⟨fun hm => h.newline (utf8_ascii (by decide) hm), fun hl => h.carriage (utf8_ascii (by decide) ?_)⟩
  exact List.mem_of_getLast? hl

theorem Reads.line_ne (h : codec.Reads n) : codec.line n ≠ [] := by
  obtain ⟨text, h⟩ := h
  rw [h.line_eq]
  intro hnil
  have hnone := utf8_injective (hnil.trans (show [] = utf8 [] from rfl))
  exact List.not_mem_nil (hnone ▸ h.object)

theorem Reads.replayLine (h : codec.Reads n) (inner : InMemoryInner X) :
    JsonlLineage.replayLine codec (codec.line n) inner = .ok (inner.push n) := by
  obtain ⟨text, h⟩ := h
  have hblank : text.toList.all isWhitespace = false := List.all_eq_false.mpr ⟨'{', h.object, by decide⟩
  simp [JsonlLineage.replayLine, h.line_eq, fromUtf8_utf8, hblank, h.read]

end NodeCodec

namespace JsonlLineage

variable {codec : NodeCodec X} {s : JsonlLineage X}

structure Journaled (codec : NodeCodec X) (s : JsonlLineage X) : Prop where
  wf : s.inner.Wf
  reads : ∀ n ∈ s.inner.list, codec.Reads n
  file : s.file.getD [] = journal '\n'.toUInt8 (s.inner.list.map codec.line)

theorem journaled_fresh : Journaled codec (fresh : JsonlLineage X) :=
  ⟨InMemoryInner.default_wf, by simp [fresh, InMemoryInner.list, InMemoryInner.default], rfl⟩

theorem replay_lines {nodes : List (AgentNode X)} (h : ∀ n ∈ nodes, codec.Reads n) (inner : InMemoryInner X) :
    replay codec (nodes.map codec.line) inner = .ok (nodes.foldl .push inner) := by
  induction nodes generalizing inner with
  | nil => rfl
  | cons n nodes ih =>
    rw [List.map_cons, replay, (h n (by simp)).replayLine]
    exact ih (fun m hm => h m (by simp [hm])) _

theorem readLines_journal {nodes : List (AgentNode X)} (h : ∀ n ∈ nodes, codec.Reads n) :
    readLines (journal '\n'.toUInt8 (nodes.map codec.line)) = nodes.map codec.line := by
  have hone : ∀ l ∈ nodes.map codec.line, OneLine '\n'.toUInt8 '\r'.toUInt8 l := by
    intro l hl
    obtain ⟨n, hn, rfl⟩ := List.mem_map.mp hl
    exact (h n hn).oneLine
  have hlines := lines_journal hone List.not_mem_nil
  simpa [readLines] using hlines

/-- Reopening a file the ledger wrote. -/
theorem open_journaled (h : Journaled codec s) : JsonlLineage.open codec s.file = .ok ⟨s.file, .replayed s.inner.list⟩ := by
  have hfile := h.file
  rcases hf : s.file with _ | bytes
  · rcases hl : s.inner.list with _ | ⟨n, nodes⟩
    · rfl
    · simp [hf, hl, journal] at hfile
  · rw [hf, Option.getD_some] at hfile
    rw [JsonlLineage.open, hfile, readLines_journal h.reads, replay_lines h.reads]
    rfl

/-- A whole line goes behind the lines there are. -/
theorem append_fresh (h : Journaled codec s) {n : AgentNode X} (hr : codec.Reads n)
    (hf : s.inner.nodes n.agentId = none) : (s.append codec .done n).1 = .ok () ∧
      (s.append codec .done n).2.inner = s.inner.push n ∧ Journaled codec (s.append codec .done n).2 := by
  obtain ⟨text, ht⟩ := id hr
  simp only [append, ht.written, hf, Option.isSome_none, Bool.false_eq_true, if_false, true_and]
  have hlist := InMemoryInner.list_push h.wf hf
  refine ⟨InMemoryInner.push_wf h.wf hf, fun m hm => ?_, ?_⟩
  · rw [hlist] at hm
    rcases List.mem_append.mp hm with hm | hm
    · exact h.reads m hm
    · rwa [List.mem_singleton.mp hm]
  · simp [hlist, h.file, ht.line_eq, journal_append]

theorem append_duplicate {n : AgentNode X} (hr : codec.Reads n) (hf : s.inner.nodes n.agentId ≠ none) (w : Write) :
    s.append codec w n = (.error (InMemoryInner.duplicate n.agentId), s) := by
  obtain ⟨text, ht⟩ := hr
  obtain ⟨m, hm⟩ := Option.ne_none_iff_exists'.mp hf
  simp [append, ht.written, hm]

end JsonlLineage

/-! ## Lines of the pinned node -/

namespace Reference

/-- The pinned node under another id: the ledger does not verify what it is given. -/
def renamed : AgentNode Reference :=
  { snapshotNode with agentId := "renamed" }

/-- What stands behind the id in the pinned node's line. -/
def lineParts : List String := [
  "\",\"parent_id\":null,\"generation\":0,\"created_at\":\"2026-01-01T00:00:00Z\",",
  "\"mutation_intent\":\x7b\"goal\":\"genesis\",\"rationale\":\"\",",
  "\"expected_improvement\":null,\"constraints\":[],\"metadata\":null\x7d,",
  "\"capability_sbom\":[],\"eval_results\":null,\"mutation_diff\":\"\",",
  "\"allowed_scope\":\x7b\"allowed_tools\":[],\"allowed_mcp_servers\":[],\"allowed_delegates\":[],",
  "\"max_generation\":null,\"gated_capabilities\":[]\x7d,",
  "\"artifact\":\x7b\"manifest\":\x7b\"name\":\"root\",\"model\":null,\"instructions\":null,\"tools\":[],",
  "\"mcp_servers\":[],\"knowledge\":null,\"delegates\":[]\x7d\x7d,",
  "\"signer_public_key\":\"ea4a6c63e29c520abef5507b132ec5f9954776aebebe7b92421eea691446d22c\",",
  "\"signature\":\"bc22603587a6bccb97e7a85b7a73aca10939a371ce91ee2b3896f4b39a01f291",
  "949aa0cb899c0c29221ee18758e2972e0f7088909b4d37f78877c3710d1c6701\",",
  "\"status\":\"promoted\",\"parent_agent_success\":true,\"valid_parent\":true,\"eval_stage\":null\x7d"]

/-- The line of a node with this id. -/
def lineWith (id : AgentId) (parts : List String) : String := "\x7b\"agent_id\":\"" ++ id ++ String.join parts

def lineOf (id : AgentId) : String := lineWith id lineParts

/-- serde_json on these two nodes and their lines. -/
def codec : NodeCodec Reference where
  toString n := .ok (lineOf n.agentId)
  fromStr s :=
    if s = lineOf snapshotNode.agentId then .ok snapshotNode
    else if s = lineOf renamed.agentId then .ok renamed
    else .error "expected value at line 1 column 1"

theorem lineOf_injective {a b : AgentId} (h : lineOf a = lineOf b) : a = b := by
  simpa [lineOf, lineWith, ← String.toList_inj] using h

/-- Ids of one length end where the rest of the line begins. -/
theorem lineWith_id {a b : AgentId} {parts parts' : List String} (hlen : a.toList.length = b.toList.length)
    (h : lineWith a parts = lineWith b parts') : a = b := by
  have h := congrArg String.toList h
  simp only [lineWith, String.toList_append, List.append_assoc, List.append_cancel_left_eq] at h
  exact String.toList_inj.mp (List.append_inj h hlen).1

/-- Nothing in a text is a control character. -/
def plain (s : String) : Bool := s.toList.all fun c => ' ' ≤ c

theorem plain_ofList {l : List Char} (h : l.all (' ' ≤ ·) = true) : plain (String.ofList l) = true := by
  rwa [plain, String.toList_ofList]

theorem lineParts_plain : lineParts.all plain = true := by
  simp only [lineParts, List.all_cons, List.all_nil, Bool.and_true, Bool.and_eq_true]
  refine ⟨?_, ?_, ?_, ?_, ?_, ?_, ?_, ?_, ?_, ?_, ?_, ?_⟩
  -- a literal is the string of its characters
  all_goals exact plain_ofList (by decide +kernel)

theorem lineWith_plain {id : AgentId} {parts : List String} (hid : plain id = true) (hparts : parts.all plain = true) :
    plain (lineWith id parts) = true := by
  have hhead : plain "\x7b\"agent_id\":\"" = true := by decide
  simp only [plain, lineWith, String.toList_append, String.toList_join, List.all_append, List.all_flatMap,
    Bool.and_eq_true] at *
  exact ⟨⟨hhead, hid⟩, hparts⟩

theorem plain_not_mem {s : String} (h : plain s = true) {c : Char} (hc : ¬ ' ' ≤ c) : c ∉ s.toList :=
  fun hm => hc (of_decide_eq_true (List.all_eq_true.mp h c hm))

theorem lineWith_object (id : AgentId) (parts : List String) : '{' ∈ (lineWith id parts).toList := by
  rw [lineWith, String.toList_append, String.toList_append]
  exact List.mem_append_left _ (List.mem_append_left _ (by decide))

theorem lineOf_reads {n : AgentNode Reference} (hid : plain n.agentId = true)
    (hr : codec.fromStr (lineOf n.agentId) = .ok n) : codec.Reads n :=
  ⟨lineOf n.agentId, rfl, hr, lineWith_object _ _, plain_not_mem (lineWith_plain hid lineParts_plain) (by decide),
    plain_not_mem (lineWith_plain hid lineParts_plain) (by decide)⟩

theorem snapshot_reads : codec.Reads snapshotNode :=
  lineOf_reads (by decide +kernel) (by simp only [codec, if_true])

theorem renamed_reads : codec.Reads renamed := by
  have hne : lineOf renamed.agentId ≠ lineOf snapshotNode.agentId :=
    fun h => absurd (lineOf_injective h) (by decide +kernel)
  exact lineOf_reads (by decide) (by simp only [codec, hne, if_false, if_true])

end Reference

end RigVeh
