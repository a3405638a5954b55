/-
  RigVeh.Ledger.Dot — the ledger as a Graphviz graph (`export_dot`, `src/ledger.rs`).

  `export_dot` prints the JSON export: a line for each node, and behind it a line for its
  parent if it has one. `graph` is how statements are printed, and `exportDot_some` that
  what is printed is what each node says (`statements`), with no default used.

  `readDot` reads such a text back, and reads a list from a text just when the list is
  printed to that text and has nothing in it that would need an escape (`readDot_iff`).
  Ids in hex need none, so the graph of a ledger with such ids tells each node's id,
  parent, generation and status (`export_dot_exact`). `JsonlLineage` exports its inner
  ledger by the same code.
-/

import RigVeh.Base.Scan
import RigVeh.Ledger.Log
import RigVeh.Reference

namespace RigVeh

open RigVeh.Json RigVeh.Base

variable {X : Crates}

/-! ## The export -/

/-- What the loop of `export_dot` appends for a node. -/
def pushNode (out : String) (node : Tree) : String :=
  let id := ((node.get "agent_id").bind Tree.asStr).getD "?"
  let generation := ((node.get "generation").bind Tree.asU64).getD 0
  let status := ((node.get "status").bind Tree.asStr).getD "promoted"
  let short := String.ofList (id.toList.take 8)
  let out := out ++ "  \"" ++ id ++ "\" [label=\"gen=" ++ toString generation ++ "\\n" ++ status ++ "\\n" ++ short
    ++ "\"];\n"
  match (node.get "parent_id").bind Tree.asStr with
  | some parent => out ++ "  \"" ++ parent ++ "\" -> \"" ++ id ++ "\";\n"
  | none => out

/-- `export_dot` on a store whose `export_dag_json` answers `dag`. -/
def exportDot (dag : Except Error Value) : Except Error String := do
  let dag ← dag
  match (dag.1.get "nodes").bind Tree.asArray with
  | some nodes => return nodes.foldl pushNode "digraph lineage \x7b\n" ++ "\x7d\n"
  | none => .error (.ledger "dag export missing nodes")

/-- `export_dot` on the in-memory ledger. -/
def InMemoryInner.exportDot (s : InMemoryInner X) : Option (Except Error String) :=
  s.exportDagJson.map fun dag => RigVeh.exportDot (.ok dag)

namespace Dot

/-! ## Statements -/

inductive Statement where
  | node (id : String) (generation : Nat) (status short : String)
  | edge (parent id : String)
  deriving DecidableEq, Repr

namespace Statement

def text : Statement → String
  | node id generation status short =>
    "  \"" ++ id ++ "\" [label=\"gen=" ++ toString generation ++ "\\n" ++ status ++ "\\n" ++ short ++ "\"];\n"
  | edge parent id => "  \"" ++ parent ++ "\" -> \"" ++ id ++ "\";\n"

def IsEdge : Statement → Prop
  | edge .. => True
  | node .. => False

end Statement

/-- The statements `export_dot` makes of a node. -/
def statements (n : AgentNode X) : List Statement :=
  .node n.agentId n.generation.toNat n.status.name (String.ofList (n.agentId.toList.take 8)) ::
    (n.parentId.map (.edge · n.agentId)).toList

def graph (l : List Statement) : String := "digraph lineage \x7b\n" ++ String.join (l.map Statement.text) ++ "\x7d\n"

/-- A field of a node's serde form. -/
theorem field_get {n : AgentNode X} {w : Value} (h : n.toValue = .ok w) {k : String} {v : Value}
    (hk : ∀ artifact, (k, v) ∈ n.entries artifact) : w.1.get k = some v.1 := by
  obtain ⟨artifact, -, hw⟩ := Prog.bind_ok h
  cases hw
  refine Tree.lookup_eq_some_of_mem ?_ (List.mem_map.mpr ⟨(k, v), hk artifact, rfl⟩)
  rw [List.map_map]
  exact n.entries_nodup artifact

/-- No default is used on what a node is exported as. -/
theorem pushNode_text {n : AgentNode X} {w : Value} (h : n.toValue = .ok w) (out : String) :
    pushNode out w.1 = out ++ String.join ((statements n).map Statement.text) := by
  have hid : (w.1.get "agent_id").bind Tree.asStr = some n.agentId := by
    rw [field_get (v := .string n.agentId) h fun _ => by simp [AgentNode.entries]]
    rfl
  have hgeneration : (w.1.get "generation").bind Tree.asU64 = some n.generation.toUInt64 := by
    rw [field_get (v := .ofU32 n.generation) h fun _ => by simp [AgentNode.entries]]
    rfl
  have hstatus : (w.1.get "status").bind Tree.asStr = some n.status.name := by
    rw [field_get (v := n.status.toValue) h fun _ => by simp [AgentNode.entries]]
    rfl
  have hparent : (w.1.get "parent_id").bind Tree.asStr = n.parentId := by
    rw [field_get (v := .ofOption .string n.parentId) h fun _ => by simp [AgentNode.entries]]
    cases n.parentId <;> rfl
  have hshown : toString n.generation.toUInt64 = toString n.generation.toNat := by
    rw [← UInt32.toNat_toUInt64]
    rfl
  simp only [pushNode, statements, hid, hgeneration, hstatus, hparent, hshown, Option.getD_some]
  cases n.parentId with
  | none =>
    simp only [Option.map_none, Option.toList_none, List.map_cons, List.map_nil, String.join_cons, String.join_nil,
      String.append_empty, Statement.text, String.append_assoc]
  | some parent =>
    simp only [Option.map_some, Option.toList_some, List.map_cons, List.map_nil, String.join_cons, String.join_nil,
      String.append_empty, Statement.text, String.append_assoc]

theorem foldl_pushNode {l : List (AgentNode X)} {vs : List Value} (h : List.Forall₂ (fun n w => n.toValue = .ok w) l vs)
    (out : String) :
    (vs.map (·.1)).foldl pushNode out = out ++ String.join ((l.flatMap statements).map Statement.text) := by
  induction h generalizing out with
  | nil => exact String.append_empty.symm
  | cons hn _ ih =>
    rw [List.map_cons, List.foldl_cons, pushNode_text hn, ih, List.flatMap_cons, List.map_append, String.join_append,
      String.append_assoc]

/-- There is a graph if every node has a serde form, and it is that of the nodes'
    statements. -/
theorem exportDot_some {s : InMemoryInner X} {r : Except Error String} : s.exportDot = some r ↔
    (∀ n ∈ s.list, ∃ w, n.toValue = .ok w) ∧ r = .ok (graph (s.list.flatMap statements)) := by
  have hgraph {v : Value} {vs : List Value} (hvs : List.Forall₂ (fun n w => n.toValue = .ok w) s.list vs)
      (hnodes : v.1.get "nodes" = some (.array (vs.map (·.1)))) :
      RigVeh.exportDot (.ok v) = .ok (graph (s.list.flatMap statements)) := by
    simp only [RigVeh.exportDot, Prog.ok_bind, hnodes, Option.bind_some, Tree.asArray, foldl_pushNode hvs]
    rfl
  rw [InMemoryInner.exportDot, Option.map_eq_some_iff, ← InMemoryInner.exists_forall₂]
  constructor
  · intro ⟨v, hv, hr⟩
    obtain ⟨vs, hvs, rfl⟩ := InMemoryInner.exportDagJson_some.mp hv
    exact ⟨⟨vs, hvs⟩, hr.symm.trans (hgraph hvs rfl)⟩
  · intro ⟨⟨vs, hvs⟩, hr⟩
    exact ⟨_, InMemoryInner.exportDagJson_some.mpr ⟨vs, hvs, rfl⟩, (hgraph hvs rfl).trans hr.symm⟩

/-! ## Reading a graph -/

/-- What stands in a quoted text as it is. -/
def isPlain (c : Char) : Bool := c != '"' && c != '\\'

def Plain (s : String) : Prop := ∀ c ∈ s.toList, isPlain c = true

instance (s : String) : Decidable (Plain s) := List.decidableBAll _ _

def Statement.Plain : Statement → Prop
  | node id _ status short => Dot.Plain id ∧ Dot.Plain status ∧ Dot.Plain short
  | edge parent id => Dot.Plain parent ∧ Dot.Plain id

/-- `l` is printed as this text, and none of it would need an escape. -/
structure Spells (l : List Statement) (text : String) : Prop where
  printed : text = graph l
  plain : ∀ x ∈ l, x.Plain

open Scan

def plain (close : String) : Scan Char String := do
  let cs ← upTo isPlain close.toList
  return .ofList cs

/-- A decimal as it is printed, so without leading zeros. -/
def number (close : String) : Scan Char Nat := do
  let cs ← upTo Char.isDigit close.toList
  let n := Nat.ofDigitChars 10 cs 0
  ofOption (if Nat.toDigits 10 n = cs then some n else none)

def nodeRest (id : String) : Scan Char Statement := do
  literal "[label=\"gen=".toList
  let generation ← number "\\n"
  let status ← plain "\\n"
  let short ← plain "\"];\n"
  return .node id generation status short

def edgeRest (parent : String) : Scan Char Statement := do
  literal "-> \"".toList
  let id ← plain "\";\n"
  return .edge parent id

def statement : Scan Char Statement := do
  literal "  \"".toList
  let id ← plain "\" "
  nodeRest id <|> edgeRest id

def readDot (text : String) : Option (List Statement) := do
  let (_, u) ← (literal "digraph lineage \x7b\n".toList).run text.toList
  readAll statement "\x7d\n".toList u.length u

section

variable {u t : List Char}

theorem plain_run {close s : String} (hclose : close.toList.head?.all isPlain = false) :
    (plain close).run u = some (s, t) ↔ u = s.toList ++ close.toList ++ t ∧ Plain s := by
  simp only [plain, bind_run, upTo_run hclose, pure_run]
  constructor
  · intro hread
    obtain ⟨cs, _, ⟨rfl, hcs⟩, rfl, rfl⟩ := hread
    rw [Plain, String.toList_ofList]
    exact ⟨rfl, hcs⟩
  · intro hwritten
    obtain ⟨rfl, hs⟩ := hwritten
    exact ⟨s.toList, t, ⟨rfl, hs⟩, String.ofList_toList.symm, rfl⟩

theorem number_run {close : String} {n : Nat} (hclose : close.toList.head?.all Char.isDigit = false) :
    (number close).run u = some (n, t) ↔ u = (toString n).toList ++ close.toList ++ t := by
  rw [Nat.toString_eq_repr, Nat.toList_repr]
  simp only [number, bind_run, upTo_run hclose, ofOption_run]
  constructor
  · intro hread
    obtain ⟨cs, _, ⟨rfl, -⟩, hn, rfl⟩ := hread
    split at hn
    · next hcs =>
      cases hn
      rw [hcs]
    · cases hn
  · intro hwritten
    subst hwritten
    refine ⟨Nat.toDigits 10 n, t, ⟨rfl, fun c hc => Nat.isDigit_of_mem_toDigits (by decide) (by decide) hc⟩, ?_, rfl⟩
    rw [Nat.ofDigitChars_ten_toDigits, if_pos rfl]

theorem nodeRest_run {id : String} {x : Statement} : (nodeRest id).run u = some (x, t) ↔
    ∃ generation status short, x = .node id generation status short ∧ Plain status ∧ Plain short ∧
      u = "[label=\"gen=".toList ++ (toString generation).toList ++ "\\n".toList ++ status.toList ++ "\\n".toList
        ++ short.toList ++ "\"];\n".toList ++ t := by
  have hdigits : "\\n".toList.head?.all Char.isDigit = false := by decide
  have hstatus : "\\n".toList.head?.all isPlain = false := by decide
  have hshort : "\"];\n".toList.head?.all isPlain = false := by decide
  simp only [nodeRest, bind_run, literal_run, number_run hdigits, plain_run hstatus, plain_run hshort, pure_run]
  constructor
  · intro hread
    obtain ⟨_, _, rfl, generation, _, rfl, status, _, ⟨rfl, hs⟩, short, _, ⟨rfl, ht⟩, rfl, rfl⟩ := hread
    refine ⟨generation, status, short, rfl, hs, ht, ?_⟩
    simp only [List.append_assoc]
  · intro hwritten
    obtain ⟨generation, status, short, rfl, hs, ht, rfl⟩ := hwritten
    refine ⟨(), _, ?_, generation, _, rfl, status, _, ⟨rfl, hs⟩, short, t, ⟨rfl, ht⟩, rfl, rfl⟩
    simp only [List.append_assoc]

theorem edgeRest_run {parent : String} {x : Statement} : (edgeRest parent).run u = some (x, t) ↔
    ∃ id, x = .edge parent id ∧ Plain id ∧ u = "-> \"".toList ++ id.toList ++ "\";\n".toList ++ t := by
  have hid : "\";\n".toList.head?.all isPlain = false := by decide
  simp only [edgeRest, bind_run, literal_run, plain_run hid, pure_run]
  constructor
  · intro hread
    obtain ⟨_, _, rfl, id, _, ⟨rfl, hs⟩, rfl, rfl⟩ := hread
    refine ⟨id, rfl, hs, ?_⟩
    simp only [List.append_assoc]
  · intro hwritten
    obtain ⟨id, rfl, hs, rfl⟩ := hwritten
    refine ⟨(), _, ?_, id, t, ⟨rfl, hs⟩, rfl, rfl⟩
    simp only [List.append_assoc]

/-- A statement is a node's or an edge's by what stands behind its first id. -/
theorem rest_disjoint {id : String} {x y : Statement × List Char} (h : (nodeRest id).run u = some x) :
    (edgeRest id).run u ≠ some y := by
  intro h'
  obtain ⟨_, _, _, -, -, -, hnode⟩ := nodeRest_run.mp h
  obtain ⟨_, -, -, hedge⟩ := edgeRest_run.mp h'
  have hhead := congrArg List.head? (hnode.symm.trans hedge)
  simp at hhead

theorem node_chars (id : String) (generation : Nat) (status short : String) (t : List Char) :
    (Statement.node id generation status short).text.toList ++ t = "  \"".toList ++ (id.toList ++ "\" ".toList ++
      ("[label=\"gen=".toList ++ (toString generation).toList ++ "\\n".toList ++ status.toList ++ "\\n".toList
        ++ short.toList ++ "\"];\n".toList ++ t)) := by
  simp [Statement.text]

theorem edge_chars (parent id : String) (t : List Char) :
    (Statement.edge parent id).text.toList ++ t =
      "  \"".toList ++ (parent.toList ++ "\" ".toList ++ ("-> \"".toList ++ id.toList ++ "\";\n".toList ++ t)) := by
  simp [Statement.text]

theorem statement_scans : Scans statement (fun x => x.text.toList) Statement.Plain := by
  have hid : "\" ".toList.head?.all isPlain = false := by decide
  intro u x t
  simp only [statement, bind_run, literal_run, plain_run hid, orElse_run fun _ _ => rest_disjoint, nodeRest_run,
    edgeRest_run]
  constructor
  · intro hread
    obtain ⟨_, _, rfl, id, _, ⟨rfl, hid⟩, hrest⟩ := hread
    rcases hrest with hnode | hedge
    · obtain ⟨generation, status, short, rfl, hs, ht, rfl⟩ := hnode
      exact ⟨(node_chars ..).symm, hid, hs, ht⟩
    · obtain ⟨child, rfl, hc, rfl⟩ := hedge
      exact ⟨(edge_chars ..).symm, hid, hc⟩
  · intro hwritten
    obtain ⟨rfl, hx⟩ := hwritten
    cases x with
    | node id generation status short =>
      obtain ⟨hid, hs, ht⟩ := hx
      exact ⟨(), _, node_chars .., id, _, ⟨rfl, hid⟩, .inl ⟨generation, status, short, rfl, hs, ht, rfl⟩⟩
    | edge parent id =>
      obtain ⟨hp, hid⟩ := hx
      exact ⟨(), _, edge_chars .., parent, _, ⟨rfl, hp⟩, .inr ⟨id, rfl, hid, rfl⟩⟩

end

/-- What a statement begins with. -/
theorem statement_head (x : Statement) : x.text.toList.head? = some ' ' := by
  cases x <;> simp [Statement.text]

theorem frame_chars (first last : String) (l : List Statement) :
    (first ++ String.join (l.map Statement.text) ++ last).toList =
      first.toList ++ (l.flatMap (fun x => x.text.toList) ++ last.toList) := by
  rw [String.toList_append, String.toList_append, String.toList_join, List.flatMap_map, List.append_assoc]

theorem graph_chars (l : List Statement) : (graph l).toList =
    "digraph lineage \x7b\n".toList ++ (l.flatMap (fun x => x.text.toList) ++ "\x7d\n".toList) :=
  frame_chars _ _ l

theorem readDot_iff {text : String} {l : List Statement} : readDot text = some l ↔ Spells l text := by
  have hne (x : Statement) : x.text.toList ≠ [] := by
    intro h
    simpa [h] using statement_head x
  have hclose (x : Statement) (t : List Char) : x.text.toList ++ t ≠ "\x7d\n".toList := by
    intro h
    have hhead := congrArg List.head? h
    simp [List.head?_append, statement_head] at hhead
  have hread (u : List Char) : readAll statement "\x7d\n".toList u.length u = some l ↔
      u = l.flatMap (fun x => x.text.toList) ++ "\x7d\n".toList ∧ ∀ x ∈ l, x.Plain :=
    readAll_iff statement_scans hne hclose le_rfl
  rw [readDot, Option.bind_eq_bind, Option.bind_eq_some_iff]
  constructor
  · intro h
    obtain ⟨⟨_, u⟩, hheader, hbody⟩ := h
    obtain ⟨hu, hl⟩ := (hread u).mp hbody
    refine ⟨String.toList_injective ?_, hl⟩
    rw [graph_chars, ← hu]
    exact literal_run.mp hheader
  · intro h
    exact ⟨((), _), literal_run.mpr (h.printed ▸ graph_chars l), (hread _).mpr ⟨rfl, h.plain⟩⟩

/-! ## What is read off a ledger -/

/-- Lowercase hex. -/
def Hex (id : String) : Prop := ∀ c ∈ id.toList, c ∈ "0123456789abcdef".toList

instance (id : String) : Decidable (Hex id) := List.decidableBAll _ _

structure HexIds (s : InMemoryInner X) : Prop where
  agentIds : ∀ n ∈ s.list, Hex n.agentId
  parentIds : ∀ n ∈ s.list, ∀ parent ∈ n.parentId, Hex parent

/-- What the graph shows of a node. -/
def row (n : AgentNode X) : AgentId × Option AgentId × UInt32 × NodeStatus :=
  (n.agentId, n.parentId, n.generation, n.status)

theorem Hex.plain {id : String} (h : Hex id) : Plain id := by
  have hdigits : Plain "0123456789abcdef" := by decide
  intro c hc
  exact hdigits c (h c hc)

theorem statements_plain {n : AgentNode X} (hid : Plain n.agentId) (hparent : ∀ parent ∈ n.parentId, Plain parent) :
    ∀ x ∈ statements n, x.Plain := by
  have hstatus : Plain n.status.name := by cases n.status <;> decide
  have hshort : Plain (String.ofList (n.agentId.toList.take 8)) := by
    intro c hc
    rw [String.toList_ofList] at hc
    exact hid c (List.mem_of_mem_take hc)
  intro x hx
  rcases List.mem_cons.mp hx with hnode | hedge
  · subst hnode
    exact ⟨hid, hstatus, hshort⟩
  · obtain ⟨parent, hp, rfl⟩ := Option.map_eq_some_iff.mp (Option.mem_toList.mp hedge)
    exact ⟨hparent parent hp, hid⟩

/-- The statements of a node end where the next node's begin. -/
theorem statements_cut (n : AgentNode X) :
    CutAt statements (fun _ => True) (fun n n' => row n = row n') (Ends Statement.IsEdge) n := by
  intro n' t t' _ ht ht' h
  rw [statements, statements, List.cons_append, List.cons_append, List.cons.injEq] at h
  obtain ⟨hnode, hedges⟩ := h
  obtain ⟨hid, hgeneration, hstatus, -⟩ := Statement.node.inj hnode
  have hedge (m : AgentNode X) : ∀ x ∈ (m.parentId.map (Statement.edge · m.agentId)).toList, x.IsEdge := by
    intro x hx
    obtain ⟨parent, -, rfl⟩ := Option.map_eq_some_iff.mp (Option.mem_toList.mp hx)
    trivial
  obtain ⟨hparents, hrest⟩ := span_cut (hedge n) (hedge n') ht ht' hedges
  have hparent : n.parentId = n'.parentId := by
    rw [hid] at hparents
    have hedges := congrArg List.head? hparents
    rw [Option.head?_toList, Option.head?_toList] at hedges
    exact Option.map_injective (fun _ _ he => (Statement.edge.inj he).1) hedges
  have hname : n.status = n'.status := NodeStatus.toValue_injective ((Value.string_equiv _ _).mpr hstatus)
  refine ⟨?_, hrest⟩
  simp only [row, hid, hparent, UInt32.toNat_inj.mp hgeneration, hname]

theorem statements_injective {l l' : List (AgentNode X)} (h : l.flatMap statements = l'.flatMap statements) :
    l.map row = l'.map row := by
  have hstop (l : List (AgentNode X)) : Ends Statement.IsEdge (l.flatMap statements) := by
    cases l with
    | nil => exact ends_nil _
    | cons n l => exact (ends_cons ..).mpr id
  rw [← List.forall₂_eq_eq_eq, List.forall₂_map_left_iff, List.forall₂_map_right_iff]
  exact flatMap_cut hstop (fun n => List.cons_ne_nil _ _) (fun n _ => statements_cut n) (fun _ _ => trivial) h

theorem HexIds.spells {s : InMemoryInner X} (h : HexIds s) :
    Spells (s.list.flatMap statements) (graph (s.list.flatMap statements)) where
  printed := rfl
  plain x hx := by
    obtain ⟨n, hn, hx⟩ := List.mem_flatMap.mp hx
    exact statements_plain (h.agentIds n hn).plain (fun parent hp => (h.parentIds n hn parent hp).plain) x hx

/-- A ledger with ids in hex is exported to a text that reads back to one node statement
    for each node, in order, with its edge behind it where it has a parent, and to
    nothing else; ledgers exported to the same text have the same rows. Every ledger is
    exported whose nodes have a serde form. -/
theorem export_dot_exact {s : InMemoryInner X} (hs : HexIds s) :
    ((∃ r, s.exportDot = some r) ↔ ∀ n ∈ s.list, ∃ v, n.toValue = .ok v) ∧
      (∀ r, s.exportDot = some r → ∃ text, r = .ok text ∧ readDot text = some (s.list.flatMap statements) ∧
        ∀ l, Spells l text ↔ l = s.list.flatMap statements) ∧
      ∀ s' : InMemoryInner X, HexIds s' → ∀ text, s.exportDot = some (.ok text) → s'.exportDot = some (.ok text) →
        s.list.map row = s'.list.map row := by
  have hread : readDot (graph (s.list.flatMap statements)) = some (s.list.flatMap statements) := readDot_iff.mpr hs.spells
  refine ⟨?_, ?_, ?_⟩
  · simp only [exportDot_some, exists_and_left, exists_eq, and_true]
  · intro r hr
    obtain ⟨-, rfl⟩ := exportDot_some.mp hr
    refine ⟨_, rfl, hread, ?_⟩
    intro l
    rw [← readDot_iff, hread, Option.some.injEq, eq_comm]
  · intro s' hs' text h h'
    obtain ⟨-, htext⟩ := exportDot_some.mp h
    obtain ⟨-, htext'⟩ := exportDot_some.mp h'
    cases htext
    have hread' := readDot_iff.mpr hs'.spells
    rw [← Except.ok.inj htext', hread] at hread'
    exact statements_injective (Option.some.inj hread')

end Dot

namespace Reference

open Dot

def rejectedChild : AgentNode Reference :=
  { snapshotNode with agentId := "0badcafe90", parentId := some snapshotNode.agentId, generation := 1, status := .rejected }

def branchedLedger : InMemoryInner Reference := .push (.push .default snapshotNode) rejectedChild

theorem branchedLedger_list : branchedLedger.list = [snapshotNode, rejectedChild] := by
  have hne : rejectedChild.agentId ≠ snapshotNode.agentId := by decide
  have hroot : (InMemoryInner.push .default snapshotNode).Wf := InMemoryInner.push_wf InMemoryInner.default_wf rfl
  have hfresh : (InMemoryInner.push .default snapshotNode).nodes rejectedChild.agentId = none :=
    InMemoryInner.push_ne _ _ hne
  rw [branchedLedger, InMemoryInner.list_push hroot hfresh, InMemoryInner.list_push InMemoryInner.default_wf rfl]
  rfl

theorem branchedLedger_hex : HexIds branchedLedger where
  agentIds := by
    rw [branchedLedger_list]
    decide
  parentIds := by
    rw [branchedLedger_list]
    decide

/-- The root, its child and the edge between them; every ledger with this graph has their
    rows. -/
theorem branchedLedger_graphed : ∃ text, branchedLedger.exportDot = some (.ok text) ∧
    readDot text = some [
      .node snapshotNode.agentId 0 "promoted" "d75a8c0e",
      .node "0badcafe90" 1 "rejected" "0badcafe",
      .edge snapshotNode.agentId "0badcafe90"] ∧
    ∀ s : InMemoryInner Reference, HexIds s → s.exportDot = some (.ok text) → s.list.map row = [
      (snapshotNode.agentId, none, 0, .promoted),
      ("0badcafe90", some snapshotNode.agentId, 1, .rejected)] := by
  obtain ⟨hdefined, hread, hunique⟩ := export_dot_exact branchedLedger_hex
  rw [branchedLedger_list] at hdefined hread hunique
  obtain ⟨r, hr⟩ := hdefined.mpr fun n _ => ⟨_, toValue_form manifestToValue_eq n⟩
  obtain ⟨text, rfl, hstatements, -⟩ := hread r hr
  refine ⟨text, hr, ?_, ?_⟩
  · rw [hstatements]
    rfl
  · intro s hs h
    exact (hunique s hs text hr h).symm

end Reference

end RigVeh
