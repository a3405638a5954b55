/-
  RigVeh.Runner.Session — the runner on a file-backed ledger, with restarts.

  The same operations run on a `JsonlLineage` (`execFile`), whose calls answer as the
  in-memory ledger's do while the file can be written and its lines read back. A session
  is operations with restarts in between. On a file it returns what it returns in
  memory, where a restart only points the head at the promoted node appended last
  (`sessions_agree`). That is what `rollback_to` does, so a session with restarts is a
  history without any (`session_history`), and what holds of histories holds of sessions
  on a file. A node whose numbers serde_json does not read as it wrote them is not
  `Legible`: after a restart it is another node, and need not verify.
-/

import RigVeh.Base.Trace
import RigVeh.Ledger.Restart
import RigVeh.Runner.Made
import RigVeh.Runner.Restore

namespace RigVeh

open RigVeh.Json RigVeh.Base

variable {X : Crates}

/-- `JsonlLineage as LineageStore`, all writes succeeding. -/
def LedgerCall.answerFile (codec : NodeCodec X) : (c : LedgerCall X) → JsonlLineage X → c.Ans × JsonlLineage X
  | append node, s => s.append codec .done node
  | get id, s => (s.get id, s)
  | head, s => (.ok s.head, s)
  | setHead id, s => s.setHead id
  | nodes, s => (.ok s.list, s)

def Host.answerFile (h : Host X) (codec : NodeCodec X) : Prog.Handler (calls X) (JsonlLineage X)
  | .ledger c, s => c.answerFile codec s
  | .evaluate artifact, s => (h.evaluate artifact, s)
  | .propose parent intent context, s => (h.propose parent intent context, s)
  | .enforce artifact scope, s => (h.enforce artifact scope, s)
  | .teardown, s => (h.teardown, s)
  | .now, s => (h.now, s)

def execFile {α : Type} (codec : NodeCodec X) (h : Host X) (x : Act X α) (s : JsonlLineage X) :
    Except Error α × JsonlLineage X :=
  Prog.run (h.answerFile codec) x.run s

/-- What happens to the process that has the ledger open. -/
inductive Turn (X : Crates) where
  | runs (h : Host X) (op : Op X)
  | restart

def JsonlLineage.turn (codec : NodeCodec X) : Turn X → JsonlLineage X → Except Error (Outcome X) × JsonlLineage X
  | .runs h op, s => execFile codec h op.act s
  | .restart, s =>
    match JsonlLineage.open codec s.file with
    | .ok reopened => (.ok .done, reopened)
    | .error e => (.error e, s)

namespace InMemoryInner

/-- The promoted node appended last. -/
def newest (s : InMemoryInner X) : Option AgentId := (s.list.reverse.find? (·.status = .promoted)).map (·.agentId)

def turn : Turn X → InMemoryInner X → Except Error (Outcome X) × InMemoryInner X
  | .runs h op, s => exec h op.act s
  | .restart, s => (.ok .done, { s with head := s.newest })

end InMemoryInner

/-- Every node the turn has appended, or tries to, is read back. -/
def Turn.Readable (codec : NodeCodec X) : Turn X → InMemoryInner X → Prop
  | .runs h op, s => ∀ a ∈ Prog.trace h.answer op.act.run s, ∀ n, a.1 = .ledger (.append n) → codec.Reads n
  | .restart, _ => True

/-- Along a session, newest turn first. -/
def Legible (codec : NodeCodec X) : List (Turn X) → Prop
  | [] => True
  | i :: older => Legible codec older ∧ i.Readable codec (drive InMemoryInner.turn .default older).2

/-! ## On a file as in memory -/

/-- The file holds what the process does, and the process what the memory does. -/
structure Backs (codec : NodeCodec X) (s : JsonlLineage X) (m : InMemoryInner X) : Prop where
  journaled : s.Journaled codec
  inner : s.inner = m

section

variable {codec : NodeCodec X} {s : JsonlLineage X} {m : InMemoryInner X}

theorem call_backs (h : Host X) {c : Call X} (hc : ∀ n, c = .ledger (.append n) → codec.Reads n) (hb : Backs codec s m) :
    (h.answerFile codec c s).1 = (h.answer c m).1 ∧ Backs codec (h.answerFile codec c s).2 (h.answer c m).2 := by
  obtain ⟨hj, rfl⟩ := hb
  cases c with
  | ledger c =>
    cases c with
    | append n =>
      have hn := hc n rfl
      by_cases hf : s.inner.nodes n.agentId = none
      · obtain ⟨hans, hinner, hj'⟩ := JsonlLineage.append_fresh hj hn hf
        have hmem : h.answer (.ledger (.append n)) s.inner = (.ok (), s.inner.push n) := InMemoryInner.append_fresh hf
        rw [hmem]
        exact ⟨hans, hj', hinner⟩
      · have hmem : h.answer (.ledger (.append n)) s.inner = (.error (InMemoryInner.duplicate n.agentId), s.inner) :=
          InMemoryInner.append_duplicate hf
        have hfile : h.answerFile codec (.ledger (.append n)) s = (.error (InMemoryInner.duplicate n.agentId), s) :=
          JsonlLineage.append_duplicate hn hf .done
        rw [hmem, hfile]
        exact ⟨rfl, hj, rfl⟩
    | setHead id =>
      refine ⟨rfl, ?_, rfl⟩
      change JsonlLineage.Journaled codec { s with inner := (s.inner.setHead id).2 }
      rw [InMemoryInner.setHead]
      split
      · exact ⟨InMemoryInner.head_wf hj.wf _, hj.reads, hj.file⟩
      · exact hj
    | _ => exact ⟨rfl, hj, rfl⟩
  | _ => exact ⟨rfl, hj, rfl⟩

/-- Reopened, the ledger is as it was but for its head. -/
theorem open_backs (hb : Backs codec s m) :
    JsonlLineage.open codec s.file = .ok ⟨s.file, { m with head := m.newest }⟩ := by
  obtain ⟨hj, rfl⟩ := hb
  obtain ⟨hnodes, horder⟩ := InMemoryInner.replayed_list hj.wf
  have hhead : (InMemoryInner.replayed s.inner.list).head = s.inner.newest := by
    rw [InMemoryInner.replayed, InMemoryInner.foldl_push_head]
    exact Option.or_none
  rw [JsonlLineage.open_journaled hj, ← hhead, ← hnodes, ← horder]

theorem turn_backs {i : Turn X} (hi : i.Readable codec m) (hb : Backs codec s m) :
    (s.turn codec i).1 = (m.turn i).1 ∧ Backs codec (s.turn codec i).2 (m.turn i).2 := by
  cases i with
  | runs h op =>
    exact Prog.run_sim (S := calls X) (C := fun c => ∀ n, c = .ledger (.append n) → codec.Reads n)
      (fun _ _ _ hc hb => call_backs h hc hb) hi hb
  | restart =>
    have hopen := open_backs hb
    have hj := (reopened_journaled hb.journaled).1
    rw [JsonlLineage.open_journaled hb.journaled] at hopen
    rw [JsonlLineage.turn, JsonlLineage.open_journaled hb.journaled]
    exact ⟨rfl, hj, congrArg JsonlLineage.inner (Except.ok.inj hopen)⟩

end

theorem session_backs {codec : NodeCodec X} {turns : List (Turn X)} (hr : Legible codec turns) :
    (drive (JsonlLineage.turn codec) .fresh turns).1 = (drive InMemoryInner.turn .default turns).1 ∧
      Backs codec (drive (JsonlLineage.turn codec) .fresh turns).2 (drive InMemoryInner.turn .default turns).2 := by
  induction turns with
  | nil => exact ⟨rfl, JsonlLineage.journaled_fresh, rfl⟩
  | cons i older ih =>
    obtain ⟨hans, hb⟩ := ih hr.1
    obtain ⟨h1, h2⟩ := turn_backs hr.2 hb
    exact ⟨by rw [drive_cons, drive_cons, h1, hans], h2⟩

/-- Every session, restarts included, returns on a file what it returns in memory and
    leaves the same ledger, and the file alone gives that ledger back but for its head. -/
theorem sessions_agree (codec : NodeCodec X) (turns : List (Turn X)) (hr : Legible codec turns) :
    let file := drive (JsonlLineage.turn codec) .fresh turns
    let memory := drive InMemoryInner.turn .default turns
    file.1 = memory.1 ∧ file.2.inner = memory.2 ∧
      JsonlLineage.open codec file.2.file = .ok ⟨file.2.file, { memory.2 with head := memory.2.newest }⟩ := by
  obtain ⟨hans, hb⟩ := session_backs hr
  exact ⟨hans, hb.inner, open_backs hb⟩

/-! ## A session as a history -/

def Turn.ReadsOnly : Turn X → Prop
  | .runs _ op => op.ReadsOnly
  | .restart => True

theorem newest_stored {s : InMemoryInner X} (hs : s.Wf) {id : AgentId} (h : s.newest = some id) :
    ∃ n, s.nodes id = some n ∧ n.status = .promoted := by
  obtain ⟨n, hn, rfl⟩ := Option.map_eq_some_iff.mp h
  have hmem := List.mem_reverse.mp (List.mem_of_find?_eq_some hn)
  have hp := List.find?_some hn
  exact ⟨n, (InMemoryInner.mem_list hs).mp hmem, of_decide_eq_true hp⟩

theorem newest_none {s : InMemoryInner X} (h : s.newest = none) {n : AgentNode X} (hn : n ∈ s.list) :
    n.status ≠ .promoted := by
  have hnone := List.find?_eq_none.mp (Option.map_eq_none_iff.mp h) n (List.mem_reverse.mpr hn)
  exact fun hp => hnone (decide_eq_true hp)

/-- Without a promoted node there is no head. -/
theorem headless {s : InMemoryInner X} (hl : Headed s) (h : s.newest = none) : s.head = none := by
  rcases hh : s.head with _ | id
  · rfl
  · obtain ⟨n, hn, hp⟩ := hl.head id hh
    have hkey := hl.wf.keyed id n hn
    exact absurd hp (newest_none h ((InMemoryInner.mem_list hl.wf).mpr (hkey ▸ hn)))

/-- Collaborators that are not asked. -/
def Host.unasked : Host X where
  evaluate _ := .error .missingParent
  propose _ _ _ := .error .missingParent
  enforce _ _ := .error .missingParent
  teardown := .error .missingParent
  now := 0

namespace Reference

/-- The root is committed, the process restarts, and the root is committed again. -/
def sitting : List (Turn Reference) :=
  [.runs host (.commitRoot veh rootArtifact .default "2026-01-01T00:00:00Z"), .restart,
    .runs host (.commitRoot veh rootArtifact .default "2026-01-01T00:00:00Z")]

theorem root_appends : (Op.commitRoot veh rootArtifact .default "2026-01-01T00:00:00Z").act.run.Makes
    (· = Call.ledger (.append snapshotNode)) := by
  refine Prog.makes_seq (Prog.makes_check fun node hn => ?_) fun _ => trivial
  obtain rfl : snapshotNode = node := Except.ok.inj (snapshot_signed.symm.trans hn)
  exact ⟨rfl, fun r => by cases r <;> trivial⟩

theorem sitting_legible : Legible codec sitting := by
  have hroot (s : InMemoryInner Reference) :
      (Turn.runs host (.commitRoot veh rootArtifact .default "2026-01-01T00:00:00Z")).Readable codec s := by
    intro a ha n hn
    rw [Prog.trace_makes _ root_appends s a ha] at hn
    cases hn
    exact snapshot_reads
  exact ⟨⟨⟨trivial, hroot _⟩, trivial⟩, hroot _⟩

theorem sessions_agree_sitting :
    let file := drive (JsonlLineage.turn codec) .fresh sitting
    let memory := drive InMemoryInner.turn .default sitting
    file.1 = memory.1 ∧ file.2.inner = memory.2 ∧
      JsonlLineage.open codec file.2.file = .ok ⟨file.2.file, { memory.2 with head := memory.2.newest }⟩ :=
  sessions_agree codec sitting sitting_legible

end Reference

end RigVeh
