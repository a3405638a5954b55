/-
  RigVeh.Ledger.Reread — a file-backed ledger whose nodes come back changed.

  serde_json does not read every node back as it was written: a non-finite improvement
  and a recorded `null` come back as nothing, an object with its keys in another order
  (`Rereads`). Such a node has the payload it had, so it is signed, verified and compared
  as before. `OnFile` relates a ledger that never leaves memory to one on a file: what
  the file-backed one holds, and what its lines were written of, are readings of the
  nodes of the other. Appending keeps this (`append_reread`), and so does opening the
  file again (`reopened_reread`), however often.
-/

import RigVeh.Base.Pair
import RigVeh.Identity.Record
import RigVeh.Ledger.Restart

namespace RigVeh

open RigVeh.Json RigVeh.Base RigVeh.Base.Prog

variable {X : Crates}

/-! ## Nodes -/

theorem AgentArtifact.SameForm.refl (hM : X.ManifestReads) (a : AgentArtifact X) : a.SameForm a := by
  obtain ⟨v, hv⟩ := hM.writes a.manifest
  exact ⟨⟨v, v, hv, hv, Value.equiv_refl v⟩, rfl⟩

theorem AgentArtifact.SameForm.trans {a b c : AgentArtifact X} (h : a.SameForm b) (h' : b.SameForm c) : a.SameForm c := by
  obtain ⟨v, w, hv, hw, hvw⟩ := h.manifest
  obtain ⟨w', u, hw', hu, hwu⟩ := h'.manifest
  obtain rfl : w = w' := Except.ok.inj (hw.symm.trans hw')
  exact ⟨⟨v, u, hv, hu, Value.equiv_trans hvw hwu⟩, h.sbom.trans h'.sbom⟩

theorem CommitInputs.Rereads.refl (hM : X.ManifestReads) (i : CommitInputs X) : i.Rereads i :=
  ⟨rfl, rfl, rfl, ⟨rfl, rfl, rfl, rfl, Value.equiv_refl _⟩, rfl, rfl, Value.equiv_refl _, .refl hM _, rfl, rfl, rfl, rfl⟩

theorem CommitInputs.Rereads.trans {i j k : CommitInputs X} (h : i.Rereads j) (h' : j.Rereads k) : i.Rereads k where
  parentId := h.parentId.trans h'.parentId
  generation := h.generation.trans h'.generation
  createdAt := h.createdAt.trans h'.createdAt
  mutationIntent := h.mutationIntent.trans h'.mutationIntent
  mutationDiff := h.mutationDiff.trans h'.mutationDiff
  allowedScope := h.allowedScope.trans h'.allowedScope
  evalResults := Value.equiv_trans h.evalResults h'.evalResults
  artifact := h.artifact.trans h'.artifact
  status := h.status.trans h'.status
  parentAgentSuccess := h.parentAgentSuccess.trans h'.parentAgentSuccess
  validParent := h.validParent.trans h'.validParent
  evalStage := h.evalStage.trans h'.evalStage

theorem AgentNode.Rereads.refl (hM : X.ManifestReads) (n : AgentNode X) : n.Rereads n :=
  ⟨.refl hM _, rfl, rfl, rfl, rfl⟩

theorem AgentNode.Rereads.trans {a b c : AgentNode X} (h : a.Rereads b) (h' : b.Rereads c) : a.Rereads c :=
  ⟨h.inputs.trans h'.inputs, h.agentId.trans h'.agentId, h.capabilitySbom.trans h'.capabilitySbom,
    h.signerPublicKey.trans h'.signerPublicKey, h.signature.trans h'.signature⟩

/-- What is signed is the payload. -/
theorem signNode_rereads {i j : CommitInputs X} (h : i.Rereads j) (k : X.SigningKey) :
    Matches AgentNode.Rereads (signNode i k) (signNode j k) := by
  obtain ⟨b, hi, hj⟩ := signingPayload_rereads h
  rw [signNode, signNode, hi, hj, ok_bind, ok_bind]
  refine .ok ⟨h, rfl, h.artifact.sbom, rfl, rfl⟩

/-! ## Ledgers -/

/-- The nodes of `s'` are those of `s`, read back. -/
structure InMemoryInner.Rereads (s s' : InMemoryInner X) : Prop where
  nodes : ∀ id, Option.Rel AgentNode.Rereads (s.nodes id) (s'.nodes id)
  order : s.insertionOrder = s'.insertionOrder
  head : s.head = s'.head

namespace InMemoryInner

section

variable {s s' : InMemoryInner X}

theorem Rereads.isSome (h : s.Rereads s') (id : AgentId) : (s.nodes id).isSome = (s'.nodes id).isSome := by
  have hid := h.nodes id
  generalize s.nodes id = o at hid ⊢
  generalize s'.nodes id = o' at hid ⊢
  cases hid <;> rfl

theorem Rereads.get (h : s.Rereads s') (id : AgentId) : Matches AgentNode.Rereads (s.get id) (s'.get id) := by
  have hid := h.nodes id
  unfold InMemoryInner.get
  generalize s.nodes id = o at hid ⊢
  generalize s'.nodes id = o' at hid ⊢
  cases hid with
  | none => exact .error _
  | some hn => exact .ok hn

theorem Rereads.list (h : s.Rereads s') : List.Forall₂ AgentNode.Rereads s.list s'.list := by
  rw [InMemoryInner.list, InMemoryInner.list, ← h.order]
  refine List.rel_filterMap (R := Eq) (fun id _ he => ?_) (List.forall₂_eq_eq_eq ▸ rfl)
  exact he ▸ h.nodes id

theorem Rereads.push (h : s.Rereads s') {n n' : AgentNode X} (hn : n.Rereads n') : (s.push n).Rereads (s'.push n') where
  nodes id := by
    by_cases hid : id = n.agentId
    · subst hid
      rw [push_same, hn.agentId, push_same]
      exact .some hn
    · rw [push_ne _ _ hid, push_ne _ _ (hn.agentId ▸ hid)]
      exact h.nodes id
  order := by simp only [InMemoryInner.push, h.order, hn.agentId]
  head := by
    have hstatus : n.status = n'.status := hn.inputs.status
    rw [push_head, push_head, hstatus, hn.agentId, h.head]

theorem Rereads.pointed (h : s.Rereads s') (id : Option AgentId) :
    Rereads { s with head := id } { s' with head := id } := ⟨h.nodes, h.order, rfl⟩

end

theorem default_rereads : (default : InMemoryInner X).Rereads default := ⟨fun _ => .none, rfl, rfl⟩

theorem replayed_rereads {l l' : List (AgentNode X)} (h : List.Forall₂ AgentNode.Rereads l l') :
    (replayed l).Rereads (replayed l') :=
  List.rel_foldl (P := Rereads) (R := AgentNode.Rereads) (fun _ _ hs _ _ hn => hs.push hn) default_rereads h

end InMemoryInner

/-! ## The file -/

namespace NodeCodec

/-- The node is written as one line, an object. -/
structure WrittenAs (codec : NodeCodec X) (n : AgentNode X) (line : String) : Prop where
  written : codec.toString n = .ok line
  object : '{' ∈ line.toList
  newline : '\n' ∉ line.toList
  carriage : '\r' ∉ line.toList

/-- On this node the codec is serde_json: a line is written, and read as a value that is
    the node's serde form but for the order of keys. So its numbers come back as they
    were written, which serde_json's default float parser does for most, not for all. -/
def Serde (codec : NodeCodec X) (n : AgentNode X) : Prop :=
  ∃ line, codec.WrittenAs n line ∧ ∃ v w, n.toValue = .ok v ∧ v ≈ w ∧ codec.fromStr line = AgentNode.read X w

variable {codec : NodeCodec X} {n : AgentNode X}

theorem Serde.gives (hM : X.ManifestReads) (h : codec.Serde n) :
    ∃ line n', codec.WrittenAs n line ∧ codec.fromStr line = .ok n' ∧ n.Rereads n' := by
  obtain ⟨line, hline, v, w, hv, hvw, hread⟩ := h
  choose form hform using hM.writes
  rw [toValue_form hform n] at hv
  cases hv
  obtain ⟨n', hn', hrereads⟩ := node_readsBack hM hform n w hvw
  exact ⟨line, n', hline, hread.trans hn', hrereads⟩

theorem WrittenAs.line_eq {text : String} (h : codec.WrittenAs n text) : codec.line n = utf8 text.toList := by
  rw [line, h.written]

theorem WrittenAs.oneLine {text : String} (h : codec.WrittenAs n text) :
    OneLine '\n'.toUInt8 '\r'.toUInt8 (codec.line n) := by
  rw [h.line_eq]
  refine ⟨fun hm => h.newline (utf8_ascii (by decide) hm), fun hl => h.carriage (utf8_ascii (by decide) ?_)⟩
  exact List.mem_of_getLast? hl

theorem WrittenAs.replayLine {text : String} (h : codec.WrittenAs n text) {n' : AgentNode X}
    (hread : codec.fromStr text = .ok n') (inner : InMemoryInner X) :
    JsonlLineage.replayLine codec (codec.line n) inner = .ok (inner.push n') := by
  have hblank : text.toList.all isWhitespace = false := List.all_eq_false.mpr ⟨'{', h.object, by decide⟩
  simp [JsonlLineage.replayLine, h.line_eq, fromUtf8_utf8, hblank, hread]

end NodeCodec

/-- `m` never left memory; what `s` holds, and what its file was written of, are
    readings of its nodes. -/
structure OnFile (codec : NodeCodec X) (m : InMemoryInner X) (s : JsonlLineage X) : Prop where
  wf : m.Wf
  inner : m.Rereads s.inner
  file : ∃ written, List.Forall₂ AgentNode.Rereads m.list written ∧ (∀ n ∈ written, codec.Serde n) ∧
    s.file.getD [] = journal '\n'.toUInt8 (written.map codec.line)

theorem fresh_reread {codec : NodeCodec X} : OnFile codec .default .fresh :=
  ⟨InMemoryInner.default_wf, InMemoryInner.default_rereads, [], .nil, by simp, rfl⟩

section

variable {codec : NodeCodec X} {m : InMemoryInner X} {s : JsonlLineage X}

theorem append_reread (hk : OnFile codec m s) {n n' : AgentNode X} (hn : n.Rereads n') (hserde : codec.Serde n') :
    (m.append n).1 = (s.append codec .done n').1 ∧ OnFile codec (m.append n).2 (s.append codec .done n').2 := by
  obtain ⟨line, hline, -⟩ := id hserde
  have hsome := hk.inner.isSome n'.agentId
  by_cases hf : m.nodes n.agentId = none
  · have hf' : s.inner.nodes n'.agentId = none := by
      rw [← Option.not_isSome_iff_eq_none, ← hsome, ← hn.agentId, hf]
      exact Bool.false_ne_true
    obtain ⟨written, hreads, hall, hfile⟩ := hk.file
    rw [InMemoryInner.append_fresh hf]
    simp only [JsonlLineage.append, hline.written, hf', Option.isSome_none, Bool.false_eq_true, if_false, true_and]
    refine ⟨InMemoryInner.push_wf hk.wf hf, hk.inner.push hn, written ++ [n'], ?_, ?_, ?_⟩
    · rw [InMemoryInner.list_push hk.wf hf]
      exact List.rel_append hreads (.cons hn .nil)
    · intro k hmem
      rcases List.mem_append.mp hmem with hmem | hmem
      · exact hall k hmem
      · rwa [List.mem_singleton.mp hmem]
    · simp [hfile, hline.line_eq, journal_append]
  · have hf' : (s.inner.nodes n'.agentId).isSome = true := by
      rw [← hsome, ← hn.agentId]
      exact Option.isSome_iff_ne_none.mpr hf
    rw [InMemoryInner.append_duplicate hf, JsonlLineage.append, hline.written]
    simp only [hf', if_true, hn.agentId]
    exact ⟨trivial, hk⟩

theorem setHead_reread (hk : OnFile codec m s) (id : AgentId) :
    (m.setHead id).1 = (s.setHead id).1 ∧ OnFile codec (m.setHead id).2 (s.setHead id).2 := by
  have hsome := hk.inner.isSome id
  simp only [JsonlLineage.setHead, InMemoryInner.setHead, ← hsome]
  split
  · exact ⟨rfl, InMemoryInner.head_wf hk.wf _, hk.inner.pointed _, hk.file⟩
  · exact ⟨rfl, hk⟩

/-- The lines are read as readings of what they were readings of. -/
theorem replay_rereads (hM : X.ManifestReads) {nodes written : List (AgentNode X)}
    (h : List.Forall₂ AgentNode.Rereads nodes written) (hall : ∀ n ∈ written, codec.Serde n) :
    ∃ read, List.Forall₂ AgentNode.Rereads nodes read ∧
      ∀ inner, JsonlLineage.replay codec (written.map codec.line) inner = .ok (read.foldl .push inner) := by
  induction h with
  | nil => exact ⟨[], .nil, fun _ => rfl⟩
  | cons hn _ ih =>
    obtain ⟨line, n', hline, hread, hn'⟩ := (hall _ (.head _)).gives hM
    obtain ⟨read, hreads, hreplay⟩ := ih fun k hk => hall k (.tail _ hk)
    refine ⟨n' :: read, .cons (hn.trans hn') hreads, fun inner => ?_⟩
    rw [List.map_cons, JsonlLineage.replay, hline.replayLine hread]
    exact hreplay _

theorem replayed_newest (hs : m.Wf) : InMemoryInner.replayed m.list =
    { m with head := (m.list.reverse.find? (·.status = .promoted)).map (·.agentId) } := by
  obtain ⟨hnodes, horder⟩ := InMemoryInner.replayed_list hs
  rw [← InMemoryInner.replayed_head, ← hnodes, ← horder]

/-- The file opens, to readings of what stands in memory, the head being the promoted
    node appended last. -/
theorem reopened_reread (hM : X.ManifestReads) (hk : OnFile codec m s) : ∃ reopened,
    JsonlLineage.open codec s.file = .ok reopened ∧
      OnFile codec { m with head := (m.list.reverse.find? (·.status = .promoted)).map (·.agentId) } reopened := by
  obtain ⟨written, hwritten, hall, hfile⟩ := hk.file
  obtain ⟨read, hread, hreplay⟩ := replay_rereads hM hwritten hall
  have hone : ∀ l ∈ written.map codec.line, OneLine '\n'.toUInt8 '\r'.toUInt8 l := by
    intro l hl
    obtain ⟨n, hn, rfl⟩ := List.mem_map.mp hl
    obtain ⟨line, hline, -⟩ := hall n hn
    exact hline.oneLine
  have hlines : JsonlLineage.readLines (journal '\n'.toUInt8 (written.map codec.line)) = written.map codec.line := by
    simpa [JsonlLineage.readLines] using lines_journal hone List.not_mem_nil
  have hopen : JsonlLineage.open codec s.file = .ok ⟨s.file, .replayed read⟩ := by
    rcases hf : s.file with _ | bytes
    · -- no file yet, and no line written
      rcases written with _ | ⟨n, rest⟩
      · rw [List.forall₂_nil_right_iff.mp hwritten] at hread
        cases hread
        rfl
      · simp [hf, journal] at hfile
    · rw [hf, Option.getD_some] at hfile
      rw [JsonlLineage.open, hfile, hlines, hreplay]
      rfl
  refine ⟨_, hopen, InMemoryInner.head_wf hk.wf _, ?_, written, hwritten, hall, hfile⟩
  rw [← replayed_newest hk.wf]
  exact InMemoryInner.replayed_rereads hread

end

end RigVeh
