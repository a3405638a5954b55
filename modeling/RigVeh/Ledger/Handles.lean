/-
  RigVeh.Ledger.Handles — several handles on one path.

  `JsonlLineage::open` takes no lock, so a path may be open more than once: each handle
  has its own memory and all write behind the one file. `Shares` is what calls on the
  handles do, one after the other and each write whole or refused, when every accepted
  line reads back as its node, with its numbers as written. Then (`handles_told`):
  - the file always opens, to all accepted nodes in the order of their acceptance;
  - a handle remembers what stood in the file when it was opened and what it appended
    itself, and nothing of the others;
  - an id is accepted twice by two different handles only, the later of which was
    opened before the first acceptance. So handles that are opened when the last
    append is over never write a file that does not keep the store's invariant.
-/

import RigVeh.Ledger.Replay

namespace RigVeh

open RigVeh.Base

variable {X : Crates}

/-- A handle, and what had been accepted when it was opened. -/
structure Handle (X : Crates) where
  base : List (AgentNode X)
  inner : InMemoryInner X

/-- What a handle appended. -/
def own (i : Nat) (log : List (Nat × AgentNode X)) : List (AgentNode X) := (log.filter (·.1 = i)).map Prod.snd

/-- The accepted nodes, each with its handle, then the file and the handles. -/
inductive Shares (codec : NodeCodec X) : List (Nat × AgentNode X) → Option Bytes → List (Handle X) → Prop
  | init : Shares codec [] none []
  | opens {log : List (Nat × AgentNode X)} {file : Option Bytes} {hs : List (Handle X)} {s : JsonlLineage X} :
      Shares codec log file hs → JsonlLineage.open codec file = .ok s →
      Shares codec log file (hs ++ [⟨log.map Prod.snd, s.inner⟩])
  | accepts {log : List (Nat × AgentNode X)} {file : Option Bytes} {hs : List (Handle X)} {i : Nat} {h : Handle X}
      {n : AgentNode X} {s : JsonlLineage X} : Shares codec log file hs → hs[i]? = some h → codec.Reads n →
      JsonlLineage.append codec .done n ⟨file, h.inner⟩ = (.ok (), s) →
      Shares codec (log ++ [(i, n)]) s.file (hs.set i ⟨h.base, s.inner⟩)
  /-- The id is there already, or the file cannot be opened. -/
  | refuses {log : List (Nat × AgentNode X)} {file : Option Bytes} {hs : List (Handle X)} {i : Nat} {h : Handle X}
      {n : AgentNode X} {s : JsonlLineage X} {write : Write} {e : Error} : Shares codec log file hs → hs[i]? = some h →
      (∀ written msg, write ≠ .torn written msg) →
      JsonlLineage.append codec write n ⟨file, h.inner⟩ = (.error e, s) →
      Shares codec log s.file (hs.set i ⟨h.base, s.inner⟩)
  | points {log : List (Nat × AgentNode X)} {file : Option Bytes} {hs : List (Handle X)} {i : Nat} {h : Handle X}
      {id : AgentId} : Shares codec log file hs → hs[i]? = some h →
      Shares codec log file (hs.set i ⟨h.base, (h.inner.setHead id).2⟩)

/-- The memory of these nodes but for the head. -/
structure Remembers (s : InMemoryInner X) (known : List (AgentNode X)) : Prop where
  nodes : s.nodes = (InMemoryInner.replayed known).nodes
  order : s.insertionOrder = known.map (·.agentId)

/-- The handle was opened when no more than `a` nodes had been accepted. -/
def OpenedBy (hs : List (Handle X)) (i a : Nat) : Prop := ∃ h, hs[i]? = some h ∧ h.base.length ≤ a

/-- What the handles and the file are after `log`. -/
structure Told (codec : NodeCodec X) (log : List (Nat × AgentNode X)) (file : Option Bytes) (hs : List (Handle X)) :
    Prop where
  reads : ∀ n ∈ log.map Prod.snd, codec.Reads n
  file : file.getD [] = journal '\n'.toUInt8 ((log.map Prod.snd).map codec.line)
  opened : ∀ e ∈ log, e.1 < hs.length
  base : ∀ (i : Nat) (h : Handle X), hs[i]? = some h → h.base <+: log.map Prod.snd
  memory : ∀ (i : Nat) (h : Handle X), hs[i]? = some h → Remembers h.inner (h.base ++ own i log)
  twice : ∀ (a b : Nat) (e e' : Nat × AgentNode X), a < b → log[a]? = some e → log[b]? = some e' →
    e.2.agentId = e'.2.agentId → e.1 ≠ e'.1 ∧ OpenedBy hs e'.1 a

section

variable {codec : NodeCodec X} {log : List (Nat × AgentNode X)} {file : Option Bytes} {hs : List (Handle X)}
  {i j : Nat} {h h' : Handle X} {s : InMemoryInner X} {n : AgentNode X}

theorem own_append (i : Nat) (log : List (Nat × AgentNode X)) (e : Nat × AgentNode X) :
    own i (log ++ [e]) = own i log ++ if e.1 = i then [e.2] else [] := by
  rw [own, List.filter_append, List.map_append, ← own]
  by_cases he : e.1 = i
  · simp [he]
  · simp [he]

theorem own_none (hlt : ∀ e ∈ log, e.1 < i) : own i log = [] := by
  rw [own, List.filter_eq_nil_iff.mpr, List.map_nil]
  intro e he
  have hlt := hlt e he
  simp only [decide_eq_true_eq]
  omega

/-- Every replayed id is known. -/
theorem replayed_known {nodes : List (AgentNode X)} {id : AgentId} (hid : id ∈ nodes.map (·.agentId)) :
    (InMemoryInner.replayed nodes).nodes id ≠ none := by
  induction nodes using List.reverseRecOn with
  | nil => cases hid
  | append_singleton nodes node ih =>
    rw [InMemoryInner.replayed_append]
    by_cases heq : id = node.agentId
    · rw [heq, InMemoryInner.push_same]
      exact Option.some_ne_none node
    · rw [InMemoryInner.push_ne _ _ heq]
      rw [List.map_append, List.map_singleton] at hid
      exact ih ((List.mem_append.mp hid).resolve_right fun h => heq (List.mem_singleton.mp h))

theorem Remembers.push {known : List (AgentNode X)} (h : Remembers s known) (n : AgentNode X) :
    Remembers (s.push n) (known ++ [n]) where
  nodes := by rw [InMemoryInner.replayed_append, InMemoryInner.push, InMemoryInner.push, h.nodes]
  order := by
    rw [List.map_append, ← h.order]
    rfl

/-- What is new to the memory is none of what it holds. -/
theorem Remembers.new {known : List (AgentNode X)} (h : Remembers s known) {id : AgentId} (hid : s.nodes id = none) :
    id ∉ known.map (·.agentId) := fun hmem => replayed_known hmem (h.nodes ▸ hid)

/-! ## One handle more or another memory -/

theorem set_handle (hi : hs[i]? = some h) (hj : (hs.set i ⟨h.base, s⟩)[j]? = some h') :
    (i = j ∧ h' = ⟨h.base, s⟩) ∨ (i ≠ j ∧ hs[j]? = some h') := by
  by_cases hij : i = j
  · subst hij
    rw [List.getElem?_set_self (List.getElem?_eq_some_iff.mp hi).1] at hj
    exact .inl ⟨rfl, (Option.some.inj hj).symm⟩
  · rw [List.getElem?_set_ne hij] at hj
    exact .inr ⟨hij, hj⟩

theorem OpenedBy.set {a : Nat} (ho : OpenedBy hs j a) (hi : hs[i]? = some h) : OpenedBy (hs.set i ⟨h.base, s⟩) j a := by
  obtain ⟨h₀, hj, hle⟩ := ho
  by_cases hij : i = j
  · subst hij
    obtain rfl := Option.some.inj (hi.symm.trans hj)
    exact ⟨_, List.getElem?_set_self (List.getElem?_eq_some_iff.mp hi).1, hle⟩
  · exact ⟨h₀, (List.getElem?_set_ne hij).trans hj, hle⟩

/-- A handle's memory may change in its head. -/
theorem Told.same (ht : Told codec log file hs) (hi : hs[i]? = some h) (hn : s.nodes = h.inner.nodes)
    (ho : s.insertionOrder = h.inner.insertionOrder) : Told codec log file (hs.set i ⟨h.base, s⟩) := by
  refine ⟨ht.reads, ht.file, fun e he => ?_, fun j h' hj => ?_, fun j h' hj => ?_, fun a b e e' hab ha hb hid => ?_⟩
  · rw [List.length_set]
    exact ht.opened e he
  · rcases set_handle hi hj with ⟨rfl, rfl⟩ | ⟨-, hj⟩
    · exact ht.base i h hi
    · exact ht.base j h' hj
  · rcases set_handle hi hj with ⟨rfl, rfl⟩ | ⟨-, hj⟩
    · have hmem := ht.memory i h hi
      exact ⟨hn.trans hmem.nodes, ho.trans hmem.order⟩
    · exact ht.memory j h' hj
  · obtain ⟨hne, hopened⟩ := ht.twice a b e e' hab ha hb hid
    exact ⟨hne, hopened.set hi⟩

/-- A node that is new to the handle goes behind the others. -/
theorem Told.accepts (ht : Told codec log file hs) (hi : hs[i]? = some h) (hr : codec.Reads n)
    (hf : h.inner.nodes n.agentId = none) :
    Told codec (log ++ [(i, n)]) (some (file.getD [] ++ journal '\n'.toUInt8 [codec.line n]))
      (hs.set i ⟨h.base, h.inner.push n⟩) := by
  have hlog : (log ++ [(i, n)]).map Prod.snd = log.map Prod.snd ++ [n] := by rw [List.map_append, List.map_singleton]
  have hnew := (ht.memory i h hi).new hf
  rw [List.map_append, List.mem_append, not_or] at hnew
  refine ⟨fun m hm => ?_, ?_, fun e he => ?_, fun j h' hj => ?_, fun j h' hj => ?_, fun a b e e' hab ha hb hid => ?_⟩
  · rw [hlog] at hm
    rcases List.mem_append.mp hm with hm | hm
    · exact ht.reads m hm
    · rwa [List.mem_singleton.mp hm]
  · rw [Option.getD_some, ht.file, hlog, List.map_append, journal_append, List.map_singleton]
  · rw [List.length_set]
    rcases List.mem_append.mp he with he | he
    · exact ht.opened e he
    · rw [List.mem_singleton.mp he]
      exact (List.getElem?_eq_some_iff.mp hi).1
  · rw [hlog]
    rcases set_handle hi hj with ⟨rfl, rfl⟩ | ⟨-, hj⟩
    · exact (ht.base i h hi).trans (List.prefix_append _ _)
    · exact (ht.base j h' hj).trans (List.prefix_append _ _)
  · rw [own_append]
    rcases set_handle hi hj with ⟨rfl, rfl⟩ | ⟨hij, hj⟩
    · rw [if_pos rfl, ← List.append_assoc]
      exact (ht.memory i h hi).push n
    · rw [if_neg hij, List.append_nil]
      exact ht.memory j h' hj
  · rcases Nat.lt_or_ge b log.length with hblt | hbge
    · rw [List.getElem?_append_left hblt] at hb
      rw [List.getElem?_append_left (by omega)] at ha
      obtain ⟨hne, hopened⟩ := ht.twice a b e e' hab ha hb hid
      exact ⟨hne, hopened.set hi⟩
    · -- the second acceptance is this one, and the handle did not know the id
      have hblen := (List.getElem?_eq_some_iff.mp hb).1
      rw [List.length_append, List.length_singleton] at hblen
      obtain rfl : b = log.length := by omega
      rw [List.getElem?_concat_length] at hb
      obtain rfl := Option.some.inj hb
      rw [List.getElem?_append_left hab] at ha
      constructor
      · intro heq
        have hmem : e ∈ log.filter (·.1 = i) := List.mem_filter.mpr ⟨List.mem_of_getElem? ha, decide_eq_true heq⟩
        exact hnew.2 (hid ▸ List.mem_map_of_mem (List.mem_map_of_mem hmem))
      · refine OpenedBy.set ⟨h, hi, ?_⟩ hi
        by_contra hlt
        have hlt : a < h.base.length := Nat.lt_of_not_le hlt
        have hbase : h.base[a]? = some e.2 := by
          obtain ⟨t, hsplit⟩ := ht.base i h hi
          rw [← List.getElem?_append_left hlt, hsplit, List.getElem?_map, ha]
          rfl
        exact hnew.1 (hid ▸ List.mem_map_of_mem (List.mem_of_getElem? hbase))

/-- A file of whole lines opens to their nodes. -/
theorem Told.opens (ht : Told codec log file hs) :
    JsonlLineage.open codec file = .ok ⟨file, .replayed (log.map Prod.snd)⟩ := by
  have hfile := ht.file
  rcases file with _ | bytes
  · rcases hlog : log.map Prod.snd with _ | ⟨n, nodes⟩
    · rfl
    · rw [hlog] at hfile
      simp [journal] at hfile
  · obtain rfl : bytes = _ := hfile
    exact open_journal ht.reads

/-- One handle more, that knows what stands in the file. -/
theorem Told.one_more (ht : Told codec log file hs) :
    Told codec log file (hs ++ [⟨log.map Prod.snd, .replayed (log.map Prod.snd)⟩]) := by
  have hat {j : Nat} {h' : Handle X}
      (hj : (hs ++ [⟨log.map Prod.snd, .replayed (log.map Prod.snd)⟩])[j]? = some h') :
      hs[j]? = some h' ∨ j = hs.length ∧ h' = ⟨log.map Prod.snd, .replayed (log.map Prod.snd)⟩ := by
    rcases Nat.lt_or_ge j hs.length with hlt | hge
    · rw [List.getElem?_append_left hlt] at hj
      exact .inl hj
    · have hlen := (List.getElem?_eq_some_iff.mp hj).1
      rw [List.length_append, List.length_singleton] at hlen
      obtain rfl : j = hs.length := by omega
      rw [List.getElem?_concat_length] at hj
      exact .inr ⟨rfl, (Option.some.inj hj).symm⟩
  refine ⟨ht.reads, ht.file, fun e he => ?_, fun j h' hj => ?_, fun j h' hj => ?_, fun a b e e' hab ha hb hid => ?_⟩
  · rw [List.length_append]
    exact Nat.lt_add_right _ (ht.opened e he)
  · rcases hat hj with hj | ⟨-, rfl⟩
    · exact ht.base j h' hj
    · exact List.prefix_rfl
  · rcases hat hj with hj | ⟨rfl, rfl⟩
    · exact ht.memory j h' hj
    · rw [own_none ht.opened, List.append_nil]
      exact ⟨rfl, InMemoryInner.replayed_order _⟩
  · obtain ⟨hne, h₀, hj, hle⟩ := ht.twice a b e e' hab ha hb hid
    exact ⟨hne, h₀, by rw [List.getElem?_append_left (List.getElem?_eq_some_iff.mp hj).1, hj], hle⟩

/-- An append that fails without a torn write changes nothing. -/
theorem append_refused {write : Write} (hw : ∀ written msg, write ≠ .torn written msg) {t : JsonlLineage X} {e : Error}
    {t' : JsonlLineage X} (ha : t.append codec write n = (.error e, t')) : t' = t := by
  unfold JsonlLineage.append at ha
  split at ha
  · exact (congrArg Prod.snd ha).symm
  · split at ha
    · exact (congrArg Prod.snd ha).symm
    · cases write with
      | done => cases ha
      | refused msg => exact (congrArg Prod.snd ha).symm
      | torn written msg => exact absurd rfl (hw written msg)

theorem shares_told (hp : Shares codec log file hs) : Told codec log file hs := by
  induction hp with
  | init =>
    refine ⟨?_, rfl, ?_, ?_, ?_, ?_⟩
    · intro n hn
      cases hn
    · intro e he
      cases he
    · intro i h hi
      cases hi
    · intro i h hi
      cases hi
    · intro a b e e' _ ha
      cases ha
  | opens _ hopen ih =>
    obtain rfl := Except.ok.inj (ih.opens.symm.trans hopen)
    exact ih.one_more
  | @accepts log file hs i h n s _ hi hr happend ih =>
    have hf : h.inner.nodes n.agentId = none := by
      by_contra hold
      rw [JsonlLineage.append_duplicate hr hold] at happend
      cases happend
    rw [append_file hr hf] at happend
    obtain rfl := congrArg Prod.snd happend
    exact ih.accepts hi hr hf
  | refuses _ hi hw happend ih =>
    obtain rfl := append_refused hw happend
    exact ih.same hi rfl rfl
  | @points log file hs i h id _ hi ih =>
    have hset : (h.inner.setHead id).2.nodes = h.inner.nodes ∧
        (h.inner.setHead id).2.insertionOrder = h.inner.insertionOrder := by
      rw [InMemoryInner.setHead]
      split <;> exact ⟨rfl, rfl⟩
    exact ih.same hi hset.1 hset.2

end

/-- Whatever the handles on a path are called for, one call after the other, if accepted
    lines read back as their nodes: the file opens to what was accepted, in order; each
    handle remembers what it was opened on and what it appended; and an id is there twice
    only if two handles accepted it, the later one opened before the other did. The opened
    ledger keeps the store's invariant exactly if no id is. -/
theorem handles_told {codec : NodeCodec X} {log : List (Nat × AgentNode X)} {file : Option Bytes} {hs : List (Handle X)}
    (hp : Shares codec log file hs) :
    (∃ s, JsonlLineage.open codec file = .ok s ∧ s.inner = .replayed (log.map Prod.snd) ∧
      (s.inner.Intact ↔ (log.map (·.2.agentId)).Nodup)) ∧
    (∀ (i : Nat) (h : Handle X), hs[i]? = some h → h.base <+: log.map Prod.snd ∧ Remembers h.inner (h.base ++ own i log)) ∧
    ∀ (a b : Nat) (e e' : Nat × AgentNode X), a < b → log[a]? = some e → log[b]? = some e' →
      e.2.agentId = e'.2.agentId → e.1 ≠ e'.1 ∧ OpenedBy hs e'.1 a := by
  have ht := shares_told hp
  refine ⟨⟨_, ht.opens, rfl, ?_⟩, fun i h hi => ⟨ht.base i h hi, ht.memory i h hi⟩, ht.twice⟩
  rw [InMemoryInner.replayed_intact_iff, List.map_map]
  rfl

namespace Reference

/-- Two handles are opened on one path and both append the pinned node. -/
theorem two_handles : ∃ file hs, Shares codec [(0, snapshotNode), (1, snapshotNode)] file hs := by
  have h₀ : Shares codec ([] : List (Nat × AgentNode Reference)) none [] := .init
  have h₁ := h₀.opens (show JsonlLineage.open codec none = .ok .fresh from rfl)
  have h₂ := h₁.opens (show JsonlLineage.open codec none = .ok .fresh from rfl)
  have h₃ := h₂.accepts (i := 0) (h := ⟨[], .default⟩) rfl snapshot_reads (append_file snapshot_reads rfl)
  have h₄ := h₃.accepts (i := 1) (h := ⟨[], .default⟩) rfl snapshot_reads (append_file snapshot_reads rfl)
  exact ⟨_, _, h₄⟩

/-- The second was opened before the first one's append. -/
theorem handles_told_twice : ∃ (file : Option Bytes) (hs : List (Handle Reference)), OpenedBy hs 1 0 ∧
    ∃ s, JsonlLineage.open codec file = .ok s ∧ ¬ s.inner.Intact := by
  obtain ⟨file, hs, hp⟩ := two_handles
  obtain ⟨⟨s, hopen, -, hintact⟩, -, htwice⟩ := handles_told hp
  refine ⟨file, hs, (htwice 0 1 _ _ Nat.zero_lt_one rfl rfl rfl).2, s, hopen, fun hi => ?_⟩
  have hnodup := hintact.mp hi
  simp at hnodup

end Reference

end RigVeh
