/-
  RigVeh.Runner.Export — listing a ledger through its export (`LineageStore::nodes`).

  A store that does not list its nodes itself is listed by decoding its export. JSON
  keeps what `Rereads` says of each node, in order; that is all that a selector looks at
  (`AgentNode.card`), so on such a store every selector makes the same choice
  (`export_agrees`).
-/

import RigVeh.Base.Trace
import RigVeh.Ledger.Log
import RigVeh.Runner.Ensemble

namespace RigVeh

open RigVeh.Json RigVeh.Base

variable {X : Crates}

/-- `Value::get` with a string, on values. -/
def Json.Value.get (v : Value) (k : String) : Option Value :=
  match v.view with
  | .object map => map.lookup k
  | _ => none

/-- `LineageStore::nodes`, as the trait has it, on what `export_dag_json` returned. -/
def defaultNodes (X : Crates) (dag : Value) : Except Error (List (AgentNode X)) :=
  match dag.get "nodes" with
  | some nodes => (Reader.vec X (AgentNode.read X) nodes).mapError .json
  | none => .error (.ledger "dag export missing nodes")

/-! ## Scores -/

theorem asF64_same {a b : Tree} (h : a.Same b) : a.asF64 = b.asF64 := by
  cases a with
  | number n =>
    cases b with
    | number m => rw [show n = m from h]
    | _ => exact h.elim
  | _ => cases b <;> first | rfl | exact h.elim

/-- Equal values have the same number under a key, or neither has one. -/
theorem number_same {v w : Value} (h : v ≈ w) (k : String) :
    (v.1.get k).bind Tree.asF64 = (w.1.get k).bind Tree.asF64 := by
  obtain ⟨t, ht⟩ := v
  obtain ⟨u, hu⟩ := w
  cases t with
  | object m =>
    cases u with
    | object n =>
      obtain ⟨l, hp, hl⟩ := (object_same_iff ht.1 hu.1).mp h
      have hfst : m.map Prod.fst = l.map Prod.fst := by
        rw [← List.forall₂_eq_eq_eq, List.forall₂_map_left_iff, List.forall₂_map_right_iff]
        exact hl.imp fun _ _ he => he.1
      have hkeys : (m.map Prod.fst).Perm (n.map Prod.fst) := hfst ▸ hp.map Prod.fst
      have hget : (Tree.object m).get k = m.lookup k := rfl
      have hget' : (Tree.object n).get k = n.lookup k := rfl
      rw [hget, hget']
      cases hm : m.lookup k with
      | some a =>
        obtain ⟨b, hb, hab⟩ := (Tree.sameEntries_iff m n).mp h.2 (k, a) (mem_of_lookup hm)
        rw [hb]
        exact asF64_same hab
      | none =>
        cases hn : n.lookup k with
        | none => rfl
        | some b =>
          have hk : k ∈ m.map Prod.fst := hkeys.mem_iff.mpr (List.mem_map.mpr ⟨(k, b), mem_of_lookup hn, rfl⟩)
          obtain ⟨⟨k', a⟩, ha, rfl⟩ := List.mem_map.mp hk
          rw [Tree.lookup_eq_some_of_mem ht.1 ha] at hm
          cases hm
    | _ => exact h.elim
  | _ => cases u <;> first | rfl | exact h.elim

theorem storedScore_value (n : AgentNode X) :
    storedScore n = ((n.evalResults.getD .null).1.get "score").bind Tree.asF64 := by
  unfold storedScore
  cases n.evalResults <;> rfl

/-! ## What is kept -/

/-- What two nodes have in common that were written and read. -/
structure AgentNode.Alike (n n' : AgentNode X) : Prop where
  agentId : n.agentId = n'.agentId
  status : n.status = n'.status
  validParent : n.validParent = n'.validParent
  parentId : n.parentId = n'.parentId
  generation : n.generation = n'.generation
  capabilitySbom : n.capabilitySbom = n'.capabilitySbom
  allowedScope : n.allowedScope = n'.allowedScope
  score : storedScore n = storedScore n'
  payload : ∃ b, n.inputs.signingPayload = .ok b ∧ n'.inputs.signingPayload = .ok b

theorem AgentNode.Rereads.alike {n n' : AgentNode X} (h : n.Rereads n') : n.Alike n' where
  agentId := h.agentId
  status := h.inputs.status
  validParent := h.inputs.validParent
  parentId := h.inputs.parentId
  generation := h.inputs.generation
  capabilitySbom := h.capabilitySbom
  allowedScope := h.inputs.allowedScope
  score := by
    rw [storedScore_value, storedScore_value]
    exact number_same h.inputs.evalResults "score"
  payload := signingPayload_rereads h.inputs

/-- The export of a ledger is decoded to nodes like those it lists. -/
theorem export_decodes (hM : X.ManifestReads) (s : InMemoryInner X) :
    ∃ dag nodes, s.exportDagJson = some dag ∧ defaultNodes X dag = .ok nodes ∧
      List.Forall₂ AgentNode.Alike s.list nodes := by
  choose form hform using hM.writes
  obtain ⟨nodes, hnodes, hrereads⟩ :=
    Reader.vec_readsBack (node_readsBack hM hform) s.list _ (Value.equiv_refl _)
  have hwrite : List.Forall₂ (fun n w => n.toValue = .ok w) s.list (s.list.map fun n => .object
      (n.entries (.object [("manifest", form n.artifact.manifest)] (List.nodup_singleton _))) (n.entries_nodup _)) := by
    rw [List.forall₂_map_right_iff, List.forall₂_same]
    intro n _
    exact toValue_form hform n
  refine ⟨_, nodes, InMemoryInner.exportDagJson_some.mpr ⟨_, hwrite, rfl⟩, ?_, hrereads.imp fun _ _ h => h.alike⟩
  rw [defaultNodes, Value.get, Value.view_object]
  exact Prog.mapError_ok.mpr hnodes

/-! ## What is chosen -/

/-- All that a selector looks at in a node. -/
structure Card where
  agentId : AgentId
  validParent : Bool
  parentId : Option AgentId
  score : Option F64

def AgentNode.card (n : AgentNode X) : Card := ⟨n.agentId, n.validParent, n.parentId, storedScore n⟩

theorem alike_cards {l l' : List (AgentNode X)} (h : List.Forall₂ AgentNode.Alike l l') :
    l.map AgentNode.card = l'.map AgentNode.card := by
  induction h with
  | nil => rfl
  | @cons n n' l l' hn _ ih =>
    rw [List.map_cons, List.map_cons, ih, AgentNode.card, AgentNode.card, hn.agentId, hn.validParent, hn.parentId,
      hn.score]

section

variable {R : Type} (A : Arith R) (hash : List Hashed → UInt64) {l l' : List (AgentNode X)}

def Card.scoreOf (c : Card) : R :=
  match c.score with
  | some x => A.ofF64 x
  | none => A.ofNat 0

theorem latest_cards (l : List (AgentNode X)) : (l.reverse.find? (·.validParent)).map (·.agentId) =
    ((l.map AgentNode.card).reverse.find? (·.validParent)).map (·.agentId) := by
  rw [← List.map_reverse, List.find?_map, Option.map_map]
  rfl

theorem bestOf_cards (l : List (AgentNode X)) : ParentSelector.bestOf A l = (l.map AgentNode.card).foldl (fun best c =>
    if c.validParent then ParentSelector.better A best (c.scoreOf A) c.agentId else best) none := by
  rw [List.foldl_map]
  rfl

theorem childCount_cards (l : List (AgentNode X)) (id : AgentId) :
    ParentSelector.childCount l id = (l.map AgentNode.card).countP (·.parentId = some id) := by
  rw [List.countP_map]
  rfl

/-- What is read off each card is the same on the same cards. -/
theorem map_cards {β : Type} (g : Card → β) (h : l.map AgentNode.card = l'.map AgentNode.card) :
    l.map (fun n => g n.card) = l'.map (fun n => g n.card) := by
  have hmap := congrArg (List.map g) h
  rw [List.map_map, List.map_map] at hmap
  exact hmap

theorem valid_cards (h : l.map AgentNode.card = l'.map AgentNode.card) :
    (l.filter (·.validParent)).map AgentNode.card = (l'.filter (·.validParent)).map AgentNode.card := by
  have hfilter := congrArg (List.filter (·.validParent)) h
  rw [List.filter_map, List.filter_map] at hfilter
  exact hfilter

theorem randomIndex_cards (seed : Option UInt64) (h : l.map AgentNode.card = l'.map AgentNode.card) :
    ParentSelector.randomIndex hash seed l = ParentSelector.randomIndex hash seed l' := by
  have hlen : l.length = l'.length := by simpa using congrArg List.length h
  have hids : l.map (fun n => Hashed.str n.agentId) = l'.map (fun n => Hashed.str n.agentId) :=
    map_cards (fun c => Hashed.str c.agentId) h
  cases seed <;> simp only [ParentSelector.randomIndex, hlen, hids]

/-- On the same cards every selector goes on alike. -/
theorem choose_cards (b : ParentSelector) (h : l.map AgentNode.card = l'.map AgentNode.card) :
    b.choose A hash l = b.choose A hash l' := by
  have hvalid := valid_cards h
  cases b with
  | latest => rw [ParentSelector.choose, ParentSelector.choose, latest_cards, h, ← latest_cards]
  | best => rw [ParentSelector.choose, ParentSelector.choose, bestOf_cards, h, ← bestOf_cards]
  | random seed =>
    have hempty : (l.filter (·.validParent)).isEmpty = (l'.filter (·.validParent)).isEmpty := by
      simpa using congrArg List.isEmpty hvalid
    have hids : (l.filter (·.validParent)).map (·.agentId) = (l'.filter (·.validParent)).map (·.agentId) :=
      map_cards Card.agentId hvalid
    have hid (i : Nat) : (l.filter (·.validParent))[i]?.map (·.agentId) =
        (l'.filter (·.validParent))[i]?.map (·.agentId) := by
      rw [← List.getElem?_map, hids, List.getElem?_map]
    rw [ParentSelector.choose, ParentSelector.choose, randomIndex_cards hash seed hvalid, hempty]
    simp only [hid]
  | scoreProportional seed =>
    exact congrArg (weightedChoice A hash · seed)
      (map_cards (fun c => (A.max (c.scoreOf A) (A.ofNat 0), c.agentId)) hvalid)
  | scoreChildProportional seed =>
    have hcount (id : AgentId) : ParentSelector.childCount l id = ParentSelector.childCount l' id := by
      rw [childCount_cards, h, ← childCount_cards]
    simp only [ParentSelector.choose, hcount]
    exact congrArg (weightedChoice A hash · seed) (map_cards (fun c => (A.div (A.max (c.scoreOf A) (A.ofNat 0))
      (A.add (A.ofNat 1) (A.ofNat (ParentSelector.childCount l' c.agentId))), c.agentId)) hvalid)

/-- What `top_k` sorts by. -/
def Card.noWorse (a b : Card) : Bool := (A.partialCmp (b.scoreOf A) (a.scoreOf A)).getD .eq != .gt

theorem compare_cards (a b : AgentNode X) : (BestByMetric.compare A a b != .gt) = a.card.noWorse A b.card := by
  rw [BestByMetric.compare, ensemble_scoreOf, ensemble_scoreOf]
  rfl

theorem sort_cards (l : List (AgentNode X)) : (sortBy (BestByMetric.compare A) l).map AgentNode.card =
    (l.map AgentNode.card).mergeSort (Card.noWorse A) := by
  apply List.map_mergeSort
  intro a _ b _
  exact compare_cards A a b

theorem topK_cards (b : BestByMetric) (h : l.map AgentNode.card = l'.map AgentNode.card) :
    b.choose A l = b.choose A l' := by
  have hids (l : List (AgentNode X)) : b.choose A l =
      ((((l.filter (·.validParent)).map AgentNode.card).mergeSort (Card.noWorse A)).take b.k).map Card.agentId := by
    rw [← sort_cards, ← List.map_take, List.map_map]
    rfl
  rw [hids, hids, valid_cards h]

end

/-- Stores that differ in how they list their nodes, `l` or `l'`: whatever built-in
    selector is run and whatever it computes with, its outcome and the state it leaves
    are the same on both. -/
def SameChoices (l l' : List (AgentNode X)) : Prop :=
  ∀ (σ : Type) (f g : Prog.Handler (calls X) σ) (s t : σ), f (.ledger .nodes) s = (.ok l, t) →
    g (.ledger .nodes) s = (.ok l', t) → (∀ u, f .now u = g .now u) →
    ∀ (R : Type) (A : Arith R),
      (∀ (hash : List Hashed → UInt64) (b : ParentSelector),
        Prog.run f (b.select A hash).run s = Prog.run g (b.select A hash).run s) ∧
      ∀ b : BestByMetric, Prog.run f (b.select A).run s = Prog.run g (b.select A).run s

theorem cards_choices {l l' : List (AgentNode X)} (h : l.map AgentNode.card = l'.map AgentNode.card) :
    SameChoices l l' := by
  intro σ f g s t hf hg hnow R A
  constructor
  · intro hash b
    rw [ParentSelector.select_run A hash b hf, ParentSelector.select_run A hash b hg, choose_cards A hash b h]
    refine Prog.run_agree ?_ (ParentSelector.choose_makes A hash l' b) t
    intro c hc u
    obtain rfl := hc
    exact hnow u
  · intro b
    rw [BestByMetric.select_run A hf, BestByMetric.select_run A hg, topK_cards A b h]

/-- Listing a ledger through its export gives nodes like those it holds, one for one,
    and every selector chooses from them what it chooses from those. -/
theorem export_agrees (hM : X.ManifestReads) (s : InMemoryInner X) :
    ∃ dag nodes, s.exportDagJson = some dag ∧ defaultNodes X dag = .ok nodes ∧
      List.Forall₂ AgentNode.Alike s.list nodes ∧ SameChoices s.list nodes := by
  obtain ⟨dag, nodes, hdag, hnodes, halike⟩ := export_decodes hM s
  exact ⟨dag, nodes, hdag, hnodes, halike, cards_choices (alike_cards halike)⟩

namespace Reference

theorem scoredLedger_exported : ∃ dag nodes, scoredLedger.exportDagJson = some dag ∧
    defaultNodes Reference dag = .ok nodes ∧ List.Forall₂ AgentNode.Alike scoredLedger.list nodes ∧
    SameChoices scoredLedger.list nodes :=
  export_agrees manifestReads scoredLedger

end Reference

end RigVeh
