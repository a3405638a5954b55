/-
  RigVeh.Runner.Selection — what a built-in selector picks.

  A selector lists the nodes once; what it does with the list (`choose`) calls nothing
  but the clock. Whatever the scores, the seed, the clock and the hash, it picks from
  the nodes with `validParent`, and fails only where there is none (`choose_exact`,
  `select_exact`): the reversed search, the running best, the index modulo the length
  and the sum with its two fallbacks each end in `orError` of such a node's id.

  `rational` is the arithmetic of exact rationals.
-/

import Mathlib.Algebra.Order.Field.Rat
import RigVeh.Base.Trace
import RigVeh.Runner.Scope

namespace RigVeh

open RigVeh.Json RigVeh.Base

variable {X : Crates}

/-! ## Exact scores -/

/-- The number a finite pattern stands for. -/
def Json.F64.toRat (x : F64) : ℚ :=
  let significand := if x.exponent = 0 then x.fraction else 2 ^ 52 + x.fraction
  let magnitude : ℚ := significand * 2 ^ max x.exponent 1 / 2 ^ 1075
  if 2 ^ 63 ≤ x.bits.toNat then -magnitude else magnitude

def rational : Arith ℚ where
  ofF64 := F64.toRat
  ofNat n := n
  max := max
  add := (· + ·)
  mul := (· * ·)
  div := (· / ·)
  le a b := decide (a ≤ b)
  unit v := v.toNat / (2 ^ 64 - 1)

section

variable {R : Type} (A : Arith R) (hash : List Hashed → UInt64)

namespace ParentSelector

/-- `select`, once the nodes are listed. -/
def choose (nodes : List (AgentNode X)) : ParentSelector → Act X AgentId
  | latest => Prog.attempt (orError ((nodes.reverse.find? (·.validParent)).map (·.agentId)) noValidParent)
  | best => Prog.attempt (orError ((bestOf A nodes).map Prod.snd) noValidParent)
  | random seed =>
    let valid := nodes.filter (·.validParent)
    if valid.isEmpty then Prog.attempt (.error noValidParent) else do
      let idx ← randomIndex hash seed valid
      Prog.attempt (orError (valid[idx]?.map (·.agentId)) (.ledger "random index out of bounds"))
  | scoreProportional seed =>
    weightedChoice A hash ((nodes.filter (·.validParent)).map fun n =>
      (A.max (scoreOf A n) (A.ofNat 0), n.agentId)) seed
  | scoreChildProportional seed =>
    weightedChoice A hash ((nodes.filter (·.validParent)).map fun n =>
      (A.div (A.max (scoreOf A n) (A.ofNat 0)) (A.add (A.ofNat 1) (A.ofNat (childCount nodes n.agentId))),
        n.agentId)) seed

theorem select_choose (b : ParentSelector) :
    b.select A hash = (Act.nodes >>= fun nodes => b.choose A hash nodes : Act X AgentId) := by
  cases b <;> rfl

end ParentSelector

/-! ## What a choice calls -/

theorem pseudoUnit_makes (seed : Option UInt64) (weighted : List (R × AgentId)) :
    (pseudoUnit A hash seed weighted : Act X R).run.Makes (· = Call.now) := by
  cases seed with
  | none => exact ⟨rfl, fun _ => trivial⟩
  | some seed => trivial

theorem weightedChoice_makes (weighted : List (R × AgentId)) (seed : Option UInt64) :
    (weightedChoice A hash weighted seed : Act X AgentId).run.Makes (· = Call.now) := by
  unfold weightedChoice
  extract_lets last total
  split
  · trivial
  · split
    · trivial
    · apply Prog.makes_seq (pseudoUnit_makes A hash seed weighted)
      intro u
      split <;> trivial

theorem ParentSelector.randomIndex_makes (seed : Option UInt64) (valid : List (AgentNode X)) :
    (randomIndex hash seed valid).run.Makes (· = Call.now) := by
  cases seed with
  | none => exact ⟨rfl, fun _ => trivial⟩
  | some seed => trivial

/-- A choice calls the clock, if anything. -/
theorem ParentSelector.choose_makes (nodes : List (AgentNode X)) (b : ParentSelector) :
    (b.choose A hash nodes).run.Makes (· = Call.now) := by
  cases b with
  | latest | best => trivial
  | random seed =>
    rw [choose]
    split
    · trivial
    · exact Prog.makes_seq (randomIndex_makes hash seed _) fun _ => trivial
  | scoreProportional seed | scoreChildProportional seed => exact weightedChoice_makes A hash _ seed

end

/-! ## Weighted draws -/

section

variable {R : Type} {A : Arith R} {hash : List Hashed → UInt64} {σ : Type} {f : Prog.Handler (calls X) σ} {s s₁ : σ}
  {nodes : List (AgentNode X)}

theorem nodes_run {α : Type} (hn : f (.ledger .nodes) s = (.ok nodes, s₁)) (k : List (AgentNode X) → Act X α) :
    Prog.run f (Act.nodes >>= k).run s = Prog.run f (k nodes).run s₁ := by
  have hrun : Prog.run f (Act.nodes : Act X (List (AgentNode X))).run s = (.ok nodes, s₁) := hn
  rw [Prog.run_seq, hrun, Prog.andThen_ok]

theorem ParentSelector.select_run (A : Arith R) (hash : List Hashed → UInt64) (b : ParentSelector)
    (hn : f (.ledger .nodes) s = (.ok nodes, s₁)) :
    Prog.run f (b.select A hash).run s = Prog.run f (b.choose A hash nodes).run s₁ := by
  rw [select_choose, nodes_run hn]

/-- The 64 bits drawn for a weighted choice. -/
def drawn (hash : List Hashed → UInt64) (seed : Option UInt64) (now : Nat) (weighted : List (R × AgentId)) : UInt64 :=
  let first := match seed with
    | some s => .u64 s
    | none => nanos now
  hash (first :: weighted.map fun w => .str w.2)

theorem pseudoUnit_run (A : Arith R) (hash : List Hashed → UInt64) (f : Prog.Handler (calls X) σ) (s : σ)
    (seed : Option UInt64) (weighted : List (R × AgentId)) :
    ∃ s', Prog.run f (pseudoUnit A hash seed weighted).run s =
      (.ok (A.unit (drawn hash seed (f .now s).1 weighted)), s') := by
  cases seed <;> exact ⟨_, rfl⟩

/-- The id a draw falls on. -/
def falls (A : Arith R) (v : UInt64) (weighted : List (R × AgentId)) : Option AgentId :=
  let last := weighted.getLast?.map Prod.snd
  let total := (weighted.map Prod.fst).foldl A.add (A.ofNat 0)
  if A.le total (A.ofNat 0) then last
  else (reach A (A.mul (A.unit v) total) (A.ofNat 0) weighted).or last

theorem reach_mem {r acc : R} {weighted : List (R × AgentId)} {id : AgentId} (hr : reach A r acc weighted = some id) :
    id ∈ weighted.map Prod.snd := by
  induction weighted generalizing acc with
  | nil => cases hr
  | cons w rest ih =>
    unfold reach at hr
    split at hr
    · cases hr
      simp
    · simp only [List.map_cons, List.mem_cons]
      exact .inr (ih hr)

theorem falls_mem {v : UInt64} {weighted : List (R × AgentId)} {id : AgentId} (h : falls A v weighted = some id) :
    id ∈ weighted.map Prod.snd := by
  have hlast : weighted.getLast?.map Prod.snd = some id → id ∈ weighted.map Prod.snd := by
    intro hid
    obtain ⟨w, hw, rfl⟩ := Option.map_eq_some_iff.mp hid
    exact List.mem_map_of_mem (List.mem_of_getLast? hw)
  unfold falls at h
  extract_lets last total at h
  split at h
  · exact hlast h
  · rcases Option.or_eq_some_iff.mp h with h | ⟨-, h⟩
    · exact reach_mem h
    · exact hlast h

/-- A choice among some entries draws once and succeeds. -/
theorem weightedChoice_run (A : Arith R) (hash : List Hashed → UInt64) (f : Prog.Handler (calls X) σ) (s : σ)
    (seed : Option UInt64) {weighted : List (R × AgentId)} (hne : weighted ≠ []) :
    ∃ id, falls A (drawn hash seed (f .now s).1 weighted) weighted = some id ∧
      (Prog.run f (weightedChoice A hash weighted seed).run s).1 = .ok id := by
  obtain ⟨w, hw⟩ := Option.ne_none_iff_exists'.mp (mt List.getLast?_eq_none_iff.mp hne)
  have hlast : weighted.getLast?.map Prod.snd = some w.2 := by rw [hw, Option.map_some]
  have hempty : ¬ weighted.isEmpty = true := by simpa using hne
  simp only [falls, weightedChoice, hlast, if_neg hempty]
  generalize (weighted.map Prod.fst).foldl A.add (A.ofNat 0) = total
  by_cases htotal : A.le total (A.ofNat 0) = true
  · rw [if_pos htotal, if_pos htotal]
    exact ⟨w.2, rfl, rfl⟩
  · rw [if_neg htotal, if_neg htotal]
    obtain ⟨s', hu⟩ := pseudoUnit_run A hash f s seed weighted
    rw [Prog.run_seq, hu, Prog.andThen_ok]
    cases reach A (A.mul (A.unit (drawn hash seed (f .now s).1 weighted)) total) (A.ofNat 0) weighted with
    | some id => exact ⟨id, rfl, rfl⟩
    | none => exact ⟨w.2, rfl, rfl⟩

/-! ## Exactly the nodes that may become a parent -/

def Offered (nodes : List (AgentNode X)) (id : AgentId) : Prop := ∃ n ∈ nodes, n.validParent = true ∧ n.agentId = id

/-- A picked id is offered, and a failure means that none is. -/
def Exact (nodes : List (AgentNode X)) (r : Except Error AgentId) : Prop :=
  (∀ id, r = .ok id → Offered nodes id) ∧ ((∃ e, r = .error e) ↔ ∀ n ∈ nodes, n.validParent = false)

theorem exact_ok {id : AgentId} (h : Offered nodes id) : Exact nodes (.ok id) := by
  constructor
  · intro id' hid
    cases hid
    exact h
  obtain ⟨n, hn, hv, -⟩ := h
  constructor
  · intro hfail
    obtain ⟨e, he⟩ := hfail
    cases he
  · intro hall
    rw [hall n hn] at hv
    cases hv

theorem exact_error (e : Error) (h : ∀ n ∈ nodes, n.validParent = false) : Exact nodes (.error e) := by
  constructor
  · intro id hid
    cases hid
  · exact ⟨fun _ => h, fun _ => ⟨e, rfl⟩⟩

theorem exact_orError {o : Option AgentId} (e : Error) (hsome : ∀ id, o = some id → Offered nodes id)
    (hnone : o = none → ∀ n ∈ nodes, n.validParent = false) : Exact nodes (orError o e) := by
  cases o with
  | none => exact exact_error e (hnone rfl)
  | some id => exact exact_ok (hsome id rfl)

/-- Every entry of what is left of the nodes is offered. -/
theorem offered_valid {id : AgentId} {n : AgentNode X} (hn : n ∈ nodes.filter (·.validParent)) (hid : n.agentId = id) :
    Offered nodes id := by
  obtain ⟨hn, hv⟩ := List.mem_filter.mp hn
  exact ⟨n, hn, hv, hid⟩

theorem none_valid (h : nodes.filter (·.validParent) = []) : ∀ n ∈ nodes, n.validParent = false := by
  intro n hn
  exact eq_false_of_ne_true (List.filter_eq_nil_iff.mp h n hn)

theorem bestOf_append (A : Arith R) (nodes : List (AgentNode X)) (node : AgentNode X) :
    ParentSelector.bestOf A (nodes ++ [node]) = if node.validParent then
      ParentSelector.better A (ParentSelector.bestOf A nodes) (scoreOf A node) node.agentId
    else ParentSelector.bestOf A nodes := by
  unfold ParentSelector.bestOf
  rw [List.foldl_append, List.foldl_cons, List.foldl_nil]

/-- The running best is a node of the list that may become a parent, if there is one. -/
theorem bestOf_cases (A : Arith R) (nodes : List (AgentNode X)) :
    (ParentSelector.bestOf A nodes = none ∧ ∀ n ∈ nodes, n.validParent = false) ∨
      ∃ n ∈ nodes, n.validParent = true ∧ ParentSelector.bestOf A nodes = some (scoreOf A n, n.agentId) := by
  -- over the nodes seen so far, from the last one back
  induction nodes using List.reverseRecOn with
  | nil => exact .inl ⟨rfl, by simp⟩
  | append_singleton nodes node ih =>
    rw [bestOf_append]
    generalize ParentSelector.bestOf A nodes = best at ih ⊢
    by_cases hv : node.validParent = true
    · right
      rw [if_pos hv]
      obtain ⟨rfl, -⟩ | ⟨n, hn, hnv, rfl⟩ := ih
      · exact ⟨node, by simp, hv, rfl⟩
      · unfold ParentSelector.better
        by_cases hle : A.le (scoreOf A node) (scoreOf A n) = true
        · exact ⟨n, by simp [hn], hnv, if_pos hle⟩
        · exact ⟨node, by simp, hv, if_neg hle⟩
    · rw [if_neg hv]
      obtain ⟨rfl, hall⟩ | ⟨n, hn, hnv, rfl⟩ := ih
      · left
        refine ⟨rfl, ?_⟩
        intro n hn
        rcases List.mem_append.mp hn with hn | hn
        · exact hall n hn
        · obtain rfl := List.mem_singleton.mp hn
          exact eq_false_of_ne_true hv
      · exact .inr ⟨n, by simp [hn], hnv, rfl⟩

theorem randomIndex_run (hash : List Hashed → UInt64) (f : Prog.Handler (calls X) σ) (s : σ) (seed : Option UInt64)
    (valid : List (AgentNode X)) :
    ∃ i s', Prog.run f (ParentSelector.randomIndex hash seed valid).run s = (.ok (i % valid.length), s') := by
  cases seed <;> exact ⟨_, _, rfl⟩

/-- A weighted choice among the nodes that may become a parent. -/
theorem weightedChoice_exact (A : Arith R) (w : AgentNode X → R) (seed : Option UInt64) :
    Exact nodes (Prog.run f (weightedChoice A hash ((nodes.filter (·.validParent)).map fun n => (w n, n.agentId))
      seed).run s).1 := by
  by_cases hempty : nodes.filter (·.validParent) = []
  · rw [hempty]
    exact exact_error _ (none_valid hempty)
  · obtain ⟨id, hid, hr⟩ := weightedChoice_run A hash f s seed
      (mt List.map_eq_nil_iff.mp hempty)
    rw [hr]
    have hmem := falls_mem hid
    rw [List.map_map] at hmem
    obtain ⟨n, hn, hid⟩ := List.mem_map.mp hmem
    exact exact_ok (offered_valid hn hid)

theorem choose_exact (A : Arith R) (hash : List Hashed → UInt64) (f : Prog.Handler (calls X) σ) (s : σ)
    (nodes : List (AgentNode X)) (b : ParentSelector) : Exact nodes (Prog.run f (b.choose A hash nodes).run s).1 := by
  cases b with
  | latest =>
    apply exact_orError
    · intro id hid
      obtain ⟨n, hn, rfl⟩ := Option.map_eq_some_iff.mp hid
      exact ⟨n, List.mem_reverse.mp (List.mem_of_find?_eq_some hn), by simpa using List.find?_some hn, rfl⟩
    · intro hnone n hn
      rw [Option.map_eq_none_iff, List.find?_eq_none] at hnone
      exact eq_false_of_ne_true (hnone n (List.mem_reverse.mpr hn))
  | best =>
    obtain ⟨hb, hall⟩ | ⟨n, hn, hv, hb⟩ := bestOf_cases A nodes
    · rw [ParentSelector.choose, hb]
      exact exact_error _ hall
    · rw [ParentSelector.choose, hb]
      exact exact_ok ⟨n, hn, hv, rfl⟩
  | random seed =>
    rw [ParentSelector.choose]
    by_cases hempty : nodes.filter (·.validParent) = []
    · rw [if_pos (List.isEmpty_iff.mpr hempty)]
      exact exact_error _ (none_valid hempty)
    · rw [if_neg (by simpa using hempty)]
      obtain ⟨i, s', hi⟩ := randomIndex_run hash f s seed (nodes.filter (·.validParent))
      have hlt := Nat.mod_lt i (List.length_pos_iff.mpr hempty)
      rw [Prog.run_seq, hi, Prog.andThen_ok, List.getElem?_eq_getElem hlt]
      exact exact_ok (offered_valid (List.getElem_mem hlt) rfl)
  | scoreProportional seed => exact weightedChoice_exact A _ seed
  | scoreChildProportional seed => exact weightedChoice_exact A _ seed

/-- Whatever the store lists, the clock says and the hash draws, every built-in selector
    picks a listed node that may become a parent, and fails exactly if there is none. -/
theorem select_exact (A : Arith R) (hash : List Hashed → UInt64) (b : ParentSelector) {f : Prog.Handler (calls X) σ}
    {s s₁ : σ} (hn : f (.ledger .nodes) s = (.ok nodes, s₁)) : Exact nodes (Prog.run f (b.select A hash).run s).1 := by
  rw [ParentSelector.select_run A hash b hn]
  exact choose_exact A hash f s₁ nodes b

end

namespace Reference

/-- The pinned root, which has no score, and its child, which has 0.5. -/
def scoredLedger : InMemoryInner Reference := .push (.push .default snapshotNode) child

theorem scoredLedger_exact : Exact scoredLedger.list
    (exec host ((ParentSelector.scoreProportional none).select rational fun _ => 0) scoredLedger).1 :=
  select_exact (f := host.answer) rational (fun _ => 0) (.scoreProportional none) rfl

end Reference

end RigVeh
