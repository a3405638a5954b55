/-
  RigVeh.Runner.Shared — operations that share a ledger.

  The ledger answers each call at once, the collaborators answer as they like, and
  between two calls of an operation others may be answered. What every operation may
  rely on is that stored nodes stay as they are; `keeping I` adds an invariant `I` of
  the ledger. A call that only reads keeps any invariant, and a node that was read is
  still stored when the program goes on (`get_keeps`).
-/

import RigVeh.Runner.Runs

namespace RigVeh

open RigVeh.Json RigVeh.Base RigVeh.Base.Prog

variable {X : Crates}

/-- The ledger answers as it is, the collaborators as they like. -/
def Shared : Sys (calls X) (InMemoryInner X)
  | .ledger c, s, r, s' => (r, s') = c.answer s
  | _, s, _, s' => s' = s

/-- A host's collaborators answer as they like. -/
theorem host_shared (h : Host X) (c : Call X) (s : InMemoryInner X) : Shared c s (h.answer c s).1 (h.answer c s).2 := by
  cases c <;> rfl

/-! ## Calls -/

section

variable {s s' : InMemoryInner X} {r : Except Error Unit}

theorem shared_append {node : AgentNode X} (h : Shared (.ledger (.append node)) s r s') :
    (s.nodes node.agentId = none ∧ r = .ok () ∧ s' = s.push node) ∨ (∃ e, r = .error e) ∧ s' = s := by
  have h : (r, s') = s.append node := h
  by_cases hf : s.nodes node.agentId = none
  · rw [InMemoryInner.append_fresh hf] at h
    exact .inl ⟨hf, congrArg Prod.fst h, congrArg Prod.snd h⟩
  · rw [InMemoryInner.append_duplicate hf] at h
    exact .inr ⟨⟨_, congrArg Prod.fst h⟩, congrArg Prod.snd h⟩

theorem shared_setHead {id : AgentId} (h : Shared (.ledger (.setHead id)) s r s') :
    (r = .ok () ∧ s' = { s with head := some id }) ∨ (∃ e, r = .error e) ∧ s' = s := by
  have h : (r, s') = s.setHead id := h
  rw [InMemoryInner.setHead] at h
  split at h
  · exact .inl ⟨congrArg Prod.fst h, congrArg Prod.snd h⟩
  · exact .inr ⟨⟨_, congrArg Prod.fst h⟩, congrArg Prod.snd h⟩

theorem shared_get {id : AgentId} {n : AgentNode X} (h : Shared (.ledger (.get id)) s (.ok n) s') :
    s.nodes id = some n ∧ s' = s := by
  have h : (.ok n, s') = (s.get id, s) := h
  exact ⟨InMemoryInner.get_ok.mp (congrArg Prod.fst h).symm, congrArg Prod.snd h⟩

theorem shared_head {head : Option AgentId} (h : Shared (X := X) (.ledger .head) s (.ok head) s') :
    head = s.head ∧ s' = s := by
  have h : (Except.ok (ε := Error) head, s') = (.ok s.head, s) := h
  exact ⟨Except.ok.inj (congrArg Prod.fst h), congrArg Prod.snd h⟩

end

/-! ## What operations keep -/

/-- Stored nodes stay as they are. -/
def NodesStay (s s' : InMemoryInner X) : Prop :=
  ∀ id n, s.nodes id = some n → s'.nodes id = some n

/-- Any call leaves stored nodes as they are. -/
theorem shared_keeps {c : Call X} {s s' : InMemoryInner X} {r : (calls X).Ans c} (h : Shared c s r s') : NodesStay s s' := by
  intro id n hn
  cases c with
  | ledger c =>
    cases c with
    | append node =>
      rcases shared_append h with ⟨hf, -, rfl⟩ | ⟨-, rfl⟩
      · exact InMemoryInner.push_stored hf hn
      · exact hn
    | setHead id =>
      rcases shared_setHead h with ⟨-, rfl⟩ | ⟨-, rfl⟩
      · exact hn
      · exact hn
    | _ =>
      obtain rfl : s' = s := congrArg Prod.snd h
      exact hn
  | _ =>
    obtain rfl : s' = s := h
    exact hn

/-- `I` is kept, and stored nodes stay as they are. -/
def keeping (I : InMemoryInner X → Prop) : Protocol (InMemoryInner X) where
  inv := I
  later := NodesStay
  refl _ _ _ h := h
  trans h h' id n hn := h' id n (h id n hn)

section

variable {I : InMemoryInner X → Prop} {s : InMemoryInner X} {α : Type}

abbrev KeepsTo (I : InMemoryInner X → Prop) (R : α → InMemoryInner X → Prop) (x : Act X α) (s : InMemoryInner X) : Prop :=
  SafeTo Shared (keeping I) R x s

/-- An append keeps what the push of a node not yet stored keeps. -/
theorem append_keeps {node : AgentNode X}
    (hpush : ∀ s', NodesStay s s' → I s' → s'.nodes node.agentId = none → I (s'.push node)) :
    KeepsTo I (fun _ _ => True) (Act.append node) s := by
  intro s₁ hl hi r s₂ hm
  rcases shared_append hm with ⟨hf, -, rfl⟩ | ⟨-, rfl⟩
  · exact ⟨hpush s₁ hl hi hf, fun _ _ h => InMemoryInner.push_stored hf h, fun _ _ _ _ _ => trivial⟩
  · exact ⟨hi, fun _ _ h => h, fun _ _ _ _ _ => trivial⟩

/-- One call that leaves the ledger as it is. -/
theorem asks_keeps {x : Act X α} (c : Call X) (f : (calls X).Ans c → Except Error α)
    (hx : x.run = .call c fun r => .ret (f r)) (hc : ∀ s r s', Shared c s r s' → s' = s) :
    KeepsTo I (fun _ _ => True) x s := by
  rw [KeepsTo, SafeTo, hx]
  intro s₁ _ hi r s₂ hm
  obtain rfl := hc s₁ r s₂ hm
  exact ⟨hi, fun _ _ h => h, fun _ _ _ _ _ => trivial⟩

/-- What is read stays read. -/
theorem get_keeps (id : AgentId) : KeepsTo I (fun n s' => s'.nodes id = some n) (Act.get id) s := by
  intro s₁ _ hi r s₂ hm
  have hm : (r, s₂) = (s₁.get id, s₁) := hm
  cases hm
  exact ⟨hi, fun _ _ h => h, fun s' hl _ n hn => hl id n (InMemoryInner.get_ok.mp hn)⟩

theorem head_keeps : KeepsTo I (fun _ _ => True) Act.head s :=
  asks_keeps (.ledger .head) id rfl fun _ _ _ h => congrArg Prod.snd h

theorem evaluate_keeps (artifact : AgentArtifact X) : KeepsTo I (fun _ _ => True) (Act.evaluate artifact) s :=
  asks_keeps (.evaluate artifact) id rfl fun _ _ _ h => h

theorem propose_keeps (parent : AgentNode X) (intent : MutationIntent) (context : MutationContext) :
    KeepsTo I (fun _ _ => True) (Act.propose parent intent context) s :=
  asks_keeps (.propose parent intent context) id rfl fun _ _ _ h => h

theorem enforce_keeps (artifact : AgentArtifact X) (scope : AllowedScope) :
    KeepsTo I (fun _ _ => True) (Act.enforce artifact scope) s :=
  asks_keeps (.enforce artifact scope) id rfl fun _ _ _ h => h

theorem teardown_keeps : KeepsTo I (fun _ _ => True) Act.teardown s :=
  asks_keeps .teardown id rfl fun _ _ _ h => h

/-- An outcome kept as a value still says what the program would have returned. -/
theorem observe_keeps {R : α → InMemoryInner X → Prop} {x : Act X α} (hi : I s) (hx : KeepsTo I R x s) :
    KeepsTo I (fun r s' => ∀ a, r = .ok a → R a s') (observe x) s := by
  refine safe_bind (safe_mono (fun r s' _ h => ?_) (safe_stays hx)) hi
  intro t hl hi' r' hr
  cases hr
  exact h t hl hi'

/-- A checked target is still stored, and promoted, when the program goes on. -/
theorem rollbackTarget_keeps (hi : I s) (id : AgentId) :
    KeepsTo I (fun target s' => s'.nodes id = some target ∧ target.status = .promoted) (rollbackTarget id) s := by
  apply safeTo_then hi (get_keeps id)
  intro target s₁ _ hi₁ ht
  apply safeTo_check hi₁
  intro _ _ s₂ hl₂ _
  split
  · exact safeTo_attempt fun _ he => by cases he
  · rename_i hp
    exact safeTo_pure fun s₃ hl₃ _ => ⟨hl₃ id target (hl₂ id target ht), not_not.mp hp⟩

end

end RigVeh
