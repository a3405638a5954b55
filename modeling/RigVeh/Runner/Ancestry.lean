/-
  RigVeh.Runner.Ancestry — an agent id fixes a node's whole ancestry.

  Interleaved operations keep a ledger `Sound`: a forest, of signed nodes that may be
  parents exactly if they are promoted, with a live head. So each node verifies and
  carries its artifact's SBOM, and its parent is stored (`Authentic`). An id fixes the
  fields of its node, among them the parent's id, and so on up: two such ledgers that
  hold one id agree on every ancestor (`ancestry_fixed`), whoever ran them.
-/

import RigVeh.Identity.Tamper
import RigVeh.Runner.Head
import RigVeh.Runner.Lineage
import RigVeh.Runner.Made

namespace RigVeh

open RigVeh.Json RigVeh.Base RigVeh.Base.Prog

variable {X : Crates}

/-! ## Sound ledgers -/

/-- What is promoted may be a parent, and nothing else. -/
def CommitInputs.Candid (i : CommitInputs X) : Prop := i.validParent = true ↔ i.status = .promoted

def Signed (s : InMemoryInner X) : Prop := ∀ id n, s.nodes id = some n → ∃ i k, i.Candid ∧ signNode i k = .ok n

/-- A forest of signed nodes with a live head. -/
structure Sound (s : InMemoryInner X) : Prop where
  lineage : Lineage s
  signed : Signed s
  live : Live s

section

variable {ok : Op X → Prop} {s : InMemoryInner X} {i : CommitInputs X} {key : X.SigningKey}

theorem made_grafts (h : Made ok s i key) : Grafts s i := by
  cases h with
  | root => exact .inl ⟨rfl, rfl⟩
  | cycle hp _ | resumed hp _ _ _ => exact .inr ⟨_, hp.parent, rfl, rfl⟩
  | rolledBack _ _ _ hp _ => exact .inr ⟨_, hp, rfl, rfl⟩

theorem made_candid (h : Made ok s i key) : i.Candid := by
  cases h with
  | root => exact ⟨fun _ => rfl, fun _ => rfl⟩
  | cycle _ hv =>
    cases hv with
    | approved => exact ⟨fun _ => rfl, fun _ => rfl⟩
    | regressed | denied => exact ⟨fun h => (by cases h), fun h => (by cases h)⟩
  | resumed | rolledBack => exact ⟨fun _ => rfl, fun _ => rfl⟩

theorem sound_closed (hS : X.Signs) (hH : X.HexReads) : Closed ok (Sound (X := X)) where
  empty := ⟨lineage_default, fun _ _ h => (by cases h), live_default⟩
  push {s i k node} _ hi hm hn hf := by
    have hin := (signNode_inputs hn).1
    refine ⟨lineage_push hi.lineage (hin ▸ made_grafts hm) hf, fun id n h => ?_, live_push hi.live (verify_signNode hS hH hn) hf⟩
    rcases InMemoryInner.stored_push h with h | ⟨-, rfl⟩
    · exact hi.signed id n h
    · exact ⟨i, k, made_candid hm, hn⟩
  point _ hi hn hp :=
    ⟨⟨InMemoryInner.head_wf hi.lineage.wf _, hi.lineage.forest⟩, hi.signed, live_point hi.live hn hp⟩

/-- Every ledger that interleaved operations reach is sound. -/
theorem served_sound (hS : X.Signs) (hH : X.HexReads) {ps : List (Prog (calls X) (Except Error (Outcome X)))}
    (hp : Pool Shared (Served ok) .default s ps) : Sound s := (served_closed (sound_closed hS hH) hp).2.1

end

/-! ## Authentic ledgers -/

/-- Every node verifies, carries its artifact's SBOM, and is a root or has its parent
    stored as well. -/
structure Authentic (s : InMemoryInner X) : Prop where
  keyed : ∀ id n, s.nodes id = some n → n.agentId = id
  verified : ∀ id n, s.nodes id = some n → verifyNode n = .ok ()
  derived : ∀ id n, s.nodes id = some n → n.capabilitySbom = n.artifact.capabilitySbom
  rooted : ∀ id n, s.nodes id = some n → ∀ parentId, n.parentId = some parentId → (s.nodes parentId).isSome

theorem Sound.authentic {s : InMemoryInner X} (h : Sound s) : Authentic s where
  keyed := h.live.wf.keyed
  verified := h.live.verified
  derived id n hn := by
    obtain ⟨i, k, -, hsign⟩ := h.signed id n hn
    obtain ⟨hi, hsbom, -⟩ := signNode_inputs hsign
    rw [hsbom, ← hi]
    rfl
  rooted id n hn parentId hp := by
    have hkey := h.live.wf.keyed id n hn
    have hmem : n ∈ s.list := (InMemoryInner.mem_list h.live.wf).mpr (hkey ▸ hn)
    obtain ⟨pre, post, hsplit⟩ := List.append_of_mem hmem
    rcases h.lineage.forest.earlier hsplit with hroot | ⟨p, hpre, hchild⟩
    · rw [hroot.1] at hp
      cases hp
    · obtain rfl : p.agentId = parentId := Option.some.inj (hchild.1.symm.trans hp)
      have hstored := (InMemoryInner.mem_list h.live.wf).mp (hsplit ▸ List.mem_append_left _ hpre)
      rw [hstored]
      rfl

/-- Stored in both ledgers, and the same on every field. -/
structure Twins (s s' : InMemoryInner X) (n n' : AgentNode X) : Prop where
  left : s.nodes n.agentId = some n
  right : s'.nodes n'.agentId = some n'
  agree : n.Agree n'

section

variable (hJ : X.JsonText) (hH : X.HexReads) (hM : X.ManifestInjective) {s s' : InMemoryInner X} (hs : Authentic s)
  (hs' : Authentic s')
  (hsha : ∀ id id' n n', s.nodes id = some n → s'.nodes id' = some n' → NoCollision n n')

include hJ hH hM hs hs' hsha

theorem twins_of_id {id : AgentId} {n n' : AgentNode X} (hn : s.nodes id = some n) (hn' : s'.nodes id = some n') :
    Twins s s' n n' := by
  have hkey := hs.keyed id n hn
  have hkey' := hs'.keyed id n' hn'
  refine ⟨hkey.symm ▸ hn, hkey'.symm ▸ hn', ?_⟩
  exact agree_of_derived hJ hH hM (hsha id id n n' hn hn') (hs.verified id n hn) (hs'.verified id n' hn')
    (hkey.trans hkey'.symm) (hs.derived id n hn) (hs'.derived id n' hn')

/-- One step up. -/
theorem twins_up {n n' : AgentNode X} (h : Twins s s' n n') :
    Option.Rel (Twins s s') (n.parentId.bind s.nodes) (n'.parentId.bind s'.nodes) := by
  have hparent : n.parentId = n'.parentId := h.agree.inputs.parentId
  rw [← hparent]
  rcases hid : n.parentId with _ | parentId
  · exact .none
  · obtain ⟨p, hp⟩ := Option.isSome_iff_exists.mp (hs.rooted _ n h.left parentId hid)
    obtain ⟨p', hp'⟩ := Option.isSome_iff_exists.mp (hs'.rooted _ n' h.right parentId (hparent ▸ hid))
    rw [Option.bind_some, Option.bind_some, hp, hp']
    exact .some (twins_of_id hJ hH hM hs hs' hsha hp hp')

end

/-- Two ledgers, each reached by interleaved operations of its own, that hold an id both
    agree on the whole ancestry of its nodes: they have as many ancestors, and the
    ancestors so many steps up agree on every field. -/
theorem ancestry_fixed (hS : X.Signs) (hJ : X.JsonText) (hH : X.HexReads) (hM : X.ManifestInjective)
    {ok ok' : Op X → Prop} {s s' : InMemoryInner X} {ps ps' : List (Prog (calls X) (Except Error (Outcome X)))}
    (hp : Pool Shared (Served ok) .default s ps) (hp' : Pool Shared (Served ok') .default s' ps')
    (hsha : ∀ id id' n n', s.nodes id = some n → s'.nodes id' = some n' → NoCollision n n') :
    ∀ id n n', s.nodes id = some n → s'.nodes id = some n' →
      ∀ k, Option.Rel AgentNode.Agree (s.follow k n) (s'.follow k n') := by
  intro id n n' hn hn' k
  have hs := (served_sound hS hH hp).authentic
  have hs' := (served_sound hS hH hp').authentic
  have hrel := climb_rel (fun _ _ h => twins_up hJ hH hM hs hs' hsha h) k (twins_of_id hJ hH hM hs hs' hsha hn hn')
  rw [InMemoryInner.follow, InMemoryInner.follow]
  generalize climb (fun n => n.parentId.bind s.nodes) k n = o, climb (fun n => n.parentId.bind s'.nodes) k n' = o' at hrel
  cases hrel with
  | none => exact .none
  | some h => exact .some h.agree

/-- Nodes that verify were hashed to their ids: different ids are no collision. -/
theorem noCollision_of_ids {n n' : AgentNode X} (hn : verifyNode n = .ok ()) (hn' : verifyNode n' = .ok ())
    (hid : n.agentId = n'.agentId → n = n') : NoCollision n n' := by
  by_cases heq : n.agentId = n'.agentId
  · obtain rfl := hid heq
    exact noCollision_of_same rfl rfl
  obtain ⟨p, σ, hv⟩ := (verifyNode_ok n).mp hn
  obtain ⟨p', σ', hv'⟩ := (verifyNode_ok n').mp hn'
  rintro _ _ ⟨q, τ, hq, hτ, rfl⟩ ⟨q', τ', hq', hτ', rfl⟩ hhash
  obtain rfl := Except.ok.inj (hv.payload_eq.symm.trans hq)
  obtain rfl := Except.ok.inj (hv.signature_eq.symm.trans hτ)
  obtain rfl := Except.ok.inj (hv'.payload_eq.symm.trans hq')
  obtain rfl := Except.ok.inj (hv'.signature_eq.symm.trans hτ')
  refine absurd ?_ heq
  rw [← hv.agentId_eq, ← hv'.agentId_eq, computeAgentId, computeAgentId, hhash]

namespace Reference

/-- The capped root and its rollback to itself, and then a second root. -/
def branch : InMemoryInner Reference := .push (.push .default cappedRoot) rolledBack
def longer : InMemoryInner Reference := branch.push snapshotNode

section

variable (ok : Op Reference → Prop) (hroot : ok (.commitRoot veh rootArtifact capped "2026-01-01T00:00:00Z"))
  (hback : ok (.commitRollback veh cappedRoot.agentId "2026-01-01T00:01:00Z"))

include hroot hback

theorem branch_served : ∃ ps, Pool Shared (Served ok) .default branch ps := by
  have h₀ : Pool (Shared (X := Reference)) (Served ok) .default .default [] := .init
  have h₁ := h₀.spawn _ ⟨.commitRoot veh rootArtifact capped "2026-01-01T00:00:00Z", rfl, hroot, trivial, trivial⟩
  have h₂ := pool_run (host_shared host) [] [] h₁
  have hroot : (run host.answer (Op.commitRoot veh rootArtifact capped "2026-01-01T00:00:00Z").act.run .default).2 =
      .push .default cappedRoot := commitRoot_pushes cappedRoot_signed rfl
  rw [hroot] at h₂
  have h₃ := h₂.spawn _ ⟨.commitRollback veh cappedRoot.agentId "2026-01-01T00:01:00Z", rfl, hback, trivial, trivial⟩
  have h₄ := pool_run (host_shared host) [_] [] h₃
  have hback : (run host.answer (Op.commitRollback veh cappedRoot.agentId "2026-01-01T00:01:00Z").act.run
      (.push .default cappedRoot)).2 = branch := rolledBack_committed
  rw [hback] at h₄
  exact ⟨_, h₄⟩

theorem longer_served (hagain : ok (.commitRoot veh rootArtifact .default "2026-01-01T00:00:00Z")) :
    ∃ ps, Pool Shared (Served ok) .default longer ps := by
  obtain ⟨ps, h⟩ := branch_served ok hroot hback
  have h₁ := h.spawn _ ⟨.commitRoot veh rootArtifact .default "2026-01-01T00:00:00Z", rfl, hagain, trivial, trivial⟩
  have h₂ := pool_run (host_shared host) ps [] h₁
  have hlonger : (run host.answer (Op.commitRoot veh rootArtifact .default "2026-01-01T00:00:00Z").act.run branch).2 =
      longer := commitRoot_pushes snapshot_signed (by decide)
  rw [hlonger] at h₂
  exact ⟨_, h₂⟩

end

/-- The rollback has the same parent in both. -/
theorem ancestry_fixed_branch : branch.follow 1 rolledBack = some cappedRoot ∧
    Option.Rel AgentNode.Agree (branch.follow 1 rolledBack) (longer.follow 1 rolledBack) := by
  obtain ⟨ps, hp⟩ := branch_served (fun _ => True) trivial trivial
  obtain ⟨ps', hp'⟩ := longer_served (fun _ => True) trivial trivial trivial
  have ha := (served_sound signs hexReads hp).authentic
  have ha' := (served_sound signs hexReads hp').authentic
  refine ⟨rfl, ancestry_fixed signs jsonText hexReads manifestInjective hp hp' ?_ rolledBack.agentId _ _ rfl rfl 1⟩
  intro id id' n n' hn hn'
  refine noCollision_of_ids (ha.verified id n hn) (ha'.verified id' n' hn') fun heq => ?_
  -- the longer ledger has what the branch has
  have hkey := ha.keyed id n hn
  have hkey' := ha'.keyed id' n' hn'
  have hstays : longer.nodes id = some n := InMemoryInner.push_stored (by decide) hn
  rw [← hkey, heq, hkey', hn'] at hstays
  exact (Option.some.inj hstays).symm

end Reference

end RigVeh
