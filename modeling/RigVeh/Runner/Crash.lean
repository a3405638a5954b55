/-
  RigVeh.Runner.Crash — interleaved operations on a file, in a process that may die.

  Operations run on one `JsonlLineage` as they do on a ledger in memory
  (`filed_shared`); a write is whole or not made. Between any two calls the process may
  die: what was running is lost, and the next process opens the file. Answers given
  before stay given: a pause may be resumed in a later process.

  While the appended lines read back, numbers and all, the ledger is in every state
  reached a forest of signed nodes with a live head, what any process answered is
  stored, and the file alone gives the ledger back (`crash_safe`).
-/

import RigVeh.Base.Crash
import RigVeh.Runner.Ancestry
import RigVeh.Runner.Session

namespace RigVeh

open RigVeh.Json RigVeh.Base RigVeh.Base.Prog

variable {X : Crates}

/-- The file's ledger answers as it is, the collaborators as they like. Every node
    appended is read back. -/
def Filed (codec : NodeCodec X) : Sys (calls X) (JsonlLineage X)
  | .ledger (.append node), s, r, s' => codec.Reads node ∧ (r, s') = s.append codec .done node
  | .ledger c, s, r, s' => (r, s') = c.answerFile codec s
  | _, s, _, s' => s' = s

/-- The next process has the ledger that the file holds. -/
def Reopens (codec : NodeCodec X) (s s' : JsonlLineage X) : Prop := JsonlLineage.open codec s.file = .ok s'

section

variable {codec : NodeCodec X}

/-- On a file as in memory. -/
theorem filed_shared {c : Call X} {s s' : JsonlLineage X} {r : (calls X).Ans c} (hj : s.Journaled codec)
    (hm : Filed codec c s r s') : s'.Journaled codec ∧ Shared c s.inner r s'.inner := by
  have hledger (c : LedgerCall X) (r : c.Ans) (hc : ∀ n, c = .append n → codec.Reads n)
      (hm : (r, s') = c.answerFile codec s) : s'.Journaled codec ∧ (r, s'.inner) = c.answer s.inner := by
    obtain ⟨hans, hb⟩ := call_backs (m := s.inner) .unasked (c := .ledger c) (fun n h => hc n (Call.ledger.inj h)) ⟨hj, rfl⟩
    have hr : r = (c.answerFile codec s).1 := congrArg Prod.fst hm
    have hs : s' = (c.answerFile codec s).2 := congrArg Prod.snd hm
    rw [hs, hr]
    exact ⟨hb.journaled, Prod.ext hans hb.inner⟩
  cases c with
  | ledger c =>
    cases c with
    | append n => exact hledger (.append n) r (fun m h => LedgerCall.append.inj h ▸ hm.1) hm.2
    | get id => exact hledger (.get id) r (fun m h => by cases h) hm
    | head => exact hledger .head r (fun m h => by cases h) hm
    | setHead id => exact hledger (.setHead id) r (fun m h => by cases h) hm
    | nodes => exact hledger .nodes r (fun m h => by cases h) hm
  | _ =>
    obtain rfl : s' = s := hm
    exact ⟨hj, rfl⟩

end

/-! ## Any process, any interleaving -/

section

variable {codec : NodeCodec X} {ok : Op X → Prop} {I : InMemoryInner X → Prop} {s s' : JsonlLineage X}

/-- What operations keep in memory, on a file that holds the ledger. -/
abbrev filed (codec : NodeCodec X) (I : InMemoryInner X → Prop) : Protocol (JsonlLineage X) :=
  (keeping (Upheld I)).along JsonlLineage.inner (·.Journaled codec)

/-- A restart moves the head to a promoted node, if there is one: it keeps what is closed. -/
theorem reopens_closed (hI : Closed ok I) (h : (filed codec I).inv s) (hr : Reopens codec s s') :
    (filed codec I).inv s' ∧ (filed codec I).later s s' := by
  obtain ⟨hj, hhead, hi⟩ := h
  have hopen := open_backs (show Backs codec s s.inner from ⟨hj, rfl⟩)
  have hs' : s' = ⟨s.file, { s.inner with head := s.inner.newest }⟩ := Except.ok.inj (hr.symm.trans hopen)
  have hj' : s'.Journaled codec := by
    have heq : s' = ⟨s.file, .replayed s.inner.list⟩ := Except.ok.inj (hr.symm.trans (JsonlLineage.open_journaled hj))
    exact heq ▸ (reopened_journaled hj).1
  subst hs'
  refine ⟨⟨hj', ?_⟩, fun _ _ h => h⟩
  rcases hnew : s.inner.newest with _ | id
  · rw [← headless hhead hnew]
    exact ⟨hhead, hi⟩
  · obtain ⟨n, hn, hp⟩ := newest_stored hhead.wf hnew
    exact ⟨headed_point hhead hn hp, hI.point hhead hi hn hp⟩

/-- What is closed holds of every file that interleaved operations reach, in one process
    after the other, and what any of them returned is named truly. -/
theorem mortal_closed (hI : Closed ok I) {ps : List (Prog (calls X) (Except Error (Outcome X)))}
    (hp : Mortal (Filed codec) (fun s ps p => Served ok s.inner ps p) (Reopens codec) .fresh s ps) :
    s.Journaled codec ∧ Upheld I s.inner ∧ ∀ o, .ret (.ok o) ∈ ps → Names ok o s.inner := by
  have hpool := mortal_safe (P := filed codec I) (Q := fun r s => ∀ o, r = .ok o → Names ok o s.inner)
    ⟨JsonlLineage.journaled_fresh, headed_default, hI.empty⟩
    (fun s ps p hi hps hst => safe_along (f := JsonlLineage.inner) (fun _ _ _ _ hj hm => filed_shared hj hm)
      (served_safe hI hi.2 (fun pending hmem => (hps _ hmem s (fun _ _ h => h) hi _ rfl).1 pending rfl) hst))
    (fun _ _ => reopens_closed hI) hp
  exact ⟨hpool.1.1, hpool.1.2, fun o ho => hpool.2 _ ho s (fun _ _ h => h) hpool.1 o rfl⟩

end

/-- In every state that interleaved operations on a file reach, in one process after the
    other, while appended lines read back with their numbers as written: each node
    verifies, carries its artifact's SBOM and comes after its parent; the head is a
    promoted node, and absent only if there is none; what was answered, in whichever
    process, is stored; and the file holds exactly the ledger's nodes. -/
theorem crash_safe (hS : X.Signs) (hH : X.HexReads) (codec : NodeCodec X) {ok : Op X → Prop} {s : JsonlLineage X}
    {ps : List (Prog (calls X) (Except Error (Outcome X)))}
    (hp : Mortal (Filed codec) (fun s ps p => Served ok s.inner ps p) (Reopens codec) .fresh s ps) :
    Authentic s.inner ∧
      (∀ pre n post, s.list = pre ++ n :: post → ∀ id, n.parentId = some id → ∃ p ∈ pre, p.agentId = id) ∧
      (s.head = none → ∀ n ∈ s.list, n.status ≠ .promoted) ∧
      (∀ id, s.head = some id → ∃ n ∈ s.list, n.agentId = id ∧ n.status = .promoted) ∧
      (∀ o, .ret (.ok o) ∈ ps → ∀ n ∈ o.nodes, n ∈ s.list) ∧
      JsonlLineage.open codec s.file = .ok ⟨s.file, { s.inner with head := s.inner.newest }⟩ := by
  obtain ⟨hj, ⟨hhead, hs⟩, hnames⟩ := mortal_closed (sound_closed hS hH) hp
  have hmem {n : AgentNode X} : n ∈ s.list ↔ s.inner.nodes n.agentId = some n := InMemoryInner.mem_list hhead.wf
  refine ⟨hs.authentic, fun pre n post hsplit id hid => ?_, fun hnone n hn => ?_, fun id hid => ?_,
    fun o ho n hn => hmem.mpr ((hnames o ho).2 n hn), open_backs ⟨hj, rfl⟩⟩
  · rcases hs.lineage.forest.earlier hsplit with hroot | ⟨p, hpre, hchild⟩
    · rw [hroot.1] at hid
      cases hid
    · exact ⟨p, hpre, Option.some.inj (hchild.1.symm.trans hid)⟩
  · exact hs.live.headless hnone _ n (hmem.mp hn)
  · obtain ⟨n, hn, hp⟩ := hhead.head id hid
    have hkey := hhead.wf.keyed id n hn
    exact ⟨n, hmem.mpr (hkey ▸ hn), hkey, hp⟩

namespace Reference

/-- The root is committed and the process dies; the next one has the root as its head. -/
theorem crash_safe_root : ∃ (s : JsonlLineage Reference) (ps : List (Prog (calls Reference) (Except Error (Outcome Reference)))),
    Mortal (Filed codec) (fun s ps p => Served (fun _ => True) s.inner ps p) (Reopens codec) .fresh s ps ∧
      s.head = some snapshotNode.agentId ∧ ∃ n ∈ s.list, n.agentId = snapshotNode.agentId ∧ n.status = .promoted := by
  obtain ⟨k, hk⟩ := commitRoot_calls snapshot_signed
  have h₀ : Mortal (Filed codec) (fun s ps p => Served (fun _ => True) s.inner ps p) (Reopens codec) .fresh .fresh [] := .init
  have h₁ := h₀.spawn _ ⟨.commitRoot veh rootArtifact .default "2026-01-01T00:00:00Z", rfl, trivial, trivial, trivial⟩
  rw [hk] at h₁
  obtain ⟨hans, hinner, hj⟩ := JsonlLineage.append_fresh JsonlLineage.journaled_fresh snapshot_reads rfl
  have happend : Filed codec (.ledger (.append snapshotNode)) .fresh (.ok ())
      (JsonlLineage.append codec .done snapshotNode .fresh).2 := ⟨snapshot_reads, Prod.ext hans.symm rfl⟩
  have h₂ : Mortal (Filed codec) _ (Reopens codec) .fresh _ ([] ++ k (.ok ()) :: []) := .step _ k (.ok ()) h₁ happend
  have h₃ := h₂.crash (JsonlLineage.open_journaled hj)
  have hhead : (InMemoryInner.replayed (JsonlLineage.append codec .done snapshotNode .fresh).2.inner.list).head =
      some snapshotNode.agentId := by
    rw [hinner]
    rfl
  exact ⟨_, _, h₃, hhead, (crash_safe signs hexReads codec h₃).2.2.2.1 _ hhead⟩

end Reference

end RigVeh
