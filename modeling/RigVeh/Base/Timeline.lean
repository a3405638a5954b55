/-
  RigVeh.Base.Timeline — the calls of interleaved programs, in order.

  `Timeline` is a pool with its history: each `Moment` is one call, made by one of the
  programs, with its answer and the states before and after it. `Did p l q` says what a
  program is after its own calls: `p` made those of `l` and goes on as `q`; its rules
  follow the program. The history of a pool is a path of the system (`timeline_linked`,
  `timeline_steps`), and a program's own part of it is what it did (`timeline_did`).
-/

import RigVeh.Base.Program

namespace RigVeh.Base

/-- One call, made by the `who`-th program started. -/
structure Moment (S : Sig) (σ : Type) where
  who : Nat
  call : S.Call
  ans : S.Ans call
  before : σ
  after : σ

namespace Prog

variable {S : Sig} {α β ε σ : Type}

/-! ## What a program did -/

/-- `p` made the calls of `l`, was answered as there and goes on as `q`. -/
inductive Did : Prog S α → List (Moment S σ) → Prog S α → Prop
  | none (p : Prog S α) : Did p [] p
  | call {m : Moment S σ} {k : S.Ans m.call → Prog S α} {l : List (Moment S σ)} {q : Prog S α} :
      Did (k m.ans) l q → Did (.call m.call k) (m :: l) q

theorem did_append {p q r : Prog S α} {l l' : List (Moment S σ)} (h : Did p l q) (h' : Did q l' r) : Did p (l ++ l') r := by
  induction h with
  | none => exact h'
  | call _ ih => exact .call (ih h')

theorem did_split {p q : Prog S α} {l l' : List (Moment S σ)} (h : Did p (l ++ l') q) : ∃ r, Did p l r ∧ Did r l' q := by
  induction l generalizing p with
  | nil => exact ⟨p, .none p, h⟩
  | cons m l ih =>
    cases h with
    | call h =>
      obtain ⟨r, h1, h2⟩ := ih h
      exact ⟨r, .call h1, h2⟩

theorem did_ret {a b : α} {l : List (Moment S σ)} : Did (.ret a) l (.ret b) ↔ l = [] ∧ a = b := by
  constructor
  · intro h
    cases h
    exact ⟨rfl, rfl⟩
  · intro ⟨hl, hab⟩
    subst hl hab
    exact .none _

theorem did_call {c : S.Call} {k : S.Ans c → Prog S α} {b : α} {l : List (Moment S σ)} :
    Did (.call c k) l (.ret b) ↔ ∃ i r s s' l', l = ⟨i, c, r, s, s'⟩ :: l' ∧ Did (k r) l' (.ret b) := by
  constructor
  · intro h
    cases h with
    | @call m _ l' _ h => exact ⟨m.who, m.ans, m.before, m.after, l', rfl, h⟩
  · intro ⟨i, r, s, s', l', hl, h⟩
    subst hl
    exact .call (m := ⟨i, c, r, s, s'⟩) h

theorem did_op {c : S.Call} {r : S.Ans c} {l : List (Moment S σ)} :
    Did (op c) l (.ret r) ↔ ∃ i s s', l = [⟨i, c, r, s, s'⟩] := by
  rw [op, did_call]
  constructor
  · intro ⟨i, r', s, s', l', hl, h⟩
    obtain ⟨hnil, hr⟩ := did_ret.mp h
    subst hnil hr
    exact ⟨i, s, s', hl⟩
  · intro ⟨i, s, s', hl⟩
    exact ⟨i, r, s, s', [], hl, .none _⟩

theorem did_bind {x : Prog S α} {f : α → Prog S β} {b : β} {l : List (Moment S σ)} :
    Did (x >>= f) l (.ret b) ↔ ∃ l₁ l₂ a, l = l₁ ++ l₂ ∧ Did x l₁ (.ret a) ∧ Did (f a) l₂ (.ret b) := by
  induction x generalizing l with
  | ret a =>
    rw [ret_bind]
    constructor
    · intro h
      exact ⟨[], l, a, rfl, .none _, h⟩
    · intro ⟨l₁, l₂, a', hl, h₁, h₂⟩
      obtain ⟨hnil, ha⟩ := did_ret.mp h₁
      subst hnil ha hl
      exact h₂
  | call c k ih =>
    rw [call_bind, did_call]
    constructor
    · intro ⟨i, r, s, s', l', hl, h⟩
      obtain ⟨l₁, l₂, a, hl', h₁, h₂⟩ := (ih r).mp h
      exact ⟨⟨i, c, r, s, s'⟩ :: l₁, l₂, a, by rw [hl, hl', List.cons_append], .call (m := ⟨i, c, r, s, s'⟩) h₁, h₂⟩
    · intro ⟨l₁, l₂, a, hl, h₁, h₂⟩
      obtain ⟨i, r, s, s', l', hl', h₁⟩ := did_call.mp h₁
      exact ⟨i, r, s, s', l' ++ l₂, by rw [hl, hl', List.cons_append], (ih r).mpr ⟨l', l₂, a, rfl, h₁, h₂⟩⟩

/-- A program that succeeded did what its parts did, each of which succeeded. -/
theorem did_seq {x : ExceptT ε (Prog S) α} {f : α → ExceptT ε (Prog S) β} {b : β} {l : List (Moment S σ)} :
    Did (x >>= f).run l (.ret (.ok b)) ↔
      ∃ l₁ l₂ a, l = l₁ ++ l₂ ∧ Did x.run l₁ (.ret (.ok a)) ∧ Did (f a).run l₂ (.ret (.ok b)) := by
  rw [ExceptT.run_bind, did_bind]
  constructor
  · intro ⟨l₁, l₂, r, hl, h₁, h₂⟩
    cases r with
    | error e =>
      have h₂ : Did (.ret (Except.error e)) l₂ (.ret (.ok b)) := h₂
      cases (did_ret.mp h₂).2
    | ok a => exact ⟨l₁, l₂, a, hl, h₁, h₂⟩
  · intro ⟨l₁, l₂, a, hl, h₁, h₂⟩
    exact ⟨l₁, l₂, .ok a, hl, h₁, h₂⟩

theorem did_attempt {r : Except ε α} {a : α} {l : List (Moment S σ)} :
    Did (attempt r).run l (.ret (.ok a)) ↔ l = [] ∧ r = .ok a := did_ret

/-- Passing a result on makes no call. -/
theorem did_map {x : ExceptT ε (Prog S) α} {f : α → β} {b : β} {l : List (Moment S σ)} :
    Did (x >>= fun a => pure (f a)).run l (.ret (.ok b)) ↔ ∃ a, Did x.run l (.ret (.ok a)) ∧ f a = b := by
  have hpure (a : α) (l : List (Moment S σ)) : Did (pure (f a) : ExceptT ε (Prog S) β).run l (.ret (.ok b)) ↔
      l = [] ∧ f a = b := by
    rw [← Except.ok.injEq (ε := ε) (f a) b]
    exact did_ret
  rw [did_seq]
  constructor
  · intro ⟨l₁, l₂, a, hl, h, hr⟩
    obtain ⟨hnil, hf⟩ := (hpure a l₂).mp hr
    rw [hnil, List.append_nil] at hl
    exact ⟨a, hl ▸ h, hf⟩
  · intro ⟨a, h, hf⟩
    exact ⟨l, [], a, (List.append_nil l).symm, h, (hpure a []).mpr ⟨rfl, hf⟩⟩

/-! ## Histories of a pool -/

variable (M : Sys S σ)

/-- A pool with its moments; each program beside the one it was started as. -/
inductive Timeline (start : σ → List (Prog S α) → Prog S α → Prop) (s₀ : σ) :
    List (Moment S σ) → σ → List (Prog S α × Prog S α) → Prop
  | init : Timeline start s₀ [] s₀ []
  | spawn {t : List (Moment S σ)} {s : σ} {ps : List (Prog S α × Prog S α)} (p : Prog S α) : Timeline start s₀ t s ps →
      start s (ps.map Prod.snd) p → Timeline start s₀ t s (ps ++ [(p, p)])
  | step {t : List (Moment S σ)} {s s' : σ} {pre post : List (Prog S α × Prog S α)} {p : Prog S α} (c : S.Call)
      (k : S.Ans c → Prog S α) (r : S.Ans c) : Timeline start s₀ t s (pre ++ (p, .call c k) :: post) → M c s r s' →
      Timeline start s₀ (t ++ [⟨pre.length, c, r, s, s'⟩]) s' (pre ++ (p, k r) :: post)

/-- The moments lead from `s` to `s'`. -/
def Linked : σ → List (Moment S σ) → σ → Prop
  | s, [], s' => s = s'
  | s, m :: l, s' => m.before = s ∧ Linked m.after l s'

variable {M} {start : σ → List (Prog S α) → Prog S α → Prop} {s₀ s s' : σ} {t l l' : List (Moment S σ)}
  {ps : List (Prog S α × Prog S α)}

theorem linked_append : Linked s (l ++ l') s' ↔ ∃ u, Linked s l u ∧ Linked u l' s' := by
  induction l generalizing s with
  | nil => simp [Linked]
  | cons m l ih => simp only [List.cons_append, Linked, ih, exists_and_left, and_assoc]

/-- What each moment keeps holds before every moment, and at the end. -/
theorem linked_keeps {I : σ → Prop} (h : Linked s l s') (hi : I s) (hkeep : ∀ m ∈ l, I m.before → I m.after) :
    I s' ∧ ∀ m ∈ l, I m.before := by
  induction l generalizing s with
  | nil =>
    obtain rfl : s = s' := h
    exact ⟨hi, fun m hm => by cases hm⟩
  | cons m l ih =>
    obtain ⟨rfl, h⟩ := h
    obtain ⟨hend, hall⟩ := ih h (hkeep m (.head l) hi) fun m' hm' => hkeep m' (.tail m hm')
    refine ⟨hend, fun m' hm' => ?_⟩
    rcases List.mem_cons.mp hm' with rfl | hm'
    · exact hi
    · exact hall m' hm'

/-- The interleavings of the pool are those that have a timeline. -/
theorem pool_iff_timeline {qs : List (Prog S α)} :
    Pool M start s₀ s qs ↔ ∃ t ps, Timeline M start s₀ t s ps ∧ ps.map Prod.snd = qs := by
  constructor
  · intro h
    induction h with
    | init => exact ⟨[], [], .init, rfl⟩
    | spawn p _ hst ih =>
      obtain ⟨t, ps, h, rfl⟩ := ih
      exact ⟨t, _, .spawn p h hst, by rw [List.map_append]; rfl⟩
    | step c k r _ hm ih =>
      obtain ⟨t, ps, h, hps⟩ := ih
      obtain ⟨pre, rest, rfl, rfl, hrest⟩ := List.map_eq_append_iff.mp hps
      obtain ⟨⟨p, q⟩, post, rfl, hq, rfl⟩ := List.map_eq_cons_iff.mp hrest
      obtain rfl : q = .call c k := hq
      exact ⟨_, _, .step c k r h hm, by simp⟩
  · intro ⟨t, ps, h, hps⟩
    subst hps
    induction h with
    | init => exact .init
    | spawn p _ hst ih =>
      rw [List.map_append]
      exact .spawn p ih hst
    | step c k r _ hm ih =>
      rw [List.map_append, List.map_cons] at ih ⊢
      exact .step c k r ih hm

theorem timeline_linked (h : Timeline M start s₀ t s ps) : Linked s₀ t s := by
  induction h with
  | init => rfl
  | spawn p _ _ ih => exact ih
  | step c k r _ _ ih => exact linked_append.mpr ⟨_, ih, rfl, rfl⟩

theorem timeline_steps (h : Timeline M start s₀ t s ps) {m : Moment S σ} (hm : m ∈ t) : M m.call m.before m.ans m.after := by
  induction h with
  | init => cases hm
  | spawn p _ _ ih => exact ih hm
  | step c k r _ hstep ih =>
    rcases List.mem_append.mp hm with hm | hm
    · exact ih hm
    · obtain rfl := List.mem_singleton.mp hm
      exact hstep

theorem timeline_who (h : Timeline M start s₀ t s ps) {m : Moment S σ} (hm : m ∈ t) : m.who < ps.length := by
  induction h with
  | init => cases hm
  | spawn p _ _ ih =>
    have := ih hm
    simp only [List.length_append, List.length_singleton]
    omega
  | step c k r _ _ ih =>
    rw [List.length_append, List.length_cons] at ih ⊢
    rcases List.mem_append.mp hm with hm | hm
    · exact ih hm
    · obtain rfl := List.mem_singleton.mp hm
      simp only
      omega

/-- What a program did are its moments of the history. -/
theorem timeline_did (h : Timeline M start s₀ t s ps) {i : Nat} {p q : Prog S α} (hi : ps[i]? = some (p, q)) :
    Did p (t.filter (·.who = i)) q := by
  induction h generalizing q with
  | init => cases hi
  | @spawn t s ps p' h _ ih =>
    rw [List.getElem?_append] at hi
    split at hi
    · exact ih hi
    -- the program just started has made no call
    rename_i hge
    have hnone : t.filter (fun m => m.who = i) = [] := by
      refine List.filter_eq_nil_iff.mpr fun m hm => ?_
      have := timeline_who h hm
      simp only [decide_eq_true_eq]
      omega
    have hpq := List.mem_singleton.mp (List.mem_of_getElem? hi)
    cases hpq
    rw [hnone]
    exact .none _
  | @step t s s' pre post p' c k r _ hm ih =>
    rw [List.filter_append]
    by_cases hwho : i = pre.length
    · subst hwho
      rw [List.getElem?_append_right (Nat.le_refl _), Nat.sub_self] at hi
      cases hi
      refine did_append (ih (q := .call c k) ?_) ?_
      · rw [List.getElem?_append_right (Nat.le_refl _), Nat.sub_self]
        rfl
      · rw [List.filter_cons_of_pos (by simp)]
        exact .call (m := ⟨pre.length, c, r, s, s'⟩) (.none _)
    · rw [List.filter_cons_of_neg (by simpa using fun h => hwho h.symm), List.filter_nil, List.append_nil]
      refine ih ?_
      rw [List.getElem?_append] at hi ⊢
      split
      · rename_i hlt
        rwa [if_pos hlt] at hi
      · rename_i hge
        rw [if_neg hge, List.getElem?_cons, if_neg (by omega)] at hi
        rwa [List.getElem?_cons, if_neg (by omega)]

/-- What is kept of a list stands in it in the same order. -/
theorem filter_split {α : Type} {p : α → Bool} {l : List α} (l₁ l₂ l₃ : List α) {x y : α}
    (h : l.filter p = l₁ ++ x :: (l₂ ++ y :: l₃)) : ∃ a b c, l = a ++ x :: (b ++ y :: c) := by
  obtain ⟨a, r, rfl, -, h⟩ := List.filter_eq_append_iff.mp h
  obtain ⟨a', r, rfl, -, -, h⟩ := List.filter_eq_cons_iff.mp h
  obtain ⟨b, r, rfl, -, h⟩ := List.filter_eq_append_iff.mp h
  obtain ⟨b', c, rfl, -⟩ := List.filter_eq_cons_iff.mp h
  exact ⟨a ++ a', b ++ b', c, by simp⟩

/-- A program of the pool may make several of its calls in a row. -/
theorem timeline_does (pre post : List (Prog S α × Prog S α)) {p q r : Prog S α}
    (h : Timeline M start s₀ t s (pre ++ (p, q) :: post)) (hd : Did q l r) (hl : Linked s l s')
    (hm : ∀ m ∈ l, m.who = pre.length ∧ M m.call m.before m.ans m.after) :
    Timeline M start s₀ (t ++ l) s' (pre ++ (p, r) :: post) := by
  induction hd generalizing t s with
  | none =>
    obtain rfl : s = s' := hl
    rwa [List.append_nil]
  | @call m k l r _ ih =>
    obtain ⟨rfl, hl⟩ := hl
    obtain ⟨hwho, hstep⟩ := hm m (.head l)
    have hnext := Timeline.step m.call k m.ans h hstep
    rw [← hwho] at hnext
    have := ih hnext hl fun m' hm' => hm m' (.tail m hm')
    rwa [List.append_assoc] at this

end Prog

end RigVeh.Base
