/-
  RigVeh.Base.Account — what the calls of a program come to, told by what it returned.

  `f` says what a call counts for, if anything. `Tells f Q p`: whenever `p` returned `a`,
  its own calls, in order, counted for a list that `Q a` holds of. The rules follow the
  program. However programs are interleaved, each one's calls come to what it tells
  (`timeline_tells`), and one that has not returned is on the way to it
  (`timeline_owes`).
-/

import RigVeh.Base.Timeline

namespace RigVeh.Base.Prog

variable {S : Sig} {α β γ ε σ : Type} (M : Sys S σ) (f : Moment S σ → Option γ)

def Tells (Q : α → List γ → Prop) (p : Prog S α) : Prop :=
  ∀ l a, Did p l (.ret a) → (∀ m ∈ l, M m.call m.before m.ans m.after) → Q a (l.filterMap f)

variable {M f} {Q : α → List γ → Prop}

theorem tells_mono {Q' : α → List γ → Prop} (hQ : ∀ a w, Q a w → Q' a w) {p : Prog S α} (hp : Tells M f Q p) :
    Tells M f Q' p :=
  fun l a hd hm => hQ a _ (hp l a hd hm)

theorem tells_ret {a : α} (h : Q a []) : Tells M f Q (.ret a) := by
  intro l b hd _
  obtain ⟨rfl, rfl⟩ := did_ret.mp hd
  exact h

/-- One call, and what the rest comes to after it. -/
theorem tells_call {c : S.Call} {k : S.Ans c → Prog S α}
    (h : ∀ i r s s', M c s r s' → Tells M f (fun a w => Q a ((f ⟨i, c, r, s, s'⟩).toList ++ w)) (k r)) :
    Tells M f Q (.call c k) := by
  intro l a hd hm
  obtain ⟨i, r, s, s', l', rfl, hd'⟩ := did_call.mp hd
  have hrest := h i r s s' (hm _ (.head _)) l' a hd' fun m hm' => hm m (.tail _ hm')
  rw [List.filterMap_cons]
  cases hf : f ⟨i, c, r, s, s'⟩ with
  | none => rwa [hf] at hrest
  | some x => rwa [hf] at hrest

theorem tells_bind {R : β → List γ → Prop} {p : Prog S β} {g : β → Prog S α} (hp : Tells M f R p)
    (hg : ∀ b w, R b w → Tells M f (fun a w' => Q a (w ++ w')) (g b)) : Tells M f Q (p >>= g) := by
  intro l a hd hm
  obtain ⟨l₁, l₂, b, rfl, hd₁, hd₂⟩ := did_bind.mp hd
  rw [List.filterMap_append]
  have hR := hp l₁ b hd₁ fun m hm' => hm m (List.mem_append_left _ hm')
  exact hg b _ hR l₂ a hd₂ fun m hm' => hm m (List.mem_append_right _ hm')

/-- Sequencing: what a failure comes to, it comes to as a whole. -/
theorem tells_seq {Q : Except ε α → List γ → Prop} {R : Except ε β → List γ → Prop} {x : ExceptT ε (Prog S) β}
    {g : β → ExceptT ε (Prog S) α} (hx : Tells M f R x.run) (he : ∀ e w, R (.error e) w → Q (.error e) w)
    (hg : ∀ b w, R (.ok b) w → Tells M f (fun a w' => Q a (w ++ w')) (g b).run) : Tells M f Q (x >>= g).run := by
  rw [ExceptT.run_bind]
  refine tells_bind hx fun r w hr => ?_
  cases r with
  | error e =>
    refine tells_ret ?_
    rw [List.append_nil]
    exact he e w hr
  | ok b => exact hg b w hr

theorem tells_check {Q : Except ε α → List γ → Prop} {r : Except ε β} {g : β → ExceptT ε (Prog S) α}
    (he : ∀ e, Q (.error e) []) (hg : ∀ b, r = .ok b → Tells M f Q (g b).run) : Tells M f Q (attempt r >>= g).run := by
  cases r with
  | error e => exact tells_ret (he e)
  | ok b => exact hg b rfl

/-- Calls that count for nothing. -/
theorem tells_makes {C : S.Call → Prop} (hC : ∀ m : Moment S σ, C m.call → f m = none) {p : Prog S α} (hp : p.Makes C) :
    Tells M f (fun _ w => w = []) p := by
  induction p with
  | ret a => exact tells_ret rfl
  | call c k ih =>
    refine tells_call fun i r s s' _ => ?_
    rw [hC ⟨i, c, r, s, s'⟩ hp.1]
    exact ih r (hp.2 r)

/-! ## Interleaved -/

/-- Where nothing is counted twice, what was counted tells which element it was. -/
theorem filterMap_inj {f : α → Option β} {l : List α} (hl : (l.filterMap f).Nodup) {a a' : α} {b : β} (ha : a ∈ l)
    (ha' : a' ∈ l) (hb : f a = some b) (hb' : f a' = some b) : a = a' := by
  induction l with
  | nil => cases ha
  | cons c l ih =>
    have hmem {x : α} (hx : x ∈ l) (hxb : f x = some b) : b ∈ l.filterMap f := List.mem_filterMap.mpr ⟨x, hx, hxb⟩
    rcases hc : f c with _ | b'
    · rw [List.filterMap_cons_none hc] at hl
      have hin {x : α} (hx : x ∈ c :: l) (hxb : f x = some b) : x ∈ l := by
        rcases List.mem_cons.mp hx with rfl | hx
        · rw [hc] at hxb
          cases hxb
        · exact hx
      exact ih hl (hin ha hb) (hin ha' hb')
    · rw [List.filterMap_cons_some hc, List.nodup_cons] at hl
      rcases List.mem_cons.mp ha with rfl | hin
      · obtain rfl : b' = b := Option.some.inj (hc.symm.trans hb)
        rcases List.mem_cons.mp ha' with rfl | hin'
        · rfl
        · exact absurd (hmem hin' hb') hl.1
      · rcases List.mem_cons.mp ha' with rfl | hin'
        · obtain rfl : b' = b := Option.some.inj (hc.symm.trans hb')
          exact absurd (hmem hin hb) hl.1
        · exact ih hl.2 hin hin'

variable {start : σ → List (Prog S α) → Prog S α → Prop} {s₀ s : σ} {t : List (Moment S σ)}
  {ps : List (Prog S α × Prog S α)}

theorem timeline_tells (h : Timeline M start s₀ t s ps) {i : Nat} {p : Prog S α} {a : α} (hi : ps[i]? = some (p, .ret a))
    (hp : Tells M f Q p) : Q a ((t.filter (·.who = i)).filterMap f) :=
  hp _ a (timeline_did h hi) fun _ hm => timeline_steps h (List.mem_filter.mp hm).1

/-- A program can be brought to return, if every call is answered. -/
theorem did_return (hM : ∀ c s, ∃ r s', M c s r s') (p : Prog S α) (s : σ) :
    ∃ l a, Did p l (.ret a) ∧ ∀ m ∈ l, M m.call m.before m.ans m.after := by
  induction p generalizing s with
  | ret a => exact ⟨[], a, .none _, fun m hm => by cases hm⟩
  | call c k ih =>
    obtain ⟨r, s', hm⟩ := hM c s
    obtain ⟨l, a, hd, hall⟩ := ih r s'
    exact ⟨⟨0, c, r, s, s'⟩ :: l, a, .call (m := ⟨0, c, r, s, s'⟩) hd, List.forall_mem_cons.mpr ⟨hm, hall⟩⟩

/-- What a program that has not returned did so far is the start of what it may tell. -/
theorem timeline_owes (hM : ∀ c s, ∃ r s', M c s r s') (h : Timeline M start s₀ t s ps) {i : Nat} {p q : Prog S α}
    (hi : ps[i]? = some (p, q)) (hp : Tells M f Q p) : ∃ a w, Q a w ∧ (t.filter (·.who = i)).filterMap f <+: w := by
  obtain ⟨l, a, hd, hm⟩ := did_return hM q s
  have hall := hp _ a (did_append (timeline_did h hi) hd) fun m hm' =>
    (List.mem_append.mp hm').elim (fun h' => timeline_steps h (List.mem_filter.mp h').1) (hm m)
  rw [List.filterMap_append] at hall
  exact ⟨a, _, hall, List.prefix_append _ _⟩

end RigVeh.Base.Prog
