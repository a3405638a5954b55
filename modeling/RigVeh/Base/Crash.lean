/-
  RigVeh.Base.Crash — interleaved programs whose process may die.

  `Mortal` is a pool that may lose, at any time, every program that has not returned;
  the state becomes one that a restart makes of it, and what had returned stays
  returned. A protocol that a restart keeps holds in every state reached
  (`mortal_safe`).

  What is safe against a system is safe against one that implements it (`safe_along`).
-/

import RigVeh.Base.Program

namespace RigVeh.Base.Prog

variable {S : Sig} {α σ τ : Type}

def isRet : Prog S α → Bool
  | .ret _ => true
  | .call _ _ => false

inductive Mortal (M : Sys S σ) (start : σ → List (Prog S α) → Prog S α → Prop) (restart : σ → σ → Prop) (s₀ : σ) :
    σ → List (Prog S α) → Prop
  | init : Mortal M start restart s₀ s₀ []
  | spawn {s : σ} {ps : List (Prog S α)} (p : Prog S α) : Mortal M start restart s₀ s ps → start s ps p →
      Mortal M start restart s₀ s (ps ++ [p])
  | step {s s' : σ} {pre post : List (Prog S α)} (c : S.Call) (k : S.Ans c → Prog S α) (r : S.Ans c) :
      Mortal M start restart s₀ s (pre ++ .call c k :: post) → M c s r s' →
      Mortal M start restart s₀ s' (pre ++ k r :: post)
  | crash {s s' : σ} {ps : List (Prog S α)} : Mortal M start restart s₀ s ps → restart s s' →
      Mortal M start restart s₀ s' (ps.filter isRet)

variable {M : Sys S σ} {P : Protocol σ} {Q : α → σ → Prop}

theorem mortal_safe {start : σ → List (Prog S α) → Prog S α → Prop} {restart : σ → σ → Prop} {s₀ : σ} (h₀ : P.inv s₀)
    (hstart : ∀ s ps p, P.inv s → (∀ q ∈ ps, Safe M P Q q s) → start s ps p → Safe M P Q p s)
    (hrestart : ∀ s s', P.inv s → restart s s' → P.inv s' ∧ P.later s s') {s : σ} {ps : List (Prog S α)}
    (hp : Mortal M start restart s₀ s ps) : P.inv s ∧ ∀ p ∈ ps, Safe M P Q p s := by
  induction hp with
  | init => exact ⟨h₀, fun _ h => by cases h⟩
  | spawn p _ hst ih =>
    refine ⟨ih.1, fun q hq => ?_⟩
    rcases List.mem_append.mp hq with hq | hq
    · exact ih.2 q hq
    · obtain rfl := List.mem_singleton.mp hq
      exact hstart _ _ _ ih.1 ih.2 hst
  | @step s s' pre post c k r _ hm ih =>
    obtain ⟨h1, h2, h3⟩ := ih.2 (.call c k) (by simp) s (P.refl s) ih.1 r s' hm
    refine ⟨h1, fun q hq => ?_⟩
    rcases List.mem_append.mp hq with hq | hq
    · exact safe_later h2 (ih.2 q (by simp [hq]))
    · rcases List.mem_cons.mp hq with rfl | hq
      · exact h3
      · exact safe_later h2 (ih.2 q (by simp [hq]))
  | crash _ hr ih =>
    obtain ⟨hi, hl⟩ := hrestart _ _ ih.1 hr
    exact ⟨hi, fun q hq => safe_later hl (ih.2 q (List.mem_filter.mp hq).1)⟩

/-! ## An implementation -/

/-- The protocol seen through `f`, and `J` of what is behind it. -/
def Protocol.along (P : Protocol σ) (f : τ → σ) (J : τ → Prop) : Protocol τ where
  inv t := J t ∧ P.inv (f t)
  later t t' := P.later (f t) (f t')
  refl t := P.refl (f t)
  trans := P.trans

theorem safe_along {M' : Sys S τ} {f : τ → σ} {J : τ → Prop}
    (hM : ∀ c t r t', J t → M' c t r t' → J t' ∧ M c (f t) r (f t')) {p : Prog S α} {t : τ} (h : Safe M P Q p (f t)) :
    Safe M' (P.along f J) (fun a t => Q a (f t)) p t := by
  induction p generalizing t with
  | ret a => exact fun t' hl hi => h (f t') hl hi.2
  | call c k ih =>
    intro t₁ hl hi r t₂ hm
    obtain ⟨hj, hm'⟩ := hM c t₁ r t₂ hi.1 hm
    obtain ⟨h1, h2, h3⟩ := h (f t₁) hl hi.2 r (f t₂) hm'
    exact ⟨⟨hj, h1⟩, h2, ih r h3⟩

end RigVeh.Base.Prog
