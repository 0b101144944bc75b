import Mathlib.Data.Nat.Notation
import Mathlib.Logic.Relation

/-!
# Loops with a result

The body of a loop is a function `body : σ → Except ε (ρ ⊕ σ)` of the variables of the loop: a pass
ends the loop with a result, goes on with new values of the variables, or stops with an error.
`While.loop` runs such a loop for a bounded number of passes, and `While.Visits` relates the values
with which a loop begins to those with which any of its passes begins, without a bound.

`While.Correct` is the condition of total correctness on one pass: an invariant under which no pass
stops with an error, and a variant that falls with every pass that goes on. From it follow the
invariant at every pass (`While.Correct.inv_of_visits`) and a result after not many more passes than
the variant says (`While.Correct.exists_loop`).
-/

namespace While

variable {σ ρ ε : Type*}

/-- The pass with the variables `s` goes on with the variables `t`. -/
def Next (body : σ → Except ε (ρ ⊕ σ)) (s t : σ) : Prop := body s = .ok (.inr t)

/-- A pass of the loop begun with `s` begins with `t`. -/
def Visits (body : σ → Except ε (ρ ⊕ σ)) : σ → σ → Prop := Relation.ReflTransGen (Next body)

/-- The loop for at most `fuel` passes, with the error `outOfFuel` where these do not end it. -/
def loop (body : σ → Except ε (ρ ⊕ σ)) (outOfFuel : ε) : (fuel : ℕ) → σ → Except ε ρ
  | 0, _ => .error outOfFuel
  | fuel + 1, s =>
    match body s with
    | .error e => .error e
    | .ok (.inl result) => .ok result
    | .ok (.inr t) => loop body outOfFuel fuel t

/-- The conditions of total correctness, for an invariant `Inv`, a postcondition `Post` of the
result and a variant: a pass that begins with the invariant ends the loop with a right result, or it
goes on with the invariant and a smaller variant. -/
def Correct (body : σ → Except ε (ρ ⊕ σ)) (Inv : σ → Prop) (Post : ρ → Prop) (variant : σ → ℕ) :
    Prop :=
  ∀ s, Inv s → (∃ result, body s = .ok (.inl result) ∧ Post result) ∨
    ∃ t, Next body s t ∧ Inv t ∧ variant t < variant s

variable {body : σ → Except ε (ρ ⊕ σ)} {Inv : σ → Prop} {Post : ρ → Prop} {variant : σ → ℕ}

theorem Next.unique {s t t' : σ} (h : Next body s t) (h' : Next body s t') : t = t' :=
  Sum.inr.inj (Except.ok.inj (h.symm.trans h'))

theorem Next.ne_ends {s t : σ} (h : Next body s t) (result : ρ) : body s ≠ .ok (.inl result) :=
  fun hends => Sum.inr_ne_inl (Except.ok.inj (h.symm.trans hends))

theorem loop_of_ends {s : σ} {result : ρ} (h : body s = .ok (.inl result)) (outOfFuel : ε)
    (fuel : ℕ) : loop body outOfFuel (fuel + 1) s = .ok result := by
  rw [loop, h]

theorem loop_of_next {s t : σ} (h : Next body s t) (outOfFuel : ε) (fuel : ℕ) :
    loop body outOfFuel (fuel + 1) s = loop body outOfFuel fuel t := by
  rw [loop, show body s = _ from h]

theorem Correct.inv_of_visits (h : Correct body Inv Post variant) {s t : σ} (hs : Inv s)
    (hst : Visits body s t) : Inv t := by
  induction hst with
  | refl => exact hs
  | tail _ hnext ih =>
    rcases h _ ih with ⟨result, hends, -⟩ | ⟨t, ht, hinv, -⟩
    · exact absurd hends (hnext.ne_ends result)
    · exact ht.unique hnext ▸ hinv

/-- **Total correctness.** With more passes than the variant the loop ends, and its result is
right. -/
theorem Correct.exists_loop (h : Correct body Inv Post variant) (outOfFuel : ε) {fuel : ℕ} {s : σ}
    (hs : Inv s) (hfuel : variant s < fuel) :
    ∃ result, loop body outOfFuel fuel s = .ok result ∧ Post result := by
  induction fuel generalizing s with
  | zero => exact absurd hfuel (Nat.not_lt_zero _)
  | succ fuel ih =>
    rcases h s hs with ⟨result, hends, hpost⟩ | ⟨t, hnext, ht, hlt⟩
    · exact ⟨result, loop_of_ends hends outOfFuel fuel, hpost⟩
    · obtain ⟨result, hloop, hpost⟩ := ih ht (Nat.lt_of_lt_of_le hlt (Nat.le_of_lt_succ hfuel))
      exact ⟨result, (loop_of_next hnext outOfFuel fuel).trans hloop, hpost⟩

end While
