/-
Programs that end, run alone.

`Ends h p Q s` says that `p`, run alone from `s`, answers or fails, and
with what; a program that is stuck ends in nothing. It comes with a rule for
each way programs are put together.
-/
import Miscreant.Lib.Prog

namespace Miscreant.Lib.Prog

variable {S : Sig} {ε ε' α β γ σ : Type}

/-- `p` ends from `s`, as `Q` says. -/
def Ends (h : Handler S σ) (p : Prog S ε α) (Q : Except ε α → σ → Prop) (s : σ) : Prop :=
  ∃ r s', p.run h s = some (r, s') ∧ Q r s'

variable {h : Handler S σ} {Q : Except ε α → σ → Prop} {s : σ}

theorem Ends.ret {a : α} (hpost : Q (.ok a) s) : Ends h (Prog.ret a) Q s := ⟨_, _, rfl, hpost⟩

theorem Ends.fail {e : ε} (hpost : Q (.error e) s) : Ends h (Prog.fail e) Q s := ⟨_, _, rfl, hpost⟩

theorem Ends.ofExcept {x : Except ε α} (hpost : Q x s) : Ends h (Prog.ofExcept x) Q s :=
  ⟨x, s, run_ofExcept x s, hpost⟩

theorem Ends.op {o : S.Op} {k : S.Ans o → Prog S ε α} (hk : Ends h (k (h o s).1) Q (h o s).2) :
    Ends h (Prog.op o k) Q s := hk

/-- An operation whose answer is known. -/
theorem Ends.op_ans {o : S.Op} {k : S.Ans o → Prog S ε α} {a : S.Ans o} (ho : (h o s).1 = a)
    (hk : Ends h (k a) Q (h o s).2) : Ends h (Prog.op o k) Q s := by
  subst ho
  exact hk

theorem Ends.weaken {R : Except ε α → σ → Prop} {p : Prog S ε α} (hp : Ends h p Q s)
    (hpost : ∀ r s', Q r s' → R r s') : Ends h p R s := by
  obtain ⟨r, s', hrun, hr⟩ := hp
  exact ⟨r, s', hrun, hpost r s' hr⟩

theorem Ends.bind {R : Except ε β → σ → Prop} {p : Prog S ε α} {f : α → Prog S ε β} (hp : Ends h p Q s)
    (hok : ∀ a s', Q (.ok a) s' → Ends h (f a) R s') (herr : ∀ e s', Q (.error e) s' → R (.error e) s') :
    Ends h (p >>= f) R s := by
  obtain ⟨r, s', hrun, hr⟩ := hp
  cases r with
  | ok a =>
    obtain ⟨r', s'', hrun', hr'⟩ := hok a s' hr
    exact ⟨r', s'', by rw [run_bind_ok hrun, hrun'], hr'⟩
  | error e => exact ⟨_, s', run_bind_error hrun, herr e s' hr⟩

theorem Ends.bind_attempt {R : Except ε' β → σ → Prop} {p : Prog S ε α} {f : Except ε α → Prog S ε' β}
    (hp : Ends h p Q s) (hf : ∀ r s', Q r s' → Ends h (f r) R s') :
    Ends h ((p.attempt : Prog S ε' (Except ε α)) >>= f) R s := by
  obtain ⟨r, s', hrun, hr⟩ := hp
  have hattempt : (p.attempt : Prog S ε' (Except ε α)).run h s = some (.ok r, s') := by
    rw [run_attempt, hrun]
    rfl
  obtain ⟨r', s'', hrun', hr'⟩ := hf r s' hr
  exact ⟨r', s'', by rw [run_bind_ok hattempt, hrun'], hr'⟩

/-- Each element answers, and what it leaves behind the later ones leave
alone. -/
theorem Ends.forEach {f : α → Prog S ε β} {I : σ → Prop} {N : σ → σ → Prop} {R : α → β → σ → Prop}
    (refl : ∀ s, N s s) (trans : ∀ s₁ s₂ s₃, N s₁ s₂ → N s₂ s₃ → N s₁ s₃)
    (hlast : ∀ x y s s', R x y s → N s s' → R x y s') :
    ∀ {xs : List α} {s : σ}, I s →
      (∀ x ∈ xs, ∀ s, I s → Ends h (f x) (fun r s' => ∃ y, r = .ok y ∧ I s' ∧ N s s' ∧ R x y s') s) →
        Ends h (Prog.forEach f xs)
          (fun r s' => ∃ ys, r = .ok ys ∧ I s' ∧ N s s' ∧ List.Forall₂ (fun x y => R x y s') xs ys) s
  | [], s, hs, _ => .ret ⟨[], rfl, hs, refl s, .nil⟩
  | x :: xs, s, hs, hf => by
    refine Ends.bind (hf x (List.mem_cons_self ..) s hs) (fun y s' hy => ?_) fun e s' he => by
      obtain ⟨_, heq, -⟩ := he
      cases heq
    obtain ⟨_, heq, hi, hn, hr⟩ := hy
    cases heq
    refine Ends.bind (Ends.forEach refl trans hlast hi fun x hx => hf x (List.mem_cons_of_mem _ hx))
      (fun ys s'' hys => ?_) fun e s' he => by
        obtain ⟨_, heq, -⟩ := he
        cases heq
    obtain ⟨_, heq, hi', hn', hall⟩ := hys
    cases heq
    exact .ret ⟨y :: ys, rfl, hi', trans _ _ _ hn hn', .cons (hlast x y s' s'' hr hn') hall⟩

/-- A loop each of whose turns ends it or lowers a number ends, given more
fuel than that number. -/
theorem Ends.loop (step : γ → Prog S ε (γ ⊕ α)) {I : γ → σ → Prop} (μ : γ → Nat)
    (hstep : ∀ x s, I x s → Ends h (step x) (fun (r : Except ε (γ ⊕ α)) s' => match r with
      | .ok (.inl y) => I y s' ∧ μ y < μ x
      | .ok (.inr a) => Q (.ok a) s'
      | .error e => Q (.error e) s') s)
    {fuel : Nat} {x : γ} {s : σ} (hx : I x s) (hfuel : μ x < fuel) : Ends h (Prog.loop step fuel x) Q s := by
  obtain ⟨r, s', hpost, hrun⟩ := loop_bounded step μ hstep fuel x s hx hfuel
  exact ⟨r, s', hrun, hpost⟩

end Miscreant.Lib.Prog
