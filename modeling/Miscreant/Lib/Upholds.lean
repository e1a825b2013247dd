/-
Programs that share a store and keep its invariant.

Each relies on the others for the invariant and for what is never undone
(`Shared`), and keeps both at each of its operations. What a program knows of
the store from its own operations (`K`) has to be among what is never undone.
The rules follow the program; `reachable_upholds` is what such programs give
together: in every state they can reach the invariant holds, and what each of
them has answered is right.
-/
import Miscreant.Lib.Pool

namespace Miscreant.Lib

/-- An invariant, and what no step undoes. -/
structure Shared (σ : Type) where
  Inv : σ → Prop
  Kept : σ → σ → Prop
  refl : ∀ s, Kept s s
  trans : ∀ s₁ s₂ s₃, Kept s₁ s₂ → Kept s₂ s₃ → Kept s₁ s₃

namespace Shared

variable {σ : Type} (C : Shared σ)

/-- What others may do. -/
def Step (s s' : σ) : Prop := C.Kept s s' ∧ (C.Inv s → C.Inv s')

theorem step_refl (s : σ) : C.Step s s := ⟨C.refl s, id⟩

theorem step_trans (s₁ s₂ s₃ : σ) (h : C.Step s₁ s₂) (h' : C.Step s₂ s₃) : C.Step s₁ s₃ :=
  ⟨C.trans _ _ _ h.1 h'.1, fun hi => h'.2 (h.2 hi)⟩

/-- A fact that lasts. -/
def Lasting (K : σ → Prop) : Prop := ∀ s s', K s → C.Kept s s' → K s'

variable {C}

theorem Lasting.true : C.Lasting fun _ => True := fun _ _ _ _ => trivial

theorem Lasting.and {K K' : σ → Prop} (hk : C.Lasting K) (hk' : C.Lasting K') : C.Lasting fun s => K s ∧ K' s :=
  fun s s' h hkept => ⟨hk s s' h.1 hkept, hk' s s' h.2 hkept⟩

end Shared

namespace Prog

variable {S : Sig} {ε ε' α β γ σ : Type}

/-- From a state in the invariant of which `K` is known, `p` among others keeps
what is shared, and ends as `Q` says. -/
def Upholds (h : Handler S σ) (C : Shared σ) (K : σ → Prop) (Q : Except ε α → Prop) (p : Prog S ε α) : Prop :=
  ∀ s, C.Inv s → K s → p.Safe h C.Step C.Step (fun _ _ => True) (fun r s => C.Inv s ∧ K s ∧ Q r) s

variable {h : Handler S σ} {C : Shared σ} {K : σ → Prop} {Q : Except ε α → Prop}

theorem Upholds.weaken {Q' : Except ε α → Prop} {p : Prog S ε α} (hp : p.Upholds h C K Q) (hq : ∀ r, Q r → Q' r) :
    p.Upholds h C K Q' :=
  fun s hi hk => (hp s hi hk).weaken fun r _ hr => ⟨hr.1, hr.2.1, hq r hr.2.2⟩

theorem Upholds.ret (hlast : C.Lasting K) {a : α} (hq : Q (.ok a)) : (Prog.ret a : Prog S ε α).Upholds h C K Q :=
  fun s hi hk s' hr => ⟨hr.2 hi, hlast s s' hk hr.1, hq⟩

theorem Upholds.fail (hlast : C.Lasting K) {e : ε} (hq : Q (.error e)) : (Prog.fail e : Prog S ε α).Upholds h C K Q :=
  fun s hi hk s' hr => ⟨hr.2 hi, hlast s s' hk hr.1, hq⟩

theorem Upholds.ofExcept (hlast : C.Lasting K) {x : Except ε α} (hq : Q x) :
    (Prog.ofExcept x : Prog S ε α).Upholds h C K Q := by
  cases x with
  | ok a => exact .ret hlast hq
  | error e => exact .fail hlast hq

/-- One operation: it keeps what is shared, and what it answers or shows of
the store is known from there on. -/
theorem Upholds.op (hlast : C.Lasting K) {o : S.Op} {k : S.Ans o → Prog S ε α} {L : S.Ans o → σ → Prop}
    (ho : ∀ s, C.Inv s → K s → C.Kept s (h o s).2 ∧ C.Inv (h o s).2 ∧ L (h o s).1 (h o s).2)
    (hk : ∀ ans, (k ans).Upholds h C (fun s => K s ∧ L ans s) Q) : (Prog.op o k).Upholds h C K Q := by
  intro s hi hks s' hr _
  have hi' := hr.2 hi
  have hks' := hlast s s' hks hr.1
  obtain ⟨hkept, hinv, hans⟩ := ho s' hi' hks'
  refine ⟨⟨hkept, fun _ => hinv⟩, ?_⟩
  exact (hk _ _ hinv ⟨hlast _ _ hks' hkept, hans⟩).weaken fun r _ hr => ⟨hr.1, hr.2.1.1, hr.2.2⟩

/-- An operation of which only the answer is known. -/
theorem Upholds.op_ans (hlast : C.Lasting K) {o : S.Op} {k : S.Ans o → Prog S ε α} {P : S.Ans o → Prop}
    (ho : ∀ s, C.Inv s → K s → C.Kept s (h o s).2 ∧ C.Inv (h o s).2 ∧ P (h o s).1)
    (hk : ∀ ans, P ans → (k ans).Upholds h C K Q) : (Prog.op o k).Upholds h C K Q := by
  intro s hi hks s' hr _
  have hks' := hlast s s' hks hr.1
  obtain ⟨hkept, hinv, hans⟩ := ho s' (hr.2 hi) hks'
  exact ⟨⟨hkept, fun _ => hinv⟩, hk _ hans _ hinv (hlast _ _ hks' hkept)⟩

theorem Upholds.bind {Q' : Except ε β → Prop} {p : Prog S ε α} {f : α → Prog S ε β} (hp : p.Upholds h C K Q)
    (hok : ∀ a, Q (.ok a) → (f a).Upholds h C K Q') (herr : ∀ e, Q (.error e) → Q' (.error e)) :
    (p >>= f).Upholds h C K Q' := by
  intro s hi hk
  refine Safe.bind (hp s hi hk) (fun a s' hr => ?_) (fun e s' hr => ⟨hr.1, hr.2.1, herr e hr.2.2⟩)
  obtain ⟨hi', hk', hq⟩ := hr s' (C.step_refl s')
  exact hok a hq s' hi' hk'

theorem Upholds.attempt {Q' : Except ε' (Except ε α) → Prop} {p : Prog S ε α}
    (hp : p.Upholds h C K fun r => Q' (.ok r)) : (p.attempt : Prog S ε' (Except ε α)).Upholds h C K Q' := by
  intro s hi hk
  have h := hp s hi hk
  clear hi hk hp
  induction p generalizing s with
  | ret a => exact h
  | fail e => exact h
  | op o k ih => exact fun s' hr ha => ⟨(h s' hr ha).1, ih _ _ (h s' hr ha).2⟩
  | stuck => trivial

theorem Upholds.forEach (hlast : C.Lasting K) {f : α → Prog S ε β} {R : α → β → Prop} {E : ε → Prop}
    {Q : Except ε (List β) → Prop} :
    ∀ {xs : List α},
      (∀ x ∈ xs, (f x).Upholds h C K fun r => match r with | .ok y => R x y | .error e => E e) →
      (∀ ys, List.Forall₂ R xs ys → Q (.ok ys)) → (∀ e, E e → Q (.error e)) → (Prog.forEach f xs).Upholds h C K Q
  | [], _, hok, _ => .ret hlast (hok [] .nil)
  | x :: xs, hf, hok, herr => by
    refine Upholds.bind (hf x (List.mem_cons_self ..)) (fun y hy => ?_) herr
    exact Upholds.bind (Q := fun r => match r with | .ok ys => List.Forall₂ R xs ys | .error e => E e)
      (Upholds.forEach hlast (fun x hx => hf x (List.mem_cons_of_mem _ hx)) (fun ys hys => hys) fun e he => he)
      (fun ys hys => .ret hlast (hok (y :: ys) (.cons hy hys))) herr

/-- A loop keeps the invariant of its variables from turn to turn. -/
theorem Upholds.loop (hlast : C.Lasting K) (step : γ → Prog S ε (γ ⊕ α)) {J : γ → Prop}
    (hstep : ∀ x, J x → (step x).Upholds h C K fun (r : Except ε (γ ⊕ α)) => match r with
      | .ok (.inl y) => J y
      | .ok (.inr a) => Q (.ok a)
      | .error e => Q (.error e)) :
    ∀ (fuel : Nat) {x : γ}, J x → (Prog.loop step fuel x).Upholds h C K Q := by
  intro fuel
  induction fuel with
  | zero => intro x _ s _ _; trivial
  | succ fuel ih =>
    intro x hx
    rw [run_loop_succ]
    refine Upholds.bind (hstep x hx) (fun r hr => ?_) fun e he => he
    cases r with
    | inl y => exact ih hr
    | inr a => exact .ret hlast hr

/-- What a program that ends alone has kept and answers. -/
theorem Upholds.run {p : Prog S ε α} {s s' : σ} {r : Except ε α} (hp : p.Upholds h C K Q) (hi : C.Inv s) (hk : K s)
    (hrun : p.run h s = some (r, s')) : C.Inv s' ∧ K s' ∧ Q r := by
  have h := hp s hi hk
  clear hi hk hp
  induction p generalizing s with
  | ret a => cases hrun; exact h _ (C.step_refl _)
  | fail e => cases hrun; exact h _ (C.step_refl _)
  | op o k ih => exact ih _ hrun (h s (C.step_refl s) trivial).2
  | stuck => cases hrun

end Prog

/-! ## Pools -/

section Pool

variable {S : Sig} {τ ε α σ : Type} {h : Handler S σ} {C : Shared σ} {Q : τ → Except ε α → Prop}
  {Start : τ → Prog S ε α → Prop} {Crash : σ → σ → Prop} {s : σ} {c : List (Thread S τ ε α) × σ}

/-- However threads that uphold the invariant are interleaved, it holds, and a
thread that has ended answers as it should. -/
theorem Pool.reachable_upholds (hstart : ∀ tag p, Start tag p → p.Upholds h C (fun _ => True) (Q tag))
    (hcrash : ∀ s s', C.Inv s → Crash s s' → C.Inv s') (hs : C.Inv s)
    (hc : Pool.Reachable h Start (fun _ _ _ => True) Crash s c) :
    C.Inv c.2 ∧ ∀ tag begun x, ⟨tag, begun, Prog.ofExcept x⟩ ∈ c.1 → Q tag x := by
  obtain ⟨hi, hts⟩ := Pool.reachable_inv (R := C.Step) (G := C.Step)
    (Q := fun tag r s => C.Inv s ∧ True ∧ Q tag r) C.step_refl C.step_trans
    (fun tag p s hp hi => ThreadSafe.of_safe (hstart tag p hp s hi trivial) fun _ _ _ => trivial)
    (fun s s' hi hg => ⟨hg, hg.2 hi⟩) hcrash hs hc
  exact ⟨hi, fun tag begun x hmem => ((hts _ hmem).ended C.step_refl).2.2⟩

end Pool

end Miscreant.Lib
