/-
Programs at two levels: an abstract one, and the one that carries it out by
the operations of another store.

`Refines` is a simulation among others, by recursion on the lower program:
whatever the others have done (`Moves`), an operation of it is some operations
of the upper, one right after another and perhaps none, and both end alike.
The relation of the two stores (`Rel`) holds all along. `Refines.run` says what
it gives of one program alone, and `Pool.refines` of a whole pool: each
interleaving below is one of those above.

`carry` carries a program out operation by operation, and `Refines.carry` is
the rule for it. Where the upper level has several stores, a program runs
`inside` one of them.
-/
import Miscreant.Lib.Pool

namespace Miscreant.Lib

/-- Two levels: how each does its operations, what relates their stores, and
what the programs that run on them do to the two at once. -/
structure Levels (S S' : Sig) (σ τ : Type) where
  upper : Handler S σ
  lower : Handler S' τ
  Rel : σ → τ → Prop
  Moves : σ → τ → σ → τ → Prop
  refl : ∀ s t, Moves s t s t
  trans : ∀ {s₁ t₁ s₂ t₂ s₃ t₃}, Moves s₁ t₁ s₂ t₂ → Moves s₂ t₂ s₃ t₃ → Moves s₁ t₁ s₃ t₃

/-- The operations of `S`, each at one of several stores. -/
abbrev Sig.each (ι : Type) (S : Sig) : Sig := ⟨ι × S.Op, fun o => S.Ans o.2⟩

namespace Prog

variable {S S' : Sig} {ε ε' α β γ δ σ τ : Type}

/-- `p` comes from `s` to what is left of it at `t`, its operations one right
after another. -/
inductive Comes (h : Handler S σ) : Prog S ε α → σ → Prog S ε α → σ → Prop
  | here (p : Prog S ε α) (s : σ) : Comes h p s p s
  | op {o : S.Op} {k : S.Ans o → Prog S ε α} {s t : σ} {q : Prog S ε α} (hk : Comes h (k (h o s).1) (h o s).2 q t) :
    Comes h (op o k) s q t

namespace Comes

variable {h : Handler S σ} {p q r : Prog S ε α} {s t u : σ}

theorem trans (hpq : Comes h p s q t) (hqr : Comes h q t r u) : Comes h p s r u := by
  induction hpq with
  | here => exact hqr
  | op _ ih => exact .op (ih hqr)

theorem bind (hpq : Comes h p s q t) (f : α → Prog S ε β) : Comes h (p >>= f) s (q >>= f) t := by
  induction hpq with
  | here => exact .here _ _
  | op _ ih => exact .op ih

theorem run (hpq : Comes h p s q t) : p.run h s = q.run h t := by
  induction hpq with
  | here => rfl
  | op _ ih => rw [run_op, ih]

end Comes

/-- `l` carries out `p`, from `s` above and `t` below, among others; they end
as `Q` says. -/
def Refines (L : Levels S S' σ τ) (Q : Except ε' β → Except ε α → Prop) :
    Prog S' ε' β → Prog S ε α → σ → τ → Prop
  | ret b, p, _, _ => ∃ a, p = ret a ∧ Q (.ok b) (.ok a)
  | fail e, p, _, _ => ∃ e', p = fail e' ∧ Q (.error e) (.error e')
  | op o k, p, s, t => ∀ s' t', L.Moves s t s' t' → L.Rel s' t' → ∃ q s'',
      Comes L.upper p s' q s'' ∧ L.Rel s'' (L.lower o t').2 ∧ L.Moves s' t' s'' (L.lower o t').2 ∧
        (k (L.lower o t').1).Refines L Q q s'' (L.lower o t').2
  | stuck, p, _, _ => p = stuck

/-- `l` carries out what is left of `p` once it has done what changes
nothing. -/
def Starts (L : Levels S S' σ τ) (Q : Except ε' β → Except ε α → Prop) (l : Prog S' ε' β) (p : Prog S ε α) (s : σ)
    (t : τ) : Prop :=
  ∃ q, Comes L.upper p s q s ∧ l.Refines L Q q s t

section Rules

variable {L : Levels S S' σ τ} {Q : Except ε' β → Except ε α → Prop} {l : Prog S' ε' β} {p : Prog S ε α} {s : σ} {t : τ}

theorem Refines.starts (hl : l.Refines L Q p s t) : l.Starts L Q p s t := ⟨p, .here p s, hl⟩

theorem Refines.ret {a : α} {b : β} (hq : Q (.ok b) (.ok a)) : (ret b : Prog S' ε' β).Refines L Q (Prog.ret a) s t :=
  ⟨a, rfl, hq⟩

theorem Refines.fail {e : ε} {e' : ε'} (hq : Q (.error e') (.error e)) :
    (fail e' : Prog S' ε' β).Refines L Q (Prog.fail e) s t := ⟨e, rfl, hq⟩

/-- An operation below that is one above. -/
theorem Refines.op {o : S.Op} {k : S.Ans o → Prog S ε α} {o' : S'.Op} {k' : S'.Ans o' → Prog S' ε' β}
    (hop : ∀ s' t', L.Moves s t s' t' → L.Rel s' t' →
      L.Rel (L.upper o s').2 (L.lower o' t').2 ∧ L.Moves s' t' (L.upper o s').2 (L.lower o' t').2 ∧
        (k' (L.lower o' t').1).Starts L Q (k (L.upper o s').1) (L.upper o s').2 (L.lower o' t').2) :
    (op o' k').Refines L Q (Prog.op o k) s t := by
  intro s' t' hm hr
  obtain ⟨hrel, hmoves, q, hq, hk⟩ := hop s' t' hm hr
  exact ⟨q, _, .op hq, hrel, hmoves, hk⟩

/-- An operation below that is none above. -/
theorem Refines.silent {o' : S'.Op} {k' : S'.Ans o' → Prog S' ε' β}
    (hop : ∀ s' t', L.Moves s t s' t' → L.Rel s' t' → L.Rel s' (L.lower o' t').2 ∧
      L.Moves s' t' s' (L.lower o' t').2 ∧ (k' (L.lower o' t').1).Starts L Q p s' (L.lower o' t').2) :
    (Prog.op o' k').Refines L Q p s t := by
  intro s' t' hm hr
  obtain ⟨hrel, hmoves, q, hq, hk⟩ := hop s' t' hm hr
  exact ⟨q, s', hq, hrel, hmoves, hk⟩

/-- What the others do leaves it so. -/
theorem Refines.stable (hl : l.Refines L Q p s t) {s' : σ} {t' : τ} (hm : L.Moves s t s' t') :
    l.Refines L Q p s' t' := by
  cases l with
  | ret b => exact hl
  | fail e => exact hl
  | op o k => exact fun s'' t'' hm' hr => hl s'' t'' (L.trans hm hm') hr
  | stuck => exact hl

/-- Sequencing: from where the first parts have ended, the second parts. -/
theorem Refines.bind {Q' : Except ε' δ → Except ε γ → Prop} {f : β → Prog S' ε' δ} {g : α → Prog S ε γ}
    (hl : l.Refines L Q p s t)
    (hok : ∀ b a s' t', Q (.ok b) (.ok a) → L.Moves s t s' t' → (f b).Starts L Q' (g a) s' t')
    (herr : ∀ e e', Q (.error e) (.error e') → Q' (.error e) (.error e')) :
    (l >>= f).Starts L Q' (p >>= g) s t := by
  induction l generalizing p s t with
  | ret b =>
    obtain ⟨a, rfl, h⟩ := hl
    exact hok b a s t h (L.refl s t)
  | fail e =>
    obtain ⟨e', rfl, h⟩ := hl
    exact Refines.starts ⟨e', rfl, herr e e' h⟩
  | op o k ih =>
    refine Refines.starts fun s' t' hm hr => ?_
    obtain ⟨q, s'', hc, hrel, hmoves, hk⟩ := hl s' t' hm hr
    obtain ⟨q', hc', hk'⟩ := ih _ hk fun b a s₁ t₁ h hm' => hok b a s₁ t₁ h (L.trans (L.trans hm hmoves) hm')
    exact ⟨q', s'', (hc.bind g).trans hc', hrel, hmoves, hk'⟩
  | stuck =>
    obtain rfl := hl
    exact Refines.starts rfl

theorem Starts.bind {Q' : Except ε' δ → Except ε γ → Prop} {f : β → Prog S' ε' δ} {g : α → Prog S ε γ}
    (hl : l.Starts L Q p s t)
    (hok : ∀ b a s' t', Q (.ok b) (.ok a) → L.Moves s t s' t' → (f b).Starts L Q' (g a) s' t')
    (herr : ∀ e e', Q (.error e) (.error e') → Q' (.error e) (.error e')) :
    (l >>= f).Starts L Q' (p >>= g) s t := by
  obtain ⟨q, hc, hq⟩ := hl
  obtain ⟨q', hc', hq'⟩ := hq.bind hok herr
  exact ⟨q', (hc.bind g).trans hc', hq'⟩

end Rules

/-! ## One program alone -/

section Alone

variable {L : Levels S S' σ τ} {Q : Except ε' β → Except ε α → Prop} {l : Prog S' ε' β} {p : Prog S ε α} {s : σ} {t : τ}

/-- What the program below answers, the one above answers. -/
theorem Refines.run (hl : l.Refines L Q p s t) (hr : L.Rel s t) {x : Except ε' β} {t' : τ}
    (hrun : l.run L.lower t = some (x, t')) :
    ∃ y s', p.run L.upper s = some (y, s') ∧ Q x y ∧ L.Rel s' t' ∧ L.Moves s t s' t' := by
  induction l generalizing p s t with
  | ret b =>
    obtain ⟨a, rfl, h⟩ := hl
    cases hrun
    exact ⟨_, s, rfl, h, hr, L.refl s _⟩
  | fail e =>
    obtain ⟨e', rfl, h⟩ := hl
    cases hrun
    exact ⟨_, s, rfl, h, hr, L.refl s _⟩
  | op o k ih =>
    obtain ⟨q, s₁, hc, hrel, hmoves, hk⟩ := hl s t (L.refl s t) hr
    obtain ⟨y, s', hq, hxy, hrel', hmoves'⟩ := ih _ hk hrel hrun
    exact ⟨y, s', hc.run.trans hq, hxy, hrel', L.trans hmoves hmoves'⟩
  | stuck => cases hrun

theorem Starts.run (hl : l.Starts L Q p s t) (hr : L.Rel s t) {x : Except ε' β} {t' : τ}
    (hrun : l.run L.lower t = some (x, t')) :
    ∃ y s', p.run L.upper s = some (y, s') ∧ Q x y ∧ L.Rel s' t' ∧ L.Moves s t s' t' := by
  obtain ⟨q, hc, hq⟩ := hl
  rw [hc.run]
  exact hq.run hr hrun

end Alone

/-! ## Operation by operation -/

/-- `p` with each operation carried out by a program of its own. -/
def carry (f : (o : S.Op) → Prog S' ε' (S.Ans o)) (g : ε → ε') : Prog S ε α → Prog S' ε' α
  | ret a => ret a
  | fail e => fail (g e)
  | op o k => f o >>= fun ans => carry f g (k ans)
  | stuck => stuck

/-- An operation that `l` carries out: by none where it changes nothing, or by
one whose answer is then read. -/
inductive Carried (L : Levels S S' σ τ) (o : S.Op) : Prog S' ε' (S.Ans o) → Prop
  | none {ans : S.Ans o} (h : ∀ s, L.upper o s = (ans, s)) : Carried L o (ret ans)
  | one {o' : S'.Op} {read : S'.Ans o' → Except ε' (S.Ans o)}
    (h : ∀ s t, L.Rel s t → read (L.lower o' t).1 = .ok (L.upper o s).1 ∧
      L.Rel (L.upper o s).2 (L.lower o' t).2 ∧ L.Moves s t (L.upper o s).2 (L.lower o' t).2) :
    Carried L o (op o' fun b => ofExcept (read b))

theorem Refines.carry {L : Levels S S' σ τ} {f : (o : S.Op) → Prog S' ε' (S.Ans o)} (g : ε → ε') {P : S.Op → Prop}
    (hf : ∀ o, P o → Carried L o (f o)) {p : Prog S ε α} (hp : p.AllOps P) (s : σ) (t : τ) :
    (p.carry f g).Starts L (fun x y => x = y.mapError g) p s t := by
  induction p generalizing s t with
  | ret a => exact Refines.starts (.ret rfl)
  | fail e => exact Refines.starts (.fail rfl)
  | op o k ih =>
    generalize hfo : f o = l
    have ho := hf o hp.1
    rw [hfo] at ho
    show (f o >>= fun ans => (k ans).carry f g).Starts L _ (Prog.op o k) s t
    rw [hfo]
    cases ho with
    | @none ans h =>
      obtain ⟨q, hq, hk⟩ := ih ans (hp.2 ans) s t
      refine ⟨q, .op ?_, hk⟩
      rw [h s]
      exact hq
    | @one o' read h =>
      refine Refines.starts (.op fun s' t' _ hr => ?_)
      obtain ⟨hread, hrel, hmoves⟩ := h s' t' hr
      refine ⟨hrel, hmoves, ?_⟩
      show (ofExcept (read (L.lower o' t').1) >>= fun ans => (k ans).carry f g).Starts L _ _ _ _
      rw [hread]
      exact ih _ (hp.2 _) _ _
  | stuck => exact Refines.starts rfl

/-! ## Several stores -/

variable {ι : Type}

/-- `p` at the store `i`. -/
def inside (i : ι) : Prog S ε α → Prog (S.each ι) ε α
  | ret a => ret a
  | fail e => fail e
  | op o k => .op (S := S.each ι) (i, o) fun ans => (k ans).inside i
  | stuck => stuck

theorem inside_bind (i : ι) (p : Prog S ε α) (f : α → Prog S ε β) :
    (p >>= f).inside i = p.inside i >>= fun a => (f a).inside i := by
  induction p with
  | ret a => rfl
  | fail e => rfl
  | op o k ih => exact congrArg (Prog.op (S := S.each ι) (i, o)) (funext ih)
  | stuck => rfl

theorem AllOps.inside {P : S.Op → Prop} (i : ι) {p : Prog S ε α} (hp : p.AllOps P) :
    (p.inside i).AllOps fun o : ι × S.Op => P o.2 := by
  induction p with
  | ret a => trivial
  | fail e => trivial
  | op o k ih => exact ⟨hp.1, fun ans => ih ans (hp.2 ans)⟩
  | stuck => trivial

theorem carry_inside (f : (o : (S.each ι).Op) → Prog S' ε' ((S.each ι).Ans o)) (g : ε → ε') (i : ι) (p : Prog S ε α) :
    (p.inside i).carry f g = p.carry (fun o => f (i, o)) g := by
  induction p with
  | ret a => rfl
  | fail e => rfl
  | op o k ih =>
    exact congrArg (f (i, o) >>= ·) (funext ih)
  | stuck => rfl

end Prog

/-! ## Pools -/

namespace Pool

variable {S S' : Sig} {κ ε ε' α β σ τ : Type} {L : Levels S S' σ τ} {Q : Except ε' β → Except ε α → Prop}
  {Start : κ → Prog S ε α → Prop} {Start' : κ → Prog S' ε' β → Prop}

/-- A thread may go on alone for some operations. -/
theorem Reachable.comes {h : Handler S σ} {A : κ → S.Op → σ → Prop} {Crash : σ → σ → Prop} (hA : ∀ tag o s, A tag o s)
    {s₀ : σ} {l r : List (Thread S κ ε α)} {tag : κ} {p q : Prog S ε α} {begun : Bool} {s s' : σ}
    (hc : Reachable h Start A Crash s₀ (l ++ ⟨tag, begun, p⟩ :: r, s)) (hcomes : p.Comes h s q s') :
    ∃ begun', Reachable h Start A Crash s₀ (l ++ ⟨tag, begun', q⟩ :: r, s') := by
  induction hcomes generalizing begun with
  | here => exact ⟨begun, hc⟩
  | op _ ih => exact ih (hc.tail (.op fun _ => hA _ _ _))

/-- A thread below and the one it carries out. -/
structure Paired (L : Levels S S' σ τ) (Q : Except ε' β → Except ε α → Prop) (s : σ) (t : τ) (u : Thread S κ ε α)
    (l : Thread S' κ ε' β) : Prop where
  tag : u.tag = l.tag
  refines : l.prog.Refines L Q u.prog s t

theorem Paired.stable {s s' : σ} {t t' : τ} {u : Thread S κ ε α} {l : Thread S' κ ε' β} (h : Paired L Q s t u l)
    (hm : L.Moves s t s' t') : Paired L Q s' t' u l := ⟨h.tag, h.refines.stable hm⟩

/-- Each interleaving below is one of those above, thread by thread. -/
theorem refines
    (hstart : ∀ tag l, Start' tag l → ∃ p, Start tag p ∧ ∀ s t, L.Rel s t → l.Starts L Q p s t)
    {s : σ} {t : τ} (hr : L.Rel s t) {c : List (Thread S' κ ε' β) × τ}
    (hc : Reachable L.lower Start' (fun _ _ _ => True) (fun _ _ => False) t c) :
    ∃ us s', Reachable L.upper Start (fun _ _ _ => True) (fun _ _ => False) s (us, s') ∧
      L.Rel s' c.2 ∧ L.Moves s t s' c.2 ∧ List.Forall₂ (Paired L Q s' c.2) us c.1 := by
  induction hc with
  | refl => exact ⟨[], s, .refl, hr, L.refl s t, .nil⟩
  | tail _ hstep ih =>
    obtain ⟨us, s₁, hus, hrel, hmoves, hpairs⟩ := ih
    cases hstep with
    | @start ls t₁ tag l hl =>
      obtain ⟨p, hp, hstarts⟩ := hstart tag l hl
      obtain ⟨q, hcomes, hq⟩ := hstarts s₁ t₁ hrel
      obtain ⟨begun, hreach⟩ := Reachable.comes (r := []) (fun _ _ _ => trivial) (hus.tail (.start hp)) hcomes
      exact ⟨_, s₁, hreach, hrel, hmoves, List.rel_append hpairs (.cons ⟨rfl, hq⟩ .nil)⟩
    | @op left right t₁ tag begun o k ha =>
      have hleft := List.forall₂_take_append us left _ hpairs
      obtain ⟨u, uright, hu, hright, hrest⟩ :=
        List.forall₂_cons_right_iff.1 (List.forall₂_drop_append us left _ hpairs)
      rw [← List.take_append_drop left.length us, hrest] at hus
      obtain ⟨utag, ubegun, p⟩ := u
      obtain rfl : utag = tag := hu.tag
      obtain ⟨q, s₂, hcomes, hrel', hmoves', hk⟩ := hu.refines s₁ t₁ (L.refl s₁ t₁) hrel
      obtain ⟨begun', hreach⟩ := Reachable.comes (fun _ _ _ => trivial) hus hcomes
      refine ⟨_, s₂, hreach, hrel', L.trans hmoves hmoves', List.rel_append ?_ (.cons ⟨rfl, hk⟩ ?_)⟩
      · exact hleft.imp fun _ _ hpair => hpair.stable hmoves'
      · exact hright.imp fun _ _ hpair => hpair.stable hmoves'
    | crash hcrash => exact hcrash.elim

/-- A thread below that has ended, and the one above. -/
theorem Paired.ended {s : σ} {t : τ} {u : Thread S κ ε α} {tag : κ} {begun : Bool} {x : Except ε' β}
    (h : Paired L Q s t u ⟨tag, begun, Prog.ofExcept x⟩) : ∃ y, u.prog = Prog.ofExcept y ∧ Q x y := by
  cases x with
  | ok b =>
    obtain ⟨a, ha, hq⟩ := h.refines
    exact ⟨.ok a, ha, hq⟩
  | error e =>
    obtain ⟨e', he, hq⟩ := h.refines
    exact ⟨.error e', he, hq⟩

end Pool

end Miscreant.Lib
