/-
Programs running concurrently on one store, one operation at a time, and a
rely-guarantee logic for them.

A thread relies on what the others may do between its operations (`R`),
guarantees what each of its own does (`G`), and may be given an assumption on
the state its own operations meet (`A`). `Safe` says so of one program; it is
by recursion on the program, so it comes with rules for sequencing and loops.
`Pool.Step` runs any number of threads in any order, starts new ones, and
lets the whole pool be killed by a crash; `Pool.reachable_inv` is what safe
threads give: the invariant of the store in every state reached.
-/
import Miscreant.Lib.Prog
import Mathlib.Logic.Relation

namespace Miscreant.Lib

namespace Prog

variable {S : Sig} {ε ε' α β γ σ : Type}

/-- `p`, run from `s` among others that do what `R` allows, does what `G`
says at each of its operations that meets a state as `A` assumes, and ends in
`Q`. -/
def Safe (h : Handler S σ) (R G : σ → σ → Prop) (A : S.Op → σ → Prop) (Q : Except ε α → σ → Prop) :
    Prog S ε α → σ → Prop
  | ret a, s => ∀ s', R s s' → Q (.ok a) s'
  | fail e, s => ∀ s', R s s' → Q (.error e) s'
  | op o k, s => ∀ s', R s s' → A o s' → G s' (h o s').2 ∧ (k (h o s').1).Safe h R G A Q (h o s').2
  | stuck, _ => True

variable {h : Handler S σ} {R G : σ → σ → Prop} {A : S.Op → σ → Prop} {Q : Except ε α → σ → Prop}

section Rules

theorem Safe.ret {a : α} {s : σ} (hq : ∀ s', R s s' → Q (.ok a) s') : (ret a : Prog S ε α).Safe h R G A Q s := hq

theorem Safe.fail {e : ε} {s : σ} (hq : ∀ s', R s s' → Q (.error e) s') :
    (fail e : Prog S ε α).Safe h R G A Q s := hq

theorem Safe.op {o : S.Op} {k : S.Ans o → Prog S ε α} {s : σ}
    (hq : ∀ s', R s s' → A o s' → G s' (h o s').2 ∧ (k (h o s').1).Safe h R G A Q (h o s').2) :
    (op o k).Safe h R G A Q s := hq

/-- An operation that always answers the same and changes nothing. -/
theorem Safe.pure_op (hG : ∀ s, G s s) {o : S.Op} {k : S.Ans o → Prog S ε α} {s : σ} {ans : S.Ans o}
    (ho : ∀ s, h o s = (ans, s)) (hq : ∀ s', R s s' → (k ans).Safe h R G A Q s') :
    (Prog.op o k).Safe h R G A Q s := by
  intro s' hr _
  rw [ho]
  exact ⟨hG s', hq s' hr⟩

/-- What the others do keeps a thread safe. -/
theorem Safe.stable (trans : ∀ s₁ s₂ s₃, R s₁ s₂ → R s₂ s₃ → R s₁ s₃) {p : Prog S ε α} {s s' : σ}
    (hp : p.Safe h R G A Q s) (hr : R s s') : p.Safe h R G A Q s' := by
  cases p with
  | ret a => exact fun s'' hr' => hp s'' (trans _ _ _ hr hr')
  | fail e => exact fun s'' hr' => hp s'' (trans _ _ _ hr hr')
  | op o k => exact fun s'' hr' => hp s'' (trans _ _ _ hr hr')
  | stuck => trivial

theorem Safe.weaken {Q' : Except ε α → σ → Prop} (hq : ∀ r s, Q r s → Q' r s) {p : Prog S ε α} {s : σ}
    (hp : p.Safe h R G A Q s) : p.Safe h R G A Q' s := by
  induction p generalizing s with
  | ret a => exact fun s' hr => hq _ _ (hp s' hr)
  | fail e => exact fun s' hr => hq _ _ (hp s' hr)
  | op o k ih => exact fun s' hr ha => ⟨(hp s' hr ha).1, ih _ (hp s' hr ha).2⟩
  | stuck => trivial

/-- What neither the others nor the program itself can undo still holds in
the end. -/
theorem Safe.frame {P : σ → Prop} (hR : ∀ s s', P s → R s s' → P s') (hG : ∀ s s', G s s' → R s s')
    {p : Prog S ε α} {s : σ} (hs : P s) (hp : p.Safe h R G A Q s) : p.Safe h R G A (fun r s => P s ∧ Q r s) s := by
  induction p generalizing s with
  | ret a => exact fun s' hr => ⟨hR s s' hs hr, hp s' hr⟩
  | fail e => exact fun s' hr => ⟨hR s s' hs hr, hp s' hr⟩
  | op o k ih =>
    intro s' hr ha
    obtain ⟨hg, hk⟩ := hp s' hr ha
    exact ⟨hg, ih _ (hR s' _ (hR s s' hs hr) (hG _ _ hg)) hk⟩
  | stuck => trivial

/-- Sequencing: what the first program ends in, and goes on holding, is what
the second starts from. -/
theorem Safe.bind {Q' : Except ε β → σ → Prop} {p : Prog S ε α} {f : α → Prog S ε β} {s : σ}
    (hp : p.Safe h R G A Q s)
    (hok : ∀ a s, (∀ s', R s s' → Q (.ok a) s') → (f a).Safe h R G A Q' s)
    (herr : ∀ e s, Q (.error e) s → Q' (.error e) s) : (p >>= f).Safe h R G A Q' s := by
  induction p generalizing s with
  | ret a => exact hok a s hp
  | fail e => exact fun s' hr => herr e s' (hp s' hr)
  | op o k ih => exact fun s' hr ha => ⟨(hp s' hr ha).1, ih _ (hp s' hr ha).2⟩
  | stuck => trivial

theorem Safe.mapErr {Q' : Except ε' α → σ → Prop} {g : ε → ε'} {p : Prog S ε α} {s : σ}
    (hp : p.Safe h R G A (fun r s => Q' (r.mapError g) s) s) : (p.mapErr g).Safe h R G A Q' s := by
  induction p generalizing s with
  | ret a => exact hp
  | fail e => exact hp
  | op o k ih => exact fun s' hr ha => ⟨(hp s' hr ha).1, ih _ (hp s' hr ha).2⟩
  | stuck => trivial

/-- A loop keeps its invariant from turn to turn. -/
theorem Safe.loop (step : γ → Prog S ε (γ ⊕ α)) {I : γ → σ → Prop} (refl : ∀ s, R s s)
    (hstep : ∀ x s, I x s → (step x).Safe h R G A (fun (r : Except ε (γ ⊕ α)) s => match r with
      | .ok (.inl y) => I y s
      | .ok (.inr a) => Q (.ok a) s
      | .error e => Q (.error e) s) s) :
    ∀ (fuel : Nat) {x : γ} {s : σ}, I x s → (loop step fuel x).Safe h R G A Q s := by
  intro fuel
  induction fuel with
  | zero => intro x s _; trivial
  | succ fuel ih =>
    intro x s hx
    rw [run_loop_succ]
    refine Safe.bind (hstep x s hx) (fun r s' hr => ?_) (fun e s' he => he)
    cases r with
    | inl y => exact ih (hr s' (refl s'))
    | inr a => exact hr

end Rules

/-- A program whose operations are harmless is safe, whatever they answer. -/
theorem AllOps.safe {P : S.Op → Prop} {I : σ → Prop} (hR : ∀ s s', I s → R s s' → I s')
    (hG : ∀ o s, P o → I s → G s (h o s).2 ∧ I (h o s).2) (hQ : ∀ r s, I s → Q r s) {p : Prog S ε α} {s : σ}
    (hp : p.AllOps P) (hs : I s) : p.Safe h R G A Q s := by
  induction p generalizing s with
  | ret a => exact fun s' hr => hQ _ _ (hR s s' hs hr)
  | fail e => exact fun s' hr => hQ _ _ (hR s s' hs hr)
  | op o k ih =>
    intro s' hr _
    obtain ⟨hg, hi⟩ := hG o s' hp.1 (hR s s' hs hr)
    exact ⟨hg, ih _ (hp.2 _) hi⟩
  | stuck => trivial

/-- A program that only reads what the others leave alone is as safe as its
run alone is right. -/
theorem AllOps.safe_of_run {P : S.Op → Prop} {I : σ → Prop} {s₀ s₁ : σ} {r : Except ε α}
    (hread : ∀ o s, P o → I s → (h o s).1 = (h o s₀).1 ∧ (h o s).2 = s) (hs₀ : ∀ o, P o → (h o s₀).2 = s₀)
    (hR : ∀ s s', I s → R s s' → I s') (hG : ∀ s, G s s) {p : Prog S ε α} (hp : p.AllOps P)
    (hrun : p.run h s₀ = some (r, s₁)) (hQ : ∀ s, I s → Q r s) {s : σ} (hs : I s) : p.Safe h R G A Q s := by
  induction p generalizing s with
  | ret a => cases hrun; exact fun s' hr => hQ s' (hR s s' hs hr)
  | fail e => cases hrun; exact fun s' hr => hQ s' (hR s s' hs hr)
  | op o k ih =>
    intro s' hr _
    have hs' := hR s s' hs hr
    obtain ⟨hans, hst⟩ := hread o s' hp.1 hs'
    rw [run_op, hs₀ o hp.1] at hrun
    rw [hans, hst]
    exact ⟨hG s', ih _ (hp.2 _) hrun hs'⟩
  | stuck => trivial

/-- A program that only reads what the others leave alone answers as it does
alone. -/
theorem AllOps.safe_reads {P : S.Op → Prop} {I : σ → Prop} {s₀ : σ}
    (hread : ∀ o s, P o → I s → (h o s).1 = (h o s₀).1 ∧ (h o s).2 = s) (hs₀ : ∀ o, P o → (h o s₀).2 = s₀)
    (hR : ∀ s s', I s → R s s' → I s') (hG : ∀ s, G s s) {p : Prog S ε α} (hp : p.AllOps P)
    (hQ : ∀ r s, I s → p.run h s₀ = some (r, s₀) → Q r s) {s : σ} (hs : I s) : p.Safe h R G A Q s := by
  induction p generalizing s with
  | ret a => exact fun s' hr => hQ _ s' (hR s s' hs hr) rfl
  | fail e => exact fun s' hr => hQ _ s' (hR s s' hs hr) rfl
  | op o k ih =>
    intro s' hr _
    have hs' := hR s s' hs hr
    obtain ⟨hans, hst⟩ := hread o s' hp.1 hs'
    rw [hans, hst]
    refine ⟨hG s', ih _ (hp.2 _) (fun r s hi hrun => hQ r s hi ?_) hs'⟩
    rw [run_op, hs₀ o hp.1]
    exact hrun
  | stuck => trivial

end Prog

/-! ## Pools -/

/-- A thread: what it was started for, whether it has done an operation, and
what is left of it. -/
structure Thread (S : Sig) (τ ε α : Type) where
  tag : τ
  begun : Bool
  prog : Prog S ε α

/-- What a thread has ended with. -/
def Thread.outcome {S : Sig} {τ ε α : Type} (t : Thread S τ ε α) : Option (Except ε α) :=
  match t.prog with
  | .ret a => some (.ok a)
  | .fail e => some (.error e)
  | _ => none

theorem Thread.outcome_eq_some {S : Sig} {τ ε α : Type} {t : Thread S τ ε α} {x : Except ε α} :
    t.outcome = some x ↔ t.prog = Prog.ofExcept x := by
  obtain ⟨tag, begun, p⟩ := t
  cases p <;> cases x <;> simp [outcome, Prog.ofExcept]

/-- A thread of a list whose outcomes are known. -/
theorem Thread.of_outcomes {S : Sig} {τ ε α : Type} {ts : List (Thread S τ ε α)} {i : Nat} {tag : τ} {x : Except ε α}
    (h : (ts.map fun t => (t.tag, t.outcome))[i]? = some (tag, some x)) :
    ∃ t, ts[i]? = some t ∧ t.tag = tag ∧ t.prog = Prog.ofExcept x := by
  rw [List.getElem?_map] at h
  obtain ⟨t, ht, heq⟩ := Option.map_eq_some_iff.1 h
  obtain ⟨htag, houtcome⟩ := Prod.mk.inj heq
  exact ⟨t, ht, htag, Thread.outcome_eq_some.1 houtcome⟩

namespace Pool

variable {S : Sig} {τ ε α σ : Type}

/-- One step of a pool: a thread of those allowed is started, a thread does
its next operation in a state as `A` assumes (of all but its first), or a
crash kills every thread. -/
inductive Step (h : Handler S σ) (Start : τ → Prog S ε α → Prop) (A : τ → S.Op → σ → Prop)
    (Crash : σ → σ → Prop) : List (Thread S τ ε α) × σ → List (Thread S τ ε α) × σ → Prop
  | start {ts s tag p} (hp : Start tag p) : Step h Start A Crash (ts, s) (ts ++ [⟨tag, false, p⟩], s)
  | op {l r s tag begun o k} (ha : begun = true → A tag o s) :
      Step h Start A Crash (l ++ ⟨tag, begun, .op o k⟩ :: r, s) (l ++ ⟨tag, true, k (h o s).1⟩ :: r, (h o s).2)
  | crash {ts s s'} (hc : Crash s s') : Step h Start A Crash (ts, s) ([], s')

/-- The states a pool can reach from an empty one. -/
def Reachable (h : Handler S σ) (Start : τ → Prog S ε α → Prop) (A : τ → S.Op → σ → Prop) (Crash : σ → σ → Prop)
    (s : σ) (c : List (Thread S τ ε α) × σ) : Prop :=
  Relation.ReflTransGen (Step h Start A Crash) ([], s) c

/-- What a thread is safe for, by whether it has begun. -/
def ThreadSafe (h : Handler S σ) (R G : σ → σ → Prop) (A : τ → S.Op → σ → Prop) (Q : τ → Except ε α → σ → Prop)
    (t : Thread S τ ε α) (s : σ) : Prop :=
  match t.begun, t.prog with
  | true, p => p.Safe h R G (A t.tag) (Q t.tag) s
  | false, .op o k =>
    ∀ s', R s s' → G s' (h o s').2 ∧ (k (h o s').1).Safe h R G (A t.tag) (Q t.tag) (h o s').2
  | false, p => p.Safe h R G (A t.tag) (Q t.tag) s

variable {h : Handler S σ} {Start : τ → Prog S ε α → Prop} {A : τ → S.Op → σ → Prop} {Crash : σ → σ → Prop}
  {R G : σ → σ → Prop} {Q : τ → Except ε α → σ → Prop} {I : σ → Prop}

theorem ThreadSafe.stable (trans : ∀ s₁ s₂ s₃, R s₁ s₂ → R s₂ s₃ → R s₁ s₃) {t : Thread S τ ε α} {s s' : σ}
    (ht : ThreadSafe h R G A Q t s) (hr : R s s') : ThreadSafe h R G A Q t s' := by
  obtain ⟨tag, begun, p⟩ := t
  cases begun with
  | true => exact Prog.Safe.stable trans ht hr
  | false =>
    cases p with
    | ret a => exact Prog.Safe.stable trans ht hr
    | fail e => exact Prog.Safe.stable trans ht hr
    | op o k => exact fun s'' hr' => ht s'' (trans _ _ _ hr hr')
    | stuck => trivial

/-- A thread that is safe from its start is safe once it has begun. -/
theorem ThreadSafe.of_safe {tag : τ} {begun : Bool} {p : Prog S ε α} {s : σ}
    (hp : p.Safe h R G (fun _ _ => True) (Q tag) s) (hA : ∀ tag o s, A tag o s) :
    ThreadSafe h R G A Q ⟨tag, begun, p⟩ s := by
  have hp : p.Safe h R G (A tag) (Q tag) s := by
    have : (fun _ _ => True) = A tag := by
      funext o s
      exact propext ⟨fun _ => hA tag o s, fun _ => trivial⟩
    rwa [← this]
  cases begun with
  | true => exact hp
  | false =>
    cases p with
    | ret a => exact hp
    | fail e => exact hp
    | op o k => exact fun s' hr => hp s' hr (hA _ _ _)
    | stuck => trivial

/-- A safe thread that has ended has its postcondition. -/
theorem ThreadSafe.ended (refl : ∀ s, R s s) {tag : τ} {begun : Bool} {x : Except ε α} {s : σ}
    (ht : ThreadSafe h R G A Q ⟨tag, begun, Prog.ofExcept x⟩ s) : Q tag x s := by
  cases begun with
  | true =>
    cases x with
    | ok a => exact ht s (refl s)
    | error e => exact ht s (refl s)
  | false =>
    cases x with
    | ok a => exact ht s (refl s)
    | error e => exact ht s (refl s)

/-- In every state a pool of safe threads reaches, the store has its
invariant and the threads are still safe. -/
theorem reachable_inv (refl : ∀ s, R s s) (trans : ∀ s₁ s₂ s₃, R s₁ s₂ → R s₂ s₃ → R s₁ s₃)
    (hstart : ∀ tag p s, Start tag p → I s → ThreadSafe h R G A Q ⟨tag, false, p⟩ s)
    (hG : ∀ s s', I s → G s s' → R s s' ∧ I s') (hcrash : ∀ s s', I s → Crash s s' → I s')
    {s : σ} {c : List (Thread S τ ε α) × σ} (hs : I s) (hc : Reachable h Start A Crash s c) :
    I c.2 ∧ ∀ t ∈ c.1, ThreadSafe h R G A Q t c.2 := by
  induction hc with
  | refl => exact ⟨hs, by simp⟩
  | tail _ hstep ih =>
    obtain ⟨hi, hts⟩ := ih
    cases hstep with
    | @start ts s tag p hp =>
      refine ⟨hi, fun t ht => ?_⟩
      rcases List.mem_append.1 ht with ht | ht
      · exact hts t ht
      · rw [List.mem_singleton.1 ht]
        exact hstart tag p s hp hi
    | @op l r s tag begun o k ha =>
      have hme := hts ⟨tag, begun, .op o k⟩ (by simp)
      have hnext : G s (h o s).2 ∧ (k (h o s).1).Safe h R G (A tag) (Q tag) (h o s).2 := by
        cases begun with
        | true => exact hme s (refl s) (ha rfl)
        | false => exact hme s (refl s)
      obtain ⟨hr, hi'⟩ := hG s _ hi hnext.1
      refine ⟨hi', fun t ht => ?_⟩
      simp only [List.mem_append, List.mem_cons] at ht
      rcases ht with ht | rfl | ht
      · exact (hts t (by simp [ht])).stable trans hr
      · exact hnext.2
      · exact (hts t (by simp [ht])).stable trans hr
    | crash hcr => exact ⟨hcrash _ _ hi hcr, by simp⟩

/-- Among others, a thread may run to its end without any of them moving. -/
theorem Reachable.run_thread (hA : ∀ tag o s, A tag o s) {s₀ : σ} {l r : List (Thread S τ ε α)} {tag : τ}
    {p : Prog S ε α} {begun : Bool} {s s' : σ} {x : Except ε α}
    (hc : Reachable h Start A Crash s₀ (l ++ ⟨tag, begun, p⟩ :: r, s)) (hrun : p.run h s = some (x, s')) :
    ∃ begun', Reachable h Start A Crash s₀ (l ++ ⟨tag, begun', Prog.ofExcept x⟩ :: r, s') := by
  induction p generalizing begun s with
  | ret a => cases hrun; exact ⟨begun, hc⟩
  | fail e => cases hrun; exact ⟨begun, hc⟩
  | op o k ih => exact ih _ (hc.tail (.op fun _ => hA tag o s)) hrun
  | stuck => cases hrun

/-- A crash ends every thread. -/
theorem Reachable.crash {s₀ s' : σ} {c : List (Thread S τ ε α) × σ} (hc : Reachable h Start A Crash s₀ c)
    (hcrash : Crash c.2 s') : Reachable h Start A Crash s₀ ([], s') := by
  obtain ⟨ts, s⟩ := c
  exact hc.tail (.crash hcrash)

/-- Programs that change nothing where they all start do not meet: the store
stays as it is, and each goes on as it does alone. -/
theorem Reachable.still {s : σ} {c : List (Thread S τ ε α) × σ} (hstart : ∀ tag p, Start tag p → p.Still h s)
    (hcrash : ∀ s', Crash s s' → s' = s) (hc : Reachable h Start A Crash s c) :
    c.2 = s ∧ ∀ t ∈ c.1, t.prog.Still h s ∧ ∃ p, Start t.tag p ∧ t.prog.run h s = p.run h s := by
  induction hc with
  | refl => exact ⟨rfl, by simp⟩
  | tail _ hstep ih =>
    obtain ⟨hs, hts⟩ := ih
    cases hstep with
    | @start ts s' tag p hp =>
      refine ⟨hs, fun t ht => ?_⟩
      rcases List.mem_append.1 ht with ht | ht
      · exact hts t ht
      · rw [List.mem_singleton.1 ht]
        exact ⟨hstart tag p hp, p, hp, rfl⟩
    | @op l r s' tag begun o k ha =>
      obtain rfl : s' = s := hs
      obtain ⟨hstill, p, hp, hrun⟩ := hts ⟨tag, begun, .op o k⟩ (by simp)
      refine ⟨hstill.1, fun t ht => ?_⟩
      simp only [List.mem_append, List.mem_cons] at ht
      rcases ht with ht | rfl | ht
      · exact hts t (by simp [ht])
      · refine ⟨hstill.2, p, hp, ?_⟩
        rw [← hrun, Prog.run_op, hstill.1]
      · exact hts t (by simp [ht])
    | crash hcr =>
      obtain rfl : _ = s := hs
      exact ⟨hcrash _ hcr, by simp⟩

/-! ## Given orders -/

/-- The threads of some programs, none of which has begun. -/
def waiting (l : List (τ × Prog S ε α)) : List (Thread S τ ε α) := l.map fun x => ⟨x.1, false, x.2⟩

/-- The next operation of the `i`-th thread. -/
def turn (h : Handler S σ) (c : List (Thread S τ ε α) × σ) (i : Nat) : List (Thread S τ ε α) × σ :=
  match c.1[i]? with
  | some ⟨tag, _, .op o k⟩ => (c.1.set i ⟨tag, true, k (h o c.2).1⟩, (h o c.2).2)
  | _ => c

/-- The `i`-th thread's next operation, unless it is its first, meets a state
as `A` assumes. -/
def Meets (A : τ → S.Op → σ → Prop) (c : List (Thread S τ ε α) × σ) (i : Nat) : Prop :=
  match c.1[i]? with
  | some ⟨tag, true, .op o _⟩ => A tag o c.2
  | _ => True

instance (A : τ → S.Op → σ → Prop) [∀ tag o s, Decidable (A tag o s)] (c : List (Thread S τ ε α) × σ) (i : Nat) :
    Decidable (Meets A c i) := by
  unfold Meets
  split <;> infer_instance

/-- The threads do their operations in the given order. -/
def turns (h : Handler S σ) (c : List (Thread S τ ε α) × σ) (order : List Nat) : List (Thread S τ ε α) × σ :=
  order.foldl (turn h) c

/-- Every operation of the order meets a state as `A` assumes. -/
def AllMeet (h : Handler S σ) (A : τ → S.Op → σ → Prop) : List (Thread S τ ε α) × σ → List Nat → Prop
  | _, [] => True
  | c, i :: order => Meets A c i ∧ AllMeet h A (turn h c i) order

instance AllMeet.decidable (A : τ → S.Op → σ → Prop) [∀ tag o s, Decidable (A tag o s)] :
    ∀ (c : List (Thread S τ ε α) × σ) (order : List Nat), Decidable (AllMeet h A c order)
  | _, [] => inferInstanceAs (Decidable True)
  | c, i :: order =>
    have := AllMeet.decidable A (turn h c i) order
    inferInstanceAs (Decidable (Meets A c i ∧ AllMeet h A (turn h c i) order))

theorem allMeet_of_true (hA : ∀ tag o s, A tag o s) : ∀ (c : List (Thread S τ ε α) × σ) (order : List Nat),
    AllMeet h A c order
  | _, [] => trivial
  | c, i :: order => by
    refine ⟨?_, allMeet_of_true hA _ order⟩
    unfold Meets
    split
    · exact hA _ _ _
    · trivial

/-- Programs are started one after the other. -/
theorem Reachable.waiting {s s' : σ} : ∀ (l : List (τ × Prog S ε α)) {ts : List (Thread S τ ε α)},
    (∀ x ∈ l, Start x.1 x.2) → Reachable h Start A Crash s (ts, s') →
    Reachable h Start A Crash s (ts ++ Pool.waiting l, s')
  | [], ts, _, hc => by rwa [Pool.waiting, List.map_nil, List.append_nil]
  | (tag, p) :: l, ts, hl, hc => by
    have hnext := Reachable.waiting l (fun x hx => hl x (List.mem_cons_of_mem _ hx))
      (hc.tail (.start (hl (tag, p) (List.mem_cons_self ..))))
    rwa [List.append_assoc] at hnext

theorem Reachable.turn {s : σ} {c : List (Thread S τ ε α) × σ} (hc : Reachable h Start A Crash s c) {i : Nat}
    (hi : Meets A c i) : Reachable h Start A Crash s (turn h c i) := by
  obtain ⟨ts, s'⟩ := c
  unfold Pool.turn
  unfold Meets at hi
  split
  · rename_i tag begun o k hget
    obtain ⟨hlt, hget'⟩ := List.getElem?_eq_some_iff.1 hget
    have hsplit : ts = ts.take i ++ ⟨tag, begun, .op o k⟩ :: ts.drop (i + 1) := by
      rw [← hget', ← List.drop_eq_getElem_cons hlt, List.take_append_drop]
    have hset : ts.set i ⟨tag, true, k (h o s').1⟩ = ts.take i ++ ⟨tag, true, k (h o s').1⟩ :: ts.drop (i + 1) := by
      rw [List.set_eq_take_append_cons_drop, if_pos hlt]
    rw [hsplit] at hc
    dsimp only at hget hi ⊢
    rw [hset]
    refine Relation.ReflTransGen.tail hc (.op fun hb => ?_)
    subst hb
    rw [hget] at hi
    exact hi
  · exact hc

/-- What an order leads to can be reached. -/
theorem Reachable.turns {s : σ} : ∀ (order : List Nat) {c : List (Thread S τ ε α) × σ},
    Reachable h Start A Crash s c → AllMeet h A c order → Reachable h Start A Crash s (turns h c order)
  | [], _, hc, _ => hc
  | _ :: order, _, hc, hmeet => Reachable.turns order (hc.turn hmeet.1) hmeet.2

/-- Programs are started, and then do their operations in the given order. -/
theorem Reachable.waiting_turns (hA : ∀ tag o s, A tag o s) {s s' : σ} (hc : Reachable h Start A Crash s ([], s'))
    {l : List (τ × Prog S ε α)} (hl : ∀ x ∈ l, Start x.1 x.2) (order : List Nat) :
    Reachable h Start A Crash s (Pool.turns h (Pool.waiting l, s') order) :=
  Reachable.turns order (Reachable.waiting l hl hc) (allMeet_of_true hA _ order)

end Pool

end Miscreant.Lib
