/-
Programs that talk to a shared store one operation at a time.

A program (`Prog`) is a tree: it answers, fails, or asks for one operation
and goes on with what the operation answered. Nothing else of the store is
visible to it, so the same program can be run alone against a store
(`Prog.run`) or one operation at a time among others
(`Miscreant.Lib.Pool`).

`stuck` is a program that gives no answer: a panic, or a loop whose fuel ran
out (`loop`). A statement that a program answers therefore says that it
neither panics nor loops. `loop_total` is the total-correctness rule of
loops, `loop_inv` the partial one, and `Simulates.loop` the one for two loops
side by side.
-/
import Mathlib.Data.List.Forall2
import Mathlib.Data.Nat.Basic
import Mathlib.Order.WellFounded
import Mathlib.Tactic.Common

namespace Miscreant.Lib

/-- The operations of a store, and what each one answers. -/
structure Sig where
  Op : Type
  Ans : Op → Type

/-- A program over the operations of `S`, failing with `ε` or answering `α`. -/
inductive Prog (S : Sig) (ε α : Type) : Type
  | ret (a : α)
  | fail (e : ε)
  | op (o : S.Op) (k : S.Ans o → Prog S ε α)
  | stuck

/-- What an operation answers in a state, and the state it leaves. -/
abbrev Handler (S : Sig) (σ : Type) := (o : S.Op) → σ → S.Ans o × σ

namespace Prog

variable {S : Sig} {ε ε' α β γ σ : Type}

/-- `p`, then `f` on its answer. -/
def andThen (p : Prog S ε α) (f : α → Prog S ε β) : Prog S ε β :=
  match p with
  | ret a => f a
  | fail e => fail e
  | op o k => op o fun x => (k x).andThen f
  | stuck => stuck

instance : Monad (Prog S ε) where
  pure := ret
  bind := andThen

/-- `p` with its failure turned into an answer. -/
def attempt : Prog S ε α → Prog S ε' (Except ε α)
  | ret a => ret (.ok a)
  | fail e => ret (.error e)
  | op o k => op o fun x => (k x).attempt
  | stuck => stuck

/-- `p` with its failures renamed. -/
def mapErr (f : ε → ε') : Prog S ε α → Prog S ε' α
  | ret a => ret a
  | fail e => fail (f e)
  | op o k => op o fun x => (k x).mapErr f
  | stuck => stuck

/-- A pure computation that may fail. -/
def ofExcept : Except ε α → Prog S ε α
  | .ok a => ret a
  | .error e => fail e

/-- A pure computation that may panic. -/
def ofOption : Option α → Prog S ε α
  | some a => ret a
  | none => stuck

/-- `f` on each element in order, with the answers. -/
def forEach (f : α → Prog S ε β) : List α → Prog S ε (List β)
  | [] => ret []
  | x :: xs => do
    let y ← f x
    let ys ← forEach f xs
    ret (y :: ys)

/-- Repeat `step` until it answers `inr`, at most `fuel` times. -/
def loop (step : σ → Prog S ε (σ ⊕ α)) : Nat → σ → Prog S ε α
  | 0, _ => stuck
  | fuel + 1, x => do
    match ← step x with
    | .inl y => loop step fuel y
    | .inr a => ret a

/-! ## Running alone -/

/-- `p` run from `s` with no one else using the store: its answer or
failure and the store it leaves, or `none` when it gives neither. -/
def run (h : Handler S σ) : Prog S ε α → σ → Option (Except ε α × σ)
  | ret a, s => some (.ok a, s)
  | fail e, s => some (.error e, s)
  | op o k, s => (k (h o s).1).run h (h o s).2
  | stuck, _ => none

variable {h : Handler S σ}

@[simp] theorem pure_eq (a : α) : (pure a : Prog S ε α) = ret a := rfl

@[simp] theorem ret_bind (a : α) (f : α → Prog S ε β) : (ret a >>= f) = f a := rfl

@[simp] theorem fail_bind (e : ε) (f : α → Prog S ε β) : ((fail e : Prog S ε α) >>= f) = fail e := rfl

@[simp] theorem stuck_bind (f : α → Prog S ε β) : ((stuck : Prog S ε α) >>= f) = stuck := rfl

theorem op_bind (o : S.Op) (k : S.Ans o → Prog S ε α) (f : α → Prog S ε β) :
    (op o k >>= f) = op o fun x => k x >>= f := rfl

theorem bind_ret (p : Prog S ε α) : (p >>= ret) = p := by
  induction p with
  | ret a => rfl
  | fail e => rfl
  | op o k ih => simp only [op_bind, ih]
  | stuck => rfl

theorem bind_assoc (p : Prog S ε α) (f : α → Prog S ε β) (g : β → Prog S ε γ) :
    (p >>= f) >>= g = p >>= fun a => f a >>= g := by
  induction p with
  | ret a => rfl
  | fail e => rfl
  | op o k ih => simp only [op_bind, ih]
  | stuck => rfl

/-- A run whose answer has been evaluated. -/
theorem exists_ok {x : Option (Except ε α × σ)} {a : α} (hx : (x.bind fun p => p.1.toOption) = some a) :
    ∃ s, x = some (.ok a, s) := by
  obtain ⟨⟨r, s⟩, rfl, hr⟩ := Option.bind_eq_some_iff.1 hx
  cases r with
  | error e => cases hr
  | ok a' =>
    cases hr
    exact ⟨s, rfl⟩

@[simp] theorem run_ret (a : α) (s : σ) : (ret a : Prog S ε α).run h s = some (.ok a, s) := rfl

@[simp] theorem run_fail (e : ε) (s : σ) : (fail e : Prog S ε α).run h s = some (.error e, s) := rfl

@[simp] theorem run_stuck (s : σ) : (stuck : Prog S ε α).run h s = none := rfl

@[simp] theorem run_op (o : S.Op) (k : S.Ans o → Prog S ε α) (s : σ) :
    (op o k).run h s = (k (h o s).1).run h (h o s).2 := rfl

/-- How a sequence runs. -/
theorem run_bind (p : Prog S ε α) (f : α → Prog S ε β) (s : σ) :
    (p >>= f).run h s =
      match p.run h s with
      | none => none
      | some (.ok a, s') => (f a).run h s'
      | some (.error e, s') => some (.error e, s') := by
  induction p generalizing s with
  | ret a => rfl
  | fail e => rfl
  | op o k ih => rw [op_bind, run_op, ih, run_op]
  | stuck => rfl

theorem run_bind_ok {p : Prog S ε α} {f : α → Prog S ε β} {s s' : σ} {a : α}
    (hp : p.run h s = some (.ok a, s')) : (p >>= f).run h s = (f a).run h s' := by
  rw [run_bind, hp]

theorem run_bind_error {p : Prog S ε α} {f : α → Prog S ε β} {s s' : σ} {e : ε}
    (hp : p.run h s = some (.error e, s')) : (p >>= f).run h s = some (.error e, s') := by
  rw [run_bind, hp]

/-- What a finished sequence did. -/
theorem run_bind_inv {p : Prog S ε α} {f : α → Prog S ε β} {s s'' : σ} {r : Except ε β}
    (hr : (p >>= f).run h s = some (r, s'')) :
    (∃ a s', p.run h s = some (.ok a, s') ∧ (f a).run h s' = some (r, s'')) ∨
      ∃ e, p.run h s = some (.error e, s'') ∧ r = .error e := by
  rw [run_bind] at hr
  split at hr
  · cases hr
  · rename_i a s' hp; exact .inl ⟨a, s', hp, hr⟩
  · rename_i e s' hp; cases hr; exact .inr ⟨e, hp, rfl⟩

theorem run_bind_ok_inv {p : Prog S ε α} {f : α → Prog S ε β} {s s'' : σ} {b : β}
    (hr : (p >>= f).run h s = some (.ok b, s'')) :
    ∃ a s', p.run h s = some (.ok a, s') ∧ (f a).run h s' = some (.ok b, s'') := by
  rcases run_bind_inv hr with h | ⟨e, _, he⟩
  · exact h
  · cases he

@[simp] theorem run_attempt (p : Prog S ε α) (s : σ) :
    (p.attempt : Prog S ε' _).run h s = (p.run h s).map fun (r, s') => (.ok r, s') := by
  induction p generalizing s with
  | ret a => rfl
  | fail e => rfl
  | op o k ih => simp only [attempt, run_op, ih]
  | stuck => rfl

@[simp] theorem run_mapErr (f : ε → ε') (p : Prog S ε α) (s : σ) :
    (p.mapErr f).run h s = (p.run h s).map fun (r, s') => (r.mapError f, s') := by
  induction p generalizing s with
  | ret a => rfl
  | fail e => rfl
  | op o k ih => simp only [mapErr, run_op, ih]
  | stuck => rfl

theorem run_mapErr_ok {f : ε → ε'} {p : Prog S ε α} {s s' : σ} {a : α} (hp : p.run h s = some (.ok a, s')) :
    (p.mapErr f).run h s = some (.ok a, s') := by
  rw [run_mapErr, hp]
  rfl

@[simp] theorem run_ofExcept (r : Except ε α) (s : σ) :
    (ofExcept r : Prog S ε α).run h s = some (r, s) := by cases r <;> rfl

@[simp] theorem run_ofOption_some (a : α) (s : σ) :
    (ofOption (some a) : Prog S ε α).run h s = some (.ok a, s) := rfl

/-- `p` answers `a` whatever the store holds, and leaves it as it is. -/
def Computes (h : Handler S σ) : Prog S ε α → α → Prop
  | ret b, a => b = a
  | fail _, _ => False
  | op o k, a => ∃ ans, (∀ s, h o s = (ans, s)) ∧ (k ans).Computes h a
  | stuck, _ => False

theorem Computes.bind {p : Prog S ε α} {f : α → Prog S ε β} {a : α} {b : β} (hp : p.Computes h a)
    (hf : (f a).Computes h b) : (p >>= f).Computes h b := by
  induction p with
  | ret a' =>
    obtain rfl : a' = a := hp
    exact hf
  | fail e => exact hp.elim
  | op o k ih =>
    obtain ⟨ans, ho, hk⟩ := hp
    exact ⟨ans, ho, ih ans hk⟩
  | stuck => exact hp.elim

theorem Computes.run {p : Prog S ε α} {a : α} (hp : p.Computes h a) (s : σ) : p.run h s = some (.ok a, s) := by
  induction p with
  | ret a' =>
    obtain rfl : a' = a := hp
    rfl
  | fail e => exact hp.elim
  | op o k ih =>
    obtain ⟨ans, ho, hk⟩ := hp
    rw [run_op, ho]
    exact ih ans hk
  | stuck => exact hp.elim

/-- `forEach` over elements each of which answers without moving the store. -/
theorem run_forEach₂ {f : α → Prog S ε β} {s : σ} {xs : List α} {ys : List β}
    (hf : List.Forall₂ (fun x y => (f x).run h s = some (.ok y, s)) xs ys) :
    (forEach f xs).run h s = some (.ok ys, s) := by
  induction hf with
  | nil => rfl
  | cons hx _ ih => rw [forEach, run_bind_ok hx, run_bind_ok ih, run_ret]

theorem run_forEach {f : α → Prog S ε β} {g : α → β} {s : σ} {xs : List α}
    (hf : ∀ x ∈ xs, (f x).run h s = some (.ok (g x), s)) :
    (forEach f xs).run h s = some (.ok (xs.map g), s) :=
  run_forEach₂ (List.forall₂_map_right_iff.2 (List.forall₂_same.2 hf))

theorem exists_run_forEach {f : α → Prog S ε β} {s : σ} :
    ∀ {xs : List α}, (∀ x ∈ xs, ∃ y, (f x).run h s = some (.ok y, s)) →
      ∃ ys, (forEach f xs).run h s = some (.ok ys, s)
  | [], _ => ⟨[], rfl⟩
  | x :: xs, hf => by
    obtain ⟨y, hy⟩ := hf x (by simp)
    have htail : ∀ x ∈ xs, ∃ y, (f x).run h s = some (.ok y, s) := fun x hx => hf x (by simp [hx])
    obtain ⟨ys, hys⟩ := exists_run_forEach htail
    exact ⟨y :: ys, by rw [forEach, run_bind_ok hy, run_bind_ok hys, run_ret]⟩

/-- What each element keeps and answers, `forEach` keeps and answers. -/
theorem forEach_inv {f : α → Prog S ε β} {I : σ → Prop} {R : α → β → Prop}
    (hf : ∀ x s y s', I s → (f x).run h s = some (.ok y, s') → I s' ∧ R x y) :
    ∀ {xs : List α} {ys : List β} {s s' : σ}, I s → (forEach f xs).run h s = some (.ok ys, s') →
      I s' ∧ List.Forall₂ R xs ys
  | [], ys, s, s', hs, hr => by
    cases hr
    exact ⟨hs, .nil⟩
  | x :: xs, ys, s, s', hs, hr => by
    obtain ⟨y, s₁, hy, hr⟩ := run_bind_ok_inv hr
    obtain ⟨ys', s₂, hys, hr⟩ := run_bind_ok_inv hr
    cases hr
    obtain ⟨hs₁, hxy⟩ := hf x s y s₁ hs hy
    obtain ⟨hs₂, hrest⟩ := forEach_inv hf hs₁ hys
    exact ⟨hs₂, .cons hxy hrest⟩

/-- What each element answers, from what is known of the elements. -/
theorem forEach_answers {f : α → Prog S ε β} {I : σ → Prop} {P : α → Prop} {Q : β → Prop}
    (hf : ∀ x s y s', P x → I s → (f x).run h s = some (.ok y, s') → I s' ∧ Q y) :
    ∀ {xs : List α} {ys : List β} {s s' : σ}, (∀ x ∈ xs, P x) → I s → (forEach f xs).run h s = some (.ok ys, s') →
      I s' ∧ ∀ y ∈ ys, Q y
  | [], ys, s, s', _, hs, hr => by
    cases hr
    exact ⟨hs, by simp⟩
  | x :: xs, ys, s, s', hP, hs, hr => by
    obtain ⟨y, s₁, hy, hr⟩ := run_bind_ok_inv hr
    obtain ⟨ys', s₂, hys, hr⟩ := run_bind_ok_inv hr
    cases hr
    obtain ⟨hs₁, hq⟩ := hf x s y s₁ (hP x (List.mem_cons_self ..)) hs hy
    obtain ⟨hs₂, hrest⟩ := forEach_answers hf (fun x hx => hP x (List.mem_cons_of_mem _ hx)) hs₁ hys
    exact ⟨hs₂, List.forall_mem_cons.2 ⟨hq, hrest⟩⟩

/-! ## More fuel -/

/-- Whenever `p` answers, `q` answers the same. -/
def RunsAs (h : Handler S σ) (p q : Prog S ε α) : Prop := ∀ s x, p.run h s = some x → q.run h s = some x

theorem RunsAs.refl (p : Prog S ε α) : RunsAs h p p := fun _ _ hr => hr

theorem RunsAs.bind {p q : Prog S ε α} {f g : α → Prog S ε β} (hp : RunsAs h p q) (hf : ∀ a, RunsAs h (f a) (g a)) :
    RunsAs h (p >>= f) (q >>= g) := by
  intro s x hr
  rcases run_bind_inv hr with ⟨a, s', hs, hr⟩ | ⟨e, hs, he⟩
  · rw [run_bind_ok (hp s _ hs)]
    exact hf a s' x hr
  · rw [run_bind_error (hp s _ hs), ← he]

theorem RunsAs.mapErr {p q : Prog S ε α} (hp : RunsAs h p q) (g : ε → ε') : RunsAs h (p.mapErr g) (q.mapErr g) := by
  intro s x hr
  rw [run_mapErr] at hr ⊢
  obtain ⟨y, hy, rfl⟩ := Option.map_eq_some_iff.1 hr
  rw [hp s y hy]
  rfl

/-! ## Loops -/

theorem run_loop_succ (step : γ → Prog S ε (γ ⊕ α)) (fuel : Nat) (x : γ) :
    loop step (fuel + 1) x = step x >>= fun r => match r with
      | .inl y => loop step fuel y
      | .inr a => ret a := rfl

/-- More fuel does not change an answer. -/
theorem RunsAs.loop (step : γ → Prog S ε (γ ⊕ α)) :
    ∀ {fuel fuel' : Nat}, fuel ≤ fuel' → ∀ x, RunsAs h (loop step fuel x) (loop step fuel' x) := by
  intro fuel
  induction fuel with
  | zero => intro fuel' _ x s r hr; cases hr
  | succ fuel ih =>
    intro fuel' hle x
    obtain ⟨fuel', rfl⟩ : ∃ m, fuel' = m + 1 := ⟨fuel' - 1, by omega⟩
    rw [run_loop_succ, run_loop_succ]
    refine (RunsAs.refl (step x)).bind fun r => ?_
    cases r with
    | inl y => exact ih (by omega) y
    | inr a => exact .refl _

/-- One turn of a loop keeps the invariant, so an answer of the loop has
what a last turn gives it. -/
theorem loop_inv (step : γ → Prog S ε (γ ⊕ α)) {I : γ → σ → Prop} {Q : Except ε α → σ → Prop}
    (hstep : ∀ x s r s', I x s → (step x).run h s = some (r, s') →
      match r with
      | .ok (.inl y) => I y s'
      | .ok (.inr a) => Q (.ok a) s'
      | .error e => Q (.error e) s') :
    ∀ {fuel x s r s'}, I x s → (loop step fuel x).run h s = some (r, s') → Q r s' := by
  intro fuel
  induction fuel with
  | zero => intro x s r s' _ hr; cases hr
  | succ fuel ih =>
    intro x s r s' hx hr
    rw [run_loop_succ] at hr
    rcases run_bind_inv hr with ⟨a, s₁, hs, hr⟩ | ⟨e, hs, rfl⟩
    · have := hstep x s _ _ hx hs
      cases a with
      | inl y => exact ih this hr
      | inr b => cases hr; exact this
    · exact hstep x s _ _ hx hs

/-- A loop each of whose turns ends it or lowers a number answers, given more
fuel than that number. -/
theorem loop_bounded (step : γ → Prog S ε (γ ⊕ α)) {I : γ → σ → Prop} {Q : Except ε α → σ → Prop} (μ : γ → Nat)
    (hstep : ∀ x s, I x s → ∃ r s', (step x).run h s = some (r, s') ∧
      match r with
      | .ok (.inl y) => I y s' ∧ μ y < μ x
      | .ok (.inr a) => Q (.ok a) s'
      | .error e => Q (.error e) s') :
    ∀ fuel x s, I x s → μ x < fuel → ∃ r s', Q r s' ∧ (loop step fuel x).run h s = some (r, s') := by
  intro fuel
  induction fuel with
  | zero => intro x s _ hlt; omega
  | succ fuel ih =>
    intro x s hx hlt
    obtain ⟨r, s₁, hs, hr⟩ := hstep x s hx
    match r, hs, hr with
    | .ok (.inl y), hs, ⟨hy, hlt'⟩ =>
      obtain ⟨r, s', hq, hrun⟩ := ih y s₁ hy (by omega)
      exact ⟨r, s', hq, by rw [run_loop_succ, run_bind_ok hs]; exact hrun⟩
    | .ok (.inr a), hs, hq => exact ⟨_, s₁, hq, by rw [run_loop_succ, run_bind_ok hs, run_ret]⟩
    | .error e, hs, hq => exact ⟨_, s₁, hq, by rw [run_loop_succ, run_bind_error hs]⟩

/-- The same for a loop that only reads, and never fails. -/
theorem loop_reads (step : γ → Prog S ε (γ ⊕ α)) {I : γ → Prop} {Q : α → Prop} {s : σ} (μ : γ → Nat)
    (hstep : ∀ x, I x → ∃ r, (step x).run h s = some (.ok r, s) ∧
      match r with
      | .inl y => I y ∧ μ y < μ x
      | .inr a => Q a)
    {fuel : Nat} {x : γ} (hx : I x) (hfuel : μ x < fuel) :
    ∃ a, (loop step fuel x).run h s = some (.ok a, s) ∧ Q a := by
  have hstep' : ∀ x s', s' = s ∧ I x → ∃ r s'', (step x).run h s' = some (r, s'') ∧
      match r with
      | .ok (.inl y) => (s'' = s ∧ I y) ∧ μ y < μ x
      | .ok (.inr a) => s'' = s ∧ Q a
      | .error _ => False := by
    rintro x s' ⟨rfl, hx⟩
    obtain ⟨r, hr, hpost⟩ := hstep x hx
    refine ⟨.ok r, s', hr, ?_⟩
    cases r with
    | inl y => exact ⟨⟨rfl, hpost.1⟩, hpost.2⟩
    | inr a => exact ⟨rfl, hpost⟩
  obtain ⟨r, s', hq, hrun⟩ := loop_bounded step
    (Q := fun r s' => match r with | .ok a => s' = s ∧ Q a | .error _ => False) μ hstep' fuel x s ⟨rfl, hx⟩ hfuel
  cases r with
  | ok a => exact ⟨a, hq.1 ▸ hrun, hq.2⟩
  | error e => exact hq.elim

/-- A loop each of whose turns ends it or moves down a well-founded order
answers, given enough fuel. -/
theorem loop_total (step : γ → Prog S ε (γ ⊕ α)) {I : γ → σ → Prop} {Q : Except ε α → σ → Prop}
    {δ : Type} {lt : δ → δ → Prop} (wf : WellFounded lt) (μ : γ → δ)
    (hstep : ∀ x s, I x s → ∃ r s', (step x).run h s = some (r, s') ∧
      match r with
      | .ok (.inl y) => I y s' ∧ lt (μ y) (μ x)
      | .ok (.inr a) => Q (.ok a) s'
      | .error e => Q (.error e) s') :
    ∀ x s, I x s → ∃ N, ∃ r s', Q r s' ∧ ∀ fuel ≥ N, (loop step fuel x).run h s = some (r, s') := by
  suffices key : ∀ d x s, μ x = d → I x s →
      ∃ N, ∃ r s', Q r s' ∧ ∀ fuel ≥ N, (loop step fuel x).run h s = some (r, s') from
    fun x s hx => key (μ x) x s rfl hx
  intro d
  induction d using wf.induction with
  | _ d ih =>
  rintro x s rfl hx
  obtain ⟨r, s₁, hs, hr⟩ := hstep x s hx
  match r, hs, hr with
  | .ok (.inl y), hs, ⟨hy, hlt⟩ =>
    obtain ⟨N, r, s', hq, hN⟩ := ih _ hlt y s₁ rfl hy
    refine ⟨N + 1, r, s', hq, fun fuel hfuel => ?_⟩
    obtain ⟨fuel, rfl⟩ : ∃ m, fuel = m + 1 := ⟨fuel - 1, by omega⟩
    rw [run_loop_succ, run_bind_ok hs]
    exact hN fuel (by omega)
  | .ok (.inr a), hs, hq =>
    refine ⟨1, _, s₁, hq, fun fuel hfuel => ?_⟩
    obtain ⟨fuel, rfl⟩ : ∃ m, fuel = m + 1 := ⟨fuel - 1, by omega⟩
    rw [run_loop_succ, run_bind_ok hs, run_ret]
  | .error e, hs, hq =>
    refine ⟨1, _, s₁, hq, fun fuel hfuel => ?_⟩
    obtain ⟨fuel, rfl⟩ : ∃ m, fuel = m + 1 := ⟨fuel - 1, by omega⟩
    rw [run_loop_succ, run_bind_error hs]

/-! ## Side by side -/

/-- Whenever `p` answers in a state of `I`, so does `q`: `R` relates the
answers, and both leave the same state, again of `I`. -/
def Simulates (h : Handler S σ) (I : σ → Prop) (R : α → β → Prop) (p : Prog S ε α) (q : Prog S ε β) : Prop :=
  ∀ s a s', I s → p.run h s = some (.ok a, s') → I s' ∧ ∃ b, q.run h s = some (.ok b, s') ∧ R a b

section Simulates

variable {δ α' β' : Type} {I : σ → Prop} {R : α → β → Prop}

theorem Simulates.ret {a : α} {b : β} (hr : R a b) : Simulates h I R (ret a : Prog S ε α) (ret b) := by
  intro s a' s' hs hrun
  cases hrun
  exact ⟨hs, b, rfl, hr⟩

theorem Simulates.bind {R' : α' → β' → Prop} {p : Prog S ε α} {q : Prog S ε β} {f : α → Prog S ε α'}
    {g : β → Prog S ε β'} (hp : Simulates h I R p q) (hf : ∀ a b, R a b → Simulates h I R' (f a) (g b)) :
    Simulates h I R' (p >>= f) (q >>= g) := by
  intro s a' s' hs hrun
  obtain ⟨a, s₁, hpa, hfa⟩ := run_bind_ok_inv hrun
  obtain ⟨hs₁, b, hqb, hab⟩ := hp s a s₁ hs hpa
  obtain ⟨hs', b', hgb, hr⟩ := hf a b hab s₁ a' s' hs₁ hfa
  exact ⟨hs', b', (run_bind_ok hqb).trans hgb, hr⟩

theorem Simulates.mono {R' : α → β → Prop} {p : Prog S ε α} {q : Prog S ε β} (hp : Simulates h I R p q)
    (hr : ∀ a b, R a b → R' a b) : Simulates h I R' p q := by
  intro s a s' hs hrun
  obtain ⟨hs', b, hq, hab⟩ := hp s a s' hs hrun
  exact ⟨hs', b, hq, hr a b hab⟩

/-- Two loops whose turns go together. -/
theorem Simulates.loop {T : γ → δ → Prop} {step : γ → Prog S ε (γ ⊕ α)} {step' : δ → Prog S ε (δ ⊕ β)}
    (hstep : ∀ x y, T x y → Simulates h I (Sum.LiftRel T R) (step x) (step' y)) :
    ∀ (fuel : Nat) {x : γ} {y : δ}, T x y → Simulates h I R (loop step fuel x) (loop step' fuel y) := by
  intro fuel
  induction fuel with
  | zero =>
    intro x y _ s a s' _ hrun
    cases hrun
  | succ fuel ih =>
    intro x y hxy
    rw [run_loop_succ, run_loop_succ]
    refine (hstep x y hxy).bind fun r r' hr => ?_
    cases hr with
    | inl hxy' => exact ih hxy'
    | inr hab => exact .ret hab

end Simulates

/-! ## Programs by their operations -/

/-- Every operation `p` can ask for satisfies `P`. -/
def AllOps (P : S.Op → Prop) : Prog S ε α → Prop
  | ret _ | fail _ | stuck => True
  | op o k => P o ∧ ∀ x, (k x).AllOps P

theorem AllOps.bind {P : S.Op → Prop} {p : Prog S ε α} {f : α → Prog S ε β} (hp : p.AllOps P)
    (hf : ∀ a, (f a).AllOps P) : (p >>= f).AllOps P := by
  induction p with
  | ret a => exact hf a
  | fail e => trivial
  | op o k ih => exact ⟨hp.1, fun x => ih x (hp.2 x)⟩
  | stuck => trivial

theorem AllOps.mono {P P' : S.Op → Prop} (hP : ∀ o, P o → P' o) {p : Prog S ε α} (hp : p.AllOps P) :
    p.AllOps P' := by
  induction p with
  | ret a => trivial
  | fail e => trivial
  | op o k ih => exact ⟨hP o hp.1, fun x => ih x (hp.2 x)⟩
  | stuck => trivial

theorem AllOps.mapErr {P : S.Op → Prop} {g : ε → ε'} {p : Prog S ε α} (hp : p.AllOps P) :
    (p.mapErr g).AllOps P := by
  induction p with
  | ret a => trivial
  | fail e => trivial
  | op o k ih => exact ⟨hp.1, fun x => ih x (hp.2 x)⟩
  | stuck => trivial

theorem AllOps.attempt {P : S.Op → Prop} {p : Prog S ε α} (hp : p.AllOps P) : (p.attempt : Prog S ε' _).AllOps P := by
  induction p with
  | ret a => trivial
  | fail e => trivial
  | op o k ih => exact ⟨hp.1, fun x => ih x (hp.2 x)⟩
  | stuck => trivial

theorem AllOps.ofExcept {P : S.Op → Prop} (x : Except ε α) : (Prog.ofExcept x : Prog S ε α).AllOps P := by
  cases x <;> trivial

theorem AllOps.ofOption {P : S.Op → Prop} (x : Option α) : (Prog.ofOption x : Prog S ε α).AllOps P := by
  cases x <;> trivial

theorem AllOps.forEach {P : S.Op → Prop} {f : α → Prog S ε β} (hf : ∀ a, (f a).AllOps P) :
    ∀ l : List α, (forEach f l).AllOps P
  | [] => trivial
  | x :: xs => (hf x).bind fun _ => (AllOps.forEach hf xs).bind fun _ => trivial

theorem AllOps.loop {P : S.Op → Prop} {step : γ → Prog S ε (γ ⊕ α)} (hs : ∀ x, (step x).AllOps P) :
    ∀ (fuel : Nat) (x : γ), (loop step fuel x).AllOps P := by
  intro fuel
  induction fuel with
  | zero => intro x; trivial
  | succ fuel ih =>
    intro x
    rw [run_loop_succ]
    refine (hs x).bind fun r => ?_
    cases r with
    | inl y => exact ih y
    | inr a => trivial

/-- Every operation `p` can ask for satisfies `P`, and what it can answer `Q`. -/
def Within (P : S.Op → Prop) (Q : α → Prop) : Prog S ε α → Prop
  | ret a => Q a
  | fail _ | stuck => True
  | op o k => P o ∧ ∀ x, (k x).Within P Q

section Within

variable {P : S.Op → Prop} {Q : α → Prop}

theorem AllOps.within {p : Prog S ε α} (hp : p.AllOps P) (hq : ∀ a, Q a) : p.Within P Q := by
  induction p with
  | ret a => exact hq a
  | fail e => trivial
  | op o k ih => exact ⟨hp.1, fun x => ih x (hp.2 x)⟩
  | stuck => trivial

theorem Within.allOps {p : Prog S ε α} (hp : p.Within P Q) : p.AllOps P := by
  induction p with
  | ret a => trivial
  | fail e => trivial
  | op o k ih => exact ⟨hp.1, fun x => ih x (hp.2 x)⟩
  | stuck => trivial

theorem Within.ofExcept {x : Except ε α} (hq : ∀ a, x = .ok a → Q a) : (Prog.ofExcept x : Prog S ε α).Within P Q := by
  cases x with
  | ok a => exact hq a rfl
  | error e => trivial

theorem Within.bind {Q' : β → Prop} {p : Prog S ε α} {f : α → Prog S ε β} (hp : p.Within P Q)
    (hf : ∀ a, Q a → (f a).Within P Q') : (p >>= f).Within P Q' := by
  induction p with
  | ret a => exact hf a hp
  | fail e => trivial
  | op o k ih => exact ⟨hp.1, fun x => ih x (hp.2 x)⟩
  | stuck => trivial

theorem Within.attempt {p : Prog S ε α} (hp : p.Within P Q) :
    (p.attempt : Prog S ε' _).Within P fun r => ∀ a, r = .ok a → Q a := by
  induction p with
  | ret a =>
    intro a' heq
    cases heq
    exact hp
  | fail e => exact fun a heq => nomatch heq
  | op o k ih => exact ⟨hp.1, fun x => ih x (hp.2 x)⟩
  | stuck => trivial

/-- A loop keeps the invariant of its variables from turn to turn. -/
theorem Within.loop {J : γ → Prop} {step : γ → Prog S ε (γ ⊕ α)} (hs : ∀ x, J x → (step x).Within P (Sum.elim J Q)) :
    ∀ (fuel : Nat) {x : γ}, J x → (loop step fuel x).Within P Q := by
  intro fuel
  induction fuel with
  | zero => intro x _; trivial
  | succ fuel ih =>
    intro x hx
    rw [run_loop_succ]
    refine (hs x hx).bind fun r hr => ?_
    cases r with
    | inl y => exact ih hr
    | inr a => exact hr

end Within

/-- What harmless operations keep, a finished run of them has kept. -/
theorem AllOps.run_inv {P : S.Op → Prop} {I : σ → Prop} (hI : ∀ o s, P o → I s → I (h o s).2) {p : Prog S ε α}
    {s s' : σ} {r : Except ε α} (hp : p.AllOps P) (hs : I s) (hr : p.run h s = some (r, s')) : I s' := by
  induction p generalizing s with
  | ret a => cases hr; exact hs
  | fail e => cases hr; exact hs
  | op o k ih => exact ih _ (hp.2 _) (hI o s hp.1 hs) hr
  | stuck => cases hr

/-- Run from `s`, `p` changes nothing. -/
def Still (h : Handler S σ) (s : σ) : Prog S ε α → Prop
  | op o k => (h o s).2 = s ∧ (k (h o s).1).Still h s
  | _ => True

section Still

variable {s : σ}

theorem Still.bind {p : Prog S ε α} {f : α → Prog S ε β} (hp : p.Still h s)
    (hf : ∀ a, p.run h s = some (.ok a, s) → (f a).Still h s) : (p >>= f).Still h s := by
  induction p with
  | ret a => exact hf a rfl
  | fail e => trivial
  | op o k ih =>
    refine ⟨hp.1, ih _ hp.2 fun a hrun => hf a ?_⟩
    rw [run_op, hp.1]
    exact hrun
  | stuck => trivial

theorem Still.run {p : Prog S ε α} (hp : p.Still h s) {r : Except ε α} {s' : σ} (hrun : p.run h s = some (r, s')) :
    s' = s := by
  induction p with
  | ret a => cases hrun; rfl
  | fail e => cases hrun; rfl
  | op o k ih =>
    rw [run_op, hp.1] at hrun
    exact ih _ hp.2 hrun
  | stuck => cases hrun

theorem Still.mapErr {p : Prog S ε α} (hp : p.Still h s) {f : ε → ε'} : (p.mapErr f).Still h s := by
  induction p with
  | ret a => trivial
  | fail e => trivial
  | op o k ih => exact ⟨hp.1, ih _ hp.2⟩
  | stuck => trivial

theorem AllOps.still {P : S.Op → Prop} (hI : ∀ o, P o → (h o s).2 = s) {p : Prog S ε α} (hp : p.AllOps P) :
    p.Still h s := by
  induction p with
  | ret a => trivial
  | fail e => trivial
  | op o k ih => exact ⟨hI o hp.1, ih _ (hp.2 _)⟩
  | stuck => trivial

end Still

/-- Run from a state of `I`, `p` ends in one. -/
def Keeps (h : Handler S σ) (I : σ → Prop) (p : Prog S ε α) : Prop := ∀ s r s', I s → p.run h s = some (r, s') → I s'

section Keeps

variable {I : σ → Prop}

theorem AllOps.keeps {P : S.Op → Prop} (hI : ∀ o s, P o → I s → I (h o s).2) {p : Prog S ε α} (hp : p.AllOps P) :
    p.Keeps h I := fun _ _ _ hs hrun => hp.run_inv hI hs hrun

theorem Keeps.ret (a : α) : (ret a : Prog S ε α).Keeps h I := by
  intro s r s' hs hrun
  cases hrun
  exact hs

theorem Keeps.ofExcept (x : Except ε α) : (ofExcept x : Prog S ε α).Keeps h I := by
  intro s r s' hs hrun
  rw [run_ofExcept] at hrun
  cases hrun
  exact hs

theorem Keeps.ofOption (x : Option α) : (ofOption x : Prog S ε α).Keeps h I := by
  cases x with
  | none =>
    intro s r s' _ hrun
    cases hrun
  | some a => exact .ret a

theorem Keeps.fail (e : ε) : (fail e : Prog S ε α).Keeps h I := .ofExcept (.error e)

theorem Keeps.bind {p : Prog S ε α} {f : α → Prog S ε β} (hp : p.Keeps h I) (hf : ∀ a, (f a).Keeps h I) :
    (p >>= f).Keeps h I := by
  intro s r s' hs hrun
  rcases run_bind_inv hrun with ⟨a, s₁, hpa, hfa⟩ | ⟨e, hpe, -⟩
  · exact hf a s₁ r s' (hp s _ s₁ hs hpa) hfa
  · exact hp s _ s' hs hpe

theorem Keeps.attempt {p : Prog S ε α} (hp : p.Keeps h I) : (p.attempt : Prog S ε' _).Keeps h I := by
  intro s r s' hs hrun
  rw [run_attempt] at hrun
  obtain ⟨⟨x, s₁⟩, hrun, heq⟩ := Option.map_eq_some_iff.1 hrun
  cases heq
  exact hp s x s' hs hrun

theorem Keeps.forEach {f : α → Prog S ε β} (hf : ∀ a, (f a).Keeps h I) : ∀ l : List α, (forEach f l).Keeps h I
  | [] => .ret []
  | x :: xs => (hf x).bind fun _ => (Keeps.forEach hf xs).bind fun _ => .ret _

theorem Keeps.loop {step : γ → Prog S ε (γ ⊕ α)} (hs : ∀ x, (step x).Keeps h I) :
    ∀ (fuel : Nat) (x : γ), (loop step fuel x).Keeps h I := by
  intro fuel
  induction fuel with
  | zero =>
    intro x s r s' _ hrun
    cases hrun
  | succ fuel ih =>
    intro x
    rw [run_loop_succ]
    refine (hs x).bind fun r => ?_
    cases r with
    | inl y => exact ih y
    | inr a => exact .ret a

end Keeps

/-- A program of operations that only read, and read the same in two states,
answers the same in both. -/
theorem AllOps.run_congr {P : S.Op → Prop} {s s' : σ}
    (hread : ∀ o, P o → (h o s').1 = (h o s).1 ∧ (h o s).2 = s ∧ (h o s').2 = s') {p : Prog S ε α}
    (hp : p.AllOps P) : (p.run h s').map (·.1) = (p.run h s).map (·.1) := by
  induction p with
  | ret a => rfl
  | fail e => rfl
  | op o k ih =>
    obtain ⟨hans, hs, hs'⟩ := hread o hp.1
    rw [run_op, run_op, hans, hs, hs']
    exact ih _ (hp.2 _)
  | stuck => rfl

end Prog

end Miscreant.Lib
