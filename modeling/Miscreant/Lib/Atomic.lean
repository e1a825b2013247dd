/-
Programs that take effect at one operation, and the order a pool of them can
be put in.

`abs` is what is observed of the store. A program is `Atomic` for `spec` if,
whatever the others do between its operations, it leaves what is observed
alone up to an operation at which it does all of `spec` at once and is done,
or gives up with an answer of `quits`. In every state a pool of atomic
programs reaches, what is observed is what the calls that took effect give
one after another (`Pool.linearizable`).
-/
import Miscreant.Lib.Pool

namespace Miscreant.Lib

/-- The calls one after another: what is observed in the end, and their
answers. -/
def replay {τ A α : Type} (spec : τ → A → A × α) : List τ → A → A × List α
  | [], a => (a, [])
  | tag :: tags, a =>
    let (a, answer) := spec tag a
    let (a, answers) := replay spec tags a
    (a, answer :: answers)

theorem replay_concat {τ A α : Type} (spec : τ → A → A × α) (tag : τ) : ∀ (tags : List τ) (a : A),
    replay spec (tags ++ [tag]) a =
      ((spec tag (replay spec tags a).1).1, (replay spec tags a).2 ++ [(spec tag (replay spec tags a).1).2])
  | [], a => rfl
  | tag' :: tags, a => by simp [replay, replay_concat spec tag tags]

/-- What every call preserves is preserved. -/
theorem replay_inv {τ A α : Type} {spec : τ → A → A × α} {P : A → Prop} (h : ∀ tag a, P a → P (spec tag a).1) :
    ∀ {tags : List τ} {a : A}, P a → P (replay spec tags a).1
  | [], _, ha => ha
  | tag :: tags, a, ha => @replay_inv _ _ _ _ _ h tags _ (h tag a ha)

/-- Each answer is what its call gives somewhere. -/
theorem replay_answer {τ A α : Type} {spec : τ → A → A × α} : ∀ {tags : List τ} {a : A} {tag : τ} {answer : α},
    (tag, answer) ∈ tags.zip (replay spec tags a).2 → ∃ a', answer = (spec tag a').2
  | [], _, _, _, h => by simp at h
  | tag' :: tags, a, tag, answer, h => by
    simp only [replay, List.zip_cons_cons, List.mem_cons, Prod.mk.injEq] at h
    rcases h with ⟨rfl, rfl⟩ | h
    · exact ⟨a, rfl⟩
    · exact replay_answer h

namespace Prog

variable {S : Sig} {ε α σ A : Type}

/-- From `s`, among others that do what `R` allows, the program takes effect
as `spec` at one operation, its last, or gives up. -/
def Atomic (h : Handler S σ) (R : σ → σ → Prop) (abs : σ → A) (spec : A → A × α) (quits : α → Prop) :
    Prog S ε α → σ → Prop
  | ret a, _ => quits a
  | fail _, _ => False
  | op o k, s => ∀ s', R s s' → R s' (h o s').2 ∧
      ((abs (h o s').2 = abs s' ∧ (k (h o s').1).Atomic h R abs spec quits (h o s').2) ∨
        (abs (h o s').2 = (spec (abs s')).1 ∧ k (h o s').1 = ret (spec (abs s')).2))
  | stuck, _ => False

variable {h : Handler S σ} {R : σ → σ → Prop} {abs : σ → A} {spec : A → A × α} {quits : α → Prop}

theorem Atomic.stable (trans : ∀ s₁ s₂ s₃, R s₁ s₂ → R s₂ s₃ → R s₁ s₃) {p : Prog S ε α} {s s' : σ}
    (hp : p.Atomic h R abs spec quits s) (hr : R s s') : p.Atomic h R abs spec quits s' := by
  cases p with
  | ret a => exact hp
  | fail e => exact hp
  | op o k => exact fun s'' hr' => hp s'' (trans _ _ _ hr hr')
  | stuck => exact hp

/-- An operation no one sees. -/
theorem Atomic.silent {o : S.Op} {k : S.Ans o → Prog S ε α} {s : σ}
    (hq : ∀ s', R s s' → R s' (h o s').2 ∧ abs (h o s').2 = abs s' ∧
      (k (h o s').1).Atomic h R abs spec quits (h o s').2) : (op o k).Atomic h R abs spec quits s :=
  fun s' hr => ⟨(hq s' hr).1, .inl (hq s' hr).2⟩

/-- Nor does anyone see what is computed first. -/
theorem Computes.atomic {β : Type} (refl : ∀ s, R s s) (trans : ∀ s₁ s₂ s₃, R s₁ s₂ → R s₂ s₃ → R s₁ s₃)
    {p : Prog S ε β} {f : β → Prog S ε α} {b : β} (hp : p.Computes h b) {s : σ}
    (hf : ∀ s', R s s' → (f b).Atomic h R abs spec quits s') : (p >>= f).Atomic h R abs spec quits s := by
  induction p generalizing s with
  | ret b' =>
    obtain rfl : b' = b := hp
    exact hf s (refl s)
  | fail e => exact hp.elim
  | op o k ih =>
    obtain ⟨ans, ho, hk⟩ := hp
    refine Atomic.silent fun s' hr => ?_
    rw [ho]
    exact ⟨refl s', rfl, ih ans hk fun s'' hr' => hf s'' (trans _ _ _ hr hr')⟩
  | stuck => exact hp.elim

end Prog

namespace Pool

variable {S : Sig} {τ ε α σ A : Type} {h : Handler S σ} {R : σ → σ → Prop} {abs : σ → A} {spec : τ → A → A × α}
  {quits : τ → α → Prop}

/-- The calls that took effect, by position in the pool, in the order in
which they did. -/
structure Linearized (h : Handler S σ) (R : σ → σ → Prop) (abs : σ → A) (spec : τ → A → A × α)
    (quits : τ → α → Prop) (a₀ : A) (order : List (Nat × τ × α)) (c : List (Thread S τ ε α) × σ) : Prop where
  nodup : (order.map (·.1)).Nodup
  replayed : replay spec (order.map (·.2.1)) a₀ = (abs c.2, order.map (·.2.2))
  effective : ∀ e ∈ order, ∃ begun, c.1[e.1]? = some ⟨e.2.1, begun, .ret e.2.2⟩
  pending : ∀ i t, c.1[i]? = some t → i ∉ order.map (·.1) → t.prog.Atomic h R abs (spec t.tag) (quits t.tag) c.2

theorem getElem?_middle_ne {β : Type} {l r : List β} {x y : β} {i : Nat} (h : i ≠ l.length) :
    (l ++ x :: r)[i]? = (l ++ y :: r)[i]? := by
  rcases Nat.lt_trichotomy i l.length with hlt | heq | hgt
  · rw [List.getElem?_append_left hlt, List.getElem?_append_left hlt]
  · exact absurd heq h
  · obtain ⟨n, hn⟩ := Nat.exists_eq_add_of_lt hgt
    rw [List.getElem?_append_right (by omega), List.getElem?_append_right (by omega)]
    have hi : i - l.length = n + 1 := by omega
    rw [hi, List.getElem?_cons_succ, List.getElem?_cons_succ]

theorem getElem?_middle {β : Type} (l r : List β) (x : β) : (l ++ x :: r)[l.length]? = some x := by
  rw [List.getElem?_append_right le_rfl, Nat.sub_self, List.getElem?_cons_zero]

namespace Linearized

variable {a₀ : A} {order : List (Nat × τ × α)}

/-- The answer of a call that took effect is what the call gives. -/
theorem answered {c : List (Thread S τ ε α) × σ} (hl : Linearized h R abs spec quits a₀ order c)
    {e : Nat × τ × α} (he : e ∈ order) : ∃ a, e.2.2 = (spec e.2.1 a).2 := by
  refine @replay_answer _ _ _ spec (order.map (·.2.1)) a₀ e.2.1 e.2.2 ?_
  rw [hl.replayed]
  simp only [List.zip_map']
  exact List.mem_map_of_mem he

theorem start {ts : List (Thread S τ ε α)} {s : σ} (hl : Linearized h R abs spec quits a₀ order (ts, s)) {tag : τ}
    {p : Prog S ε α} (hp : p.Atomic h R abs (spec tag) (quits tag) s) :
    Linearized h R abs spec quits a₀ order (ts ++ [⟨tag, false, p⟩], s) where
  nodup := hl.nodup
  replayed := hl.replayed
  effective e he := by
    obtain ⟨begun, hget⟩ := hl.effective e he
    have hlt : e.1 < ts.length := (List.getElem?_eq_some_iff.1 hget).1
    exact ⟨begun, by rw [List.getElem?_append_left hlt]; exact hget⟩
  pending i t hget hi := by
    rcases Nat.lt_or_ge i ts.length with hlt | hge
    · rw [List.getElem?_append_left hlt] at hget
      exact hl.pending i t hget hi
    · rw [List.getElem?_append_right hge] at hget
      rw [List.mem_singleton.1 (List.mem_of_getElem? hget)]
      exact hp

variable {l r : List (Thread S τ ε α)} {s : σ} {tag : τ} {begun : Bool} {o : S.Op} {k : S.Ans o → Prog S ε α}

/-- A thread with an operation left has not taken effect. -/
theorem not_effective (hl : Linearized h R abs spec quits a₀ order (l ++ ⟨tag, begun, .op o k⟩ :: r, s)) :
    l.length ∉ order.map (·.1) := by
  intro hmem
  obtain ⟨⟨i, tag', a⟩, he, hi⟩ := List.mem_map.1 hmem
  dsimp only at hi
  subst hi
  obtain ⟨begun', hget⟩ := hl.effective _ he
  rw [getElem?_middle] at hget
  cases hget

/-- A step of one thread, seen by the others. -/
theorem others (trans : ∀ s₁ s₂ s₃, R s₁ s₂ → R s₂ s₃ → R s₁ s₃)
    (hl : Linearized h R abs spec quits a₀ order (l ++ ⟨tag, begun, .op o k⟩ :: r, s)) {s' : σ} (hr : R s s')
    {x t : Thread S τ ε α} {i : Nat} (hget : (l ++ x :: r)[i]? = some t) (hne : i ≠ l.length)
    (hi : i ∉ order.map (·.1)) : t.prog.Atomic h R abs (spec t.tag) (quits t.tag) s' := by
  rw [@getElem?_middle_ne _ _ _ _ ⟨tag, begun, .op o k⟩ _ hne] at hget
  exact (hl.pending i t hget hi).stable trans hr

/-- One operation of a thread: it goes unseen, or the thread takes effect
after all those that have. -/
theorem op (refl : ∀ s, R s s) (trans : ∀ s₁ s₂ s₃, R s₁ s₂ → R s₂ s₃ → R s₁ s₃)
    (hl : Linearized h R abs spec quits a₀ order (l ++ ⟨tag, begun, .op o k⟩ :: r, s)) :
    ∃ order', Linearized h R abs spec quits a₀ order' (l ++ ⟨tag, true, k (h o s).1⟩ :: r, (h o s).2) := by
  have hnew := hl.not_effective
  have hme := hl.pending l.length _ (getElem?_middle l r _) hnew
  have hkeep : ∀ e ∈ order, ∀ x : Thread S τ ε α, ∃ begun', (l ++ x :: r)[e.1]? = some ⟨e.2.1, begun', .ret e.2.2⟩ := by
    intro e he x
    obtain ⟨begun', hget⟩ := hl.effective e he
    have hne : e.1 ≠ l.length := fun heq => hnew (heq ▸ List.mem_map_of_mem he)
    exact ⟨begun', by rw [getElem?_middle_ne hne]; exact hget⟩
  obtain ⟨hr, ⟨habs, hgo⟩ | ⟨habs, hret⟩⟩ := hme s (refl s)
  · refine ⟨order, hl.nodup, ?_, fun e he => hkeep e he _, fun i t hget hi => ?_⟩
    · rw [hl.replayed]
      exact congrArg (·, _) habs.symm
    · by_cases hne : i = l.length
      · rw [hne, getElem?_middle] at hget
        cases hget
        exact hgo
      · exact hl.others trans hr hget hne hi
  · refine ⟨order ++ [(l.length, tag, (spec tag (abs s)).2)], ?_, ?_, fun e he => ?_, fun i t hget hi => ?_⟩
    · rw [List.map_append, List.nodup_append]
      refine ⟨hl.nodup, by simp, fun i hi j hj heq => ?_⟩
      have hj : j = l.length := by simpa using hj
      exact hnew (by rwa [← hj, ← heq])
    · simp only [List.map_append, List.map_singleton]
      rw [replay_concat, hl.replayed]
      exact congrArg (·, _) habs.symm
    · rcases List.mem_append.1 he with he | he
      · exact hkeep e he _
      · rw [List.mem_singleton.1 he]
        exact ⟨true, by rw [getElem?_middle]; exact congrArg (fun p => some (Thread.mk tag true p)) hret⟩
    · simp only [List.map_append, List.map_singleton, List.mem_append, List.mem_singleton, not_or] at hi
      exact hl.others trans hr hget hi.2 hi.1

end Linearized

/-- In every state reached there is an order of the calls that took effect
that gives what is observed and their answers. -/
theorem linearizable (refl : ∀ s, R s s) (trans : ∀ s₁ s₂ s₃, R s₁ s₂ → R s₂ s₃ → R s₁ s₃)
    {Start : τ → Prog S ε α → Prop} {s₀ : σ}
    (hstart : ∀ tag p s, Start tag p → R s₀ s → p.Atomic h R abs (spec tag) (quits tag) s)
    {c : List (Thread S τ ε α) × σ}
    (hc : Reachable h Start (fun _ _ _ => True) (fun _ _ => False) s₀ c) :
    R s₀ c.2 ∧ ∃ order, Linearized h R abs spec quits (abs s₀) order c := by
  induction hc with
  | refl => exact ⟨refl s₀, [], by simp, rfl, by simp, by simp⟩
  | tail _ hstep ih =>
    obtain ⟨hr, order, hl⟩ := ih
    cases hstep with
    | start hp => exact ⟨hr, order, hl.start (hstart _ _ _ hp hr)⟩
    | @op l r s tag begun o k _ =>
      have hme := hl.pending l.length _ (getElem?_middle l r _) hl.not_effective
      exact ⟨trans _ _ _ hr (hme s (refl s)).1, hl.op refl trans⟩
    | crash hcrash => exact hcrash.elim

end Pool

end Miscreant.Lib
