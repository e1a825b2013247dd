/-
Loops that resolve the nodes of a graph with an explicit stack.

A turn looks at the top of the stack. It resolves the node and pops it, or
pushes the successors that are not resolved yet and leaves the node below
them, or fails. A node may be on the stack many times (a diamond), so the
stack alone does not get smaller; what makes such a loop end is that the
successor relation is well founded at every node of the stack: resolving a
node first resolves the successors pushed above it (`Resolver.pop`), by
induction on the relation.
-/
import Miscreant.Lib.Prog
import Mathlib.Logic.Relation

namespace Miscreant.Lib

namespace Prog

variable {S : Sig} {ε α γ σ ι : Type}

/-- One turn of a loop after which it goes on. -/
def Turn (h : Handler S σ) (step : γ → Prog S ε (γ ⊕ α)) (a b : γ × σ) : Prop :=
  (step a.1).run h a.2 = some (.ok (.inl b.1), b.2)

/-- One turn of a loop that fails as `F` says. -/
def Fails (h : Handler S σ) (step : γ → Prog S ε (γ ⊕ α)) (F : ε → σ → Prop) (a : γ × σ) : Prop :=
  ∃ e s', (step a.1).run h a.2 = some (.error e, s') ∧ F e s'

variable {h : Handler S σ} {step : γ → Prog S ε (γ ⊕ α)} {F : ε → σ → Prop}

/-- A loop runs on from where its turns have taken it. -/
theorem run_loop_turns {a b : γ × σ} (ht : Relation.ReflTransGen (Turn h step) a b) :
    ∃ n, ∀ fuel, (loop step (n + fuel) a.1).run h a.2 = (loop step fuel b.1).run h b.2 := by
  induction ht with
  | refl => exact ⟨0, fun fuel => by rw [Nat.zero_add]⟩
  | @tail b c _ hbc ih =>
    obtain ⟨n, hn⟩ := ih
    refine ⟨n + 1, fun fuel => ?_⟩
    rw [Nat.add_assoc, hn, Nat.add_comm 1 fuel, run_loop_succ, run_bind_ok hbc]

/-- A loop whose turns resolve the nodes of a stack along the successors
`P`, with invariant `I`. -/
structure Resolver (h : Handler S σ) (step : γ → Prog S ε (γ ⊕ α)) (P : ι → ι → Prop) (stack : γ → List ι)
    (done : γ → ι → Prop) (I : γ → σ → Prop) (F : ε → σ → Prop) : Prop where
  acc : ∀ x s, I x s → ∀ i ∈ stack x, Acc (fun j i => P i j) i
  turn : ∀ x s top rest, I x s → stack x = top :: rest → Fails h step F (x, s) ∨
    ∃ x' s', Turn h step (x, s) (x', s') ∧ I x' s' ∧ (∀ i, done x i → done x' i) ∧
      ((stack x' = rest ∧ done x' top) ∨
        ∃ missing, stack x' = missing ++ top :: rest ∧ missing ≠ [] ∧ ∀ i, i ∈ missing ↔ P top i ∧ ¬ done x i)

namespace Resolver

variable {P : ι → ι → Prop} {stack : γ → List ι} {done : γ → ι → Prop} {I : γ → σ → Prop}

/-- The loop gets from `(x, s)` to a state in which `tops` are resolved and
off the stack, or fails on the way. -/
def Pops (h : Handler S σ) (step : γ → Prog S ε (γ ⊕ α)) (stack : γ → List ι) (done : γ → ι → Prop)
    (I : γ → σ → Prop) (F : ε → σ → Prop) (tops : List ι) : Prop :=
  ∀ x s rest, I x s → stack x = tops ++ rest →
    (∃ b, Relation.ReflTransGen (Turn h step) (x, s) b ∧ Fails h step F b) ∨
    ∃ x' s', Relation.ReflTransGen (Turn h step) (x, s) (x', s') ∧ I x' s' ∧ stack x' = rest ∧
      (∀ i ∈ tops, done x' i) ∧ ∀ i, done x i → done x' i

/-- Nodes that can be popped one at a time can be popped one after another. -/
theorem pops_all : ∀ (tops : List ι), (∀ i ∈ tops, Pops h step stack done I F [i]) → Pops h step stack done I F tops
  | [], _, x, s, _, hI, hs => .inr ⟨x, s, .refl, hI, hs, by simp, fun _ hi => hi⟩
  | top :: tops, hp, x, s, rest, hI, hs => by
    rcases hp top (by simp) x s (tops ++ rest) hI hs with hfail | ⟨x₁, s₁, hrun₁, hI₁, hs₁, htop, hmono₁⟩
    · exact .inl hfail
    · rcases pops_all tops (fun i hi => hp i (by simp [hi])) x₁ s₁ rest hI₁ hs₁ with
        ⟨b, hrun₂, hfail⟩ | ⟨x₂, s₂, hrun₂, hI₂, hs₂, htops, hmono₂⟩
      · exact .inl ⟨b, hrun₁.trans hrun₂, hfail⟩
      · refine .inr ⟨x₂, s₂, hrun₁.trans hrun₂, hI₂, hs₂, fun i hi => ?_, fun i hi => hmono₂ i (hmono₁ i hi)⟩
        rcases List.mem_cons.1 hi with rfl | hi
        · exact hmono₂ i (htop i (by simp))
        · exact htops i hi

variable (hr : Resolver h step P stack done I F)

include hr

/-- The top of the stack gets resolved. -/
theorem pop {top : ι} (hacc : Acc (fun j i => P i j) top) : Pops h step stack done I F [top] := by
  induction hacc with
  | intro top _ ih =>
  intro x s rest hI hs
  rcases hr.turn x s top rest hI hs with
    hfail | ⟨x₁, s₁, hturn₁, hI₁, hmono₁, ⟨hs₁, hdone⟩ | ⟨missing, hs₁, -, hmissing⟩⟩
  · exact .inl ⟨(x, s), .refl, hfail⟩
  · exact .inr ⟨x₁, s₁, .single hturn₁, hI₁, hs₁, by simpa using hdone, hmono₁⟩
  · rcases pops_all missing (fun i hi => ih i ((hmissing i).1 hi).1) x₁ s₁ (top :: rest) hI₁ hs₁ with
      ⟨b, hrun, hfail⟩ | ⟨x₂, s₂, hrun₂, hI₂, hs₂, hall, hmono₂⟩
    · exact .inl ⟨b, (Relation.ReflTransGen.single hturn₁).trans hrun, hfail⟩
    have hrun₂ := (Relation.ReflTransGen.single hturn₁).trans hrun₂
    have hparents : ∀ i, P top i → done x₂ i := by
      intro i hi
      by_cases hd : done x i
      · exact hmono₂ i (hmono₁ i hd)
      · exact hall i ((hmissing i).2 ⟨hi, hd⟩)
    -- back at the top, nothing is missing any more
    rcases hr.turn x₂ s₂ top rest hI₂ hs₂ with
      hfail | ⟨x₃, s₃, hturn₃, hI₃, hmono₃, ⟨hs₃, hdone⟩ | ⟨missing', -, hne, hmissing'⟩⟩
    · exact .inl ⟨(x₂, s₂), hrun₂, hfail⟩
    · exact .inr ⟨x₃, s₃, hrun₂.tail hturn₃, hI₃, hs₃, by simpa using hdone,
        fun i hi => hmono₃ i (hmono₂ i (hmono₁ i hi))⟩
    · obtain ⟨i, hi⟩ := List.exists_mem_of_ne_nil _ hne
      exact absurd (hparents i ((hmissing' i).1 hi).1) ((hmissing' i).1 hi).2

/-- The whole stack gets resolved and the loop answers, or it fails. -/
theorem loop_total {Q : α → σ → Prop}
    (hend : ∀ x s, I x s → stack x = [] → ∃ a s', (step x).run h s = some (.ok (.inr a), s') ∧ Q a s')
    {x : γ} {s : σ} (hI : I x s) :
    ∃ N r s', (match r with
        | .ok a => Q a s'
        | .error e => F e s') ∧ ∀ fuel ≥ N, (loop step fuel x).run h s = some (r, s') := by
  rcases pops_all (stack x) (fun i hi => hr.pop (hr.acc x s hI i hi)) x s [] hI (by simp) with
    ⟨b, hrun, e, s', hfail, hF⟩ | ⟨x', s₁, hrun, hI₁, hs₁, -, -⟩
  · obtain ⟨n, hn⟩ := run_loop_turns hrun
    refine ⟨n + 1, .error e, s', hF, fun fuel hfuel => ?_⟩
    obtain ⟨m, rfl⟩ : ∃ m, fuel = n + (m + 1) := ⟨fuel - n - 1, by omega⟩
    rw [hn, run_loop_succ, run_bind_error hfail]
  · obtain ⟨n, hn⟩ := run_loop_turns hrun
    obtain ⟨a, s', hlast, hq⟩ := hend x' s₁ hI₁ hs₁
    refine ⟨n + 1, .ok a, s', hq, fun fuel hfuel => ?_⟩
    obtain ⟨m, rfl⟩ : ∃ m, fuel = n + (m + 1) := ⟨fuel - n - 1, by omega⟩
    rw [hn, run_loop_succ, run_bind_ok hlast, run_ret]

end Resolver

end Prog

end Miscreant.Lib
