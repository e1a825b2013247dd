/-
The connectivity check (`Promote.validate`) against reachability, and what a
promotion leaves in the store.

The traversal's stack mixes frames to enter and frames to emit. Its invariant
(`Visit.Inv`) says where each object met so far is: committed, emitted, or
waiting to be emitted with its children above it on the stack. Everything
above a waiting object descends from it, so in an acyclic pack an object is
emitted after its children although it is marked on entry. `C` stands for the
committed objects: the invariant survives its growth, so it also holds of a
traversal among other pushes.
-/
import Miscreant.PlanFacts

namespace Miscreant

open Lib

variable {E : Env}

/-- `y` is a child of the staged object `x`. -/
def StagedPack.Child (E : Env) (staged : StagedPack) (x y : ObjectId) : Prop :=
  ∃ kind body children, staged.read x = some (kind, body) ∧
    Promote.objectChildren E x kind body = some children ∧ y ∈ children

/-- No staged object reaches itself, as ids are hashes. -/
def StagedPack.Acyclic (E : Env) (staged : StagedPack) : Prop :=
  ∀ x, ¬ Relation.TransGen (staged.Child E) x x

/-- Every staged object decodes. -/
def StagedPack.Decodable (E : Env) (staged : StagedPack) : Prop :=
  ∀ x kind body, staged.read x = some (kind, body) → (Promote.objectChildren E x kind body).isSome

/-- The staged object `e` decodes. -/
def StagedPack.Holds (E : Env) (staged : StagedPack) (e : ObjectId × Kind × Bytes) : Prop :=
  staged.read e.1 = some e.2 ∧ (Promote.objectChildren E e.1 e.2.1 e.2.2).isSome

/-- `x` is reached from a tip along edges out of uncommitted objects. -/
inductive Needed (E : Env) (staged : StagedPack) (C : ObjectId → Prop) (tips : List ObjectId) : ObjectId → Prop
  | tip {t : ObjectId} (h : t ∈ tips) : Needed E staged C tips t
  | child {x y : ObjectId} (h : Needed E staged C tips x) (hc : ¬ C x) (hy : staged.Child E x y) :
      Needed E staged C tips y

/-- The object of a frame. -/
def Step.oid : Step → ObjectId
  | .enter oid _ | .emit oid _ _ => oid

/-- The objects waiting to be emitted. -/
def emitIds : List Step → List ObjectId
  | [] => []
  | .enter _ _ :: rest => emitIds rest
  | .emit oid _ _ :: rest => oid :: emitIds rest

theorem mem_emitIds {x : ObjectId} {stack : List Step} : x ∈ emitIds stack ↔ ∃ k b, .emit x k b ∈ stack := by
  induction stack with
  | nil => simp [emitIds]
  | cons f rest ih =>
    cases f with
    | enter oid r => simp [emitIds, ih]
    | emit oid k b =>
      simp only [emitIds, List.mem_cons, ih, Step.emit.injEq]
      constructor
      · intro h
        rcases h with rfl | ⟨k', b', h⟩
        · exact ⟨k, b, .inl ⟨rfl, rfl, rfl⟩⟩
        · exact ⟨k', b', .inr h⟩
      · intro h
        obtain ⟨k', b', ⟨rfl, -, -⟩ | h⟩ := h
        · exact .inl rfl
        · exact .inr ⟨k', b', h⟩

@[simp] theorem emitIds_enters (children : List ObjectId) (r : Option ObjectId) (rest : List Step) :
    emitIds (children.map (.enter · r) ++ rest) = emitIds rest := by
  induction children with
  | nil => rfl
  | cons c children ih => simpa [emitIds] using ih

/-- Where a frame to emit can be in a stack on which one was just put. -/
theorem emit_mem_pushed {children : List ObjectId} {r : Option ObjectId} {x z : ObjectId} {k k' : Kind}
    {b b' : Bytes} {rest above below : List Step}
    (h : children.map (.enter · r) ++ .emit x k b :: rest = above ++ .emit z k' b' :: below) :
    (above = children.map (.enter · r) ∧ z = x) ∨
      ∃ above', above = children.map (.enter · r) ++ .emit x k b :: above' ∧ rest = above' ++ .emit z k' b' :: below := by
  rcases List.append_eq_append_iff.1 h with ⟨l, rfl, hl⟩ | ⟨l, hl, hl'⟩
  · cases l with
    | nil =>
      simp only [List.nil_append, List.cons.injEq, Step.emit.injEq] at hl
      exact .inl ⟨by simp, hl.1.1.symm⟩
    | cons f l =>
      simp only [List.cons_append, List.cons.injEq] at hl
      exact .inr ⟨l, by rw [← hl.1], hl.2⟩
  · cases l with
    | nil =>
      simp only [List.nil_append, List.cons.injEq, Step.emit.injEq] at hl'
      exact .inl ⟨by simpa using hl.symm, hl'.1.1⟩
    | cons f l =>
      simp only [List.cons_append, List.cons.injEq] at hl'
      have hmem : Step.emit z k' b' ∈ children.map (Step.enter · r) := by rw [hl, hl'.1]; simp
      simp at hmem

namespace Promote

/-- The ids of a post-order. -/
def ids (postOrder : List (ObjectId × Kind × Bytes)) : List ObjectId := postOrder.map (·.1)

@[simp] theorem ids_nil : ids [] = [] := rfl

@[simp] theorem ids_cons (e : ObjectId × Kind × Bytes) (l : List (ObjectId × Kind × Bytes)) :
    ids (e :: l) = e.1 :: ids l := rfl

@[simp] theorem ids_append (l l' : List (ObjectId × Kind × Bytes)) : ids (l ++ l') = ids l ++ ids l' :=
  List.map_append

theorem mem_ids {x : ObjectId} {l : List (ObjectId × Kind × Bytes)} : x ∈ ids l ↔ ∃ e ∈ l, e.1 = x := List.mem_map

theorem mem_ids_of_mem {e : ObjectId × Kind × Bytes} {l : List (ObjectId × Kind × Bytes)} (h : e ∈ l) :
    e.1 ∈ ids l := List.mem_map_of_mem h

/-- The state of a traversal in which the objects of `C` are committed. -/
structure Visit.Inv (E : Env) (staged : StagedPack) (tips : List ObjectId) (C : ObjectId → Prop) (s : Visit) :
    Prop where
  covered : ∀ x ∈ s.done, C x ∨ x ∈ ids s.postOrder ∨ ∃ k b, .emit x k b ∈ s.stack
  emitStaged : ∀ x k b, .emit x k b ∈ s.stack → staged.Holds E (x, k, b) ∧ x ∈ s.done
  emitChildren : ∀ above x k b below, s.stack = above ++ .emit x k b :: below →
    ∀ y, staged.Child E x y → y ∈ s.done ∨ ∃ r, .enter y r ∈ above
  above : ∀ above x k b below, s.stack = above ++ .emit x k b :: below →
    ∀ f ∈ above, Relation.TransGen (staged.Child E) x f.oid
  postStaged : ∀ e ∈ s.postOrder, staged.Holds E e ∧ e.1 ∈ s.done
  postChildren : ∀ pre e post, s.postOrder = pre ++ e :: post → ∀ y, staged.Child E e.1 y → C y ∨ y ∈ ids pre
  enterFrom : ∀ x r, .enter x r ∈ s.stack → match r with
    | none => x ∈ tips
    | some a => staged.Child E a x
  tips : ∀ t ∈ tips, t ∈ s.done ∨ ∃ r, .enter t r ∈ s.stack
  nodup : (ids s.postOrder ++ emitIds s.stack).Nodup

variable {staged : StagedPack} {tips : List ObjectId} {C C' : ObjectId → Prop} {s : Visit}

namespace Visit.Inv

theorem start : Visit.Inv E staged tips C { stack := tips.map (.enter · none), done := ∅, postOrder := [] } := by
  have hno : ∀ x k b, Step.emit x k b ∉ tips.map (Step.enter · none) := by simp
  have hno' : ∀ above x k b below, tips.map (Step.enter · none) ≠ above ++ .emit x k b :: below := by
    intro above x k b below h
    have hmem : Step.emit x k b ∈ tips.map (Step.enter · none) := by rw [h]; simp
    exact hno x k b hmem
  refine ⟨by simp, fun x k b h => absurd h (hno x k b), fun above x k b below h => ?_, fun above x k b below h => ?_,
    by simp, by simp, fun x r h => ?_, fun t ht => .inr ⟨none, by simpa using ht⟩, ?_⟩
  · exact absurd h (hno' above x k b below)
  · exact absurd h (hno' above x k b below)
  · simp only [List.mem_map, Step.enter.injEq] at h
    obtain ⟨t, ht, rfl, rfl⟩ := h
    exact ht
  · have h := emitIds_enters tips none []
    simp only [List.append_nil] at h
    simp [h, emitIds]

/-- More objects may be committed in the meantime. -/
theorem mono (h : Visit.Inv E staged tips C s) (hC : ∀ x, C x → C' x) : Visit.Inv E staged tips C' s :=
  { h with
    covered := fun x hx => (h.covered x hx).imp (hC x) id
    postChildren := fun pre e post heq y hy => (h.postChildren pre e post heq y hy).imp (hC y) id }

/-- A settled object is not entered again. -/
theorem skip {x : ObjectId} {r : Option ObjectId} {rest : List Step} (h : Visit.Inv E staged tips C s)
    (hs : s.stack = .enter x r :: rest) {done : Finset ObjectId} (hsub : s.done ⊆ done)
    (hdone : ∀ y ∈ done, y ∈ s.done ∨ C y) (hx : x ∈ done) :
    Visit.Inv E staged tips C { s with stack := rest, done } := by
  refine ⟨fun y hy => ?_, fun y k b hy => ?_, fun above y k b below heq z hz => ?_, fun above y k b below heq f hf => ?_,
    fun e he => ⟨(h.postStaged e he).1, hsub (h.postStaged e he).2⟩, h.postChildren, fun y r' hy => ?_, fun t ht => ?_,
    ?_⟩
  · rcases hdone y hy with hy | hy
    · simpa [hs] using h.covered y hy
    · exact .inl hy
  · obtain ⟨hread, hd⟩ := h.emitStaged y k b (by simp [hs, show Step.emit y k b ∈ rest from hy])
    exact ⟨hread, hsub hd⟩
  · have heq : rest = above ++ .emit y k b :: below := heq
    rcases h.emitChildren (.enter x r :: above) y k b below (by rw [hs, heq]; rfl) z hz with hz | ⟨r', hz⟩
    · exact .inl (hsub hz)
    · rcases List.mem_cons.1 hz with hz | hz
      · cases hz
        exact .inl hx
      · exact .inr ⟨r', hz⟩
  · have heq : rest = above ++ .emit y k b :: below := heq
    exact h.above (.enter x r :: above) y k b below (by rw [hs, heq]; rfl) f (by simp [hf])
  · exact h.enterFrom y r' (by simp [hs, show Step.enter y r' ∈ rest from hy])
  · rcases h.tips t ht with ht | ⟨r', ht⟩
    · exact .inl (hsub ht)
    · rw [hs] at ht
      rcases List.mem_cons.1 ht with ht | ht
      · cases ht
        exact .inl hx
      · exact .inr ⟨r', ht⟩
  · simpa [hs, emitIds] using h.nodup

/-- An object is emitted once its children are. -/
theorem emit (hacyc : staged.Acyclic E) {x : ObjectId} {k : Kind} {b : Bytes} {rest : List Step}
    (h : Visit.Inv E staged tips C s) (hs : s.stack = .emit x k b :: rest) :
    Visit.Inv E staged tips C { s with stack := rest, postOrder := s.postOrder ++ [(x, k, b)] } := by
  have hlast : ∀ y, staged.Child E x y → C y ∨ y ∈ ids s.postOrder := by
    intro y hy
    have hyd : y ∈ s.done := by
      rcases h.emitChildren [] x k b rest (by simpa using hs) y hy with hy | ⟨r, hy⟩
      · exact hy
      · simp at hy
    rcases h.covered y hyd with hc | hp | ⟨k', b', he⟩
    · exact .inl hc
    · exact .inr hp
    · -- a child waiting on the stack would be an ancestor
      exfalso
      rw [hs] at he
      rcases List.mem_cons.1 he with he | he
      · cases he
        exact hacyc x (.single hy)
      · obtain ⟨l, m, hlm⟩ := List.append_of_mem he
        have hanc := h.above (.emit x k b :: l) y k' b' m (by rw [hs, hlm]; rfl) (.emit x k b) (by simp)
        exact hacyc y (hanc.tail hy)
  refine ⟨fun y hy => ?_, fun y k' b' hy => ?_, fun above y k' b' below heq z hz => ?_,
    fun above y k' b' below heq f hf => ?_, fun e he => ?_, fun pre e post heq y hy => ?_, fun y r hy => ?_,
    fun t ht => ?_, ?_⟩
  · rcases h.covered y hy with hy | hy | ⟨k', b', hy⟩
    · exact .inl hy
    · exact .inr (.inl (by simp [show y ∈ ids s.postOrder from hy]))
    · rw [hs] at hy
      rcases List.mem_cons.1 hy with hy | hy
      · cases hy
        exact .inr (.inl (by simp))
      · exact .inr (.inr ⟨k', b', hy⟩)
  · exact h.emitStaged y k' b' (by simp [hs, show Step.emit y k' b' ∈ rest from hy])
  · have heq : rest = above ++ .emit y k' b' :: below := heq
    rcases h.emitChildren (.emit x k b :: above) y k' b' below (by rw [hs, heq]; rfl) z hz with hz | ⟨r, hz⟩
    · exact .inl hz
    · exact .inr ⟨r, by simpa using hz⟩
  · have heq : rest = above ++ .emit y k' b' :: below := heq
    exact h.above (.emit x k b :: above) y k' b' below (by rw [hs, heq]; rfl) f (by simp [hf])
  · rcases List.mem_append.1 he with he | he
    · exact h.postStaged e he
    · rw [List.mem_singleton.1 he]
      exact h.emitStaged x k b (by simp [hs])
  · rcases List.append_eq_append_iff.1 heq with ⟨l, hpre, hl⟩ | ⟨l, hpost, hl⟩
    · cases l with
      | cons e' l => simp at hl
      | nil =>
        simp only [List.nil_append, List.cons.injEq] at hl
        obtain ⟨rfl, -⟩ := hl
        simp only [List.append_nil] at hpre
        exact hpre ▸ hlast y hy
    · cases l with
      | nil =>
        simp only [List.nil_append, List.cons.injEq] at hl
        obtain ⟨rfl, -⟩ := hl
        simp only [List.append_nil] at hpost
        exact hpost ▸ hlast y hy
      | cons e' l =>
        simp only [List.cons_append, List.cons.injEq] at hl
        exact h.postChildren pre e l (by rw [hpost, hl.1]) y hy
  · exact h.enterFrom y r (by simp [hs, show Step.enter y r ∈ rest from hy])
  · rcases h.tips t ht with ht | ⟨r, ht⟩
    · exact .inl ht
    · exact .inr ⟨r, by simpa [hs] using ht⟩
  · have hn := h.nodup
    rw [hs] at hn
    simpa [emitIds] using hn

/-- A staged object met for the first time waits below its children. -/
theorem expand {x : ObjectId} {r : Option ObjectId} {rest : List Step} {k : Kind} {b : Bytes}
    {children : List ObjectId} (h : Visit.Inv E staged tips C s) (hs : s.stack = .enter x r :: rest)
    (hx : x ∉ s.done) (hread : staged.read x = some (k, b)) (hch : objectChildren E x k b = some children) :
    Visit.Inv E staged tips C
      { s with
        stack := children.map (.enter · (some x)) ++ .emit x k b :: rest
        done := insert x s.done } := by
  have hchild : ∀ y, staged.Child E x y ↔ y ∈ children := by
    intro y
    constructor
    · intro hy
      obtain ⟨k', b', children', hread', hch', hy⟩ := hy
      cases hread.symm.trans hread'
      cases hch.symm.trans hch'
      exact hy
    · intro hy
      exact ⟨k, b, children, hread, hch, hy⟩
  have hwaits : ∀ y, y ∈ ids s.postOrder ++ emitIds rest → y ∈ s.done := by
    intro y hy
    rcases List.mem_append.1 hy with hy | hy
    · obtain ⟨e, he, rfl⟩ := mem_ids.1 hy
      exact (h.postStaged e he).2
    · obtain ⟨k', b', hy⟩ := mem_emitIds.1 hy
      exact (h.emitStaged y k' b' (by simp [hs, hy])).2
  refine ⟨fun y hy => ?_, fun y k' b' hy => ?_, fun above y k' b' below heq z hz => ?_,
    fun above y k' b' below heq f hf => ?_, fun e he => ⟨(h.postStaged e he).1, by simp [(h.postStaged e he).2]⟩,
    h.postChildren, fun y r' hy => ?_, fun t ht => ?_, ?_⟩
  · rcases Finset.mem_insert.1 hy with rfl | hy
    · exact .inr (.inr ⟨k, b, by simp⟩)
    · rcases h.covered y hy with hc | hp | ⟨k', b', he⟩
      · exact .inl hc
      · exact .inr (.inl hp)
      · rw [hs] at he
        exact .inr (.inr ⟨k', b', by simpa using Or.inr he⟩)
  · simp only [List.mem_append, List.mem_map, reduceCtorEq, and_false, exists_false, false_or, List.mem_cons] at hy
    rcases hy with hy | hy
    · cases hy
      exact ⟨⟨hread, by simp [hch]⟩, by simp⟩
    · obtain ⟨hread', hd⟩ := h.emitStaged y k' b' (by simp [hs, hy])
      exact ⟨hread', by simp [hd]⟩
  · rcases emit_mem_pushed heq with ⟨rfl, rfl⟩ | ⟨above', rfl, hrest⟩
    · exact .inr ⟨some y, by simpa using (hchild z).1 hz⟩
    · rcases h.emitChildren (.enter x r :: above') y k' b' below (by rw [hs, hrest]; rfl) z hz with hz | ⟨r', hz⟩
      · exact .inl (by simp [hz])
      · rcases List.mem_cons.1 hz with hz | hz
        · cases hz
          exact .inl (by simp)
        · exact .inr ⟨r', by simp [hz]⟩
  · rcases emit_mem_pushed heq with ⟨rfl, rfl⟩ | ⟨above', rfl, hrest⟩
    · obtain ⟨c, hc, rfl⟩ := List.mem_map.1 hf
      exact .single ((hchild c).2 hc)
    · have hbelow := h.above (.enter x r :: above') y k' b' below (by rw [hs, hrest]; rfl)
      have hyx : Relation.TransGen (staged.Child E) y x := hbelow (.enter x r) (by simp)
      rcases List.mem_append.1 hf with hf | hf
      · obtain ⟨c, hc, rfl⟩ := List.mem_map.1 hf
        exact hyx.tail ((hchild c).2 hc)
      · rcases List.mem_cons.1 hf with rfl | hf
        · exact hyx
        · exact hbelow f (by simp [hf])
  · rcases List.mem_append.1 hy with hy | hy
    · simp only [List.mem_map, Step.enter.injEq] at hy
      obtain ⟨c, hc, rfl, rfl⟩ := hy
      exact (hchild c).2 hc
    · have hy : Step.enter y r' ∈ rest := by simpa using hy
      exact h.enterFrom y r' (by simp [hs, hy])
  · rcases h.tips t ht with ht | ⟨r', ht⟩
    · exact .inl (by simp [ht])
    · rw [hs] at ht
      rcases List.mem_cons.1 ht with ht | ht
      · cases ht
        exact .inl (by simp)
      · exact .inr ⟨r', by simp [ht]⟩
  · have hn := h.nodup
    rw [hs] at hn
    simp only [emitIds_enters, emitIds] at hn ⊢
    exact List.nodup_middle.2 (List.nodup_cons.2 ⟨fun hmem => hx (hwaits x hmem), hn⟩)

end Visit.Inv

/-- What a finished traversal has: staged objects, children first, with every
tip among them or committed. -/
structure PostOrder (E : Env) (staged : StagedPack) (tips : List ObjectId) (C : ObjectId → Prop)
    (l : List (ObjectId × Kind × Bytes)) : Prop where
  holds : ∀ e ∈ l, staged.Holds E e
  children : ∀ pre e post, l = pre ++ e :: post → ∀ y, staged.Child E e.1 y → C y ∨ y ∈ ids pre
  tips : ∀ t ∈ tips, C t ∨ t ∈ ids l
  nodup : (ids l).Nodup

theorem Visit.Inv.finish (h : Visit.Inv E staged tips C s) (hs : s.stack = []) :
    PostOrder E staged tips C s.postOrder := by
  refine ⟨fun e he => (h.postStaged e he).1, h.postChildren, fun t ht => ?_, ?_⟩
  · rcases h.tips t ht with ht | ⟨r, ht⟩
    · rcases h.covered t ht with hc | hp | ⟨k, b, he⟩
      · exact .inl hc
      · exact .inr hp
      · simp [hs] at he
    · simp [hs] at ht
  · simpa [hs, emitIds] using h.nodup

/-- Every object the tips need is committed or listed. -/
theorem PostOrder.needed {l : List (ObjectId × Kind × Bytes)} (h : PostOrder E staged tips C l) {x : ObjectId}
    (hx : Needed E staged C tips x) : C x ∨ x ∈ ids l := by
  induction hx with
  | tip ht => exact h.tips _ ht
  | @child x y _ hc hy ih =>
    obtain ⟨e, he, rfl⟩ := mem_ids.1 (ih.resolve_left hc)
    obtain ⟨pre, post, hl⟩ := List.append_of_mem he
    refine (h.children pre e post hl y hy).imp_right fun hpre => ?_
    rw [hl, ids_append]
    exact List.mem_append_left _ hpre

/-- With the committed objects fixed, a traversal meets only what is needed,
and keeps only what is not committed. -/
structure Visit.Exact (E : Env) (staged : StagedPack) (tips : List ObjectId) (C : ObjectId → Prop) (s : Visit) :
    Prop where
  fresh : ∀ x ∈ ids s.postOrder ++ emitIds s.stack, ¬ C x ∧ Needed E staged C tips x
  reached : ∀ x r, .enter x r ∈ s.stack → Needed E staged C tips x

/-! ## The traversal alone -/

/-- The committed objects of a store. -/
def Committed {V : Type} (db : Db V) (x : ObjectId) : Prop := (db.objects x).isSome

/-- Why a traversal fails: an object it needs is nowhere, or does not
decode. -/
def Rejects (E : Env) (staged : StagedPack) (C : ObjectId → Prop) (tips : List ObjectId) : PromoteError → Prop
  | .connectivity missing referencedBy =>
    Needed E staged C tips missing ∧ ¬ C missing ∧ staged.read missing = none ∧
      match referencedBy with
      | none => missing ∈ tips
      | some a => staged.Child E a missing
  | .decode oid => ∃ kind body, Needed E staged C tips oid ∧ ¬ C oid ∧ staged.read oid = some (kind, body) ∧
      objectChildren E oid kind body = none
  | _ => False

/-- The outcome of a traversal. -/
def Validated (E : Env) (staged : StagedPack) (C : ObjectId → Prop) (tips : List ObjectId) :
    Except PromoteError (List (ObjectId × Kind × Bytes)) → Prop
  | .ok l => PostOrder E staged tips C l ∧ ∀ x ∈ ids l, ¬ C x ∧ Needed E staged C tips x
  | .error e => Rejects E staged C tips e

/-- How far a traversal is from its end. -/
noncomputable def Visit.measure (s : Visit) : ℕ ×ₗ ℕ := toLex (Fintype.card ObjectId - s.done.card, s.stack.length)

theorem card_insert_lt {x : ObjectId} {done : Finset ObjectId} (hx : x ∉ done) :
    Fintype.card ObjectId - (insert x done).card < Fintype.card ObjectId - done.card := by
  have hlt : done.card < (insert x done).card := by simp [Finset.card_insert_of_notMem hx]
  have hle : (insert x done).card ≤ Fintype.card ObjectId := Finset.card_le_univ _
  omega

/-- One turn of the traversal. -/
theorem run_validateStep (hacyc : staged.Acyclic E) {db : E.Db}
    (h : Visit.Inv E staged tips (Committed db) s) (hx : Visit.Exact E staged tips (Committed db) s) :
    ∃ r, (validateStep E staged s).run Db.handler db = some (r, db) ∧
      match r with
      | .ok (.inl s') => (Visit.Inv E staged tips (Committed db) s' ∧ Visit.Exact E staged tips (Committed db) s') ∧
        s'.measure < s.measure
      | .ok (.inr l) => Validated E staged (Committed db) tips (.ok l)
      | .error e => Validated E staged (Committed db) tips (.error e) := by
  unfold validateStep
  cases hs : s.stack with
  | nil =>
    refine ⟨.ok (.inr s.postOrder), rfl, h.finish hs, fun x hmem => hx.fresh x ?_⟩
    exact List.mem_append_left _ hmem
  | cons f rest =>
    cases f with
    | emit oid kind body =>
      refine ⟨_, rfl, ⟨h.emit hacyc hs, fun x hmem => hx.fresh x ?_, fun x r hmem => hx.reached x r ?_⟩, ?_⟩
      · simpa [hs, emitIds, or_assoc] using hmem
      · exact hs ▸ List.mem_cons_of_mem _ hmem
      · exact Prod.Lex.toLex_lt_toLex.2 (.inr ⟨rfl, by simp [hs]⟩)
    | enter oid referencedBy =>
      have hneeded := hx.reached oid referencedBy (by simp [hs])
      by_cases hdone : oid ∈ s.done
      · simp only [hdone, if_true]
        refine ⟨_, rfl, ⟨h.skip hs subset_rfl (fun y hy => .inl hy) hdone, fun x hmem => hx.fresh x ?_,
          fun x r hmem => hx.reached x r ?_⟩, ?_⟩
        · simpa [hs, emitIds] using hmem
        · exact hs ▸ List.mem_cons_of_mem _ hmem
        · exact Prod.Lex.toLex_lt_toLex.2 (.inr ⟨rfl, by simp [hs]⟩)
      · simp only [hdone, if_false, ObjectDb.exists, Prog.run_bind, run_objectExists]
        have hless : ∀ stack, (Visit.mk stack (insert oid s.done) s.postOrder).measure < s.measure :=
          fun stack => Prod.Lex.toLex_lt_toLex.2 (.inl (card_insert_lt hdone))
        by_cases hknown : Committed db oid
        · simp only [show (db.objects oid).isSome = true from hknown, if_true]
          refine ⟨_, rfl, ⟨h.skip hs (Finset.subset_insert _ _) (fun y hy => ?_) (Finset.mem_insert_self _ _),
            fun x hmem => hx.fresh x ?_, fun x r hmem => hx.reached x r ?_⟩, hless _⟩
          · rcases Finset.mem_insert.1 hy with rfl | hy
            · exact .inr hknown
            · exact .inl hy
          · simpa [hs, emitIds] using hmem
          · exact hs ▸ List.mem_cons_of_mem _ hmem
        · simp only [show (db.objects oid).isSome = false from by simpa [Committed] using hknown, Bool.false_eq_true,
            if_false]
          cases hread : staged.read oid with
          | none =>
            exact ⟨_, rfl, hneeded, hknown, hread, h.enterFrom oid referencedBy (by simp [hs])⟩
          | some kb =>
            obtain ⟨kind, body⟩ := kb
            simp only
            cases hch : objectChildren E oid kind body with
            | none => exact ⟨_, rfl, kind, body, hneeded, hknown, hread, hch⟩
            | some children =>
              refine ⟨_, rfl, ⟨h.expand hs hdone hread hch, fun x hmem => ?_, fun x r hmem => ?_⟩, hless _⟩
              · simp only [emitIds_enters, emitIds, List.mem_append, List.mem_cons] at hmem
                rcases hmem with hmem | rfl | hmem
                · exact hx.fresh x (by simp [show x ∈ ids s.postOrder from hmem])
                · exact ⟨hknown, hneeded⟩
                · exact hx.fresh x (by simp [hs, emitIds, hmem])
              · rcases List.mem_append.1 hmem with hmem | hmem
                · simp only [List.mem_map, Step.enter.injEq] at hmem
                  obtain ⟨c, hc, rfl, rfl⟩ := hmem
                  exact hneeded.child hknown ⟨kind, body, children, hread, hch, hc⟩
                · have hmem : Step.enter x r ∈ rest := by simpa using hmem
                  exact hx.reached x r (by simp [hs, hmem])

/-- The traversal ends, and leaves the store as it was. -/
theorem run_validate (hacyc : staged.Acyclic E) (tips : List ObjectId) (db : E.Db) :
    ∃ N r, Validated E staged (Committed db) tips r ∧
      ∀ fuel ≥ N, (validate E fuel staged tips).run Db.handler db = some (r, db) := by
  have hexact : Visit.Exact E staged tips (Committed db)
      { stack := tips.map (.enter · none), done := ∅, postOrder := [] } := by
    refine ⟨fun x hmem => ?_, fun x r hmem => ?_⟩
    · have := emitIds_enters tips none []
      simp only [List.append_nil] at this
      simp [this, emitIds] at hmem
    · simp only [List.mem_map, Step.enter.injEq] at hmem
      obtain ⟨t, ht, rfl, -⟩ := hmem
      exact .tip ht
  have hloop := Prog.loop_total (h := Db.handler) (validateStep E staged)
    (I := fun s db' => db' = db ∧ Visit.Inv E staged tips (Committed db) s ∧
      Visit.Exact E staged tips (Committed db) s)
    (Q := fun r db' => db' = db ∧ Validated E staged (Committed db) tips r)
    (wellFounded_lt : WellFounded fun a b : ℕ ×ₗ ℕ => a < b) Visit.measure (by
      intro s db' hs
      obtain ⟨rfl, hi, hx⟩ := hs
      obtain ⟨r, hr, hq⟩ := run_validateStep hacyc hi hx
      refine ⟨r, db', hr, ?_⟩
      match r, hq with
      | .ok (.inl s'), hq => exact ⟨⟨rfl, hq.1⟩, hq.2⟩
      | .ok (.inr l), hq => exact ⟨rfl, hq⟩
      | .error e, hq => exact ⟨rfl, hq⟩)
  obtain ⟨N, r, db', ⟨rfl, hq⟩, hN⟩ := hloop _ db ⟨rfl, .start, hexact⟩
  exact ⟨N, r, hq, hN⟩

/-! ## Writing the objects -/

/-- `db'` is `db` with the objects of `l` put into it. -/
structure Stored (E : Env) (l : List (ObjectId × Kind × Bytes)) (db db' : E.Db) : Prop where
  committed : ∀ x, Committed db' x ↔ Committed db x ∨ x ∈ ids l
  old : ∀ x, Committed db x → db'.objects x = db.objects x ∧ E.objectAt db' x = E.objectAt db x
  new : ∀ e ∈ l, ¬ Committed db e.1 → E.objectAt db' e.1 = some e.2
  intact : Intact E db → Intact E db'
  graph : db'.graph = db.graph
  refs : db'.refs = db.refs

theorem Stored.refl (db : E.Db) : Stored E [] db db :=
  ⟨fun x => by simp, fun x _ => ⟨rfl, rfl⟩, fun e he => by simp at he, id, rfl, rfl⟩

theorem Stored.trans {l l' : List (ObjectId × Kind × Bytes)} {db db' db'' : E.Db} (h : Stored E l db db')
    (h' : Stored E l' db' db'') (hn : (ids (l ++ l')).Nodup) : Stored E (l ++ l') db db'' := by
  refine ⟨fun x => ?_, fun x hx => ?_, fun e he hnew => ?_, fun hi => h'.intact (h.intact hi),
    h'.graph.trans h.graph, h'.refs.trans h.refs⟩
  · rw [h'.committed, h.committed, ids_append, List.mem_append, or_assoc]
  · have hx' := h.old x hx
    have hx'' := h'.old x ((h.committed x).2 (.inl hx))
    exact ⟨hx''.1.trans hx'.1, hx''.2.trans hx'.2⟩
  · rw [ids_append, List.nodup_append] at hn
    rcases List.mem_append.1 he with he | he
    · have hc : Committed db' e.1 := (h.committed e.1).2 (.inr (mem_ids_of_mem he))
      rw [(h'.old e.1 hc).2]
      exact h.new e he hnew
    · refine h'.new e he fun hc => ?_
      rcases (h.committed e.1).1 hc with hc | hc
      · exact hnew hc
      · exact hn.2.2 e.1 hc e.1 (mem_ids_of_mem he) rfl

/-- The state a put of a new object leaves. -/
def putState (E : Env) (db : E.Db) (oid : ObjectId) (kind : Kind) (body : Bytes) : E.Db :=
  if kind = .blob ∧ E.inlineThreshold < body.length then
    Db.apply { db with blobs := Function.update db.blobs oid (some (ObjectDb.compress E body)) }
      (.object oid (.blobPointer body.length))
  else Db.apply db (.object oid (E.inlineRecord kind body))

theorem run_put {ε : Type} (db : E.Db) (oid : ObjectId) (kind : Kind) (body : Bytes) (d : Durability) :
    (ObjectDb.put E oid kind body d : E.Prog ε Unit).run Db.handler db =
      some (.ok (), if (db.objects oid).isSome then db else putState E db oid kind body) := by
  rw [ObjectDb.put, Prog.run_bind, run_objectExists]
  simp only
  by_cases hk : (db.objects oid).isSome = true
  · simp [hk]
  · simp only [hk, Bool.false_eq_true, if_false, putState]
    cases kind with
    | blob =>
      by_cases hlen : E.inlineThreshold < body.length <;>
        simp [ObjectDb.recordFor, hlen, Prog.run_bind, Env.inlineRecord]
    | tree | commit | tag => rfl

theorem objectAt_apply_object {db : E.Db} {oid x : ObjectId} {record : ObjectRecord} (hx : x ≠ oid) :
    E.objectAt (db.apply (.object oid record)) x = E.objectAt db x := by
  have hrec : (db.apply (.object oid record)).objects x = db.objects x := Function.update_of_ne hx _ _
  rw [Env.objectAt, Env.objectAt, hrec]
  rfl

theorem objectAt_updateBlob {db : E.Db} {oid x : ObjectId} {bytes : Option Bytes} (hx : x ≠ oid) :
    E.objectAt { db with blobs := Function.update db.blobs oid bytes } x = E.objectAt db x := by
  have hblob : Function.update db.blobs oid bytes x = db.blobs x := Function.update_of_ne hx _ _
  have hstream : streamAt { db with blobs := Function.update db.blobs oid bytes } x = streamAt db x := by
    funext record
    cases record with
    | blobPointer size => simp only [streamAt, hblob]
    | blobInline len z | tree len z | commit len z | tag len z => rfl
  rw [Env.objectAt, Env.objectAt, hstream]

theorem objects_putState {db : E.Db} {oid x : ObjectId} {kind : Kind} {body : Bytes} (hx : x ≠ oid) :
    (putState E db oid kind body).objects x = db.objects x := by
  unfold putState
  split
  · exact Function.update_of_ne hx _ _
  · exact Function.update_of_ne hx _ _

theorem objectAt_putState {db : E.Db} {oid x : ObjectId} {kind : Kind} {body : Bytes} (hx : x ≠ oid) :
    E.objectAt (putState E db oid kind body) x = E.objectAt db x := by
  unfold putState
  split
  · rw [objectAt_apply_object hx, objectAt_updateBlob hx]
  · rw [objectAt_apply_object hx]

/-- The object put is there, at its size. -/
theorem objectAt_putState_self (db : E.Db) (oid : ObjectId) (kind : Kind) (body : Bytes) :
    ∃ record, (putState E db oid kind body).objects oid = some record ∧ record.size = body.length ∧
      E.objectAt (putState E db oid kind body) oid = some (kind, body) := by
  unfold putState
  split
  · rename_i h
    obtain ⟨rfl, -⟩ := h
    refine ⟨.blobPointer body.length, by simp [Db.apply], rfl, ?_⟩
    simp [Env.objectAt, Db.apply, streamAt, ObjectDb.compress, E.zlib.inflate_deflate, ObjectRecord.kind]
  · refine ⟨E.inlineRecord kind body, by simp [Db.apply], by cases kind <;> rfl, ?_⟩
    cases kind <;>
      simp [Env.objectAt, Db.apply, streamAt, Env.inlineRecord, ObjectDb.compress, E.zlib.inflate_deflate,
        ObjectRecord.kind]

theorem Stored.put (db : E.Db) (oid : ObjectId) (kind : Kind) (body : Bytes) :
    Stored E [(oid, kind, body)] db (if (db.objects oid).isSome then db else putState E db oid kind body) := by
  by_cases hk : (db.objects oid).isSome = true
  · simp only [hk, if_true]
    refine ⟨fun x => ?_, fun x _ => ⟨rfl, rfl⟩, fun e he hnew => ?_, id, rfl, rfl⟩
    · constructor
      · exact .inl
      · intro hx
        rcases hx with hx | hx
        · exact hx
        · rw [List.mem_singleton.1 hx]; exact hk
    · rw [List.mem_singleton.1 he] at hnew
      exact absurd hk hnew
  · simp only [hk, Bool.false_eq_true, if_false]
    obtain ⟨record, hrec, hsize, hself⟩ := objectAt_putState_self db oid kind body
    have hne : ∀ x, Committed db x → x ≠ oid := by
      rintro x hx rfl
      exact hk hx
    refine ⟨fun x => ?_, fun x hx => ⟨objects_putState (hne x hx), objectAt_putState (hne x hx)⟩, fun e he _ => ?_,
      fun hi => ⟨fun x hx => ?_, fun x r k b hr ho => ?_⟩, ?_, ?_⟩
    · by_cases hx : x = oid
      · subst hx; simp [Committed, hrec]
      · simp [Committed, objects_putState hx, hx]
    · rw [List.mem_singleton.1 he]; exact hself
    · by_cases hx' : x = oid
      · subst hx'; simp [hself]
      · rw [objectAt_putState hx']
        rw [objects_putState hx'] at hx
        exact hi.object x hx
    · by_cases hx' : x = oid
      · subst hx'
        cases hrec.symm.trans hr
        cases hself.symm.trans ho
        exact hsize
      · rw [objectAt_putState hx'] at ho
        rw [objects_putState hx'] at hr
        exact hi.size x r k b hr ho
    · unfold putState; split <;> rfl
    · unfold putState; split <;> rfl

/-- What phase 2 leaves. -/
theorem run_putAll : ∀ (l : List (ObjectId × Kind × Bytes)) (db : E.Db), (ids l).Nodup →
    ∃ db', (putAll E l).run Db.handler db = some (.ok (), db') ∧ Stored E l db db'
  | [], db, _ => ⟨db, rfl, .refl db⟩
  | (oid, kind, body) :: rest, db, hn => by
    have hput := Stored.put db oid kind body
    obtain ⟨db', hrun, hrest⟩ := run_putAll rest _ (List.nodup_cons.1 hn).2
    exact ⟨db', (Prog.run_bind_ok (run_put db oid kind body .relaxed)).trans hrun, hput.trans hrest hn⟩

theorem writeOrder_perm (l : List (ObjectId × Kind × Bytes)) : (writeOrder l).Perm l := by
  induction l with
  | nil => rfl
  | cons e l ih =>
    obtain ⟨oid, kind, body⟩ := e
    refine List.Perm.trans ?_ (ih.cons _)
    cases kind with
    | blob => simp [writeOrder, ofKind]
    | tree => simp [writeOrder, ofKind]
    | commit => simpa [writeOrder, ofKind] using (List.perm_middle.append_left _).trans List.perm_middle
    | tag =>
      simpa [writeOrder, ofKind] using
        (((List.perm_middle.append_left _).trans List.perm_middle).append_left _).trans List.perm_middle

theorem ids_writeOrder_perm (l : List (ObjectId × Kind × Bytes)) : (ids (writeOrder l)).Perm (ids l) :=
  (writeOrder_perm l).map _

theorem Stored.of_perm {l l' : List (ObjectId × Kind × Bytes)} {db db' : E.Db} (hp : l.Perm l')
    (h : Stored E l db db') : Stored E l' db db' :=
  { h with
    committed := fun x => by rw [h.committed, ids, ids, (hp.map _).mem_iff]
    new := fun e he => h.new e (hp.mem_iff.2 he) }

end Promote

/-! ## The commit-graph segment -/

/-- An operation that leaves the objects and the refs as they are. -/
def StoreOp.OnGraph {V : Type} : StoreOp V → Prop
  | .putObject _ _ _ | .blobPut _ _ | .commitTxn _ => False
  | _ => True

/-- The objects of `db'` are those of `db`. -/
structure SameData {V : Type} (db db' : Db V) : Prop where
  objects : db'.objects = db.objects
  blobs : db'.blobs = db.blobs

/-- The objects and refs of `db'` are those of `db`. -/
structure SameObjects {V : Type} (db db' : Db V) : Prop extends SameData db db' where
  refs : db'.refs = db.refs

theorem SameObjects.refl {V : Type} (db : Db V) : SameObjects db db := ⟨⟨rfl, rfl⟩, rfl⟩

theorem SameObjects.trans {V : Type} {db db' db'' : Db V} (h : SameObjects db db') (h' : SameObjects db' db'') :
    SameObjects db db'' :=
  ⟨⟨h'.objects.trans h.objects, h'.blobs.trans h.blobs⟩, h'.refs.trans h.refs⟩

theorem SameData.objectAt {db db' : E.Db} (h : SameData db db') (x : ObjectId) :
    E.objectAt db' x = E.objectAt db x := by
  have hstream : streamAt db' x = streamAt db x := by
    funext record
    cases record with
    | blobPointer size => simp only [streamAt, h.blobs]
    | blobInline len z | tree len z | commit len z | tag len z => rfl
  rw [Env.objectAt, Env.objectAt, hstream, h.objects]

theorem SameData.commitAt {db db' : E.Db} (h : SameData db db') (x : ObjectId) :
    E.commitAt db' x = E.commitAt db x := by
  rw [Env.commitAt, Env.commitAt, h.objectAt]

theorem SameData.committed {V : Type} {db db' : Db V} (h : SameData db db') (x : ObjectId) :
    Promote.Committed db' x ↔ Promote.Committed db x := by
  rw [Promote.Committed, Promote.Committed, h.objects]

theorem SameData.intact {db db' : E.Db} (h : SameData db db') (hdb : Intact E db) : Intact E db' := by
  refine ⟨fun x hx => ?_, fun x r k b hr ho => ?_⟩
  · rw [h.objectAt]
    exact hdb.object x (by rwa [← h.objects])
  · rw [h.objectAt] at ho
    rw [h.objects] at hr
    exact hdb.size x r k b hr ho

theorem sameObjects_handler {V : Type} {o : StoreOp V} (ho : o.OnGraph) (db : Db V) :
    SameObjects db (Db.handler o db).2 := by
  cases o with
  | putObject oid record d | blobPut oid bytes | commitTxn txn => exact ho.elim
  | putCommitGraph oid value d => exact ⟨⟨rfl, rfl⟩, rfl⟩
  | getObject oid | blobGet oid | getCommitGraph oid | getRef name | listRefs | flush | beginTxn =>
    exact ⟨⟨rfl, rfl⟩, rfl⟩

/-- An operation that reads objects. -/
def StoreOp.OnObjects {V : Type} : StoreOp V → Prop
  | .getObject _ | .blobGet _ => True
  | _ => False

/-- A program that reads objects and does nothing else. -/
abbrev ReadsObjects {ε α : Type} (p : E.Prog ε α) : Prop := p.AllOps StoreOp.OnObjects

/-- A program that works on the commit-graph segment alone. -/
abbrev GraphProg {ε α : Type} (p : E.Prog ε α) : Prop := p.AllOps StoreOp.OnGraph

/-- An operation that reads, or writes a commit-graph record, outside of any
transaction. -/
def StoreOp.Indexes {V : Type} : StoreOp V → Prop
  | .putObject _ _ _ | .blobPut _ _ | .beginTxn | .commitTxn _ => False
  | _ => True

/-- A program that reads and writes commit-graph records. -/
abbrev IndexProg {ε α : Type} (p : E.Prog ε α) : Prop := p.AllOps StoreOp.Indexes

theorem GraphProg.sameObjects {ε α : Type} {p : E.Prog ε α} (hp : GraphProg p) {db db' : E.Db} {r : Except ε α}
    (hr : p.run Db.handler db = some (r, db')) : SameObjects db db' :=
  Prog.AllOps.run_inv (I := SameObjects db)
    (fun _ s ho hs => hs.trans (sameObjects_handler ho s)) hp (SameObjects.refl db) hr

section GraphProgs

theorem readsObjects_get (oid : ObjectId) : ReadsObjects (ObjectDb.get E oid) := by
  refine Prog.AllOps.bind ⟨trivial, fun _ => trivial⟩ fun record => ?_
  cases record with
  | none => trivial
  | some record =>
    refine Prog.AllOps.bind ?_ fun lz => ?_
    · cases record with
      | blobPointer size =>
        refine Prog.AllOps.bind ⟨trivial, fun _ => trivial⟩ fun bytes => ?_
        cases bytes <;> trivial
      | blobInline len z | tree len z | commit len z | tag len z => trivial
    · simp only
      split <;> trivial

theorem readsObjects_parseCommit (oid : ObjectId) : ReadsObjects (Walker.parseCommit E oid) := by
  refine Prog.AllOps.bind (readsObjects_get oid).mapErr fun object => ?_
  cases object with
  | none => trivial
  | some object =>
    obtain ⟨kind, body⟩ := object
    simp only
    split
    · trivial
    · split <;> trivial

theorem readsObjects_parsedCommit (parsed : SortedMap ObjectId (ObjectId × List ObjectId)) (oid : ObjectId) :
    ReadsObjects (Walker.parsedCommit E parsed oid) := by
  unfold Walker.parsedCommit
  split
  · trivial
  · exact Prog.AllOps.bind (readsObjects_parseCommit oid) fun _ => trivial

theorem ReadsObjects.indexProg {ε α : Type} {p : E.Prog ε α} (hp : ReadsObjects p) : IndexProg p :=
  hp.mono fun o ho => by cases o <;> first | exact ho.elim | trivial

theorem indexProg_getCommitGraph (oid : ObjectId) : IndexProg (Store.getCommitGraph E.codec oid) := by
  refine Prog.AllOps.bind ⟨trivial, fun _ => trivial⟩ fun value => ?_
  cases value with
  | none => trivial
  | some value => simp only; split <;> trivial

theorem indexProg_putCommitGraph {ε : Type} (oid : ObjectId) (record : CommitGraphRecord) (d : Durability) :
    IndexProg (Store.putCommitGraph E.codec oid record d : E.Prog ε Unit) := ⟨trivial, fun _ => trivial⟩

theorem indexProg_getCommitInfo (fuel : Nat) (oid : ObjectId) : IndexProg (Walker.getCommitInfo E fuel oid) := by
  refine Prog.AllOps.bind (indexProg_getCommitGraph oid).mapErr fun record => ?_
  cases record with
  | some record => trivial
  | none =>
    refine Prog.AllOps.bind (Prog.AllOps.loop (fun s => ?_) fuel _) fun result => ?_
    · unfold Walker.backfillStep
      split
      · trivial
      · split
        · trivial
        · refine Prog.AllOps.bind (indexProg_getCommitGraph _).mapErr fun record => ?_
          cases record with
          | some record => trivial
          | none =>
            refine Prog.AllOps.bind ((readsObjects_parsedCommit _ _).indexProg) fun entry => ?_
            simp only
            split
            · exact Prog.AllOps.bind (indexProg_putCommitGraph _ _ _) fun _ => trivial
            · trivial
    · cases result <;> trivial

theorem indexProg_maxParentGeneration (fuel : Nat) :
    ∀ (parents : List ObjectId) (greatest : UInt32), IndexProg (Promote.maxParentGeneration E fuel parents greatest)
  | [], _ => trivial
  | parent :: parents, _ =>
    Prog.AllOps.bind (indexProg_getCommitInfo fuel parent) fun _ => indexProg_maxParentGeneration fuel parents _

theorem indexProg_extendGraphAll (fuel : Nat) :
    ∀ l : List (ObjectId × Kind × Bytes), IndexProg (Promote.extendGraphAll E fuel l)
  | [] => trivial
  | (oid, _, body) :: rest => by
    refine Prog.AllOps.bind ?_ fun _ => indexProg_extendGraphAll fuel rest
    unfold Promote.extendGraph
    split
    · trivial
    · exact Prog.AllOps.bind (indexProg_maxParentGeneration fuel _ _).mapErr fun _ =>
        indexProg_putCommitGraph _ _ _

theorem IndexProg.graphProg {ε α : Type} {p : E.Prog ε α} (hp : IndexProg p) : GraphProg p :=
  hp.mono fun o ho => by cases o <;> first | exact ho.elim | trivial

theorem ReadsObjects.graphProg {ε α : Type} {p : E.Prog ε α} (hp : ReadsObjects p) : GraphProg p :=
  hp.indexProg.graphProg

theorem graphProg_putCommitGraph {ε : Type} (oid : ObjectId) (record : CommitGraphRecord) (d : Durability) :
    GraphProg (Store.putCommitGraph E.codec oid record d : E.Prog ε Unit) := (indexProg_putCommitGraph oid record d).graphProg

theorem graphProg_getCommitInfo (fuel : Nat) (oid : ObjectId) : GraphProg (Walker.getCommitInfo E fuel oid) :=
  (indexProg_getCommitInfo fuel oid).graphProg

theorem graphProg_extendGraphAll (fuel : Nat) (l : List (ObjectId × Kind × Bytes)) :
    GraphProg (Promote.extendGraphAll E fuel l) := (indexProg_extendGraphAll fuel l).graphProg

theorem graphProg_resolveCommitTip (target : RefTarget) : GraphProg (Walker.resolveCommitTip E target) := by
  have hsymrefs : ∀ (n : Nat) (target : RefTarget), GraphProg (Walker.followSymrefs E n target : E.Prog WalkError _) := by
    intro n
    induction n with
    | zero => exact fun target => trivial
    | succ n ih =>
      intro target
      cases target with
      | direct id => trivial
      | reference name =>
        refine Prog.AllOps.bind ⟨trivial, fun _ => trivial⟩ fun next => ?_
        cases next with
        | none => trivial
        | some next => exact ih next
  have hpeel : ∀ (n : Nat) (cursor : ObjectId), GraphProg (Walker.peelTip E n cursor) := by
    intro n
    induction n with
    | zero => exact fun cursor => trivial
    | succ n ih =>
      intro cursor
      refine Prog.AllOps.bind (readsObjects_get cursor).graphProg.mapErr fun object => ?_
      match object with
      | none => trivial
      | some (.commit, body) => trivial
      | some (.tag, body) =>
        simp only
        split
        · trivial
        · exact ih _
      | some (.blob, body) => trivial
      | some (.tree, body) => trivial
  refine Prog.AllOps.bind (hsymrefs _ target) fun cursor => ?_
  cases cursor with
  | none => trivial
  | some cursor => exact hpeel _ cursor

theorem graphProg_rebuildCommitGraph (fuel : Nat) : GraphProg (Walker.rebuildCommitGraph E fuel) := by
  have hroots : ∀ (roots : List ObjectId) (s : Walker.Rebuild), GraphProg (Walker.rebuildRoots E fuel roots s) := by
    intro roots
    induction roots with
    | nil => exact fun s => trivial
    | cons root roots ih =>
      intro s
      unfold Walker.rebuildRoots
      split
      · exact ih s
      · refine Prog.AllOps.bind (Prog.AllOps.loop (fun s => ?_) fuel _) ih
        unfold Walker.rebuildStep
        split
        · trivial
        · split
          · trivial
          · refine Prog.AllOps.bind ((readsObjects_parsedCommit _ _).graphProg) fun entry => ?_
            simp only
            split
            · exact Prog.AllOps.bind (graphProg_putCommitGraph _ _ _) fun _ => trivial
            · trivial
  exact Prog.AllOps.bind ⟨trivial, fun _ => trivial⟩ fun refs =>
    Prog.AllOps.bind (Prog.AllOps.forEach (fun entry => graphProg_resolveCommitTip entry.2) refs) fun tips =>
      Prog.AllOps.bind (hroots _ _) fun s => Prog.AllOps.bind ⟨trivial, fun _ => trivial⟩ fun _ => trivial

end GraphProgs

/-! ## Promotion -/

namespace Promote

theorem run_validate_inv {staged : StagedPack} (hacyc : staged.Acyclic E) {tips : List ObjectId} {db db' : E.Db}
    {fuel : Nat} {r : Except PromoteError (List (ObjectId × Kind × Bytes))}
    (hr : (validate E fuel staged tips).run Db.handler db = some (r, db')) :
    db' = db ∧ Validated E staged (Committed db) tips r := by
  obtain ⟨N, r', hq, hN⟩ := run_validate hacyc tips db
  have hmax := Prog.RunsAs.loop _ (Nat.le_max_left fuel N) _ _ _ hr
  cases hmax.symm.trans (hN _ (Nat.le_max_right fuel N))
  exact ⟨rfl, hq⟩

/-- What a successful promotion did. -/
theorem run_validateAndPromote_ok {staged : StagedPack} (hacyc : staged.Acyclic E) {tips : List ObjectId}
    {db db' : E.Db} {fuel : Nat} {p : Promotion}
    (hr : (validateAndPromote E fuel staged tips).run Db.handler db = some (.ok p, db')) :
    ∃ l db₁, (validate E fuel staged tips).run Db.handler db = some (.ok l, db) ∧
      Validated E staged (Committed db) tips (.ok l) ∧ Stored E l db db₁ ∧
      (extendGraphAll E fuel (ofKind .commit l)).run Db.handler db₁ = some (.ok (), db') ∧
      p = ⟨(writeOrder l).map (·.1), (ofKind .commit l).map (·.1)⟩ := by
  unfold validateAndPromote at hr
  obtain ⟨l, db₀, hv, hr₀⟩ := Prog.run_bind_ok_inv hr
  obtain ⟨rfl, hval⟩ := run_validate_inv hacyc hv
  have hnodup : (ids (writeOrder l)).Nodup := (ids_writeOrder_perm l).nodup_iff.2 hval.1.nodup
  obtain ⟨db₁, hput, hstored⟩ := run_putAll (writeOrder l) db₀ hnodup
  rw [Prog.run_bind_ok hput] at hr₀
  obtain ⟨u, db₂, hgraph, hr₁⟩ := Prog.run_bind_ok_inv hr₀
  cases hr₁
  exact ⟨l, db₁, hv, hval, hstored.of_perm (writeOrder_perm l), hgraph, rfl⟩

/-- Every child of a committed object is committed. -/
def Closed (E : Env) (db : E.Db) : Prop := ∀ x y, E.Child db x y → Committed db y

theorem child_of_objectAt {staged : StagedPack} {db : E.Db} {x y : ObjectId} (h : E.objectAt db x = staged.read x)
    (hc : E.Child db x y) : staged.Child E x y := by
  obtain ⟨kind, body, children, ho, hch, hy⟩ := hc
  exact ⟨kind, body, children, h ▸ ho, hch, hy⟩

/-- The objects of a finished traversal close the committed ones. -/
theorem Stored.closed {staged : StagedPack} {tips : List ObjectId} {l : List (ObjectId × Kind × Bytes)}
    {db db' : E.Db} (hl : Validated E staged (Committed db) tips (.ok l)) (h : Stored E l db db')
    (hdb : Closed E db) : Closed E db' := by
  intro x y hxy
  have hx : Committed db' x := by
    obtain ⟨kind, body, children, ho, -⟩ := hxy
    exact objectAt_isSome (by simp [ho])
  rcases (h.committed x).1 hx with hold | hnew
  · have hxy' : E.Child db x y := by
      unfold Env.Child at hxy ⊢
      rwa [(h.old x hold).2] at hxy
    exact (h.committed y).2 (.inl (hdb x y hxy'))
  · obtain ⟨e, he, rfl⟩ := mem_ids.1 hnew
    have hread : E.objectAt db' e.1 = staged.read e.1 := by
      rw [h.new e he (hl.2 e.1 hnew).1, (hl.1.holds e he).1]
    obtain ⟨pre, post, heq⟩ := List.append_of_mem he
    rcases hl.1.children pre e post heq y (child_of_objectAt hread hxy) with hc | hpre
    · exact (h.committed y).2 (.inl hc)
    · exact (h.committed y).2 (.inr (by rw [heq, ids_append]; exact List.mem_append_left _ hpre))

/-- What connectivity validation must answer: success exactly when everything
needed is there, with the list of what is new, children first; else an object
that is nowhere and what refers to it. -/
structure ExactValidation (E : Env) (staged : StagedPack) (db : E.Db) (tips : List ObjectId)
    (r : Except PromoteError (List (ObjectId × Kind × Bytes))) : Prop where
  ok_iff : (∃ l, r = .ok l) ↔
    ∀ x, Needed E staged (Committed db) tips x → Committed db x ∨ (staged.read x).isSome
  listed : ∀ l, r = .ok l → ∀ x, x ∈ ids l ↔ ¬ Committed db x ∧ Needed E staged (Committed db) tips x
  nodup : ∀ l, r = .ok l → (ids l).Nodup
  childrenFirst : ∀ l, r = .ok l → ∀ pre e post, l = pre ++ e :: post →
    ∀ y, staged.Child E e.1 y → ¬ Committed db y → y ∈ ids pre
  error : ∀ e, r = .error e → ∃ missing referencedBy, e = .connectivity missing referencedBy ∧
    ¬ Committed db missing ∧ staged.read missing = none ∧
      match referencedBy with
      | none => missing ∈ tips
      | some a => staged.Child E a missing

theorem Validated.exact {staged : StagedPack} (hdec : staged.Decodable E) {tips : List ObjectId} {db : E.Db}
    {r : Except PromoteError (List (ObjectId × Kind × Bytes))} (h : Validated E staged (Committed db) tips r) :
    ExactValidation E staged db tips r := by
  cases r with
  | ok l =>
    have hmem : ∀ x, x ∈ ids l ↔ ¬ Committed db x ∧ Needed E staged (Committed db) tips x :=
      fun x => ⟨h.2 x, fun hx => (h.1.needed hx.2).resolve_left hx.1⟩
    refine ⟨⟨fun _ x hx => ?_, fun _ => ⟨l, rfl⟩⟩, ?_, ?_, ?_, ?_⟩
    · refine (h.1.needed hx).imp_right fun hx => ?_
      obtain ⟨e, he, rfl⟩ := mem_ids.1 hx
      simp [(h.1.holds e he).1]
    · intro l' hl'
      cases hl'
      exact hmem
    · intro l' hl'
      cases hl'
      exact h.1.nodup
    · intro l' hl' pre e post heq y hy hnew
      cases hl'
      exact (h.1.children pre e post heq y hy).resolve_left hnew
    · intro e he
      cases he
  | error e =>
    have hconn : ∃ missing referencedBy, e = .connectivity missing referencedBy := by
      cases e with
      | connectivity missing referencedBy => exact ⟨missing, referencedBy, rfl⟩
      | decode oid =>
        obtain ⟨kind, body, -, -, hread, hnone⟩ := h
        have := hdec oid kind body hread
        simp [hnone] at this
      | store e | objects e | walk e => exact h.elim
    obtain ⟨missing, referencedBy, rfl⟩ := hconn
    obtain ⟨hneeded, hnew, hread, hby⟩ := h
    refine ⟨⟨fun hok => ?_, fun hall => ?_⟩, ?_, ?_, ?_, ?_⟩
    · obtain ⟨l, hl⟩ := hok
      cases hl
    · rcases hall missing hneeded with hc | hs
      · exact absurd hc hnew
      · simp [hread] at hs
    · intro l hl
      cases hl
    · intro l hl
      cases hl
    · intro l hl
      cases hl
    · intro e he
      cases he
      exact ⟨missing, referencedBy, rfl, hnew, hread, hby⟩

end Promote

open Promote in
/-- Connectivity validation is exact, a rejected pack leaves the store as it
was, and an accepted one adds just what validation listed, to a closed set of
objects again. -/
theorem validate_exact {staged : StagedPack} (hdec : staged.Decodable E) (hacyc : staged.Acyclic E)
    (tips : List ObjectId) {db : E.Db} (hdb : Promote.Closed E db) :
    (∃ N r, ExactValidation E staged db tips r ∧
      ∀ fuel ≥ N, E.run (validate E fuel staged tips) db = some (r, db)) ∧
    (∀ fuel e db', E.run (validate E fuel staged tips) db = some (.error e, db') →
      db' = db ∧ E.run (validateAndPromote E fuel staged tips) db = some (.error e, db)) ∧
    ∀ fuel p db', E.run (validateAndPromote E fuel staged tips) db = some (.ok p, db') →
      ∃ l, E.run (validate E fuel staged tips) db = some (.ok l, db) ∧
        (∀ x, Committed db' x ↔ Committed db x ∨ x ∈ ids l) ∧ Promote.Closed E db' ∧
        ∀ t ∈ tips, Committed db' t := by
  refine ⟨?_, fun fuel e db' hr => ?_, fun fuel p db' hr => ?_⟩
  · obtain ⟨N, r, hq, hN⟩ := run_validate hacyc tips db
    exact ⟨N, r, hq.exact hdec, hN⟩
  · obtain ⟨rfl, -⟩ := run_validate_inv hacyc hr
    exact ⟨rfl, Prog.run_bind_error hr⟩
  · obtain ⟨l, db₁, hv, hval, hstored, hgraph, -⟩ := run_validateAndPromote_ok hacyc hr
    have hsame := (graphProg_extendGraphAll fuel _).sameObjects hgraph
    have hcom : ∀ x, Committed db' x ↔ Committed db x ∨ x ∈ ids l :=
      fun x => (hsame.committed x).trans (hstored.committed x)
    refine ⟨l, hv, hcom, fun x y hxy => ?_, fun t ht => (hcom t).2 (hval.1.tips t ht)⟩
    have hxy' : E.Child db₁ x y := by
      unfold Env.Child at hxy ⊢
      rwa [hsame.objectAt] at hxy
    exact (hsame.committed y).2 (hstored.closed hval hdb x y hxy')

/-! A pack of all the objects of the small repository, pushed to an empty
one. -/

/-- The pack of a list of objects. -/
def StagedPack.of (objects : List (ObjectId × Kind × Bytes)) : StagedPack :=
  ⟨objects.foldr (fun e m => m.insert e.1 e.2) .empty⟩

@[simp] theorem StagedPack.read_of (objects : List (ObjectId × Kind × Bytes)) (x : ObjectId) :
    (StagedPack.of objects).read x = objects.lookup x := by
  unfold StagedPack.read StagedPack.of
  induction objects with
  | nil => rfl
  | cons e objects ih =>
    obtain ⟨oid, kb⟩ := e
    simp only [List.foldr_cons, SortedMap.get_insert, List.lookup_cons, ih]
    by_cases hx : x = oid
    · simp [hx]
    · simp [hx, beq_false_of_ne hx]

theorem StagedPack.mem_of_read {objects : List (ObjectId × Kind × Bytes)} {x : ObjectId} {kind : Kind} {body : Bytes}
    (h : (StagedPack.of objects).read x = some (kind, body)) : (x, kind, body) ∈ objects := by
  rw [StagedPack.read_of] at h
  obtain ⟨l₁, l₂, heq, -⟩ := List.lookup_eq_some_iff.1 h
  simp [heq]

/-- Who refers to what in the pack of a list, if that is known of each object. -/
theorem StagedPack.child_of {objects : List (ObjectId × Kind × Bytes)} {references : List (ObjectId × ObjectId)}
    (h : ∀ e ∈ objects, ∃ children, Promote.objectChildren E e.1 e.2.1 e.2.2 = some children ∧
      ∀ y ∈ children, (e.1, y) ∈ references) {x y : ObjectId} (hxy : (StagedPack.of objects).Child E x y) :
    (x, y) ∈ references := by
  obtain ⟨kind, body, children, hread, hch, hy⟩ := hxy
  obtain ⟨children', hch', hall⟩ := h _ (StagedPack.mem_of_read hread)
  cases hch.symm.trans hch'
  exact hall y hy

/-- A pack whose objects refer to lower-ranked ones only. -/
theorem StagedPack.acyclic_of_rank {staged : StagedPack} (rank : ObjectId → Nat)
    (h : ∀ x y, staged.Child E x y → rank y < rank x) : staged.Acyclic E := by
  have hlt : ∀ x y, Relation.TransGen (staged.Child E) x y → rank y < rank x := by
    intro x y hxy
    induction hxy with
    | single hc => exact h _ _ hc
    | tail _ hc ih => exact (h _ _ hc).trans ih
  exact fun x hx => (hlt x x hx).false

/-- A store of objects that refer to each other only. -/
theorem Promote.closed_storeOf {objects : List (ObjectId × Kind × Bytes)} {graph : List (ObjectId × CommitGraphRecord)}
    (h : (objects.all fun e => ((Promote.objectChildren E e.1 e.2.1 e.2.2).getD []).all fun y =>
      (objects.lookup y).isSome) = true) : Promote.Closed E (E.storeOf objects graph) := by
  intro x y hxy
  obtain ⟨kind, body, children, ho, hch, hy⟩ := hxy
  have hsome := List.all_eq_true.1 (List.all_eq_true.1 h _ (mem_of_objectAt ho)) y (by rw [hch]; exact hy)
  exact (intact_storeOf.objects_isSome y).2 (by rw [objectAt_storeOf]; exact hsome)

namespace Sample

def pack : StagedPack := .of objects

theorem parse_tag : env.gix.tagFromBytes tagBody tagId.kind = some ⟨tipId, .commit⟩ := by
  simp [env, ParseTable.env, ParseTable.gix, tagId, sha1Id, table, List.lookup_cons]

theorem parse_tree : env.gix.treeEntries treeBody treeId.kind = [some ⟨.blob, ascii "a", blobId⟩] := by
  simp [env, ParseTable.env, ParseTable.gix, treeId, sha1Id, table, List.lookup_cons]

theorem parse_emptyTree : env.gix.treeEntries [] emptyTreeId.kind = [] := rfl

/-- Who refers to what. -/
def references : List (ObjectId × ObjectId) :=
  [(treeId, blobId), (rootId, emptyTreeId), (tipId, treeId), (tipId, rootId), (tagId, tipId)]

theorem children_of_mem {e : ObjectId × Kind × Bytes} (h : e ∈ objects) :
    ∃ children, Promote.objectChildren env e.1 e.2.1 e.2.2 = some children ∧
      ∀ y ∈ children, (e.1, y) ∈ references := by
  simp only [objects, List.mem_cons, List.not_mem_nil, or_false] at h
  rcases h with rfl | rfl | rfl | rfl | rfl | rfl
  · exact ⟨[], rfl, by simp⟩
  · exact ⟨[blobId], by simp [Promote.objectChildren, parse_tree, Promote.treeChildren], by simp [references]⟩
  · exact ⟨[], by simp [Promote.objectChildren, parse_emptyTree, Promote.treeChildren], by simp [references]⟩
  · exact ⟨[emptyTreeId], by simp [Promote.objectChildren, parse_root], by simp [references]⟩
  · exact ⟨[treeId, rootId], by simp [Promote.objectChildren, parse_tip], by simp [references]⟩
  · exact ⟨[tipId], by simp [Promote.objectChildren, parse_tag], by simp [references]⟩

theorem child_cases {x y : ObjectId} (h : pack.Child env x y) : (x, y) ∈ references :=
  StagedPack.child_of (fun _ => children_of_mem) h

theorem pack_decodable : pack.Decodable env := by
  intro x kind body hread
  obtain ⟨children, hch, -⟩ := children_of_mem (StagedPack.mem_of_read hread)
  simp only at hch
  simp [hch]

/-- How far an object is above the blobs. -/
def rank (x : ObjectId) : Nat :=
  if x = tagId then 4 else if x = tipId then 3 else if x = rootId then 2 else if x = blobId then 0 else 1

theorem pack_acyclic : pack.Acyclic env := by
  refine StagedPack.acyclic_of_rank rank fun x y h => ?_
  have hrank : (references.all fun p => rank p.2 < rank p.1) = true := by decide
  simpa using List.all_eq_true.1 hrank (x, y) (child_cases h)

theorem pack_closed {x y : ObjectId} (h : pack.Child env x y) : (pack.read y).isSome := by
  have hread : (references.all fun p => (objects.lookup p.2).isSome) = true := by rfl
  rw [pack, StagedPack.read_of]
  exact List.all_eq_true.1 hread (x, y) (child_cases h)

/-- Everything the tag needs is in the pack. -/
theorem needed_staged {C : ObjectId → Prop} {x : ObjectId} (h : Needed env pack C [tagId] x) :
    (pack.read x).isSome := by
  cases h with
  | tip ht =>
    rw [List.mem_singleton.1 ht, pack, StagedPack.read_of]
    rfl
  | child _ _ hy => exact pack_closed hy

end Sample

/-! A merge on top of a root that is there already: two of its objects have two
parents each. -/

namespace Merge

open Sample

def mergeId : ObjectId := sha1Id 0x0c2652f293c99659c61f0dfd3e8faa9699f93abf

def mergeBody : Bytes := ascii
  "tree c49897f29f9819a0ab6850d7e22443508a1a29d5\nparent b61cd6279760ffaab260f26ae26e8356b0fa887d\n" ++ ascii
  "parent 1da828b304f7863e32a21dd6e1d19143b0c97a97\nauthor m <m@m> 0 +0000\ncommitter m <m@m> 0 +0000\n\nm\n"

def table : ParseTable where
  commits := (mergeBody, ⟨treeId, [tipId, rootId]⟩) :: Sample.table.commits
  tags := []
  trees := Sample.table.trees
  commits_sha1 := List.forall_mem_cons.2 ⟨by simp [treeId, tipId, rootId, sha1Id], Sample.table.commits_sha1⟩

def env : Env := table.env 1000

def held : List (ObjectId × Kind × Bytes) := [(emptyTreeId, .tree, []), (rootId, .commit, rootBody)]

def db : env.Db := env.storeOf held [(rootId, ⟨1, emptyTreeId, []⟩)]

def objects : List (ObjectId × Kind × Bytes) :=
  [(blobId, .blob, blobBody), (treeId, .tree, treeBody), (tipId, .commit, tipBody), (mergeId, .commit, mergeBody)]

def pack : StagedPack := .of objects

/-- Who refers to what. -/
def references : List (ObjectId × ObjectId) :=
  [(treeId, blobId), (tipId, treeId), (tipId, rootId), (mergeId, treeId), (mergeId, tipId), (mergeId, rootId)]

theorem parse_merge : env.gix.commitFromBytes mergeBody mergeId.kind = some ⟨treeId, [tipId, rootId]⟩ := by
  simp [env, ParseTable.env, ParseTable.gix, mergeId, sha1Id, table, List.lookup_cons]

theorem parse_tip : env.gix.commitFromBytes tipBody tipId.kind = some ⟨treeId, [rootId]⟩ := by
  have hne : (tipBody == mergeBody) = false := by decide +kernel
  rw [← Sample.parse_tip]
  simp [env, Sample.env, ParseTable.env, ParseTable.gix, tipId, sha1Id, table, List.lookup_cons, hne]

theorem children_of_mem {e : ObjectId × Kind × Bytes} (h : e ∈ objects) :
    ∃ children, Promote.objectChildren env e.1 e.2.1 e.2.2 = some children ∧ ∀ y ∈ children, (e.1, y) ∈ references := by
  simp only [objects, List.mem_cons, List.not_mem_nil, or_false] at h
  rcases h with rfl | rfl | rfl | rfl
  · exact ⟨[], rfl, by simp⟩
  · have htree : env.gix.treeEntries treeBody treeId.kind = [some ⟨.blob, ascii "a", blobId⟩] := parse_tree
    exact ⟨[blobId], by simp [Promote.objectChildren, htree, Promote.treeChildren], by simp [references]⟩
  · exact ⟨[treeId, rootId], by simp [Promote.objectChildren, parse_tip], by simp [references]⟩
  · exact ⟨[treeId, tipId, rootId], by simp [Promote.objectChildren, parse_merge], by simp [references]⟩

theorem pack_decodable : pack.Decodable env := by
  intro x kind body hread
  obtain ⟨children, hch, -⟩ := children_of_mem (StagedPack.mem_of_read hread)
  simp only at hch
  simp [hch]

theorem pack_acyclic : pack.Acyclic env := by
  refine StagedPack.acyclic_of_rank (fun x => if x = mergeId then 5 else rank x) fun x y h => ?_
  have hrank : (references.all fun p => decide ((if p.2 = mergeId then 5 else rank p.2) <
      (if p.1 = mergeId then 5 else rank p.1))) = true := by decide +kernel
  simpa using List.all_eq_true.1 hrank (x, y) (StagedPack.child_of (fun _ => children_of_mem) h)

theorem closed_db : Promote.Closed env db := Promote.closed_storeOf (by decide +kernel)

end Merge

open Promote Merge in
/-- The merge is listed after what it needs, each object once, and without the
root. -/
theorem validate_exact_sample :
    pack.Decodable env ∧ pack.Acyclic env ∧ Promote.Closed env db ∧
      (∃ N r, Promote.ExactValidation env pack db [mergeId] r ∧
        ∀ fuel ≥ N, env.run (Promote.validate env fuel pack [mergeId]) db = some (r, db)) ∧
      ∃ p db' l, env.run (Promote.validateAndPromote env 20 pack [mergeId]) db = some (.ok p, db') ∧
        env.run (Promote.validate env 20 pack [mergeId]) db = some (.ok l, db) ∧
        ids l = [Sample.blobId, Sample.treeId, Sample.tipId, mergeId] ∧
        (∀ x, Promote.Committed db' x ↔ Promote.Committed db x ∨ x ∈ ids l) ∧ Promote.Closed env db' := by
  obtain ⟨hexact, -, haccepted⟩ := validate_exact pack_decodable pack_acyclic [mergeId] closed_db
  have hrun : (env.run (Promote.validateAndPromote env 20 pack [mergeId]) db).any (fun r => r.1.isOk) = true := by
    decide +kernel
  have hids : (env.run (Promote.validate env 20 pack [mergeId]) db).map (fun r => r.1.toOption.map ids) =
      some (some [Sample.blobId, Sample.treeId, Sample.tipId, mergeId]) := by decide +kernel
  obtain ⟨⟨r, db'⟩, hrun, hr⟩ := (Option.any_eq_true ..).1 hrun
  cases r with
  | error e => cases hr
  | ok p =>
    obtain ⟨l, hvalidate, hcommitted, hclosed, -⟩ := haccepted 20 p db' hrun
    rw [hvalidate] at hids
    exact ⟨pack_decodable, pack_acyclic, closed_db, hexact, p, db', l, hrun, hvalidate,
      Option.some.inj (Option.some.inj hids), hcommitted, hclosed⟩

end Miscreant
