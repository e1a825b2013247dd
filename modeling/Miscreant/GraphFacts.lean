/-
Commit-graph records and the three programs that compute them: the lazy
backfill (`Walker.getCommitInfo`), the promotion's phase 3
(`Promote.extendGraphAll`) and the rebuild (`Walker.rebuildCommitGraph`).

`Commits.IsGen` is the generation they all compute, given by the commits
alone; that a commit has one says that its ancestry is complete and acyclic.
Without overflow it is the length of the longest path of parents to a root
(`IsGen.isGreatest`). A backfill and a rebuild are both resolvers
(`Lib.Prog.Resolver`): they share what one turn knows (`Knows`) and differ in
whether they look at the stored records.
-/
import Miscreant.PromoteFacts
import Miscreant.Lib.Resolve
import Mathlib.Data.Set.Card

namespace Miscreant

open Lib

variable {E : Env}

/-- The commit each id names. -/
abbrev Commits := ObjectId → Option CommitRef

namespace Commits

variable {commits commits' : Commits}

/-- `y` is a parent of the commit `x`. -/
def Parent (commits : Commits) (x y : ObjectId) : Prop := ∃ commit, commits x = some commit ∧ y ∈ commit.parents

/-- `g` is the generation of `c`: one more than the greatest of its parents',
as a `u32`. -/
inductive IsGen (commits : Commits) : ObjectId → UInt32 → Prop
  | intro {c : ObjectId} {commit : CommitRef} (gens : ObjectId → UInt32) (hc : commits c = some commit)
      (hp : ∀ p ∈ commit.parents, IsGen commits p (gens p)) :
      IsGen commits c (1 + (commit.parents.map gens).foldl max 0)

namespace IsGen

theorem unique {c : ObjectId} {g g' : UInt32} (h : IsGen commits c g) (h' : IsGen commits c g') : g = g' := by
  induction h generalizing g' with
  | intro gens hc _ ih =>
    obtain ⟨gens', hc', hp'⟩ := h'
    cases hc.symm.trans hc'
    rw [List.map_congr_left fun p hp => ih p hp (hp' p hp)]

theorem isSome {c : ObjectId} {g : UInt32} (h : IsGen commits c g) : ∃ commit, commits c = some commit := by
  obtain ⟨-, hc, -⟩ := h
  exact ⟨_, hc⟩

theorem parent {c p : ObjectId} {g : UInt32} (h : IsGen commits c g) (hp : commits.Parent c p) :
    ∃ g', IsGen commits p g' := by
  obtain ⟨gens, hc, hgens⟩ := h
  obtain ⟨commit, hc', hmem⟩ := hp
  cases hc.symm.trans hc'
  exact ⟨gens p, hgens p hmem⟩

theorem acc {c : ObjectId} {g : UInt32} (h : IsGen commits c g) : Acc (fun j i => commits.Parent i j) c := by
  induction h with
  | intro gens hc _ ih =>
    refine ⟨_, fun p hp => ?_⟩
    obtain ⟨commit, hc', hmem⟩ := hp
    cases hc.symm.trans hc'
    exact ih p hmem

theorem mono (hsub : ∀ c commit, commits c = some commit → commits' c = some commit) {c : ObjectId} {g : UInt32}
    (h : IsGen commits c g) : IsGen commits' c g := by
  induction h with
  | intro gens hc _ ih => exact .intro gens (hsub _ _ hc) ih

/-- A commit whose ancestry is complete and acyclic has a generation. -/
theorem of_acc {c : ObjectId} (hacc : Acc (fun j i => commits.Parent i j) c)
    (hall : ∀ a, Relation.ReflTransGen commits.Parent c a → (commits a).isSome) : ∃ g, IsGen commits c g := by
  induction hacc with
  | intro c _ ih =>
    obtain ⟨commit, hc⟩ := Option.isSome_iff_exists.1 (hall c .refl)
    have hparents : ∀ p, p ∈ commit.parents → ∃ g, IsGen commits p g := by
      intro p hp
      have hpar : commits.Parent c p := ⟨commit, hc, hp⟩
      exact ih p hpar fun a ha => hall a (Relation.ReflTransGen.head hpar ha)
    choose! gens hgens using hparents
    exact ⟨_, .intro gens hc hgens⟩

end IsGen

/-! ## Generations and paths -/

/-- There is a path of `n` commits from `c` to a root. -/
inductive PathToRoot (commits : Commits) : ObjectId → Nat → Prop
  | root {c : ObjectId} {commit : CommitRef} (hc : commits c = some commit) (hp : commit.parents = []) :
      PathToRoot commits c 1
  | step {c p : ObjectId} {n : Nat} (hp : commits.Parent c p) (h : PathToRoot commits p n) :
      PathToRoot commits c (n + 1)

theorem toNat_max (a b : UInt32) : (max a b).toNat = max a.toNat b.toNat := by
  have hmax : max a b = if a ≤ b then b else a := rfl
  rw [hmax]
  split
  · rename_i h
    exact (Nat.max_eq_right (UInt32.le_iff_toNat_le.1 h)).symm
  · rename_i h
    exact (Nat.max_eq_left (Nat.le_of_not_le fun hle => h (UInt32.le_iff_toNat_le.2 hle))).symm

theorem toNat_foldl_max (l : List UInt32) (a : UInt32) :
    (l.foldl max a).toNat = max a.toNat ((l.map (·.toNat)).foldr max 0) := by
  induction l generalizing a with
  | nil => simp
  | cons b l ih => rw [List.foldl_cons, ih, toNat_max, List.map_cons, List.foldr_cons, max_assoc]

/-- The greatest generation of a nonempty list is one of them. -/
theorem exists_foldr_max {α : Type} {f : α → Nat} {l : List α} (hne : l ≠ []) :
    ∃ a ∈ l, (l.map f).foldr max 0 = f a := by
  have hne' : l.map f ≠ [] := by simpa using hne
  have hmem := List.maximum_mem (List.foldr_max_of_ne_nil hne').symm
  obtain ⟨a, ha, heq⟩ := List.mem_map.1 hmem
  exact ⟨a, ha, heq.symm⟩

theorem IsGen.isGreatest {c : ObjectId} {g : UInt32} (h : IsGen commits c g)
    (hb : ∀ n, PathToRoot commits c n → n < 2 ^ 32) : IsGreatest {n | PathToRoot commits c n} g.toNat := by
  induction h with
  | @intro c commit gens hc _ ih =>
    have hpar : ∀ p, commits.Parent c p ↔ p ∈ commit.parents := by
      intro p
      constructor
      · intro hp
        obtain ⟨commit', hc', hmem⟩ := hp
        cases hc.symm.trans hc'
        exact hmem
      · exact fun hmem => ⟨commit, hc, hmem⟩
    have ih : ∀ p ∈ commit.parents, IsGreatest {n | PathToRoot commits p n} (gens p).toNat := by
      intro p hp
      refine ih p hp fun n hn => ?_
      have := hb (n + 1) (.step ((hpar p).2 hp) hn)
      omega
    have hfold : ((commit.parents.map gens).foldl max 0).toNat =
        (commit.parents.map fun p => (gens p).toNat).foldr max 0 := by
      rw [toNat_foldl_max, List.map_map, UInt32.toNat_zero, Nat.zero_max]
      rfl
    by_cases hnil : commit.parents = []
    · rw [hnil]
      refine ⟨.root hc hnil, fun n hn => ?_⟩
      cases hn with
      | root => simp
      | step hp _ => simp [hnil] at hpar; exact absurd hp (hpar _)
    · obtain ⟨p, hp, hmax⟩ := exists_foldr_max (f := fun p => (gens p).toNat) hnil
      have hpath : PathToRoot commits c ((gens p).toNat + 1) := .step ((hpar p).2 hp) (ih p hp).1
      have hlt := hb _ hpath
      have hval : (1 + (commit.parents.map gens).foldl max 0).toNat = (gens p).toNat + 1 := by
        rw [UInt32.toNat_add, hfold, hmax]
        simp only [UInt32.toNat_one]
        omega
      rw [hval]
      refine ⟨hpath, fun n hn => ?_⟩
      cases hn with
      | root hc' hp' =>
        cases hc.symm.trans hc'
        exact absurd hp' hnil
      | @step _ q n hq hn =>
        have hle : n ≤ (gens q).toNat := (ih q ((hpar q).1 hq)).2 hn
        have hmem : (gens q).toNat ∈ commit.parents.map fun p => (gens p).toNat :=
          List.mem_map_of_mem ((hpar q).1 hq)
        have hle' : (gens q).toNat ≤ (commit.parents.map fun p => (gens p).toNat).foldr max 0 :=
          List.le_max_of_le hmem le_rfl
        omega

/-- `r` is the record of the commit `c`. -/
def IsRecord (commits : Commits) (c : ObjectId) (r : CommitGraphRecord) : Prop :=
  ∃ commit, commits c = some commit ∧ commits.IsGen c r.generation ∧ r.rootTree = commit.tree ∧
    r.parents = commit.parents

theorem IsRecord.unique {c : ObjectId} {r r' : CommitGraphRecord} (h : commits.IsRecord c r)
    (h' : commits.IsRecord c r') : r = r' := by
  obtain ⟨g, t, ps⟩ := r
  obtain ⟨g', t', ps'⟩ := r'
  obtain ⟨commit, hc, hg, rfl, rfl⟩ := h
  obtain ⟨commit', hc', hg', rfl, rfl⟩ := h'
  cases hc.symm.trans hc'
  cases (show g = g' from hg.unique hg')
  rfl

theorem IsRecord.mono (hsub : ∀ c commit, commits c = some commit → commits' c = some commit) {c : ObjectId}
    {r : CommitGraphRecord} (h : commits.IsRecord c r) : commits'.IsRecord c r := by
  obtain ⟨commit, hc, hg, ht, hp⟩ := h
  exact ⟨commit, hsub c commit hc, hg.mono hsub, ht, hp⟩

end Commits

/-! ## Stored records -/

/-- A record of `c` that is written can be read back. -/
def Env.Readable (E : Env) (commits : Commits) (c : ObjectId) : Prop :=
  ∀ r, commits.IsRecord c r → E.codec.Faithful c.kind r

/-- The stored records of the commits `A` are theirs, and can be read. -/
def Correct (E : Env) (commits : Commits) (A : ObjectId → Prop) (db : E.Db) : Prop :=
  ∀ c v, A c → db.graph c = some v → ∃ r, E.codec.decode v c.kind = .ok r ∧ commits.IsRecord c r

theorem Correct.graphAt {commits : Commits} {A : ObjectId → Prop} {db : E.Db} (h : Correct E commits A db)
    {c : ObjectId} (hc : A c) :
    (db.graph c = none ∧ E.graphAt db c = .ok none) ∨
      ∃ r, (db.graph c).isSome ∧ E.graphAt db c = .ok (some r) ∧ commits.IsRecord c r := by
  cases hv : db.graph c with
  | none => exact .inl ⟨rfl, by simp [Env.graphAt, hv]⟩
  | some v =>
    obtain ⟨r, hd, hr⟩ := h c v hc hv
    exact .inr ⟨r, rfl, by simp [Env.graphAt, hv, hd], hr⟩

/-- A record of `c` that is written is read back as it was, or not at all. -/
def Env.Honest (E : Env) (commits : Commits) (c : ObjectId) : Prop :=
  ∀ r, commits.IsRecord c r → E.codec.Faithful c.kind r ∨ ∃ e, E.codec.decode (E.codec.encode r) c.kind = .error e

theorem Env.Readable.honest {commits : Commits} {c : ObjectId} (h : E.Readable commits c) : E.Honest commits c :=
  fun r hr => .inl (h r hr)

/-- The stored records of the commits `A` are theirs, but some cannot be
read. -/
def Sane (E : Env) (commits : Commits) (A : ObjectId → Prop) (db : E.Db) : Prop :=
  ∀ c v, A c → db.graph c = some v →
    ((∃ r, E.codec.decode v c.kind = .ok r ∧ commits.IsRecord c r) ∧ E.Readable commits c) ∨
      ((∃ e, E.codec.decode v c.kind = .error e) ∧ ¬ E.Readable commits c)

theorem Correct.sane {commits : Commits} {A : ObjectId → Prop} {db : E.Db} (h : Correct E commits A db)
    (hA : ∀ x, A x → E.Readable commits x) : Sane E commits A db :=
  fun c v hc hv => .inl ⟨h c v hc hv, hA c hc⟩

theorem Sane.graphAt {commits : Commits} {A : ObjectId → Prop} {db : E.Db} (h : Sane E commits A db) {c : ObjectId}
    (hc : A c) :
    (db.graph c = none ∧ E.graphAt db c = .ok none) ∨
      (db.graph c).isSome ∧ ((∃ r, E.graphAt db c = .ok (some r) ∧ commits.IsRecord c r) ∧ E.Readable commits c ∨
        (∃ e, E.graphAt db c = .error e) ∧ ¬ E.Readable commits c) := by
  cases hv : db.graph c with
  | none => exact .inl ⟨rfl, by simp [Env.graphAt, hv]⟩
  | some v =>
    refine .inr ⟨rfl, ?_⟩
    rcases h c v hc hv with ⟨⟨r, hd, hr⟩, hread⟩ | ⟨⟨e, hd⟩, hread⟩
    · exact .inl ⟨⟨r, by simp [Env.graphAt, hv, hd], hr⟩, hread⟩
    · exact .inr ⟨⟨.value e, by simp [Env.graphAt, hv, hd]⟩, hread⟩

/-- Why a lookup among the ids `A` may fail: something that is not a commit,
or a record that cannot be read. -/
def Obstructed (E : Env) (commits : Commits) (A : ObjectId → Prop) : Prop :=
  ∃ a, A a ∧ (commits a = none ∨ ¬ E.Readable commits a)

/-- Why a lookup among the ids `A` fails with `e`: the error is about
something that is not a commit, or a record cannot be read. -/
def Blocked (E : Env) (commits : Commits) (A : ObjectId → Prop) (e : WalkError) : Prop :=
  ∃ a, A a ∧ (commits a = none ∧ e.about = some a ∨ ¬ E.Readable commits a ∧ e.about = none)

theorem Blocked.obstructed {commits : Commits} {A : ObjectId → Prop} {e : WalkError} (h : Blocked E commits A e) :
    Obstructed E commits A := by
  obtain ⟨a, ha, h⟩ := h
  exact ⟨a, ha, h.imp (·.1) (·.1)⟩

/-- `db'` is `db` with the records of commits added or written again. -/
structure Recorded (E : Env) (commits : Commits) (db db' : E.Db) : Prop extends SameObjects db db' where
  kept : ∀ x, (db.graph x).isSome → (db'.graph x).isSome
  written : ∀ x v, db'.graph x = some v →
    db.graph x = some v ∨ ∃ r, commits.IsRecord x r ∧ v = E.codec.encode r

namespace Recorded

variable {commits : Commits} {A : ObjectId → Prop} {db db' db'' : E.Db}

theorem refl (db : E.Db) : Recorded E commits db db :=
  { SameObjects.refl db with kept := fun _ h => h, written := fun _ _ h => .inl h }

theorem trans (h : Recorded E commits db db') (h' : Recorded E commits db' db'') : Recorded E commits db db'' :=
  { h.toSameObjects.trans h'.toSameObjects with
    kept := fun x hx => h'.kept x (h.kept x hx)
    written := fun x v hv => by
      rcases h'.written x v hv with hv | hv
      · exact h.written x v hv
      · exact .inr hv }

theorem graph_none (h : Recorded E commits db db') {x : ObjectId} (hx : db'.graph x = none) : db.graph x = none := by
  by_contra hne
  have hsome := h.kept x (Option.isSome_iff_ne_none.2 hne)
  rw [hx] at hsome
  cases hsome

theorem correct (h : Recorded E commits db db') (hA : ∀ x, A x → E.Readable commits x)
    (hdb : Correct E commits A db) : Correct E commits A db' := by
  intro c v ha hv
  rcases h.written c v hv with hv | ⟨r, hr, rfl⟩
  · exact hdb c v ha hv
  · exact ⟨r, hA c ha r hr, hr⟩

theorem sane (h : Recorded E commits db db') (hA : ∀ x, A x → E.Honest commits x) (hdb : Sane E commits A db) :
    Sane E commits A db' := by
  intro c v ha hv
  rcases h.written c v hv with hv | ⟨r, hr, rfl⟩
  · exact hdb c v ha hv
  · rcases hA c ha r hr with hok | ⟨e, he⟩
    · refine .inl ⟨⟨r, hok, hr⟩, fun r' hr' => ?_⟩
      rwa [hr'.unique hr]
    · refine .inr ⟨⟨e, he⟩, fun hread => ?_⟩
      have hok : E.codec.decode (E.codec.encode r) c.kind = .ok r := hread r hr
      simp [he] at hok

/-- The record of a commit is written. -/
theorem put {x : ObjectId} {r : CommitGraphRecord} (hr : commits.IsRecord x r) :
    Recorded E commits db (db.apply (.graph x (E.codec.encode r))) :=
  { objects := rfl
    blobs := rfl
    refs := rfl
    kept := fun y hy => by
      by_cases hyx : y = x
      · simp [Db.apply, hyx]
      · simpa [Db.apply, Function.update_of_ne hyx] using hy
    written := fun y v hv => by
      by_cases hy : y = x
      · subst hy
        simp only [Db.apply, Function.update_self, Option.some.injEq] at hv
        exact .inr ⟨r, hr, hv.symm⟩
      · simp only [Db.apply, Function.update_of_ne hy] at hv
        exact .inl hv }

end Recorded

/-- `db'` is `db` with the records of commits added. -/
structure GraphGrows (E : Env) (commits : Commits) (db db' : E.Db) : Prop extends Recorded E commits db db' where
  unchanged : ∀ x v, db.graph x = some v → db'.graph x = some v

namespace GraphGrows

variable {commits : Commits} {db db' : E.Db}

theorem refl (db : E.Db) : GraphGrows E commits db db := { Recorded.refl db with unchanged := fun _ _ h => h }

/-- A record is written where there was none. -/
theorem put {x : ObjectId} {r : CommitGraphRecord} (h : GraphGrows E commits db db') (hx : db'.graph x = none)
    (hr : commits.IsRecord x r) : GraphGrows E commits db (db'.apply (.graph x (E.codec.encode r))) :=
  { h.toRecorded.trans (.put hr) with
    unchanged := fun y v hv => by
      have hv' := h.unchanged y v hv
      have hne : y ≠ x := by
        rintro rfl
        simp [hx] at hv'
      simpa [Db.apply, Function.update_of_ne hne] using hv' }

end GraphGrows

/-! ## What a traversal knows -/

/-- The ids a traversal may meet: the parents of each are again such ids, its
ancestry is acyclic, and its record is read back right if at all. -/
structure Ancestry (E : Env) (commits : Commits) (A : ObjectId → Prop) : Prop where
  acc : ∀ x, A x → Acc (fun j i => commits.Parent i j) x
  parent : ∀ x p, A x → commits.Parent x p → A p
  honest : ∀ x, A x → E.Honest commits x

/-- The ids a lookup may meet in `db`: it goes on to the parents of those
without a record. -/
structure LookupRange (E : Env) (commits : Commits) (A : ObjectId → Prop) (db : E.Db) : Prop where
  acc : ∀ x, A x → Acc (fun j i => commits.Parent i j) x
  parent : ∀ x p, A x → db.graph x = none → commits.Parent x p → A p
  honest : ∀ x, A x → E.Honest commits x

/-- A lookup of `c` may come to `a`: `a` is `c`, or an ancestor above commits
without a record. -/
def Env.LooksUp (E : Env) (db : E.Db) (c a : ObjectId) : Prop :=
  Relation.ReflTransGen (fun x y => db.graph x = none ∧ E.Parent db x y) c a

theorem Env.LooksUp.ancestor {db : E.Db} {c a : ObjectId} (h : E.LooksUp db c a) : E.Ancestor db a c :=
  Relation.ReflTransGen.mono (fun _ _ h => h.2) _ _ h

theorem Ancestry.lookupRange {commits : Commits} {A : ObjectId → Prop} (hA : Ancestry E commits A) (db : E.Db) :
    LookupRange E commits A db :=
  ⟨hA.acc, fun x p hx _ => hA.parent x p hx, hA.honest⟩

/-- With more records, a lookup meets no more. -/
theorem LookupRange.recorded {commits : Commits} {A : ObjectId → Prop} {db db' : E.Db}
    (hA : LookupRange E commits A db) (h : Recorded E commits db db') : LookupRange E commits A db' :=
  ⟨hA.acc, fun x p hx hnone => hA.parent x p hx (h.graph_none hnone), hA.honest⟩

/-- Where all of them are commits, they have generations. -/
theorem Ancestry.gen {commits : Commits} {A : ObjectId → Prop} (hA : Ancestry E commits A)
    (hall : ∀ x, A x → (commits x).isSome) {x : ObjectId} (hx : A x) : ∃ g, commits.IsGen x g := by
  refine Commits.IsGen.of_acc (hA.acc x hx) fun a ha => hall a ?_
  induction ha with
  | refl => exact hx
  | tail _ hp ih => exact hA.parent _ _ ih hp

/-- What the maps of a traversal hold is right, and its stack is of the
commits it may meet. -/
structure Knows (commits : Commits) (A : ObjectId → Prop) (stack : List ObjectId)
    (parsed : SortedMap ObjectId (ObjectId × List ObjectId)) (generations : SortedMap ObjectId UInt32) : Prop where
  stack : ∀ x ∈ stack, A x
  parsed : ∀ x e, parsed.get x = some e → ∃ commit, commits x = some commit ∧ e = (commit.tree, commit.parents)
  generations : ∀ x g, generations.get x = some g → A x ∧ commits.IsGen x g

namespace Knows

variable {commits : Commits} {A : ObjectId → Prop} {stack : List ObjectId} {top : ObjectId}
  {parsed : SortedMap ObjectId (ObjectId × List ObjectId)} {generations : SortedMap ObjectId UInt32}

theorem pop (h : Knows commits A (top :: stack) parsed generations) : Knows commits A stack parsed generations :=
  { h with stack := fun x hx => h.stack x (by simp [hx]) }

/-- The generation of the top becomes known. -/
theorem resolve {g : UInt32} (h : Knows commits A (top :: stack) parsed generations) (hg : commits.IsGen top g) :
    Knows commits A stack parsed (generations.insert top g) :=
  { h.pop with
    generations := fun x g' hx => by
      rw [SortedMap.get_insert] at hx
      split at hx
      · rename_i heq
        cases hx
        subst heq
        exact ⟨h.stack x (by simp), hg⟩
      · exact h.generations x g' hx }

/-- The parents not known yet are pushed. -/
theorem push {commit : CommitRef} (h : Knows commits A (top :: stack) parsed generations)
    (hA : ∀ p, commits.Parent top p → A p) (hc : commits top = some commit) :
    Knows commits A ((Walker.missingParents generations commit.parents).reverse ++ top :: stack) parsed generations :=
  { h with
    stack := fun x hx => by
      rcases List.mem_append.1 hx with hx | hx
      · have hx := List.mem_reverse.1 hx
        exact hA x ⟨commit, hc, (List.mem_filter.1 hx).1⟩
      · exact h.stack x hx }

theorem mem_missing {commit : CommitRef} (hc : commits top = some commit) {x : ObjectId} :
    x ∈ (Walker.missingParents generations commit.parents).reverse ↔
      commits.Parent top x ∧ ¬ (generations.get x).isSome := by
  rw [List.mem_reverse, Walker.missingParents, List.mem_filter]
  simp [Commits.Parent, hc]

/-- With every parent known, the next generation is the top's. -/
theorem isGen_next {commit : CommitRef} (h : Knows commits A (top :: stack) parsed generations)
    (hc : commits top = some commit) (hm : (Walker.missingParents generations commit.parents).isEmpty = true) :
    commits.IsGen top (Walker.nextGeneration generations commit.parents) := by
  have hsome : ∀ p ∈ commit.parents, ∃ g, generations.get p = some g := by
    intro p hp
    cases hg : generations.get p with
    | some g => exact ⟨g, rfl⟩
    | none =>
      have hmem : p ∈ Walker.missingParents generations commit.parents := by
        rw [Walker.missingParents, List.mem_filter]
        exact ⟨hp, by simp [hg]⟩
      rw [List.isEmpty_iff.1 hm] at hmem
      simp at hmem
  have hmap : commit.parents.filterMap generations.get = commit.parents.map fun p => (generations.get p).getD 0 := by
    rw [← List.filterMap_eq_map]
    refine List.filterMap_congr fun p hp => ?_
    obtain ⟨g, hg⟩ := hsome p hp
    simp [hg]
  rw [Walker.nextGeneration, hmap]
  refine .intro _ hc fun p hp => ?_
  obtain ⟨g, hg⟩ := hsome p hp
  simpa [hg] using (h.generations p g hg).2

/-- Parsing the top, or finding it parsed. -/
theorem run_parsedCommit (h : Knows commits A stack parsed generations) {db : E.Db} (hdb : Intact E db)
    (hcm : E.commitAt db = commits) {x : ObjectId} {commit : CommitRef} (hc : commits x = some commit) :
    ∃ parsed', (Walker.parsedCommit E parsed x).run Db.handler db =
        some (.ok ((commit.tree, commit.parents), parsed'), db) ∧
      Knows commits A stack parsed' generations := by
  unfold Walker.parsedCommit
  cases hp : parsed.get x with
  | some e =>
    obtain ⟨commit', hc', rfl⟩ := h.parsed x e hp
    cases hc.symm.trans hc'
    exact ⟨parsed, rfl, h⟩
  | none =>
    refine ⟨parsed.insert x (commit.tree, commit.parents), ?_, { h with parsed := fun y e hy => ?_ }⟩
    · simp only
      rw [Prog.run_bind_ok (run_parseCommit_ok hdb (by rw [hcm]; exact hc))]
      rfl
    · rw [SortedMap.get_insert] at hy
      split at hy
      · rename_i heq
        cases hy
        subst heq
        exact ⟨commit, hc, rfl⟩
      · exact h.parsed y e hy

theorem run_parsedCommit_none (h : Knows commits A stack parsed generations) {db : E.Db} (hdb : Intact E db)
    (hcm : E.commitAt db = commits) {x : ObjectId} (hc : commits x = none) :
    ∃ e, e.about = some x ∧ (Walker.parsedCommit E parsed x).run Db.handler db = some (.error e, db) := by
  unfold Walker.parsedCommit
  cases hp : parsed.get x with
  | some e =>
    obtain ⟨commit, hc', -⟩ := h.parsed x e hp
    cases hc.symm.trans hc'
  | none =>
    obtain ⟨e, habout, hfail⟩ := run_parseCommit_none hdb (by rw [hcm]; exact hc)
    exact ⟨e, habout, Prog.run_bind_error hfail⟩

end Knows

/-! ## The backfill -/

namespace Walker

/-- The parents of `x` its traversal waits for. -/
def Resolved (generations : SortedMap ObjectId UInt32) (x : ObjectId) : Prop := (generations.get x).isSome

theorem Resolved.insert {generations : SortedMap ObjectId UInt32} {x y : ObjectId} (g : UInt32)
    (h : Resolved generations x) : Resolved (generations.insert y g) x := by
  unfold Resolved at h ⊢
  rw [SortedMap.get_insert]
  split
  · rfl
  · exact h

theorem resolved_insert_self (generations : SortedMap ObjectId UInt32) (x : ObjectId) (g : UInt32) :
    Resolved (generations.insert x g) x := by
  simp [Resolved, SortedMap.get_insert]

theorem Resolved.of_insert {generations : SortedMap ObjectId UInt32} {x y : ObjectId} {g : UInt32}
    (h : Resolved (generations.insert y g) x) (hne : x ≠ y) : Resolved generations x := by
  unfold Resolved at h ⊢
  rwa [SortedMap.get_insert, if_neg hne] at h

/-- The state of a backfill of `target` that started from `db₀`. -/
structure Backfill.Inv (E : Env) (commits : Commits) (A : ObjectId → Prop) (target : ObjectId) (db₀ : E.Db)
    (s : Backfill) (db : E.Db) : Prop where
  knows : Knows commits A s.stack s.parsed s.generations
  grows : GraphGrows E commits db₀ db
  untouched : ∀ x, ¬ Resolved s.generations x → db.graph x = db₀.graph x
  stored : ∀ x, Resolved s.generations x → (db.graph x).isSome
  record : ∀ r, s.result = some r → commits.IsRecord target r
  result : Resolved s.generations target → ∃ r, s.result = some r
  target : target ∈ s.stack ∨ Resolved s.generations target

variable {commits : Commits} {A : ObjectId → Prop} {target : ObjectId} {db₀ db : E.Db}

/-- The target of a backfill is on its stack until it is resolved. -/
theorem target_popped {stack : List ObjectId} {top : ObjectId} {generations generations' : SortedMap ObjectId UInt32}
    (h : target ∈ top :: stack ∨ Resolved generations target) (htop : Resolved generations' top)
    (hmono : ∀ x, Resolved generations x → Resolved generations' x) :
    target ∈ stack ∨ Resolved generations' target := by
  rcases h with h | h
  · rcases List.mem_cons.1 h with rfl | h
    · exact .inr htop
    · exact .inl h
  · exact .inr (hmono target h)

/-- The record that resolves the target is its record. -/
theorem record_resolved {top : ObjectId} {record r : CommitGraphRecord} {result : Option CommitGraphRecord}
    (hrec : commits.IsRecord top record) (h : ∀ r, result = some r → commits.IsRecord target r)
    (hr : (if top = target then some record else result) = some r) : commits.IsRecord target r := by
  split at hr
  · rename_i heq
    cases hr
    rw [← heq]
    exact hrec
  · exact h r hr

theorem result_resolved {top : ObjectId} {record : CommitGraphRecord} {result : Option CommitGraphRecord}
    {generations : SortedMap ObjectId UInt32} {g : UInt32} (h : Resolved generations target → result.isSome)
    (hx : Resolved (generations.insert top g) target) : (if top = target then some record else result).isSome := by
  split
  · rfl
  · rename_i hne
    exact h (hx.of_insert (Ne.symm hne))

section Backfill

variable (hdb : Intact E db₀) (hcm : E.commitAt db₀ = commits) (hsane : Sane E commits A db₀)
  (hmiss : db₀.graph target = none)

include hdb hcm hsane hmiss

/-- One turn of a backfill. It fails at an id that is not a commit, or whose record
cannot be read. -/
theorem backfill_turn (hparent : ∀ x p, A x → db₀.graph x = none → commits.Parent x p → A p) {s : Backfill}
    {top : ObjectId} {rest : List ObjectId} (h : Backfill.Inv E commits A target db₀ s db) (hs : s.stack = top :: rest) :
    Prog.Fails Db.handler (backfillStep E target)
      (fun e db' => Blocked E commits A e ∧ GraphGrows E commits db₀ db') (s, db) ∨
    ∃ s' db', Prog.Turn Db.handler (backfillStep E target) (s, db) (s', db') ∧
      Backfill.Inv E commits A target db₀ s' db' ∧
      (∀ x, Resolved s.generations x → Resolved s'.generations x) ∧
      ((s'.stack = rest ∧ Resolved s'.generations top) ∨
        ∃ missing, s'.stack = missing ++ top :: rest ∧ missing ≠ [] ∧
          ∀ x, x ∈ missing ↔ commits.Parent top x ∧ ¬ Resolved s.generations x) := by
  have hknows := h.knows
  have htarget := h.target
  rw [hs] at hknows htarget
  have htop : A top := hknows.stack top (by simp)
  unfold Prog.Fails Prog.Turn backfillStep
  simp only [hs]
  by_cases hres : Resolved s.generations top
  · simp only [show (s.generations.get top).isSome = true from hres, if_true]
    refine .inr ⟨_, db, rfl, { h with knows := hknows.pop, target := ?_ }, fun x hx => hx, .inl ⟨rfl, hres⟩⟩
    exact target_popped htarget hres fun x hx => hx
  · simp only [show (s.generations.get top).isSome = false from by simpa [Resolved] using hres,
      Bool.false_eq_true, if_false]
    have huntouched := h.untouched top hres
    have hgraph : E.graphAt db top = E.graphAt db₀ top := by simp only [Env.graphAt, huntouched]
    rw [Prog.run_bind, run_getCommitGraph_mapErr, hgraph]
    rcases hsane.graphAt htop with ⟨hnone, hg⟩ | ⟨hsome, ⟨⟨r, hg, hr⟩, -⟩ | ⟨⟨e, hg⟩, hread⟩⟩
    · -- no record: parse the commit
      have hcm' : E.commitAt db = commits := by rw [← hcm]; exact funext h.grows.commitAt
      cases hc : commits top with
      | none =>
        obtain ⟨e, habout, hfail⟩ := hknows.run_parsedCommit_none (h.grows.intact hdb) hcm' hc
        refine .inl ⟨e, db, ?_, ⟨top, htop, .inl ⟨hc, habout⟩⟩, h.grows⟩
        simp only [hg, Except.mapError, Prog.run_bind, hfail]
      | some commit =>
      obtain ⟨parsed', hparse, hknows'⟩ := hknows.run_parsedCommit (h.grows.intact hdb) hcm' hc
      simp only [hg, Except.mapError, Prog.run_bind, hparse]
      by_cases hm : (missingParents s.generations commit.parents).isEmpty = true
      · simp only [hm, if_true]
        have hrec : commits.IsRecord top ⟨nextGeneration s.generations commit.parents, commit.tree, commit.parents⟩ :=
          ⟨commit, hc, hknows.isGen_next hc hm, rfl, rfl⟩
        refine .inr ⟨_, _, rfl, ⟨hknows'.resolve hrec.choose_spec.2.1,
          h.grows.put (huntouched.trans hnone) hrec, fun x hx => ?_, fun x hx => ?_, fun r => record_resolved hrec h.record,
          fun hx => ?_, target_popped htarget (resolved_insert_self _ _ _) fun x hx => hx.insert _⟩,
          fun x hx => hx.insert _, .inl ⟨rfl, resolved_insert_self _ _ _⟩⟩
        · have hne : x ≠ top := by
            rintro rfl
            exact hx (resolved_insert_self _ _ _)
          exact (Function.update_of_ne hne _ _).trans (h.untouched x fun hx' => hx (hx'.insert _))
        · change (Function.update db.graph top (some _) x).isSome = true
          by_cases hxt : x = top
          · simp [hxt]
          · rw [Function.update_of_ne hxt]
            refine h.stored x ?_
            exact hx.of_insert hxt
        · exact Option.isSome_iff_exists.1
            (result_resolved (fun hx => Option.isSome_iff_exists.2 (h.result hx)) hx)
      · simp only [show (missingParents s.generations commit.parents).isEmpty = false from by simpa using hm,
          Bool.false_eq_true, if_false]
        have hpush := hknows'.push (fun p => hparent top p htop hnone) hc
        refine .inr ⟨_, db, rfl, { h with knows := hs ▸ hpush, target := ?_ }, fun x hx => hx,
          .inr ⟨_, rfl, ?_, fun x => Knows.mem_missing hc⟩⟩
        · rcases htarget with ht | ht
          · exact .inl (List.mem_append_right _ ht)
          · exact .inr ht
        · simpa using hm
    · -- a record from before: never the target's
      simp only [hg, Except.mapError]
      obtain ⟨commit', hc', hgen, -⟩ := hr
      refine .inr ⟨_, db, rfl, ⟨hknows.resolve hgen, h.grows, fun x hx => h.untouched x fun hx' => hx (hx'.insert _),
        fun x hx => ?_, h.record, fun hx => h.result ?_,
        target_popped htarget (resolved_insert_self _ _ _) fun x hx => hx.insert _⟩,
        fun x hx => hx.insert _, .inl ⟨rfl, resolved_insert_self _ _ _⟩⟩
      · by_cases hxt : x = top
        · rw [hxt, huntouched]
          exact hsome
        · refine h.stored x ?_
          exact hx.of_insert hxt
      have hne : target ≠ top := by
        rintro rfl
        simp [hmiss] at hsome
      exact hx.of_insert hne
    · exact .inl ⟨.store e, db, by simp only [hg, Except.mapError], ⟨top, htop, .inr ⟨hread, rfl⟩⟩, h.grows⟩

omit hdb hcm hsane hmiss in
theorem Backfill.Inv.start (ht : A target) : Backfill.Inv E commits A target db₀
    { stack := [target], parsed := .empty, generations := .empty, result := none } db₀ := by
  refine ⟨⟨fun x hx => ?_, by simp, by simp⟩, .refl db₀, fun _ _ => rfl, fun x hx => ?_, by simp, fun h => ?_,
    .inl (by simp)⟩
  · rw [List.mem_singleton.1 hx]
    exact ht
  · simp [Resolved] at hx
  · simp [Resolved] at h

/-- A backfill of an id that has no record. -/
theorem run_backfillCommitInfo (hA : LookupRange E commits A db₀) (ht : A target) :
    ∃ N r db', (match r with
        | .ok r => commits.IsRecord target r ∧ (db'.graph target).isSome
        | .error _ => Obstructed E commits A) ∧ GraphGrows E commits db₀ db' ∧
      ∀ fuel ≥ N, (backfillCommitInfo E fuel target).run Db.handler db₀ = some (r, db') := by
  have hr : Prog.Resolver Db.handler (backfillStep E target) commits.Parent (·.stack)
      (fun s x => Resolved s.generations x) (Backfill.Inv E commits A target db₀)
      (fun e db' => Blocked E commits A e ∧ GraphGrows E commits db₀ db') :=
    ⟨fun s db h x hx => hA.acc x (h.knows.stack x hx),
      fun s db top rest h hs => backfill_turn hdb hcm hsane hmiss hA.parent h hs⟩
  obtain ⟨N, result, db', hq, hN⟩ := hr.loop_total
    (Q := fun result db' => ∃ r, result = some r ∧ (commits.IsRecord target r ∧ (db'.graph target).isSome) ∧
      GraphGrows E commits db₀ db')
    (fun s db h hs => by
      have hres : Resolved s.generations target := h.target.resolve_left (by simp [hs])
      obtain ⟨r, hr⟩ := h.result hres
      exact ⟨some r, db, by simp [backfillStep, hs, hr], r, rfl, ⟨h.record r hr, h.stored _ hres⟩, h.grows⟩) (.start ht)
  cases result with
  | ok result =>
    obtain ⟨r, rfl, hrec, hgrows⟩ := hq
    refine ⟨N, .ok r, db', hrec, hgrows, fun fuel hfuel => ?_⟩
    rw [backfillCommitInfo, Prog.run_bind_ok (hN fuel hfuel)]
    rfl
  | error e => exact ⟨N, .error e, db', hq.1.obstructed, hq.2, fun fuel hfuel => Prog.run_bind_error (hN fuel hfuel)⟩

end Backfill

/-- Asking for a record ends. It gives the record of a commit, or fails where
something in its ancestry is in the way, and leaves records added at most. -/
theorem run_getCommitInfo (hA : LookupRange E commits A db) (hdb : Intact E db) (hcm : E.commitAt db = commits)
    (hsane : Sane E commits A db) {c : ObjectId} (hc : A c) :
    ∃ N r db', (match r with
        | .ok r => commits.IsRecord c r ∧ (db'.graph c).isSome ∧ ((db.graph c).isSome → E.Readable commits c)
        | .error _ => Obstructed E commits A) ∧ GraphGrows E commits db db' ∧
      ∀ fuel ≥ N, (getCommitInfo E fuel c).run Db.handler db = some (r, db') := by
  rcases hsane.graphAt hc with ⟨hnone, hg⟩ | ⟨hsome, ⟨⟨r, hg, hr⟩, hread⟩ | ⟨⟨e, hg⟩, hread⟩⟩
  · obtain ⟨N, r, db', hr, hgrows, hN⟩ := run_backfillCommitInfo hdb hcm hsane hnone hA hc
    refine ⟨N, r, db', ?_, hgrows, fun fuel hfuel => ?_⟩
    · cases r with
      | ok r => exact ⟨hr.1, hr.2, fun h => by simp [hnone] at h⟩
      | error e => exact hr
    · rw [getCommitInfo, Prog.run_bind, run_getCommitGraph_mapErr, hg]
      exact hN fuel hfuel
  · refine ⟨0, .ok r, db, ⟨hr, hsome, fun _ => hread⟩, .refl db, fun fuel _ => ?_⟩
    rw [getCommitInfo, Prog.run_bind, run_getCommitGraph_mapErr, hg]
    rfl
  · refine ⟨0, .error (.store e), db, ⟨c, hc, .inr hread⟩, .refl db, fun fuel _ => ?_⟩
    rw [getCommitInfo, Prog.run_bind, run_getCommitGraph_mapErr, hg]
    rfl

end Walker

/-! ## Promotion, phase 3 -/

namespace Promote

variable {commits : Commits} {A : ObjectId → Prop}

theorem run_maxParentGeneration :
    ∀ (parents : List ObjectId) (greatest : UInt32) (db : E.Db), LookupRange E commits A db → Intact E db →
      E.commitAt db = commits → Sane E commits A db → (∀ p ∈ parents, A p) →
      ∃ N r db', (match r with
          | .ok g => (∀ p ∈ parents, (∃ g, commits.IsGen p g) ∧ ((db.graph p).isSome → E.Readable commits p)) ∧
            ∀ gens : ObjectId → UInt32, (∀ p ∈ parents, commits.IsGen p (gens p)) →
              g = (parents.map gens).foldl max greatest
          | .error _ => Obstructed E commits A) ∧ Recorded E commits db db' ∧
        ∀ fuel ≥ N, (maxParentGeneration E fuel parents greatest).run Db.handler db = some (r, db')
  | [], greatest, db, _, _, _, _, _ =>
    ⟨0, .ok greatest, db, ⟨fun _ hp => absurd hp List.not_mem_nil, fun _ _ => rfl⟩, .refl db, fun _ _ => rfl⟩
  | parent :: parents, greatest, db, hA, hdb, hcm, hsane, hp => by
    obtain ⟨N₁, r, db₁, hr, hgrows, hN₁⟩ := Walker.run_getCommitInfo hA hdb hcm hsane (hp parent (by simp))
    have hrec := hgrows.toRecorded
    cases r with
    | error e => exact ⟨N₁, .error e, db₁, hr, hrec, fun fuel hfuel => Prog.run_bind_error (hN₁ fuel hfuel)⟩
    | ok r =>
      obtain ⟨⟨-, -, hgen, -⟩, -, hread⟩ := hr
      obtain ⟨N₂, r₂, db₂, hr₂, hrec₂, hN₂⟩ := run_maxParentGeneration parents (max greatest r.generation) db₁
        (hA.recorded hrec) (hrec.intact hdb) (by rw [← hcm]; exact funext hrec.commitAt) (hrec.sane hA.honest hsane)
        fun p hp' => hp p (by simp [hp'])
      refine ⟨max N₁ N₂, r₂, db₂, ?_, hrec.trans hrec₂, fun fuel hfuel => ?_⟩
      · cases r₂ with
        | error e => exact hr₂
        | ok g =>
          refine ⟨fun p hp' => ?_, fun gens hgens => ?_⟩
          · rcases List.mem_cons.1 hp' with rfl | hp'
            · exact ⟨⟨_, hgen⟩, hread⟩
            · exact ⟨(hr₂.1 p hp').1, fun h => (hr₂.1 p hp').2 (hrec.kept p h)⟩
          · rw [hr₂.2 gens fun p hp' => hgens p (by simp [hp']), List.map_cons, List.foldl_cons,
              hgen.unique (hgens parent (by simp))]
      · rw [maxParentGeneration, Prog.run_bind_ok (hN₁ fuel (by omega))]
        exact hN₂ fuel (by omega)

/-- Phase 3 for one commit. -/
theorem run_extendGraph {db : E.Db} (hA : LookupRange E commits A db) (hdb : Intact E db) (hcm : E.commitAt db = commits)
    (hsane : Sane E commits A db) {oid : ObjectId} {body : Bytes} (hobj : E.objectAt db oid = some (.commit, body))
    (hsome : (commits oid).isSome) (ha : ∀ p, commits.Parent oid p → A p) :
    ∃ N r db', (match r with
        | .ok () => ((∃ g, commits.IsGen oid g) ∧ (db'.graph oid).isSome) ∧
          ∀ p, commits.Parent oid p → (db.graph p).isSome → E.Readable commits p
        | .error _ => Obstructed E commits A) ∧ Recorded E commits db db' ∧
      ∀ fuel ≥ N, (extendGraph E fuel oid body).run Db.handler db = some (r, db') := by
  obtain ⟨commit, hc⟩ := Option.isSome_iff_exists.1 hsome
  have hparse : E.gix.commitFromBytes body oid.kind = some commit := by
    rw [← hcm] at hc
    obtain ⟨body', hobj', hparse⟩ := commitAt_eq_some.1 hc
    cases hobj.symm.trans hobj'
    exact hparse
  obtain ⟨N, r, db₁, hr, hrec, hN⟩ := run_maxParentGeneration commit.parents 0 db hA hdb hcm hsane
    fun p hp => ha p ⟨commit, hc, hp⟩
  have hrun : ∀ fuel ≥ N, ((maxParentGeneration E fuel commit.parents 0).mapErr PromoteError.walk).run Db.handler db =
      some (r.mapError PromoteError.walk, db₁) := by
    intro fuel hfuel
    rw [Prog.run_mapErr, hN fuel hfuel]
    rfl
  cases r with
  | error e =>
    refine ⟨N, .error (.walk e), db₁, hr, hrec, fun fuel hfuel => ?_⟩
    simp only [extendGraph, hparse]
    exact Prog.run_bind_error (hrun fuel hfuel)
  | ok greatest =>
    obtain ⟨hparents, hfold⟩ := hr
    choose! gens hgens using fun p hp => (hparents p hp).1
    have hgen : commits.IsGen oid (greatest + 1) := by
      rw [hfold gens hgens, UInt32.add_comm]
      exact .intro gens hc hgens
    have hput : Recorded E commits db₁ _ := .put (x := oid) (r := ⟨greatest + 1, commit.tree, commit.parents⟩)
      ⟨commit, hc, hgen, rfl, rfl⟩
    refine ⟨N, .ok (), _, ⟨⟨⟨_, hgen⟩, by simp [Db.apply]⟩, fun p hp => ?_⟩, hrec.trans hput, fun fuel hfuel => ?_⟩
    · obtain ⟨commit', hc', hp⟩ := hp
      cases hc.symm.trans hc'
      exact (hparents p hp).2
    · simp only [extendGraph, hparse]
      rw [Prog.run_bind_ok (hrun fuel hfuel)]
      rfl

/-- Phase 3 ends. It gives every commit listed its record, or fails where
something in their ancestry is in the way. -/
theorem run_extendGraphAll :
    ∀ (l : List (ObjectId × Kind × Bytes)) (db : E.Db), LookupRange E commits A db → Intact E db → E.commitAt db = commits →
      Sane E commits A db → (∀ e ∈ l, E.objectAt db e.1 = some (.commit, e.2.2) ∧ (commits e.1).isSome ∧
        ∀ p, commits.Parent e.1 p → A p) →
      ∃ N r db', (match r with
          | .ok () => (∀ e ∈ l, (∃ g, commits.IsGen e.1 g) ∧ (db'.graph e.1).isSome) ∧
            ∀ pre e post, l = pre ++ e :: post → ∀ p, commits.Parent e.1 p →
              (p ∈ ids pre ∨ (db.graph p).isSome) → E.Readable commits p
          | .error _ => Obstructed E commits A) ∧ Recorded E commits db db' ∧
        ∀ fuel ≥ N, (extendGraphAll E fuel l).run Db.handler db = some (r, db')
  | [], db, _, _, _, _, _ =>
    ⟨0, .ok (), db, ⟨fun _ he => absurd he List.not_mem_nil, fun pre e post h => by simp at h⟩, .refl db,
      fun _ _ => rfl⟩
  | (oid, kind, body) :: rest, db, hA, hdb, hcm, hsane, hl => by
    obtain ⟨hobj, hsome, hpar⟩ := hl (oid, kind, body) (by simp)
    obtain ⟨N₁, r, db₁, hr, hrec, hN₁⟩ := run_extendGraph hA hdb hcm hsane hobj hsome hpar
    cases r with
    | error e => exact ⟨N₁, .error e, db₁, hr, hrec, fun fuel hfuel => Prog.run_bind_error (hN₁ fuel hfuel)⟩
    | ok u =>
      obtain ⟨N₂, r₂, db₂, hr₂, hrec₂, hN₂⟩ := run_extendGraphAll rest db₁ (hA.recorded hrec) (hrec.intact hdb)
        (by rw [← hcm]; exact funext hrec.commitAt) (hrec.sane hA.honest hsane) fun e he => by
          obtain ⟨ho, hs, hp⟩ := hl e (by simp [he])
          exact ⟨(hrec.objectAt e.1).trans ho, hs, hp⟩
      refine ⟨max N₁ N₂, r₂, db₂, ?_, hrec.trans hrec₂, fun fuel hfuel => ?_⟩
      · cases r₂ with
        | error e => exact hr₂
        | ok u =>
          obtain ⟨⟨hgen, hstored⟩, hparents⟩ := hr
          refine ⟨fun e he => ?_, fun pre e post heq p hp hknown => ?_⟩
          · rcases List.mem_cons.1 he with rfl | he
            · exact ⟨hgen, hrec₂.kept _ hstored⟩
            · exact hr₂.1 e he
          · cases pre with
            | nil =>
              cases heq
              exact hparents p hp (hknown.resolve_left (by simp))
            | cons e' pre =>
              cases heq
              -- a record of the head, or from before, is there by now
              refine hr₂.2 pre e post rfl p hp ?_
              rcases hknown with hknown | hknown
              · rcases List.mem_cons.1 hknown with rfl | hpre
                · exact .inr hstored
                · exact .inl hpre
              · exact .inr (hrec.kept p hknown)
      · rw [extendGraphAll, Prog.run_bind_ok (hN₁ fuel (by omega))]
        exact hN₂ fuel (by omega)

end Promote

/-! ## The rebuild -/

namespace Walker

/-- The state of a rebuild that started from `db₀`, whose records may be
anything: those of the resolved commits are right, the others untouched. -/
structure Rebuild.Inv (E : Env) (commits : Commits) (A : ObjectId → Prop) (db₀ : E.Db) (s : Rebuild) (db : E.Db) :
    Prop extends SameObjects db₀ db where
  knows : Knows commits A s.stack s.parsed s.generations
  written : ∀ x, Resolved s.generations x → ∃ r, commits.IsRecord x r ∧ db.graph x = some (E.codec.encode r)
  untouched : ∀ x, ¬ Resolved s.generations x → db.graph x = db₀.graph x
  closed : ∀ x p, Resolved s.generations x → commits.Parent x p → Resolved s.generations p

variable {commits : Commits} {A : ObjectId → Prop} {db₀ db : E.Db}

section Rebuild

variable (hA : Ancestry E commits A) (hall : ∀ x, A x → (commits x).isSome) (hdb : Intact E db₀)
  (hcm : E.commitAt db₀ = commits)

include hA hall hdb hcm

/-- One turn of a rebuild. -/
theorem rebuild_turn {s : Rebuild} {top : ObjectId} {rest : List ObjectId}
    (h : Rebuild.Inv E commits A db₀ s db) (hs : s.stack = top :: rest) :
    ∃ s' db', Prog.Turn Db.handler (rebuildStep E) (s, db) (s', db') ∧
      Rebuild.Inv E commits A db₀ s' db' ∧
      (∀ x, Resolved s.generations x → Resolved s'.generations x) ∧
      ((s'.stack = rest ∧ Resolved s'.generations top) ∨
        ∃ missing, s'.stack = missing ++ top :: rest ∧ missing ≠ [] ∧
          ∀ x, x ∈ missing ↔ commits.Parent top x ∧ ¬ Resolved s.generations x) := by
  have hknows := h.knows
  rw [hs] at hknows
  unfold Prog.Turn rebuildStep
  simp only [hs]
  by_cases hres : Resolved s.generations top
  · simp only [show (s.generations.get top).isSome = true from hres, if_true]
    exact ⟨_, db, rfl, { h with knows := hknows.pop }, fun x hx => hx, .inl ⟨rfl, hres⟩⟩
  · simp only [show (s.generations.get top).isSome = false from by simpa [Resolved] using hres,
      Bool.false_eq_true, if_false]
    obtain ⟨commit, hc⟩ := Option.isSome_iff_exists.1 (hall top (hknows.stack top (by simp)))
    obtain ⟨parsed', hparse, hknows'⟩ := hknows.run_parsedCommit (h.intact hdb)
      (by rw [← hcm]; exact funext h.commitAt) hc
    simp only [Prog.run_bind, hparse]
    by_cases hm : (missingParents s.generations commit.parents).isEmpty = true
    · simp only [hm, if_true]
      have hrec : commits.IsRecord top ⟨nextGeneration s.generations commit.parents, commit.tree, commit.parents⟩ :=
        ⟨commit, hc, hknows.isGen_next hc hm, rfl, rfl⟩
      have hother : ∀ x, x ≠ top → Resolved (s.generations.insert top (nextGeneration s.generations commit.parents)) x →
          Resolved s.generations x := by
        intro x hne hx
        exact hx.of_insert hne
      refine ⟨_, _, rfl, { h.toSameObjects.trans ⟨⟨rfl, rfl⟩, rfl⟩ with
        knows := hknows'.resolve hrec.choose_spec.2.1
        written := fun x hx => ?_
        untouched := fun x hx => ?_
        closed := fun x p hx hp => ?_ }, fun x hx => hx.insert _, .inl ⟨rfl, resolved_insert_self _ _ _⟩⟩
      · by_cases hxt : x = top
        · subst hxt
          exact ⟨_, hrec, Function.update_self _ _ _⟩
        · obtain ⟨r, hr, hv⟩ := h.written x (hother x hxt hx)
          exact ⟨r, hr, (Function.update_of_ne hxt _ _).trans hv⟩
      · have hne : x ≠ top := by
          rintro rfl
          exact hx (resolved_insert_self _ _ _)
        exact (Function.update_of_ne hne _ _).trans (h.untouched x fun hx' => hx (hx'.insert _))
      · by_cases hxt : x = top
        · subst hxt
          by_contra hp'
          have hmem := (Knows.mem_missing hc).2 ⟨hp, fun hres' => hp' (Resolved.insert _ hres')⟩
          rw [List.isEmpty_iff.1 hm] at hmem
          simp at hmem
        · exact (h.closed x p (hother x hxt hx) hp).insert _
    · simp only [show (missingParents s.generations commit.parents).isEmpty = false from by simpa using hm,
        Bool.false_eq_true, if_false]
      refine ⟨_, db, rfl, { h with knows := hs ▸ hknows'.push (fun p => hA.parent top p (hknows.stack top (by simp))) hc }, fun x hx => hx,
        .inr ⟨_, rfl, by simpa using hm, fun x => Knows.mem_missing hc⟩⟩

/-- The traversal from one root. -/
theorem run_rebuildLoop {s : Rebuild} {root : ObjectId} (h : Rebuild.Inv E commits A db₀ { s with stack := [] } db)
    (hroot : A root) :
    ∃ N s' db', (Rebuild.Inv E commits A db₀ { s' with stack := [] } db' ∧
        (∀ x, Resolved s.generations x → Resolved s'.generations x) ∧ Resolved s'.generations root) ∧
      ∀ fuel ≥ N, (Prog.loop (rebuildStep E) fuel { s with stack := [root] }).run Db.handler db =
        some (.ok s', db') := by
  have hr : Prog.Resolver Db.handler (rebuildStep E) commits.Parent (·.stack)
      (fun s x => Resolved s.generations x)
      (fun s' db' => Rebuild.Inv E commits A db₀ s' db' ∧
        (∀ x, Resolved s.generations x → Resolved s'.generations x) ∧
          (root ∈ s'.stack ∨ Resolved s'.generations root)) (fun _ _ => False) := by
    refine ⟨fun s db h x hx => hA.acc x (h.1.knows.stack x hx), fun s₁ db₁ top rest h hs => .inr ?_⟩
    obtain ⟨s₂, db₂, hturn, hinv, hmono, hpop⟩ := rebuild_turn hA hall hdb hcm h.1 hs
    refine ⟨s₂, db₂, hturn, ⟨hinv, fun x hx => hmono x (h.2.1 x hx), ?_⟩, hmono, hpop⟩
    have hroot := h.2.2
    rw [hs] at hroot
    rcases hpop with ⟨hrest, htop⟩ | ⟨missing, hrest, -⟩
    · rw [hrest]
      exact target_popped hroot htop hmono
    · rw [hrest]
      exact hroot.imp (List.mem_append_right _) (hmono root)
  have hstart : Rebuild.Inv E commits A db₀ { s with stack := [root] } db :=
    { h with knows := { h.knows with stack := fun x hx => by rw [List.mem_singleton.1 hx]; exact hroot } }
  obtain ⟨N, r, db', hq, hN⟩ := hr.loop_total
    (Q := fun s' db' => Rebuild.Inv E commits A db₀ { s' with stack := [] } db' ∧
      (∀ x, Resolved s.generations x → Resolved s'.generations x) ∧ Resolved s'.generations root)
    (fun s' db' h hs => ⟨s', db', by simp [rebuildStep, hs],
      { h.1 with knows := { h.1.knows with stack := by simp } }, h.2.1, h.2.2.resolve_left (by simp [hs])⟩)
    ⟨hstart, fun x hx => hx, .inl (by simp)⟩
  cases r with
  | ok s' => exact ⟨N, s', db', hq, hN⟩
  | error e => exact hq.elim

theorem run_rebuildRoots : ∀ (roots : List ObjectId) (s : Rebuild) (db : E.Db), (∀ x ∈ roots, A x) →
    Rebuild.Inv E commits A db₀ { s with stack := [] } db →
    ∃ N s' db', (Rebuild.Inv E commits A db₀ { s' with stack := [] } db' ∧
        (∀ x, Resolved s.generations x → Resolved s'.generations x) ∧ ∀ x ∈ roots, Resolved s'.generations x) ∧
      ∀ fuel ≥ N, (rebuildRoots E fuel roots s).run Db.handler db = some (.ok s', db')
  | [], s, db, _, h => ⟨0, s, db, ⟨h, fun _ hx => hx, by simp⟩, fun _ _ => rfl⟩
  | root :: roots, s, db, hroots, h => by
    by_cases hres : Resolved s.generations root
    · obtain ⟨N, s', db', ⟨hinv, hmono, hall⟩, hN⟩ :=
        run_rebuildRoots roots s db (fun x hx => hroots x (by simp [hx])) h
      refine ⟨N, s', db', ⟨hinv, hmono, fun x hx => ?_⟩, fun fuel hfuel => ?_⟩
      · rcases List.mem_cons.1 hx with rfl | hx
        · exact hmono x hres
        · exact hall x hx
      · rw [rebuildRoots, if_pos (by simpa [Resolved] using hres)]
        exact hN fuel hfuel
    · obtain ⟨N₁, s₁, db₁, ⟨hinv₁, hmono₁, hroot⟩, hN₁⟩ := run_rebuildLoop hA hall hdb hcm h (hroots root (by simp))
      obtain ⟨N₂, s₂, db₂, ⟨hinv₂, hmono₂, hall⟩, hN₂⟩ :=
        run_rebuildRoots roots s₁ db₁ (fun x hx => hroots x (by simp [hx])) hinv₁
      refine ⟨max N₁ N₂, s₂, db₂, ⟨hinv₂, fun x hx => hmono₂ x (hmono₁ x hx), fun x hx => ?_⟩, fun fuel hfuel => ?_⟩
      · rcases List.mem_cons.1 hx with rfl | hx
        · exact hmono₂ x hroot
        · exact hall x hx
      · rw [rebuildRoots, if_neg (by simpa [Resolved] using hres), Prog.run_bind_ok (hN₁ fuel (by omega))]
        exact hN₂ fuel (by omega)

end Rebuild

end Walker

/-- A ref's target leads to the object `oid` in fewer than `n` symbolic refs. -/
inductive RefResolves (refs : SortedMap String RefTarget) : Nat → RefTarget → ObjectId → Prop
  | direct {n : Nat} {oid : ObjectId} : RefResolves refs (n + 1) (.direct oid) oid
  | reference {n : Nat} {name : String} {next : RefTarget} {oid : ObjectId} (h : refs.get name = some next)
      (hr : RefResolves refs n next oid) : RefResolves refs (n + 1) (.reference name) oid

/-- `oid` leads to the commit `c` in fewer than `n` tags. -/
inductive PeelsWithin (E : Env) (db : E.Db) : Nat → ObjectId → ObjectId → Prop
  | commit {n : Nat} {oid : ObjectId} {body : Bytes} (h : E.objectAt db oid = some (.commit, body)) :
      PeelsWithin E db (n + 1) oid oid
  | tag {n : Nat} {oid c : ObjectId} {body : Bytes} {tag : TagRef} (h : E.objectAt db oid = some (.tag, body))
      (ht : E.gix.tagFromBytes body oid.kind = some tag) (hp : PeelsWithin E db n tag.target c) :
      PeelsWithin E db (n + 1) oid c

/-- `tip` is the commit of a ref that resolves within the caps of a
rebuild. -/
def RebuildTip (E : Env) (db : E.Db) (tip : ObjectId) : Prop :=
  ∃ entry ∈ db.refs.entries, ∃ oid, RefResolves db.refs MAX_REBUILD_SYMREF_DEPTH entry.2 oid ∧
    PeelsWithin E db MAX_REBUILD_TAG_PEEL_DEPTH oid tip

/-- `c` is reachable from the commit of such a ref. -/
def RebuildReach (E : Env) (db : E.Db) (c : ObjectId) : Prop := ∃ tip, RebuildTip E db tip ∧ E.Ancestor db c tip

theorem SameData.peelsWithin {db db' : E.Db} (h : SameData db db') {n : Nat} {oid c : ObjectId}
    (hp : PeelsWithin E db n oid c) : PeelsWithin E db' n oid c := by
  induction hp with
  | commit ho => exact .commit (by rwa [h.objectAt])
  | tag ho ht _ ih => exact .tag (by rwa [h.objectAt]) ht ih

theorem SameObjects.symm {V : Type} {db db' : Db V} (h : SameObjects db db') : SameObjects db' db :=
  ⟨⟨h.objects.symm, h.blobs.symm⟩, h.refs.symm⟩

theorem SameObjects.rebuildReach {db db' : E.Db} (h : SameObjects db db') : RebuildReach E db' = RebuildReach E db := by
  have hcm : E.commitAt db' = E.commitAt db := funext h.commitAt
  have hp : ∀ n oid c, PeelsWithin E db' n oid c ↔ PeelsWithin E db n oid c :=
    fun n oid c => ⟨h.symm.peelsWithin, h.peelsWithin⟩
  unfold RebuildReach RebuildTip Env.Ancestor Env.Parent
  simp only [hcm, hp, h.refs]

namespace Walker

variable {db : E.Db}

theorem run_followSymrefs {ε : Type} : ∀ (n : Nat) (target : RefTarget),
    ∃ o, (followSymrefs E n target : E.Prog ε _).run Db.handler db = some (.ok o, db) ∧
      ∀ oid, o = some oid ↔ RefResolves db.refs n target oid
  | 0, target => by
    refine ⟨none, rfl, fun oid => ⟨nofun, nofun⟩⟩
  | n + 1, .direct id => by
    refine ⟨some id, rfl, fun oid => ⟨fun h => ?_, fun h => ?_⟩⟩
    · cases h
      exact .direct
    · cases h
      rfl
  | n + 1, .reference name => by
    rw [followSymrefs, Prog.run_bind, run_getRef]
    simp only
    cases hr : db.refs.get name with
    | none =>
      refine ⟨none, rfl, fun oid => ⟨nofun, fun h => ?_⟩⟩
      cases h with
      | reference h _ => cases hr.symm.trans h
    | some next =>
      obtain ⟨o, hrun, ho⟩ := run_followSymrefs n next
      refine ⟨o, hrun, fun oid => (ho oid).trans ⟨fun h => .reference hr h, fun h => ?_⟩⟩
      cases h with
      | reference h hres =>
        cases hr.symm.trans h
        exact hres

theorem run_peelTip (hdb : Intact E db)
    (htags : ∀ t body, E.objectAt db t = some (.tag, body) → (E.gix.tagFromBytes body t.kind).isSome) :
    ∀ (n : Nat) (cursor : ObjectId), ∃ o, (peelTip E n cursor).run Db.handler db = some (.ok o, db) ∧
      ∀ c, o = some c ↔ PeelsWithin E db n cursor c
  | 0, cursor => by
    refine ⟨none, rfl, fun oid => ⟨nofun, nofun⟩⟩
  | n + 1, cursor => by
    rw [peelTip, Prog.run_bind, run_get_mapErr _ hdb]
    simp only
    have hnot : ∀ c, (∀ body, E.objectAt db cursor ≠ some (.commit, body)) →
        (∀ body, E.objectAt db cursor ≠ some (.tag, body)) → ¬ PeelsWithin E db (n + 1) cursor c := by
      intro c hcommit htag h
      cases h with
      | commit h => exact hcommit _ h
      | tag h _ _ => exact htag _ h
    match ho : E.objectAt db cursor with
    | none => exact ⟨none, rfl, fun c => ⟨nofun, fun h => absurd h (hnot c (by simp [ho]) (by simp [ho]))⟩⟩
    | some (.commit, body) =>
      refine ⟨some cursor, rfl, fun c => ⟨fun h => ?_, fun h => ?_⟩⟩
      · cases h
        exact .commit ho
      · cases h with
        | commit _ => rfl
        | tag h _ _ => cases ho.symm.trans h
    | some (.tag, body) =>
      obtain ⟨tag, ht⟩ := Option.isSome_iff_exists.1 (htags cursor body ho)
      obtain ⟨o, hrun, hpeel⟩ := run_peelTip hdb htags n tag.target
      refine ⟨o, by simpa [ht] using hrun, fun c => (hpeel c).trans ⟨fun h => .tag ho ht h, fun h => ?_⟩⟩
      cases h with
      | commit h => cases ho.symm.trans h
      | tag h ht' hp =>
        cases ho.symm.trans h
        cases ht.symm.trans ht'
        exact hp
    | some (.blob, body) =>
      exact ⟨none, rfl, fun c => ⟨nofun, fun h => absurd h (hnot c (by simp [ho]) (by simp [ho]))⟩⟩
    | some (.tree, body) =>
      exact ⟨none, rfl, fun c => ⟨nofun, fun h => absurd h (hnot c (by simp [ho]) (by simp [ho]))⟩⟩

theorem run_resolveCommitTip (hdb : Intact E db)
    (htags : ∀ t body, E.objectAt db t = some (.tag, body) → (E.gix.tagFromBytes body t.kind).isSome)
    (target : RefTarget) :
    ∃ o, (resolveCommitTip E target).run Db.handler db = some (.ok o, db) ∧
      ∀ c, o = some c ↔ ∃ oid, RefResolves db.refs MAX_REBUILD_SYMREF_DEPTH target oid ∧
        PeelsWithin E db MAX_REBUILD_TAG_PEEL_DEPTH oid c := by
  obtain ⟨o, hrun, ho⟩ := run_followSymrefs (E := E) (ε := WalkError) MAX_REBUILD_SYMREF_DEPTH target
  rw [resolveCommitTip, Prog.run_bind_ok hrun]
  cases o with
  | none =>
    refine ⟨none, rfl, fun c => ⟨nofun, fun h => ?_⟩⟩
    obtain ⟨oid, hres, -⟩ := h
    cases (ho oid).2 hres
  | some oid =>
    obtain ⟨o, hpeel, hc⟩ := run_peelTip hdb htags MAX_REBUILD_TAG_PEEL_DEPTH oid
    refine ⟨o, hpeel, fun c => (hc c).trans ⟨fun h => ⟨oid, (ho oid).1 rfl, h⟩, fun h => ?_⟩⟩
    obtain ⟨oid', hres, hp⟩ := h
    cases (ho oid').2 hres
    exact hp

/-- A map has as many entries as keys. -/
theorem length_entries (m : SortedMap ObjectId UInt32) : m.entries.length = {x | Resolved m x}.ncard := by
  have hnodup : (m.entries.map (·.1)).Nodup :=
    List.pairwise_map.2 (m.sorted.imp fun h => ne_of_lt h)
  have hset : {x | Resolved m x} = ((m.entries.map (·.1)).toFinset : Set ObjectId) := by
    ext x
    simp only [Set.mem_ofPred_eq, Resolved, Option.isSome_iff_exists, List.coe_toFinset, List.mem_map, Prod.exists,
      exists_and_right, exists_eq_right, SortedMap.mem_entries]
  rw [hset, Set.ncard_coe_finset, List.toFinset_card_of_nodup hnodup, List.length_map]

/-- A rebuild, whatever the stored records were. -/
theorem run_rebuildCommitGraph (hdb : Intact E db)
    (htags : ∀ t body, E.objectAt db t = some (.tag, body) → (E.gix.tagFromBytes body t.kind).isSome)
    (hA : Ancestry E (E.commitAt db) (RebuildReach E db))
    (hsome : ∀ c, RebuildReach E db c → (E.commitAt db c).isSome) :
    ∃ N n db', (SameObjects db db' ∧
        (∀ c, RebuildReach E db c → ∃ r, Commits.IsRecord (E.commitAt db) c r ∧
          db'.graph c = some (E.codec.encode r)) ∧
        (∀ c, ¬ RebuildReach E db c → db'.graph c = db.graph c) ∧ n = {c | RebuildReach E db c}.ncard) ∧
      ∀ fuel ≥ N, (rebuildCommitGraph E fuel).run Db.handler db = some (.ok n, db') := by
  have htip : ∀ entry : String × RefTarget, ∃ o, (resolveCommitTip E entry.2).run Db.handler db = some (.ok o, db) ∧
      ∀ c, o = some c ↔ ∃ oid, RefResolves db.refs MAX_REBUILD_SYMREF_DEPTH entry.2 oid ∧
        PeelsWithin E db MAX_REBUILD_TAG_PEEL_DEPTH oid c :=
    fun entry => run_resolveCommitTip hdb htags entry.2
  choose tip hrun htip using htip
  have htips : (Prog.forEach (fun entry : String × RefTarget => resolveCommitTip E entry.2) db.refs.entries).run
      Db.handler db = some (.ok (db.refs.entries.map tip), db) := Prog.run_forEach fun entry _ => hrun entry
  have hroots : ∀ c, c ∈ (db.refs.entries.map tip).filterMap id ↔ RebuildTip E db c := by
    intro c
    simp only [List.mem_filterMap, List.mem_map, id, exists_eq_right, htip, RebuildTip]
  have hstart : Rebuild.Inv E (E.commitAt db) (RebuildReach E db) db
      { stack := [], parsed := .empty, generations := .empty } db :=
    { SameObjects.refl db with
      knows := ⟨by simp, by simp, by simp⟩
      written := fun x hx => by simp [Resolved] at hx
      untouched := fun _ _ => rfl
      closed := fun x p hx => by simp [Resolved] at hx }
  obtain ⟨N, s, db', ⟨hinv, -, hall⟩, hN⟩ := run_rebuildRoots hA hsome hdb rfl ((db.refs.entries.map tip).filterMap id)
    { stack := [], parsed := .empty, generations := .empty } db (fun x hx => ⟨x, (hroots x).1 hx, .refl⟩) hstart
  have hres : ∀ c, Resolved s.generations c ↔ RebuildReach E db c := by
    intro c
    constructor
    · intro hc
      obtain ⟨g, hg⟩ := Option.isSome_iff_exists.1 hc
      exact (hinv.knows.generations c g hg).1
    · intro hc
      obtain ⟨t, ht, hanc⟩ := hc
      induction hanc with
      | refl => exact hall t ((hroots t).2 ht)
      | tail _ hp ih => exact hinv.closed _ _ ih hp
  refine ⟨N, s.generations.entries.length, db', ⟨hinv.toSameObjects, fun c hc => hinv.written c ((hres c).2 hc),
    fun c hc => hinv.untouched c fun hr => hc ((hres c).1 hr), ?_⟩, fun fuel hfuel => ?_⟩
  · rw [length_entries]
    simp only [hres]
  · rw [rebuildCommitGraph, Prog.run_bind_ok (run_listRefs db), Prog.run_bind_ok htips, Prog.run_bind_ok (hN fuel hfuel)]
    rfl

end Walker

end Miscreant
