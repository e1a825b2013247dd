/-
The states pushes lead to.

`Sound` is what every push keeps, whatever the pack holds: the objects are
intact, decode, and are closed under acyclic references. `WellTyped` is what
only a well-typed pack keeps: each reference leads to an object of the kind
its referrer declares (`Promote.objectRefs`). In a sound and well-typed state
every commit has a complete, acyclic ancestry, so the facts about
commit-graph records apply to it (`Sound.ancestry`).
-/
import Miscreant.GraphFacts
import Mathlib.Data.Finite.Defs

namespace Miscreant

open Lib

variable {E : Env}

/-! ## References and their kinds -/

namespace Promote

/-- The kind a tree entry says its object has; none for a gitlink. -/
def entryRef (entry : TreeEntryRef) : Option (ObjectId × Kind) :=
  match entry.mode with
  | .tree => some (entry.oid, .tree)
  | .commit => none
  | _ => some (entry.oid, .blob)

/-- The references of an object, each with the kind it declares. -/
def objectRefs (E : Env) (id : ObjectId) (kind : Kind) (body : Bytes) : Option (List (ObjectId × Kind)) :=
  match kind with
  | .blob => some []
  | .tree => (decoded (E.gix.treeEntries body id.kind)).map fun entries => entries.filterMap entryRef
  | .commit => (E.gix.commitFromBytes body id.kind).map fun commit =>
    (commit.tree, .tree) :: commit.parents.map (·, .commit)
  | .tag => (E.gix.tagFromBytes body id.kind).map fun tag => [(tag.target, tag.targetKind)]

theorem treeChildren_eq (entries : List (Option TreeEntryRef)) :
    treeChildren entries = (decoded entries).map fun entries => (entries.filterMap entryRef).map (·.1) := by
  induction entries with
  | nil => rfl
  | cons entry entries ih =>
    cases entry with
    | none => rfl
    | some entry =>
      rw [treeChildren, ih, decoded]
      cases decoded entries with
      | none => rfl
      | some rest => cases hm : entry.mode <;> simp [entryRef, hm]

/-- The references are the children. -/
theorem objectChildren_eq (id : ObjectId) (kind : Kind) (body : Bytes) :
    objectChildren E id kind body = (objectRefs E id kind body).map fun refs => refs.map (·.1) := by
  cases kind with
  | blob => rfl
  | tree => simp [objectChildren, objectRefs, treeChildren_eq, Option.map_map, Function.comp_def]
  | commit => simp [objectChildren, objectRefs, Option.map_map, Function.comp_def]
  | tag => simp [objectChildren, objectRefs, Option.map_map, Function.comp_def]

end Promote

/-- `x` refers to `y`, as an object of kind `k`. -/
def Env.Refers (E : Env) (db : E.Db) (x y : ObjectId) (k : Kind) : Prop :=
  ∃ kind body refs, E.objectAt db x = some (kind, body) ∧ Promote.objectRefs E x kind body = some refs ∧ (y, k) ∈ refs

/-- The staged object `x` refers to `y`, as an object of kind `k`. -/
def StagedPack.Refers (E : Env) (staged : StagedPack) (x y : ObjectId) (k : Kind) : Prop :=
  ∃ kind body refs, staged.read x = some (kind, body) ∧ Promote.objectRefs E x kind body = some refs ∧ (y, k) ∈ refs

theorem Env.Refers.child {db : E.Db} {x y : ObjectId} {k : Kind} (h : E.Refers db x y k) : E.Child db x y := by
  obtain ⟨kind, body, refs, ho, hr, hy⟩ := h
  refine ⟨kind, body, refs.map (·.1), ho, by rw [Promote.objectChildren_eq, hr]; rfl, ?_⟩
  exact List.mem_map_of_mem hy

/-- Every reference leads to an object of the kind it declares. -/
def WellTyped (E : Env) (db : E.Db) : Prop :=
  ∀ x y k, E.Refers db x y k → ∃ body, E.objectAt db y = some (k, body)

/-- The references of a pack's objects lead to objects of the kinds they
declare, in the pack or already in the store. -/
def StagedPack.TypedOver (E : Env) (staged : StagedPack) (db : E.Db) : Prop :=
  ∀ x y k, staged.Refers E x y k → ∀ kind body,
    E.objectAt db y = some (kind, body) ∨ (¬ Promote.Committed db y ∧ staged.read y = some (kind, body)) → kind = k

/-- The same of the references of the objects a push adds. -/
def StagedPack.TypedFor (E : Env) (staged : StagedPack) (db : E.Db) (tips : List ObjectId) : Prop :=
  ∀ x y k, Needed E staged (Promote.Committed db) tips x → ¬ Promote.Committed db x → staged.Refers E x y k →
    ∀ kind body, E.objectAt db y = some (kind, body) ∨
      (¬ Promote.Committed db y ∧ staged.read y = some (kind, body)) → kind = k

theorem StagedPack.TypedOver.typedFor {staged : StagedPack} {db : E.Db} (h : staged.TypedOver E db)
    (tips : List ObjectId) : staged.TypedFor E db tips := fun x y k _ _ hr => h x y k hr

/-! ## Sound states -/

/-- The objects of a store are intact, decode, and are closed under acyclic
references. -/
structure Sound (E : Env) (db : E.Db) : Prop extends Intact E db where
  decodes : ∀ x kind body, E.objectAt db x = some (kind, body) → (Promote.objectChildren E x kind body).isSome
  closed : Promote.Closed E db
  acyclic : ∀ x, ¬ Relation.TransGen (E.Child db) x x

theorem SameData.child_iff {db db' : E.Db} (h : SameData db db') {x y : ObjectId} :
    E.Child db' x y ↔ E.Child db x y := by
  simp only [Env.Child, h.objectAt]

theorem SameData.sound {db db' : E.Db} (h : SameData db db') (hs : Sound E db) : Sound E db' :=
  { h.intact hs.toIntact with
    decodes := fun x kind body ho => hs.decodes x kind body (by rwa [h.objectAt] at ho)
    closed := fun x y hxy => (h.committed y).2 (hs.closed x y (h.child_iff.1 hxy))
    acyclic := fun x hx => hs.acyclic x (Relation.TransGen.mono (fun _ _ => h.child_iff.1) _ _ hx) }

theorem SameData.wellTyped {db db' : E.Db} (h : SameData db db') (ht : WellTyped E db) : WellTyped E db' := by
  intro x y k hr
  rw [h.objectAt]
  refine ht x y k ?_
  simpa only [Env.Refers, h.objectAt] using hr

theorem sound_empty : Sound E (Db.empty : E.Db) where
  object oid h := by simp [Db.empty] at h
  size oid record kind body h := by simp [Db.empty] at h
  decodes x kind body h := by simp [Env.objectAt, Db.empty] at h
  closed x y h := by
    obtain ⟨kind, body, children, ho, -⟩ := h
    simp [Env.objectAt, Db.empty] at ho
  acyclic x h := by
    obtain ⟨y, hxy, -⟩ := Relation.TransGen.head'_iff.1 h
    obtain ⟨kind, body, children, ho, -⟩ := hxy
    simp [Env.objectAt, Db.empty] at ho

theorem wellTyped_empty : WellTyped E (Db.empty : E.Db) := by
  intro x y k h
  obtain ⟨kind, body, refs, ho, -⟩ := h
  simp [Env.objectAt, Db.empty] at ho

namespace Promote

section Stored

variable {staged : StagedPack} {tips : List ObjectId} {l : List (ObjectId × Kind × Bytes)} {db db' : E.Db}
  (hl : Validated E staged (Committed db) tips (.ok l)) (h : Stored E l db db')

include hl h

/-- An object of the new state is an old one, or a new one of the pack. -/
theorem Stored.cases {x : ObjectId} (hx : Committed db' x) :
    (Committed db x ∧ E.objectAt db' x = E.objectAt db x) ∨
      (¬ Committed db x ∧ E.objectAt db' x = staged.read x ∧ ∃ e ∈ l, e.1 = x ∧ staged.Holds E e) := by
  by_cases hold : Committed db x
  · exact .inl ⟨hold, (h.old x hold).2⟩
  · obtain ⟨e, he, rfl⟩ := mem_ids.1 (((h.committed x).1 hx).resolve_left hold)
    have hholds := hl.1.holds e he
    exact .inr ⟨hold, by rw [h.new e he hold, hholds.1], e, he, rfl, hholds⟩

theorem Stored.child_cases {x y : ObjectId} (hxy : E.Child db' x y) :
    (Committed db x ∧ E.Child db x y) ∨ (¬ Committed db x ∧ staged.Child E x y) := by
  have hx : Committed db' x := by
    obtain ⟨kind, body, children, ho, -⟩ := hxy
    exact objectAt_isSome (by simp [ho])
  rcases h.cases hl hx with ⟨hold, ho⟩ | ⟨hnew, ho, -⟩
  · refine .inl ⟨hold, ?_⟩
    unfold Env.Child at hxy ⊢
    rwa [ho] at hxy
  · exact .inr ⟨hnew, child_of_objectAt ho hxy⟩

/-- Writing a validated pack keeps a sound state sound. -/
theorem Stored.sound (hacyc : staged.Acyclic E) (hs : Sound E db) : Sound E db' :=
  { h.intact hs.toIntact with
    decodes := fun x kind body ho => by
      rcases h.cases hl (x := x) (objectAt_isSome (by simp [ho])) with ⟨-, heq⟩ | ⟨-, heq, ⟨x, kind', body'⟩, -, rfl, hread, hdec⟩
      · exact hs.decodes x kind body (heq ▸ ho)
      · cases (heq.symm.trans ho).symm.trans hread
        exact hdec
    closed := h.closed hl hs.closed
    acyclic := fun x hx => by
      -- references lead from new objects to old ones, never back
      have key : ∀ y, Relation.TransGen (E.Child db') x y →
          (Committed db x → Committed db y ∧ Relation.TransGen (E.Child db) x y) ∧
            (¬ Committed db x → Committed db y ∨ Relation.TransGen (staged.Child E) x y) := by
        intro y hxy
        induction hxy with
        | single hc =>
          rcases h.child_cases hl hc with ⟨hold, hc⟩ | ⟨hnew, hc⟩
          · exact ⟨fun _ => ⟨hs.closed _ _ hc, .single hc⟩, fun hn => absurd hold hn⟩
          · exact ⟨fun ho => absurd ho hnew, fun _ => .inr (.single hc)⟩
        | tail _ hc ih =>
          rcases h.child_cases hl hc with ⟨hold, hc⟩ | ⟨hnew, hc⟩
          · exact ⟨fun ho => ⟨hs.closed _ _ hc, (ih.1 ho).2.tail hc⟩, fun _ => .inl (hs.closed _ _ hc)⟩
          · refine ⟨fun ho => absurd (ih.1 ho).1 hnew, fun hn => ?_⟩
            exact (ih.2 hn).elim (fun hb => absurd hb hnew) fun hp => .inr (hp.tail hc)
      by_cases hold : Committed db x
      · exact hs.acyclic x ((key x hx).1 hold).2
      · rcases (key x hx).2 hold with hold' | hcyc
        · exact hold hold'
        · exact hacyc x hcyc }

/-- Writing a validated pack that is well typed keeps the store well typed. -/
theorem Stored.wellTyped (hs : Sound E db) (ht : WellTyped E db) (htyped : staged.TypedFor E db tips) :
    WellTyped E db' := by
  intro x y k hr
  have hy : Committed db' y := h.closed hl hs.closed x y hr.child
  obtain ⟨kind, body, refs, ho, hrefs, hmem⟩ := hr
  rcases h.cases hl (x := x) (objectAt_isSome (by simp [ho])) with ⟨-, heq⟩ | ⟨hnewx, heq, e', he', rfl, -⟩
  · obtain ⟨body', hy'⟩ := ht x y k ⟨kind, body, refs, heq ▸ ho, hrefs, hmem⟩
    exact ⟨body', by rw [(h.old y (objectAt_isSome (by simp [hy']))).2, hy']⟩
  · have hneeded := (hl.2 e'.1 (mem_ids_of_mem he')).2
    have href : staged.Refers E e'.1 y k := ⟨kind, body, refs, heq ▸ ho, hrefs, hmem⟩
    rcases h.cases hl hy with ⟨hold, hyeq⟩ | ⟨hnew, hyeq, e, -, rfl, hread, -⟩
    · obtain ⟨⟨kind', body'⟩, hy'⟩ := Option.isSome_iff_exists.1 (hs.object y hold)
      cases htyped e'.1 y k hneeded hnewx href kind' body' (.inl hy')
      exact ⟨body', hyeq.trans hy'⟩
    · cases htyped e'.1 e.1 k hneeded hnewx href e.2.1 e.2.2 (.inr ⟨hnew, hread⟩)
      exact ⟨e.2.2, hyeq.trans hread⟩

end Stored

end Promote

/-! ## Commits of a sound, well-typed state -/

namespace Sound

variable {db : E.Db} (hs : Sound E db)

include hs

theorem commitAt_isSome {x : ObjectId} {body : Bytes} (h : E.objectAt db x = some (.commit, body)) :
    (E.commitAt db x).isSome := by
  have hd := hs.decodes x .commit body h
  obtain ⟨commit, hc⟩ := Option.isSome_iff_exists.1 (by simpa [Promote.objectChildren] using hd)
  rw [commitAt_eq_some.2 ⟨body, h, hc⟩]
  rfl

theorem tag_decodes {t : ObjectId} {body : Bytes} (h : E.objectAt db t = some (.tag, body)) :
    (E.gix.tagFromBytes body t.kind).isSome := by
  simpa [Promote.objectChildren] using hs.decodes t .tag body h

theorem acc (x : ObjectId) : Acc (fun j i => E.Child db i j) x := by
  have hwf : WellFounded (fun j i => Relation.TransGen (E.Child db) i j) := by
    have : IsTrans ObjectId fun j i => Relation.TransGen (E.Child db) i j := ⟨fun _ _ _ h h' => h'.trans h⟩
    have : Std.Irrefl fun j i => Relation.TransGen (E.Child db) i j := ⟨fun x => hs.acyclic x⟩
    exact Finite.wellFounded_of_trans_of_irrefl _
  exact Subrelation.accessible (fun h => .single h) (hwf.apply x)

omit hs in
theorem refers_commit {x y : ObjectId} {commit : CommitRef} (hc : E.commitAt db x = some commit) {k : Kind} :
    E.Refers db x y k ↔ (y = commit.tree ∧ k = .tree) ∨ (y ∈ commit.parents ∧ k = .commit) := by
  obtain ⟨body, ho, hp⟩ := commitAt_eq_some.1 hc
  simp [Env.Refers, ho, Promote.objectRefs, hp]
  tauto

theorem parent_commit (ht : WellTyped E db) {c p : ObjectId} (h : E.Parent db c p) : (E.commitAt db p).isSome := by
  obtain ⟨commit, hc, hp⟩ := h
  obtain ⟨body, ho⟩ := ht c p .commit ((refers_commit hc).2 (.inr ⟨hp, rfl⟩))
  exact hs.commitAt_isSome ho

theorem acc_parent (c : ObjectId) : Acc (fun j i => Commits.Parent (E.commitAt db) i j) c :=
  Subrelation.accessible (fun {j i} h => by
    obtain ⟨commit, hi, hj⟩ := h
    exact ((refers_commit hi).2 (.inr ⟨hj, rfl⟩)).child) (hs.acc c)

/-- The commits have complete, acyclic ancestries. -/
theorem ancestry (ht : WellTyped E db) (hread : ∀ c, E.Readable (E.commitAt db) c) :
    Ancestry E (E.commitAt db) (fun c => (E.commitAt db c).isSome) :=
  ⟨fun c _ => hs.acc_parent c, fun _ _ _ hp => hs.parent_commit ht hp, fun c _ => (hread c).honest⟩

theorem isGen (ht : WellTyped E db) {c : ObjectId} (hc : (E.commitAt db c).isSome) :
    ∃ g, Commits.IsGen (E.commitAt db) c g := by
  refine Commits.IsGen.of_acc (hs.acc_parent c) fun a ha => ?_
  induction ha with
  | refl => exact hc
  | tail _ hp _ => exact hs.parent_commit ht hp

end Sound

/-! ## More fuel -/

section Fuel

variable {fuel fuel' : Nat} (hle : fuel ≤ fuel')

include hle

theorem getCommitInfo_runsAs (id : ObjectId) :
    Prog.RunsAs Db.handler (Walker.getCommitInfo E fuel id) (Walker.getCommitInfo E fuel' id) := by
  refine (Prog.RunsAs.refl _).bind fun record => ?_
  cases record with
  | some record => exact .refl _
  | none => exact (Prog.RunsAs.loop _ hle _).bind fun result => .refl _

theorem maxParentGeneration_runsAs : ∀ (parents : List ObjectId) (greatest : UInt32),
    Prog.RunsAs Db.handler (Promote.maxParentGeneration E fuel parents greatest)
      (Promote.maxParentGeneration E fuel' parents greatest)
  | [], _ => .refl _
  | parent :: parents, _ => (getCommitInfo_runsAs hle parent).bind fun _ => maxParentGeneration_runsAs parents _

theorem extendGraphAll_runsAs : ∀ l : List (ObjectId × Kind × Bytes),
    Prog.RunsAs Db.handler (Promote.extendGraphAll E fuel l) (Promote.extendGraphAll E fuel' l)
  | [] => .refl _
  | (oid, _, body) :: rest => by
    refine Prog.RunsAs.bind ?_ fun _ => extendGraphAll_runsAs rest
    unfold Promote.extendGraph
    split
    · exact .refl _
    · exact ((maxParentGeneration_runsAs hle _ _).mapErr _).bind fun _ => .refl _

theorem validateAndPromote_runsAs (staged : StagedPack) (tips : List ObjectId) :
    Prog.RunsAs Db.handler (Promote.validateAndPromote E fuel staged tips)
      (Promote.validateAndPromote E fuel' staged tips) :=
  (Prog.RunsAs.loop _ hle _).bind fun _ => (Prog.RunsAs.refl _).bind fun _ =>
    (extendGraphAll_runsAs hle _).bind fun _ => .refl _

end Fuel

/-! ## Promotion of well-typed packs -/

/-- Records of the commit can be read back, whatever their generation. -/
def Env.Keeps (E : Env) (k : HashKind) (commit : CommitRef) : Prop :=
  ∀ g, E.codec.Faithful k ⟨g, commit.tree, commit.parents⟩

/-- Records of the store's commits can be read back. -/
def Env.KeepsAll (E : Env) (db : E.Db) : Prop := ∀ c commit, E.commitAt db c = some commit → E.Keeps c.kind commit

/-- Records of a pack's commits can be read back. -/
def StagedPack.KeepsAll (E : Env) (staged : StagedPack) : Prop :=
  ∀ c body commit, staged.read c = some (.commit, body) → E.gix.commitFromBytes body c.kind = some commit →
    E.Keeps c.kind commit

theorem Env.KeepsAll.readable {db : E.Db} (h : E.KeepsAll db) (c : ObjectId) : E.Readable (E.commitAt db) c := by
  intro r hr
  obtain ⟨g, t, ps⟩ := r
  obtain ⟨commit, hc, -, rfl, rfl⟩ := hr
  exact h c commit hc g

theorem SameData.keepsAll {db db' : E.Db} (h : SameData db db') (hk : E.KeepsAll db) : E.KeepsAll db' :=
  fun c commit hc => hk c commit (by rwa [h.commitAt] at hc)

/-- With the codec of the store, a record can be read back if the commit has
at most 255 parents. -/
theorem Env.faithful_bytes_iff (hcodec : E.codec = .bytes) {db : E.Db} {c : ObjectId} {commit : CommitRef}
    (hc : E.commitAt db c = some commit) (g : UInt32) :
    E.codec.Faithful c.kind ⟨g, commit.tree, commit.parents⟩ ↔ commit.parents.length ≤ 255 := by
  obtain ⟨body, -, hp⟩ := commitAt_eq_some.1 hc
  obtain ⟨ht, hps⟩ := E.gix.commit_kind body c.kind commit hp
  rw [hcodec]
  exact CommitGraphRecord.faithful_bytes_iff ht hps

theorem Env.readable_of_few (hcodec : E.codec = .bytes) {db : E.Db} {c : ObjectId}
    (h : ∀ commit, E.commitAt db c = some commit → commit.parents.length ≤ 255) : E.Readable (E.commitAt db) c := by
  intro r hr
  obtain ⟨g, t, ps⟩ := r
  obtain ⟨commit, hc, -, rfl, rfl⟩ := hr
  exact (Env.faithful_bytes_iff hcodec hc g).2 (h commit hc)

theorem Env.few_of_readable (hcodec : E.codec = .bytes) {db : E.Db} {c : ObjectId} {commit : CommitRef} {g : UInt32}
    (hc : E.commitAt db c = some commit) (hg : Commits.IsGen (E.commitAt db) c g) (h : E.Readable (E.commitAt db) c) :
    commit.parents.length ≤ 255 :=
  (Env.faithful_bytes_iff hcodec hc g).1 (h ⟨g, commit.tree, commit.parents⟩ ⟨commit, hc, hg, rfl, rfl⟩)

/-- With the codec of the store, a record is read back as it was or not at
all. -/
theorem Env.honest_bytes (hcodec : E.codec = .bytes) (db : E.Db) (c : ObjectId) : E.Honest (E.commitAt db) c := by
  intro r hr
  obtain ⟨commit, hc, -, htree, hparents⟩ := hr
  obtain ⟨body, -, hp⟩ := commitAt_eq_some.1 hc
  obtain ⟨ht, hps⟩ := E.gix.commit_kind body c.kind commit hp
  rw [← htree] at ht
  rw [← hparents] at hps
  rw [hcodec]
  by_cases hn : r.parents.length ≤ 255
  · exact .inl (CommitGraphRecord.decode_encode ht hps hn)
  · exact .inr ⟨_, CommitGraphRecord.decode_encode_trailing ht hps (by omega)⟩

namespace Promote

variable {staged : StagedPack} {tips : List ObjectId} {l : List (ObjectId × Kind × Bytes)} {db db' : E.Db}

theorem Stored.commitAt_old (h : Stored E l db db') (c : ObjectId) (commit : CommitRef)
    (hc : E.commitAt db c = some commit) : E.commitAt db' c = some commit := by
  obtain ⟨body, ho, hp⟩ := commitAt_eq_some.1 hc
  exact commitAt_eq_some.2 ⟨body, by rw [(h.old c (objectAt_isSome (by simp [ho]))).2, ho], hp⟩

theorem Stored.keepsAll (hl : Validated E staged (Committed db) tips (.ok l)) (h : Stored E l db db')
    (hk : E.KeepsAll db) (hk' : staged.KeepsAll E) : E.KeepsAll db' := by
  intro c commit hc
  obtain ⟨body, ho, hp⟩ := commitAt_eq_some.1 hc
  rcases h.cases hl (x := c) (objectAt_isSome (by simp [ho])) with ⟨-, heq⟩ | ⟨-, heq, -⟩
  · exact hk c commit (commitAt_eq_some.2 ⟨body, heq ▸ ho, hp⟩)
  · exact hk' c body commit (heq ▸ ho) hp

theorem Stored.correct {A : ObjectId → Prop} (h : Stored E l db db') (hc : Correct E (E.commitAt db) A db) :
    Correct E (E.commitAt db') A db' := by
  intro c v ha hv
  rw [h.graph] at hv
  obtain ⟨r, hd, hr⟩ := hc c v ha hv
  exact ⟨r, hd, hr.mono h.commitAt_old⟩

theorem mem_ofKind {kind : Kind} {e : ObjectId × Kind × Bytes} : e ∈ ofKind kind l ↔ e ∈ l ∧ e.2.1 = kind := by
  obtain ⟨oid, k, body⟩ := e
  simp [ofKind]

/-- `a` is a proper ancestor of a commit of the list. -/
def AncestorOfNew (E : Env) (db : E.Db) (l : List (ObjectId × Kind × Bytes)) (a : ObjectId) : Prop :=
  ∃ e ∈ ofKind .commit l, Relation.TransGen (Commits.Parent (E.commitAt db)) e.1 a

/-- The lookups of the parents of the listed commits may come to `a`. -/
def LookedUpForNew (E : Env) (db : E.Db) (l : List (ObjectId × Kind × Bytes)) (a : ObjectId) : Prop :=
  ∃ e ∈ ofKind .commit l, ∃ p, E.Parent db e.1 p ∧ E.LooksUp db p a

theorem LookedUpForNew.ancestorOfNew {db : E.Db} {a : ObjectId} (h : LookedUpForNew E db l a) : AncestorOfNew E db l a := by
  obtain ⟨e, he, p, hp, ha⟩ := h
  exact ⟨e, he, Relation.TransGen.head' hp ha.ancestor⟩

/-- A promotion is rejected by validation with nothing changed, or writes what
validation listed. In the second case it ends, with the records of the new
commits or where something in their ancestry is in the way, if the records
there are theirs. -/
theorem run_validateAndPromote (hacyc : staged.Acyclic E) (tips : List ObjectId) (hs : Sound E db) :
    (∃ N e, Validated E staged (Committed db) tips (.error e) ∧
        ∀ fuel ≥ N, (validateAndPromote E fuel staged tips).run Db.handler db = some (.error e, db)) ∨
      ∃ l db₁, Validated E staged (Committed db) tips (.ok l) ∧ Stored E l db db₁ ∧
        ((∀ a, AncestorOfNew E db₁ l a → E.Honest (E.commitAt db₁) a) →
          Sane E (E.commitAt db₁) (AncestorOfNew E db₁ l) db₁ →
          ∃ N r db', (match r with
            | .ok _ => (∀ e ∈ ofKind .commit l, (∃ g, Commits.IsGen (E.commitAt db₁) e.1 g) ∧ (db'.graph e.1).isSome) ∧
              ∀ pre e post, ofKind .commit l = pre ++ e :: post → ∀ p, E.Parent db₁ e.1 p →
                (p ∈ ids pre ∨ (db.graph p).isSome) → E.Readable (E.commitAt db₁) p
            | .error _ => Obstructed E (E.commitAt db₁) (LookedUpForNew E db₁ l)) ∧
          Recorded E (E.commitAt db₁) db₁ db' ∧
          ∀ fuel ≥ N, (validateAndPromote E fuel staged tips).run Db.handler db = some (r, db')) := by
  obtain ⟨N₁, r, hval, hN₁⟩ := run_validate hacyc tips db
  cases r with
  | error e => exact .inl ⟨N₁, e, hval, fun fuel hfuel => Prog.run_bind_error (hN₁ fuel hfuel)⟩
  | ok l =>
    have hnodup : (ids (writeOrder l)).Nodup := (ids_writeOrder_perm l).nodup_iff.2 hval.1.nodup
    obtain ⟨db₁, hput, hstored⟩ := run_putAll (writeOrder l) db hnodup
    have hstored := hstored.of_perm (writeOrder_perm l)
    refine .inr ⟨l, db₁, hval, hstored, fun hhonest hc => ?_⟩
    have hs₁ := hstored.sound hval hacyc hs
    have hA : LookupRange E (E.commitAt db₁) (LookedUpForNew E db₁ l) db₁ :=
      ⟨fun a _ => hs₁.acc_parent a, fun a p ha hnone hp => by
        obtain ⟨e, he, q, hq, hlook⟩ := ha
        exact ⟨e, he, q, hq, hlook.tail ⟨hnone, hp⟩⟩, fun a ha => hhonest a ha.ancestorOfNew⟩
    obtain ⟨N₂, r, db', hr, hrec, hN₂⟩ := run_extendGraphAll (ofKind .commit l) db₁ hA hs₁.toIntact rfl
      (fun c v hlook hv => hc c v hlook.ancestorOfNew hv) fun e he => by
        obtain ⟨oid, kind, body⟩ := e
        obtain ⟨hmem, rfl⟩ := mem_ofKind.1 he
        have ho := hstored.new _ hmem (hval.2 oid (mem_ids_of_mem hmem)).1
        exact ⟨ho, hs₁.commitAt_isSome ho, fun p hp => ⟨_, he, p, hp, .refl⟩⟩
    cases r with
    | error e =>
      refine ⟨max N₁ N₂, .error e, db', hr, hrec, fun fuel hfuel => ?_⟩
      rw [validateAndPromote, Prog.run_bind_ok (hN₁ fuel (by omega)), Prog.run_bind_ok hput]
      exact Prog.run_bind_error (hN₂ fuel (by omega))
    | ok u =>
      rw [hstored.graph] at hr
      refine ⟨max N₁ N₂, .ok ⟨(writeOrder l).map (·.1), (ofKind .commit l).map (·.1)⟩, db', hr, hrec,
        fun fuel hfuel => ?_⟩
      rw [validateAndPromote, Prog.run_bind_ok (hN₁ fuel (by omega)), Prog.run_bind_ok hput,
        Prog.run_bind_ok (hN₂ fuel (by omega))]
      rfl

end Promote

/-- The state of a repository whose pushes are well typed: sound, well typed,
with correct records that can be read back. -/
structure Kept (E : Env) (db : E.Db) : Prop extends Sound E db where
  typed : WellTyped E db
  correct : Correct E (E.commitAt db) (fun _ => True) db
  keeps : E.KeepsAll db

namespace Kept

variable {db db' : E.Db}

theorem recorded (h : Kept E db) (hr : Recorded E (E.commitAt db) db db') : Kept E db' :=
  { hr.sound h.toSound with
    typed := hr.wellTyped h.typed
    correct := by
      rw [show E.commitAt db' = E.commitAt db from funext hr.commitAt]
      exact hr.correct (fun c _ => h.keeps.readable c) h.correct
    keeps := hr.keepsAll h.keeps }

theorem empty : Kept E (Db.empty : E.Db) :=
  { sound_empty with
    typed := wellTyped_empty
    correct := fun c v _ hv => by simp [Db.empty] at hv
    keeps := fun c commit hc => by
      obtain ⟨body, ho, -⟩ := commitAt_eq_some.1 hc
      simp [Env.objectAt, Db.empty] at ho }

/-- A promotion of a well-typed pack whose records can be read back is
rejected by validation, or accepted with records for its commits. -/
theorem run_promote (h : Kept E db) {staged : StagedPack} (hacyc : staged.Acyclic E) {tips : List ObjectId}
    (htyped : staged.TypedFor E db tips) (hk : staged.KeepsAll E) :
    ∃ N, (∃ e, Promote.Validated E staged (Promote.Committed db) tips (.error e) ∧
        ∀ fuel ≥ N, (Promote.validateAndPromote E fuel staged tips).run Db.handler db = some (.error e, db)) ∨
      ∃ l db₁ db' p, Promote.Validated E staged (Promote.Committed db) tips (.ok l) ∧ Promote.Stored E l db db₁ ∧
        Kept E db₁ ∧ Recorded E (E.commitAt db₁) db₁ db' ∧ (∀ e ∈ Promote.ofKind .commit l, (db'.graph e.1).isSome) ∧
        ∀ fuel ≥ N, (Promote.validateAndPromote E fuel staged tips).run Db.handler db = some (.ok p, db') := by
  rcases Promote.run_validateAndPromote hacyc tips h.toSound with ⟨N, e, hval, hN⟩ | ⟨l, db₁, hval, hstored, hpromote⟩
  · exact ⟨N, .inl ⟨e, hval, hN⟩⟩
  · have h₁ : Kept E db₁ :=
      { hstored.sound hval hacyc h.toSound with
        typed := hstored.wellTyped hval h.toSound h.typed htyped
        correct := hstored.correct h.correct
        keeps := hstored.keepsAll hval h.keeps hk }
    obtain ⟨N, r, db', hr, hrec, hN⟩ := hpromote (fun a _ => (h₁.keeps.readable a).honest)
      fun c v _ hv => .inl ⟨h₁.correct c v trivial hv, h₁.keeps.readable c⟩
    cases r with
    | ok p => exact ⟨N, .inr ⟨l, db₁, db', p, hval, hstored, h₁, hrec, fun e he => (hr.1 e he).2, hN⟩⟩
    | error e =>
      obtain ⟨a, hlook, hnone | hread⟩ := hr
      · obtain ⟨e', -, hanc⟩ := hlook.ancestorOfNew
        obtain ⟨b, -, hp⟩ := Relation.TransGen.tail'_iff.1 hanc
        have hsome := h₁.parent_commit h₁.typed hp
        rw [hnone] at hsome
        cases hsome
      · exact absurd (h₁.keeps.readable a) hread

/-- A promotion run to its end. -/
theorem promote (h : Kept E db) {staged : StagedPack} (hacyc : staged.Acyclic E) {tips : List ObjectId}
    (htyped : staged.TypedFor E db tips) (hk : staged.KeepsAll E) {fuel : Nat} {r : Except PromoteError Promotion}
    (hr : (Promote.validateAndPromote E fuel staged tips).run Db.handler db = some (r, db')) : Kept E db' := by
  obtain ⟨N, hN⟩ := h.run_promote hacyc htyped hk
  have hrun := validateAndPromote_runsAs (Nat.le_max_left fuel N) staged tips db _ hr
  rcases hN with ⟨e, -, hN⟩ | ⟨l, db₁, db₂, p, -, -, h₁, hrec, -, hN⟩
  · cases hrun.symm.trans (hN _ (Nat.le_max_right fuel N))
    exact h
  · cases hrun.symm.trans (hN _ (Nat.le_max_right fuel N))
    exact h₁.recorded hrec

/-- Asking for a record of any object ends, and at most adds records. -/
theorem run_getCommitInfo (h : Kept E db) (c : ObjectId) :
    ∃ N r db', GraphGrows E (E.commitAt db) db db' ∧
      ∀ fuel ≥ N, (Walker.getCommitInfo E fuel c).run Db.handler db = some (r, db') := by
  have hA : Ancestry E (E.commitAt db) (fun _ => True) :=
    ⟨fun c _ => h.acc_parent c, fun _ _ _ _ => trivial, fun c _ => (h.keeps.readable c).honest⟩
  have hsane := h.correct.sane fun c _ => h.keeps.readable c
  obtain ⟨N, r, db', -, hgrows, hN⟩ := Walker.run_getCommitInfo (hA.lookupRange db) h.toIntact rfl hsane (c := c) trivial
  exact ⟨N, r, db', hgrows, hN⟩

theorem rebuildReach_isSome (h : Kept E db) {c : ObjectId} (hc : RebuildReach E db c) : (E.commitAt db c).isSome := by
  have hpeel : ∀ n oid tip, PeelsWithin E db n oid tip → (E.commitAt db tip).isSome := by
    intro n oid tip hp
    induction hp with
    | commit ho => exact h.commitAt_isSome ho
    | tag _ _ _ ih => exact ih
  obtain ⟨tip, ⟨entry, -, oid, -, hp⟩, hanc⟩ := hc
  induction hanc with
  | refl => exact hpeel _ _ _ hp
  | tail _ hpar _ => exact h.parent_commit h.typed hpar

end Kept

/-! ## The producers of records -/

/-- One operation on a repository that may change its records: an accepted
promotion of a well-typed pack, a lookup, a deletion of records, a rebuild. -/
inductive GraphStep (E : Env) : E.Db → E.Db → Prop
  | promote {db db' : E.Db} {fuel : Nat} {staged : StagedPack} {tips : List ObjectId} {p : Promotion}
      (hacyc : staged.Acyclic E) (htyped : staged.TypedOver E db)
      (hr : E.run (Promote.validateAndPromote E fuel staged tips) db = some (.ok p, db')) : GraphStep E db db'
  | info {db db' : E.Db} {fuel : Nat} {c : ObjectId} {r : Except WalkError CommitGraphRecord}
      (hr : E.run (Walker.getCommitInfo E fuel c) db = some (r, db')) : GraphStep E db db'
  | delete {db : E.Db} (deleted : Finset ObjectId) :
      GraphStep E db { db with graph := fun c => if c ∈ deleted then none else db.graph c }
  | rebuild {db db' : E.Db} {fuel : Nat} {r : Except WalkError Nat}
      (hr : E.run (Walker.rebuildCommitGraph E fuel) db = some (r, db')) : GraphStep E db db'

/-- `r` is the record of `c`: the length of the longest path of parents to a
root, the commit's tree and its parents. -/
def Env.IsLongestRecord (E : Env) (db : E.Db) (c : ObjectId) (r : CommitGraphRecord) : Prop :=
  ∃ commit, E.commitAt db c = some commit ∧
    IsGreatest {n | Commits.PathToRoot (E.commitAt db) c n} r.generation.toNat ∧ r.rootTree = commit.tree ∧
    r.parents = commit.parents

/-- Every stored record can be read, and is that of its commit. -/
def RecordsCorrect (E : Env) (db : E.Db) : Prop :=
  ∀ c, db.graph c = none ∨ ∃ r, E.graphAt db c = .ok (some r) ∧ E.IsLongestRecord db c r

/-- The generations of a repository fit a `u32`. -/
def Bounded (E : Env) (db : E.Db) : Prop := ∀ c n, Commits.PathToRoot (E.commitAt db) c n → n < 2 ^ 32

theorem Commits.PathToRoot.mono {commits commits' : Commits}
    (hsub : ∀ c commit, commits c = some commit → commits' c = some commit) {c : ObjectId} {n : Nat}
    (h : commits.PathToRoot c n) : commits'.PathToRoot c n := by
  induction h with
  | root hc hp => exact .root (hsub _ _ hc) hp
  | step hp _ ih =>
    obtain ⟨commit, hc, hmem⟩ := hp
    exact .step ⟨commit, hsub _ _ hc, hmem⟩ ih

theorem isLongestRecord_iff {db : E.Db} (hs : Sound E db) (ht : WellTyped E db) (hb : Bounded E db) {c : ObjectId}
    {r : CommitGraphRecord} : E.IsLongestRecord db c r ↔ Commits.IsRecord (E.commitAt db) c r := by
  constructor
  · intro h
    obtain ⟨commit, hc, hgreat, htree, hparents⟩ := h
    obtain ⟨g, hg⟩ := hs.isGen ht (c := c) (by simp [hc])
    have heq : r.generation.toNat = g.toNat := hgreat.unique (hg.isGreatest (hb c))
    rw [UInt32.toNat_inj] at heq
    exact ⟨commit, hc, heq ▸ hg, htree, hparents⟩
  · intro h
    obtain ⟨commit, hc, hg, htree, hparents⟩ := h
    exact ⟨commit, hc, hg.isGreatest (hb c), htree, hparents⟩

theorem recordsCorrect_iff {db : E.Db} (hs : Sound E db) (ht : WellTyped E db) (hb : Bounded E db) :
    RecordsCorrect E db ↔ Correct E (E.commitAt db) (fun _ => True) db := by
  constructor
  · intro h c v _ hv
    rcases h c with hnone | ⟨r, hg, hr⟩
    · simp [hv] at hnone
    · refine ⟨r, ?_, (isLongestRecord_iff hs ht hb).1 hr⟩
      simp only [Env.graphAt, hv] at hg
      split at hg
      · cases hg
        assumption
      · cases hg
  · intro h c
    rcases h.graphAt (c := c) trivial with ⟨hnone, -⟩ | ⟨r, -, hg, hr⟩
    · exact .inl hnone
    · exact .inr ⟨r, hg, (isLongestRecord_iff hs ht hb).2 hr⟩

section Producers

variable (hcodec : ∀ k r, E.codec.Faithful k r)

include hcodec

theorem Kept.run_rebuild {db : E.Db} (h : Kept E db) (graph : ObjectId → Option E.codec.Val) :
    ∃ N n db', (SameObjects db db' ∧
        (∀ c, RebuildReach E db c → ∃ r, Commits.IsRecord (E.commitAt db) c r ∧
          db'.graph c = some (E.codec.encode r)) ∧
        (∀ c, ¬ RebuildReach E db c → db'.graph c = graph c) ∧ n = {c | RebuildReach E db c}.ncard) ∧
      ∀ fuel ≥ N, (Walker.rebuildCommitGraph E fuel).run Db.handler { db with graph } = some (.ok n, db') := by
  have hsame : SameObjects db { db with graph } := ⟨⟨rfl, rfl⟩, rfl⟩
  have hreach := hsame.rebuildReach
  have hA : Ancestry E (E.commitAt db) (RebuildReach E db) :=
    ⟨fun c _ => h.acc_parent c, fun c p hc hp => by
        obtain ⟨tip, htip, hanc⟩ := hc
        exact ⟨tip, htip, hanc.tail hp⟩,
      fun c _ r _ => .inl (hcodec c.kind r)⟩
  obtain ⟨N, n, db', ⟨hobj, hrec, hother, hn⟩, hN⟩ := Walker.run_rebuildCommitGraph (hsame.intact h.toIntact)
    (fun t body ht => h.tag_decodes (by rwa [hsame.objectAt] at ht)) (hreach ▸ hA)
    fun c hc => by
      rw [hsame.commitAt]
      exact h.rebuildReach_isSome (hreach ▸ hc)
  rw [hreach] at hrec hother hn
  exact ⟨N, n, db', ⟨hsame.trans hobj, hrec, hother, hn⟩, hN⟩

omit hcodec in
theorem rebuildCommitGraph_runsAs {fuel fuel' : Nat} (hle : fuel ≤ fuel') :
    Prog.RunsAs Db.handler (Walker.rebuildCommitGraph E fuel) (Walker.rebuildCommitGraph E fuel') := by
  have hroots : ∀ (roots : List ObjectId) (s : Walker.Rebuild),
      Prog.RunsAs Db.handler (Walker.rebuildRoots E fuel roots s) (Walker.rebuildRoots E fuel' roots s) := by
    intro roots
    induction roots with
    | nil => exact fun s => .refl _
    | cons root roots ih =>
      intro s
      unfold Walker.rebuildRoots
      split
      · exact ih s
      · exact (Prog.RunsAs.loop _ hle _).bind ih
  exact (Prog.RunsAs.refl _).bind fun _ => (Prog.RunsAs.refl _).bind fun _ => (hroots _ _).bind fun _ => .refl _

omit hcodec in
/-- An operation keeps the commits there. -/
theorem GraphStep.commitAt {db db' : E.Db} (hstep : GraphStep E db db') (c : ObjectId) (commit : CommitRef)
    (hc : E.commitAt db c = some commit) : E.commitAt db' c = some commit := by
  cases hstep with
  | promote hacyc _ hr =>
    obtain ⟨l, db₁, -, -, hstored, hgraph, -⟩ := Promote.run_validateAndPromote_ok hacyc hr
    rw [((graphProg_extendGraphAll _ _).sameObjects hgraph).commitAt]
    exact hstored.commitAt_old c commit hc
  | info hr => rwa [((graphProg_getCommitInfo _ _).sameObjects hr).commitAt]
  | delete deleted => exact hc
  | rebuild hr => rwa [((graphProg_rebuildCommitGraph _).sameObjects hr).commitAt]

/-- An operation keeps the records correct. -/
theorem GraphStep.kept {db db' : E.Db} (h : Kept E db) (hstep : GraphStep E db db') : Kept E db' := by
  have hkeeps : ∀ staged : StagedPack, staged.KeepsAll E := fun _ c _ _ _ _ g => hcodec c.kind _
  cases hstep with
  | promote hacyc htyped hr => exact h.promote hacyc (htyped.typedFor _) (hkeeps _) hr
  | @info _ fuel c r hr =>
    obtain ⟨N, r', db₁, hgrows, hN⟩ := h.run_getCommitInfo c
    have hrun := getCommitInfo_runsAs (Nat.le_max_left fuel N) c db _ hr
    cases hrun.symm.trans (hN _ (Nat.le_max_right fuel N))
    exact h.recorded hgrows.toRecorded
  | delete deleted =>
    have hsame : SameObjects db { db with graph := fun c => if c ∈ deleted then none else db.graph c } :=
      ⟨⟨rfl, rfl⟩, rfl⟩
    refine { hsame.sound h.toSound with
      typed := hsame.wellTyped h.typed
      correct := fun c v _ hv => ?_
      keeps := hsame.keepsAll h.keeps }
    simp only at hv
    split at hv
    · cases hv
    · exact h.correct c v trivial hv
  | @rebuild _ fuel r hr =>
    obtain ⟨N, n, db₁, ⟨hsame, hrec, hother, -⟩, hN⟩ := h.run_rebuild hcodec db.graph
    have hrun := rebuildCommitGraph_runsAs (Nat.le_max_left fuel N) db _ hr
    cases hrun.symm.trans (hN _ (Nat.le_max_right fuel N))
    refine { hsame.sound h.toSound with
      typed := hsame.wellTyped h.typed
      correct := fun c v _ hv => ?_
      keeps := hsame.keepsAll h.keeps }
    rw [show E.commitAt db' = E.commitAt db from funext hsame.commitAt]
    by_cases hc : RebuildReach E db c
    · obtain ⟨r, hr, hv'⟩ := hrec c hc
      cases hv'.symm.trans hv
      exact ⟨r, hcodec c.kind r, hr⟩
    · exact h.correct c v trivial (by rw [← hother c hc, hv])

theorem GraphStep.run_kept {db db' : E.Db} (h : Kept E db) (hrun : Relation.ReflTransGen (GraphStep E) db db') :
    Kept E db' := by
  induction hrun with
  | refl => exact h
  | tail _ hstep ih => exact hstep.kept hcodec ih

omit hcodec in
theorem GraphStep.run_commitAt {db db' : E.Db} (hrun : Relation.ReflTransGen (GraphStep E) db db') (c : ObjectId)
    (commit : CommitRef) (hc : E.commitAt db c = some commit) : E.commitAt db' c = some commit := by
  induction hrun with
  | refl => exact hc
  | tail _ hstep ih => exact hstep.commitAt c commit ih

end Producers

/-- Promotion, backfill and rebuild agree on the records of a repository: in
every state they lead to, the stored records are correct. A backfill changes
no record, each of the three ends, and a rebuild is right whatever the
records were. -/
theorem commitGraph_producers_agree (hcodec : ∀ k r, E.codec.Faithful k r) {db₀ db : E.Db} (hs : Sound E db₀)
    (ht : WellTyped E db₀) (hc : RecordsCorrect E db₀) (hrun : Relation.ReflTransGen (GraphStep E) db₀ db)
    (hb : Bounded E db) :
    RecordsCorrect E db ∧
    (∀ c, ∃ N r db', (∀ fuel ≥ N, E.run (Walker.getCommitInfo E fuel c) db = some (r, db')) ∧
      ∀ x v, db.graph x = some v → db'.graph x = some v) ∧
    (∀ staged tips, staged.Acyclic E → staged.TypedOver E db →
      ∃ N r db', ∀ fuel ≥ N, E.run (Promote.validateAndPromote E fuel staged tips) db = some (r, db')) ∧
    ∀ graph : ObjectId → Option E.codec.Val, ∃ N n db',
      (∀ fuel ≥ N, E.run (Walker.rebuildCommitGraph E fuel) { db with graph } = some (.ok n, db')) ∧
      (∀ c, RebuildReach E db c → ∃ r, E.graphAt db' c = .ok (some r) ∧ E.IsLongestRecord db c r) ∧
      (∀ c, ¬ RebuildReach E db c → db'.graph c = graph c) ∧ n = {c | RebuildReach E db c}.ncard := by
  have hkeeps : ∀ db : E.Db, E.KeepsAll db := fun db c commit _ g => hcodec c.kind _
  -- paths stay paths, so those at the start are bounded as well
  have hb₀ : Bounded E db₀ := fun c n hn => hb c n (hn.mono (GraphStep.run_commitAt hrun))
  have h₀ : Kept E db₀ := ⟨hs, ht, (recordsCorrect_iff hs ht hb₀).1 hc, hkeeps db₀⟩
  have h := GraphStep.run_kept hcodec h₀ hrun
  refine ⟨(recordsCorrect_iff h.toSound h.typed hb).2 h.correct, fun c => ?_, fun staged tips hacyc htyped => ?_,
    fun graph => ?_⟩
  · obtain ⟨N, r, db', hgrows, hN⟩ := h.run_getCommitInfo c
    exact ⟨N, r, db', hN, hgrows.unchanged⟩
  · obtain ⟨N, hN⟩ := h.run_promote hacyc (htyped.typedFor tips) fun c _ _ _ _ g => hcodec c.kind _
    rcases hN with ⟨e, -, hN⟩ | ⟨l, db₁, db', p, -, -, -, -, -, hN⟩
    · exact ⟨N, _, _, hN⟩
    · exact ⟨N, _, _, hN⟩
  · obtain ⟨N, n, db', ⟨-, hrec, hother, hn⟩, hN⟩ := h.run_rebuild hcodec graph
    refine ⟨N, n, db', hN, fun c hreach => ?_, hother, hn⟩
    obtain ⟨r, hr, hv⟩ := hrec c hreach
    have hd : E.codec.decode (E.codec.encode r) c.kind = .ok r := hcodec c.kind r
    exact ⟨r, by simp [Env.graphAt, hv, hd], (isLongestRecord_iff h.toSound h.typed hb).2 hr⟩

/-! The pack of the small repository, pushed to an empty one, with records
held in any way that can be read back. -/

namespace Sample

/-- The packages of the small repository with another codec. -/
def envWith (codec : GraphCodec) : Env := { env with codec }

variable (codec : GraphCodec)

theorem refs_of_mem {e : ObjectId × Kind × Bytes} (h : e ∈ objects) :
    ∃ refs, Promote.objectRefs (envWith codec) e.1 e.2.1 e.2.2 = some refs ∧
      ∀ r ∈ refs, ∃ body, pack.read r.1 = some (r.2, body) := by
  have hread : ∀ y k body, objects.lookup y = some (k, body) → ∃ body, pack.read y = some (k, body) := by
    intro y k body hy
    exact ⟨body, (StagedPack.read_of objects y).trans hy⟩
  have htree : (envWith codec).gix.treeEntries treeBody treeId.kind = [some ⟨.blob, ascii "a", blobId⟩] := parse_tree
  have hempty : (envWith codec).gix.treeEntries [] emptyTreeId.kind = [] := parse_emptyTree
  have hroot : (envWith codec).gix.commitFromBytes rootBody rootId.kind = some ⟨emptyTreeId, []⟩ := parse_root
  have htip : (envWith codec).gix.commitFromBytes tipBody tipId.kind = some ⟨treeId, [rootId]⟩ := parse_tip
  have htag : (envWith codec).gix.tagFromBytes tagBody tagId.kind = some ⟨tipId, .commit⟩ := parse_tag
  simp only [objects, List.mem_cons, List.not_mem_nil, or_false] at h
  rcases h with rfl | rfl | rfl | rfl | rfl | rfl
  · exact ⟨[], rfl, by simp⟩
  · refine ⟨[(blobId, .blob)], by simp [Promote.objectRefs, htree, decoded, Promote.entryRef], ?_⟩
    simpa using hread blobId .blob blobBody rfl
  · exact ⟨[], by simp [Promote.objectRefs, hempty, decoded], by simp⟩
  · refine ⟨[(emptyTreeId, .tree)], by simp [Promote.objectRefs, hroot], ?_⟩
    simpa using hread emptyTreeId .tree [] rfl
  · refine ⟨[(treeId, .tree), (rootId, .commit)], by simp [Promote.objectRefs, htip], ?_⟩
    simpa using ⟨hread treeId .tree treeBody rfl, hread rootId .commit rootBody rfl⟩
  · refine ⟨[(tipId, .commit)], by simp [Promote.objectRefs, htag], ?_⟩
    simpa using hread tipId .commit tipBody rfl

theorem pack_typed : pack.TypedOver (envWith codec) Db.empty := by
  intro x y k h kind body hy
  obtain ⟨kind', body', refs, hread, hrefs, hmem⟩ := h
  obtain ⟨refs', hrefs', hall⟩ := refs_of_mem codec (StagedPack.mem_of_read hread)
  cases hrefs.symm.trans hrefs'
  obtain ⟨body'', hy'⟩ := hall (y, k) hmem
  rcases hy with hy | ⟨-, hy⟩
  · simp [Env.objectAt, Db.empty] at hy
  · cases hy.symm.trans hy'
    rfl

theorem needed_envWith {C : ObjectId → Prop} {tips : List ObjectId} {x : ObjectId}
    (h : Needed (envWith codec) pack C tips x) : Needed env pack C tips x := by
  induction h with
  | tip ht => exact .tip ht
  | child _ hc hy ih => exact .child ih hc hy

/-- The push of the pack is accepted. -/
theorem pushed (hk : pack.KeepsAll (envWith codec)) :
    ∃ N l db₁ db p, Promote.Validated (envWith codec) pack (Promote.Committed (Db.empty : (envWith codec).Db)) [tagId]
        (.ok l) ∧ Promote.Stored (envWith codec) l Db.empty db₁ ∧ Kept (envWith codec) db₁ ∧
      Recorded (envWith codec) ((envWith codec).commitAt db₁) db₁ db ∧
      (∀ e ∈ Promote.ofKind .commit l, (db.graph e.1).isSome) ∧
      ∀ fuel ≥ N, (envWith codec).run (Promote.validateAndPromote (envWith codec) fuel pack [tagId]) Db.empty =
        some (.ok p, db) := by
  have hempty : Kept (envWith codec) Db.empty := .empty
  obtain ⟨N, hN⟩ := hempty.run_promote pack_acyclic ((pack_typed codec).typedFor [tagId]) hk
  rcases hN with ⟨e, hval, -⟩ | ⟨l, db₁, db, p, h⟩
  · exfalso
    cases e with
    | connectivity missing referencedBy =>
      have hread := needed_staged (needed_envWith codec hval.1)
      simp [hval.2.2.1] at hread
    | decode oid =>
      obtain ⟨kind, body, -, -, hread, hnone⟩ := hval
      have hdec := pack_decodable oid kind body hread
      rw [show Promote.objectChildren env oid kind body = none from hnone] at hdec
      cases hdec
    | store e | objects e | walk e => exact hval
  · exact ⟨N, l, db₁, db, p, h⟩

theorem path_le {commits : Commits} (h : ∀ x y, commits.Parent x y → pack.Child env x y) {c : ObjectId} {n : Nat}
    (hp : commits.PathToRoot c n) : n ≤ rank c + 1 := by
  induction hp with
  | root => omega
  | step hp _ ih =>
    have hrank : (references.all fun p => rank p.2 < rank p.1) = true := by decide
    have hlt := List.all_eq_true.1 hrank _ (child_cases (h _ _ hp))
    simp only [decide_eq_true_eq] at hlt
    omega

theorem rank_le (c : ObjectId) : rank c ≤ 4 := by
  unfold rank
  split_ifs <;> omega

end Sample

open Sample in
theorem commitGraph_producers_agree_sample :
    ∃ db : (envWith .records).Db, GraphStep (envWith .records) Db.empty db ∧ RecordsCorrect (envWith .records) db := by
  have hcodec : ∀ k r, (envWith .records).codec.Faithful k r := fun _ _ => rfl
  obtain ⟨N, l, db₁, db, p, hval, hstored, -, hrec, -, hrun⟩ := pushed .records fun _ _ _ _ _ _ => rfl
  have hstep : GraphStep (envWith .records) Db.empty db :=
    .promote pack_acyclic (pack_typed .records) (hrun N le_rfl)
  have hchild : ∀ x y, Commits.Parent ((envWith .records).commitAt db) x y → pack.Child env x y := by
    intro x y h
    obtain ⟨commit, hc, hy⟩ := h
    rw [hrec.commitAt] at hc
    rcases hstored.child_cases hval ((child_commit hc).2 (.inr ⟨commit, hc, hy⟩)) with ⟨hold, -⟩ | ⟨-, hch⟩
    · simp [Promote.Committed, Db.empty] at hold
    · exact hch
  have hb : Bounded (envWith .records) db := by
    intro c n hn
    have hle := path_le hchild hn
    have hrank := rank_le c
    omega
  exact ⟨db, hstep, (commitGraph_producers_agree hcodec sound_empty wellTyped_empty (fun c => .inl rfl)
    (.single hstep) hb).1⟩

end Miscreant
