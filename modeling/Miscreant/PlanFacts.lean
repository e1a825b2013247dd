/-
A planned pack (`UploadPack.planPack`) against the closure of the wants: it is
complete and minimal with respect to the haves the client declared.

`Env.Reaches` is the reference relation of the objects, as `object_children`
computes it. What a commit reaches is its ancestors and their trees
(`reaches_commit`), what a tag reaches is its chain and what that ends in
(`reaches_chain`); the two are where discovery and collection meet.
-/
import Miscreant.CollectFacts
import Miscreant.UploadPack

namespace Miscreant

open Lib Walker

variable {E : Env} {db : E.Db}

/-! ## References -/

/-- `y` is a child of `x`. -/
def Env.Child (E : Env) (db : E.Db) (x y : ObjectId) : Prop :=
  ∃ kind body children, E.objectAt db x = some (kind, body) ∧
    Promote.objectChildren E x kind body = some children ∧ y ∈ children

/-- `y` is `x` or is reached from it by references: it is in `x`'s closure. -/
def Env.Reaches (E : Env) (db : E.Db) (x y : ObjectId) : Prop := Relation.ReflTransGen (E.Child db) x y

theorem Promote.treeChildren_map_some (entries : List TreeEntryRef) :
    Promote.treeChildren (entries.map some) = some ((entries.filter fun e => e.mode ≠ .commit).map (·.oid)) := by
  induction entries with
  | nil => rfl
  | cons e entries ih => by_cases hm : e.mode = .commit <;> simp [Promote.treeChildren, ih, hm]

theorem child_commit {x y : ObjectId} {commit : CommitRef} (h : E.commitAt db x = some commit) :
    E.Child db x y ↔ y = commit.tree ∨ E.Parent db x y := by
  obtain ⟨body, ho, hp⟩ := commitAt_eq_some.1 h
  simp [Env.Child, Env.Parent, ho, h, Promote.objectChildren, hp]

theorem child_tree {x y : ObjectId} {entries : List TreeEntryRef} (h : E.treeAt db x = some entries) :
    E.Child db x y ↔ E.Entry db x y := by
  obtain ⟨body, ho, he⟩ := treeAt_eq_some.1 h
  simp [Env.Child, Env.Entry, ho, h, Promote.objectChildren, he, Promote.treeChildren_map_some, and_assoc]

theorem child_tag {x y : ObjectId} {body : Bytes} {tag : TagRef} (ho : E.objectAt db x = some (.tag, body))
    (ht : E.gix.tagFromBytes body x.kind = some tag) : E.Child db x y ↔ y = tag.target := by
  simp [Env.Child, ho, Promote.objectChildren, ht]

theorem Env.IsBlob.not_child {x y : ObjectId} (h : E.IsBlob db x) : ¬ E.Child db x y := by
  obtain ⟨body, hb⟩ := h
  simp [Env.Child, hb, Promote.objectChildren]

section Typed

variable (hdb : Indexed E db) (ht : TreesTyped E db)

include ht in
theorem inTree_typed {x y : ObjectId} (hx : (E.treeAt db x).isSome) (h : E.InTree db x y) :
    (E.treeAt db y).isSome ∨ E.IsBlob db y := by
  induction h with
  | refl => exact .inl hx
  | tail _ hyz _ =>
    obtain ⟨entries, htree, e, he, hm, rfl⟩ := hyz
    by_cases hmode : e.mode = .tree
    · obtain ⟨body, hb⟩ := ht.subtree _ entries htree e he hmode
      exact .inl (ht.decodes _ body hb)
    · exact .inr (ht.leaf _ entries htree e he hmode hm)

include ht in
theorem objectAt_of_inTree {x y : ObjectId} (hx : (E.treeAt db x).isSome) (h : E.InTree db x y) :
    (E.objectAt db y).isSome := by
  rcases inTree_typed ht hx h with htree | ⟨body, ho⟩
  · obtain ⟨entries, htree⟩ := Option.isSome_iff_exists.1 htree
    obtain ⟨body, ho, -⟩ := treeAt_eq_some.1 htree
    simp [ho]
  · simp [ho]

include ht in
/-- What a tree reaches, it reaches through trees. -/
theorem reaches_tree {x y : ObjectId} (hx : (E.treeAt db x).isSome) : E.Reaches db x y ↔ E.InTree db x y := by
  constructor
  · intro h
    induction h with
    | refl => exact .refl
    | tail _ hyz ih =>
      rcases inTree_typed ht hx ih with htree | hblob
      · obtain ⟨entries, htree⟩ := Option.isSome_iff_exists.1 htree
        exact ih.tail ((child_tree htree).1 hyz)
      · exact absurd hyz hblob.not_child
  · intro h
    induction h with
    | refl => exact .refl
    | tail _ hyz ih =>
      obtain ⟨entries, htree, hmem⟩ := hyz
      exact ih.tail ((child_tree htree).2 ⟨entries, htree, hmem⟩)

include hdb

theorem commitAt_of_ancestor {c a : ObjectId} (hc : (E.commitAt db c).isSome) (h : E.Ancestor db a c) :
    (E.commitAt db a).isSome := by
  induction h with
  | refl => exact hc
  | tail _ hp _ => exact hdb.parents _ _ hp

include ht

/-- What a commit reaches: its ancestors, and what their trees reach. -/
theorem reaches_commit {c y : ObjectId} (hc : (E.commitAt db c).isSome) :
    E.Reaches db c y ↔ ∃ a commit, E.Ancestor db a c ∧ E.commitAt db a = some commit ∧
      (y = a ∨ E.InTree db commit.tree y) := by
  constructor
  · intro h
    induction h with
    | refl =>
      obtain ⟨commit, hcommit⟩ := Option.isSome_iff_exists.1 hc
      exact ⟨c, commit, .refl, hcommit, .inl rfl⟩
    | @tail y z _ hyz ih =>
      obtain ⟨a, commit, ha, hcommit, rfl | hin⟩ := ih
      · rcases (child_commit hcommit).1 hyz with rfl | hp
        · exact ⟨y, commit, ha, hcommit, .inr .refl⟩
        · obtain ⟨commit', hcommit'⟩ := Option.isSome_iff_exists.1 (hdb.parents _ _ hp)
          exact ⟨z, commit', ha.tail hp, hcommit', .inl rfl⟩
      · have hy := (reaches_tree ht (root_treeAt ht hcommit)).2 hin
        exact ⟨a, commit, ha, hcommit, .inr ((reaches_tree ht (root_treeAt ht hcommit)).1 (hy.tail hyz))⟩
  · rintro ⟨a, commit, ha, hcommit, hy⟩
    have hanc : E.Reaches db c a := by
      clear hcommit hy
      induction ha with
      | refl => exact .refl
      | tail _ hp ih =>
        obtain ⟨commit', hc', hz⟩ := hp
        exact ih.tail ((child_commit hc').2 (.inr ⟨commit', hc', hz⟩))
    rcases hy with rfl | hin
    · exact hanc
    · have hroot := hanc.tail ((child_commit hcommit).2 (.inl rfl))
      exact hroot.trans ((reaches_tree ht (root_treeAt ht hcommit)).2 hin)

omit hdb ht in
/-- What a tag reaches: the tags of its chain, and what the chain ends in
reaches. -/
theorem reaches_chain {w y : ObjectId} {chain : TagChain} (h : E.Peels db w chain) :
    E.Reaches db w y ↔ y ∈ chain.tags ∨ E.Reaches db chain.target y := by
  induction h with
  | target h hk => simp
  | @tag oid body tag chain ho ht _ ih =>
    simp only [List.mem_cons]
    constructor
    · intro hr
      rcases Relation.ReflTransGen.cases_head hr with rfl | ⟨z, hz, hr⟩
      · exact .inl (.inl rfl)
      · rw [child_tag ho ht] at hz
        subst hz
        rcases ih.1 hr with hm | hr
        · exact .inl (.inr hm)
        · exact .inr hr
    · have hstep : E.Child db oid tag.target := (child_tag ho ht).2 rfl
      rintro ((rfl | hm) | hr)
      · exact .refl
      · exact .head hstep (ih.2 (.inl hm))
      · exact .head hstep (ih.2 (.inr hr))

end Typed

/-! ## Wants -/

theorem Env.Peels.unique {w : ObjectId} {chain chain' : TagChain} (h : E.Peels db w chain)
    (h' : E.Peels db w chain') : chain = chain' := by
  induction h generalizing chain' with
  | target ho hk =>
    cases h' with
    | target => rfl
    | tag ho' =>
      cases ho.symm.trans ho'
      exact absurd rfl hk
  | tag ho ht _ ih =>
    cases h' with
    | target ho' hk' =>
      cases ho.symm.trans ho'
      exact absurd rfl hk'
    | tag ho' ht' hc' =>
      cases ho.symm.trans ho'
      cases ht.symm.trans ht'
      rw [ih hc']

theorem Env.Peels.tags_sendable {w : ObjectId} {chain : TagChain} (h : E.Peels db w chain) :
    ∀ t ∈ chain.tags, Sendable E db t := by
  induction h with
  | target => simp
  | @tag oid body tag chain ho _ _ ih =>
    intro t ht
    rcases List.mem_cons.1 ht with rfl | ht
    · exact ⟨.tag, body, ho, .inr rfl⟩
    · exact ih t ht

theorem Env.Peels.tags_not_commit {w : ObjectId} {chain : TagChain} (h : E.Peels db w chain) :
    ∀ t ∈ chain.tags, ∀ {commit : CommitRef}, E.commitAt db t ≠ some commit := by
  induction h with
  | target => simp
  | @tag oid body tag chain ho _ _ ih =>
    intro t ht commit hc
    rcases List.mem_cons.1 ht with rfl | ht
    · obtain ⟨body', ho', -⟩ := commitAt_eq_some.1 hc
      cases ho.symm.trans ho'
    · exact ih t ht hc

theorem Env.PeelsToCommit.sendable {w : ObjectId} {chain : TagChain} (h : E.PeelsToCommit db w chain) :
    Sendable E db w := by
  obtain ⟨hp, hc⟩ := h
  cases hp with
  | target ho hk =>
    obtain ⟨commit, hc⟩ := Option.isSome_iff_exists.1 hc
    obtain ⟨body, ho, -⟩ := commitAt_eq_some.1 hc
    exact ⟨.commit, body, ho, .inl rfl⟩
  | tag ho => exact ⟨.tag, _, ho, .inr rfl⟩

/-- A tree or a blob: what is sent as it is asked for. -/
def Env.IsDirect (E : Env) (db : E.Db) (x : ObjectId) : Prop :=
  ∃ kind body, E.objectAt db x = some (kind, body) ∧ (kind = .tree ∨ kind = .blob)

/-- A want of the store, a tag only if its chain ends in a commit. -/
def Env.Fetchable (E : Env) (db : E.Db) (w : ObjectId) : Prop :=
  E.IsDirect db w ∨ ∃ chain, E.PeelsToCommit db w chain

section Partition

variable {wants : List ObjectId}

/-- The wants of one of two kinds. -/
def Env.wantsOf (E : Env) (db : E.Db) (k k' : Kind) (wants : List ObjectId) : List ObjectId :=
  wants.filter fun w => (E.kindSize db w).1 = k ∨ (E.kindSize db w).1 = k'

/-- Wants that are there are paired with their kinds. -/
theorem run_kinds (db : E.Db) (wants : List ObjectId) :
    (Prog.forEach (fun ((want, size) : ObjectId × Option (Kind × Nat)) =>
      match size with
      | none => Prog.fail (.unknownWant want)
      | some (kind, _) => pure (want, kind)) (wants.map fun x => (x, some (E.kindSize db x))) :
        E.Prog WalkError _).run Db.handler db = some (.ok (wants.map fun x => (x, (E.kindSize db x).1)), db) := by
  refine Prog.run_forEach₂ (List.forall₂_map_left_iff.2 (List.forall₂_map_right_iff.2 ?_))
  exact List.forall₂_same.2 fun x _ => rfl

theorem run_partitionWants (hdb : Intact E db) (h : ∀ w ∈ wants, (E.objectAt db w).isSome) :
    (partitionWants E wants).run Db.handler db = some (.ok
      { history := E.wantsOf db .commit .tag wants
        direct := (E.wantsOf db .tree .blob wants).eraseDups }, db) := by
  rw [partitionWants, Prog.run_bind_ok (run_sizes hdb wants), map_sizeAt h]
  refine (Prog.run_bind_ok (run_kinds db wants)).trans ?_
  rw [Prog.pure_eq, Prog.run_ret]
  simp [OrderedOidSet.intoVec, OrderedOidSet.order_foldl_insert, OrderedOidSet.default, Env.wantsOf,
    List.filter_map, Function.comp_def]

/-- The wants of a partition that succeeds are all there. -/
theorem partitionWants_present (hdb : Intact E db) {partition : WantPartition} {db' : E.Db}
    (hr : (partitionWants E wants).run Db.handler db = some (.ok partition, db')) :
    ∀ w ∈ wants, (E.objectAt db w).isSome := by
  rw [partitionWants, Prog.run_bind_ok (run_sizes hdb wants)] at hr
  obtain ⟨kinds, db₂, hrun, -⟩ := Prog.run_bind_ok_inv hr
  have hall := (Prog.forEach_inv (I := fun _ => True) (R := fun entry _ => entry.2.isSome)
    (fun entry db₁ y db₂ _ hrun => ⟨trivial, ?_⟩) trivial hrun).2
  · intro w hw
    have hsome := List.forall₂_iff_get.1 hall
    obtain ⟨n, hn, hget⟩ := List.mem_iff_getElem.1 (List.mem_map_of_mem (f := fun w => (w, sizeAt E db w)) hw)
    have := hsome.2 n hn (by rw [← hsome.1]; exact hn)
    rw [List.get_eq_getElem, hget] at this
    simpa [sizeAt] using this
  · obtain ⟨want, size⟩ := entry
    cases size with
    | none => cases hrun
    | some size => rfl

theorem mem_wantsOf {k k' : Kind} (h : ∀ w ∈ wants, (E.objectAt db w).isSome) {w : ObjectId} :
    w ∈ E.wantsOf db k k' wants ↔
      w ∈ wants ∧ ∃ kind body, E.objectAt db w = some (kind, body) ∧ (kind = k ∨ kind = k') := by
  simp only [Env.wantsOf, List.mem_filter, decide_eq_true_eq]
  refine and_congr_right fun hw => ?_
  obtain ⟨⟨kind, body⟩, ho⟩ := Option.isSome_iff_exists.1 (h w hw)
  simp [Env.kindSize, ho]

end Partition

theorem mem_addDirect {x : ObjectId} :
    ∀ (direct objects : List ObjectId), x ∈ UploadPack.addDirect direct objects ↔ x ∈ objects ∨ x ∈ direct
  | [], objects => by simp [UploadPack.addDirect]
  | y :: direct, objects => by
    have ih := mem_addDirect (x := x) direct (if y ∈ objects then objects else objects ++ [y])
    rw [UploadPack.addDirect, List.foldl_cons]
    refine ih.trans ?_
    split_ifs with hy
    · simp only [List.mem_cons]
      constructor
      · rintro (hx | hx)
        · exact .inl hx
        · exact .inr (.inr hx)
      · rintro (hx | rfl | hx)
        · exact .inl hx
        · exact .inl hy
        · exact .inr hx
    · simp [or_assoc]

theorem nodup_addDirect : ∀ (direct : List ObjectId) {objects : List ObjectId}, objects.Nodup →
    (UploadPack.addDirect direct objects).Nodup
  | [], objects, h => h
  | y :: direct, objects, h => by
    rw [UploadPack.addDirect, List.foldl_cons]
    refine nodup_addDirect direct ?_
    split_ifs with hy
    · exact h
    · simpa using h.concat hy

theorem nodup_eraseDups (l : List ObjectId) : l.eraseDups.Nodup := by
  have h := OrderedOidSet.order_foldl_insert l .default
  have hnodup := (l.foldl OrderedOidSet.insert .default).nodup
  rw [h] at hnodup
  simpa [OrderedOidSet.default] using hnodup

theorem exists_chains {wants : List ObjectId} (h : ∀ w ∈ wants, ∃ chain, E.PeelsToCommit db w chain) :
    ∃ chains, List.Forall₂ (E.PeelsToCommit db) wants chains := by
  induction wants with
  | nil => exact ⟨[], .nil⟩
  | cons w wants ih =>
    obtain ⟨chain, hc⟩ := h w (by simp)
    obtain ⟨chains, hcs⟩ := ih fun w hw => h w (by simp [hw])
    exact ⟨chain :: chains, .cons hc hcs⟩

theorem mem_chains {wants : List ObjectId} {chains : List TagChain}
    (h : List.Forall₂ (E.PeelsToCommit db) wants chains) {chain : TagChain} :
    chain ∈ chains ↔ ∃ w ∈ wants, E.PeelsToCommit db w chain := by
  induction h with
  | nil => simp
  | @cons w c wants chains hc _ ih =>
    simp only [List.mem_cons, ih]
    constructor
    · rintro (rfl | ⟨w', hw', hc'⟩)
      · exact ⟨w, .inl rfl, hc⟩
      · exact ⟨w', .inr hw', hc'⟩
    · rintro ⟨w', rfl | hw', hc'⟩
      · exact .inl (hc'.1.unique hc.1)
      · exact .inr ⟨w', hw', hc'⟩

/-! ## Scheduling -/

namespace UploadPack

theorem get_foldl_info {f : ObjectId → Kind × Nat} {oid : ObjectId} :
    ∀ (oids : List ObjectId) (m : SortedMap ObjectId (Kind × Nat)),
      ((oids.map fun x => (x, f x)).foldl (fun (m : SortedMap ObjectId (Kind × Nat)) (oid, ks) => m.insert oid ks) m).get
        oid = if oid ∈ oids then some (f oid) else m.get oid
  | [], m => by simp
  | x :: oids, m => by
    rw [List.map_cons, List.foldl_cons, get_foldl_info oids, SortedMap.get_insert]
    by_cases hmem : oid ∈ oids
    · rw [if_pos hmem, if_pos (List.mem_cons_of_mem _ hmem)]
    · by_cases hx : oid = x
      · rw [if_neg hmem, if_pos hx, if_pos (by simp [hx]), hx]
      · rw [if_neg hmem, if_neg hx, if_neg (by simp [hx, hmem])]

/-- A split of objects from a position on: what keeps its place, and the
blobs with a path. -/
structure OfsSplit (info : SortedMap ObjectId (Kind × Nat)) (blobPaths : SortedMap ObjectId Bytes) (position : Nat)
    (oids : List ObjectId) (fixed : List (Nat × ScheduledObject)) (blobs : List ScheduledBlob) : Prop where
  perm : (fixed.map (·.2.oid) ++ blobs.map (·.oid)).Perm oids
  plain : ∀ p ∈ fixed, p.2.deltaGroup = none
  order : (fixed.map (·.2.oid)).Sublist oids
  sorted : fixed.Pairwise fun a b => a.1 ≤ b.1
  bound : ∀ p ∈ fixed, position ≤ p.1
  blobs : ∀ b ∈ blobs, blobPaths.get b.oid = some b.path ∧ b.group = nameHash b.path ∧
    ∃ size, info.get b.oid = some (.blob, size)

section OfsSplit

variable {info : SortedMap ObjectId (Kind × Nat)} {blobPaths : SortedMap ObjectId Bytes} {position : Nat}
  {oids : List ObjectId} {fixed : List (Nat × ScheduledObject)} {blobs : List ScheduledBlob} {x : ObjectId}

theorem OfsSplit.fix (h : OfsSplit info blobPaths (position + 1) oids fixed blobs) (x : ObjectId) :
    OfsSplit info blobPaths position (x :: oids) ((position, ⟨x, none⟩) :: fixed) blobs where
  perm := h.perm.cons x
  plain := List.forall_mem_cons.2 ⟨rfl, h.plain⟩
  order := h.order.cons_cons x
  sorted := List.pairwise_cons.2 ⟨fun p hp => Nat.le_of_succ_le (h.bound p hp), h.sorted⟩
  bound := List.forall_mem_cons.2 ⟨Nat.le_refl _, fun p hp => Nat.le_of_succ_le (h.bound p hp)⟩
  blobs := h.blobs

theorem OfsSplit.group (h : OfsSplit info blobPaths (position + 1) oids fixed blobs) {path : Bytes} {size : Nat}
    (hpath : blobPaths.get x = some path) (hinfo : info.get x = some (.blob, size)) :
    OfsSplit info blobPaths position (x :: oids) fixed (⟨nameHash path, path, size, position, x⟩ :: blobs) where
  perm := List.perm_middle.trans (h.perm.cons x)
  plain := h.plain
  order := h.order.cons x
  sorted := h.sorted
  bound p hp := Nat.le_of_succ_le (h.bound p hp)
  blobs := List.forall_mem_cons.2 ⟨⟨hpath, rfl, size, hinfo⟩, h.blobs⟩

end OfsSplit

theorem splitForOfs_spec (info : SortedMap ObjectId (Kind × Nat)) (blobPaths : SortedMap ObjectId Bytes) :
    ∀ (oids : List ObjectId) (position : Nat), (∀ x ∈ oids, (info.get x).isSome) →
      ∃ fixed blobs, splitForOfs info blobPaths position oids = some (fixed, blobs) ∧
        OfsSplit info blobPaths position oids fixed blobs
  | [], _, _ => ⟨[], [], rfl, .nil, by simp, .slnil, .nil, by simp, by simp⟩
  | x :: oids, position, h => by
    obtain ⟨fixed, blobs, hs, hsplit⟩ := splitForOfs_spec info blobPaths oids (position + 1) fun y hy => h y (by simp [hy])
    obtain ⟨⟨kind, size⟩, hi⟩ := Option.isSome_iff_exists.1 (h x (by simp))
    cases hp : blobPaths.get x with
    | none => exact ⟨_, blobs, by simp [splitForOfs, hs, hp], hsplit.fix x⟩
    | some path =>
      by_cases hk : kind = .blob
      · subst hk
        exact ⟨fixed, _, by simp [splitForOfs, hs, hp, hi], hsplit.group hp hi⟩
      · exact ⟨_, blobs, by simp [splitForOfs, hs, hp, hi, hk], hsplit.fix x⟩

/-- A schedule of the objects collected: those that keep their place, in
order, then blobs grouped by the hash of their path. -/
structure OfsSchedule (E : Env) (db : E.Db) (collected : CollectedObjects) (scheduled : List ScheduledObject) : Prop where
  perm : (scheduled.map (·.oid)).Perm collected.objects
  split : ∃ fixed blobs, scheduled = plainSchedule fixed ++ blobs ∧ fixed.Sublist collected.objects ∧
    ∀ b ∈ blobs, E.IsBlob db b.oid ∧ ∃ path, collected.blobPaths.get b.oid = some path ∧
      b.deltaGroup = some (nameHash path)

theorem isBlob_of_kindSize {x : ObjectId} {size : Nat} (h : (E.objectAt db x).isSome)
    (hk : E.kindSize db x = (.blob, size)) : E.IsBlob db x := by
  obtain ⟨⟨kind, body⟩, ho⟩ := Option.isSome_iff_exists.1 h
  simp only [Env.kindSize, ho, Prod.mk.injEq] at hk
  exact ⟨body, by rw [ho, hk.1]⟩

/-- Scheduling for offset deltas only reorders the objects. -/
theorem run_scheduleForOfs (hdb : Intact E db) {collected : CollectedObjects}
    (h : ∀ x ∈ collected.objects, (E.objectAt db x).isSome) :
    ∃ scheduled, (scheduleForOfs E collected).run Db.handler db = some (.ok scheduled, db) ∧
      OfsSchedule E db collected scheduled := by
  have hget := fun oid => @get_foldl_info (E.kindSize db) oid collected.objects .empty
  obtain ⟨fixed, blobs, hs, hsplit⟩ := splitForOfs_spec
    ((collected.objects.map fun x => (x, E.kindSize db x)).foldl
      (fun (m : SortedMap ObjectId (Kind × Nat)) (oid, ks) => m.insert oid ks) .empty)
    collected.blobPaths collected.objects 0 fun x hx => by
      rw [hget, if_pos hx]
      rfl
  have hrun : (Prog.ofOption (splitForOfs ((collected.objects.map fun x => (x, E.kindSize db x)).foldl
      (fun (m : SortedMap ObjectId (Kind × Nat)) (oid, ks) => m.insert oid ks) .empty) collected.blobPaths 0
        collected.objects) : E.Prog WalkError _).run Db.handler db = some (.ok (fixed, blobs), db) := by
    rw [hs, Prog.run_ofOption_some]
  have hsorted : fixed.mergeSort (fun a b => a.1 ≤ b.1) = fixed :=
    List.mergeSort_of_pairwise (hsplit.sorted.imp fun hle => by simpa using hle)
  refine ⟨fixed.map (·.2) ++ (blobs.mergeSort ScheduledBlob.le).map fun b => ⟨b.oid, some b.group⟩, ?_, ?_,
    fixed.map (·.2.oid), (blobs.mergeSort ScheduledBlob.le).map fun b => ⟨b.oid, some b.group⟩, ?_, hsplit.order, ?_⟩
  · rw [scheduleForOfs]
    refine (Prog.run_bind_ok (run_objectInfo hdb _ h)).trans ?_
    refine (Prog.run_bind_ok hrun).trans ?_
    simp only [hsorted]
    rfl
  · simp only [List.map_append, List.map_map, Function.comp_def]
    exact (((List.mergeSort_perm blobs _).map _).append_left _).trans hsplit.perm
  · rw [plainSchedule, List.map_map]
    refine congrArg (· ++ _) (List.map_congr_left fun p hp => ?_)
    show p.2 = ⟨p.2.oid, none⟩
    rw [← hsplit.plain p hp]
  · intro o ho
    obtain ⟨b, hb, rfl⟩ := List.mem_map.1 ho
    have hb := List.mem_mergeSort.1 hb
    obtain ⟨hpath, hgroup, size, hinfo⟩ := hsplit.blobs b hb
    have hmem : b.oid ∈ collected.objects :=
      hsplit.perm.mem_iff.1 (List.mem_append_right _ (List.mem_map_of_mem hb))
    rw [hget, if_pos hmem] at hinfo
    exact ⟨isBlob_of_kindSize (h _ hmem) (Option.some.inj hinfo), b.path, hpath, by rw [hgroup]⟩

theorem map_oid_plainSchedule (objects : List ObjectId) : (plainSchedule objects).map (·.oid) = objects := by
  simp [plainSchedule, Function.comp_def]

section PlanPack

variable (hdb : Indexed E db) {wants : List ObjectId}

theorem objectAt_of_fetchable {w : ObjectId} (hw : E.Fetchable db w) : (E.objectAt db w).isSome := by
  rcases hw with ⟨kind, body, ho, -⟩ | ⟨chain, hc⟩
  · simp [ho]
  · obtain ⟨kind, body, ho, -⟩ := hc.sendable
    simp [ho]

theorem exists_chain_of_fetchable (hw : ∀ w ∈ wants, E.Fetchable db w) :
    ∀ w ∈ E.wantsOf db .commit .tag wants, ∃ chain, E.PeelsToCommit db w chain := by
  intro w hmem
  obtain ⟨hwants, kind, body, ho, hk⟩ := (mem_wantsOf fun w hw' => objectAt_of_fetchable (hw w hw')).1 hmem
  rcases hw w hwants with ⟨kind', body', ho', hk'⟩ | hchain
  · rw [ho] at ho'
    cases ho'
    rcases hk with rfl | rfl <;> simp at hk'
  · exact hchain

include hdb

/-- Planning a fetch of trees and blobs only. -/
theorem run_planPack_direct (hw : ∀ w ∈ wants, E.Fetchable db w) (hnone : ∀ w ∈ wants, ¬ Sendable E db w)
    (fuel : Nat) (haves : List ObjectId) (filter : FilterSpec) (ofsDeltas : Bool) :
    (planPack E fuel wants haves filter ofsDeltas).run Db.handler db =
      some (.ok { objects := plainSchedule (E.wantsOf db .tree .blob wants).eraseDups, common := [] }, db) := by
  have hobj := fun w hwants => objectAt_of_fetchable (hw w hwants)
  have hempty : E.wantsOf db .commit .tag wants = [] := by
    refine List.eq_nil_iff_forall_not_mem.2 fun w hmem => ?_
    obtain ⟨hwants, hk⟩ := (mem_wantsOf hobj).1 hmem
    exact hnone w hwants hk
  rw [planPack, Prog.run_bind_ok (run_partitionWants hdb.toIntact hobj)]
  simp [hempty]

/-- What discovery selects is commits, and tags on the way to them. -/
theorem sendable_selected {chains : List TagChain} {s : Select} {haves : List ObjectId}
    (hchains : List.Forall₂ (E.PeelsToCommit db) (E.wantsOf db .commit .tag wants) chains)
    (hturn : Discovery.Turn (E.infoAt db) (chains.map (·.target)) haves s) :
    ∀ x ∈ s.toSend ++ (chains.flatMap (·.tags)).eraseDups, Sendable E db x := by
  intro x hx
  rcases List.mem_append.1 hx with hx | hx
  · obtain ⟨chain, hc, ha⟩ := hdb.below_targets.1 (hturn.inv.sent x hx).2
    obtain ⟨body, ho⟩ := hdb.isCommit_iff.1 (commitAt_of_ancestor hdb (commit_of_chain hchains chain hc) ha)
    exact ⟨.commit, body, ho, .inl rfl⟩
  · obtain ⟨chain, hc, hx⟩ := List.mem_flatMap.1 (List.mem_eraseDups.1 hx)
    obtain ⟨w, -, hpeel⟩ := (mem_chains hchains).1 hc
    exact hpeel.1.tags_sendable x hx

/-- Planning a fetch with commits or tags among its wants: what discovery
selects, what collection adds to it, and the trees and blobs asked for. -/
theorem run_planPack_history (ht : TreesTyped E db) (hw : ∀ w ∈ wants, E.Fetchable db w)
    (hsome : ∃ w ∈ wants, Sendable E db w) (haves : List ObjectId) (filter : FilterSpec) (ofsDeltas : Bool) :
    ∃ chains, List.Forall₂ (E.PeelsToCommit db) (E.wantsOf db .commit .tag wants) chains ∧
      ∃ N, ∀ fuel ≥ N, ∃ (plan : PackPlan) (s : Select) (haveObjects : Finset ObjectId),
        (planPack E fuel wants haves filter ofsDeltas).run Db.handler db = some (.ok plan, db) ∧
        Discovery.Turn (E.infoAt db) (chains.map (·.target)) (E.commitsOf db haves) s ∧
        s.discovery.pending = ∅ ∧ plan.common = E.commitsOf db haves ∧
        HaveSet E db filter (E.rootTrees db (E.commitsOf db haves)) haveObjects ∧
        (plan.objects.map (·.oid)).Nodup ∧
        ∀ x, x ∈ plan.objects.map (·.oid) ↔
          x ∈ s.toSend ++ (chains.flatMap (·.tags)).eraseDups ∨
          (∃ r ∈ E.rootTrees db (s.toSend ++ (chains.flatMap (·.tags)).eraseDups), E.InTree db r x) ∧
            x ∉ haveObjects ∧ Admitted E db filter x ∨
          x ∈ E.wantsOf db .tree .blob wants := by
  have hobj := fun w hwants => objectAt_of_fetchable (hw w hwants)
  obtain ⟨chains, hchains⟩ := exists_chains (exists_chain_of_fetchable hw)
  have hne : (E.wantsOf db .commit .tag wants).isEmpty = false := by
    obtain ⟨w, hwants, hs⟩ := hsome
    have hmem : w ∈ E.wantsOf db .commit .tag wants := (mem_wantsOf hobj).2 ⟨hwants, hs⟩
    cases hl : E.wantsOf db .commit .tag wants with
    | nil => simp [hl] at hmem
    | cons => rfl
  obtain ⟨N, hN⟩ := hdb.run_selectCommits haves hchains
  refine ⟨chains, hchains, max N (2 * Fintype.card ObjectId + 2), fun fuel hfuel => ?_⟩
  obtain ⟨s, hselect, hturn, hpend⟩ := hN fuel (by omega)
  have hsend := sendable_selected hdb hchains hturn
  obtain ⟨c, haveObjects, hcollect, hset, hnodup, hmem⟩ := run_collectInner hdb ht hsend (E.commitsOf db haves) filter
    ofsDeltas (by omega : 2 * Fintype.card ObjectId + 1 < fuel)
  set collected : CollectedObjects :=
    { objects := addDirect (E.wantsOf db .tree .blob wants).eraseDups c.objects
      blobPaths := if ofsDeltas then c.blobPaths else .empty } with hcollected
  have hmem' : ∀ x, x ∈ collected.objects ↔
      x ∈ s.toSend ++ (chains.flatMap (·.tags)).eraseDups ∨
      (∃ r ∈ E.rootTrees db (s.toSend ++ (chains.flatMap (·.tags)).eraseDups), E.InTree db r x) ∧
        x ∉ haveObjects ∧ Admitted E db filter x ∨
      x ∈ E.wantsOf db .tree .blob wants := by
    intro x
    rw [hcollected, mem_addDirect, hmem, List.mem_eraseDups, or_assoc]
  have hpresent : ∀ x ∈ collected.objects, (E.objectAt db x).isSome := by
    intro x hx
    rcases (hmem' x).1 hx with hx | ⟨⟨r, hr, hin⟩, -⟩ | hx
    · obtain ⟨kind, body, ho, -⟩ := hsend x hx
      simp [ho]
    · exact objectAt_of_inTree ht (treeAt_of_mem_rootTrees ht hr) hin
    · exact hobj x ((mem_wantsOf hobj).1 hx).1
  have hrun : (planPack E fuel wants haves filter ofsDeltas).run Db.handler db =
      ((if ofsDeltas then scheduleForOfs E collected else pure (plainSchedule collected.objects) : E.Prog WalkError _)
        >>= fun objects => pure { objects, common := E.commitsOf db haves }).run Db.handler db := by
    rw [planPack, Prog.run_bind_ok (run_partitionWants hdb.toIntact hobj)]
    simp only [hne, Bool.false_eq_true, if_false]
    rw [Prog.run_bind_ok hselect]
    cases ofsDeltas with
    | true => exact Prog.run_bind_ok hcollect
    | false =>
      have hplain : (collect E fuel (s.toSend ++ (chains.flatMap (·.tags)).eraseDups) (E.commitsOf db haves)
          filter).run Db.handler db = some (.ok c.objects, db) := by
        rw [collect, Prog.run_bind_ok hcollect]
        rfl
      exact Prog.run_bind_ok hplain
  have hnodup' : collected.objects.Nodup := nodup_addDirect _ hnodup
  cases ofsDeltas with
  | true =>
    obtain ⟨scheduled, hsched, hperm, -⟩ := run_scheduleForOfs hdb.toIntact hpresent
    refine ⟨{ objects := scheduled, common := E.commitsOf db haves }, s, haveObjects, ?_, hturn, hpend, rfl, hset,
      hperm.nodup_iff.2 hnodup', fun x => ?_⟩
    · rw [hrun]
      exact Prog.run_bind_ok hsched
    · rw [hperm.mem_iff, hmem']
  | false =>
    refine ⟨{ objects := plainSchedule collected.objects, common := E.commitsOf db haves }, s, haveObjects, ?_,
      hturn, hpend, rfl, hset, ?_, fun x => ?_⟩
    · rw [hrun]
      rfl
    · rw [map_oid_plainSchedule]
      exact hnodup'
    · rw [map_oid_plainSchedule, hmem']

end PlanPack

end UploadPack

/-! ## Complete packs -/

/-- `c` is a commit the history wants reach and no have does. -/
def SelectedCommit (E : Env) (db : E.Db) (wants haves : List ObjectId) (c : ObjectId) : Prop :=
  (∃ w ∈ wants, ∃ chain, E.PeelsToCommit db w chain ∧ E.Ancestor db c chain.target) ∧
    ¬ ∃ h ∈ haves, (E.commitAt db h).isSome ∧ E.Ancestor db c h

/-- `t` is a tag on the chain of a history want. -/
def SelectedTag (E : Env) (db : E.Db) (wants : List ObjectId) (t : ObjectId) : Prop :=
  ∃ w ∈ wants, ∃ chain, E.PeelsToCommit db w chain ∧ t ∈ chain.tags

/-- `x` is in the tree of the commit `c`. -/
def Env.InCommit (E : Env) (db : E.Db) (c x : ObjectId) : Prop :=
  ∃ commit, E.commitAt db c = some commit ∧ E.InTree db commit.tree x

/-- A plan that sends what the wants need and the haves do not give. -/
structure CompletePack (E : Env) (db : E.Db) (wants haves : List ObjectId) (plan : PackPlan) : Prop where
  nodup : (plan.objects.map (·.oid)).Nodup
  /-- The objects are the selected commits and tags, what is in the trees of
  the selected commits and not in those of the common commits, and the trees
  and blobs asked for. -/
  objects : ∀ x, x ∈ plan.objects.map (·.oid) ↔
    (SelectedCommit E db wants haves x ∨ SelectedTag E db wants x ∨
      (∃ c, SelectedCommit E db wants haves c ∧ E.InCommit db c x) ∧ ¬ ∃ h ∈ plan.common, E.InCommit db h x) ∨
    x ∈ wants ∧ E.IsDirect db x
  /-- With the closure of the common commits, they hold the closure of every
  history want. -/
  complete : ∀ w ∈ wants, Sendable E db w → ∀ y, E.Reaches db w y →
    y ∈ plan.objects.map (·.oid) ∨ ∃ h ∈ plan.common, E.Reaches db h y
  /-- Each is in the closure of a history want or asked for directly. -/
  minimal : ∀ y ∈ plan.objects.map (·.oid),
    (∃ w ∈ wants, Sendable E db w ∧ E.Reaches db w y) ∨ y ∈ wants ∧ E.IsDirect db y
  /-- With a history want, the haves that name commits are reported common. -/
  common : (∃ w ∈ wants, Sendable E db w) → plan.common = (haves.filter fun h => (E.commitAt db h).isSome).eraseDups
  commonNone : (∀ w ∈ wants, ¬ Sendable E db w) → plan.common = [] ∧
    ∀ x, x ∈ plan.objects.map (·.oid) ↔ x ∈ wants ∧ E.IsDirect db x

theorem Env.InCommit.reaches (hdb : Indexed E db) (ht : TreesTyped E db) {c x : ObjectId} (h : E.InCommit db c x) :
    E.Reaches db c x := by
  obtain ⟨commit, hc, hin⟩ := h
  exact (reaches_commit hdb ht (by simp [hc])).2 ⟨c, commit, .refl, hc, .inr hin⟩

theorem not_direct_of_sendable {x : ObjectId} (hs : Sendable E db x) : ¬ E.IsDirect db x := by
  rintro ⟨kind, body, ho, hk⟩
  obtain ⟨kind', body', ho', hk'⟩ := hs
  cases ho.symm.trans ho'
  rcases hk with rfl | rfl <;> simp at hk'

section Complete

variable (hdb : Indexed E db) (ht : TreesTyped E db) {wants haves : List ObjectId} {plan : PackPlan}

include hdb ht

/-- The closure of a history want is covered by the selected objects and the
closure of the common commits. -/
theorem complete_of_objects (hw : ∀ w ∈ wants, E.Fetchable db w)
    (hcommon : ∀ h, h ∈ plan.common ↔ h ∈ haves ∧ (E.commitAt db h).isSome)
    (hobj : ∀ x, x ∈ plan.objects.map (·.oid) ↔
      (SelectedCommit E db wants haves x ∨ SelectedTag E db wants x ∨
        (∃ c, SelectedCommit E db wants haves c ∧ E.InCommit db c x) ∧ ¬ ∃ h ∈ plan.common, E.InCommit db h x) ∨
      x ∈ wants ∧ E.IsDirect db x) {w y : ObjectId} (hwants : w ∈ wants) (hs : Sendable E db w)
    (hy : E.Reaches db w y) : y ∈ plan.objects.map (·.oid) ∨ ∃ h ∈ plan.common, E.Reaches db h y := by
  obtain ⟨chain, hchain⟩ : ∃ chain, E.PeelsToCommit db w chain :=
    (hw w hwants).resolve_left (not_direct_of_sendable hs)
  rcases (reaches_chain hchain.1).1 hy with htag | hy
  · exact .inl ((hobj y).2 (.inl (.inr (.inl ⟨w, hwants, chain, hchain, htag⟩))))
  · obtain ⟨a, commit, ha, hcommit, hya⟩ := (reaches_commit hdb ht hchain.2).1 hy
    by_cases hdom : ∃ h ∈ haves, (E.commitAt db h).isSome ∧ E.Ancestor db a h
    · obtain ⟨h, hh, hc, hah⟩ := hdom
      exact .inr ⟨h, (hcommon h).2 ⟨hh, hc⟩, (reaches_commit hdb ht hc).2 ⟨a, commit, hah, hcommit, hya⟩⟩
    · have hsel : SelectedCommit E db wants haves a := ⟨⟨w, hwants, chain, hchain, ha⟩, hdom⟩
      rcases hya with rfl | hin
      · exact .inl ((hobj y).2 (.inl (.inl hsel)))
      · by_cases hhave : ∃ h ∈ plan.common, E.InCommit db h y
        · obtain ⟨h, hh, hin'⟩ := hhave
          exact .inr ⟨h, hh, hin'.reaches hdb ht⟩
        · exact .inl ((hobj y).2 (.inl (.inr (.inr ⟨⟨a, hsel, commit, hcommit, hin⟩, hhave⟩))))

theorem minimal_of_objects
    (hobj : ∀ x, x ∈ plan.objects.map (·.oid) ↔
      (SelectedCommit E db wants haves x ∨ SelectedTag E db wants x ∨
        (∃ c, SelectedCommit E db wants haves c ∧ E.InCommit db c x) ∧ ¬ ∃ h ∈ plan.common, E.InCommit db h x) ∨
      x ∈ wants ∧ E.IsDirect db x) {y : ObjectId} (hy : y ∈ plan.objects.map (·.oid)) :
    (∃ w ∈ wants, Sendable E db w ∧ E.Reaches db w y) ∨ y ∈ wants ∧ E.IsDirect db y := by
  have hcommit : ∀ c, SelectedCommit E db wants haves c → ∃ w ∈ wants, Sendable E db w ∧ E.Reaches db w c := by
    rintro c ⟨⟨w, hwants, chain, hchain, ha⟩, -⟩
    obtain ⟨commit, hc⟩ := Option.isSome_iff_exists.1 (commitAt_of_ancestor hdb hchain.2 ha)
    refine ⟨w, hwants, hchain.sendable, (reaches_chain hchain.1).2 (.inr ?_)⟩
    exact (reaches_commit hdb ht hchain.2).2 ⟨c, commit, ha, hc, .inl rfl⟩
  rcases (hobj y).1 hy with (hsel | ⟨w, hwants, chain, hchain, htag⟩ | ⟨⟨c, hsel, hin⟩, -⟩) | hdirect
  · exact .inl (hcommit y hsel)
  · exact .inl ⟨w, hwants, hchain.sendable, (reaches_chain hchain.1).2 (.inl htag)⟩
  · obtain ⟨w, hwants, hs, hr⟩ := hcommit c hsel
    exact .inl ⟨w, hwants, hs, hr.trans (hin.reaches hdb ht)⟩
  · exact .inr hdirect

end Complete

/-- What the root trees of some commits hold is what the commits hold. -/
theorem inTree_rootTrees {ids : List ObjectId} {x : ObjectId} :
    (∃ r ∈ E.rootTrees db ids, E.InTree db r x) ↔ ∃ c ∈ ids, E.InCommit db c x := by
  constructor
  · rintro ⟨r, hr, hin⟩
    obtain ⟨c, hc, commit, hcommit, rfl⟩ := mem_rootTrees.1 hr
    exact ⟨c, hc, commit, hcommit, hin⟩
  · rintro ⟨c, hc, commit, hcommit, hin⟩
    exact ⟨commit.tree, mem_rootTrees.2 ⟨c, hc, commit, hcommit, rfl⟩, hin⟩

section Selected

variable {wants haves : List ObjectId} {chains : List TagChain}

theorem mem_wantChains (hobj : ∀ w ∈ wants, (E.objectAt db w).isSome)
    (hchains : List.Forall₂ (E.PeelsToCommit db) (E.wantsOf db .commit .tag wants) chains) {chain : TagChain} :
    chain ∈ chains ↔ ∃ w ∈ wants, E.PeelsToCommit db w chain := by
  rw [mem_chains hchains]
  constructor
  · rintro ⟨w, hwh, hpeel⟩
    exact ⟨w, ((mem_wantsOf hobj).1 hwh).1, hpeel⟩
  · rintro ⟨w, hwants, hpeel⟩
    exact ⟨w, (mem_wantsOf hobj).2 ⟨hwants, hpeel.sendable⟩, hpeel⟩

theorem selectedTag_iff (hchain : ∀ chain, chain ∈ chains ↔ ∃ w ∈ wants, E.PeelsToCommit db w chain) {t : ObjectId} :
    t ∈ (chains.flatMap (·.tags)).eraseDups ↔ SelectedTag E db wants t := by
  rw [List.mem_eraseDups, List.mem_flatMap]
  constructor
  · rintro ⟨chain, hc, ht⟩
    obtain ⟨w, hwants, hpeel⟩ := (hchain chain).1 hc
    exact ⟨w, hwants, chain, hpeel, ht⟩
  · rintro ⟨w, hwants, chain, hpeel, ht⟩
    exact ⟨chain, (hchain chain).2 ⟨w, hwants, hpeel⟩, ht⟩

theorem selectedCommit_iff (hchain : ∀ chain, chain ∈ chains ↔ ∃ w ∈ wants, E.PeelsToCommit db w chain)
    {c : ObjectId} :
    SelectedCommit E db wants haves c ↔ (∃ chain ∈ chains, E.Ancestor db c chain.target) ∧
      ¬ ∃ h ∈ haves, (E.commitAt db h).isSome ∧ E.Ancestor db c h := by
  refine and_congr_left fun _ => ?_
  constructor
  · rintro ⟨w, hwants, chain, hpeel, ha⟩
    exact ⟨chain, (hchain chain).2 ⟨w, hwants, hpeel⟩, ha⟩
  · rintro ⟨chain, hc, ha⟩
    obtain ⟨w, hwants, hpeel⟩ := (hchain chain).1 hc
    exact ⟨w, hwants, chain, hpeel, ha⟩

/-- With no history want, the trees and blobs asked for are all. -/
theorem completePack_direct (hobj : ∀ w ∈ wants, (E.objectAt db w).isSome)
    (hnone : ∀ w ∈ wants, ¬ Sendable E db w) :
    CompletePack E db wants haves
      { objects := UploadPack.plainSchedule (E.wantsOf db .tree .blob wants).eraseDups, common := [] } := by
  have hobjects : ∀ x, x ∈ (UploadPack.plainSchedule (E.wantsOf db .tree .blob wants).eraseDups).map (·.oid) ↔
      x ∈ wants ∧ E.IsDirect db x := by
    intro x
    rw [UploadPack.map_oid_plainSchedule, List.mem_eraseDups]
    exact mem_wantsOf hobj
  have hnocommit : ∀ c, ¬ SelectedCommit E db wants haves c := by
    rintro c ⟨⟨w, hwants, chain, hpeel, -⟩, -⟩
    exact hnone w hwants hpeel.sendable
  have hnotag : ∀ t, ¬ SelectedTag E db wants t := by
    rintro t ⟨w, hwants, chain, hpeel, -⟩
    exact hnone w hwants hpeel.sendable
  refine ⟨?_, fun x => ?_, fun w hwants hs => absurd hs (hnone w hwants), fun y hy => .inr ((hobjects y).1 hy),
    fun ⟨w, hwants, hs⟩ => absurd hs (hnone w hwants), fun _ => ⟨rfl, hobjects⟩⟩
  · rw [UploadPack.map_oid_plainSchedule]
    exact nodup_eraseDups _
  · rw [hobjects]
    simp [hnocommit, hnotag]

end Selected

/-- A planned pack is complete and minimal for the client's haves. -/
theorem planPack_complete (hdb : Indexed E db) (hgen : Generations E db) (ht : TreesTyped E db)
    {wants : List ObjectId} (hw : ∀ w ∈ wants, E.Fetchable db w) (haves : List ObjectId) :
    ∃ N, ∀ fuel ≥ N, ∃ plan, E.run (UploadPack.planPack E fuel wants haves .none false) db = some (.ok plan, db) ∧
      CompletePack E db wants haves plan := by
  have hobj := fun w hwants => UploadPack.objectAt_of_fetchable (hw w hwants)
  by_cases hsome : ∃ w ∈ wants, Sendable E db w
  · obtain ⟨chains, hchains, N, hN⟩ := UploadPack.run_planPack_history hdb ht hw hsome haves .none false
    refine ⟨N, fun fuel hfuel => ?_⟩
    obtain ⟨plan, s, haveObjects, hrun, hturn, hp, hcommon, hset, hnodup, hmem⟩ := hN fuel hfuel
    have hchain := fun chain => @mem_wantChains E db wants chains hobj hchains chain
    have hsel : ∀ c, c ∈ s.toSend ↔ SelectedCommit E db wants haves c := by
      intro c
      rw [hturn.mem_toSend (graded_of_generations hgen) hp, hdb.below_commitsOf, hdb.below_targets,
        selectedCommit_iff hchain]
    have htag := fun t => @selectedTag_iff E db wants chains hchain t
    have hroots : ∀ x, (∃ r ∈ E.rootTrees db (s.toSend ++ (chains.flatMap (·.tags)).eraseDups), E.InTree db r x) ↔
        ∃ c, SelectedCommit E db wants haves c ∧ E.InCommit db c x := by
      intro x
      rw [inTree_rootTrees]
      constructor
      · rintro ⟨c, hc, hin⟩
        rcases List.mem_append.1 hc with hc | hc
        · exact ⟨c, (hsel c).1 hc, hin⟩
        · -- The root of a tag is none.
          obtain ⟨w, -, chain, hpeel, hct⟩ := (htag c).1 hc
          obtain ⟨commit, hcommit, -⟩ := hin
          exact absurd hcommit (hpeel.1.tags_not_commit c hct)
      · rintro ⟨c, hc, hin⟩
        exact ⟨c, List.mem_append_left _ ((hsel c).2 hc), hin⟩
    have hhave : ∀ x, x ∈ haveObjects ↔ ∃ h ∈ plan.common, E.InCommit db h x := by
      intro x
      rw [hset.mem_iff (by simp), hcommon, inTree_rootTrees]
    have hobjects : ∀ x, x ∈ plan.objects.map (·.oid) ↔
        (SelectedCommit E db wants haves x ∨ SelectedTag E db wants x ∨
          (∃ c, SelectedCommit E db wants haves c ∧ E.InCommit db c x) ∧ ¬ ∃ h ∈ plan.common, E.InCommit db h x) ∨
        x ∈ wants ∧ E.IsDirect db x := by
      intro x
      have hdirect : x ∈ E.wantsOf db .tree .blob wants ↔ x ∈ wants ∧ E.IsDirect db x := mem_wantsOf hobj
      rw [hmem, hroots, List.mem_append, hsel, htag, hhave, hdirect]
      have hadm : Admitted E db .none x := fun _ _ => trivial
      simp only [hadm, and_true, or_assoc]
    refine ⟨plan, hrun, ⟨hnodup, hobjects, fun w hwants hs y hy => ?_, fun y hy => ?_, fun _ => hcommon,
      fun hnone => ?_⟩⟩
    · refine complete_of_objects hdb ht hw (fun h => ?_) hobjects hwants hs hy
      rw [hcommon, mem_commitsOf]
    · exact minimal_of_objects hdb ht hobjects hy
    · obtain ⟨w, hwants, hs⟩ := hsome
      exact absurd hs (hnone w hwants)
  · have hnone : ∀ w ∈ wants, ¬ Sendable E db w := fun w hwants hs => hsome ⟨w, hwants, hs⟩
    exact ⟨0, fun fuel _ => ⟨_, UploadPack.run_planPack_direct hdb hw hnone fuel haves .none false,
      completePack_direct hobj hnone⟩⟩

/-- Asking the sample repository for its tag and its blob while having its
root. -/
theorem planPack_complete_sample :
    ∃ N, ∀ fuel ≥ N, ∃ plan,
      Sample.env.run (UploadPack.planPack Sample.env fuel [Sample.tagId, Sample.blobId] [Sample.rootId] .none false)
        Sample.db = some (.ok plan, Sample.db) ∧
      CompletePack Sample.env Sample.db [Sample.tagId, Sample.blobId] [Sample.rootId] plan := by
  refine planPack_complete Sample.indexed Sample.generations Sample.typed (fun w hw => ?_) [Sample.rootId]
  simp only [List.mem_cons, List.not_mem_nil, or_false] at hw
  rcases hw with rfl | rfl
  · exact .inr ⟨_, Sample.peels_tag⟩
  · exact .inl ⟨.blob, Sample.blobBody, by rw [Sample.objectAt_db]; rfl, .inr rfl⟩

end Miscreant
