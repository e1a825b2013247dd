/-
Object collection (`Walker.collect`) against reachability through trees.

Both breadth-first walks, of the haves (`HaveLevel`) and of the trees to send
(`Collected`), keep a set that is closed under entries except at the trees of
the level still to be read. The set only grows and ids are finite, so the
level is empty in the end and the set is the closure.
-/
import Miscreant.SelectFacts

namespace Miscreant

open Lib

variable {E : Env} {db : E.Db}

/-! ## Entries -/

/-- The id of a walked entry. -/
def TreeEntry.oid : TreeEntry → ObjectId
  | .subtree oid _ | .leaf oid _ => oid

/-- A name is there when names are asked for. -/
def TreeEntry.Named (includeNames : Bool) : TreeEntry → Prop
  | .subtree _ name | .leaf _ name => includeNames = true → name.isSome

theorem OrderedOidSet.mem_insert {s : OrderedOidSet} {x y : ObjectId} :
    y ∈ (s.insert x).order ↔ y ∈ s.order ∨ y = x := by
  unfold OrderedOidSet.insert
  split_ifs with h
  · constructor
    · exact .inl
    · rintro (hy | rfl)
      · exact hy
      · exact h
  · simp

/-- The kind and size of an object. -/
def Env.kindSize (E : Env) (db : E.Db) (x : ObjectId) : Kind × Nat :=
  match E.objectAt db x with
  | some (kind, body) => (kind, body.length)
  | none => (.blob, 0)

/-- The entries a level reads, with their trees' paths. -/
def Env.levelEntries (E : Env) (db : E.Db) (recordPaths : Bool) (level : List (ObjectId × Bytes)) :
    List (Bytes × TreeEntry) :=
  (level.zip ((level.map (·.1)).map (E.entriesAt db recordPaths))).flatMap fun ((_, parentPath), entries) =>
    entries.map fun entry => (parentPath, entry)

/-- The root trees of the commits among `ids`. -/
def Env.rootTrees (E : Env) (db : E.Db) (ids : List ObjectId) : List ObjectId :=
  (ids.filterMap (E.commitAt db)).map (·.tree)

namespace Walker

theorem mem_entriesAt {includeNames : Bool} {t : ObjectId} {e : TreeEntry} :
    e ∈ E.entriesAt db includeNames t ↔
      ∃ entries, E.treeAt db t = some entries ∧ ∃ r ∈ entries, keepEntry includeNames r = some e := by
  rw [Env.entriesAt, List.mem_filterMap]
  cases ht : E.treeAt db t <;> simp

theorem entry_of_mem {includeNames : Bool} {t : ObjectId} {e : TreeEntry} (h : e ∈ E.entriesAt db includeNames t) :
    E.Entry db t e.oid := by
  obtain ⟨entries, ht, r, hr, hk⟩ := mem_entriesAt.1 h
  refine ⟨entries, ht, r, hr, ?_⟩
  unfold keepEntry at hk
  split at hk <;> simp_all [TreeEntry.oid]
  · subst hk; rfl
  · subst hk; rfl

theorem mem_of_entry {t y : ObjectId} (includeNames : Bool) (h : E.Entry db t y) :
    ∃ e ∈ E.entriesAt db includeNames t, e.oid = y := by
  obtain ⟨entries, ht, r, hr, hm, rfl⟩ := h
  have hsome : (keepEntry includeNames r).isSome := by
    unfold keepEntry
    split <;> simp_all
  obtain ⟨e, he⟩ := Option.isSome_iff_exists.1 hsome
  refine ⟨e, mem_entriesAt.2 ⟨entries, ht, r, hr, he⟩, ?_⟩
  unfold keepEntry at he
  split at he <;> simp_all
  · subst he; rfl
  · subst he; rfl

theorem named_of_mem {includeNames : Bool} {t : ObjectId} {e : TreeEntry} (h : e ∈ E.entriesAt db includeNames t) :
    e.Named includeNames := by
  obtain ⟨entries, -, r, -, hk⟩ := mem_entriesAt.1 h
  unfold keepEntry at hk
  split at hk
  · cases hk; intro hn; simp [hn]
  · cases hk
  · cases hk; intro hn; simp [hn]

section Typed

variable (ht : TreesTyped E db)

include ht

theorem subtree_treeAt {includeNames : Bool} {t x : ObjectId} {name : Option Bytes}
    (h : TreeEntry.subtree x name ∈ E.entriesAt db includeNames t) : (E.treeAt db x).isSome := by
  obtain ⟨entries, hent, r, hr, hk⟩ := mem_entriesAt.1 h
  unfold keepEntry at hk
  split at hk
  · rename_i hm
    cases hk
    obtain ⟨body, hb⟩ := ht.subtree t entries hent r hr hm
    exact ht.decodes _ body hb
  · cases hk
  · cases hk

theorem leaf_isBlob {includeNames : Bool} {t x : ObjectId} {name : Option Bytes}
    (h : TreeEntry.leaf x name ∈ E.entriesAt db includeNames t) : E.IsBlob db x := by
  obtain ⟨entries, hent, r, hr, hk⟩ := mem_entriesAt.1 h
  unfold keepEntry at hk
  split at hk
  · cases hk
  · cases hk
  · rename_i hne hnc
    cases hk
    exact ht.leaf t entries hent r hr hne hnc

theorem root_treeAt {c : ObjectId} {commit : CommitRef} (h : E.commitAt db c = some commit) :
    (E.treeAt db commit.tree).isSome := by
  obtain ⟨body, hb⟩ := ht.root c commit h
  exact ht.decodes _ body hb

end Typed

/-! ## The have-set -/

/-- How many more levels a walk that has collected `n` ids can have. -/
noncomputable def levelsLeft {α : Type} (n : Nat) (level : List α) : Nat :=
  2 * (Fintype.card ObjectId - n) + if level.isEmpty then 0 else 1

theorem levelsLeft_le {α : Type} (n : Nat) (level : List α) :
    levelsLeft n level ≤ 2 * Fintype.card ObjectId + 1 := by
  unfold levelsLeft
  split <;> omega

/-- A level read uses up one of the levels left. -/
theorem levelsLeft_lt {α : Type} {n n' : Nat} {level level' : List α} (hle : n ≤ n')
    (hcard : n' ≤ Fintype.card ObjectId) (hlevel : level ≠ []) (hnew : level' ≠ [] → n < n') :
    levelsLeft n' level' < levelsLeft n level := by
  unfold levelsLeft
  by_cases h' : level' = []
  · simp [h', hlevel]
    omega
  · have := hnew h'
    simp [h', hlevel]
    omega

/-- What adding a list of entries to the have-set does. -/
structure HaveLevel.Added (filter : FilterSpec) (entries : List TreeEntry) (s s' : HaveLevel) : Prop where
  mono : s.haveObjects ⊆ s'.haveObjects
  level : ∀ x ∈ s'.level, x ∈ s.level ∨
    x ∈ s'.haveObjects ∧ x ∉ s.haveObjects ∧ ∃ name, TreeEntry.subtree x name ∈ entries
  levelMono : ∀ x ∈ s.level, x ∈ s'.level
  new : ∀ x ∈ s'.haveObjects, x ∈ s.haveObjects ∨ x ∈ s'.level ∧ (∃ name, TreeEntry.subtree x name ∈ entries) ∨
    ∃ name, TreeEntry.leaf x name ∈ entries
  subtree : ∀ x name, TreeEntry.subtree x name ∈ entries → x ∈ s'.haveObjects
  leaf : ∀ x name, TreeEntry.leaf x name ∈ entries → filter = .blobNone ∨ x ∈ s'.haveObjects

theorem HaveLevel.Added.refl (filter : FilterSpec) (s : HaveLevel) : HaveLevel.Added filter [] s s :=
  ⟨fun _ h => h, fun _ h => .inl h, fun _ h => h, fun _ h => .inl h, by simp, by simp⟩

theorem HaveLevel.Added.trans {filter : FilterSpec} {l l' : List TreeEntry} {s s' s'' : HaveLevel}
    (h : HaveLevel.Added filter l s s') (h' : HaveLevel.Added filter l' s' s'') :
    HaveLevel.Added filter (l ++ l') s s'' where
  mono x hx := h'.mono (h.mono hx)
  level x hx := by
    rcases h'.level x hx with hx | ⟨hin, hnot, name, hmem⟩
    · rcases h.level x hx with hx | ⟨hin, hnot, name, hmem⟩
      · exact .inl hx
      · exact .inr ⟨h'.mono hin, hnot, name, by simp [hmem]⟩
    · exact .inr ⟨hin, fun hx' => hnot (h.mono hx'), name, by simp [hmem]⟩
  levelMono x hx := h'.levelMono x (h.levelMono x hx)
  new x hx := by
    rcases h'.new x hx with hx | ⟨hl, name, hmem⟩ | ⟨name, hmem⟩
    · rcases h.new x hx with hx | ⟨hl, name, hmem⟩ | ⟨name, hmem⟩
      · exact .inl hx
      · exact .inr (.inl ⟨h'.levelMono x hl, name, by simp [hmem]⟩)
      · exact .inr (.inr ⟨name, by simp [hmem]⟩)
    · exact .inr (.inl ⟨hl, name, by simp [hmem]⟩)
    · exact .inr (.inr ⟨name, by simp [hmem]⟩)
  subtree x name hmem := by
    rcases List.mem_append.1 hmem with hmem | hmem
    · exact h'.mono (h.subtree x name hmem)
    · exact h'.subtree x name hmem
  leaf x name hmem := by
    rcases List.mem_append.1 hmem with hmem | hmem
    · exact (h.leaf x name hmem).imp id fun hx => h'.mono hx
    · exact h'.leaf x name hmem

theorem HaveLevel.Added.of_addEntry (filter : FilterSpec) (s : HaveLevel) (e : TreeEntry) :
    HaveLevel.Added filter [e] s (s.addEntry filter e) := by
  cases e with
  | subtree x name =>
    simp only [HaveLevel.addEntry, HaveLevel.addTree]
    split_ifs with hx
    · exact ⟨fun _ h => h, fun _ h => .inl h, fun _ h => h, fun _ h => .inl h, by simpa using hx, by simp⟩
    · refine ⟨by simp, fun y hy => ?_, fun y hy => by simp [hy], fun y hy => ?_, by simp, by simp⟩
      · simp only [List.mem_append, List.mem_singleton] at hy
        rcases hy with hy | rfl
        · exact .inl hy
        · exact .inr ⟨by simp, hx, name, by simp⟩
      · simp only [Finset.mem_insert] at hy
        rcases hy with rfl | hy
        · exact .inr (.inl ⟨by simp, name, by simp⟩)
        · exact .inl hy
  | leaf x name =>
    simp only [HaveLevel.addEntry]
    split_ifs with hf
    · exact ⟨fun _ h => h, fun _ h => .inl h, fun _ h => h, fun _ h => .inl h, by simp, fun _ _ _ => .inl hf⟩
    · refine ⟨by simp, fun y hy => .inl hy, fun y hy => hy, fun y hy => ?_, by simp, by simp⟩
      simp only [Finset.mem_insert] at hy
      rcases hy with rfl | hy
      · exact .inr (.inr ⟨name, by simp⟩)
      · exact .inl hy

theorem HaveLevel.added_foldl (filter : FilterSpec) :
    ∀ (entries : List TreeEntry) (s : HaveLevel),
      HaveLevel.Added filter entries s (entries.foldl (HaveLevel.addEntry filter) s)
  | [], s => .refl filter s
  | e :: entries, s => (HaveLevel.Added.of_addEntry filter s e).trans (HaveLevel.added_foldl filter entries _)

/-- A have-set: what its roots reach through trees, less the blobs a
`blob:none` filter leaves out of it. -/
structure HaveSet (E : Env) (db : E.Db) (filter : FilterSpec) (roots : List ObjectId)
    (haveObjects : Finset ObjectId) : Prop where
  sound : ∀ x ∈ haveObjects, ∃ r ∈ roots, E.InTree db r x
  roots : ∀ r ∈ roots, r ∈ haveObjects
  closed : ∀ x ∈ haveObjects, ∀ y, E.Entry db x y → y ∈ haveObjects ∨ filter = .blobNone ∧ E.IsBlob db y

theorem HaveSet.of_mem_iff {filter : FilterSpec} {roots roots' : List ObjectId} {haveObjects : Finset ObjectId}
    (h : HaveSet E db filter roots haveObjects) (hr : ∀ r, r ∈ roots ↔ r ∈ roots') :
    HaveSet E db filter roots' haveObjects where
  sound x hx := by
    obtain ⟨r, hmem, hin⟩ := h.sound x hx
    exact ⟨r, (hr r).1 hmem, hin⟩
  roots r hmem := h.roots r ((hr r).2 hmem)
  closed := h.closed

/-- Without a `blob:none` filter a have-set is all its roots reach. -/
theorem HaveSet.mem_iff {filter : FilterSpec} {roots : List ObjectId} {haveObjects : Finset ObjectId}
    (h : HaveSet E db filter roots haveObjects) (hf : filter ≠ .blobNone) {x : ObjectId} :
    x ∈ haveObjects ↔ ∃ r ∈ roots, E.InTree db r x := by
  refine ⟨h.sound x, ?_⟩
  rintro ⟨r, hr, hin⟩
  induction hin with
  | refl => exact h.roots r hr
  | tail _ hyz ih => exact (h.closed _ ih _ hyz).resolve_right fun hb => hf hb.1

/-- The have-set under construction, closed but for the trees of the level. -/
structure HaveLevel.Inv (E : Env) (db : E.Db) (filter : FilterSpec) (roots : List ObjectId) (s : HaveLevel) :
    Prop where
  typed : ∀ t ∈ s.level, (E.treeAt db t).isSome
  sound : ∀ x ∈ s.haveObjects, ∃ r ∈ roots, E.InTree db r x
  roots : ∀ r ∈ roots, r ∈ s.haveObjects
  closed : ∀ x ∈ s.haveObjects, x ∉ s.level → ∀ y, E.Entry db x y →
    y ∈ s.haveObjects ∨ filter = .blobNone ∧ E.IsBlob db y
  levelIn : ∀ t ∈ s.level, t ∈ s.haveObjects

theorem HaveLevel.Inv.start (filter : FilterSpec) {roots : List ObjectId}
    (hr : ∀ r ∈ roots, (E.treeAt db r).isSome) :
    HaveLevel.Inv E db filter roots (roots.foldl HaveLevel.addTree ⟨∅, []⟩) := by
  have hadd : HaveLevel.Added filter (roots.map fun r => .subtree r none) ⟨∅, []⟩
      (roots.foldl HaveLevel.addTree ⟨∅, []⟩) := by
    have := HaveLevel.added_foldl filter (roots.map fun r => .subtree r none) ⟨∅, []⟩
    rwa [List.foldl_map] at this
  have hmem : ∀ {x name}, TreeEntry.subtree x name ∈ roots.map (fun r => TreeEntry.subtree r none) → x ∈ roots := by
    intro x name hx
    obtain ⟨r, hr, heq⟩ := List.mem_map.1 hx
    cases heq
    exact hr
  have hnew : ∀ x ∈ (roots.foldl HaveLevel.addTree ⟨∅, []⟩).haveObjects,
      x ∈ (roots.foldl HaveLevel.addTree ⟨∅, []⟩).level ∧ x ∈ roots := by
    intro x hx
    rcases hadd.new x hx with hx | ⟨hl, name, hx⟩ | ⟨name, hx⟩
    · simp at hx
    · exact ⟨hl, hmem hx⟩
    · simp at hx
  refine ⟨fun t ht => ?_, fun x hx => ⟨x, (hnew x hx).2, .refl⟩, fun r hr => ?_, fun x hx hl => ?_, fun t ht => ?_⟩
  · rcases hadd.level t ht with ht | ⟨hin, -⟩
    · simp at ht
    · exact hr t (hnew t hin).2
  · exact hadd.subtree r none (List.mem_map.2 ⟨r, hr, rfl⟩)
  · exact absurd (hnew x hx).1 hl
  · rcases hadd.level t ht with ht | ⟨hin, -⟩
    · simp at ht
    · exact hin

theorem HaveLevel.Inv.step (ht : TreesTyped E db) {filter : FilterSpec} {roots : List ObjectId} {s : HaveLevel}
    (h : HaveLevel.Inv E db filter roots s) :
    HaveLevel.Inv E db filter roots
      ((s.level.flatMap (E.entriesAt db false)).foldl (HaveLevel.addEntry filter) ⟨s.haveObjects, []⟩) := by
  have hadd := HaveLevel.added_foldl filter (s.level.flatMap (E.entriesAt db false)) ⟨s.haveObjects, []⟩
  have hsrc : ∀ {e}, e ∈ s.level.flatMap (E.entriesAt db false) →
      ∃ t ∈ s.level, e ∈ E.entriesAt db false t := fun he => List.mem_flatMap.1 he
  have hreach : ∀ {e : TreeEntry}, e ∈ s.level.flatMap (E.entriesAt db false) →
      ∃ r ∈ roots, E.InTree db r e.oid := by
    intro e he
    obtain ⟨t, htl, he⟩ := hsrc he
    obtain ⟨r, hr, hin⟩ := h.sound t (h.levelIn t htl)
    exact ⟨r, hr, hin.tail (entry_of_mem he)⟩
  refine ⟨fun t htl => ?_, fun x hx => ?_, fun r hr => hadd.mono (h.roots r hr), fun x hx hl y hy => ?_,
    fun t htl => ?_⟩
  · rcases hadd.level t htl with htl | ⟨-, -, name, hmem⟩
    · simp at htl
    · obtain ⟨t', -, he⟩ := hsrc hmem
      exact subtree_treeAt ht he
  · rcases hadd.new x hx with hx | ⟨-, name, hmem⟩ | ⟨name, hmem⟩
    · exact h.sound x hx
    · exact hreach hmem
    · exact hreach hmem
  · rcases hadd.new x hx with hx | ⟨hl', -⟩ | ⟨name, hmem⟩
    · by_cases hxl : x ∈ s.level
      · obtain ⟨e, he, rfl⟩ := mem_of_entry false hy
        have hmem : e ∈ s.level.flatMap (E.entriesAt db false) := List.mem_flatMap.2 ⟨x, hxl, he⟩
        cases e with
        | subtree z name => exact .inl (hadd.subtree z name hmem)
        | leaf z name =>
          rcases hadd.leaf z name hmem with hf | hin
          · exact .inr ⟨hf, leaf_isBlob ht he⟩
          · exact .inl hin
      · exact (h.closed x hx hxl y hy).imp (fun hy => hadd.mono hy) id
    · exact absurd hl' hl
    · obtain ⟨t', -, he⟩ := hsrc hmem
      exact absurd hy (leaf_isBlob ht he).not_entry
  · rcases hadd.level t htl with htl | ⟨hin, -⟩
    · simp at htl
    · exact hin

/-- What `Walker::expand_haves` answers. -/
theorem run_expandHaves (hdb : Intact E db) (ht : TreesTyped E db) (filter : FilterSpec) (roots : List ObjectId)
    (hr : ∀ r ∈ roots, (E.treeAt db r).isSome) {fuel : Nat} (hfuel : 2 * Fintype.card ObjectId + 1 < fuel) :
    ∃ haveObjects, (expandHaves E fuel roots filter).run Db.handler db = some (.ok haveObjects, db) ∧
      HaveSet E db filter roots haveObjects := by
  refine Prog.loop_reads (expandStep E filter) (I := HaveLevel.Inv E db filter roots)
    (fun s => levelsLeft s.haveObjects.card s.level) (fun s hs => ?_) (HaveLevel.Inv.start filter hr)
    ((levelsLeft_le _ _).trans_lt hfuel)
  by_cases hl : s.level = []
  · refine ⟨.inr s.haveObjects, by simp [expandStep, hl], hs.sound, hs.roots, fun x hx y hy => ?_⟩
    exact hs.closed x hx (by simp [hl]) y hy
  · have hadd := HaveLevel.added_foldl filter (s.level.flatMap (E.entriesAt db false)) ⟨s.haveObjects, []⟩
    refine ⟨.inl _, ?_, hs.step ht, ?_⟩
    · rw [expandStep, if_neg (by simpa using hl), Prog.run_bind_ok (run_readTrees hdb false hs.typed)]
      rfl
    · refine levelsLeft_lt (Finset.card_le_card hadd.mono) (Finset.card_le_univ _) hl fun hne => ?_
      obtain ⟨x, hx⟩ := List.exists_mem_of_ne_nil _ hne
      rcases hadd.level x hx with hx | ⟨hin, hnot, -⟩
      · simp at hx
      · exact Finset.card_lt_card ⟨hadd.mono, fun hsub => hnot (hsub hin)⟩

/-! ## The trees to send -/

/-- Whether a filter lets an object through: it leaves out blobs only, by
their size. -/
def Admitted (E : Env) (db : E.Db) (filter : FilterSpec) (x : ObjectId) : Prop :=
  ∀ body, E.objectAt db x = some (.blob, body) →
    match filter with
    | .none => True
    | .blobNone => False
    | .blobLimit limit => body.length ≤ limit

/-- What reading a list of entries does to a level: every subtree is
collected or had, every leaf also or a candidate. -/
structure TreeLevel.Read (haveObjects : Finset ObjectId) (entries : List TreeEntry) (s s' : TreeLevel) : Prop where
  mono : ∀ x ∈ s.objects.order, x ∈ s'.objects.order
  nextMono : ∀ x ∈ s.next.map (·.1), x ∈ s'.next.map (·.1)
  candidatesMono : ∀ x ∈ s.candidates.map (·.1), x ∈ s'.candidates.map (·.1)
  new : ∀ x ∈ s'.objects.order, x ∈ s.objects.order ∨ x ∈ s'.next.map (·.1)
  next : ∀ x ∈ s'.next.map (·.1), x ∈ s.next.map (·.1) ∨
    x ∈ s'.objects.order ∧ x ∉ s.objects.order ∧ x ∉ haveObjects ∧ ∃ name, TreeEntry.subtree x name ∈ entries
  candidates : ∀ x ∈ s'.candidates.map (·.1), x ∈ s.candidates.map (·.1) ∨
    x ∉ haveObjects ∧ ∃ name, TreeEntry.leaf x name ∈ entries
  subtree : ∀ x name, TreeEntry.subtree x name ∈ entries → x ∈ s'.objects.order ∨ x ∈ haveObjects
  leaf : ∀ x name, TreeEntry.leaf x name ∈ entries →
    x ∈ s'.objects.order ∨ x ∈ haveObjects ∨ x ∈ s'.candidates.map (·.1)

/-- The candidates seen are the candidates. -/
def TreeLevel.Seen (s : TreeLevel) : Prop := ∀ x ∈ s.candidateSeen, x ∈ s.candidates.map (·.1)

theorem TreeLevel.Read.refl (haveObjects : Finset ObjectId) (s : TreeLevel) : TreeLevel.Read haveObjects [] s s :=
  ⟨fun _ h => h, fun _ h => h, fun _ h => h, fun _ h => .inl h, fun _ h => .inl h, fun _ h => .inl h, by simp, by simp⟩

theorem TreeLevel.Read.trans {haveObjects : Finset ObjectId} {l l' : List TreeEntry} {s s' s'' : TreeLevel}
    (h : TreeLevel.Read haveObjects l s s') (h' : TreeLevel.Read haveObjects l' s' s'') :
    TreeLevel.Read haveObjects (l ++ l') s s'' where
  mono x hx := h'.mono x (h.mono x hx)
  nextMono x hx := h'.nextMono x (h.nextMono x hx)
  candidatesMono x hx := h'.candidatesMono x (h.candidatesMono x hx)
  new x hx := by
    rcases h'.new x hx with hx | hx
    · exact (h.new x hx).imp id (h'.nextMono x)
    · exact .inr hx
  next x hx := by
    rcases h'.next x hx with hx | ⟨hin, hnot, hhave, name, hmem⟩
    · rcases h.next x hx with hx | ⟨hin, hnot, hhave, name, hmem⟩
      · exact .inl hx
      · exact .inr ⟨h'.mono x hin, hnot, hhave, name, by simp [hmem]⟩
    · exact .inr ⟨hin, fun hx' => hnot (h.mono x hx'), hhave, name, by simp [hmem]⟩
  candidates x hx := by
    rcases h'.candidates x hx with hx | ⟨hhave, name, hmem⟩
    · rcases h.candidates x hx with hx | ⟨hhave, name, hmem⟩
      · exact .inl hx
      · exact .inr ⟨hhave, name, by simp [hmem]⟩
    · exact .inr ⟨hhave, name, by simp [hmem]⟩
  subtree x name hmem := by
    rcases List.mem_append.1 hmem with hmem | hmem
    · exact (h.subtree x name hmem).imp (h'.mono x) id
    · exact h'.subtree x name hmem
  leaf x name hmem := by
    rcases List.mem_append.1 hmem with hmem | hmem
    · exact (h.leaf x name hmem).imp (h'.mono x) (Or.imp id (h'.candidatesMono x))
    · exact h'.leaf x name hmem

theorem entryPath_isSome {recordPaths : Bool} (parentPath : Bytes) {name : Option Bytes}
    (h : recordPaths = true → name.isSome) : ∃ path, entryPath recordPaths parentPath name = some path := by
  cases recordPaths with
  | false => exact ⟨[], rfl⟩
  | true =>
    obtain ⟨n, hn⟩ := Option.isSome_iff_exists.1 (h rfl)
    exact ⟨joinPath parentPath n, by simp [entryPath, hn]⟩

theorem TreeLevel.addEntry_spec (haveObjects : Finset ObjectId) {recordPaths : Bool} (parentPath : Bytes)
    {s : TreeLevel} {e : TreeEntry} (hs : s.Seen) (he : e.Named recordPaths) :
    ∃ s', s.addEntry haveObjects recordPaths parentPath e = some s' ∧ s'.Seen ∧
      TreeLevel.Read haveObjects [e] s s' := by
  cases e with
  | subtree x name =>
    by_cases hx : ¬ s.objects.contains x ∧ x ∉ haveObjects
    · obtain ⟨path, hp⟩ := entryPath_isSome parentPath he
      have hnot : x ∉ s.objects.order := by simpa [OrderedOidSet.contains] using hx.1
      refine ⟨{ s with objects := s.objects.insert x, next := s.next ++ [(x, path)] },
        by rw [TreeLevel.addEntry, if_pos hx, hp]; rfl, hs, ?_⟩
      refine ⟨fun y hy => OrderedOidSet.mem_insert.2 (.inl hy), fun y hy => by simp_all, fun _ hy => hy,
        fun y hy => ?_, fun y hy => ?_, fun _ hy => .inl hy, fun y n hmem => ?_, by simp⟩
      · rcases OrderedOidSet.mem_insert.1 hy with hy | rfl
        · exact .inl hy
        · exact .inr (by simp)
      · simp only [List.map_append, List.map_cons, List.map_nil, List.mem_append, List.mem_singleton] at hy
        rcases hy with hy | rfl
        · exact .inl hy
        · exact .inr ⟨OrderedOidSet.mem_insert.2 (.inr rfl), hnot, hx.2, name, by simp⟩
      · simp only [List.mem_singleton, TreeEntry.subtree.injEq] at hmem
        exact .inl (OrderedOidSet.mem_insert.2 (.inr hmem.1))
    · refine ⟨s, by rw [TreeLevel.addEntry, if_neg hx], hs, ?_⟩
      refine ⟨fun _ h => h, fun _ h => h, fun _ h => h, fun _ h => .inl h, fun _ h => .inl h, fun _ h => .inl h,
        fun y n hmem => ?_, by simp⟩
      simp only [List.mem_singleton, TreeEntry.subtree.injEq] at hmem
      rw [hmem.1]
      by_contra hc
      push Not at hc
      exact hx ⟨by simpa [OrderedOidSet.contains] using hc.1, hc.2⟩
  | leaf x name =>
    by_cases hx : x ∉ haveObjects ∧ ¬ s.objects.contains x ∧ x ∉ s.candidateSeen
    · obtain ⟨path, hp⟩ := entryPath_isSome parentPath he
      refine ⟨_, by rw [TreeLevel.addEntry, if_pos hx, hp]; rfl, fun y hy => ?_, ?_⟩
      · simp only [Finset.mem_insert] at hy
        rcases hy with rfl | hy
        · simp
        · simp only [List.map_append, List.mem_append]
          exact .inl (hs y hy)
      · refine ⟨fun _ h => h, fun _ h => h, fun y hy => by simp_all, fun _ h => .inl h, fun _ h => .inl h,
          fun y hy => ?_, by simp, fun y n hmem => ?_⟩
        · simp only [List.map_append, List.map_cons, List.map_nil, List.mem_append, List.mem_singleton] at hy
          rcases hy with hy | rfl
          · exact .inl hy
          · exact .inr ⟨hx.1, name, by simp⟩
        · simp only [List.mem_singleton, TreeEntry.leaf.injEq] at hmem
          exact .inr (.inr (by simp [hmem.1]))
    · refine ⟨s, by rw [TreeLevel.addEntry, if_neg hx], hs, ?_⟩
      refine ⟨fun _ h => h, fun _ h => h, fun _ h => h, fun _ h => .inl h, fun _ h => .inl h, fun _ h => .inl h,
        by simp, fun y n hmem => ?_⟩
      simp only [List.mem_singleton, TreeEntry.leaf.injEq] at hmem
      rw [hmem.1]
      by_contra hc
      push Not at hc
      exact hx ⟨hc.2.1, by simpa [OrderedOidSet.contains] using hc.1, fun hseen => hc.2.2 (hs x hseen)⟩

theorem TreeLevel.addEntries_spec (haveObjects : Finset ObjectId) {recordPaths : Bool} :
    ∀ (entries : List (Bytes × TreeEntry)) {s : TreeLevel}, s.Seen → (∀ e ∈ entries, e.2.Named recordPaths) →
      ∃ s', TreeLevel.addEntries haveObjects recordPaths entries s = some s' ∧
        TreeLevel.Read haveObjects (entries.map (·.2)) s s'
  | [], s, _, _ => ⟨s, rfl, .refl _ _⟩
  | (parentPath, e) :: entries, s, hs, he => by
    obtain ⟨s₁, h₁, hs₁, hr₁⟩ := TreeLevel.addEntry_spec haveObjects parentPath hs
      (he (parentPath, e) (by simp))
    obtain ⟨s₂, h₂, hr₂⟩ := TreeLevel.addEntries_spec haveObjects entries hs₁ fun e' he' => he e' (by simp [he'])
    exact ⟨s₂, by rw [TreeLevel.addEntries, h₁]; exact h₂, hr₁.trans hr₂⟩

/-- The kind and the size of an object, if it is there. -/
def sizeAt (E : Env) (db : E.Db) (x : ObjectId) : Option (Kind × Nat) :=
  (E.objectAt db x).map fun (kind, body) => (kind, body.length)

theorem run_sizes (hdb : Intact E db) (ids : List ObjectId) :
    (Prog.forEach (fun id => do
      let size ← ObjectDb.size E id
      pure (id, size)) ids : E.Prog WalkError _).run Db.handler db =
        some (.ok (ids.map fun x => (x, sizeAt E db x)), db) :=
  Prog.run_forEach fun x _ => Prog.run_bind_ok (run_size hdb x)

theorem map_sizeAt {ids : List ObjectId} (h : ∀ x ∈ ids, (E.objectAt db x).isSome) :
    (ids.map fun x => (x, sizeAt E db x)) = ids.map fun x => (x, some (E.kindSize db x)) := by
  refine List.map_congr_left fun x hx => ?_
  obtain ⟨⟨kind, body⟩, ho⟩ := Option.isSome_iff_exists.1 (h x hx)
  simp [sizeAt, ho, Env.kindSize]

theorem run_objectInfo (hdb : Intact E db) (ids : List ObjectId) (h : ∀ x ∈ ids, (E.objectAt db x).isSome) :
    (objectInfo E ids).run Db.handler db = some (.ok (ids.map fun x => (x, E.kindSize db x)), db) := by
  rw [objectInfo, Prog.run_bind_ok (run_sizes hdb ids), map_sizeAt h]
  refine Prog.run_forEach₂ (List.forall₂_map_left_iff.2 (List.forall₂_map_right_iff.2 ?_))
  exact List.forall₂_same.2 fun x _ => rfl

theorem objects_foldl_addBlob (recordPaths : Bool) : ∀ (candidates : List (ObjectId × Bytes)) (c : Collected),
    (candidates.foldl (Collected.addBlob recordPaths) c).objects = (candidates.map (·.1)).foldl OrderedOidSet.insert c.objects
  | [], _ => rfl
  | p :: candidates, c => objects_foldl_addBlob recordPaths candidates (c.addBlob recordPaths p)

theorem mem_foldl_addBlob (recordPaths : Bool) {x : ObjectId} :
    ∀ (candidates : List (ObjectId × Bytes)) (c : Collected),
      x ∈ (candidates.foldl (Collected.addBlob recordPaths) c).objects.order ↔
        x ∈ c.objects.order ∨ x ∈ candidates.map (·.1)
  | [], c => by simp
  | p :: candidates, c => by
    rw [List.foldl_cons, mem_foldl_addBlob recordPaths candidates, Collected.addBlob, OrderedOidSet.mem_insert]
    simp [or_assoc]

/-- The candidates a filter admits. -/
def admitted (E : Env) (db : E.Db) (filter : FilterSpec) (candidates : List (ObjectId × Bytes)) : List (ObjectId × Bytes) :=
  match filter with
  | .none => candidates
  | .blobNone => []
  | .blobLimit limit => candidates.filter fun p => (E.kindSize db p.1).2 ≤ limit

theorem mem_admitted {filter : FilterSpec} {candidates : List (ObjectId × Bytes)}
    (hblob : ∀ x ∈ candidates.map (·.1), E.IsBlob db x) {x : ObjectId} :
    x ∈ (admitted E db filter candidates).map (·.1) ↔ x ∈ candidates.map (·.1) ∧ Admitted E db filter x := by
  cases filter with
  | none => simp [admitted, Admitted]
  | blobNone =>
    constructor
    · intro h
      cases h
    · intro h
      obtain ⟨hx, had⟩ := h
      obtain ⟨body, hb⟩ := hblob x hx
      exact (had body hb).elim
  | blobLimit limit =>
    have hfilter : (admitted E db (.blobLimit limit) candidates).map (·.1) =
        (candidates.map (·.1)).filter fun x => (E.kindSize db x).2 ≤ limit := by
      rw [admitted, List.filter_map]
      rfl
    rw [hfilter, List.mem_filter]
    refine and_congr_right fun hx => ?_
    obtain ⟨body, hb⟩ := hblob x hx
    simp [Env.kindSize, Admitted, hb]

/-- What `Walker::admit_blobs` answers. -/
theorem run_admitBlobs (hdb : Intact E db) (filter : FilterSpec) (recordPaths : Bool)
    {candidates : List (ObjectId × Bytes)} (c : Collected)
    (hblob : ∀ x ∈ candidates.map (·.1), E.IsBlob db x) :
    (admitBlobs E candidates c filter recordPaths).run Db.handler db =
      some (.ok ((admitted E db filter candidates).foldl (Collected.addBlob recordPaths) c), db) := by
  cases filter with
  | none => rfl
  | blobNone => rfl
  | blobLimit limit =>
    have hinfo := run_objectInfo hdb (candidates.map (·.1)) fun x hx => by
      obtain ⟨body, hb⟩ := hblob x hx
      simp [hb]
    have hzip : candidates.zip ((candidates.map (·.1)).map fun x => (x, E.kindSize db x)) =
        candidates.map fun p => (p, p.1, E.kindSize db p.1) := by
      rw [List.map_map]
      simpa [Function.comp_def] using List.zip_map' (f := id) (g := fun p : ObjectId × Bytes => (p.1, E.kindSize db p.1)) (l := candidates)
    rw [admitBlobs, Prog.run_bind_ok hinfo, hzip, List.filter_map, List.map_map]
    simp [admitted, Function.comp_def]

/-- What has been collected of the trees under `roots`, besides the commits
and tags of `sent`: closed but for the trees of the level. -/
structure Collected.Inv (E : Env) (db : E.Db) (filter : FilterSpec) (haveObjects : Finset ObjectId)
    (roots sent : List ObjectId) (c : Collected) (level : List (ObjectId × Bytes)) : Prop where
  typed : ∀ t ∈ level.map (·.1), (E.treeAt db t).isSome
  levelIn : ∀ t ∈ level.map (·.1), t ∈ c.objects.order ∧ ∃ r ∈ roots, E.InTree db r t
  sound : ∀ x ∈ c.objects.order, x ∈ sent ∨
    x ∉ haveObjects ∧ Admitted E db filter x ∧ ∃ r ∈ roots, E.InTree db r x
  closed : ∀ x ∈ c.objects.order, x ∉ level.map (·.1) → ∀ y, E.Entry db x y →
    y ∈ c.objects.order ∨ y ∈ haveObjects ∨ ¬ Admitted E db filter y

theorem admitted_of_tree {filter : FilterSpec} {t : ObjectId} (h : (E.treeAt db t).isSome) :
    Admitted E db filter t := by
  intro body hb
  obtain ⟨entries, he⟩ := Option.isSome_iff_exists.1 h
  obtain ⟨body', ho, -⟩ := treeAt_eq_some.1 he
  rw [hb] at ho
  cases ho

section WalkTree

variable {filter : FilterSpec} {haveObjects : Finset ObjectId} {roots sent : List ObjectId} {recordPaths : Bool}

theorem mem_levelEntries {level : List (ObjectId × Bytes)} {e : TreeEntry} :
    e ∈ (E.levelEntries db recordPaths level).map (·.2) ↔
      ∃ t ∈ level.map (·.1), e ∈ E.entriesAt db recordPaths t := by
  induction level with
  | nil => simp [Env.levelEntries]
  | cons p level ih =>
    have hcons : E.levelEntries db recordPaths (p :: level) =
        ((E.entriesAt db recordPaths p.1).map fun entry => (p.2, entry)) ++ E.levelEntries db recordPaths level := rfl
    rw [hcons, List.map_append, List.mem_append, ih]
    simp [Function.comp_def]

variable (filter) in
/-- What one level of `Walker::walk_tree` answers, from what it read. -/
theorem run_walkStep_read (hdb : Intact E db) {c : Collected} {level : List (ObjectId × Bytes)} {s : TreeLevel}
    (hl : level ≠ []) (htyped : ∀ t ∈ level.map (·.1), (E.treeAt db t).isSome)
    (hs : TreeLevel.addEntries haveObjects recordPaths (E.levelEntries db recordPaths level)
      { objects := c.objects, next := [], candidates := [], candidateSeen := ∅ } = some s)
    (hblob : ∀ x ∈ s.candidates.map (·.1), E.IsBlob db x) :
    (walkStep E haveObjects filter recordPaths (c, level)).run Db.handler db =
      some (.ok (.inl ((admitted E db filter s.candidates).foldl (Collected.addBlob recordPaths)
        { c with objects := s.objects }, s.next)), db) := by
  rw [walkStep]
  simp only [List.isEmpty_iff, hl, if_false]
  refine (Prog.run_bind_ok (run_readTrees hdb recordPaths htyped)).trans ?_
  have hopt : (Prog.ofOption (TreeLevel.addEntries haveObjects recordPaths (E.levelEntries db recordPaths level)
      { objects := c.objects, next := [], candidates := [], candidateSeen := ∅ }) : E.Prog WalkError _).run
        Db.handler db = some (.ok s, db) := by
    rw [hs, Prog.run_ofOption_some]
  refine (Prog.run_bind_ok hopt).trans ?_
  exact Prog.run_bind_ok (run_admitBlobs hdb filter recordPaths { c with objects := s.objects } hblob)

/-- One level of a walk: it keeps the invariant, and a next level is new. -/
theorem run_walkStep (recordPaths : Bool) (hdb : Intact E db) (ht : TreesTyped E db) {c : Collected} {level : List (ObjectId × Bytes)}
    (h : Collected.Inv E db filter haveObjects roots sent c level) (hl : level ≠ []) :
    ∃ c' level', (walkStep E haveObjects filter recordPaths (c, level)).run Db.handler db =
        some (.ok (.inl (c', level')), db) ∧
      Collected.Inv E db filter haveObjects roots sent c' level' ∧
      (∀ x ∈ c.objects.order, x ∈ c'.objects.order) ∧
      (level' ≠ [] → ∃ x ∈ c'.objects.order, x ∉ c.objects.order) := by
  obtain ⟨s, hs, hread⟩ := TreeLevel.addEntries_spec haveObjects
    (E.levelEntries db recordPaths level)
    (s := { objects := c.objects, next := [], candidates := [], candidateSeen := ∅ })
    (by simp [TreeLevel.Seen]) (by
      intro e he
      obtain ⟨t, -, he⟩ := (mem_levelEntries (e := e.2)).1 (List.mem_map.2 ⟨e, he, rfl⟩)
      exact named_of_mem he)
  have hreach : ∀ {e : TreeEntry}, e ∈ (E.levelEntries db recordPaths level).map (·.2) →
      ∃ r ∈ roots, E.InTree db r e.oid := by
    intro e he
    obtain ⟨t, htl, he⟩ := mem_levelEntries.1 he
    obtain ⟨-, r, hr, hin⟩ := h.levelIn t htl
    exact ⟨r, hr, hin.tail (entry_of_mem he)⟩
  have hblob : ∀ x ∈ s.candidates.map (·.1), E.IsBlob db x ∧ x ∉ haveObjects ∧ ∃ r ∈ roots, E.InTree db r x := by
    intro x hx
    rcases hread.candidates x hx with hx | ⟨hhave, name, hmem⟩
    · simp at hx
    · obtain ⟨t, -, he⟩ := mem_levelEntries.1 hmem
      exact ⟨leaf_isBlob ht he, hhave, hreach hmem⟩
  have hc' := @run_walkStep_read E db filter haveObjects recordPaths hdb c level s hl h.typed hs fun x hx => (hblob x hx).1
  have hmem' : ∀ x, x ∈ ((admitted E db filter s.candidates).foldl (Collected.addBlob recordPaths)
      { c with objects := s.objects }).objects.order ↔
        x ∈ s.objects.order ∨ x ∈ s.candidates.map (·.1) ∧ Admitted E db filter x := by
    intro x
    rw [mem_foldl_addBlob, mem_admitted fun x hx => (hblob x hx).1]
  generalize (admitted E db filter s.candidates).foldl (Collected.addBlob recordPaths)
    { c with objects := s.objects } = c' at hc' hmem'
  have hmono : ∀ x ∈ s.objects.order, x ∈ c'.objects.order := fun x hx => (hmem' x).2 (.inl hx)
  have hnext : ∀ x ∈ s.next.map (·.1), x ∈ s.objects.order ∧ x ∉ c.objects.order ∧ x ∉ haveObjects ∧
      (E.treeAt db x).isSome ∧ ∃ r ∈ roots, E.InTree db r x := by
    intro x hx
    rcases hread.next x hx with hx | ⟨hin, hnot, hhave, name, hmem⟩
    · simp at hx
    · obtain ⟨t, -, he⟩ := mem_levelEntries.1 hmem
      exact ⟨hin, hnot, hhave, subtree_treeAt ht he, hreach hmem⟩
  refine ⟨c', s.next, hc', ⟨fun t htl => (hnext t htl).2.2.2.1, fun t htl => ?_, fun x hx => ?_, fun x hx hxl y hy => ?_⟩,
    fun x hx => hmono x (hread.mono x hx), fun hne => ?_⟩
  · exact ⟨hmono t (hnext t htl).1, (hnext t htl).2.2.2.2⟩
  · rcases (hmem' x).1 hx with hx | ⟨hx, had⟩
    · rcases hread.new x hx with hx | hx
      · exact h.sound x hx
      · obtain ⟨-, -, hhave, htree, hr⟩ := hnext x hx
        exact .inr ⟨hhave, admitted_of_tree htree, hr⟩
    · exact .inr ⟨(hblob x hx).2.1, had, (hblob x hx).2.2⟩
  · rcases (hmem' x).1 hx with hx | ⟨hx, -⟩
    · rcases hread.new x hx with hx | hx
      · by_cases hold : x ∈ level.map (·.1)
        · obtain ⟨e, he, rfl⟩ := mem_of_entry recordPaths hy
          have hmem := mem_levelEntries.2 ⟨x, hold, he⟩
          cases e with
          | subtree z name => exact (hread.subtree z name hmem).imp (hmono z) .inl
          | leaf z name =>
            rcases hread.leaf z name hmem with hz | hz | hz
            · exact .inl (hmono z hz)
            · exact .inr (.inl hz)
            · by_cases had : Admitted E db filter z
              · exact .inl ((hmem' z).2 (.inr ⟨hz, had⟩))
              · exact .inr (.inr had)
        · exact (h.closed x hx hold y hy).imp (fun hy => hmono y (hread.mono y hy)) id
      · exact absurd hx hxl
    · exact absurd hy (hblob x hx).1.not_entry
  · obtain ⟨p, hp⟩ := List.exists_mem_of_ne_nil _ hne
    obtain ⟨hin, hnot, -⟩ := hnext p.1 (List.mem_map.2 ⟨p, hp, rfl⟩)
    exact ⟨p.1, hmono _ hin, hnot⟩

/-- What `Walker::walk_tree` answers. -/
theorem run_walkTree (recordPaths : Bool) (hdb : Intact E db) (ht : TreesTyped E db) {c : Collected} {rootTree : ObjectId}
    (h : Collected.Inv E db filter haveObjects roots sent c []) (hr : rootTree ∈ roots)
    (htree : (E.treeAt db rootTree).isSome) {fuel : Nat} (hfuel : 2 * Fintype.card ObjectId + 1 < fuel) :
    ∃ c', (walkTree E fuel rootTree c haveObjects filter recordPaths).run Db.handler db = some (.ok c', db) ∧
      Collected.Inv E db filter haveObjects roots sent c' [] ∧
      (∀ x ∈ c.objects.order, x ∈ c'.objects.order) ∧ (rootTree ∈ c'.objects.order ∨ rootTree ∈ haveObjects) := by
  -- from a state whose level starts the walk, the loop ends with an empty level
  have hloop : ∀ (c₀ : Collected) (level : List (ObjectId × Bytes)),
      Collected.Inv E db filter haveObjects roots sent c₀ level →
      ∃ c', (Prog.loop (walkStep E haveObjects filter recordPaths) fuel (c₀, level)).run Db.handler db =
          some (.ok c', db) ∧
        Collected.Inv E db filter haveObjects roots sent c' [] ∧ ∀ x ∈ c₀.objects.order, x ∈ c'.objects.order := by
    intro c₀ level h₀
    refine Prog.loop_reads (walkStep E haveObjects filter recordPaths)
      (I := fun s => Collected.Inv E db filter haveObjects roots sent s.1 s.2 ∧
        ∀ x ∈ c₀.objects.order, x ∈ s.1.objects.order)
      (fun s => levelsLeft s.1.objects.order.length s.2) ?_ ⟨h₀, fun _ hx => hx⟩ ((levelsLeft_le _ _).trans_lt hfuel)
    rintro ⟨c₁, level₁⟩ ⟨h₁, hmono₁⟩
    by_cases hl : level₁ = []
    · subst hl
      exact ⟨.inr c₁, by simp [walkStep], h₁, hmono₁⟩
    · obtain ⟨c₂, level₂, hrun, h₂, hmono₂, hnew⟩ := run_walkStep recordPaths hdb ht h₁ hl
      refine ⟨.inl (c₂, level₂), hrun, ⟨h₂, fun x hx => hmono₂ x (hmono₁ x hx)⟩, ?_⟩
      have hsub : c₁.objects.order.toFinset ⊆ c₂.objects.order.toFinset := by
        intro x hx
        simpa using hmono₂ x (by simpa using hx)
      simp only [← List.toFinset_card_of_nodup c₁.objects.nodup, ← List.toFinset_card_of_nodup c₂.objects.nodup]
      refine levelsLeft_lt (Finset.card_le_card hsub) (Finset.card_le_univ _) hl fun hne => ?_
      obtain ⟨x, hx, hnot⟩ := hnew hne
      exact Finset.card_lt_card ⟨hsub, fun h => hnot (by simpa using h (by simpa using hx))⟩
  by_cases hroot : ¬ c.objects.contains rootTree ∧ rootTree ∉ haveObjects
  · have hstart : Collected.Inv E db filter haveObjects roots sent { c with objects := c.objects.insert rootTree }
        [(rootTree, [])] := by
      refine ⟨by simpa using htree, by simpa using ⟨OrderedOidSet.mem_insert.2 (.inr rfl), rootTree, hr, .refl⟩,
        fun x hx => ?_, fun x hx hxl y hy => ?_⟩
      · rcases OrderedOidSet.mem_insert.1 hx with hx | rfl
        · exact h.sound x hx
        · exact .inr ⟨hroot.2, admitted_of_tree htree, x, hr, .refl⟩
      · rcases OrderedOidSet.mem_insert.1 hx with hx | rfl
        · exact (h.closed x hx (by simp) y hy).imp (fun hy => OrderedOidSet.mem_insert.2 (.inl hy)) id
        · simp at hxl
    obtain ⟨c', hrun, hinv, hmono⟩ := hloop _ _ hstart
    refine ⟨c', by rw [walkTree, if_pos hroot]; exact hrun, hinv, fun x hx => ?_, .inl ?_⟩
    · exact hmono x (OrderedOidSet.mem_insert.2 (.inl hx))
    · exact hmono _ (OrderedOidSet.mem_insert.2 (.inr rfl))
  · obtain ⟨c', hrun, hinv, hmono⟩ := hloop _ _ h
    refine ⟨c', by rw [walkTree, if_neg hroot]; exact hrun, hinv, hmono, ?_⟩
    by_contra hc
    push Not at hc
    refine hroot ⟨?_, hc.2⟩
    intro hcont
    exact hc.1 (hmono _ (by simpa [OrderedOidSet.contains] using hcont))

/-- A commit or a tag: what a send list holds. -/
def Sendable (E : Env) (db : E.Db) (x : ObjectId) : Prop :=
  ∃ kind body, E.objectAt db x = some (kind, body) ∧ (kind = .commit ∨ kind = .tag)

theorem Sendable.not_entry {x y : ObjectId} (h : Sendable E db x) : ¬ E.Entry db x y := by
  rintro ⟨entries, htree, -⟩
  obtain ⟨kind, body, ho, hk⟩ := h
  obtain ⟨body', ho', -⟩ := treeAt_eq_some.1 htree
  cases ho.symm.trans ho'
  simp at hk

theorem Collected.Inv.insert {c : Collected} {x : ObjectId}
    (h : Collected.Inv E db filter haveObjects roots sent c []) (hx : x ∈ sent) (hs : Sendable E db x) :
    Collected.Inv E db filter haveObjects roots sent { c with objects := c.objects.insert x } [] := by
  refine ⟨by simp, by simp, fun y hy => ?_, fun y hy _ z hz => ?_⟩
  · rcases OrderedOidSet.mem_insert.1 hy with hy | rfl
    · exact h.sound y hy
    · exact .inl hx
  · rcases OrderedOidSet.mem_insert.1 hy with hy | rfl
    · exact (h.closed y hy (by simp) z hz).imp (fun hz => OrderedOidSet.mem_insert.2 (.inl hz)) id
    · exact absurd hz hs.not_entry

/-- The send list collected: everything on it, and the root tree of each of
its commits unless had. -/
theorem run_collectAll (recordPaths : Bool) (records : SortedMap ObjectId CommitGraphRecord) (hdb : Indexed E db)
    (ht : TreesTyped E db)
    {fuel : Nat} (hfuel : 2 * Fintype.card ObjectId + 1 < fuel) :
    ∀ (ids : List ObjectId) {c : Collected}, Collected.Inv E db filter haveObjects roots sent c [] →
      (∀ x ∈ ids, x ∈ sent ∧ Sendable E db x) →
      (∀ x ∈ ids, ∀ commit, E.commitAt db x = some commit → commit.tree ∈ roots ∧
        ∃ r, records.get x = some r ∧ r.rootTree = commit.tree) →
      ∃ c', (collectAll E fuel records haveObjects filter recordPaths (ids.map fun x => (x, E.kindSize db x)) c).run
          Db.handler db = some (.ok c', db) ∧
        Collected.Inv E db filter haveObjects roots sent c' [] ∧
        (∀ x ∈ c.objects.order, x ∈ c'.objects.order) ∧
        ∀ x ∈ ids, x ∈ c'.objects.order ∧ ∀ commit, E.commitAt db x = some commit →
          commit.tree ∈ c'.objects.order ∨ commit.tree ∈ haveObjects
  | [], c, h, _, _ => ⟨c, rfl, h, fun _ hx => hx, by simp⟩
  | x :: ids, c, h, hids, hrec => by
    obtain ⟨hsent, hsend⟩ := hids x (by simp)
    have hins := h.insert hsent hsend
    obtain ⟨kind, body, ho, hk⟩ := hsend
    have hks : E.kindSize db x = (kind, body.length) := by simp [Env.kindSize, ho]
    rw [List.map_cons, hks]
    rcases hk with rfl | rfl
    · obtain ⟨commit, hc⟩ := Option.isSome_iff_exists.1 (hdb.isCommit_iff.2 ⟨body, ho⟩)
      obtain ⟨hroot, r, hr, hrt⟩ := hrec x (by simp) commit hc
      obtain ⟨c₁, hrun₁, hinv₁, hmono₁, htree₁⟩ := run_walkTree recordPaths hdb.toIntact ht hins
        (hrt ▸ hroot) (hrt ▸ root_treeAt ht hc) hfuel
      obtain ⟨c₂, hrun₂, hinv₂, hmono₂, hall₂⟩ := run_collectAll recordPaths records hdb ht hfuel ids hinv₁
        (fun y hy => hids y (by simp [hy])) (fun y hy => hrec y (by simp [hy]))
      refine ⟨c₂, ?_, hinv₂, fun y hy => hmono₂ y (hmono₁ y (OrderedOidSet.mem_insert.2 (.inl hy))), fun y hy => ?_⟩
      · rw [collectAll, hr]
        refine (Prog.run_bind_ok (Prog.run_ofOption_some _ _)).trans ?_
        rw [Prog.run_bind_ok hrun₁, hrun₂]
      · rcases List.mem_cons.1 hy with rfl | hy
        · refine ⟨hmono₂ y (hmono₁ y (OrderedOidSet.mem_insert.2 (.inr rfl))), fun commit' hc' => ?_⟩
          cases hc.symm.trans hc'
          rw [← hrt]
          exact htree₁.imp (hmono₂ _) id
        · exact hall₂ y hy
    · obtain ⟨c₂, hrun₂, hinv₂, hmono₂, hall₂⟩ := run_collectAll recordPaths records hdb ht hfuel ids hins
        (fun y hy => hids y (by simp [hy])) (fun y hy => hrec y (by simp [hy]))
      refine ⟨c₂, by rw [collectAll]; exact hrun₂, hinv₂,
        fun y hy => hmono₂ y (OrderedOidSet.mem_insert.2 (.inl hy)), fun y hy => ?_⟩
      rcases List.mem_cons.1 hy with rfl | hy
      · refine ⟨hmono₂ y (OrderedOidSet.mem_insert.2 (.inr rfl)), fun commit hc => ?_⟩
        obtain ⟨body', ho', -⟩ := commitAt_eq_some.1 hc
        rw [ho] at ho'
        cases ho'
      · exact hall₂ y hy

end WalkTree

/-! ## A whole collection -/

theorem mem_rootTrees {ids : List ObjectId} {r : ObjectId} :
    r ∈ E.rootTrees db ids ↔ ∃ c ∈ ids, ∃ commit, E.commitAt db c = some commit ∧ commit.tree = r := by
  simp only [Env.rootTrees, List.mem_map, List.mem_filterMap]
  constructor
  · rintro ⟨commit, ⟨c, hc, hcommit⟩, hr⟩
    exact ⟨c, hc, commit, hcommit, hr⟩
  · rintro ⟨c, hc, commit, hcommit, hr⟩
    exact ⟨commit, ⟨c, hc, hcommit⟩, hr⟩

theorem treeAt_of_mem_rootTrees (ht : TreesTyped E db) {ids : List ObjectId} {r : ObjectId}
    (hr : r ∈ E.rootTrees db ids) : (E.treeAt db r).isSome := by
  obtain ⟨c, -, commit, hc, rfl⟩ := mem_rootTrees.1 hr
  exact root_treeAt ht hc

theorem haveRoots_spec (hdb : Indexed E db) :
    ∀ ids : List ObjectId, haveRoots (ids.map fun id => (id, E.fetchedAt db id)) = .ok (E.rootTrees db ids)
  | [] => rfl
  | x :: ids => by
    have ih := haveRoots_spec hdb ids
    rw [List.map_cons]
    cases hi : E.infoAt db x with
    | some r =>
      obtain ⟨commit, hc, hroot, -⟩ := hdb.commit_of_infoAt hi
      simp [fetchedAt_ok hi, haveRoots, ih, Env.rootTrees, hc, hroot, Except.map]
    | none =>
      have hc : E.commitAt db x = none := by
        rw [← Option.not_isSome_iff_eq_none, ← hdb.infoAt_isSome, hi]
        simp
      have hroots : E.rootTrees db (x :: ids) = E.rootTrees db ids := by simp [Env.rootTrees, hc]
      rw [hroots]
      cases ho : E.objectAt db x with
      | none => simpa [Env.fetchedAt, hi, ho, haveRoots] using ih
      | some kb => simpa [Env.fetchedAt, hi, ho, haveRoots] using ih

/-- The commits among the objects to send. -/
def commitIds (E : Env) (db : E.Db) (toSend : List ObjectId) : List ObjectId :=
  ((toSend.map fun x => (x, E.kindSize db x)).filter fun (_, kind, _) => kind = .commit).map (·.1)

theorem mem_commitIds {x : ObjectId} (hdb : Indexed E db) {toSend : List ObjectId}
    (hsend : ∀ x ∈ toSend, Sendable E db x) :
    x ∈ commitIds E db toSend ↔ x ∈ toSend ∧ (E.infoAt db x).isSome := by
  simp only [commitIds, List.mem_map, List.mem_filter]
  constructor
  · rintro ⟨_, ⟨⟨y, hy, rfl⟩, hk⟩, rfl⟩
    obtain ⟨kind, body, ho, -⟩ := hsend y hy
    simp only [Env.kindSize, ho, decide_eq_true_eq] at hk
    subst hk
    exact ⟨hy, hdb.infoAt_isSome.2 (hdb.isCommit_iff.2 ⟨body, ho⟩)⟩
  · rintro ⟨hx, hi⟩
    obtain ⟨body, ho⟩ := hdb.isCommit_iff.1 (hdb.infoAt_isSome.1 hi)
    exact ⟨_, ⟨⟨x, hx, rfl⟩, by simp [Env.kindSize, ho]⟩, rfl⟩

/-- What a send list needs: itself, and what its commits' trees reach that the
haves' trees do not and the filter admits. -/
theorem run_collectInner (hdb : Indexed E db) (ht : TreesTyped E db) {toSend : List ObjectId}
    (hsend : ∀ x ∈ toSend, Sendable E db x) (haves : List ObjectId) (filter : FilterSpec) (recordPaths : Bool)
    {fuel : Nat} (hfuel : 2 * Fintype.card ObjectId + 1 < fuel) :
    ∃ c haveObjects, (collectInner E fuel toSend haves filter recordPaths).run Db.handler db = some (.ok c, db) ∧
      HaveSet E db filter (E.rootTrees db haves) haveObjects ∧ c.objects.Nodup ∧
      ∀ x, x ∈ c.objects ↔ x ∈ toSend ∨
        (∃ r ∈ E.rootTrees db toSend, E.InTree db r x) ∧ x ∉ haveObjects ∧ Admitted E db filter x := by
  have hpos : 0 < fuel := by omega
  have hroots : (Prog.ofExcept (haveRoots ((misses .empty ∅ haves).map fun id => (id, E.fetchedAt db id))) :
      E.Prog WalkError _).run Db.handler db = some (.ok (E.rootTrees db (misses .empty ∅ haves)), db) := by
    rw [haveRoots_spec hdb, Prog.run_ofExcept]
  obtain ⟨haveObjects, hexpand, hset⟩ := run_expandHaves hdb.toIntact ht filter
    (E.rootTrees db (misses .empty ∅ haves)) (fun _ => treeAt_of_mem_rootTrees ht) hfuel
  have hset : HaveSet E db filter (E.rootTrees db haves) haveObjects := by
    refine hset.of_mem_iff fun r => ?_
    simp [mem_rootTrees, mem_misses]
  have hinfo := run_objectInfo hdb.toIntact toSend fun x hx => by
    obtain ⟨kind, body, ho, -⟩ := hsend x hx
    simp [ho]
  obtain ⟨rs, hrs⟩ := run_unwrap db (misses (E.prefetched db .empty haves) ∅ (commitIds E db toSend))
    fun x hx => ((mem_commitIds hdb hsend).1 (mem_misses.1 hx).1).2
  have hstart : Collected.Inv E db filter haveObjects (E.rootTrees db toSend) toSend ⟨.default, .empty⟩ [] := by
    refine ⟨by simp, by simp, ?_, ?_⟩ <;> simp [OrderedOidSet.default]
  have hempty : ∀ x r, (SortedMap.empty : SortedMap ObjectId CommitGraphRecord).get x = some r →
      E.infoAt db x = some r := by simp
  obtain ⟨c, hrun, hinv, -, hall⟩ := run_collectAll recordPaths
    (E.prefetched db (E.prefetched db .empty haves) (commitIds E db toSend)) hdb ht hfuel toSend hstart
    (fun x hx => ⟨hx, hsend x hx⟩) (by
      intro x hx commit hc
      refine ⟨mem_rootTrees.2 ⟨x, hx, commit, hc, rfl⟩, ?_⟩
      have hi : (E.infoAt db x).isSome := hdb.infoAt_isSome.2 (by simp [hc])
      obtain ⟨r, hr⟩ := Option.isSome_iff_exists.1
        (prefetched_mem (E.prefetched db .empty haves) ((mem_commitIds hdb hsend).2 ⟨hx, hi⟩) hi)
      obtain ⟨commit', hc', hroot, -⟩ := hdb.commit_of_infoAt
        (prefetched_cached (prefetched_cached hempty haves) (commitIds E db toSend) x r hr)
      cases hc.symm.trans hc'
      exact ⟨r, hr, hroot⟩)
  refine ⟨{ objects := c.objects.order, blobPaths := c.blobPaths }, haveObjects, ?_, hset, c.objects.nodup, fun x => ?_⟩
  · rw [collectInner]
    refine (Prog.run_bind_ok (hdb.run_prefetchRecords hpos _ _)).trans ?_
    refine (Prog.run_bind_ok hroots).trans ?_
    refine (Prog.run_bind_ok hexpand).trans ?_
    refine (Prog.run_bind_ok hinfo).trans ?_
    refine (Prog.run_bind_ok (hdb.run_prefetchRecords hpos _ _)).trans ?_
    refine (Prog.run_bind_ok hrs).trans ?_
    exact Prog.run_bind_ok hrun
  · constructor
    · intro hx
      rcases hinv.sound x hx with hx | ⟨hhave, had, hr⟩
      · exact .inl hx
      · exact .inr ⟨hr, hhave, had⟩
    · rintro (hx | ⟨⟨r, hr, hin⟩, hhave, had⟩)
      · exact (hall x hx).1
      · -- down the path everything is collected, had, or filtered out
        suffices hkey : x ∈ c.objects.order ∨ x ∈ haveObjects ∨ ¬ Admitted E db filter x by tauto
        clear hhave had
        induction hin with
        | refl =>
          obtain ⟨y, hy, commit, hc, rfl⟩ := mem_rootTrees.1 hr
          exact ((hall y hy).2 commit hc).imp id .inl
        | @tail y z _ hyz ih =>
          rcases ih with hy | hy | hy
          · exact hinv.closed y hy (by simp) z hyz
          · rcases hset.closed y hy z hyz with hz | ⟨rfl, body, hb⟩
            · exact .inr (.inl hz)
            · exact .inr (.inr fun had => had body hb)
          · refine absurd hyz (Env.IsBlob.not_entry ?_)
            by_contra hb
            exact hy fun body hbody => absurd ⟨body, hbody⟩ hb

end Walker

end Miscreant
