/-
What `peel_ref` reports.

The loop of `peel_ref` follows `MAX_PEEL_DEPTH` tags and then gives what it has
come to, unread. Where that is still a tag, the tag is reported as the peeled
object: the depth is capped in hops, not in objects (`peelRef_true_iff`).
-/
import Miscreant.AdvertiseFacts
import Miscreant.PromoteFacts

namespace Miscreant

open Lib

variable {E : Env} {db : E.Db}

/-- `x` names a tag object. -/
def Env.IsTag (E : Env) (db : E.Db) (x : ObjectId) : Prop := ∃ body, E.objectAt db x = some (.tag, body)

/-- The chain of tags from `x` comes to `y` after `n` of them. -/
def Env.AfterTags (E : Env) (db : E.Db) : Nat → ObjectId → ObjectId → Prop
  | 0, x, y => x = y
  | n + 1, x, y => ∃ body tag, E.objectAt db x = some (.tag, body) ∧ E.gix.tagFromBytes body x.kind = some tag ∧
      E.AfterTags db n tag.target y

/-- The chain from `x` has more than `n` tags. -/
def Env.MoreTags (E : Env) (db : E.Db) (n : Nat) (x : ObjectId) : Prop := ∃ y, E.AfterTags db n x y ∧ E.IsTag db y

/-- `peel_ref` reports only true peels of `x`. -/
structure PeelsTruly (E : Env) (db : E.Db) (x : ObjectId) : Prop where
  /-- What it reports is at the end of a chain of tags, and not a tag. -/
  peeled : ∀ p, E.run (UploadPack.peelRef E x) db = some (.ok (some p), db) →
    ∃ chain, E.Peels db x chain ∧ chain.tags ≠ [] ∧ chain.target = p
  capped : E.MoreTags db MAX_PEEL_DEPTH x → E.run (UploadPack.peelRef E x) db = some (.ok none, db)
  plain : ¬ E.IsTag db x → E.run (UploadPack.peelRef E x) db = some (.ok none, db)

theorem peelAtFrom_afterTags : ∀ {n : Nat} {x y : ObjectId}, E.AfterTags db n x y →
    peelAtFrom E db n true x = .ok (some y)
  | 0, x, y, h => by
    cases h
    rfl
  | n + 1, x, y, h => by
    obtain ⟨body, tag, ho, ht, h⟩ := h
    simp [peelAtFrom, ho, ht, peelAtFrom_afterTags h]

/-- As many tags as there are turns. -/
theorem peelAt_afterTags {x y : ObjectId} (h : E.AfterTags db MAX_PEEL_DEPTH x y) : E.peelAt db x = .ok (some y) := by
  obtain ⟨body, tag, ho, ht, h⟩ := h
  have hrest := peelAtFrom_afterTags h
  rw [Env.peelAt, MAX_PEEL_DEPTH, peelAtFrom]
  simpa [ho, ht] using hrest

/-- What the loop reports has been read and is not a tag, or is what the last
turn has come to. -/
theorem peels_or_afterTags : ∀ {n : Nat} {x p : ObjectId}, peelAtFrom E db n true x = .ok (some p) →
    (∃ chain, E.Peels db x chain ∧ chain.target = p) ∨ E.AfterTags db n x p
  | 0, x, p, h => by
    cases h
    exact .inr rfl
  | n + 1, x, p, h => by
    rw [peelAtFrom] at h
    cases ho : E.objectAt db x with
    | none => simp [ho] at h
    | some o =>
      obtain ⟨kind, body⟩ := o
      by_cases hk : kind = .tag
      · subst hk
        cases ht : E.gix.tagFromBytes body x.kind with
        | none => simp [ho, ht] at h
        | some tag =>
          have hrest : peelAtFrom E db n true tag.target = .ok (some p) := by simpa [ho, ht] using h
          rcases peels_or_afterTags hrest with ⟨chain, hchain, htarget⟩ | hafter
          · exact .inl ⟨_, .tag ho ht hchain, htarget⟩
          · exact .inr ⟨body, tag, ho, ht, hafter⟩
      · have hp : x = p := by simpa [ho, hk] using h
        exact .inl ⟨⟨[], x⟩, .target ho hk, hp⟩

/-- A chain that comes to an object that is no tag. -/
theorem peels_of_afterTags : ∀ {n : Nat} {x p : ObjectId}, E.AfterTags db n x p → (E.objectAt db p).isSome →
    ¬ E.IsTag db p → ∃ chain, E.Peels db x chain ∧ chain.target = p
  | 0, x, p, h, hsome, hp => by
    cases h
    obtain ⟨⟨kind, body⟩, ho⟩ := Option.isSome_iff_exists.1 hsome
    refine ⟨⟨[], x⟩, .target ho fun hk => hp ⟨body, ?_⟩, rfl⟩
    rw [ho, hk]
  | n + 1, x, p, h, hsome, hp => by
    obtain ⟨body, tag, ho, ht, h⟩ := h
    obtain ⟨chain, hchain, htarget⟩ := peels_of_afterTags h hsome hp
    exact ⟨_, .tag ho ht hchain, htarget⟩

/-- In a closed store a chain of tags comes to an object that is there. -/
theorem isSome_of_afterTags (hdb : Intact E db) (hclosed : Promote.Closed E db) : ∀ {n : Nat} {x p : ObjectId},
    (E.objectAt db x).isSome → E.AfterTags db n x p → (E.objectAt db p).isSome
  | 0, x, p, hx, h => by
    cases h
    exact hx
  | n + 1, x, p, _, h => by
    obtain ⟨body, tag, ho, ht, h⟩ := h
    have hchild : E.Child db x tag.target := ⟨.tag, body, [tag.target], ho, by simp [Promote.objectChildren, ht], by simp⟩
    exact isSome_of_afterTags hdb hclosed (hdb.object _ (hclosed x tag.target hchild)) h

/-- `peel_ref` reports only true peels, exactly where the chain has at most
`MAX_PEEL_DEPTH` tags. -/
theorem peelRef_true_iff (hdb : Intact E db) (hclosed : Promote.Closed E db) (x : ObjectId) :
    PeelsTruly E db x ↔ ¬ E.MoreTags db MAX_PEEL_DEPTH x := by
  have hrun : E.run (UploadPack.peelRef E x) db = some (E.peelAt db x, db) := run_peelRef hdb x
  -- On a tag the first turn goes on to its target.
  have hfirst : ∀ body tag, E.objectAt db x = some (.tag, body) → E.gix.tagFromBytes body x.kind = some tag →
      E.peelAt db x = peelAtFrom E db 4 true tag.target := by
    intro body tag ho ht
    simp [Env.peelAt, MAX_PEEL_DEPTH, peelAtFrom, ho, ht]
  constructor
  · intro h hmore
    have hnone := h.capped hmore
    obtain ⟨y, hafter, -⟩ := hmore
    rw [hrun, peelAt_afterTags hafter] at hnone
    cases hnone
  · intro hfew
    refine ⟨fun p hp => ?_, fun hmore => absurd hmore hfew, fun hplain => ?_⟩
    · rw [hrun] at hp
      have hat : E.peelAt db x = .ok (some p) := by simpa using hp
      cases ho : E.objectAt db x with
      | none => simp [Env.peelAt, MAX_PEEL_DEPTH, peelAtFrom, ho] at hat
      | some o =>
        obtain ⟨kind, body⟩ := o
        by_cases hk : kind = .tag
        · subst hk
          cases ht : E.gix.tagFromBytes body x.kind with
          | none => simp [Env.peelAt, MAX_PEEL_DEPTH, peelAtFrom, ho, ht] at hat
          | some tag =>
            have hpeels : ∃ chain, E.Peels db tag.target chain ∧ chain.target = p := by
              rw [hfirst body tag ho ht] at hat
              rcases peels_or_afterTags hat with hpeels | hafter
              · exact hpeels
              · have hchain : E.AfterTags db MAX_PEEL_DEPTH x p := ⟨body, tag, ho, ht, hafter⟩
                have hp := isSome_of_afterTags hdb hclosed (by rw [ho]; rfl) hchain
                exact peels_of_afterTags hafter hp fun htag => hfew ⟨p, hchain, htag⟩
            obtain ⟨chain, hchain, htarget⟩ := hpeels
            exact ⟨_, .tag ho ht hchain, by simp, htarget⟩
        · simp [Env.peelAt, MAX_PEEL_DEPTH, peelAtFrom, ho, hk] at hat
    · rw [hrun]
      cases ho : E.objectAt db x with
      | none => simp [Env.peelAt, MAX_PEEL_DEPTH, peelAtFrom, ho]
      | some o =>
        obtain ⟨kind, body⟩ := o
        have hk : kind ≠ .tag := fun hk => hplain ⟨body, by rw [ho, hk]⟩
        simp [Env.peelAt, MAX_PEEL_DEPTH, peelAtFrom, ho, hk]

/-! A blob, and a chain of six tags that ends in it. -/

namespace Sample

/-- The blob, and the tags of the chain. -/
def chainIds : List ObjectId := [blobId,
  sha1Id 0x273f8fd4c7ce5b822f1adebde86a454a1c0fb34d,
  sha1Id 0x42d8627e9c62083e4131d80cea7dfaf1b7384f2b,
  sha1Id 0xd866602d8ee8ff0604f85ea21182fcda150c2758,
  sha1Id 0x7a7cebf01db9849a004d1148a632c831ca80c6c3,
  sha1Id 0x8b31c130724b5bb57722a3612635b301b3bc93eb,
  sha1Id 0x4d1340f1530c5fb6a183a56fb4af03d396ece4f9]

def chainBodies : List Bytes := [
  asBytes "object 45b983be36b73c0788dc9cbcb76cbb80fc7bb057\ntype blob\ntag v1\ntagger m <m@m> 0 +0000\n\nv\n",
  asBytes "object 273f8fd4c7ce5b822f1adebde86a454a1c0fb34d\ntype tag\ntag v2\ntagger m <m@m> 0 +0000\n\nv\n",
  asBytes "object 42d8627e9c62083e4131d80cea7dfaf1b7384f2b\ntype tag\ntag v3\ntagger m <m@m> 0 +0000\n\nv\n",
  asBytes "object d866602d8ee8ff0604f85ea21182fcda150c2758\ntype tag\ntag v4\ntagger m <m@m> 0 +0000\n\nv\n",
  asBytes "object 7a7cebf01db9849a004d1148a632c831ca80c6c3\ntype tag\ntag v5\ntagger m <m@m> 0 +0000\n\nv\n",
  asBytes "object 8b31c130724b5bb57722a3612635b301b3bc93eb\ntype tag\ntag v6\ntagger m <m@m> 0 +0000\n\nv\n"]

def chainTable : ParseTable where
  commits := []
  tags := chainBodies.zip (chainIds.map fun target => ⟨target, if target = blobId then .blob else .tag⟩)
  trees := []
  commits_sha1 := ParseTable.sha1_nil

def chainEnv : Env := chainTable.env 1000

def chainObjects : List (ObjectId × Kind × Bytes) :=
  (blobId, .blob, blobBody) :: (chainIds.drop 1).zip (chainBodies.map fun body => (.tag, body))

def chainDb : chainEnv.Db := chainEnv.storeOf chainObjects []

/-- The object with the number `i`: the blob, or a tag of the one before. -/
def chainAt (i : Nat) : ObjectId := chainIds.getD i blobId

theorem closed_chain : Promote.Closed chainEnv chainDb := Promote.closed_storeOf (by decide +kernel)

theorem chain_link {i : Nat} (h : i < 6) : ∃ body tag, chainEnv.objectAt chainDb (chainAt (i + 1)) = some (.tag, body) ∧
    chainEnv.gix.tagFromBytes body (chainAt (i + 1)).kind = some tag ∧ tag.target = chainAt i := by
  have hall : ∀ i : Fin 6, chainObjects.lookup (chainAt (i + 1)) = some (.tag, chainBodies.getD i []) ∧
      (chainEnv.gix.tagFromBytes (chainBodies.getD i []) (chainAt (i + 1)).kind).map (·.target) = some (chainAt i) := by
    decide +kernel
  obtain ⟨hobject, htag⟩ := hall ⟨i, h⟩
  obtain ⟨tag, htag, htarget⟩ := Option.map_eq_some_iff.1 htag
  exact ⟨_, tag, (objectAt_storeOf _).trans hobject, htag, htarget⟩

theorem chain_afterTags : ∀ {n i : Nat}, i + n ≤ 6 → chainEnv.AfterTags chainDb n (chainAt (i + n)) (chainAt i)
  | 0, _, _ => rfl
  | n + 1, i, h => by
    obtain ⟨body, tag, ho, ht, htarget⟩ := @chain_link (i + n) (by omega)
    exact ⟨body, tag, ho, ht, by rw [htarget]; exact chain_afterTags (by omega)⟩

theorem chain_run {i : Nat} (h : i + MAX_PEEL_DEPTH ≤ 6) :
    chainEnv.run (UploadPack.peelRef chainEnv (chainAt (i + MAX_PEEL_DEPTH))) chainDb =
      some (.ok (some (chainAt i)), chainDb) := by
  rw [← peelAt_afterTags (chain_afterTags h)]
  exact run_peelRef intact_storeOf _

end Sample

open Sample in
/-- Five tags are peeled to the blob. -/
theorem peelRef_true_five : PeelsTruly chainEnv chainDb (chainAt 5) ∧
    chainEnv.run (UploadPack.peelRef chainEnv (chainAt 5)) chainDb = some (.ok (some blobId), chainDb) := by
  refine ⟨(peelRef_true_iff intact_storeOf closed_chain _).2 ?_, @chain_run 0 (by decide)⟩
  intro hmore
  obtain ⟨y, hafter, body, hbody⟩ := hmore
  have hblob := peelAt_afterTags (@chain_afterTags 5 0 (by decide))
  obtain rfl : chainAt 0 = y := Option.some.inj (Except.ok.inj (hblob.symm.trans (peelAt_afterTags hafter)))
  cases (objectAt_storeOf blobId).symm.trans hbody

open Sample in
/-- Of six tags the loop comes to the last, and reports it. -/
theorem peelRef_six_tags :
    Intact chainEnv chainDb ∧ Promote.Closed chainEnv chainDb ∧
    chainEnv.MoreTags chainDb MAX_PEEL_DEPTH (chainAt 6) ∧ chainEnv.IsTag chainDb (chainAt 1) ∧
    chainEnv.run (UploadPack.peelRef chainEnv (chainAt 6)) chainDb = some (.ok (some (chainAt 1)), chainDb) := by
  obtain ⟨body, tag, ho, -⟩ := @chain_link 0 (by decide)
  exact ⟨intact_storeOf, closed_chain, ⟨chainAt 1, @chain_afterTags 5 1 (by decide), body, ho⟩, ⟨body, ho⟩,
    @chain_run 1 (by decide)⟩

end Miscreant
