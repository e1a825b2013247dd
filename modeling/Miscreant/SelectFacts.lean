/-
Commit discovery (`Walker.selectCommits`) against the commit graph, as
ancestry.

`Discovery.Inv` ties the marks, the frontier, the pending set and the visited
set to reachability. It asks nothing of the generations, so discovery ends
and loses nothing even where a generation has wrapped around
(`Inv.complete`). With generations that grow along the ancestry, each level
is visited after everything above it (`Discovery.Levelled`), which makes the
answer exact and its order strict.
-/
import Miscreant.Repo
import Mathlib.Algebra.BigOperators.Group.Finset.Basic
import Mathlib.Algebra.Order.BigOperators.Group.Finset

namespace Miscreant

open Lib

open Walker

variable {info : Info} {wants haves level : List ObjectId} {s : Select}

/-! ## Marks -/

/-- What a mark does: nothing to a commit already marked at least as high,
else it marks and queues the commit. -/
theorem Discovery.mark_cases (d : Discovery) (id : ObjectId) (flag : Flag) (generation : UInt32)
    (hp : id ∈ d.pending → d.state.get id = some .Want) :
    (d.mark id flag generation = d ∧ ∃ f, d.state.get id = some f ∧ (flag = .Have → f = .Have)) ∨
    ((d.mark id flag generation).frontier = d.frontier.push ⟨generation, id⟩ ∧
      (d.mark id flag generation).state = d.state.insert id flag ∧
      (∀ x, x ∈ (d.mark id flag generation).pending ↔ if x = id then flag = .Want else x ∈ d.pending) ∧
      (d.state.get id = none ∨ d.state.get id = some .Want ∧ flag = .Have)) := by
  unfold Discovery.mark
  cases hs : d.state.get id with
  | none =>
    have hn : id ∉ d.pending := fun h => by simp [hs] at hp; exact hp h
    right
    cases flag with
    | Want => refine ⟨rfl, rfl, fun x => ?_, .inl rfl⟩; by_cases hx : x = id <;> simp [hx]
    | Have => refine ⟨rfl, rfl, fun x => ?_, .inl rfl⟩; by_cases hx : x = id <;> simp [hx, hn]
  | some f =>
    cases f with
    | Have => left; exact ⟨rfl, .Have, rfl, fun _ => rfl⟩
    | Want =>
      cases flag with
      | Want => left; exact ⟨rfl, .Want, rfl, fun h => h⟩
      | Have =>
        right
        refine ⟨rfl, rfl, fun x => ?_, .inr ⟨rfl, rfl⟩⟩
        by_cases hx : x = id <;> simp [hx]

/-- The state of a discovery started at `wants` and `haves`, with the commits
of `level` drained from the frontier and still to be visited. -/
structure Discovery.Inv (info : Info) (wants haves level : List ObjectId) (s : Select) : Prop where
  cached : ∀ x r, s.records.get x = some r → info x = some r
  markedCached : ∀ x, (s.discovery.state.get x).isSome → (s.records.get x).isSome
  frontier : ∀ e ∈ s.discovery.frontier, (s.discovery.state.get e.oid).isSome ∧
    ∃ r, info e.oid = some r ∧ r.generation = e.generation
  drained : ∀ x ∈ level, (s.discovery.state.get x).isSome
  queued : ∀ x, (s.discovery.state.get x).isSome → x ∉ s.done →
    (∃ e ∈ s.discovery.frontier, e.oid = x) ∨ x ∈ level
  pending : ∀ x, x ∈ s.discovery.pending ↔ s.discovery.state.get x = some .Want ∧ x ∉ s.done
  doneMarked : ∀ x ∈ s.done, (s.discovery.state.get x).isSome
  want : ∀ x, s.discovery.state.get x = some .Want → info.Below wants x
  «have» : ∀ x, s.discovery.state.get x = some .Have → info.Below haves x
  sent : ∀ x ∈ s.toSend, x ∈ s.done ∧ info.Below wants x
  nodup : s.toSend.Nodup
  doneSent : ∀ x ∈ s.done, x ∈ s.toSend ∨ s.discovery.state.get x = some .Have

namespace Discovery.Inv

/-- Marking a commit whose record is cached, for a reason the flag asks for. -/
theorem mark (h : Discovery.Inv info wants haves level s) (flag : Flag) {id : ObjectId} {r : CommitGraphRecord}
    (hr : s.records.get id = some r) (hw : flag = .Want → info.Below wants id)
    (hh : flag = .Have → info.Below haves id) :
    Discovery.Inv info wants haves level { s with discovery := s.discovery.mark id flag r.generation } := by
  have hi := h.cached id r hr
  rcases s.discovery.mark_cases id flag r.generation (fun hp => ((h.pending id).1 hp).1) with
    ⟨heq, -⟩ | ⟨hf, hst, hpend, hwas⟩
  · rw [heq]; exact h
  · have hget : ∀ x, (s.discovery.mark id flag r.generation).state.get x =
        if x = id then some flag else s.discovery.state.get x := by
      intro x; rw [hst, SortedMap.get_insert]
    have hkeep : ∀ x, (s.discovery.state.get x).isSome →
        ((s.discovery.mark id flag r.generation).state.get x).isSome := by
      intro x hx; rw [hget]; split_ifs <;> simp [hx]
    refine ⟨h.cached, fun x hx => ?_, fun e he => ?_, fun x hx => hkeep x (h.drained x hx), fun x hx hd => ?_,
      fun x => ?_, fun x hx => hkeep x (h.doneMarked x hx), fun x hx => ?_, fun x hx => ?_, h.sent, h.nodup,
      fun x hx => ?_⟩
    · simp only [hget] at hx
      split_ifs at hx with hxid
      · simp [hxid, hr]
      · exact h.markedCached x hx
    · simp only [hf, MaxHeap.mem_push] at he
      rcases he with rfl | he
      · exact ⟨by simp [hget], r, hi, rfl⟩
      · exact ⟨hkeep _ (h.frontier e he).1, (h.frontier e he).2⟩
    · simp only [hget] at hx
      split_ifs at hx with hxid
      · exact .inl ⟨⟨r.generation, id⟩, by simp [hf], hxid.symm⟩
      · rcases h.queued x hx hd with ⟨e, he, rfl⟩ | hl
        · exact .inl ⟨e, by simp [hf, he], rfl⟩
        · exact .inr hl
    · simp only [hget, hpend]
      split_ifs with hxid
      · subst hxid
        refine ⟨fun hflag => ⟨by rw [hflag], fun hd => ?_⟩, fun hx => by simpa using hx.1⟩
        rcases hwas with hnone | ⟨-, hflag'⟩
        · simpa [hnone] using h.doneMarked x hd
        · rw [hflag] at hflag'; cases hflag'
      · exact h.pending x
    · simp only [hget] at hx
      split_ifs at hx with hxid
      · rw [hxid]; exact hw (Option.some.inj hx)
      · exact h.want x hx
    · simp only [hget] at hx
      split_ifs at hx with hxid
      · rw [hxid]; exact hh (Option.some.inj hx)
      · exact h.have x hx
    · rcases h.doneSent x hx with hsent | hhave
      · exact .inl hsent
      · right
        simp only [hget]
        split_ifs with hxid
        · subst hxid
          rcases hwas with hnone | ⟨hwant, -⟩
          · simp [hnone] at hhave
          · simp [hwant] at hhave
        · exact hhave

end Discovery.Inv

noncomputable instance : Fintype ObjectId := Fintype.ofFinite _

/-- How many more marks a commit can take. -/
def marksLeft : Option Flag → Nat
  | none => 2
  | some .Want => 1
  | some .Have => 0

/-- How much marking and visiting is left: a mark that changes anything uses
up more of it than the frontier entry it adds. -/
noncomputable def Discovery.measure (d : Discovery) : Nat :=
  2 * (∑ x, marksLeft (d.state.get x)) + d.frontier.entries.length

/-- `d'` is `d` with every commit of `ids` marked `flag` or higher. -/
structure Discovery.Marked (flag : Flag) (ids : List ObjectId) (d d' : Discovery) : Prop where
  other : ∀ x ∉ ids, d'.state.get x = d.state.get x
  «have» : ∀ x, d.state.get x = some .Have → d'.state.get x = some .Have
  marked : ∀ x, (d.state.get x).isSome ∨ x ∈ ids → (d'.state.get x).isSome
  flagged : flag = .Have → ∀ x ∈ ids, d'.state.get x = some .Have
  queued : ∀ e ∈ d'.frontier, e ∈ d.frontier ∨ e.oid ∈ ids
  measure : d'.measure ≤ d.measure

namespace Discovery.Marked

theorem refl (flag : Flag) (d : Discovery) : Discovery.Marked flag [] d d :=
  ⟨fun _ _ => rfl, fun _ h => h, fun _ h => by simpa using h, fun _ _ h => by simp at h, fun _ h => .inl h, le_rfl⟩

theorem trans {flag : Flag} {ids ids' : List ObjectId} {d d' d'' : Discovery}
    (h : Discovery.Marked flag ids d d') (h' : Discovery.Marked flag ids' d' d'') :
    Discovery.Marked flag (ids ++ ids') d d'' where
  other x hx := by
    simp only [List.mem_append, not_or] at hx
    rw [h'.other x hx.2, h.other x hx.1]
  «have» x hx := h'.have x (h.have x hx)
  marked x hx := by
    rcases hx with hx | hx
    · exact h'.marked x (.inl (h.marked x (.inl hx)))
    · rcases List.mem_append.1 hx with hx | hx
      · exact h'.marked x (.inl (h.marked x (.inr hx)))
      · exact h'.marked x (.inr hx)
  flagged hf x hx := by
    rcases List.mem_append.1 hx with hx | hx
    · exact h'.have x (h.flagged hf x hx)
    · exact h'.flagged hf x hx
  queued e he := by
    rcases h'.queued e he with he | he
    · rcases h.queued e he with he | he
      · exact .inl he
      · exact .inr (by simp [he])
    · exact .inr (by simp [he])
  measure := h'.measure.trans h.measure

theorem of_mark (d : Discovery) (id : ObjectId) (flag : Flag) (generation : UInt32)
    (hp : id ∈ d.pending → d.state.get id = some .Want) :
    Discovery.Marked flag [id] d (d.mark id flag generation) := by
  rcases d.mark_cases id flag generation hp with ⟨heq, f, hf, hhave⟩ | ⟨hf, hst, -, hwas⟩
  · rw [heq]
    refine ⟨fun _ _ => rfl, fun _ h => h, fun x h => ?_, fun hh x h => ?_, fun _ h => .inl h, le_rfl⟩
    · rcases h with h | h
      · exact h
      · simp [List.mem_singleton.1 h, hf]
    · rw [List.mem_singleton.1 h, hf, hhave hh]
  · have hget : ∀ x, (d.mark id flag generation).state.get x =
        if x = id then some flag else d.state.get x := by
      intro x; rw [hst, SortedMap.get_insert]
    refine ⟨fun x hx => ?_, fun x hx => ?_, fun x hx => ?_, fun hh x hx => ?_, fun e he => ?_, ?_⟩
    · rw [hget, if_neg (by simpa using hx)]
    · rw [hget]
      split_ifs with hxid
      · subst hxid
        rcases hwas with hnone | ⟨hwant, -⟩
        · simp [hnone] at hx
        · simp [hwant] at hx
      · exact hx
    · rw [hget]
      split_ifs with hxid
      · rfl
      · simpa [hxid] using hx
    · rw [hget, if_pos (List.mem_singleton.1 hx), hh]
    · simp only [hf, MaxHeap.mem_push] at he
      rcases he with rfl | he
      · exact .inr (by simp)
      · exact .inl he
    · have hle : ∀ x, marksLeft ((d.mark id flag generation).state.get x) ≤ marksLeft (d.state.get x) := by
        intro x
        rw [hget]
        split_ifs with hxid
        · subst hxid
          rcases hwas with hnone | ⟨hwant, rfl⟩
          · cases flag <;> simp [hnone, marksLeft]
          · simp [hwant, marksLeft]
        · exact le_rfl
      have hlt : marksLeft ((d.mark id flag generation).state.get id) < marksLeft (d.state.get id) := by
        rw [hget, if_pos rfl]
        rcases hwas with hnone | ⟨hwant, rfl⟩
        · cases flag <;> simp [hnone, marksLeft]
        · simp [hwant, marksLeft]
      have hsum := Finset.sum_lt_sum (fun x _ => hle x) ⟨id, Finset.mem_univ id, hlt⟩
      simp only [Discovery.measure, hf, MaxHeap.length_push]
      omega

end Discovery.Marked

/-! ## Visits -/

/-- Marking the parents of a visited commit. -/
theorem markParents_spec (flag : Flag) :
    ∀ (parents : List ObjectId) {s : Select}, Discovery.Inv info wants haves level s →
      (∀ p ∈ parents, (s.records.get p).isSome) → (flag = .Want → ∀ p ∈ parents, info.Below wants p) →
      (flag = .Have → ∀ p ∈ parents, info.Below haves p) →
      ∃ d, markParents s.records flag parents s.discovery = some d ∧
        Discovery.Inv info wants haves level { s with discovery := d } ∧
        Discovery.Marked flag parents s.discovery d
  | [], s, h, _, _, _ => ⟨s.discovery, rfl, h, .refl _ _⟩
  | p :: parents, s, h, hr, hw, hh => by
    obtain ⟨r, hp⟩ := Option.isSome_iff_exists.1 (hr p (by simp))
    have hmark := h.mark flag hp (fun hf => hw hf p (by simp)) (fun hf => hh hf p (by simp))
    obtain ⟨d, hd, hinv, hmarked⟩ := markParents_spec flag parents hmark (fun q hq => hr q (by simp [hq]))
      (fun hf q hq => hw hf q (by simp [hq])) (fun hf q hq => hh hf q (by simp [hq]))
    have hone := Discovery.Marked.of_mark s.discovery p flag r.generation fun hpend => ((h.pending p).1 hpend).1
    exact ⟨d, by simpa [markParents, hp] using hd, hinv, hone.trans hmarked⟩

theorem cachedParents_of {records : SortedMap ObjectId CommitGraphRecord} {id : ObjectId} {r : CommitGraphRecord}
    (h : records.get id = some r) : cachedParents records id = r.parents := by
  simp [cachedParents, h]

/-- The state with `id` visited, before its parents are marked. -/
def Walker.Select.enter (s : Select) (id : ObjectId) (flag : Flag) : Select :=
  if flag = .Want then
    { s with
      done := insert id s.done
      toSend := s.toSend ++ [id]
      discovery := { s.discovery with pending := s.discovery.pending.erase id } }
  else { s with done := insert id s.done }

theorem visit_eq {id : ObjectId} {flag : Flag} (hd : id ∉ s.done) (hf : s.discovery.state.get id = some flag) :
    visit s id = (markParents s.records flag (cachedParents s.records id) (s.enter id flag).discovery).map
      fun d => { s.enter id flag with discovery := d } := by
  cases flag <;> simp [visit, hd, hf, Select.enter]

@[simp] theorem enter_state (id : ObjectId) (flag : Flag) :
    (s.enter id flag).discovery.state = s.discovery.state := by
  cases flag <;> rfl

@[simp] theorem enter_frontier (id : ObjectId) (flag : Flag) :
    (s.enter id flag).discovery.frontier = s.discovery.frontier := by
  cases flag <;> rfl

@[simp] theorem enter_records (id : ObjectId) (flag : Flag) : (s.enter id flag).records = s.records := by
  cases flag <;> rfl

@[simp] theorem enter_done (id : ObjectId) (flag : Flag) : (s.enter id flag).done = insert id s.done := by
  cases flag <;> rfl

theorem enter_toSend (id : ObjectId) (flag : Flag) :
    (s.enter id flag).toSend = s.toSend ++ if flag = .Want then [id] else [] := by
  cases flag <;> simp [Select.enter]

theorem Discovery.Inv.enter {id : ObjectId} {flag : Flag} (h : Discovery.Inv info wants haves (id :: level) s)
    (hd : id ∉ s.done) (hf : s.discovery.state.get id = some flag) :
    Discovery.Inv info wants haves level (s.enter id flag) where
  cached := by simpa using h.cached
  markedCached := by simpa using h.markedCached
  frontier := by simpa using h.frontier
  drained x hx := by simpa using h.drained x (by simp [hx])
  queued x hx hxd := by
    simp only [enter_done, Finset.mem_insert, not_or] at hxd
    simpa [hxd.1] using h.queued x (by simpa using hx) hxd.2
  pending x := by
    cases flag with
    | Want => simp [Select.enter, h.pending]; tauto
    | Have =>
      simp only [Select.enter, reduceCtorEq, if_false, h.pending, Finset.mem_insert, not_or]
      refine ⟨fun hx => ⟨hx.1, ?_, hx.2⟩, fun hx => ⟨hx.1, hx.2.2⟩⟩
      rintro rfl
      simp [hf] at hx
  doneMarked x hx := by
    simp only [enter_done, Finset.mem_insert] at hx
    rcases hx with rfl | hx
    · simp [hf]
    · simpa using h.doneMarked x hx
  want := by simpa using h.want
  «have» := by simpa using h.have
  sent x hx := by
    rw [enter_toSend] at hx
    cases flag with
    | Want =>
      simp only [if_true, List.mem_append, List.mem_singleton] at hx
      rcases hx with hx | rfl
      · exact ⟨by simp [(h.sent x hx).1], (h.sent x hx).2⟩
      · exact ⟨by simp, h.want x hf⟩
    | Have =>
      have hx : x ∈ s.toSend := by simpa using hx
      exact ⟨by simp [(h.sent x hx).1], (h.sent x hx).2⟩
  nodup := by
    rw [enter_toSend]
    cases flag with
    | Want => simpa using h.nodup.concat fun hx => hd (h.sent id hx).1
    | Have => simpa using h.nodup
  doneSent x hx := by
    simp only [enter_done, Finset.mem_insert] at hx
    rw [enter_toSend, enter_state]
    rcases hx with rfl | hx
    · cases flag with
      | Want => simp
      | Have => exact .inr hf
    · rcases h.doneSent x hx with hx | hx
      · exact .inl (by simp [hx])
      · exact .inr hx

/-- What a visit does: its parents are marked with its flag. -/
theorem visit_spec {id : ObjectId} (h : Discovery.Inv info wants haves (id :: level) s) (hd : id ∉ s.done)
    (hcache : ∀ y, info.Parent id y → (s.records.get y).isSome) :
    ∃ flag d r, s.discovery.state.get id = some flag ∧ info id = some r ∧
      visit s id = some { s.enter id flag with discovery := d } ∧
      Discovery.Inv info wants haves level { s.enter id flag with discovery := d } ∧
      Discovery.Marked flag r.parents (s.enter id flag).discovery d := by
  obtain ⟨flag, hf⟩ := Option.isSome_iff_exists.1 (h.drained id (by simp))
  obtain ⟨r, hr⟩ := Option.isSome_iff_exists.1 (h.markedCached id (by simp [hf]))
  have hi := h.cached id r hr
  have hparent : ∀ p ∈ r.parents, info.Parent id p := fun p hp => ⟨r, hi, hp⟩
  obtain ⟨d, hd', hinv, hmarked⟩ := markParents_spec flag r.parents (h.enter hd hf)
    (fun p hp => by simpa using hcache p (hparent p hp))
    (by rintro rfl p hp; exact (h.want id hf).parent (hparent p hp))
    (by rintro rfl p hp; exact (h.have id hf).parent (hparent p hp))
  refine ⟨flag, d, r, hf, hi, ?_, hinv, hmarked⟩
  rw [enter_records] at hd'
  rw [visit_eq hd hf, cachedParents_of hr, hd']
  rfl

/-- The wants are marked, and so is every parent of a commit sent. -/
structure Discovery.Covered (info : Info) (wants : List ObjectId) (s : Select) : Prop where
  starts : ∀ w ∈ wants, (s.discovery.state.get w).isSome
  parents : ∀ x ∈ s.toSend, ∀ y, info.Parent x y → (s.discovery.state.get y).isSome

theorem Discovery.Covered.visit {id : ObjectId} {flag : Flag} {d : Discovery} {r : CommitGraphRecord}
    (h : Discovery.Covered info wants s) (hr : info id = some r)
    (hm : Discovery.Marked flag r.parents (s.enter id flag).discovery d) :
    Discovery.Covered info wants { s.enter id flag with discovery := d } where
  starts w hw := hm.marked w (.inl (by simpa using h.starts w hw))
  parents x hx y hy := by
    have hx : x ∈ s.toSend ∨ x = id := by
      rw [enter_toSend] at hx
      cases flag <;> simp_all
    rcases hx with hx | rfl
    · exact hm.marked y (.inl (by simpa using h.parents x hx y hy))
    · obtain ⟨r', hr', hy⟩ := hy
      cases hr.symm.trans hr'
      exact hm.marked y (.inr hy)

/-- Once nothing is pending, what the wants reach is sent or reached by a
have. -/
theorem Discovery.Inv.complete (h : Discovery.Inv info wants haves [] s) (hc : Discovery.Covered info wants s)
    (hp : s.discovery.pending = ∅) {x : ObjectId} (hx : info.Below wants x) :
    x ∈ s.toSend ∨ info.Below haves x := by
  have marked : ∀ y, (s.discovery.state.get y).isSome → y ∈ s.toSend ∨ info.Below haves y := by
    intro y hy
    obtain ⟨flag, hf⟩ := Option.isSome_iff_exists.1 hy
    cases flag with
    | Have => exact .inr (h.have y hf)
    | Want =>
      have hd : y ∈ s.done := by
        by_contra hd
        have := (h.pending y).2 ⟨hf, hd⟩
        simp [hp] at this
      rcases h.doneSent y hd with hs | hh
      · exact .inl hs
      · simp [hf] at hh
  obtain ⟨w, hw, ha⟩ := hx
  induction ha with
  | refl => exact marked w (hc.starts w hw)
  | tail _ hpar ih =>
    rcases ih with hs | hh
    · exact marked _ (hc.parents _ hs _ hpar)
    · exact .inr (hh.parent hpar)

/-! ## Levels -/

/-- The generation of a commit, `0` when it has no record. -/
def Info.gen (info : Info) (x : ObjectId) : Nat := ((info x).map (·.generation.toNat)).getD 0

/-- Generations grow along the ancestry. -/
def Info.Graded (info : Info) : Prop := ∀ x y, info.Parent x y → info.gen y < info.gen x

/-- `x` comes before `y` in descending order of generation, then id. -/
def Info.Before (info : Info) (x y : ObjectId) : Prop :=
  info.gen y < info.gen x ∨ info.gen y = info.gen x ∧ y < x

/-- The state of a discovery that has visited every generation above `g`, and
is at `level` of generation `g`. -/
structure Discovery.Levelled (info : Info) (haves : List ObjectId) (g : Nat) (level : List ObjectId)
    (s : Select) : Prop where
  frontier : ∀ e ∈ s.discovery.frontier, info.gen e.oid < g
  levelGen : ∀ x ∈ level, info.gen x = g
  doneGen : ∀ x ∈ s.done, g ≤ info.gen x
  notDone : ∀ x ∈ level, x ∉ s.done
  starts : ∀ h ∈ haves, s.discovery.state.get h = some .Have
  haveClosed : ∀ x ∈ s.done, s.discovery.state.get x = some .Have →
    ∀ y, info.Parent x y → s.discovery.state.get y = some .Have
  clean : ∀ x ∈ s.toSend, ¬ info.Below haves x
  sorted : (s.toSend ++ level).Pairwise info.Before

/-- A commit of the current level reached by a have is marked so. -/
theorem Discovery.Levelled.have_of_below {g : Nat} (hgen : info.Graded)
    (h : Discovery.Inv info wants haves level s) (hl : Discovery.Levelled info haves g level s) {x : ObjectId}
    (hx : info.Below haves x) (hg : g ≤ info.gen x) : s.discovery.state.get x = some .Have := by
  obtain ⟨c, hc, ha⟩ := hx
  induction ha with
  | refl => exact hl.starts c hc
  | @tail y z _ hpar ih =>
    have hlt := hgen y z hpar
    have hy := ih (by omega)
    refine hl.haveClosed y ?_ hy z hpar
    by_contra hd
    rcases h.queued y (by simp [hy]) hd with ⟨e, he, rfl⟩ | hy
    · have := hl.frontier e he; omega
    · have := hl.levelGen y hy; omega

theorem Discovery.Levelled.visit {g : Nat} {id : ObjectId} {flag : Flag} {d : Discovery} {r : CommitGraphRecord}
    (hgen : info.Graded) (h : Discovery.Inv info wants haves (id :: level) s)
    (hl : Discovery.Levelled info haves g (id :: level) s) (hf : s.discovery.state.get id = some flag)
    (hr : info id = some r) (hm : Discovery.Marked flag r.parents (s.enter id flag).discovery d) :
    Discovery.Levelled info haves g level { s.enter id flag with discovery := d } := by
  have hid : info.gen id = g := hl.levelGen id (by simp)
  have hpar : ∀ y ∈ r.parents, info.gen y < g := fun y hy => hid ▸ hgen id y ⟨r, hr, hy⟩
  -- nothing visited or still to be visited on this level is marked anew
  have hstable : ∀ x, g ≤ info.gen x → d.state.get x = s.discovery.state.get x := by
    intro x hx
    rw [hm.other x fun hxp => absurd (hpar x hxp) (by omega), enter_state]
  refine ⟨fun e he => ?_, fun x hx => hl.levelGen x (by simp [hx]), fun x hx => ?_, fun x hx => ?_,
    fun x hx => hm.have x (by simpa using hl.starts x hx), fun x hx hxs y hy => ?_, fun x hx => ?_, ?_⟩
  · rcases hm.queued e he with he | he
    · exact hl.frontier e (by simpa using he)
    · exact hpar _ he
  · simp only [enter_done, Finset.mem_insert] at hx
    rcases hx with rfl | hx
    · exact hid.ge
    · exact hl.doneGen x hx
  · simp only [enter_done, Finset.mem_insert, not_or]
    refine ⟨?_, hl.notDone x (by simp [hx])⟩
    rintro rfl
    have hlt := (List.pairwise_cons.1 (List.pairwise_append.1 hl.sorted).2.1).1 x hx
    rcases hlt with hlt | ⟨-, hlt⟩
    · exact lt_irrefl _ hlt
    · exact lt_irrefl _ hlt
  · simp only [enter_done, Finset.mem_insert] at hx
    change d.state.get x = some .Have at hxs
    change d.state.get y = some .Have
    rcases hx with rfl | hx
    · rw [hstable x hid.ge, hf] at hxs
      cases hxs
      obtain ⟨r', hr', hy⟩ := hy
      cases hr.symm.trans hr'
      exact hm.flagged rfl y hy
    · rw [hstable x (hl.doneGen x hx)] at hxs
      exact hm.have y (by simpa using hl.haveClosed x hx hxs y hy)
  · intro hb
    rw [show ({ s.enter id flag with discovery := d } : Select).toSend = (s.enter id flag).toSend from rfl,
      enter_toSend] at hx
    cases flag with
    | Have => exact hl.clean x (by simpa using hx) hb
    | Want =>
      simp only [if_true, List.mem_append, List.mem_singleton] at hx
      rcases hx with hx | rfl
      · exact hl.clean x hx hb
      · have := Discovery.Levelled.have_of_below hgen h hl hb hid.ge
        simp [hf] at this
  · change ((s.enter id flag).toSend ++ level).Pairwise info.Before
    rw [enter_toSend]
    cases flag with
    | Want => simpa using hl.sorted
    | Have =>
      refine hl.sorted.sublist ?_
      simp

/-- A level visited in full. `P` is what each visit keeps besides the
invariant. -/
theorem visitAll_spec {P : List ObjectId → Select → Prop}
    (hP : ∀ {id level s flag d r}, Discovery.Inv info wants haves (id :: level) s → P (id :: level) s →
      s.discovery.state.get id = some flag → info id = some r →
      Discovery.Marked flag r.parents (s.enter id flag).discovery d → P level { s.enter id flag with discovery := d }) :
    ∀ (level : List ObjectId) {s : Select}, Discovery.Inv info wants haves level s → P level s → level.Nodup →
      (∀ x ∈ level, x ∉ s.done) → (∀ x ∈ level, ∀ y, info.Parent x y → (s.records.get y).isSome) →
      ∃ s', visitAll level s = some s' ∧ Discovery.Inv info wants haves [] s' ∧ P [] s' ∧
        s'.discovery.measure ≤ s.discovery.measure
  | [], s, h, hs, _, _, _ => ⟨s, rfl, h, hs, le_rfl⟩
  | id :: level, s, h, hs, hn, hd, hc => by
    rw [List.nodup_cons] at hn
    obtain ⟨flag, d, r, hf, hr, hv, hinv, hm⟩ := visit_spec h (hd id (by simp)) (hc id (by simp))
    have hrest : ∀ x ∈ level, x ∉ ({ s.enter id flag with discovery := d } : Select).done := by
      intro x hx
      simp only [enter_done, Finset.mem_insert, not_or]
      exact ⟨fun he => hn.1 (he ▸ hx), hd x (by simp [hx])⟩
    obtain ⟨s', hs', hinv', hP', hle⟩ := visitAll_spec hP level hinv (hP h hs hf hr hm) hn.2 hrest
      fun x hx y hy => by simpa using hc x (by simp [hx]) y hy
    refine ⟨s', by rw [visitAll, hv]; exact hs', hinv', hP', hle.trans ?_⟩
    simpa [Discovery.measure] using hm.measure

theorem mem_levelOf {done : Finset ObjectId} {x : ObjectId} :
    ∀ {entries : List QueueEntry} {seen : Finset ObjectId},
      x ∈ levelOf done seen entries ↔ (∃ e ∈ entries, e.oid = x) ∧ x ∉ done ∧ x ∉ seen
  | [], seen => by simp [levelOf]
  | e :: entries, seen => by
    simp only [levelOf]
    split_ifs with h
    · rw [List.mem_cons, mem_levelOf]
      by_cases hx : x = e.oid
      · subst hx; simpa using h
      · simp [hx, Ne.symm hx]
    · rw [mem_levelOf]
      constructor
      · rintro ⟨⟨e', he', hx⟩, hn⟩; exact ⟨⟨e', by simp [he'], hx⟩, hn⟩
      · rintro ⟨⟨e', he', rfl⟩, hd, hs⟩
        rcases List.mem_cons.1 he' with rfl | he'
        · exact absurd ⟨hd, hs⟩ h
        · exact ⟨⟨e', he', rfl⟩, hd, hs⟩

theorem levelOf_sublist (done : Finset ObjectId) :
    ∀ (entries : List QueueEntry) (seen : Finset ObjectId),
      (levelOf done seen entries).Sublist (entries.map (·.oid))
  | [], _ => .slnil
  | e :: entries, seen => by
    simp only [levelOf, List.map_cons]
    split_ifs
    · exact (levelOf_sublist done entries _).cons_cons _
    · exact (levelOf_sublist done entries _).cons _

theorem nodup_levelOf (done : Finset ObjectId) :
    ∀ (entries : List QueueEntry) (seen : Finset ObjectId), (levelOf done seen entries).Nodup
  | [], _ => .nil
  | e :: entries, seen => by
    simp only [levelOf]
    split_ifs
    · exact List.nodup_cons.2 ⟨fun h => by simpa using (mem_levelOf.1 h).2.2, nodup_levelOf done entries _⟩
    · exact nodup_levelOf done entries _

theorem QueueEntry.le_def {a b : QueueEntry} :
    a ≤ b ↔ a.generation.toNat < b.generation.toNat ∨ a.generation = b.generation ∧ a.oid ≤ b.oid := by
  change a.ordKey ≤ b.ordKey ↔ _
  rw [ordKey, ordKey, Prod.Lex.toLex_le_toLex, UInt32.toNat_inj]

section Drain

variable {heap : MaxHeap QueueEntry} {top : QueueEntry}

/-- The entries of the greatest generation, and the rest. -/
def drain (heap : MaxHeap QueueEntry) (top : QueueEntry) : List QueueEntry × MaxHeap QueueEntry :=
  heap.popWhile fun entry => entry.generation = top.generation

theorem drain_fst {e : QueueEntry} (he : e ∈ (drain heap top).1) : e.generation = top.generation := by
  simpa using MaxHeap.popWhile_fst he

theorem drain_snd (htop : heap.peek = some top) {e : QueueEntry} (he : e ∈ (drain heap top).2) :
    e.generation.toNat < top.generation.toNat := by
  have hmem : e ∈ heap := MaxHeap.mem_popWhile.2 (.inr he)
  have hle := QueueEntry.le_def.1 (MaxHeap.le_peek htop hmem)
  have hne : ¬ e.generation = top.generation := by
    have hseg : ∀ b c : QueueEntry, decide (b.generation = top.generation) = true → b ≤ c → c ∈ heap →
        decide (c.generation = top.generation) = true := by
      intro b c hb hbc hc
      have hb : b.generation = top.generation := by simpa using hb
      have hct := QueueEntry.le_def.1 (MaxHeap.le_peek htop hc)
      have hbc := QueueEntry.le_def.1 hbc
      simp only [decide_eq_true_eq]
      rcases hct with hct | ⟨hct, -⟩
      · rcases hbc with hbc | ⟨hbc, -⟩
        · rw [hb] at hbc; omega
        · rw [← hbc, hb]
      · exact hct
    have hrest := MaxHeap.popWhile_snd (p := fun c : QueueEntry => decide (c.generation = top.generation)) hseg he
    simpa using hrest
  tauto

/-- The ids of a drained level are in descending order. -/
theorem levelOf_sorted (done : Finset ObjectId) : (levelOf done ∅ (drain heap top).1).Pairwise (· > ·) := by
  have hge : ((drain heap top).1.map (·.oid)).Pairwise (· ≥ ·) := by
    rw [List.pairwise_map]
    refine (heap.sorted_popWhile_fst _).imp_of_mem fun {a b} ha hb hab => ?_
    have hle := QueueEntry.le_def.1 (show b ≤ a from hab)
    have heq : b.generation = a.generation := (drain_fst hb).trans (drain_fst ha).symm
    rcases hle with hlt | ⟨-, hle⟩
    · rw [heq] at hlt; exact absurd hlt (lt_irrefl _)
    · exact hle
  have hle := hge.sublist (levelOf_sublist done (drain heap top).1 ∅)
  exact (hle.and (nodup_levelOf done (drain heap top).1 ∅)).imp fun h => lt_of_le_of_ne h.1 h.2.symm

end Drain

/-- A level drained, and more records cached. -/
def Walker.Select.drained (s : Select) (records : SortedMap ObjectId CommitGraphRecord) (top : QueueEntry) : Select :=
  { s with discovery := { s.discovery with frontier := (drain s.discovery.frontier top).2 }, records }

section Level

variable {records : SortedMap ObjectId CommitGraphRecord} {top : QueueEntry}

theorem Discovery.Inv.drain (h : Discovery.Inv info wants haves [] s) (top : QueueEntry)
    (hcached : ∀ x r, records.get x = some r → info x = some r)
    (hmore : ∀ x, (s.records.get x).isSome → (records.get x).isSome) :
    Discovery.Inv info wants haves (levelOf s.done ∅ (drain s.discovery.frontier top).1) (s.drained records top) where
  cached := hcached
  markedCached x hx := hmore x (h.markedCached x hx)
  frontier e he := h.frontier e (MaxHeap.mem_popWhile.2 (.inr he))
  drained x hx := by
    obtain ⟨⟨e, he, rfl⟩, -⟩ := mem_levelOf.1 hx
    exact (h.frontier e (MaxHeap.mem_popWhile.2 (.inl he))).1
  queued x hx hd := by
    rcases h.queued x hx hd with ⟨e, he, rfl⟩ | hx
    · rcases MaxHeap.mem_popWhile.1 he with he | he
      · exact .inr (mem_levelOf.2 ⟨⟨e, he, rfl⟩, hd, by simp⟩)
      · exact .inl ⟨e, he, rfl⟩
    · simp at hx
  pending := h.pending
  doneMarked := h.doneMarked
  want := h.want
  «have» := h.have
  sent := h.sent
  nodup := h.nodup
  doneSent := h.doneSent

theorem Discovery.Inv.gen_eq (h : Discovery.Inv info wants haves level s) {e : QueueEntry}
    (he : e ∈ s.discovery.frontier) : info.gen e.oid = e.generation.toNat := by
  obtain ⟨r, hr, hg⟩ := (h.frontier e he).2
  simp [Info.gen, hr, hg]

theorem Discovery.Levelled.drain {g : Nat} (h : Discovery.Inv info wants haves [] s)
    (hl : Discovery.Levelled info haves g [] s) (htop : s.discovery.frontier.peek = some top) :
    Discovery.Levelled info haves top.generation.toNat (levelOf s.done ∅ (drain s.discovery.frontier top).1)
      (s.drained records top) := by
  have hmem : top ∈ s.discovery.frontier := by
    cases hl : s.discovery.frontier.entries with
    | nil => simp [MaxHeap.peek, hl] at htop
    | cons e l => simp [MaxHeap.peek, hl] at htop; simp [MaxHeap.mem_iff, hl, htop]
  have htopg : top.generation.toNat < g := h.gen_eq hmem ▸ hl.frontier top hmem
  have hgen : ∀ x ∈ levelOf s.done ∅ (Miscreant.drain s.discovery.frontier top).1,
      info.gen x = top.generation.toNat := by
    intro x hx
    obtain ⟨⟨e, he, rfl⟩, -⟩ := mem_levelOf.1 hx
    rw [h.gen_eq (MaxHeap.mem_popWhile.2 (.inl he)), drain_fst he]
  have hdone : ∀ x ∈ s.done, top.generation.toNat < info.gen x := fun x hx => htopg.trans_le (hl.doneGen x hx)
  refine ⟨fun e he => ?_, hgen, fun x hx => (hdone x hx).le, fun x hx => (mem_levelOf.1 hx).2.1, hl.starts,
    hl.haveClosed, hl.clean, ?_⟩
  · rw [h.gen_eq (MaxHeap.mem_popWhile.2 (.inr he))]
    exact drain_snd htop he
  · refine List.pairwise_append.2 ⟨(List.pairwise_append.1 hl.sorted).1, ?_, fun x hx y hy => ?_⟩
    · exact (levelOf_sorted s.done).imp_of_mem fun hx hy hlt => .inr ⟨by rw [hgen _ hx, hgen _ hy], hlt⟩
    · exact .inl (hgen y hy ▸ hdone x (h.sent x hx).1)

end Level

/-! ## The loop -/

/-- What holds at every turn of the main loop. -/
structure Discovery.Turn (info : Info) (wants haves : List ObjectId) (s : Select) : Prop where
  inv : Discovery.Inv info wants haves [] s
  covered : Discovery.Covered info wants s
  levelled : info.Graded → ∃ g, Discovery.Levelled info haves g [] s

/-- A turn of the main loop on a level, once the parents' records are cached. -/
theorem Discovery.Turn.visitAll {records : SortedMap ObjectId CommitGraphRecord} {top : QueueEntry}
    (h : Discovery.Turn info wants haves s) (htop : s.discovery.frontier.peek = some top)
    (hcached : ∀ x r, records.get x = some r → info x = some r)
    (hmore : ∀ x, (s.records.get x).isSome → (records.get x).isSome)
    (hparents : ∀ x ∈ levelOf s.done ∅ (drain s.discovery.frontier top).1, ∀ y, info.Parent x y →
      (records.get y).isSome) :
    ∃ s', visitAll (levelOf s.done ∅ (drain s.discovery.frontier top).1) (s.drained records top) = some s' ∧
      Discovery.Turn info wants haves s' ∧ s'.discovery.measure < s.discovery.measure := by
  obtain ⟨s', hs', hinv, ⟨hcov, hlev⟩, hle⟩ := visitAll_spec
    (P := fun level s => Discovery.Covered info wants s ∧
      (info.Graded → Discovery.Levelled info haves top.generation.toNat level s))
    (fun hi hP hf hr hm => ⟨hP.1.visit hr hm, fun hg => (hP.2 hg).visit hg hi hf hr hm⟩)
    _ (h.inv.drain top hcached hmore)
    ⟨⟨h.covered.starts, h.covered.parents⟩, fun hg => (h.levelled hg).elim fun _ hl => hl.drain h.inv htop⟩
    (nodup_levelOf _ _ _) (fun x hx => (mem_levelOf.1 hx).2.1) hparents
  refine ⟨s', hs', ⟨hinv, hcov, fun hg => ⟨_, hlev hg⟩⟩, hle.trans_lt ?_⟩
  have hlen := MaxHeap.length_popWhile_lt (p := fun e : QueueEntry => decide (e.generation = top.generation)) htop
    (by simp)
  simp only [Discovery.measure, Select.drained, drain]
  omega

/-- One turn of the main loop: a level drained and visited, with the parents'
records cached. -/
def Discovery.Turned (info : Info) (s s' : Select) : Prop :=
  s.discovery.pending ≠ ∅ ∧ ∃ records top, s.discovery.frontier.peek = some top ∧
    (∀ x r, records.get x = some r → info x = some r) ∧ (∀ x, (s.records.get x).isSome → (records.get x).isSome) ∧
    (∀ x ∈ levelOf s.done ∅ (drain s.discovery.frontier top).1, ∀ y, info.Parent x y → (records.get y).isSome) ∧
    visitAll (levelOf s.done ∅ (drain s.discovery.frontier top).1) (s.drained records top) = some s'

theorem Discovery.Turned.turn {s' : Select} (ht : Discovery.Turned info s s') (h : Discovery.Turn info wants haves s) :
    Discovery.Turn info wants haves s' ∧ s'.discovery.measure < s.discovery.measure := by
  obtain ⟨_, records, top, htop, hcached, hmore, hparents, hvisit⟩ := ht
  obtain ⟨s₁, hs₁, hturn, hlt⟩ := h.visitAll htop hcached hmore hparents
  cases hvisit.symm.trans hs₁
  exact ⟨hturn, hlt⟩

/-! ## The start -/

theorem Discovery.Inv.start {records : SortedMap ObjectId CommitGraphRecord}
    (hc : ∀ x r, records.get x = some r → info x = some r) :
    Discovery.Inv info wants haves [] { discovery := .default, records, toSend := [], done := ∅ } := by
  refine ⟨hc, ?_, ?_, ?_, ?_, ?_, ?_, ?_, ?_, ?_, .nil, ?_⟩ <;> simp [Discovery.default]

theorem Discovery.Inv.moreRecords {records : SortedMap ObjectId CommitGraphRecord}
    (h : Discovery.Inv info wants haves level s) (hc : ∀ x r, records.get x = some r → info x = some r)
    (hmore : ∀ x, (s.records.get x).isSome → (records.get x).isSome) :
    Discovery.Inv info wants haves level { s with records } :=
  { h with
    cached := hc
    markedCached := fun x hx => hmore x (h.markedCached x hx) }

section Run

variable {E : Env} {db : E.Db}

/-- The cache after prefetching `ids`. -/
def Env.prefetched (E : Env) (db : E.Db) (cache : SortedMap ObjectId CommitGraphRecord) (ids : List ObjectId) :
    SortedMap ObjectId CommitGraphRecord :=
  cacheFetched cache ((misses cache ∅ ids).map fun id => (id, E.fetchedAt db id))

theorem get_prefetched (cache : SortedMap ObjectId CommitGraphRecord) (ids : List ObjectId) (x : ObjectId) :
    (E.prefetched db cache ids).get x =
      if x ∈ ids then (cache.get x).or (E.infoAt db x) else cache.get x := by
  rw [Env.prefetched, get_cacheFetched, toOption_fetchedAt]
  cases hc : cache.get x with
  | some r => simp [mem_misses, hc]
  | none => simp [mem_misses, hc]

theorem prefetched_cached {cache : SortedMap ObjectId CommitGraphRecord}
    (hc : ∀ x r, cache.get x = some r → E.infoAt db x = some r) (ids : List ObjectId) (x : ObjectId)
    (r : CommitGraphRecord) (hr : (E.prefetched db cache ids).get x = some r) : E.infoAt db x = some r := by
  rw [get_prefetched] at hr
  split_ifs at hr
  · cases hx : cache.get x with
    | some r' => rw [hx] at hr; cases hr; exact hc x r hx
    | none => simpa [hx] using hr
  · exact hc x r hr

theorem prefetched_more {cache : SortedMap ObjectId CommitGraphRecord} (ids : List ObjectId) (x : ObjectId)
    (hx : (cache.get x).isSome) : ((E.prefetched db cache ids).get x).isSome := by
  rw [get_prefetched]
  split_ifs <;> simp [hx]

theorem prefetched_mem (cache : SortedMap ObjectId CommitGraphRecord) {ids : List ObjectId} {x : ObjectId}
    (hx : x ∈ ids) (hi : (E.infoAt db x).isSome) : ((E.prefetched db cache ids).get x).isSome := by
  rw [get_prefetched, if_pos hx]
  simp [hi]

theorem fetchedAt_ok {x : ObjectId} {r : CommitGraphRecord} (hr : E.infoAt db x = some r) :
    E.fetchedAt db x = .ok r := by
  simp [Env.fetchedAt, hr]

/-- Fetching the records of commits: none fails. -/
theorem run_unwrap (db : E.Db) (ids : List ObjectId) (hids : ∀ x ∈ ids, (E.infoAt db x).isSome) :
    ∃ rs, (Prog.forEach (fun ((_, record) : ObjectId × Except WalkError CommitGraphRecord) =>
      (Prog.ofExcept record : E.Prog WalkError _)) (ids.map fun id => (id, E.fetchedAt db id))).run Db.handler db =
        some (.ok rs, db) := by
  refine Prog.exists_run_forEach fun p hp => ?_
  obtain ⟨x, hx, rfl⟩ := List.mem_map.1 hp
  obtain ⟨r, hr⟩ := Option.isSome_iff_exists.1 (hids x hx)
  exact ⟨r, by rw [fetchedAt_ok hr, Prog.run_ofExcept]⟩

/-- The haves that name commits are marked and reported; the others are
dropped. -/
theorem markHaves_spec (wants haves : List ObjectId) :
    ∀ (ids : List ObjectId) {s : Select} (common : List ObjectId),
      Discovery.Inv (E.infoAt db) wants haves [] s →
      (∀ x ∈ ids, (E.infoAt db x).isSome → (s.records.get x).isSome ∧ x ∈ haves) →
      ∃ d, markHaves (ids.map fun id => (id, E.fetchedAt db id)) s.discovery common =
          .ok (d, common ++ ids.filter fun id => (E.infoAt db id).isSome) ∧
        Discovery.Inv (E.infoAt db) wants haves [] { s with discovery := d } ∧
        Discovery.Marked .Have (ids.filter fun id => (E.infoAt db id).isSome) s.discovery d
  | [], s, common, h, _ => ⟨s.discovery, by simp [markHaves], h, .refl _ _⟩
  | x :: ids, s, common, h, hids => by
    have htail : ∀ y ∈ ids, (E.infoAt db y).isSome → (s.records.get y).isSome ∧ y ∈ haves :=
      fun y hy => hids y (by simp [hy])
    cases hi : E.infoAt db x with
    | some r =>
      obtain ⟨hcached, hmem⟩ := hids x (by simp) (by simp [hi])
      obtain ⟨r', hr'⟩ := Option.isSome_iff_exists.1 hcached
      cases hi.symm.trans (h.cached x r' hr')
      have hmark := h.mark .Have hr' (fun hf => by cases hf) (fun _ => .self hmem)
      obtain ⟨d, hd, hinv, hm⟩ := markHaves_spec wants haves ids (common ++ [x]) hmark htail
      have hone := Discovery.Marked.of_mark s.discovery x .Have r.generation fun hp => ((h.pending x).1 hp).1
      refine ⟨d, ?_, hinv, ?_⟩
      · simpa [fetchedAt_ok hi, markHaves, hi] using hd
      · simpa [hi] using hone.trans hm
    | none =>
      obtain ⟨d, hd, hinv, hm⟩ := markHaves_spec wants haves ids common h htail
      refine ⟨d, ?_, hinv, by simpa [hi] using hm⟩
      cases ho : E.objectAt db x with
      | none => simpa [Env.fetchedAt, hi, ho, markHaves] using hd
      | some kb => simpa [Env.fetchedAt, hi, ho, markHaves] using hd

theorem markWants_spec {wants haves : List ObjectId} :
    ∀ (ids : List ObjectId) {s : Select}, Discovery.Inv (E.infoAt db) wants haves [] s →
      (∀ x ∈ ids, (s.records.get x).isSome ∧ x ∈ wants) →
      ∃ d, markWants (ids.map fun id => (id, E.fetchedAt db id)) s.discovery = .ok d ∧
        Discovery.Inv (E.infoAt db) wants haves [] { s with discovery := d } ∧
        Discovery.Marked .Want ids s.discovery d
  | [], s, h, _ => ⟨s.discovery, rfl, h, .refl _ _⟩
  | x :: ids, s, h, hids => by
    obtain ⟨hcached, hmem⟩ := hids x (by simp)
    obtain ⟨r, hr⟩ := Option.isSome_iff_exists.1 hcached
    have hmark := h.mark .Want hr (fun _ => .self hmem) (fun hf => by cases hf)
    obtain ⟨d, hd, hinv, hm⟩ := markWants_spec ids hmark fun y hy => hids y (by simp [hy])
    have hone := Discovery.Marked.of_mark s.discovery x .Want r.generation fun hp => ((h.pending x).1 hp).1
    exact ⟨d, by simpa [fetchedAt_ok (h.cached x r hr), markWants] using hd, hinv, hone.trans hm⟩

/-- Peeling a want that ends in a commit. -/
theorem run_peelLoop (hdb : Intact E db) {want oid : ObjectId} {chain : TagChain} (h : E.Peels db oid chain)
    (hc : (E.commitAt db chain.target).isSome) :
    ∀ (fuel : Nat) (tags : List ObjectId), chain.tags.length < fuel →
      (Prog.loop (peelStep E want) fuel (oid, tags)).run Db.handler db =
        some (.ok (chain.target, tags ++ chain.tags), db) := by
  induction h with
  | target h hk =>
    intro fuel tags hfuel
    obtain ⟨fuel, rfl⟩ : ∃ m, fuel = m + 1 := ⟨fuel - 1, by omega⟩
    obtain ⟨commit, hc⟩ := Option.isSome_iff_exists.1 hc
    obtain ⟨body', ho, -⟩ := commitAt_eq_some.1 hc
    simp only [Prog.run_loop_succ, peelStep, Prog.bind_assoc]
    rw [Prog.run_bind_ok (run_get_mapErr _ hdb _)]
    simp [ho]
  | @tag oid body tag chain h ht _ ih =>
    intro fuel tags hfuel
    obtain ⟨fuel, rfl⟩ : ∃ m, fuel = m + 1 := ⟨fuel - 1, by omega⟩
    simp only [Prog.run_loop_succ, peelStep, Prog.bind_assoc]
    rw [Prog.run_bind_ok (run_get_mapErr _ hdb _)]
    simp only [h, ht, Prog.pure_eq, Prog.ret_bind]
    rw [ih hc fuel (tags ++ [oid]) (by simp only [List.length_cons] at hfuel; omega)]
    simp

variable (hdb : Indexed E db)

include hdb

theorem Indexed.parent_iff {x y : ObjectId} : (E.infoAt db).Parent x y ↔ E.Parent db x y := by
  constructor
  · rintro ⟨r, hr, hy⟩
    obtain ⟨commit, hc, -, hp⟩ := hdb.commit_of_infoAt hr
    exact ⟨commit, hc, hp ▸ hy⟩
  · rintro ⟨commit, hc, hy⟩
    obtain ⟨r, hr, -, hp⟩ := hdb.infoAt_of_commit hc
    exact ⟨r, hr, hp ▸ hy⟩

theorem Indexed.closed : (E.infoAt db).Closed := fun x y hxy =>
  hdb.infoAt_isSome.2 (hdb.parents x y (hdb.parent_iff.1 hxy))

theorem Indexed.ancestor_iff {a c : ObjectId} : (E.infoAt db).Ancestor a c ↔ E.Ancestor db a c := by
  have heq : (E.infoAt db).Parent = E.Parent db := by
    funext x y
    exact propext hdb.parent_iff
  rw [Info.Ancestor, Env.Ancestor, heq]

theorem run_selectTurn {fuel : Nat} (hfuel : 0 < fuel) {wants haves : List ObjectId} {s : Select}
    (h : Discovery.Turn (E.infoAt db) wants haves s) (hp : s.discovery.pending ≠ ∅) :
    ∃ s', (selectStep E fuel s).run Db.handler db = some (.ok (.inl s'), db) ∧
      Discovery.Turned (E.infoAt db) s s' := by
  obtain ⟨x, hx⟩ := Finset.nonempty_of_ne_empty hp
  obtain ⟨hw, hd⟩ := (h.inv.pending x).1 hx
  obtain ⟨e, he, -⟩ : ∃ e ∈ s.discovery.frontier, e.oid = x := by
    simpa using h.inv.queued x (by simp [hw]) hd
  obtain ⟨top, htop⟩ : ∃ top, s.discovery.frontier.peek = some top := by
    cases hl : s.discovery.frontier.entries with
    | nil => simp [MaxHeap.mem_iff, hl] at he
    | cons t l => exact ⟨t, by simp [MaxHeap.peek, hl]⟩
  set level := levelOf s.done ∅ (drain s.discovery.frontier top).1 with hlevel
  have hlevelInfo : ∀ x ∈ level, ∃ r, s.records.get x = some r := fun x hx =>
    Option.isSome_iff_exists.1 (h.inv.markedCached x ((h.inv.drain top h.inv.cached fun _ h => h).drained x hx))
  have hparents : ∀ y ∈ level.flatMap (cachedParents s.records), (E.infoAt db y).isSome := by
    intro y hy
    obtain ⟨x, hx, hy⟩ := List.mem_flatMap.1 hy
    obtain ⟨r, hr⟩ := hlevelInfo x hx
    rw [cachedParents_of hr] at hy
    exact hdb.closed x y ⟨r, h.inv.cached x r hr, hy⟩
  have hcached := prefetched_cached h.inv.cached (level.flatMap (cachedParents s.records))
  have hmore := @prefetched_more E db s.records (level.flatMap (cachedParents s.records))
  have hfetched : ∀ x ∈ level, ∀ y, (E.infoAt db).Parent x y →
      ((E.prefetched db s.records (level.flatMap (cachedParents s.records))).get y).isSome := by
    rintro x hx y ⟨r, hr, hy⟩
    obtain ⟨r', hr'⟩ := hlevelInfo x hx
    cases hr.symm.trans (h.inv.cached x r' hr')
    have hmem : y ∈ level.flatMap (cachedParents s.records) :=
      List.mem_flatMap.2 ⟨x, hx, by rw [cachedParents_of hr']; exact hy⟩
    exact prefetched_mem _ hmem (hparents y hmem)
  obtain ⟨s', hs', -, -⟩ := h.visitAll htop hcached hmore hfetched
  refine ⟨s', ?_, hp, _, top, htop, hcached, hmore, hfetched, hs'⟩
  obtain ⟨rs, hrs⟩ := run_unwrap db (misses s.records ∅ (level.flatMap (cachedParents s.records)))
    fun y hy => hparents y (mem_misses.1 hy).1
  simp only [selectStep, hp, if_false, htop]
  have hvisit : (Prog.ofOption (visitAll level (s.drained (E.prefetched db s.records
      (level.flatMap (cachedParents s.records))) top)) : E.Prog WalkError _).run Db.handler db =
        some (.ok s', db) := by
    rw [hs', Prog.run_ofOption_some]
  refine (Prog.run_bind_ok (hdb.run_prefetchRecords hfuel _ _)).trans ?_
  refine (Prog.run_bind_ok hrs).trans ?_
  exact Prog.run_bind_ok hvisit

/-- The commits of `ids`, each once. -/
def Env.commitsOf (E : Env) (db : E.Db) (ids : List ObjectId) : List ObjectId :=
  (ids.filter fun id => (E.commitAt db id).isSome).eraseDups

theorem Indexed.commitsOf_eq (ids : List ObjectId) :
    E.commitsOf db ids = (misses .empty ∅ ids).filter fun id => (E.infoAt db id).isSome := by
  have hsome : ∀ id, (E.infoAt db id).isSome = (E.commitAt db id).isSome := fun id =>
    Bool.eq_iff_iff.2 hdb.infoAt_isSome
  rw [misses_eq, Env.commitsOf, eraseDups_filter]
  simp [hsome]

omit hdb in
theorem mem_commitsOf {ids : List ObjectId} {x : ObjectId} :
    x ∈ E.commitsOf db ids ↔ x ∈ ids ∧ (E.commitAt db x).isSome := by
  simp [Env.commitsOf]

omit hdb in
theorem run_peelWants (hi : Intact E db) {fuel : Nat} {wants : List ObjectId} {chains : List TagChain}
    (hw : List.Forall₂ (E.PeelsToCommit db) wants chains) (hfuel : ∀ c ∈ chains, c.tags.length < fuel) :
    (peelWants E fuel wants).run Db.handler db =
      some (.ok (chains.map (·.target), (chains.flatMap (·.tags)).eraseDups), db) := by
  have hpeel : (Prog.forEach (fun want => (peelWant E fuel want).attempt) wants : E.Prog WalkError _).run
      Db.handler db = some (.ok (chains.map fun c => .ok (c.target, c.tags)), db) := by
    refine Prog.run_forEach₂ (List.forall₂_map_right_iff.2 ?_)
    induction hw with
    | nil => exact .nil
    | @cons want chain wants chains h _ ih =>
      refine .cons ?_ (ih fun c hc => hfuel c (by simp [hc]))
      rw [Prog.run_attempt, peelWant, run_peelLoop hi h.1 h.2 fuel [] (hfuel chain (by simp))]
      rfl
  have hunwrap : (Prog.forEach Prog.ofExcept (chains.map fun c => .ok (c.target, c.tags)) :
      E.Prog WalkError _).run Db.handler db = some (.ok (chains.map fun c => (c.target, c.tags)), db) := by
    refine Prog.run_forEach₂ (List.forall₂_map_left_iff.2 (List.forall₂_map_right_iff.2 ?_))
    exact List.forall₂_same.2 fun c _ => by rw [Prog.run_ofExcept]
  rw [peelWants, Prog.run_bind_ok hpeel, Prog.run_bind_ok hunwrap, Prog.pure_eq, Prog.run_ret]
  simp [OrderedOidSet.intoVec, OrderedOidSet.order_foldl_insert, OrderedOidSet.default, List.flatMap_map,
    Function.comp_def]

/-- The main loop from a start state, with what every turn keeps besides. -/
theorem run_selectLoop_of {fuel : Nat} {wants haves : List ObjectId} {P : Select → Prop}
    (hP : ∀ s s', Discovery.Turn (E.infoAt db) wants haves s → P s → Discovery.Turned (E.infoAt db) s s' → P s')
    {s : Select} (h : Discovery.Turn (E.infoAt db) wants haves s) (hs : P s) (hfuel : s.discovery.measure < fuel) :
    ∃ s', (Prog.loop (selectStep E fuel) fuel s).run Db.handler db = some (.ok s', db) ∧
      (Discovery.Turn (E.infoAt db) wants haves s' ∧ P s') ∧ s'.discovery.pending = ∅ := by
  have hpos : 0 < fuel := by omega
  refine @Prog.loop_reads _ _ _ _ _ _ (selectStep E fuel) (fun s => Discovery.Turn (E.infoAt db) wants haves s ∧ P s)
    _ _ (fun s => s.discovery.measure) (fun s hs => ?_) _ _ ⟨h, hs⟩ hfuel
  by_cases hp : s.discovery.pending = ∅
  · exact ⟨.inr s, by simp [selectStep, hp], hs, hp⟩
  · obtain ⟨s', hs', hturned⟩ := run_selectTurn hdb hpos hs.1 hp
    obtain ⟨hturn, hlt⟩ := hturned.turn hs.1
    exact ⟨.inl s', hs', ⟨hturn, hP s s' hs.1 hs.2 hturned⟩, hlt⟩

omit hdb in
theorem commit_of_chain {wants : List ObjectId} {chains : List TagChain}
    (hw : List.Forall₂ (E.PeelsToCommit db) wants chains) : ∀ c ∈ chains, (E.commitAt db c.target).isSome := by
  induction hw with
  | nil => simp
  | cons h _ ih =>
    intro c hc
    rcases List.mem_cons.1 hc with rfl | hc
    · exact h.2
    · exact ih c hc

/-- Discovery ends, and its answer is what the state it ends in holds: that of
the last turn, and what a start has and every turn keeps besides. -/
theorem Indexed.run_selectCommits_of (haves : List ObjectId) {wants : List ObjectId} {chains : List TagChain}
    (hw : List.Forall₂ (E.PeelsToCommit db) wants chains) {P : Select → Prop}
    (hstart : ∀ s, Discovery.Turn (E.infoAt db) (chains.map (·.target)) (E.commitsOf db haves) s → s.done = ∅ → P s)
    (hP : ∀ s s', Discovery.Turn (E.infoAt db) (chains.map (·.target)) (E.commitsOf db haves) s → P s →
      Discovery.Turned (E.infoAt db) s s' → P s') :
    ∃ N, ∀ fuel ≥ N, ∃ s : Select,
      (selectCommits E fuel wants haves).run Db.handler db = some (.ok
        { toSend := s.toSend ++ (chains.flatMap (·.tags)).eraseDups
          common := E.commitsOf db haves
          boundedByHaves := s.discovery.frontier.peek.isSome }, db) ∧
      (Discovery.Turn (E.infoAt db) (chains.map (·.target)) (E.commitsOf db haves) s ∧ P s) ∧
      s.discovery.pending = ∅ := by
  have htarget : ∀ w ∈ chains.map (·.target), (E.infoAt db w).isSome := by
    intro w hw'
    obtain ⟨c, hc, rfl⟩ := List.mem_map.1 hw'
    exact hdb.infoAt_isSome.2 (commit_of_chain hw c hc)
  -- the haves
  have hempty : ∀ x r, (SortedMap.empty : SortedMap ObjectId CommitGraphRecord).get x = some r →
      E.infoAt db x = some r := by simp
  obtain ⟨d₁, hd₁, hinv₁, hm₁⟩ := markHaves_spec (E := E) (chains.map (·.target))
    (E.commitsOf db haves) (misses .empty ∅ haves) []
    (Discovery.Inv.start (prefetched_cached hempty haves)) (by
      intro x hx hi
      have hx := (mem_misses.1 hx).1
      exact ⟨prefetched_mem _ hx hi, mem_commitsOf.2 ⟨hx, hdb.infoAt_isSome.1 hi⟩⟩)
  rw [← hdb.commitsOf_eq] at hd₁ hm₁
  -- the wants
  have hinv₂ := hinv₁.moreRecords (prefetched_cached hinv₁.cached (chains.map (·.target)))
    (prefetched_more (chains.map (·.target)))
  obtain ⟨d₂, hd₂, hinv₃, hm₂⟩ := markWants_spec (E := E)
    (misses (E.prefetched db .empty haves) ∅ (chains.map (·.target))) hinv₂ (by
      intro x hx
      have hx := (mem_misses.1 hx).1
      exact ⟨prefetched_mem _ hx (htarget x hx), hx⟩)
  have hstarts : ∀ h ∈ E.commitsOf db haves, d₂.state.get h = some .Have := fun h hh =>
    hm₂.have h (hm₁.flagged rfl h hh)
  have hturn : Discovery.Turn (E.infoAt db) (chains.map (·.target)) (E.commitsOf db haves)
      { discovery := d₂
        records := E.prefetched db (E.prefetched db .empty haves) (chains.map (·.target))
        toSend := []
        done := ∅ } := by
    refine ⟨hinv₃, ⟨fun w hw' => ?_, by simp⟩, fun _ => ⟨2 ^ 32, ?_⟩⟩
    · by_cases hmiss : (E.prefetched db .empty haves).get w = none
      · exact hm₂.marked w (.inr (mem_misses.2 ⟨hw', hmiss, by simp⟩))
      · have hw'' : w ∈ haves := by
          by_contra hw''
          simp [get_prefetched, hw''] at hmiss
        simp [hstarts w (mem_commitsOf.2 ⟨hw'', hdb.infoAt_isSome.1 (htarget w hw')⟩)]
    · refine ⟨fun e he => ?_, by simp, by simp, by simp, hstarts, by simp, by simp, by simp⟩
      rw [hinv₃.gen_eq he]
      exact e.generation.toNat_lt
  refine ⟨max (d₂.measure + 1) ((chains.map (·.tags.length)).sum + 1), fun fuel hfuel => ?_⟩
  have hfuel₁ : d₂.measure < fuel := by omega
  have hfuel₂ : ∀ c ∈ chains, c.tags.length < fuel := by
    intro c hc
    have := List.single_le_sum (fun n _ => Nat.zero_le n) c.tags.length
      (List.mem_map.2 ⟨c, hc, rfl⟩ : c.tags.length ∈ chains.map (·.tags.length))
    omega
  obtain ⟨s, hs, hturn', hp⟩ := run_selectLoop_of hdb hP hturn (hstart _ hturn rfl) hfuel₁
  refine ⟨s, ?_, hturn', hp⟩
  have hpos : 0 < fuel := by omega
  have hhaves : (Prog.ofExcept (markHaves ((misses .empty ∅ haves).map fun id => (id, E.fetchedAt db id))
      .default []) : E.Prog WalkError _).run Db.handler db = some (.ok (d₁, E.commitsOf db haves), db) := by
    rw [hd₁, Prog.run_ofExcept, List.nil_append]
  have hwants : (Prog.ofExcept (markWants ((misses (E.prefetched db .empty haves) ∅
      (chains.map (·.target))).map fun id => (id, E.fetchedAt db id)) d₁) : E.Prog WalkError _).run Db.handler db =
        some (.ok d₂, db) := by
    rw [hd₂, Prog.run_ofExcept]
  refine (Prog.run_bind_ok (hdb.run_prefetchRecords hpos _ _)).trans ?_
  refine (Prog.run_bind_ok hhaves).trans ?_
  refine (Prog.run_bind_ok (run_peelWants hdb.toIntact hw hfuel₂)).trans ?_
  refine (Prog.run_bind_ok (hdb.run_prefetchRecords hpos _ _)).trans ?_
  refine (Prog.run_bind_ok hwants).trans ?_
  exact Prog.run_bind_ok hs

/-- Discovery ends, and its answer is what the state it ends in holds. -/
theorem Indexed.run_selectCommits (haves : List ObjectId) {wants : List ObjectId} {chains : List TagChain}
    (hw : List.Forall₂ (E.PeelsToCommit db) wants chains) :
    ∃ N, ∀ fuel ≥ N, ∃ s : Select,
      (selectCommits E fuel wants haves).run Db.handler db = some (.ok
        { toSend := s.toSend ++ (chains.flatMap (·.tags)).eraseDups
          common := E.commitsOf db haves
          boundedByHaves := s.discovery.frontier.peek.isSome }, db) ∧
      Discovery.Turn (E.infoAt db) (chains.map (·.target)) (E.commitsOf db haves) s ∧
      s.discovery.pending = ∅ := by
  obtain ⟨N, hN⟩ := @Indexed.run_selectCommits_of E db hdb haves wants chains hw (fun _ => True) (fun _ _ _ => trivial) fun _ _ _ _ _ => trivial
  refine ⟨N, fun fuel hfuel => ?_⟩
  obtain ⟨s, hs, hturn, hp⟩ := hN fuel hfuel
  exact ⟨s, hs, hturn.1, hp⟩

omit hdb in
theorem graded_of_generations (hgen : Generations E db) : (E.infoAt db).Graded := by
  rintro x y ⟨r, hr, hy⟩
  have hx := hgen x r hr
  have hle : (E.infoAt db).gen y ≤
      (r.parents.map fun p => ((E.infoAt db p).map (·.generation.toNat)).getD 0).foldr max 0 :=
    List.le_max_of_le (List.mem_map.2 ⟨y, hy, rfl⟩) le_rfl
  have hgx : (E.infoAt db).gen x = r.generation.toNat := by simp [Info.gen, hr]
  omega

theorem Indexed.below_commitsOf {haves : List ObjectId} {x : ObjectId} :
    (E.infoAt db).Below (E.commitsOf db haves) x ↔
      ∃ h ∈ haves, (E.commitAt db h).isSome ∧ E.Ancestor db x h := by
  constructor
  · rintro ⟨h, hh, ha⟩
    obtain ⟨hh, hc⟩ := mem_commitsOf.1 hh
    exact ⟨h, hh, hc, hdb.ancestor_iff.1 ha⟩
  · rintro ⟨h, hh, hc, ha⟩
    exact ⟨h, mem_commitsOf.2 ⟨hh, hc⟩, hdb.ancestor_iff.2 ha⟩

theorem Indexed.below_targets {chains : List TagChain} {x : ObjectId} :
    (E.infoAt db).Below (chains.map (·.target)) x ↔ ∃ chain ∈ chains, E.Ancestor db x chain.target := by
  constructor
  · rintro ⟨w, hw, ha⟩
    obtain ⟨chain, hc, rfl⟩ := List.mem_map.1 hw
    exact ⟨chain, hc, hdb.ancestor_iff.1 ha⟩
  · rintro ⟨chain, hc, ha⟩
    exact ⟨chain.target, List.mem_map.2 ⟨chain, hc, rfl⟩, hdb.ancestor_iff.2 ha⟩

end Run

/-- With graded generations, what has been sent once nothing is pending is
what the wants reach and no have does. -/
theorem Discovery.Turn.mem_toSend (h : Discovery.Turn info wants haves s) (hgen : info.Graded)
    (hp : s.discovery.pending = ∅) {c : ObjectId} :
    c ∈ s.toSend ↔ info.Below wants c ∧ ¬ info.Below haves c := by
  obtain ⟨g, hl⟩ := h.levelled hgen
  constructor
  · intro hc
    exact ⟨(h.inv.sent c hc).2, hl.clean c hc⟩
  · rintro ⟨hwant, hnot⟩
    exact (h.inv.complete h.covered hp hwant).resolve_right hnot

/-- `select_commits` is exact: the commits the wants reach and no have
reaches, in strictly descending order of generation and id, then the tags of
the wants' chains; and the haves that name commits. -/
theorem selectCommits_exact {E : Env} {db : E.Db} (hdb : Indexed E db) (hgen : Generations E db)
    {wants : List ObjectId} {chains : List TagChain} (hw : List.Forall₂ (E.PeelsToCommit db) wants chains)
    (haves : List ObjectId) :
    ∃ N, ∀ fuel ≥ N, ∃ commits boundedByHaves,
      E.run (selectCommits E fuel wants haves) db = some (.ok
        { toSend := commits ++ (chains.flatMap (·.tags)).eraseDups
          common := (haves.filter fun h => (E.commitAt db h).isSome).eraseDups
          boundedByHaves }, db) ∧
      (∀ c, c ∈ commits ↔ (∃ chain ∈ chains, E.Ancestor db c chain.target) ∧
        ¬ ∃ h ∈ haves, (E.commitAt db h).isSome ∧ E.Ancestor db c h) ∧
      commits.Nodup ∧ commits.Pairwise (E.infoAt db).Before := by
  obtain ⟨N, hN⟩ := hdb.run_selectCommits haves hw
  refine ⟨N, fun fuel hfuel => ?_⟩
  obtain ⟨s, hs, hturn, hp⟩ := hN fuel hfuel
  obtain ⟨g, hl⟩ := hturn.levelled (graded_of_generations hgen)
  refine ⟨s.toSend, _, hs, fun c => ?_, hturn.inv.nodup, by simpa using hl.sorted⟩
  rw [hturn.mem_toSend (graded_of_generations hgen) hp, hdb.below_commitsOf, hdb.below_targets]

/-- Asking the sample repository for its tag while having its root. -/
theorem selectCommits_exact_sample :
    ∃ N, ∀ fuel ≥ N, ∃ commits boundedByHaves,
      Sample.env.run (selectCommits Sample.env fuel [Sample.tagId] [Sample.rootId, Sample.blobId]) Sample.db =
        some (.ok { toSend := commits ++ [Sample.tagId], common := [Sample.rootId], boundedByHaves }, Sample.db) ∧
      Sample.tipId ∈ commits ∧ Sample.rootId ∉ commits := by
  obtain ⟨N, hN⟩ := selectCommits_exact Sample.indexed Sample.generations (.cons Sample.peels_tag .nil)
    [Sample.rootId, Sample.blobId]
  refine ⟨N, fun fuel hfuel => ?_⟩
  obtain ⟨commits, bounded, hrun, hmem, -⟩ := hN fuel hfuel
  have hcommon : ([Sample.rootId, Sample.blobId].filter fun h => (Sample.env.commitAt Sample.db h).isSome).eraseDups =
      [Sample.rootId] := by
    simp [List.filter, Sample.commitAt_root, Sample.commitAt_blob, List.eraseDups_cons]
  rw [hcommon] at hrun
  refine ⟨commits, bounded, hrun, (hmem _).2 ⟨⟨⟨[Sample.tagId], Sample.tipId⟩, by simp, .refl⟩, ?_⟩, fun hc => ?_⟩
  · rintro ⟨h, hh, hc, ha⟩
    simp only [List.mem_cons, List.not_mem_nil, or_false] at hh
    rcases hh with rfl | rfl
    · rcases Relation.ReflTransGen.cases_head ha with heq | ⟨p, ⟨commit, hcommit, hp⟩, -⟩
      · exact absurd heq (by decide)
      · cases Sample.commitAt_root.symm.trans hcommit
        simp at hp
    · simp [Sample.commitAt_blob] at hc
  · exact ((hmem _).1 hc).2 ⟨Sample.rootId, by simp, by simp [Sample.commitAt_root], .refl⟩

end Miscreant
