/-
What the ref advertisements say.

Resolving and peeling only read, so each has a value in a state
(`Env.resolution`, `Env.peelAt`), and an advertisement is a list of these
values. `build_ls_refs` writes a list of entries (`UploadPack.lsRefs`,
`run_buildLsRefs`); the classic advertisement is given a list of its own. The
two lists are the same but for `HEAD`, which only the first one peels
(`advertisements_agree_iff`).
-/
import Miscreant.Advertise
import Miscreant.Repo

namespace Miscreant

open Lib

variable {E : Env} {db : E.Db}

/-! ## Resolving and peeling -/

/-- What a ref target leads to within `n` hops. -/
def resolutionFrom (refs : SortedMap String RefTarget) : Nat → RefTarget → Resolution
  | 0, _ => .tooDeep
  | _ + 1, .direct oid => .resolved oid
  | n + 1, .reference name =>
    match refs.get name with
    | some next => resolutionFrom refs n next
    | none => .dangling

/-- What `resolve_ref` gives. -/
def Env.resolution (E : Env) (db : E.Db) (target : RefTarget) : Resolution :=
  resolutionFrom db.refs MAX_SYMREF_DEPTH target

/-- What `peel_ref` gives, with `n` turns left. -/
def peelAtFrom (E : Env) (db : E.Db) : Nat → Bool → ObjectId → Except LsRefsError (Option ObjectId)
  | 0, peeled, current => .ok (if peeled then some current else none)
  | n + 1, peeled, current =>
    match E.objectAt db current with
    | none => .ok none
    | some (kind, body) =>
      if kind ≠ .tag then .ok (if peeled then some current else none)
      else
        match E.gix.tagFromBytes body current.kind with
        | none => .error (.decode current)
        | some tag => peelAtFrom E db n true tag.target

/-- What `peel_ref` gives. -/
def Env.peelAt (E : Env) (db : E.Db) (oid : ObjectId) : Except LsRefsError (Option ObjectId) :=
  peelAtFrom E db MAX_PEEL_DEPTH false oid

theorem run_resolveFrom {ε : Type} : ∀ (n : Nat) (target : RefTarget),
    (UploadPack.resolveFrom E n target : E.Prog ε _).run Db.handler db =
      some (.ok (resolutionFrom db.refs n target), db)
  | 0, _ => rfl
  | _ + 1, .direct _ => rfl
  | n + 1, .reference name => by
    rw [UploadPack.resolveFrom, Prog.run_bind, run_getRef, resolutionFrom]
    cases db.refs.get name with
    | none => rfl
    | some next => exact run_resolveFrom n next

theorem run_resolveRef {ε : Type} (target : RefTarget) :
    (UploadPack.resolveRef E target : E.Prog ε _).run Db.handler db = some (.ok (E.resolution db target), db) :=
  run_resolveFrom _ target

theorem run_peelFrom (hdb : Intact E db) : ∀ (n : Nat) (peeled : Bool) (current : ObjectId),
    (UploadPack.peelFrom E n peeled current).run Db.handler db = some (peelAtFrom E db n peeled current, db)
  | 0, _, _ => rfl
  | n + 1, peeled, current => by
    rw [UploadPack.peelFrom, Prog.run_bind_ok (run_get_mapErr _ hdb current), peelAtFrom]
    cases E.objectAt db current with
    | none => rfl
    | some o =>
      obtain ⟨kind, body⟩ := o
      by_cases hk : kind = .tag
      · simp only [hk, ne_eq, not_true, if_false]
        cases E.gix.tagFromBytes body current.kind with
        | none => rfl
        | some tag => exact run_peelFrom hdb n true tag.target
      · simp only [ne_eq, hk, not_false_eq_true, if_true]
        rfl

theorem run_peelRef (hdb : Intact E db) (oid : ObjectId) :
    (UploadPack.peelRef E oid).run Db.handler db = some (E.peelAt db oid, db) :=
  run_peelFrom hdb _ _ oid

/-! ## The entries of `ls-refs` -/

namespace UploadPack

variable (E)

/-- The entries `build_ls_refs` writes for some refs. -/
def lsRefsOf (args : LsRefsArgs) : List (String × RefTarget) → E.Prog LsRefsError (List LsRef)
  | [] => pure []
  | (name, target) :: refs => do
    let r ← lsRef E args name target
    let rest ← lsRefsOf args refs
    pure (r.toList ++ rest)

/-- The entries `build_ls_refs` writes. -/
def lsRefs (args : LsRefsArgs) : E.Prog LsRefsError (List LsRef) := do
  let refs ← gatherRefs E args.prefixes
  lsRefsOf E args refs

end UploadPack

/-- What `build_ls_refs` says of one ref. -/
def Env.lsRefAt (E : Env) (db : E.Db) (args : LsRefsArgs) (name : String) (target : RefTarget) :
    Except LsRefsError (Option LsRef) :=
  match E.resolution db target with
  | .dangling =>
    match target with
    | .reference _ =>
      .ok (if args.unborn then some ⟨none, name, UploadPack.symrefTarget args target, none⟩ else none)
    | .direct _ => .ok none
  | .tooDeep => .ok none
  | .resolved oid =>
    (if args.peel then E.peelAt db oid else .ok none).map fun peeled =>
      some ⟨some oid, name, UploadPack.symrefTarget args target, peeled⟩

/-- What `build_ls_refs` says of some refs. -/
def Env.lsRefsAt (E : Env) (db : E.Db) (args : LsRefsArgs) : List (String × RefTarget) → Except LsRefsError (List LsRef)
  | [] => .ok []
  | (name, target) :: refs =>
    match E.lsRefAt db args name target with
    | .error e => .error e
    | .ok r => (E.lsRefsAt db args refs).map (r.toList ++ ·)

/-- The body of an `ls-refs` response. -/
def lsRefsBody (entries : List LsRef) : Except LsRefsError Bytes :=
  ((Pktline.writeAll Pktline.dataToWrite (entries.map fun r => asBytes r.line) []).map Pktline.flushToWrite).mapError .io

section LsRefs

variable (hdb : Intact E db) (args : LsRefsArgs)

include hdb

theorem run_lsRef (name : String) (target : RefTarget) :
    (UploadPack.lsRef E args name target).run Db.handler db = some (E.lsRefAt db args name target, db) := by
  unfold UploadPack.lsRef Env.lsRefAt
  rw [Prog.run_bind_ok (run_resolveRef target)]
  cases E.resolution db target with
  | dangling => cases target <;> rfl
  | tooDeep => rfl
  | resolved oid =>
    simp only
    cases args.peel with
    | false => rfl
    | true =>
      simp only [if_true]
      rw [Prog.run_bind, run_peelRef hdb]
      cases E.peelAt db oid <;> rfl

theorem run_lsRefsOf : ∀ refs : List (String × RefTarget),
    (UploadPack.lsRefsOf E args refs).run Db.handler db = some (E.lsRefsAt db args refs, db)
  | [] => rfl
  | (name, target) :: refs => by
    rw [UploadPack.lsRefsOf, Prog.run_bind, run_lsRef hdb, Env.lsRefsAt]
    cases E.lsRefAt db args name target with
    | error e => rfl
    | ok r =>
      simp only
      rw [Prog.run_bind, run_lsRefsOf refs]
      cases E.lsRefsAt db args refs <;> rfl

/-- The loop of `build_ls_refs` writes the entries, or fails with them. -/
theorem run_lsRefsFrom : ∀ (refs : List (String × RefTarget)) (body : Bytes),
    ∃ x, (UploadPack.lsRefsFrom E args refs body).run Db.handler db = some (x, db) ∧
      match E.lsRefsAt db args refs with
      | .ok entries => x = (Pktline.writeAll Pktline.dataToWrite (entries.map fun r => asBytes r.line) body).mapError .io
      | .error _ => ∃ e, x = .error e
  | [], body => ⟨.ok body, rfl, rfl⟩
  | (name, target) :: refs, body => by
    simp only [UploadPack.lsRefsFrom, Prog.run_bind, run_lsRef hdb, Env.lsRefsAt]
    cases E.lsRefAt db args name target with
    | error e => exact ⟨.error e, rfl, e, rfl⟩
    | ok r =>
      cases r with
      | none =>
        obtain ⟨x, hrun, hx⟩ := run_lsRefsFrom refs body
        refine ⟨x, hrun, ?_⟩
        cases h : E.lsRefsAt db args refs with
        | error e => simpa [h, Except.map] using hx
        | ok entries => simpa [h, Except.map] using hx
      | some r =>
        simp only [Prog.run_bind, Prog.run_ofExcept]
        cases hw : Pktline.dataToWrite (asBytes r.line) body with
        | error e =>
          refine ⟨.error (.io e), rfl, ?_⟩
          cases E.lsRefsAt db args refs with
          | error e' => exact ⟨_, rfl⟩
          | ok entries => simp [Except.map, Pktline.writeAll, hw, Except.mapError]
        | ok body' =>
          obtain ⟨x, hrun, hx⟩ := run_lsRefsFrom refs body'
          refine ⟨x, hrun, ?_⟩
          cases h : E.lsRefsAt db args refs with
          | error e => simpa [h, Except.map] using hx
          | ok entries => simpa [h, Except.map, Pktline.writeAll, hw] using hx

end LsRefs

/-! ## Gathering -/

/-- What is inserted into a map one after another is there, or was. -/
theorem get_foldl_insert_of_mem {name : String} {target : RefTarget} :
    ∀ {found : List (String × RefTarget)} {refs : SortedMap String RefTarget},
      (found.foldl (fun refs (name, target) => refs.insert name target) refs).get name = some target →
      refs.get name = some target ∨ (name, target) ∈ found
  | [], refs, h => .inl h
  | (name', target') :: found, refs, h => by
    rcases @get_foldl_insert_of_mem _ _ found _ h with h | h
    · rw [SortedMap.get_insert] at h
      split at h
      · rename_i heq
        cases h
        exact .inr (by simp [heq])
      · exact .inl h
    · exact .inr (by simp [h])

theorem run_gatherFrom {ε : Type} : ∀ (prefixes : List String) (refs : SortedMap String RefTarget),
    ∃ refs', (UploadPack.gatherFrom E prefixes refs : E.Prog ε _).run Db.handler db = some (.ok refs', db) ∧
      ∀ name target, refs'.get name = some target → refs.get name = some target ∨ db.refs.get name = some target
  | [], refs => ⟨refs, rfl, fun _ _ h => .inl h⟩
  | p :: prefixes, refs => by
    obtain ⟨refs', hrun, hrefs'⟩ := run_gatherFrom (ε := ε) prefixes
      ((db.refs.entries.filter fun entry => (asBytes p).isPrefixOf (asBytes entry.1)).foldl
        (fun refs (name, target) => refs.insert name target) refs)
    refine ⟨refs', hrun, fun name target h => ?_⟩
    rcases hrefs' name target h with h | h
    · refine (get_foldl_insert_of_mem h).imp_right fun hmem => ?_
      exact SortedMap.mem_entries.1 (List.mem_of_mem_filter hmem)
    · exact .inr h

/-- The gathered refs are refs of the repository. -/
theorem run_gatherRefs {ε : Type} (prefixes : List String) :
    ∃ refs, (UploadPack.gatherRefs E prefixes : E.Prog ε _).run Db.handler db = some (.ok refs, db) ∧
      ∀ name target, (name, target) ∈ refs → db.refs.get name = some target := by
  unfold UploadPack.gatherRefs
  split
  · exact ⟨db.refs.entries, rfl, fun name target h => SortedMap.mem_entries.1 h⟩
  · obtain ⟨refs, hrun, hrefs⟩ := @run_gatherFrom E db ε prefixes .empty
    refine ⟨refs.entries, Prog.run_bind_ok hrun, fun name target h => ?_⟩
    exact (hrefs name target (SortedMap.mem_entries.1 h)).resolve_left (by simp)

/-- `build_ls_refs` writes its entries, or fails with them. -/
theorem run_buildLsRefs (hdb : Intact E db) (args : LsRefsArgs) :
    ∃ refs, (∀ name target, (name, target) ∈ refs → db.refs.get name = some target) ∧
      (args.prefixes = [] → refs = db.refs.entries) ∧
      E.run (UploadPack.lsRefs E args) db = some (E.lsRefsAt db args refs, db) ∧
      ∃ x, E.run (UploadPack.buildLsRefs E args) db = some (x, db) ∧
        match E.lsRefsAt db args refs with
        | .ok entries => x = lsRefsBody entries
        | .error _ => ∃ e, x = .error e := by
  obtain ⟨refs, hgather, hrefs⟩ := @run_gatherRefs E db LsRefsError args.prefixes
  obtain ⟨x, hrun, hx⟩ := run_lsRefsFrom hdb args refs []
  refine ⟨refs, hrefs, fun hnil => ?_, ?_, x.map Pktline.flushToWrite, ?_, ?_⟩
  · rw [hnil] at hgather
    cases hgather
    rfl
  · exact (Prog.run_bind_ok hgather).trans (run_lsRefsOf hdb args refs)
  · refine (Prog.run_bind_ok hgather).trans ?_
    rw [Prog.run_bind, hrun]
    cases x <;> rfl
  · cases h : E.lsRefsAt db args refs with
    | error e =>
      rw [h] at hx
      obtain ⟨e', rfl⟩ := hx
      exact ⟨e', rfl⟩
    | ok entries =>
      rw [h] at hx
      subst hx
      simp only [lsRefsBody]
      cases Pktline.writeAll Pktline.dataToWrite (entries.map fun r => asBytes r.line) [] <;> rfl

/-! ## The classic advertisement -/

open Advertise

/-- What the classic advertisement says of one ref other than `HEAD`. -/
def Env.uploadRefAt (E : Env) (db : E.Db) (name : String) (target : RefTarget) :
    Except LsRefsError (Option UploadRef) :=
  match E.resolution db target with
  | .resolved oid => (E.peelAt db oid).map fun peeled => some ⟨name, oid, peeled⟩
  | _ => .ok none

/-- What the classic advertisement says of some refs other than `HEAD`. -/
def Env.uploadRefsAt (E : Env) (db : E.Db) : List (String × RefTarget) → Except LsRefsError (List UploadRef)
  | [] => .ok []
  | (name, target) :: refs =>
    match E.uploadRefAt db name target with
    | .error e => .error e
    | .ok r => (E.uploadRefsAt db refs).map (r.toList ++ ·)

/-- What the classic advertisement says of `HEAD`, and its symref target. -/
def Env.headAt (E : Env) (db : E.Db) (target : Option RefTarget) : List UploadRef × Option String :=
  match target with
  | none => ([], none)
  | some target =>
    match E.resolution db target with
    | .resolved oid =>
      ([⟨HEAD_REF, oid, none⟩], match target with
        | .reference inner => some inner
        | .direct _ => none)
    | _ => ([], none)

theorem run_advertiseRest (hdb : Intact E db) : ∀ (rest : List (String × RefTarget)) (advertised : List UploadRef),
    (UploadPackV0.advertiseRest E rest advertised).run Db.handler db =
      some ((E.uploadRefsAt db rest).map (advertised ++ ·), db)
  | [], advertised => by simp [UploadPackV0.advertiseRest, Env.uploadRefsAt, Except.map]
  | (name, target) :: rest, advertised => by
    rw [UploadPackV0.advertiseRest, Prog.run_bind_ok (run_resolveRef target), Env.uploadRefsAt, Env.uploadRefAt]
    cases E.resolution db target with
    | dangling | tooDeep =>
      refine (run_advertiseRest hdb rest advertised).trans ?_
      cases E.uploadRefsAt db rest <;> rfl
    | resolved oid =>
      simp only
      rw [Prog.run_bind, run_peelRef hdb]
      cases E.peelAt db oid with
      | error e => rfl
      | ok peeled =>
        refine (run_advertiseRest hdb rest _).trans ?_
        cases E.uploadRefsAt db rest with
        | error e => rfl
        | ok refs => simp [Except.map]

theorem run_advertiseHead (target : Option RefTarget) :
    (UploadPackV0.advertiseHead E target).run Db.handler db = some (.ok (E.headAt db target), db) := by
  cases target with
  | none => rfl
  | some target =>
    unfold UploadPackV0.advertiseHead Env.headAt
    rw [Prog.run_bind_ok (run_resolveRef target)]
    simp only
    cases E.resolution db target <;> rfl

/-- The entries under one name. -/
theorem filter_entries_name (refs : SortedMap String RefTarget) (name : String) :
    (refs.entries.filter fun entry => entry.1 = name) = (refs.get name).toList.map (name, ·) := by
  have hsorted : (refs.entries.filter fun entry => entry.1 = name).Pairwise fun a b => a.1 < b.1 :=
    refs.sorted.filter _
  have hmem : ∀ entry, entry ∈ (refs.entries.filter fun entry => entry.1 = name) ↔
      entry.1 = name ∧ refs.get name = some entry.2 := by
    intro entry
    rw [List.mem_filter, and_comm]
    simp only [decide_eq_true_eq, and_congr_right_iff]
    intro heq
    rw [← heq, ← SortedMap.mem_entries]
  match hl : (refs.entries.filter fun entry => entry.1 = name) with
  | [] =>
    cases hg : refs.get name with
    | none => exact hl
    | some target =>
      have := (hmem (name, target)).2 ⟨rfl, hg⟩
      simp [hl] at this
  | [entry] =>
    obtain ⟨heq, hg⟩ := (hmem entry).1 (by simp [hl])
    rw [hl, hg, ← heq]
    rfl
  | a :: b :: rest =>
    rw [hl] at hsorted
    have hlt : a.1 < b.1 := (List.pairwise_cons.1 hsorted).1 b (by simp)
    have ha := ((hmem a).1 (by simp [hl])).1
    have hb := ((hmem b).1 (by simp [hl])).1
    rw [ha, hb] at hlt
    exact absurd hlt (lt_irrefl name)

theorem run_advertised (hdb : Intact E db) :
    E.run (UploadPackV0.advertised E) db =
      some ((E.uploadRefsAt db (db.refs.entries.filter fun entry => entry.1 ≠ HEAD_REF)).map fun rest =>
        ((E.headAt db (db.refs.get HEAD_REF)).1 ++ rest, (E.headAt db (db.refs.get HEAD_REF)).2), db) := by
  unfold UploadPackV0.advertised Env.run
  rw [Prog.run_bind_ok (run_listRefs db)]
  have hhead : ((db.refs.entries.filter fun entry => entry.1 = HEAD_REF).getLast?.map (·.2)) =
      db.refs.get HEAD_REF := by
    rw [filter_entries_name]
    cases db.refs.get HEAD_REF <;> rfl
  simp only [hhead]
  rw [Prog.run_bind_ok (run_advertiseHead _), Prog.run_bind, run_advertiseRest hdb]
  cases E.uploadRefsAt db _ <;> rfl

/-! ## Comparing the two -/

/-- The ref an `ls-refs` entry is about, as the classic advertisement has
it. -/
def LsRef.uploadRef (r : LsRef) : Option UploadRef := r.oid.map fun oid => ⟨r.name, oid, r.peeled⟩

/-- `HEAD` moved to the front. -/
def headFirst (refs : List UploadRef) : List UploadRef :=
  refs.filter (fun r => r.name = HEAD_REF) ++ refs.filter fun r => r.name ≠ HEAD_REF

/-- The symref target reported for `HEAD`. -/
def headSymref (entries : List LsRef) : Option String :=
  (entries.filter fun r => r.name = HEAD_REF).head?.bind (·.symrefTarget)

/-- `ls-refs` with everything but the unborn refs. -/
def peelArgs : LsRefsArgs := { prefixes := [], symrefs := true, peel := true, unborn := false }

theorem lsRefAt_peelArgs (name : String) (target : RefTarget) :
    E.lsRefAt db peelArgs name target = (E.uploadRefAt db name target).map (Option.map fun r =>
      ⟨some r.oid, r.name, UploadPack.symrefTarget peelArgs target, r.peeled⟩) := by
  unfold Env.lsRefAt Env.uploadRefAt
  cases E.resolution db target with
  | dangling => cases target <;> rfl
  | tooDeep => rfl
  | resolved oid =>
    simp only [peelArgs, if_true]
    cases E.peelAt db oid <;> rfl

theorem lsRefAt_name {args : LsRefsArgs} {name : String} {target : RefTarget} {r : LsRef}
    (h : E.lsRefAt db args name target = .ok (some r)) : r.name = name := by
  unfold Env.lsRefAt at h
  cases hr : E.resolution db target with
  | tooDeep => simp [hr] at h
  | dangling =>
    rw [hr] at h
    cases target with
    | direct oid => simp at h
    | reference inner =>
      cases hu : args.unborn with
      | false => simp [hu] at h
      | true =>
        simp only [hu, if_true, Except.ok.injEq, Option.some.injEq] at h
        rw [← h]
  | resolved oid =>
    rw [hr] at h
    simp only at h
    cases hp : (if args.peel then E.peelAt db oid else .ok none) with
    | error e => simp [hp, Except.map] at h
    | ok peeled =>
      simp only [hp, Except.map, Except.ok.injEq, Option.some.injEq] at h
      rw [← h]

/-- The entries of some of the refs. -/
theorem lsRefsAt_filter {args : LsRefsArgs} (p : String → Bool) :
    ∀ {refs : List (String × RefTarget)} {entries : List LsRef}, E.lsRefsAt db args refs = .ok entries →
      E.lsRefsAt db args (refs.filter fun entry => p entry.1) = .ok (entries.filter fun r => p r.name)
  | [], entries, h => by
    cases h
    rfl
  | (name, target) :: refs, entries, h => by
    rw [Env.lsRefsAt] at h
    cases hr : E.lsRefAt db args name target with
    | error e => simp [hr] at h
    | ok r =>
      cases hrest : E.lsRefsAt db args refs with
      | error e => simp [hr, hrest, Except.map] at h
      | ok rest =>
        simp only [hr, hrest, Except.map, Except.ok.injEq] at h
        subst h
        have ih := lsRefsAt_filter p hrest
        have hname : r.toList.filter (fun r => p r.name) = if p name then r.toList else [] := by
          cases r with
          | none => simp
          | some r => cases hp : p name <;> simp [lsRefAt_name hr, hp]
        rw [List.filter_append, hname, List.filter_cons]
        simp only
        cases hp : p name with
        | false => simpa using ih
        | true =>
          simp only [if_true]
          rw [Env.lsRefsAt, hr, ih]
          rfl

/-- The refs both advertisements are about are read the same way. -/
theorem uploadRefsAt_eq : ∀ refs : List (String × RefTarget),
    E.uploadRefsAt db refs = (E.lsRefsAt db peelArgs refs).map (List.filterMap LsRef.uploadRef)
  | [] => rfl
  | (name, target) :: refs => by
    rw [Env.uploadRefsAt, Env.lsRefsAt, lsRefAt_peelArgs, uploadRefsAt_eq refs]
    cases E.uploadRefAt db name target with
    | error e => rfl
    | ok r =>
      cases E.lsRefsAt db peelArgs refs with
      | error e => rfl
      | ok entries => cases r <;> rfl

/-- The entries about `HEAD`, or not about it, as the classic advertisement
has them. -/
theorem filterMap_uploadRef_filter (p : String → Bool) (entries : List LsRef) :
    (entries.filter fun r => p r.name).filterMap LsRef.uploadRef =
      (entries.filterMap LsRef.uploadRef).filter fun r => p r.name := by
  rw [List.filterMap_filter, List.filter_filterMap]
  refine List.filterMap_congr fun r _ => ?_
  obtain ⟨oid, name, symref, peeled⟩ := r
  cases oid <;> cases hp : p name <;> simp [LsRef.uploadRef, Option.filter, hp]

/-- Reading refs fails with one of them. -/
theorem uploadRefsAt_error_iff : ∀ {refs : List (String × RefTarget)},
    (∃ e, E.uploadRefsAt db refs = .error e) ↔ ∃ entry ∈ refs, ∃ e, E.uploadRefAt db entry.1 entry.2 = .error e
  | [] => by simp [Env.uploadRefsAt]
  | (name, target) :: refs => by
    have ih := @uploadRefsAt_error_iff refs
    rw [Env.uploadRefsAt]
    cases hr : E.uploadRefAt db name target with
    | error e => simp [hr]
    | ok r =>
      cases hrest : E.uploadRefsAt db refs with
      | error e =>
        rw [hrest] at ih
        simpa [hr, Except.map] using ih
      | ok rest =>
        rw [hrest] at ih
        simpa [hr, Except.map] using ih

/-- Within `n` tags the chain from `x` runs into an object that is not
there. -/
def TagsDangle (E : Env) (db : E.Db) : Nat → ObjectId → Prop
  | 0, _ => False
  | n + 1, x => E.objectAt db x = none ∨ ∃ body tag, E.objectAt db x = some (.tag, body) ∧
      E.gix.tagFromBytes body x.kind = some tag ∧ TagsDangle E db n tag.target

/-- Within `n` tags the chain from `x` runs into a tag that cannot be
parsed. -/
def TagsUndecodable (E : Env) (db : E.Db) : Nat → ObjectId → Prop
  | 0, _ => False
  | n + 1, x => ∃ body, E.objectAt db x = some (.tag, body) ∧
      (E.gix.tagFromBytes body x.kind = none ∨
        ∃ tag, E.gix.tagFromBytes body x.kind = some tag ∧ TagsUndecodable E db n tag.target)

/-- There is nothing to peel from `x`: it is not a tag, or its chain ends in
the void. -/
def NothingToPeel (E : Env) (db : E.Db) (x : ObjectId) : Prop :=
  (∃ kind body, E.objectAt db x = some (kind, body) ∧ kind ≠ .tag) ∨ TagsDangle E db MAX_PEEL_DEPTH x

theorem peelAtFrom_none_iff : ∀ (n : Nat) (x : ObjectId), peelAtFrom E db n true x = .ok none ↔ TagsDangle E db n x
  | 0, x => by simp [peelAtFrom, TagsDangle]
  | n + 1, x => by
    rw [peelAtFrom, TagsDangle]
    cases ho : E.objectAt db x with
    | none => simp
    | some o =>
      obtain ⟨kind, body⟩ := o
      by_cases hk : kind = .tag
      · subst hk
        cases ht : E.gix.tagFromBytes body x.kind with
        | none => simp [ht]
        | some tag => simpa [ht] using peelAtFrom_none_iff n tag.target
      · simp [hk]

theorem peelAt_none_iff {x : ObjectId} : E.peelAt db x = .ok none ↔ NothingToPeel E db x := by
  have htag : ∀ body tag, E.objectAt db x = some (.tag, body) → E.gix.tagFromBytes body x.kind = some tag →
      (E.peelAt db x = .ok none ↔ TagsDangle E db 4 tag.target) := by
    intro body tag ho ht
    rw [← peelAtFrom_none_iff, Env.peelAt, MAX_PEEL_DEPTH, peelAtFrom]
    simp [ho, ht]
  unfold NothingToPeel MAX_PEEL_DEPTH
  rw [TagsDangle]
  cases ho : E.objectAt db x with
  | none => simp [Env.peelAt, MAX_PEEL_DEPTH, peelAtFrom, ho]
  | some o =>
    obtain ⟨kind, body⟩ := o
    by_cases hk : kind = .tag
    · subst hk
      cases ht : E.gix.tagFromBytes body x.kind with
      | none => simp [Env.peelAt, MAX_PEEL_DEPTH, peelAtFrom, ho, ht]
      | some tag => simpa [ht] using htag body tag ho ht
    · simp [Env.peelAt, MAX_PEEL_DEPTH, peelAtFrom, ho, hk]

theorem peelAtFrom_error_iff : ∀ (n : Nat) (peeled : Bool) (x : ObjectId),
    (∃ e, peelAtFrom E db n peeled x = .error e) ↔ TagsUndecodable E db n x
  | 0, peeled, x => by simp [peelAtFrom, TagsUndecodable]
  | n + 1, peeled, x => by
    rw [peelAtFrom, TagsUndecodable]
    cases ho : E.objectAt db x with
    | none => simp
    | some o =>
      obtain ⟨kind, body⟩ := o
      by_cases hk : kind = .tag
      · subst hk
        cases ht : E.gix.tagFromBytes body x.kind with
        | none => simp [ht]
        | some tag => simpa [ht] using peelAtFrom_error_iff n true tag.target
      · simp [hk]

/-- Some ref other than `HEAD` resolves to a tag whose chain does not
decode. -/
def OtherUndecodable (E : Env) (db : E.Db) : Prop :=
  ∃ name target oid, name ≠ HEAD_REF ∧ db.refs.get name = some target ∧ E.resolution db target = .resolved oid ∧
    TagsUndecodable E db MAX_PEEL_DEPTH oid

theorem uploadRefAt_error_iff {name : String} {target : RefTarget} :
    (∃ e, E.uploadRefAt db name target = .error e) ↔
      ∃ oid, E.resolution db target = .resolved oid ∧ TagsUndecodable E db MAX_PEEL_DEPTH oid := by
  unfold Env.uploadRefAt
  cases E.resolution db target with
  | dangling | tooDeep => simp
  | resolved oid =>
    simp only [Resolution.resolved.injEq, exists_eq_left', ← peelAtFrom_error_iff MAX_PEEL_DEPTH false]
    change _ ↔ ∃ e, E.peelAt db oid = .error e
    cases E.peelAt db oid <;> simp [Except.map]

theorem advertised_error_iff (hdb : Intact E db) :
    (∃ e, E.run (UploadPackV0.advertised E) db = some (.error e, db)) ↔ OtherUndecodable E db := by
  have hmem : ∀ entry : String × RefTarget,
      entry ∈ db.refs.entries.filter (fun entry => entry.1 ≠ HEAD_REF) ↔
        entry.1 ≠ HEAD_REF ∧ db.refs.get entry.1 = some entry.2 := by
    intro entry
    rw [List.mem_filter, and_comm, ← SortedMap.mem_entries]
    simp
  have herr := @uploadRefsAt_error_iff E db (db.refs.entries.filter fun entry => entry.1 ≠ HEAD_REF)
  rw [run_advertised hdb]
  constructor
  · intro h
    obtain ⟨e, h⟩ := h
    have hfail : ∃ e, E.uploadRefsAt db (db.refs.entries.filter fun entry => entry.1 ≠ HEAD_REF) = .error e := by
      cases hr : E.uploadRefsAt db (db.refs.entries.filter fun entry => entry.1 ≠ HEAD_REF) with
      | error e => exact ⟨e, rfl⟩
      | ok l =>
        rw [hr] at h
        cases h
    obtain ⟨entry, hentry, hfail⟩ := herr.1 hfail
    obtain ⟨hne, hget⟩ := (hmem entry).1 hentry
    obtain ⟨oid, hres, hun⟩ := uploadRefAt_error_iff.1 hfail
    exact ⟨entry.1, entry.2, oid, hne, hget, hres, hun⟩
  · intro h
    obtain ⟨name, target, oid, hne, hget, hres, hun⟩ := h
    obtain ⟨e, hfail⟩ := herr.2 ⟨(name, target), (hmem _).2 ⟨hne, hget⟩, uploadRefAt_error_iff.2 ⟨oid, hres, hun⟩⟩
    exact ⟨e, by rw [hfail]; rfl⟩

/-- Both advertisements are of the same refs, `HEAD` being moved to the front
in the classic one, and report the same symref target for it; or neither is
made. -/
def SameRefs (E : Env) (db : E.Db) : Prop :=
  (∃ entries, E.run (UploadPack.lsRefs E peelArgs) db = some (.ok entries, db) ∧
    E.run (UploadPackV0.advertised E) db =
      some (.ok (headFirst (entries.filterMap LsRef.uploadRef), headSymref entries), db)) ∨
  (∃ e, E.run (UploadPack.lsRefs E peelArgs) db = some (.error e, db)) ∧
    ∃ e, E.run (UploadPackV0.advertised E) db = some (.error e, db)

/-- `HEAD` does not resolve to a tag that can be peeled. -/
def HeadPlain (E : Env) (db : E.Db) : Prop :=
  ∀ target oid, db.refs.get HEAD_REF = some target → E.resolution db target = .resolved oid → NothingToPeel E db oid

theorem run_lsRefs (hdb : Intact E db) :
    E.run (UploadPack.lsRefs E peelArgs) db = some (E.lsRefsAt db peelArgs db.refs.entries, db) := by
  obtain ⟨refs, -, hrefs, hrun, -⟩ := run_buildLsRefs hdb peelArgs
  rw [hrun, hrefs rfl]

section Compare

variable {entries : List LsRef} (h : E.lsRefsAt db peelArgs db.refs.entries = .ok entries)

include h

/-- What `ls-refs` says of `HEAD`. -/
theorem head_entries :
    (db.refs.get HEAD_REF = none → entries.filter (fun r => r.name = HEAD_REF) = []) ∧
      ∀ target, db.refs.get HEAD_REF = some target →
        (E.lsRefAt db peelArgs HEAD_REF target).map Option.toList =
          .ok (entries.filter fun r => r.name = HEAD_REF) := by
  have hfilter := lsRefsAt_filter (fun name => name = HEAD_REF) h
  rw [filter_entries_name] at hfilter
  constructor
  · intro hg
    rw [hg] at hfilter
    exact (Except.ok.inj hfilter).symm
  · intro target hg
    rw [hg] at hfilter
    rw [← hfilter]
    simp only [Option.toList_some, List.map_cons, List.map_nil, Env.lsRefsAt]
    cases E.lsRefAt db peelArgs HEAD_REF target with
    | error e => rfl
    | ok r => simp [Except.map]

theorem run_advertised_ok (hdb : Intact E db) :
    E.run (UploadPackV0.advertised E) db =
      some (.ok ((E.headAt db (db.refs.get HEAD_REF)).1 ++
        (entries.filterMap LsRef.uploadRef).filter (fun r => r.name ≠ HEAD_REF),
        (E.headAt db (db.refs.get HEAD_REF)).2), db) := by
  have hfilter := lsRefsAt_filter (fun name => name ≠ HEAD_REF) h
  have hrest : E.uploadRefsAt db (db.refs.entries.filter fun entry => entry.1 ≠ HEAD_REF) =
      .ok ((entries.filterMap LsRef.uploadRef).filter fun r => r.name ≠ HEAD_REF) := by
    rw [uploadRefsAt_eq, hfilter, ← filterMap_uploadRef_filter (fun name => name ≠ HEAD_REF)]
    rfl
  rw [run_advertised hdb, hrest]
  rfl

/-- `HEAD` is listed the same way exactly when there is nothing to peel from
it; its symref target always is. -/
theorem headAt_eq_iff :
    ((E.headAt db (db.refs.get HEAD_REF)).1 =
        (entries.filterMap LsRef.uploadRef).filter (fun r => r.name = HEAD_REF) ↔ HeadPlain E db) ∧
      (E.headAt db (db.refs.get HEAD_REF)).2 = headSymref entries := by
  obtain ⟨hnone, hsome⟩ := head_entries h
  rw [← filterMap_uploadRef_filter (fun name => name = HEAD_REF)]
  unfold headSymref
  cases hg : db.refs.get HEAD_REF with
  | none =>
    rw [hnone hg]
    simp [Env.headAt, HeadPlain, hg]
  | some target =>
    have hplain : HeadPlain E db ↔ ∀ oid, E.resolution db target = .resolved oid → NothingToPeel E db oid := by
      simp only [HeadPlain, hg, Option.some.injEq]
      constructor
      · exact fun h oid hres => h target oid rfl hres
      · intro h target' oid heq hres
        subst heq
        exact h oid hres
    rw [hplain]
    have hhead := hsome target hg
    rw [lsRefAt_peelArgs] at hhead
    cases hres : E.resolution db target with
    | dangling | tooDeep =>
      simp only [Env.uploadRefAt, hres, Except.map, Option.map_none, Option.toList_none, Except.ok.injEq] at hhead
      rw [← hhead]
      simp [Env.headAt, hres]
    | resolved oid =>
      cases hp : E.peelAt db oid with
      | error e => simp [Env.uploadRefAt, hres, hp, Except.map] at hhead
      | ok peeled =>
        simp only [Env.uploadRefAt, hres, hp, Except.map, Option.map_some, Option.toList_some, Except.ok.injEq] at hhead
        rw [← hhead]
        have hnothing : NothingToPeel E db oid ↔ peeled = none := by
          rw [← peelAt_none_iff, hp]
          simp
        constructor
        · simp [Env.headAt, hres, LsRef.uploadRef, hnothing, eq_comm]
        · cases target <;> simp [Env.headAt, hres, UploadPack.symrefTarget, peelArgs]

end Compare

/-- Listing fails with some ref, and only `HEAD` is not peeled by the classic
advertisement. -/
theorem lsRefsAt_error_iff :
    (∃ e, E.lsRefsAt db peelArgs db.refs.entries = .error e) ↔
      OtherUndecodable E db ∨ ∃ target oid, db.refs.get HEAD_REF = some target ∧
        E.resolution db target = .resolved oid ∧ TagsUndecodable E db MAX_PEEL_DEPTH oid := by
  have hupload : (∃ e, E.lsRefsAt db peelArgs db.refs.entries = .error e) ↔
      ∃ e, E.uploadRefsAt db db.refs.entries = .error e := by
    rw [uploadRefsAt_eq]
    cases E.lsRefsAt db peelArgs db.refs.entries <;> simp [Except.map]
  rw [hupload, uploadRefsAt_error_iff]
  constructor
  · intro h
    obtain ⟨⟨name, target⟩, hmem, hfail⟩ := h
    obtain ⟨oid, hres, hun⟩ := uploadRefAt_error_iff.1 hfail
    have hget := SortedMap.mem_entries.1 hmem
    by_cases hname : name = HEAD_REF
    · exact .inr ⟨target, oid, hname ▸ hget, hres, hun⟩
    · exact .inl ⟨name, target, oid, hname, hget, hres, hun⟩
  · intro h
    rcases h with ⟨name, target, oid, -, hget, hres, hun⟩ | ⟨target, oid, hget, hres, hun⟩
    · exact ⟨(name, target), SortedMap.mem_entries.2 hget, uploadRefAt_error_iff.2 ⟨oid, hres, hun⟩⟩
    · exact ⟨(HEAD_REF, target), SortedMap.mem_entries.2 hget, uploadRefAt_error_iff.2 ⟨oid, hres, hun⟩⟩

theorem NothingToPeel.not_undecodable {x : ObjectId} (h : NothingToPeel E db x) :
    ¬ TagsUndecodable E db MAX_PEEL_DEPTH x := by
  intro hun
  obtain ⟨e, he⟩ := (peelAtFrom_error_iff MAX_PEEL_DEPTH false x).2 hun
  have hok := peelAt_none_iff.2 h
  rw [Env.peelAt, he] at hok
  cases hok

/-- Both advertisements agree exactly when `HEAD` does not resolve to a tag
that can be peeled, or when neither is made because another ref's tags do
not decode. -/
theorem advertisements_agree_iff (hdb : Intact E db) :
    SameRefs E db ↔ HeadPlain E db ∨ OtherUndecodable E db := by
  have hlist := run_lsRefs hdb
  have hfail := advertised_error_iff hdb
  cases hall : E.lsRefsAt db peelArgs db.refs.entries with
  | ok entries =>
    rw [hall] at hlist
    have hadv := run_advertised_ok hall hdb
    obtain ⟨hhead, hsymref⟩ := headAt_eq_iff hall
    have hnot : ¬ OtherUndecodable E db := by
      intro h
      obtain ⟨e, he⟩ := lsRefsAt_error_iff.2 (.inl h)
      cases hall.symm.trans he
    rw [or_iff_left hnot, ← hhead]
    constructor
    · intro h
      rcases h with ⟨entries', hrun, hrefs⟩ | ⟨⟨e, he⟩, -⟩
      · cases hlist.symm.trans hrun
        have heq := hadv.symm.trans hrefs
        simp only [Option.some.injEq, Prod.mk.injEq, Except.ok.injEq, and_true, headFirst] at heq
        exact List.append_cancel_right heq.1
      · cases hlist.symm.trans he
    · intro heq
      refine .inl ⟨entries, hlist, ?_⟩
      rw [hadv, heq, hsymref]
      rfl
  | error e =>
    rw [hall] at hlist
    constructor
    · intro h
      rcases h with ⟨entries', hrun, -⟩ | ⟨-, hadv⟩
      · cases hlist.symm.trans hrun
      · exact .inr (hfail.1 hadv)
    · intro h
      refine .inr ⟨⟨e, hlist⟩, hfail.2 ?_⟩
      rcases lsRefsAt_error_iff.1 ⟨e, hall⟩ with hother | ⟨target, oid, hget, hres, hun⟩
      · exact hother
      · exact h.resolve_left fun hplain => (hplain target oid hget hres).not_undecodable hun

namespace Sample

/-- The small repository with one branch, which `HEAD` names. -/
def withMain (oid : ObjectId) : env.Db :=
  { Sample.db with
    refs := (SortedMap.empty.insert HEAD_REF (.reference "refs/heads/main")).insert "refs/heads/main" (.direct oid) }

theorem intact_withMain (oid : ObjectId) : Intact env (withMain oid) := by
  have hdb : Intact env Sample.db := intact_storeOf
  exact ⟨hdb.object, hdb.size⟩

theorem get_head (oid : ObjectId) : (withMain oid).refs.get HEAD_REF = some (.reference "refs/heads/main") := by
  simp [withMain, SortedMap.get_insert, HEAD_REF]

theorem get_main (oid : ObjectId) : (withMain oid).refs.get "refs/heads/main" = some (.direct oid) := by
  simp [withMain, SortedMap.get_insert]

theorem resolution_head (oid : ObjectId) :
    env.resolution (withMain oid) (.reference "refs/heads/main") = .resolved oid := by
  simp only [Env.resolution, MAX_SYMREF_DEPTH, resolutionFrom, get_main]

theorem headPlain_commit : HeadPlain env (withMain tipId) := by
  intro target oid hget hres
  rw [get_head] at hget
  cases hget
  rw [resolution_head] at hres
  cases hres
  exact .inl ⟨.commit, tipBody, objectAt_tip, by decide⟩

theorem peelAt_tag : env.peelAt (withMain tagId) tagId = .ok (some tipId) := by
  have htag : env.objectAt (withMain tagId) tagId = some (.tag, tagBody) := by
    refine (objectAt_db tagId).trans ?_
    rfl
  have htip : env.objectAt (withMain tagId) tipId = some (.commit, tipBody) := objectAt_tip
  have hparse : env.gix.tagFromBytes tagBody tagId.kind = some ⟨tipId, .commit⟩ := by
    simp [env, ParseTable.env, ParseTable.gix, tagId, sha1Id, table, List.lookup_cons]
  simp [Env.peelAt, MAX_PEEL_DEPTH, peelAtFrom, htag, htip, hparse]

end Sample

open Sample in
/-- With a branch that names a commit the advertisements agree. -/
theorem advertisements_agree_sample : Intact env (withMain tipId) ∧ SameRefs env (withMain tipId) :=
  ⟨intact_withMain tipId, (advertisements_agree_iff (intact_withMain tipId)).2 (.inl headPlain_commit)⟩

open Sample in
/-- With a branch that names a tag they do not: `ls-refs` peels `HEAD`. -/
theorem advertisements_differ : ¬ SameRefs env (withMain tagId) := by
  have hlist := run_lsRefs (intact_withMain tagId)
  have hplain : ¬ HeadPlain env (withMain tagId) := by
    intro h
    have hpeel := peelAt_none_iff.2 (h _ _ (get_head tagId) (resolution_head tagId))
    cases peelAt_tag.symm.trans hpeel
  intro h
  rcases h with ⟨entries, hrun, hadv⟩ | ⟨⟨e, hrun⟩, hadv⟩
  · rw [hlist] at hrun
    simp only [Option.some.injEq, Prod.mk.injEq, and_true] at hrun
    have heq := (run_advertised_ok hrun (intact_withMain tagId)).symm.trans hadv
    simp only [Option.some.injEq, Prod.mk.injEq, Except.ok.injEq, and_true, headFirst] at heq
    exact hplain ((headAt_eq_iff hrun).1.1 (List.append_cancel_right heq.1))
  · obtain ⟨name, target, oid, hne, hget, hres, hun⟩ := (advertised_error_iff (intact_withMain tagId)).1 hadv
    have hmain : target = .direct tagId := by
      simp only [withMain, SortedMap.get_insert, hne, if_false, SortedMap.get_empty] at hget
      split at hget
      · exact (Option.some.inj hget).symm
      · cases hget
    subst hmain
    cases hres
    obtain ⟨e, he⟩ := (peelAtFrom_error_iff MAX_PEEL_DEPTH false tagId).2 hun
    have hpeel := peelAt_tag
    rw [Env.peelAt, he] at hpeel
    cases hpeel

end Miscreant
