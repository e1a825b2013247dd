/-
What the advertisements have room for.

A pushed name came in a pkt-line beside two ids and goes out in lines that
are shorter, but for three: the line of a peeled tag, which has a second id in
it, and the first lines of both advertisements, which carry the capabilities.
When `HEAD` resolves it is the first line of the classic advertisement, and
there is room (`advertisable_iff`).
-/
import Miscreant.LsRefsFacts

namespace Miscreant

open Lib Advertise

/-! ## Services -/

theorem service_ok_iff {header : String} {lines : List String} :
    (∃ out, service header lines = .ok out) ↔
      Pktline.Fits (asBytes header) ∧ ∀ line ∈ lines, Pktline.Fits (asBytes line) := by
  unfold service
  constructor
  · intro h
    obtain ⟨out, h⟩ := h
    cases hheader : Pktline.dataToWrite (asBytes header) [] with
    | error e =>
      rw [hheader] at h
      cases h
    | ok first =>
      rw [hheader] at h
      cases hlines : Pktline.writeAll Pktline.dataToWrite (lines.map asBytes) (Pktline.flushToWrite first) with
      | error e =>
        simp only [bind, Except.bind, hlines] at h
        cases h
      | ok out' =>
        have hall := Pktline.writeAll_data_ok_iff.1 ⟨out', hlines⟩
        exact ⟨Pktline.dataToWrite_ok_iff.1 ⟨first, hheader⟩, fun line hline => hall _ (List.mem_map_of_mem hline)⟩
  · intro h
    obtain ⟨hheader, hlines⟩ := h
    have hall : ∀ l ∈ lines.map asBytes, Pktline.Fits l := by
      intro l hl
      obtain ⟨line, hline, rfl⟩ := List.mem_map.1 hl
      exact hlines line hline
    simp only [bind, Except.bind, Pktline.dataToWrite_fits hheader, Pktline.writeAll_data hall]
    exact ⟨_, rfl⟩

theorem fits_of_le {text : String} {n : Nat} (h : (asBytes text).length = n) (hpos : 0 < n)
    (hle : n ≤ Pktline.MAX_DATA_LEN) : Pktline.Fits (asBytes text) :=
  ⟨List.ne_nil_of_length_pos (by omega), by omega⟩

/-! ## Lines -/

theorem length_plainLine (oid : ObjectId) (name : String) :
    (asBytes (oid.toHex ++ " " ++ name ++ "\n")).length = 2 * oid.kind.lenInBytes + (asBytes name).length + 2 := by
  have hspace : (asBytes " ").length = 1 := by decide
  have hlf : (asBytes "\n").length = 1 := by decide
  simp only [asBytes_append, List.length_append, ObjectId.length_toHex, hspace, hlf]
  omega

theorem length_capsLine (oid : ObjectId) (name caps : String) :
    (asBytes (oid.toHex ++ " " ++ name ++ "\x00" ++ caps ++ "\n")).length =
      2 * oid.kind.lenInBytes + (asBytes name).length + (asBytes caps).length + 3 := by
  have hspace : (asBytes " ").length = 1 := by decide
  have hnul : (asBytes "\x00").length = 1 := by decide
  have hlf : (asBytes "\n").length = 1 := by decide
  simp only [asBytes_append, List.length_append, ObjectId.length_toHex, hspace, hnul, hlf]
  omega

theorem length_peeledLine (peeled : ObjectId) (name : String) :
    (asBytes (peeled.toHex ++ " " ++ name ++ "^\x7b\x7d\n")).length =
      2 * peeled.kind.lenInBytes + (asBytes name).length + 5 := by
  have hspace : (asBytes " ").length = 1 := by decide
  have hmark : (asBytes "^\x7b\x7d\n").length = 4 := by decide
  simp only [asBytes_append, List.length_append, ObjectId.length_toHex, hspace, hmark]
  omega

theorem fits_noRefsLine (objectFormat : HashKind) {caps : String} (h : (asBytes caps).length ≤ 200) :
    Pktline.Fits (asBytes (noRefsLine objectFormat caps)) := by
  have hname : (asBytes " capabilities^\x7b\x7d\x00").length = 17 := by decide
  have hlf : (asBytes "\n").length = 1 := by decide
  have hlen : (asBytes (noRefsLine objectFormat caps)).length =
      2 * (nullId objectFormat).kind.lenInBytes + 17 + (asBytes caps).length + 1 := by
    simp only [noRefsLine, asBytes_append, List.length_append, ObjectId.length_toHex, hname, hlf]
  have hle := lenInBytes_le (nullId objectFormat).kind
  exact fits_of_le hlen (by omega) (by unfold Pktline.MAX_DATA_LEN; omega)

/-- The direct refs, in order. -/
def directRefs (refs : List (String × RefTarget)) : List (String × ObjectId) :=
  refs.filterMap fun entry => match entry.2 with
    | .direct oid => some (entry.1, oid)
    | .reference _ => none

/-- The line of a direct ref. -/
def plainLine (entry : String × ObjectId) : String := entry.2.toHex ++ " " ++ entry.1 ++ "\n"

/-- The line of the first one, with the capabilities. -/
def capsLine (caps : String) (entry : String × ObjectId) : String :=
  entry.2.toHex ++ " " ++ entry.1 ++ "\x00" ++ caps ++ "\n"

theorem receivePackLines_rest : ∀ refs : List (String × RefTarget),
    receivePackLines false refs = (directRefs refs).map plainLine
  | [] => rfl
  | (_, .reference _) :: refs => receivePackLines_rest refs
  | (name, .direct oid) :: refs => congrArg (plainLine (name, oid) :: ·) (receivePackLines_rest refs)

theorem receivePackLines_eq : ∀ refs : List (String × RefTarget),
    receivePackLines true refs = match directRefs refs with
      | [] => []
      | first :: rest => capsLine receivePackCaps first :: rest.map plainLine
  | [] => rfl
  | (_, .reference _) :: refs => receivePackLines_eq refs
  | (name, .direct oid) :: refs => congrArg (capsLine receivePackCaps (name, oid) :: ·) (receivePackLines_rest refs)

/-- The first direct ref leaves room for the capabilities. -/
def CapsFit (caps : String) (refs : SortedMap String RefTarget) : Prop :=
  ∀ first, (directRefs refs.entries).head? = some first →
    2 * first.2.kind.lenInBytes + (asBytes first.1).length + (asBytes caps).length + 3 ≤ Pktline.MAX_DATA_LEN

/-- Everything a client can ask to be advertised can be written. -/
def Advertisable (E : Env) (db : E.Db) (objectFormat : HashKind) : Prop :=
  (∀ args, ∃ body, E.run (UploadPack.buildLsRefs E args) db = some (.ok body, db)) ∧
  (∃ body, E.run (UploadPackV0.buildAdvertisement E objectFormat) db = some (.ok body, db)) ∧
  ∃ body, Advertise.receivePack db.refs.entries objectFormat = .ok body

/-! ## The lines a repository's refs make -/

section Pushed

variable {E : Env} {db : E.Db}

theorem mem_directRefs {refs : List (String × RefTarget)} {name : String} {oid : ObjectId} :
    (name, oid) ∈ directRefs refs ↔ (name, RefTarget.direct oid) ∈ refs := by
  constructor
  · intro h
    obtain ⟨⟨name', target⟩, hmem, heq⟩ := List.mem_filterMap.1 h
    cases target with
    | direct oid' =>
      cases heq
      exact hmem
    | reference inner => cases heq
  · intro h
    exact List.mem_filterMap.2 ⟨_, h, rfl⟩

/-- The name of a direct ref came in a line beside two ids. -/
theorem Pushable.width (hp : Pushable E db) {entry : String × ObjectId} (h : entry ∈ directRefs db.refs.entries) :
    2 * entry.2.kind.lenInBytes + 42 + (asBytes entry.1).length ≤ Pktline.MAX_DATA_LEN := by
  have hget : db.refs.get entry.1 = some (.direct entry.2) := SortedMap.mem_entries.1 (mem_directRefs.1 h)
  have hname : entry.1 ≠ HEAD_REF := by
    intro heq
    rw [heq, hp.pushed.head] at hget
    cases hget
  obtain ⟨oid, htarget, hwidth⟩ := hp.pushed.other _ _ hget hname
  cases htarget
  exact hwidth

theorem Pushable.fits_plainLine (hp : Pushable E db) {entry : String × ObjectId}
    (h : entry ∈ directRefs db.refs.entries) : Pktline.Fits (asBytes (plainLine entry)) := by
  have hwidth := hp.width h
  exact fits_of_le (length_plainLine entry.2 entry.1) (by omega) (by omega)

/-- A peeled line has one id, where the request had two. -/
theorem Pushable.fits_peeledLine (hp : Pushable E db) {entry : String × ObjectId}
    (h : entry ∈ directRefs db.refs.entries) (peeled : ObjectId) :
    Pktline.Fits (asBytes (peeled.toHex ++ " " ++ entry.1 ++ "^\x7b\x7d\n")) := by
  have hwidth := hp.width h
  have hle := lenInBytes_le peeled.kind
  have hge : 20 ≤ entry.2.kind.lenInBytes := by cases entry.2.kind <;> decide
  exact fits_of_le (length_peeledLine peeled entry.1) (by omega) (by omega)

theorem fits_capsLine_iff {caps : String} {entry : String × ObjectId} :
    Pktline.Fits (asBytes (capsLine caps entry)) ↔
      2 * entry.2.kind.lenInBytes + (asBytes entry.1).length + (asBytes caps).length + 3 ≤ Pktline.MAX_DATA_LEN := by
  have hlen := length_capsLine entry.2 entry.1 caps
  exact ⟨fun h => hlen ▸ h.2, fun h => fits_of_le hlen (by omega) h⟩

/-- The advertisement of receive-pack can be written if and only if its first
line has room for the capabilities. -/
theorem Pushable.receivePack_ok_iff (hp : Pushable E db) (objectFormat : HashKind) :
    (∃ body, Advertise.receivePack db.refs.entries objectFormat = .ok body) ↔ CapsFit receivePackCaps db.refs := by
  have hheader : Pktline.Fits (asBytes "# service=git-receive-pack\n") := ⟨by decide, by decide⟩
  rw [Advertise.receivePack, service_ok_iff, receivePackLines_eq, CapsFit]
  cases hrefs : directRefs db.refs.entries with
  | nil =>
    constructor
    · intro _ first h
      cases h
    · intro _
      refine ⟨hheader, fun line hline => ?_⟩
      rw [List.mem_singleton.1 hline]
      exact fits_noRefsLine objectFormat (by decide)
  | cons first rest =>
    constructor
    · intro h first' hfirst
      cases hfirst
      exact fits_capsLine_iff.1 (h.2 _ (List.mem_cons_self ..))
    · intro h
      refine ⟨hheader, fun line hline => ?_⟩
      rcases List.mem_cons.1 hline with rfl | hline
      · exact fits_capsLine_iff.2 (h first rfl)
      · obtain ⟨entry, hentry, rfl⟩ := List.mem_map.1 hline
        exact hp.fits_plainLine (by rw [hrefs]; exact List.mem_cons_of_mem _ hentry)

/-! ## The classic advertisement -/

/-- The refs other than `HEAD` are advertised with what they peel to. -/
theorem Pushable.uploadRefsAt_ok (hp : Pushable E db) : ∀ {refs : List (String × RefTarget)},
    (∀ entry ∈ refs, entry.1 ≠ HEAD_REF ∧ db.refs.get entry.1 = some entry.2) →
    ∃ rest, E.uploadRefsAt db refs = .ok rest ∧ rest.map (fun r => (r.name, r.oid)) = directRefs refs
  | [], _ => ⟨[], rfl, rfl⟩
  | (name, target) :: refs, h => by
    obtain ⟨hname, hget⟩ := h _ (List.mem_cons_self ..)
    obtain ⟨oid, rfl, -⟩ := hp.pushed.other name target hget hname
    obtain ⟨rest, hrest, hmap⟩ := hp.uploadRefsAt_ok fun entry hentry => h entry (List.mem_cons_of_mem _ hentry)
    obtain ⟨peeled, hpeel⟩ := hp.toSound.peelAt_ok oid
    refine ⟨⟨name, oid, peeled⟩ :: rest, ?_, congrArg ((name, oid) :: ·) hmap⟩
    have hfirst : E.uploadRefAt db name (.direct oid) = .ok (some ⟨name, oid, peeled⟩) := by
      rw [Env.uploadRefAt, resolution_direct]
      simp only [hpeel]
      rfl
    rw [Env.uploadRefsAt, hfirst]
    simp only [hrest]
    rfl

/-- Leaving `HEAD` out leaves the direct refs as they are. -/
theorem Pushable.directRefs_rest (hp : Pushable E db) :
    directRefs (db.refs.entries.filter fun entry => entry.1 ≠ HEAD_REF) = directRefs db.refs.entries := by
  rw [directRefs, directRefs, List.filterMap_filter]
  refine List.filterMap_congr fun entry hentry => ?_
  obtain ⟨name, target⟩ := entry
  by_cases hname : name = HEAD_REF
  · have hget := SortedMap.mem_entries.1 hentry
    rw [hname, hp.pushed.head] at hget
    cases hget
    simp [hname]
  · simp [hname]

/-- `HEAD` resolves when the default branch is there. -/
theorem Pushable.headAt (hp : Pushable E db) :
    (db.refs.get DEFAULT_BRANCH = none → E.headAt db (db.refs.get HEAD_REF) = ([], none)) ∧
      ∀ target, db.refs.get DEFAULT_BRANCH = some target →
        ∃ oid, E.headAt db (db.refs.get HEAD_REF) = ([⟨HEAD_REF, oid, none⟩], some DEFAULT_BRANCH) := by
  constructor
  · intro hnone
    have hres : E.resolution db (.reference DEFAULT_BRANCH) = .dangling := by
      simp only [Env.resolution, MAX_SYMREF_DEPTH, resolutionFrom, hnone]
    simp only [hp.pushed.head, Env.headAt, hres]
  · intro target hget
    obtain ⟨oid, rfl, -⟩ := hp.pushed.other _ _ hget (by decide)
    have hres : E.resolution db (.reference DEFAULT_BRANCH) = .resolved oid := by
      simp only [Env.resolution, MAX_SYMREF_DEPTH, resolutionFrom, hget]
    exact ⟨oid, by simp only [hp.pushed.head, Env.headAt, hres]⟩

theorem UploadRef.mem_lines {r : UploadRef} {line : String} (h : line ∈ r.lines none) :
    line = plainLine (r.name, r.oid) ∨ ∃ peeled : ObjectId, line = peeled.toHex ++ " " ++ r.name ++ "^\x7b\x7d\n" := by
  obtain ⟨name, oid, peeled⟩ := r
  cases peeled with
  | none => exact .inl (List.mem_singleton.1 h)
  | some peeled =>
    rcases List.mem_cons.1 h with h | h
    · exact .inl h
    · exact .inr ⟨peeled, List.mem_singleton.1 h⟩

/-- A ref after the first has lines that fit. -/
theorem Pushable.fits_restLines (hp : Pushable E db) {r : UploadRef} (h : (r.name, r.oid) ∈ directRefs db.refs.entries)
    {line : String} (hline : line ∈ r.lines none) : Pktline.Fits (asBytes line) := by
  rcases UploadRef.mem_lines hline with heq | ⟨peeled, heq⟩
  · rw [heq]
    exact hp.fits_plainLine h
  · rw [heq]
    exact hp.fits_peeledLine h peeled

/-- The advertisement is written if its lines are. -/
theorem run_buildAdvertisement_iff {refs : List UploadRef} {symref : Option String} {objectFormat : HashKind}
    (h : E.run (UploadPackV0.advertised E) db = some (.ok (refs, symref), db)) :
    (∃ body, E.run (UploadPackV0.buildAdvertisement E objectFormat) db = some (.ok body, db)) ↔
      ∃ body, uploadPackV0 refs symref objectFormat = .ok body := by
  have hrun : E.run (UploadPackV0.buildAdvertisement E objectFormat) db =
      some ((uploadPackV0 refs symref objectFormat).mapError .io, db) :=
    (Prog.run_bind_ok h).trans (Prog.run_ofExcept ..)
  rw [hrun]
  cases uploadPackV0 refs symref objectFormat with
  | ok body => exact ⟨fun _ => ⟨body, rfl⟩, fun _ => ⟨body, rfl⟩⟩
  | error e =>
    constructor
    · rintro ⟨body, h⟩
      cases h
    · rintro ⟨body, h⟩
      cases h

/-- The classic advertisement can be written if and only if `HEAD` resolves,
or its first line has room for the capabilities. -/
theorem Pushable.buildAdvertisement_ok_iff (hp : Pushable E db) (objectFormat : HashKind) :
    (∃ body, E.run (UploadPackV0.buildAdvertisement E objectFormat) db = some (.ok body, db)) ↔
      (db.refs.get DEFAULT_BRANCH = none → CapsFit (uploadPackCaps none) db.refs) := by
  obtain ⟨rest, hrest, hmap⟩ := @Pushable.uploadRefsAt_ok E db hp
    (db.refs.entries.filter fun entry => entry.1 ≠ HEAD_REF) fun entry hentry => by
      obtain ⟨hmem, hname⟩ := List.mem_filter.1 hentry
      exact ⟨by simpa using hname, SortedMap.mem_entries.1 hmem⟩
  rw [hp.directRefs_rest] at hmap
  have hmem : ∀ r ∈ rest, (r.name, r.oid) ∈ directRefs db.refs.entries := by
    intro r hr
    rw [← hmap]
    exact List.mem_map_of_mem hr
  have hheader : Pktline.Fits (asBytes "# service=git-upload-pack\n") := ⟨by decide, by decide⟩
  have hadvertised := run_advertised hp.toIntact
  rw [hrest, Except.map] at hadvertised
  obtain ⟨hunborn, hborn⟩ := hp.headAt
  rw [run_buildAdvertisement_iff hadvertised, uploadPackV0, service_ok_iff]
  cases hdefault : db.refs.get DEFAULT_BRANCH with
  | some target =>
    obtain ⟨oid, hhead⟩ := hborn target hdefault
    rw [hhead]
    refine ⟨fun _ => nofun, fun _ => ⟨hheader, fun line hline => ?_⟩⟩
    rcases List.mem_append.1 hline with hline | hline
    · rw [List.mem_singleton.1 hline]
      refine (@fits_capsLine_iff (uploadPackCaps (some DEFAULT_BRANCH)) (HEAD_REF, oid)).2 ?_
      have hcaps : (asBytes (uploadPackCaps (some DEFAULT_BRANCH))).length = 104 := by decide
      have hhead : (asBytes HEAD_REF).length = 4 := by decide
      have hle := lenInBytes_le oid.kind
      simp only [hcaps, hhead, Pktline.MAX_DATA_LEN]
      omega
    · obtain ⟨r, hr, hline⟩ := List.mem_flatMap.1 hline
      exact hp.fits_restLines (hmem r hr) hline
  | none =>
    rw [hunborn hdefault, List.nil_append]
    simp only [forall_const, CapsFit, ← hmap]
    cases rest with
    | nil =>
      constructor
      · intro _ first h
        cases h
      · intro _
        refine ⟨hheader, fun line hline => ?_⟩
        rw [List.mem_singleton.1 hline]
        exact fits_noRefsLine objectFormat (by decide)
    | cons first rest =>
      constructor
      · intro h first' hfirst
        cases hfirst
        exact fits_capsLine_iff.1 (h.2 _ (List.mem_append_left _ (List.mem_cons_self ..)))
      · intro h
        have hcaps : Pktline.Fits (asBytes (capsLine (uploadPackCaps none) (first.name, first.oid))) :=
          fits_capsLine_iff.2 (h _ rfl)
        refine ⟨hheader, fun line hline => ?_⟩
        rcases List.mem_append.1 hline with hline | hline
        · rcases List.mem_cons.1 hline with rfl | hline
          · exact hcaps
          · exact hp.fits_restLines (hmem first (List.mem_cons_self ..)) (List.mem_cons_of_mem _ hline)
        · obtain ⟨r, hr, hline⟩ := List.mem_flatMap.1 hline
          exact hp.fits_restLines (hmem r (List.mem_cons_of_mem _ hr)) hline

/-- `ls-refs` can be written, whatever is asked for, if and only if the lines
of the refs to tags have room for what they peel to. -/
theorem Pushable.buildLsRefs_ok_iff (hp : Pushable E db) :
    (∀ args, ∃ body, E.run (UploadPack.buildLsRefs E args) db = some (.ok body, db)) ↔ PeeledFits E db := by
  constructor
  · intro h
    obtain ⟨body, hrun⟩ := h peelArgs
    obtain ⟨entries, hentries⟩ := hp.lsRefsAt_ok peelArgs
    obtain ⟨refs, -, hrefs, -, x, hx, hbody⟩ := run_buildLsRefs hp.toIntact peelArgs
    cases hrun.symm.trans hx
    rw [hrefs rfl, hentries] at hbody
    exact peeledFits_of_fits hentries rfl (readLsRefs_body hbody.symm).1
  · intro hpeeled args
    obtain ⟨refs, hmem, -, -, x, hx, hbody⟩ := run_buildLsRefs hp.toIntact args
    obtain ⟨entries, hentries⟩ := @Miscreant.lsRefsAt_ok E db args refs fun name target _ =>
      hp.toSound.lsRefAt_ok args name target
    rw [hentries] at hbody
    obtain ⟨body, hok⟩ := @lsRefsBody_ok entries fun r hr => by
      obtain ⟨name, target, hname, hat⟩ := (mem_lsRefsAt hentries).1 hr
      exact hp.fits_entry (fun _ => hpeeled) (hmem name target hname) hat
    exact ⟨body, by rw [hx, hbody, hok]⟩

end Pushed

/-- **What can be advertised.** In every repository requests have been made
to, all advertisements can be written if and only if the lines of the refs to
tags have room for what they peel to, and the first direct ref has room for
the capabilities of receive-pack and, as long as the default branch is unborn,
for those of upload-pack. -/
theorem advertisable_iff {E : Env} {G : GixPack} (hcodec : E.codec = .bytes) (hG : G.Hashed E) {db : E.Db}
    (h : Hosted E G db) (objectFormat : HashKind) :
    Advertisable E db objectFormat ↔ PeeledFits E db ∧ CapsFit receivePackCaps db.refs ∧
      (db.refs.get DEFAULT_BRANCH = none → CapsFit (uploadPackCaps none) db.refs) := by
  have hp := h.pushable hcodec hG
  rw [Advertisable, hp.buildLsRefs_ok_iff, hp.buildAdvertisement_ok_iff, hp.receivePack_ok_iff]
  exact and_congr_right fun _ => and_comm

namespace Sample

/-- A repository with a tag under one name. -/
theorem directRefs_tag {name : String} {db : env.Db}
    (hrefs : db.refs.get = Function.update (newRepository : env.Db).refs.get name (some (.direct tagId))) :
    (directRefs db.refs.entries).head? = some (name, tagId) := by
  have hmem : (name, tagId) ∈ directRefs db.refs.entries :=
    mem_directRefs.2 (SortedMap.mem_entries.2 (by rw [hrefs, Function.update_self]))
  cases hlist : directRefs db.refs.entries with
  | nil =>
    rw [hlist] at hmem
    cases hmem
  | cons first rest =>
    have hfirst : first ∈ directRefs db.refs.entries := by
      rw [hlist]
      exact List.mem_cons_self ..
    rcases tag_refs hrefs (SortedMap.mem_entries.1 (mem_directRefs.1 hfirst)) with ⟨hsame, htag⟩ | ⟨-, href⟩
    · rw [← hsame, ← RefTarget.direct.inj htag]
      rfl
    · cases href

/-- The capabilities fit behind a name of the usual length. -/
theorem capsFit_tag {name caps : String}
    (hlen : (asBytes name).length + (asBytes caps).length ≤ 65400) {db : env.Db}
    (hrefs : db.refs.get = Function.update (newRepository : env.Db).refs.get name (some (.direct tagId))) :
    CapsFit caps db.refs := by
  intro first hfirst
  cases (directRefs_tag hrefs).symm.trans hfirst
  have htag : tagId.kind.lenInBytes = 20 := rfl
  simp only [htag, Pktline.MAX_DATA_LEN]
  omega

/-- A branch with a long name. -/
def longName : String := "refs/heads/" ++ String.ofList (List.replicate 65409 'a')

theorem asBytes_longName : asBytes longName = asBytes "refs/heads/" ++ List.replicate 65409 97 := by
  have hchar : String.utf8EncodeChar 'a' = [97] := by decide
  have hflat : asBytes (String.ofList (List.replicate 65409 'a')) = List.replicate 65409 97 := by
    rw [asBytes_ofList, List.flatMap_replicate, hchar, List.flatten_replicate_singleton]
  rw [longName, asBytes_append, hflat]

theorem length_longName : (asBytes longName).length = 65420 := by
  have hheads : (asBytes "refs/heads/").length = 11 := by decide
  rw [asBytes_longName, List.length_append, List.length_replicate, hheads]

theorem requested_longName :
    ∃ db, Hosted env packs db ∧
      db.refs.get = Function.update (newRepository : env.Db).refs.get longName (some (.direct tagId)) := by
  have hne : ∀ {name : String}, (asBytes name).length < 65420 → longName ≠ name := by
    intro name hlt heq
    rw [← heq, length_longName] at hlt
    omega
  have hnul : (0 : UInt8) ∉ asBytes longName := by
    rw [asBytes_longName]
    intro hmem
    rcases List.mem_append.1 hmem with hmem | hmem
    · revert hmem
      decide
    · cases List.eq_of_mem_replicate hmem
  exact requested_tag (hne (by decide)) hnul (by rw [length_longName]; omega) (hne (by decide))

end Sample

/-- A tag under a short name. -/
theorem advertisable_sample :
    ∃ db, Hosted Sample.env Sample.packs db ∧ db.refs.get "refs/tags/v" = some (.direct Sample.tagId) ∧
      Advertisable Sample.env db .sha1 := by
  obtain ⟨db, hhosted, hrefs⟩ := @Sample.requested_tag "refs/tags/v" (by decide) (by decide) (by decide) (by decide)
  refine ⟨db, hhosted, by rw [hrefs, Function.update_self], ?_⟩
  exact (advertisable_iff rfl Sample.packs_hashed hhosted .sha1).2 ⟨Sample.peeledFits_tag (by decide) hrefs,
    Sample.capsFit_tag (by decide) hrefs, fun _ => Sample.capsFit_tag (by decide) hrefs⟩

/-- A long name is pushed, and the repository has no room for the capabilities
any more: not even a push that deletes the ref can be negotiated. -/
theorem unadvertisable :
    ∃ db, Hosted Sample.env Sample.packs db ∧ db.refs.get Sample.longName = some (.direct Sample.tagId) ∧
      ∀ objectFormat, (¬ ∃ body, Advertise.receivePack db.refs.entries objectFormat = .ok body) ∧
        ¬ Advertisable Sample.env db objectFormat := by
  obtain ⟨db, hhosted, hrefs⟩ := Sample.requested_longName
  have hp := hhosted.pushable rfl Sample.packs_hashed
  refine ⟨db, hhosted, by rw [hrefs, Function.update_self], fun objectFormat => ?_⟩
  have hfail : ¬ ∃ body, Advertise.receivePack db.refs.entries objectFormat = .ok body := by
    rw [hp.receivePack_ok_iff]
    intro hfit
    have hroom := hfit _ (Sample.directRefs_tag hrefs)
    have hcaps : (asBytes receivePackCaps).length = 71 := by decide
    have htag : Sample.tagId.kind.lenInBytes = 20 := rfl
    simp only [Sample.length_longName, hcaps, htag, Pktline.MAX_DATA_LEN] at hroom
    omega
  exact ⟨hfail, fun h => hfail h.2.2⟩

end Miscreant
