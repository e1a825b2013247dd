/-
What the requests do to their repositories, they do on the shared store.

`Slate.Shows` says what of the shared store is a repository's: its keys are
those of its records and refs, and their values decode to them. Each operation
keeps it for all repositories at once (`carried_onSlate`), and so does a ref
transaction, which is begun and committed where the repository's own is, its
reads and writes between (`updateAll_starts`). The two levels count their
commits apart: a transaction has the age of its counterpart as long as the
refs committed since its begin are the same on both (`SameAge`).
-/
import Miscreant.OnSlate
import Miscreant.ScanFacts
import Miscreant.IsolationFacts
import Miscreant.ReceivePackFacts

namespace Miscreant

open Lib

namespace Slate

/-! ## What is a repository's -/

/-- The refs of the repository in the map: their values, and no other keys in
their segment. -/
structure ShowsRefs (repo : RepoId) (refs : SortedMap String RefTarget) (m : SortedMap Bytes Bytes) : Prop where
  get : ∀ name, m.get (refKey repo name) = (refs.get name).map RefTarget.encode
  named : ∀ key bytes, m.get key = some bytes → segmentPrefix repo .ref <+: key → ∃ name, key = refKey repo name

/-- What the shared store has of a repository. -/
structure Shows (repo : RepoId) (db : Db Bytes) (s : Slate) : Prop where
  objects : ∀ oid, s.kv.data.get (objectKey repo oid) = (db.objects oid).map ObjectRecord.encode
  sized : ∀ oid record, db.objects oid = some record → record.size < 2 ^ 64
  graph : ∀ oid, s.kv.data.get (commitKey repo oid) = db.graph oid
  refs : ShowsRefs repo db.refs s.kv.data
  blobs : ∀ oid, s.blobs (blobPath oid) = db.blobs oid
  dated : db.Dated
  kvDated : s.kv.Dated

theorem Shows.objects_isSome {repo : RepoId} {db : Db Bytes} {s : Slate} (h : Shows repo db s) (oid : ObjectId) :
    (db.objects oid).isSome = (s.kv.data.get (objectKey repo oid)).isSome := by
  rw [h.objects, Option.isSome_map]

/-- The refs committed since the commit `v` of the repository are those
committed since the commit `w` of the store. -/
def SameAge (repo : RepoId) (v w : Nat) (db : Db Bytes) (s : Slate) : Prop :=
  ∀ name, v < db.refVersion name ↔ w < s.kv.changed (refKey repo name)

/-- Commits come after those there were, and a transaction's age stays the
same. -/
structure Advances (repo : RepoId) (db : Db Bytes) (s : Slate) (db' : Db Bytes) (s' : Slate) : Prop where
  version : db.version ≤ db'.version
  kvVersion : s.kv.version ≤ s'.kv.version
  ages : ∀ v w, v ≤ db.version → w ≤ s.kv.version → SameAge repo v w db s → SameAge repo v w db' s'

theorem Advances.refl {repo : RepoId} (db : Db Bytes) (s : Slate) : Advances repo db s db s :=
  ⟨le_rfl, le_rfl, fun _ _ _ _ h => h⟩

theorem Advances.trans {repo : RepoId} {db₁ db₂ db₃ : Db Bytes} {s₁ s₂ s₃ : Slate} (h : Advances repo db₁ s₁ db₂ s₂)
    (h' : Advances repo db₂ s₂ db₃ s₃) : Advances repo db₁ s₁ db₃ s₃ where
  version := h.version.trans h'.version
  kvVersion := h.kvVersion.trans h'.kvVersion
  ages v w hv hw hage := h'.ages v w (hv.trans h.version) (hw.trans h.kvVersion) (h.ages v w hv hw hage)

/-- What the shared store has of all repositories. -/
def ShowsAll (host : Host) (s : Slate) : Prop := ∀ repo, Shows repo (host.db repo) s

/-- What the repositories' programs do to both levels. The metadata, and with
it the registry, is not theirs. -/
structure Moves (host : Host) (s : Slate) (host' : Host) (s' : Slate) : Prop where
  advances : ∀ repo, Advances repo (host.db repo) s (host'.db repo) s'
  metadata : ∀ repo name, s'.kv.data.get (metaKey repo name) = s.kv.data.get (metaKey repo name)

theorem Moves.refl (host : Host) (s : Slate) : Moves host s host s := ⟨fun _ => .refl _ _, fun _ _ => rfl⟩

theorem Moves.trans {host₁ host₂ host₃ : Host} {s₁ s₂ s₃ : Slate} (h : Moves host₁ s₁ host₂ s₂)
    (h' : Moves host₂ s₂ host₃ s₃) : Moves host₁ s₁ host₃ s₃ :=
  ⟨fun repo => (h.advances repo).trans (h'.advances repo),
    fun repo name => (h'.metadata repo name).trans (h.metadata repo name)⟩

/-- The repositories' own stores over the shared one. -/
def levels : Levels hostSig slateSig Host Slate where
  upper := Host.handler
  lower := handler
  Rel := ShowsAll
  Moves := Moves
  refl := Moves.refl
  trans := Moves.trans

variable {repo : RepoId} {db : Db Bytes} {host : Host} {s : Slate}

/-! ## Writes of one repository -/

/-- The key is of the repository's objects, refs or commits. -/
def IsDataKeyOf (repo : RepoId) (key : Bytes) : Prop :=
  ∃ segment rest, segment ≠ .metadata ∧ key = encodePreamble repo segment ++ rest

theorem IsDataKeyOf.isKeyOf {key : Bytes} (h : IsDataKeyOf repo key) : IsKeyOf repo key := by
  obtain ⟨segment, rest, -, heq⟩ := h
  exact ⟨segment, rest, heq⟩

theorem isDataKeyOf_refKey (repo : RepoId) (name : String) : IsDataKeyOf repo (refKey repo name) :=
  ⟨.ref, _, by decide, rfl⟩

section Frame

variable {writes : List (Bytes × Option Bytes)}

/-- Writes to one repository leave what is another's. -/
theorem Shows.frame {repo' : RepoId} (h : Shows repo' db s) (hw : ∀ w ∈ writes, IsKeyOf repo w.1) (hne : repo' ≠ repo) :
    Shows repo' db { s with kv := s.kv.commit writes } where
  objects oid := (get_commit_other hw hne (isKeyOf_objectKey _ _)).trans (h.objects oid)
  sized := h.sized
  graph oid := (get_commit_other hw hne (isKeyOf_commitKey _ _)).trans (h.graph oid)
  refs :=
    { get := fun name => (get_commit_other hw hne (isKeyOf_refKey _ _)).trans (h.refs.get name)
      named := by
        intro key bytes hget hkey
        have hof : IsKeyOf repo' key := isKeyOf_of_segmentPrefix (List.isPrefixOf_iff_prefix.2 hkey)
        exact h.refs.named key bytes ((get_commit_other hw hne hof).symm.trans hget) hkey }
  blobs := h.blobs
  dated := h.dated
  kvDated := h.kvDated.commit _

theorem advances_frame {repo' : RepoId} (hw : ∀ w ∈ writes, IsKeyOf repo w.1) (hne : repo' ≠ repo) :
    Advances repo' db s db { s with kv := s.kv.commit writes } where
  version := le_rfl
  kvVersion := Nat.le_succ _
  ages v w _ _ hage name := by
    have hkey : refKey repo' name ∉ writes.map Prod.fst := by
      intro hmem
      obtain ⟨w, hmem, heq⟩ := List.mem_map.1 hmem
      exact hne ((isKeyOf_refKey repo' name).unique (heq ▸ hw w hmem))
    rw [hage name, Kv.changed_commit_of_not_mem hkey]

/-- Writes of one repository, to all of them. -/
theorem moves_commit {db' : Db Bytes} (h : ShowsAll host s) (hw : ∀ w ∈ writes, IsDataKeyOf repo w.1)
    (hblobs : db'.blobs = host.blobs) (hshows : Shows repo db' { s with kv := s.kv.commit writes })
    (hadvances : Advances repo (host.db repo) s db' { s with kv := s.kv.commit writes }) :
    ShowsAll (host.set repo db') { s with kv := s.kv.commit writes } ∧
      Moves host s (host.set repo db') { s with kv := s.kv.commit writes } := by
  have hother : ∀ {repo'}, repo' ≠ repo → (host.set repo db').db repo' = host.db repo' := by
    intro repo' hne
    rw [Host.db_set_other host hne, hblobs]
    rfl
  have hkeys : ∀ w ∈ writes, IsKeyOf repo w.1 := fun w hmem => (hw w hmem).isKeyOf
  refine ⟨fun repo' => ?_, fun repo' => ?_, fun repo' name => ?_⟩
  · by_cases heq : repo' = repo
    · rw [heq, Host.db_set_self]
      exact hshows
    · rw [hother heq]
      exact (h repo').frame hkeys heq
  · by_cases heq : repo' = repo
    · rw [heq, Host.db_set_self]
      exact hadvances
    · rw [hother heq]
      exact advances_frame hkeys heq
  · refine overlay_of_not_mem fun hmem => ?_
    obtain ⟨w, hmem, heq⟩ := List.mem_map.1 hmem
    obtain ⟨segment, rest, hsegment, hkey⟩ := hw w hmem
    exact hsegment (preamble_inj (hkey.symm.trans heq)).2.1

end Frame

/-! ## Single writes -/

section Put

variable {segment segment' : Segment}

/-- A write leaves the keys of other segments. -/
theorem get_put_other {repo' : RepoId} (h : segment' ≠ segment) (rest rest' value : Bytes) :
    (s.kv.commit [(encodePreamble repo segment ++ rest, some value)]).data.get
        (encodePreamble repo' segment' ++ rest') =
      s.kv.data.get (encodePreamble repo' segment' ++ rest') := by
  rw [get_commit_single, if_neg]
  exact fun heq => h (preamble_inj heq).2.1

theorem ShowsRefs.put {refs : SortedMap String RefTarget} (h : ShowsRefs repo refs s.kv.data)
    (hsegment : segment ≠ .ref) (rest value : Bytes) :
    ShowsRefs repo refs (s.kv.commit [(encodePreamble repo segment ++ rest, some value)]).data where
  get name := (get_put_other hsegment.symm rest (asBytes name) value).trans (h.get name)
  named key bytes hget hkey := by
    obtain ⟨rest', rfl⟩ := hkey
    rw [segmentPrefix, get_put_other hsegment.symm] at hget
    exact h.named _ bytes hget (List.prefix_append ..)

/-- A write of a key of another segment leaves the age of the refs. -/
theorem advances_put {db' : Db Bytes} (hversion : db'.version = db.version) (hrefs : db'.refVersion = db.refVersion)
    (hsegment : segment ≠ .ref) (rest value : Bytes) :
    Advances repo db s db' { s with kv := s.kv.commit [(encodePreamble repo segment ++ rest, some value)] } where
  version := hversion.ge
  kvVersion := Nat.le_succ _
  ages v w _ _ hage name := by
    have hkey : refKey repo name ∉ [(encodePreamble repo segment ++ rest, some value)].map Prod.fst := by
      rw [List.map_singleton, List.mem_singleton]
      exact fun heq => hsegment (preamble_inj heq).2.1.symm
    rw [hrefs, hage name, Kv.changed_commit_of_not_mem hkey]

end Put

theorem Shows.putObject (h : Shows repo db s) (oid : ObjectId) {record : ObjectRecord} (hsize : record.size < 2 ^ 64) :
    Shows repo (db.apply (.object oid record))
      { s with kv := s.kv.commit [(objectKey repo oid, some record.encode)] } where
  objects oid' := by
    rw [get_commit_single]
    show _ = (Function.update db.objects oid (some record) oid').map _
    by_cases heq : oid' = oid
    · rw [heq, if_pos rfl, Function.update_self, Option.map_some]
    · rw [if_neg (by simpa using heq), Function.update_of_ne heq]
      exact h.objects oid'
  sized oid' record' hrecord := by
    change Function.update db.objects oid (some record) oid' = some record' at hrecord
    by_cases heq : oid' = oid
    · rw [heq, Function.update_self] at hrecord
      cases hrecord
      exact hsize
    · rw [Function.update_of_ne heq] at hrecord
      exact h.sized oid' record' hrecord
  graph oid' := (get_put_other (by decide) _ _ _).trans (h.graph oid')
  refs := h.refs.put (by decide) _ _
  blobs := h.blobs
  dated := h.dated
  kvDated := h.kvDated.commit _

theorem Shows.putGraph (h : Shows repo db s) (oid : ObjectId) (value : Bytes) :
    Shows repo (db.apply (.graph oid value)) { s with kv := s.kv.commit [(commitKey repo oid, some value)] } where
  objects oid' := (get_put_other (by decide) _ _ _).trans (h.objects oid')
  sized := h.sized
  graph oid' := by
    rw [get_commit_single]
    show _ = Function.update db.graph oid (some value) oid'
    by_cases heq : oid' = oid
    · rw [heq, if_pos rfl, Function.update_self]
    · rw [if_neg (by simpa using heq), Function.update_of_ne heq]
      exact h.graph oid'
  refs := h.refs.put (by decide) _ _
  blobs := h.blobs
  dated := h.dated
  kvDated := h.kvDated.commit _

theorem Shows.putBlob (h : Shows repo db s) (oid : ObjectId) (bytes : Bytes) :
    Shows repo { db with blobs := Function.update db.blobs oid (some bytes) }
      { s with blobs := Function.update s.blobs (blobPath oid) (some bytes) } where
  objects := h.objects
  sized := h.sized
  graph := h.graph
  refs := h.refs
  blobs oid' := by
    dsimp only
    by_cases heq : oid' = oid
    · rw [heq, Function.update_self, Function.update_self]
    · rw [Function.update_of_ne heq, Function.update_of_ne (blobPath_injective.ne heq)]
      exact h.blobs oid'
  dated := h.dated
  kvDated := h.kvDated

/-! ## Single reads -/

theorem ShowsRefs.refAt_iff {refs : SortedMap String RefTarget} (h : ShowsRefs repo refs s.kv.data) {name : String}
    {target : RefTarget} : RefAt s repo name target ↔ refs.get name = some target := by
  constructor
  · intro hat
    obtain ⟨bytes, hget, hdecode⟩ := hat
    rw [h.get name] at hget
    obtain ⟨target', hget', rfl⟩ := Option.map_eq_some_iff.1 hget
    rw [RefTarget.decode_encode] at hdecode
    cases hdecode
    exact hget'
  · intro hget
    exact ⟨target.encode, by rw [h.get, hget]; rfl, RefTarget.decode_encode target⟩

/-- What a repository's refs are stored as can be read. -/
theorem ShowsRefs.decodeRef_ok {refs : SortedMap String RefTarget} (h : ShowsRefs repo refs s.kv.data)
    {entry : Bytes × Bytes} (hmem : entry ∈ s.kv.data.entries) (hstart : segmentPrefix repo .ref <+: entry.1) :
    ∃ ref, decodeRef entry = .ok ref := by
  have hget := SortedMap.mem_entries.1 hmem
  obtain ⟨name, hname⟩ := h.named _ _ hget hstart
  rw [hname, h.get name] at hget
  obtain ⟨target, -, hvalue⟩ := Option.map_eq_some_iff.1 hget
  exact ⟨(name, target), Slate.decodeRef_ok.2 ⟨⟨repo, hname⟩, by rw [← hvalue, RefTarget.decode_encode]⟩⟩

/-- A scan of all the refs gives those of the repository. -/
theorem ShowsRefs.listRefs {refs : SortedMap String RefTarget} (h : ShowsRefs repo refs s.kv.data) :
    decodeRefs (s.kv.data.entries.filter fun e => (segmentPrefix repo .ref).isPrefixOf e.1) = .ok refs.entries := by
  cases hlist : decodeRefs (s.kv.data.entries.filter fun e => (segmentPrefix repo .ref).isPrefixOf e.1) with
  | error e =>
    obtain ⟨entry, hmem, herror⟩ := decodeRefs_error hlist
    rw [List.mem_filter, List.isPrefixOf_iff_prefix] at hmem
    obtain ⟨ref, hok⟩ := h.decodeRef_ok hmem.1 hmem.2
    cases hok.symm.trans herror
  | ok found =>
    have hexact := @exactRefs_of_decode s repo none found hlist
    have hsorted : found.Pairwise fun a b => a.1 < b.1 := hexact.sorted.imp fun hlt => asBytes_lt_iff.1 hlt
    refine congrArg _ (SortedMap.eq_of_mem_iff hsorted refs.sorted fun ref => ?_)
    obtain ⟨name, target⟩ := ref
    rw [hexact.mem, h.refAt_iff, SortedMap.mem_entries]
    exact and_iff_left fun p hp => by cases hp

/-! ## The operations -/

/-- The value read at a key, decoded. -/
def readValue {α : Type} (decode : Bytes → Except ValueError α) : Option Bytes → Except SlateError (Option α)
  | some bytes => (decode bytes).map some |>.mapError .value
  | none => .ok none

theorem getDecoded_eq {α : Type} (key : Bytes) (decode : Bytes → Except ValueError α) :
    getDecoded key decode =
      (Prog.op (SlateOp.get key) fun value => Prog.ofExcept (readValue decode value) :
        SlateProg SlateError (Option α)) := by
  refine congrArg (Prog.op (S := slateSig) (SlateOp.get key)) (funext fun value => ?_)
  cases value <;> rfl

theorem readValue_map {α : Type} {decode : Bytes → Except ValueError α} {encode : α → Bytes} {value : Option α}
    (h : ∀ a, value = some a → decode (encode a) = .ok a) : readValue decode (value.map encode) = .ok value := by
  cases value with
  | none => rfl
  | some a =>
    show ((decode (encode a)).map some).mapError _ = _
    rw [h a rfl]
    rfl

theorem host_read {o : StoreOp Bytes} (h : (Db.handler o (host.db repo)).2 = host.db repo) :
    (Host.handler (repo, o) host).2 = host := by
  show host.set repo (Db.handler o (host.db repo)).2 = host
  rw [h, Host.set_db]

theorem upper_eq {o : StoreOp Bytes} {ans : o.Ans} {db : Db Bytes} (h : Db.handler o (host.db repo) = (ans, db)) :
    levels.upper (repo, o) host = (ans, host.set repo db) :=
  congrArg (fun x => (x.1, host.set repo x.2)) h

/-- The operation of a repository that `l` carries out. -/
abbrev CarriedOut (repo : RepoId) (o : StoreOp Bytes) (l : SlateProg SlateError o.Ans) : Prop :=
  Prog.Carried (S := hostSig) levels (repo, o) l

/-- An operation that reads on both levels. -/
theorem carried_read (o : StoreOp Bytes) (o' : SlateOp) (read : o'.Ans → Except SlateError o.Ans)
    (hupper : ∀ db : Db Bytes, (Db.handler o db).2 = db) (hlower : ∀ s, (handler o' s).2 = s)
    (hread : ∀ db s, Shows repo db s → read (handler o' s).1 = .ok (Db.handler o db).1) :
    CarriedOut repo o (Prog.op o' fun b => Prog.ofExcept (read b)) := by
  refine Prog.Carried.one fun host s hr => ?_
  show read (handler o' s).1 = .ok (Db.handler o (host.db repo)).1 ∧
    ShowsAll (Host.handler (repo, o) host).2 (handler o' s).2 ∧
      Moves host s (Host.handler (repo, o) host).2 (handler o' s).2
  rw [host_read (hupper _), hlower]
  exact ⟨hread _ _ (hr repo), hr, Moves.refl host s⟩

/-- An operation that writes a key on the lower level. -/
theorem carried_put (o : StoreOp Bytes) (segment : Segment) (rest value : Bytes) (durability : Durability)
    (read : Unit → o.Ans) (hans : ∀ db : Db Bytes, (Db.handler o db).1 = read ()) (hmeta : segment ≠ .metadata)
    (hsegment : segment ≠ .ref)
    (hkeeps : ∀ db : Db Bytes, (Db.handler o db).2.blobs = db.blobs ∧ (Db.handler o db).2.version = db.version ∧
      (Db.handler o db).2.refVersion = db.refVersion)
    (hshows : ∀ db s, Shows repo db s →
      Shows repo (Db.handler o db).2 { s with kv := s.kv.commit [(encodePreamble repo segment ++ rest, some value)] }) :
    CarriedOut repo o (Prog.op (SlateOp.put (encodePreamble repo segment ++ rest) value durability) fun b =>
      Prog.ofExcept (.ok (read b))) := by
  refine Prog.Carried.one fun host s hr => ⟨congrArg Except.ok (hans _).symm, ?_⟩
  obtain ⟨hblobs, hversion, hrefs⟩ := hkeeps (host.db repo)
  refine moves_commit hr (fun w hw => ?_) hblobs (hshows _ s (hr repo)) (advances_put hversion hrefs hsegment _ _)
  rw [List.mem_singleton.1 hw]
  exact ⟨segment, rest, hmeta, rfl⟩

theorem carried_blobPut (repo : RepoId) (oid : ObjectId) (bytes : Bytes) :
    CarriedOut repo (.blobPut oid bytes) (blobPut oid bytes) := by
  show CarriedOut repo (.blobPut oid bytes)
    (Prog.op (SlateOp.blobPut (blobPath oid) bytes) fun b => Prog.ofExcept (.ok b))
  refine Prog.Carried.one fun host s hr => ⟨rfl, ?_⟩
  have hdb : ∀ repo', (Host.handler (repo, StoreOp.blobPut oid bytes) host).2.db repo' =
      { host.db repo' with blobs := Function.update host.blobs oid (some bytes) } := by
    intro repo'
    by_cases heq : repo' = repo
    · rw [heq]
      exact Host.db_set_self ..
    · exact Host.db_set_other host heq _
  refine ⟨fun repo' => ?_, fun repo' => ?_, fun _ _ => rfl⟩
  · show Shows repo' ((Host.handler (repo, StoreOp.blobPut oid bytes) host).2.db repo') _
    rw [hdb]
    exact (hr repo').putBlob oid bytes
  · show Advances repo' _ _ ((Host.handler (repo, StoreOp.blobPut oid bytes) host).2.db repo') _
    rw [hdb]
    exact ⟨le_rfl, le_rfl, fun _ _ _ _ h => h⟩

end Slate

/-- An operation outside of transactions, the record it writes of a size that
can be stored. -/
def StoreOp.Sized {V : Type} : StoreOp V → Prop
  | .putObject _ record _ => record.size < 2 ^ 64
  | .beginTxn | .commitTxn _ => False
  | _ => True

namespace Slate

variable {repo : RepoId} {host : Host} {s : Slate}

theorem carried_onSlate (repo : RepoId) {o : StoreOp Bytes} (ho : o.Sized) : CarriedOut repo o (o.onSlate repo) := by
  cases o with
  | getObject oid =>
    show CarriedOut repo (.getObject oid) (getDecoded _ _)
    rw [getDecoded_eq]
    refine carried_read (.getObject oid) (.get _) _ (fun _ => rfl) (fun _ => rfl) fun db s h => ?_
    show readValue _ (s.kv.data.get (objectKey repo oid)) = .ok (db.objects oid)
    rw [h.objects]
    exact readValue_map fun record hrecord => ObjectRecord.decode_encode (h.sized oid record hrecord)
  | putObject oid record durability =>
    exact carried_put (.putObject oid record durability) .object _ _ durability id (fun _ => rfl) (by decide)
      (by decide) (fun _ => ⟨rfl, rfl, rfl⟩) fun db s h => h.putObject oid ho
  | blobGet oid =>
    exact carried_read (.blobGet oid) (.blobGet _) .ok (fun _ => rfl) (fun _ => rfl) fun db s h =>
      congrArg Except.ok (h.blobs oid)
  | blobPut oid bytes => exact carried_blobPut repo oid bytes
  | getCommitGraph oid =>
    exact carried_read (.getCommitGraph oid) (.get _) .ok (fun _ => rfl) (fun _ => rfl) fun db s h =>
      congrArg Except.ok (h.graph oid)
  | putCommitGraph oid value durability =>
    exact carried_put (.putCommitGraph oid value durability) .commitGraph _ _ durability id (fun _ => rfl) (by decide)
      (by decide) (fun _ => ⟨rfl, rfl, rfl⟩) fun db s h => h.putGraph oid value
  | getRef name =>
    show CarriedOut repo (.getRef name) (getDecoded _ _)
    rw [getDecoded_eq]
    refine carried_read (.getRef name) (.get _) _ (fun _ => rfl) (fun _ => rfl) fun db s h => ?_
    show readValue _ (s.kv.data.get (refKey repo name)) = .ok (db.refs.get name)
    rw [h.refs.get]
    exact readValue_map fun target _ => RefTarget.decode_encode target
  | listRefs =>
    exact carried_read .listRefs (.scan _) decodeRefs (fun _ => rfl) (fun _ => rfl) fun db s h => h.refs.listRefs
  | flush =>
    exact Prog.Carried.none (S := hostSig) fun host => Prod.ext rfl (host_read (o := StoreOp.flush) rfl)
  | beginTxn => exact ho.elim
  | commitTxn txn => exact ho.elim

/-- What both levels answer. -/
def Answers {α : Type} (x : Except SlateError α) (y : Except Empty α) : Prop := x = y.mapError Empty.elim

theorem Answers.ok {α : Type} (a : α) : Answers (.ok a) (.ok a) := rfl

theorem Answers.eq {α : Type} {a b : α} (h : Answers (.ok b) (.ok a)) : b = a := Except.ok.inj h

/-- A program of a repository, outside of transactions. -/
theorem onSlate_starts {α : Type} {p : StoreProg Bytes Empty α} (hp : p.AllOps StoreOp.Sized) (repo : RepoId)
    (host : Host) (s : Slate) : (onSlate repo p).Starts levels Answers (p.inside repo) host s := by
  have hf : ∀ o : hostSig.Op, o.2.Sized → Prog.Carried levels o (o.2.onSlate o.1) := fun o ho => carried_onSlate o.1 ho
  have hstarts := Prog.Refines.carry Empty.elim hf (hp.inside repo) host s
  have hcarry : (p.inside repo).carry (fun o : hostSig.Op => o.2.onSlate o.1) Empty.elim = onSlate repo p :=
    Prog.carry_inside (fun o : hostSig.Op => o.2.onSlate o.1) Empty.elim repo p
  rw [hcarry] at hstarts
  exact hstarts

/-! ## Ref transactions -/

/-- A write of a ref transaction. -/
def refWrite (repo : RepoId) (w : String × Option RefTarget) : Bytes × Option Bytes :=
  (refKey repo w.1, w.2.map RefTarget.encode)

theorem ShowsRefs.set {refs : SortedMap String RefTarget} {m : SortedMap Bytes Bytes} (h : ShowsRefs repo refs m)
    (w : String × Option RefTarget) : ShowsRefs repo (setRef refs w) (setKey m (refWrite repo w)) where
  get name := by
    obtain ⟨name', target⟩ := w
    rw [get_setKey, get_setRef]
    by_cases heq : name = name'
    · rw [heq, Function.update_self]
      exact if_pos rfl
    · rw [Function.update_of_ne heq]
      exact (if_neg fun hkey => heq (refKey_inj.1 hkey).2).trans (h.get name)
  named key bytes hget hkey := by
    rw [get_setKey] at hget
    split at hget
    · rename_i heq
      exact ⟨w.1, heq⟩
    · exact h.named key bytes hget hkey

theorem ShowsRefs.overlay : ∀ (writes : List (String × Option RefTarget)) {refs : SortedMap String RefTarget}
    {m : SortedMap Bytes Bytes}, ShowsRefs repo refs m →
      ShowsRefs repo (writes.foldl setRef refs) (Lib.overlay m (writes.map (refWrite repo)))
  | [], _, _, h => h
  | w :: writes, _, _, h => ShowsRefs.overlay writes (h.set w)

/-- A transaction of the repository and the one it is carried out by. -/
structure Begun (repo : RepoId) (txn : RefTxn) (lower : SlateTxn) (db : Db Bytes) (s : Slate) : Prop where
  snapshot : ShowsRefs repo txn.snapshot lower.snapshot
  reads : lower.reads = txn.reads.map (refKey repo)
  writes : lower.writes = txn.writes.map (refWrite repo)
  version : txn.version ≤ db.version
  kvVersion : lower.version ≤ s.kv.version
  age : SameAge repo txn.version lower.version db s

namespace Begun

variable {db db' : Db Bytes} {s' : Slate} {txn : RefTxn} {lower : SlateTxn}

theorem start (h : Shows repo db s) : Begun repo ⟨db.refs, db.version, [], []⟩ s.kv.begin db s where
  snapshot := h.refs
  reads := rfl
  writes := rfl
  version := le_rfl
  kvVersion := le_rfl
  age name := ⟨fun hlt => absurd hlt (h.dated name).not_gt, fun hlt => absurd hlt (h.kvDated _).not_gt⟩

theorem advances (h : Begun repo txn lower db s) (hm : Advances repo db s db' s') : Begun repo txn lower db' s' :=
  { h with
    version := h.version.trans hm.version
    kvVersion := h.kvVersion.trans hm.kvVersion
    age := hm.ages _ _ h.version h.kvVersion h.age }

theorem read (h : Begun repo txn lower db s) (name : String) :
    Begun repo (txn.read name) (lower.read (refKey repo name)) db s :=
  { h with
    reads := by
      show lower.reads ++ [refKey repo name] = (txn.reads ++ [name]).map (refKey repo)
      rw [h.reads, List.map_append, List.map_singleton] }

theorem write (h : Begun repo txn lower db s) (name : String) (target : Option RefTarget) :
    Begun repo (txn.write name target) (lower.write (refKey repo name) (target.map RefTarget.encode)) db s :=
  { h with
    writes := by
      show lower.writes ++ [refWrite repo (name, target)] = (txn.writes ++ [(name, target)]).map (refWrite repo)
      rw [h.writes, List.map_append, List.map_singleton] }

theorem get (h : Begun repo txn lower db s) (name : String) :
    lower.get (refKey repo name) = (txn.get name).map RefTarget.encode := by
  rw [Txn.get, h.writes]
  exact (h.snapshot.overlay txn.writes).get name

/-- Both meet a conflict or neither does. -/
theorem conflicts (h : Begun repo txn lower db s) : s.kv.conflicts lower = db.conflicts txn := by
  have hkeys : lower.reads ++ lower.writes.map (·.1) = (txn.reads ++ txn.writes.map (·.1)).map (refKey repo) := by
    rw [h.reads, h.writes, List.map_append, List.map_map, List.map_map]
    rfl
  rw [Kv.conflicts, hkeys, List.any_map, Db.conflicts]
  congr 1
  funext name
  exact decide_eq_decide.2 (h.age name).symm

end Begun

/-- The writes of a committed transaction. -/
theorem Shows.commitRefs {db : Db Bytes} (h : Shows repo db s) (writes : List (String × Option RefTarget)) :
    Shows repo (db.apply (.refs writes)) { s with kv := s.kv.commit (writes.map (refWrite repo)) } := by
  have hget : ∀ {segment rest}, segment ≠ Segment.ref →
      (s.kv.commit (writes.map (refWrite repo))).data.get (encodePreamble repo segment ++ rest) =
        s.kv.data.get (encodePreamble repo segment ++ rest) := by
    intro segment rest hsegment
    refine overlay_of_not_mem fun hmem => ?_
    rw [List.map_map] at hmem
    obtain ⟨w, -, heq⟩ := List.mem_map.1 hmem
    exact hsegment (preamble_inj heq).2.1.symm
  exact
    { objects := fun oid => (hget (by decide)).trans (h.objects oid)
      sized := h.sized
      graph := fun oid => (hget (by decide)).trans (h.graph oid)
      refs := h.refs.overlay writes
      blobs := h.blobs
      dated := by
        intro name
        show (if name ∈ writes.map (·.1) then db.version + 1 else db.refVersion name) ≤ db.version + 1
        have hname := h.dated name
        split <;> omega
      kvDated := h.kvDated.commit _ }

theorem advances_commitRefs (db : Db Bytes) (s : Slate) (writes : List (String × Option RefTarget)) :
    Advances repo db s (db.apply (.refs writes)) { s with kv := s.kv.commit (writes.map (refWrite repo)) } where
  version := Nat.le_succ _
  kvVersion := Nat.le_succ _
  ages v w hv hw hage name := by
    have hmem : refKey repo name ∈ (writes.map (refWrite repo)).map (·.1) ↔ name ∈ writes.map (·.1) := by
      rw [List.map_map, List.mem_map, List.mem_map]
      constructor
      · intro h
        obtain ⟨w, hw, heq⟩ := h
        exact ⟨w, hw, (refKey_inj.1 heq).2⟩
      · intro h
        obtain ⟨w, hw, heq⟩ := h
        exact ⟨w, hw, congrArg (refKey repo) heq⟩
    show v < (if name ∈ writes.map (·.1) then db.version + 1 else db.refVersion name) ↔ _
    by_cases hname : name ∈ writes.map (·.1)
    · rw [if_pos hname, Kv.changed_commit_of_mem (hmem.2 hname)]
      omega
    · rw [if_neg hname, Kv.changed_commit_of_not_mem (mt hmem.1 hname)]
      exact hage name

/-! ## The commands -/

section Commands

variable {α β : Type} {Q : Except SlateError β → Except Empty α → Prop} {p : Prog hostSig Empty α} {txn : RefTxn}
  {lower : SlateTxn}

/-- What is left to do from a transaction and a result. -/
abbrev GoesOn (repo : RepoId) (Q : Except SlateError β → Except Empty α → Prop) (p : Prog hostSig Empty α)
    (k : SlateTxn → SlateProg SlateError β) (txn : RefTxn) (host : Host) (s : Slate) : Prop :=
  ∀ lower host' s', Moves host s host' s' → Begun repo txn lower (host'.db repo) s' →
    (k lower).Starts levels Q p host' s'

theorem compareAndSwap_starts {k : SlateTxn × RefUpdateResult → SlateProg SlateError β} {update : RefUpdate}
    {current : Option ObjectId} (h : Begun repo txn lower (host.db repo) s)
    (hk : GoesOn repo Q p (fun lower => k (lower, (txn.compareAndSwap update current).2))
      (txn.compareAndSwap update current).1 host s) :
    (compareAndSwap repo lower update current >>= k).Starts levels Q p host s := by
  unfold compareAndSwap
  unfold RefTxn.compareAndSwap at hk
  split
  · rename_i hne
    rw [if_pos hne] at hk
    exact hk lower host s (Moves.refl host s) h
  · rename_i heq
    rw [if_neg heq] at hk
    refine Prog.Refines.starts (Prog.Refines.silent fun host' s' hm hr => ⟨hr, Moves.refl host' s', ?_⟩)
    have hwrite := (h.advances (hm.advances repo)).write update.name (update.new.map .direct)
    rw [Option.map_map] at hwrite
    exact hk _ host' s' hm hwrite

theorem updateRef_starts {k : SlateTxn × RefUpdateResult → SlateProg SlateError β} {update : RefUpdate}
    (h : Begun repo txn lower (host.db repo) s)
    (hk : GoesOn repo Q p (fun lower => k (lower, (txn.update update).2)) (txn.update update).1 host s) :
    (updateRef repo lower update >>= k).Starts levels Q p host s := by
  refine Prog.Refines.starts (Prog.Refines.silent fun host' s' hm hr => ⟨hr, Moves.refl host' s', ?_⟩)
  have hread := (h.advances (hm.advances repo)).read update.name
  have hk' : GoesOn repo Q p (fun lower => k (lower, (txn.update update).2)) (txn.update update).1 host' s' :=
    fun lower host'' s'' hm' => hk lower host'' s'' (hm.trans hm')
  show (updateFound repo (lower.read (refKey repo update.name)) update
    (lower.get (refKey repo update.name)) >>= k).Starts levels Q p host' s'
  rw [h.get]
  unfold RefTxn.update at hk'
  cases hget : txn.get update.name with
  | none =>
    rw [hget] at hk'
    exact compareAndSwap_starts hread hk'
  | some target =>
    rw [hget] at hk'
    rw [Option.map_some, updateFound, RefTarget.decode_encode]
    cases target with
    | direct oid => exact compareAndSwap_starts hread hk'
    | reference name => exact hk' _ host' s' (Moves.refl host' s') hread

theorem updateAll_starts {k : SlateTxn × List RefUpdateResult → SlateProg SlateError β} :
    ∀ (updates : List RefUpdate) {txn : RefTxn} {lower : SlateTxn} (results : List RefUpdateResult) {host : Host}
      {s : Slate}, Begun repo txn lower (host.db repo) s →
      GoesOn repo Q p (fun lower => k (lower, results ++ (txn.updateAll updates).2)) (txn.updateAll updates).1 host s →
      (updateAll repo lower updates results >>= k).Starts levels Q p host s
  | [], txn, lower, results, host, s, h, hk => by
    have hk := hk lower host s (Moves.refl host s) h
    rw [RefTxn.updateAll, List.append_nil] at hk
    exact hk
  | update :: updates, txn, lower, results, host, s, h, hk => by
    rw [updateAll, Prog.bind_assoc]
    refine updateRef_starts h fun lower' host' s' hm h' => ?_
    refine updateAll_starts updates _ h' fun lower'' host'' s'' hm' h'' => ?_
    have hk := hk lower'' host'' s'' (hm.trans hm') h''
    rw [List.append_assoc]
    exact hk

end Commands

section Commit

variable {db : Db Bytes} {txn : RefTxn} {lower : SlateTxn}

theorem commitTxn_conflict (h : db.conflicts txn = true) : Db.handler (.commitTxn txn) db = (false, db) := by
  simp [Db.handler, StoreOp.answer, StoreOp.writes, StoreOp.blobWrites, h]
  rfl

theorem commitTxn_ok (h : db.conflicts txn = false) :
    Db.handler (.commitTxn txn) db = (true, db.apply (.refs txn.writes)) := by
  simp [Db.handler, StoreOp.answer, StoreOp.writes, StoreOp.blobWrites, h]
  rfl

/-- The commit of a transaction on both levels: they answer the same. -/
theorem commitTxn_moves (h : Begun repo txn lower (host.db repo) s) (hr : ShowsAll host s) :
    ∃ committed host' s', levels.upper (repo, .commitTxn txn) host = (committed, host') ∧
      levels.lower (.commit lower) s = (committed, s') ∧ ShowsAll host' s' ∧ Moves host s host' s' := by
  have hconflicts := h.conflicts
  cases hc : (host.db repo).conflicts txn with
  | true =>
    have hupper := upper_eq (commitTxn_conflict hc)
    rw [Host.set_db] at hupper
    exact ⟨false, host, s, hupper, commit_conflict (hconflicts.trans hc), hr, Moves.refl host s⟩
  | false =>
    have hkeys : ∀ w ∈ lower.writes, IsDataKeyOf repo w.1 := by
      intro w hw
      rw [h.writes] at hw
      obtain ⟨w', -, rfl⟩ := List.mem_map.1 hw
      exact isDataKeyOf_refKey repo w'.1
    have hshows : Shows repo ((host.db repo).apply (.refs txn.writes)) { s with kv := s.kv.commit lower.writes } :=
      h.writes ▸ (hr repo).commitRefs txn.writes
    have hadvances : Advances repo (host.db repo) s ((host.db repo).apply (.refs txn.writes))
        { s with kv := s.kv.commit lower.writes } := h.writes ▸ advances_commitRefs _ s txn.writes
    exact ⟨true, _, _, upper_eq (commitTxn_ok hc), commit_ok (hconflicts.trans hc),
      moves_commit hr hkeys rfl hshows hadvances⟩

end Commit

/-- `update_refs` on the shared store is the repository's. -/
theorem updateRefsFrom_starts (repo : RepoId) (updates : List RefUpdate) : ∀ (attempts : Nat) (host : Host) (s : Slate),
    (updateRefsFrom repo updates attempts).Starts levels Answers
      ((Miscreant.updateRefsFrom updates attempts : StoreProg Bytes Empty _).inside repo) host s
  | 0, _, _ => Prog.Refines.starts (.ret (Answers.ok _))
  | attempts + 1, host, s => by
    refine Prog.Refines.starts (Prog.Refines.op fun host₁ s₁ hm₁ hr₁ => ?_)
    have hread : levels.upper (repo, StoreOp.beginTxn) host₁ =
        (⟨(host₁.db repo).refs, (host₁.db repo).version, [], []⟩, host₁) :=
      Prod.ext rfl (host_read (o := StoreOp.beginTxn) rfl)
    rw [hread]
    refine ⟨hr₁, Moves.refl host₁ s₁, ?_⟩
    refine updateAll_starts updates [] (Begun.start (hr₁ repo)) fun lower host₂ s₂ hm₂ h₂ => ?_
    refine Prog.Refines.starts (Prog.Refines.op fun host₃ s₃ hm₃ hr₃ => ?_)
    obtain ⟨committed, host₄, s₄, hupper, hlower, hr₄, hm₄⟩ := commitTxn_moves (h₂.advances (hm₃.advances repo)) hr₃
    rw [hupper, hlower]
    refine ⟨hr₄, hm₄, ?_⟩
    cases committed with
    | true => exact Prog.Refines.starts (.ret (Answers.ok _))
    | false => exact updateRefsFrom_starts repo updates attempts host₄ s₄

/-- The same, with what is made of the results. -/
theorem updateRefs_answered {α : Type} (repo : RepoId) (updates : List RefUpdate) (f : List RefUpdateResult → α)
    (host : Host) (s : Slate) :
    (updateRefs repo updates >>= fun results => pure (f results)).Starts levels Answers
      ((Miscreant.updateRefs updates >>= fun results => pure (f results) : StoreProg Bytes Empty α).inside repo) host
      s := by
  rw [Prog.inside_bind]
  refine Prog.Starts.bind (updateRefsFrom_starts repo updates _ host s) (fun b a host' s' hq _ => ?_)
    fun e e' _ => e'.elim
  obtain rfl := hq.eq
  exact Prog.Refines.starts (.ret (Answers.ok _))

end Slate

end Miscreant
