/-
Reading `ls-refs` back.

A line of `ls-refs` is fields between single spaces, so a client reads an
entry back from it if the names in it have no space (`readLsRef_line`), and
what a client reads never has one (`readLsRef_plain`). Nothing keeps a space
out of a pushed name (`lsRefs_readBack_iff`).
-/
import Miscreant.AdvertiseFacts
import Miscreant.RequestRuns

namespace Miscreant

open Lib

/-! ## A client's reader -/

def SYMREF_TARGET : List Char := "symref-target:".toList
def PEELED : List Char := "peeled:".toList
def UNBORN : List Char := "unborn".toList

/-- An id in hex. -/
def readOid (text : List Char) : Option ObjectId := ObjectId.fromHex (asBytes (String.ofList text))

/-- An entry with one more attribute. -/
def LsRef.readAttribute (r : LsRef) (attr : List Char) : Option LsRef :=
  match stripPrefix SYMREF_TARGET attr with
  | some inner => some { r with symrefTarget := some (String.ofList inner) }
  | none => do
    let hex ← stripPrefix PEELED attr
    let peeled ← readOid hex
    pure { r with peeled := some peeled }

/-- The id of a line, or that there is none. -/
def readTip (text : List Char) : Option (Option ObjectId) :=
  if text = UNBORN then some none else (readOid text).map some

/-- The entry of a line. -/
def readLsRef (payload : Bytes) : Option LsRef := do
  let text ← fromUtf8 (ReceivePack.stripLf payload)
  match text.toList.splitOn ' ' with
  | tip :: name :: attrs => do
    let oid ← readTip tip
    attrs.foldlM LsRef.readAttribute ⟨oid, String.ofList name, none, none⟩
  | _ => none

/-- The entries of a response, up to the closing flush. -/
def readLsRefs (body : Bytes) : Option (List LsRef) := do
  let (lines, _) ← Pktline.readLines body
  lines.mapM readLsRef

/-! ## Reading a line back -/

/-- An entry whose names have no space in them. -/
structure LsRef.Plain (r : LsRef) : Prop where
  name : ' ' ∉ r.name.toList
  symrefTarget : ∀ inner, r.symrefTarget = some inner → ' ' ∉ inner.toList

/-- The fields of a line. -/
def LsRef.fields (r : LsRef) : List (List Char) :=
  (match r.oid with
    | some oid => oid.toHex.toList
    | none => UNBORN) :: r.name.toList ::
  ((match r.symrefTarget with
    | some inner => [SYMREF_TARGET ++ inner.toList]
    | none => []) ++
  (match r.peeled with
    | some peeled => [PEELED ++ peeled.toHex.toList]
    | none => []))

/-- The line without its LF. -/
def LsRef.text (r : LsRef) : String := String.ofList ([' '].intercalate r.fields)

theorem LsRef.line_eq (r : LsRef) : r.line = r.text ++ "\n" := by
  have hunborn : "unborn".toList = UNBORN := rfl
  have hsymref : " symref-target:".toList = ' ' :: SYMREF_TARGET := rfl
  have hpeeled : " peeled:".toList = ' ' :: PEELED := rfl
  obtain ⟨oid, name, symrefTarget, peeled⟩ := r
  refine String.toList_inj.1 ?_
  cases oid <;> cases symrefTarget <;> cases peeled <;>
    simp [LsRef.line, LsRef.text, LsRef.fields, List.intercalate, ← hunborn, hsymref, hpeeled]

theorem LsRef.Plain.fields {r : LsRef} (h : r.Plain) : ∀ field ∈ r.fields, ' ' ∉ field := by
  have hunborn : ' ' ∉ UNBORN := by decide
  have hsymref : ' ' ∉ SYMREF_TARGET := by decide
  have hpeeled : ' ' ∉ PEELED := by decide
  intro field hfield
  simp only [LsRef.fields, List.mem_cons, List.mem_append] at hfield
  rcases hfield with rfl | rfl | hfield | hfield
  · cases r.oid with
    | none => exact hunborn
    | some oid => exact oid.space_not_mem_toHex
  · exact h.name
  · cases hinner : r.symrefTarget with
    | none => simp [hinner] at hfield
    | some inner =>
      rw [hinner] at hfield
      rw [List.mem_singleton.1 hfield, List.mem_append, not_or]
      exact ⟨hsymref, h.symrefTarget inner hinner⟩
  · cases hpeel : r.peeled with
    | none => simp [hpeel] at hfield
    | some peeled =>
      rw [hpeel] at hfield
      rw [List.mem_singleton.1 hfield, List.mem_append, not_or]
      exact ⟨hpeeled, peeled.space_not_mem_toHex⟩

theorem readOid_toHex (oid : ObjectId) : readOid oid.toHex.toList = some oid := by
  rw [readOid, String.ofList_toList, ObjectId.fromHex_toHex]

theorem readTip_toHex (oid : ObjectId) : readTip oid.toHex.toList = some (some oid) := by
  have hne : oid.toHex.toList ≠ UNBORN := by
    intro heq
    have hread := readOid_toHex oid
    have hunborn : readOid UNBORN = none := by decide
    rw [heq, hunborn] at hread
    cases hread
  rw [readTip, if_neg hne, readOid_toHex]
  rfl

theorem readAttribute_peeled (r : LsRef) (peeled : ObjectId) :
    r.readAttribute (PEELED ++ peeled.toHex.toList) = some { r with peeled := some peeled } := by
  have hnot : stripPrefix SYMREF_TARGET (PEELED ++ peeled.toHex.toList) = none := rfl
  rw [LsRef.readAttribute, hnot]
  simp [stripPrefix_append, readOid_toHex]

theorem readAttribute_symref (r : LsRef) (inner : String) :
    r.readAttribute (SYMREF_TARGET ++ inner.toList) = some { r with symrefTarget := some inner } := by
  rw [LsRef.readAttribute, stripPrefix_append]
  simp

theorem stripLf_line (r : LsRef) : ReceivePack.stripLf (asBytes r.line) = asBytes r.text := by
  have hlf : asBytes "\n" = [10] := by decide
  rw [r.line_eq, asBytes_append, hlf, ReceivePack.stripLf, if_pos (by simp)]
  simp

/-- A line is read back as its entry. -/
theorem readLsRef_line {r : LsRef} (h : r.Plain) : readLsRef (asBytes r.line) = some r := by
  have hsplit : r.text.toList.splitOn ' ' = r.fields := by
    rw [LsRef.text, String.toList_ofList]
    exact List.splitOn_intercalate ' ' h.fields (List.cons_ne_nil _ _)
  have htip : readTip (match r.oid with
      | some oid => oid.toHex.toList
      | none => UNBORN) = some r.oid := by
    cases r.oid with
    | none => rfl
    | some oid => exact readTip_toHex oid
  rw [readLsRef, stripLf_line, fromUtf8_asBytes, Option.bind_eq_bind, Option.bind_some, hsplit, LsRef.fields]
  simp only [htip, Option.bind_eq_bind, Option.bind_some, String.ofList_toList]
  obtain ⟨oid, name, symrefTarget, peeled⟩ := r
  cases symrefTarget <;> cases peeled <;> simp [readAttribute_symref, readAttribute_peeled]

theorem space_not_mem_of_splitOn : ∀ {text field : List Char}, field ∈ text.splitOn ' ' → ' ' ∉ field := by
  intro text
  induction text with
  | nil =>
    intro field h
    rw [List.splitOn_nil, List.mem_singleton] at h
    rw [h]
    exact List.not_mem_nil
  | cons c text ih =>
    intro field h
    rw [List.splitOn_cons_eq_if_modifyHead] at h
    split at h
    · rcases List.mem_cons.1 h with rfl | h
      · exact List.not_mem_nil
      · exact ih h
    · rename_i hc
      cases hfields : text.splitOn ' ' with
      | nil => simp [hfields] at h
      | cons first rest =>
        rw [hfields, List.modifyHead_cons] at h
        rcases List.mem_cons.1 h with rfl | h
        · have hfirst : ' ' ∉ first := ih (by rw [hfields]; exact List.mem_cons_self ..)
          have hne : ' ' ≠ c := fun heq => hc (by rw [heq]; exact beq_self_eq_true c)
          exact List.not_mem_cons_of_ne_of_not_mem hne hfirst
        · exact ih (by rw [hfields]; exact List.mem_cons_of_mem _ h)

theorem foldlM_readAttribute_name : ∀ {attrs : List (List Char)} {r r' : LsRef},
    attrs.foldlM LsRef.readAttribute r = some r' → r'.name = r.name
  | [], r, r', h => by
    cases h
    rfl
  | attr :: attrs, r, r', h => by
    rw [List.foldlM_cons, Option.bind_eq_bind, Option.bind_eq_some_iff] at h
    obtain ⟨r₁, hattr, hrest⟩ := h
    rw [foldlM_readAttribute_name hrest]
    unfold LsRef.readAttribute at hattr
    split at hattr
    · cases hattr
      rfl
    · simp only [Option.bind_eq_bind, Option.bind_eq_some_iff, Option.pure_def, Option.some.injEq] at hattr
      obtain ⟨_, -, _, -, rfl⟩ := hattr
      rfl

/-- What is read has a name without a space. -/
theorem readLsRef_plain {payload : Bytes} {r : LsRef} (h : readLsRef payload = some r) : ' ' ∉ r.name.toList := by
  simp only [readLsRef, Option.bind_eq_bind, Option.bind_eq_some_iff] at h
  obtain ⟨text, -, h⟩ := h
  split at h
  · rename_i tip name attrs hfields
    obtain ⟨oid, -, hattrs⟩ := Option.bind_eq_some_iff.1 h
    rw [foldlM_readAttribute_name hattrs, String.toList_ofList]
    exact space_not_mem_of_splitOn (by rw [hfields]; simp)
  · cases h

/-! ## The width of a line -/

/-- The bytes a peeled id takes in a line. -/
def peeledWidth : Option ObjectId → Nat
  | some peeled => 8 + 2 * peeled.kind.lenInBytes
  | none => 0

/-- The bytes a symref target takes. -/
def symrefWidth : Option String → Nat
  | some inner => 15 + (asBytes inner).length
  | none => 0

/-- The bytes an id, or the lack of one, takes. -/
def tipWidth : Option ObjectId → Nat
  | some oid => 2 * oid.kind.lenInBytes
  | none => 6

theorem LsRef.length_line (r : LsRef) : (asBytes r.line).length =
    tipWidth r.oid + 1 + (asBytes r.name).length + symrefWidth r.symrefTarget + peeledWidth r.peeled + 1 := by
  have hunborn : (asBytes "unborn").length = 6 := by decide
  have hspace : (asBytes " ").length = 1 := by decide
  have hlf : (asBytes "\n").length = 1 := by decide
  have hsymref : (asBytes " symref-target:").length = 15 := by decide
  have hpeeled : (asBytes " peeled:").length = 8 := by decide
  have hempty : (asBytes "").length = 0 := by decide
  obtain ⟨oid, name, symrefTarget, peeled⟩ := r
  cases oid <;> cases symrefTarget <;> cases peeled <;>
    simp only [LsRef.line, asBytes_append, List.length_append, ObjectId.length_toHex, hunborn, hspace, hlf, hsymref,
      hpeeled, hempty, tipWidth, symrefWidth, peeledWidth]

theorem lenInBytes_le (kind : HashKind) : kind.lenInBytes ≤ 32 := by cases kind <;> decide

/-! ## The entries -/

section Entries

variable {E : Env} {db : E.Db} {args : LsRefsArgs}

theorem mem_lsRefsAt {r : LsRef} : ∀ {refs : List (String × RefTarget)} {entries : List LsRef},
    E.lsRefsAt db args refs = .ok entries →
    (r ∈ entries ↔ ∃ name target, (name, target) ∈ refs ∧ E.lsRefAt db args name target = .ok (some r))
  | [], entries, h => by
    cases h
    simp
  | (name, target) :: refs, entries, h => by
    rw [Env.lsRefsAt] at h
    cases hr : E.lsRefAt db args name target with
    | error e =>
      rw [hr] at h
      cases h
    | ok first =>
      rw [hr] at h
      cases hrest : E.lsRefsAt db args refs with
      | error e =>
        simp only [hrest] at h
        cases h
      | ok rest =>
        simp only [hrest] at h
        cases h
        rw [List.mem_append, mem_lsRefsAt hrest, Option.mem_toList]
        constructor
        · intro h
          rcases h with h | ⟨name', target', hmem, h⟩
          · exact ⟨name, target, List.mem_cons_self .., hr.trans (by rw [h])⟩
          · exact ⟨name', target', List.mem_cons_of_mem _ hmem, h⟩
        · intro h
          obtain ⟨name', target', hmem, h⟩ := h
          rcases List.mem_cons.1 hmem with heq | hmem
          · cases heq
            exact .inl (Except.ok.inj (hr.symm.trans h))
          · exact .inr ⟨name', target', hmem, h⟩

theorem lsRefsAt_ok : ∀ {refs : List (String × RefTarget)},
    (∀ name target, (name, target) ∈ refs → ∃ r, E.lsRefAt db args name target = .ok r) →
    ∃ entries, E.lsRefsAt db args refs = .ok entries
  | [], _ => ⟨[], rfl⟩
  | (name, target) :: refs, h => by
    obtain ⟨r, hr⟩ := h name target (List.mem_cons_self ..)
    obtain ⟨rest, hrest⟩ := @lsRefsAt_ok refs fun name' target' hmem => h name' target' (List.mem_cons_of_mem _ hmem)
    refine ⟨r.toList ++ rest, ?_⟩
    rw [Env.lsRefsAt, hr]
    simp only [hrest]
    rfl

/-- In a sound repository peeling does not fail. -/
theorem Sound.peelAtFrom_ok (hs : Sound E db) : ∀ (n : Nat) (peeled : Bool) (x : ObjectId),
    ∃ y, peelAtFrom E db n peeled x = .ok y
  | 0, peeled, x => ⟨_, rfl⟩
  | n + 1, peeled, x => by
    rw [peelAtFrom]
    cases ho : E.objectAt db x with
    | none => exact ⟨_, rfl⟩
    | some o =>
      obtain ⟨kind, body⟩ := o
      by_cases hk : kind = .tag
      · subst hk
        obtain ⟨tag, htag⟩ := Option.isSome_iff_exists.1 (hs.tag_decodes ho)
        simpa [htag] using hs.peelAtFrom_ok n true tag.target
      · exact ⟨if peeled then some x else none, by simp [hk]⟩

theorem Sound.peelAt_ok (hs : Sound E db) (x : ObjectId) : ∃ y, E.peelAt db x = .ok y := hs.peelAtFrom_ok _ _ x

variable (args) in
theorem Sound.lsRefAt_ok (hs : Sound E db) (name : String) (target : RefTarget) :
    ∃ r, E.lsRefAt db args name target = .ok r := by
  unfold Env.lsRefAt
  cases E.resolution db target with
  | dangling => cases target <;> exact ⟨_, rfl⟩
  | tooDeep => exact ⟨_, rfl⟩
  | resolved oid =>
    dsimp only
    split
    · obtain ⟨y, hy⟩ := hs.peelAt_ok oid
      rw [hy]
      exact ⟨_, rfl⟩
    · exact ⟨_, rfl⟩

theorem resolution_direct (oid : ObjectId) : E.resolution db (.direct oid) = .resolved oid := rfl

/-- The entry of a direct ref. -/
theorem lsRefAt_direct {name : String} {oid : ObjectId} {r : LsRef}
    (h : E.lsRefAt db args name (.direct oid) = .ok (some r)) :
    ∃ peeled, r = ⟨some oid, name, none, peeled⟩ ∧ (args.peel = true → E.peelAt db oid = .ok peeled) ∧
      (args.peel = false → peeled = none) := by
  rw [Env.lsRefAt, resolution_direct] at h
  dsimp only at h
  cases hpeel : args.peel with
  | false =>
    rw [hpeel] at h
    cases h
    exact ⟨none, rfl, by simp, fun _ => rfl⟩
  | true =>
    rw [hpeel, if_pos rfl] at h
    cases hat : E.peelAt db oid with
    | error e =>
      rw [hat] at h
      cases h
    | ok peeled =>
      rw [hat] at h
      cases h
      exact ⟨peeled, rfl, fun _ => rfl, by simp⟩

/-- The entry of a symbolic ref. -/
theorem lsRefAt_reference {name inner : String} {r : LsRef}
    (h : E.lsRefAt db args name (.reference inner) = .ok (some r)) :
    r.name = name ∧ (r.symrefTarget = none ∨ r.symrefTarget = some inner) := by
  have hsymref : UploadPack.symrefTarget args (.reference inner) = none ∨
      UploadPack.symrefTarget args (.reference inner) = some inner := by
    unfold UploadPack.symrefTarget
    cases args.symrefs with
    | false => exact .inl rfl
    | true => exact .inr rfl
  unfold Env.lsRefAt at h
  cases hres : E.resolution db (.reference inner) with
  | dangling =>
    rw [hres] at h
    dsimp only at h
    split at h
    · cases h
      exact ⟨rfl, hsymref⟩
    · cases h
  | tooDeep =>
    rw [hres] at h
    cases h
  | resolved oid =>
    rw [hres] at h
    dsimp only at h
    cases hpeel : (if args.peel = true then E.peelAt db oid else .ok none) with
    | error e =>
      rw [hpeel] at h
      cases h
    | ok peeled =>
      rw [hpeel] at h
      cases h
      exact ⟨rfl, hsymref⟩

end Entries

/-! ## The body read back -/

/-- No ref has a space in its name. -/
def NamesPlain (refs : Refs) : Prop := ∀ name target, refs name = some target → ' ' ∉ name.toList

/-- The line of a ref to a tag has room for the id the tag peels to. -/
def PeeledFits (E : Env) (db : E.Db) : Prop :=
  ∀ name oid peeled, db.refs.get name = some (.direct oid) → E.peelAt db oid = .ok (some peeled) →
    2 * oid.kind.lenInBytes + 2 * peeled.kind.lenInBytes + 10 + (asBytes name).length ≤ Pktline.MAX_DATA_LEN

/-- What a client reads are the entries of the refs, one for each that
resolves or is reported unborn. -/
def ReadBack (E : Env) (db : E.Db) (args : LsRefsArgs) : Prop :=
  ∃ entries body, E.lsRefsAt db args db.refs.entries = .ok entries ∧
    E.run (UploadPack.buildLsRefs E args) db = some (.ok body, db) ∧ readLsRefs body = some entries

theorem mapM_readLsRef : ∀ {entries : List LsRef}, (∀ r ∈ entries, r.Plain) →
    (entries.map fun r => asBytes r.line).mapM readLsRef = some entries
  | [], _ => rfl
  | r :: entries, h => by
    rw [List.map_cons, List.mapM_cons, readLsRef_line (h r (List.mem_cons_self ..)),
      mapM_readLsRef fun r' hr' => h r' (List.mem_cons_of_mem _ hr')]
    rfl

theorem plain_of_mapM : ∀ {lines : List Bytes} {entries : List LsRef}, lines.mapM readLsRef = some entries →
    ∀ r ∈ entries, ' ' ∉ r.name.toList
  | [], entries, h, r, hr => by
    cases h
    cases hr
  | line :: lines, entries, h, r, hr => by
    rw [List.mapM_cons] at h
    simp only [Option.bind_eq_bind, Option.bind_eq_some_iff, Option.pure_def, Option.some.injEq] at h
    obtain ⟨first, hfirst, rest, hrest, rfl⟩ := h
    rcases List.mem_cons.1 hr with rfl | hr
    · exact readLsRef_plain hfirst
    · exact plain_of_mapM hrest r hr

/-- A body that is written is read back line by line. -/
theorem readLsRefs_body {entries : List LsRef} {body : Bytes} (h : lsRefsBody entries = .ok body) :
    (∀ r ∈ entries, Pktline.Fits (asBytes r.line)) ∧
      readLsRefs body = (entries.map fun r => asBytes r.line).mapM readLsRef := by
  unfold lsRefsBody at h
  cases hw : Pktline.writeAll Pktline.dataToWrite (entries.map fun r => asBytes r.line) [] with
  | error e =>
    rw [hw] at h
    cases h
  | ok out =>
    rw [hw] at h
    cases h
    have hfits := Pktline.writeAll_data_ok_iff.1 ⟨out, hw⟩
    have hlines := Pktline.writeAll_data hfits []
    rw [hw] at hlines
    cases hlines
    have hread := Pktline.readLines_encoded hfits []
    rw [List.append_nil] at hread
    refine ⟨fun r hr => hfits _ (List.mem_map_of_mem hr), ?_⟩
    rw [readLsRefs, Pktline.flushToWrite, List.nil_append, hread]
    rfl

theorem lsRefsBody_ok {entries : List LsRef} (h : ∀ r ∈ entries, Pktline.Fits (asBytes r.line)) :
    ∃ body, lsRefsBody entries = .ok body := by
  have hfits : ∀ l ∈ entries.map fun r => asBytes r.line, Pktline.Fits l := by
    intro l hl
    obtain ⟨r, hr, rfl⟩ := List.mem_map.1 hl
    exact h r hr
  rw [lsRefsBody, Pktline.writeAll_data hfits []]
  exact ⟨_, rfl⟩

section Pushed

variable {E : Env} {db : E.Db} {args : LsRefsArgs}

/-- The entries of a repository that requests have been made to. -/
theorem Pushable.entry (hp : Pushable E db) {name : String} {target : RefTarget} {r : LsRef}
    (hget : db.refs.get name = some target) (hr : E.lsRefAt db args name target = .ok (some r)) :
    r.name = name ∧ (∀ inner, r.symrefTarget = some inner → inner = DEFAULT_BRANCH) ∧
      (name = HEAD_REF ∨ ∃ oid peeled, r = ⟨some oid, name, none, peeled⟩ ∧ target = .direct oid ∧
        2 * oid.kind.lenInBytes + 42 + (asBytes name).length ≤ Pktline.MAX_DATA_LEN ∧
        (args.peel = true → E.peelAt db oid = .ok peeled) ∧ (args.peel = false → peeled = none)) := by
  by_cases hname : name = HEAD_REF
  · rw [hname, hp.pushed.head] at hget
    cases hget
    obtain ⟨hsame, hsymref⟩ := lsRefAt_reference hr
    refine ⟨hsame, fun inner hinner => ?_, .inl hname⟩
    rcases hsymref with hnone | hsome
    · cases hnone.symm.trans hinner
    · exact (Option.some.inj (hsome.symm.trans hinner)).symm
  · obtain ⟨oid, rfl, hfits⟩ := hp.pushed.other name target hget hname
    obtain ⟨peeled, rfl, hpeel, hno⟩ := lsRefAt_direct hr
    exact ⟨rfl, nofun, .inr ⟨oid, peeled, rfl, rfl, hfits, hpeel, hno⟩⟩

theorem Pushable.plain_entry (hp : Pushable E db) (hplain : NamesPlain db.refs.get) {name : String}
    {target : RefTarget} {r : LsRef} (hget : db.refs.get name = some target)
    (hr : E.lsRefAt db args name target = .ok (some r)) : r.Plain := by
  obtain ⟨hname, hsymref, -⟩ := hp.entry hget hr
  refine ⟨?_, fun inner hinner => ?_⟩
  · rw [hname]
    exact hplain name target hget
  · rw [hsymref inner hinner]
    decide

/-- The line of an entry fits, if there is room for what it peels to. -/
theorem Pushable.fits_entry (hp : Pushable E db) (hpeeled : args.peel = true → PeeledFits E db) {name : String}
    {target : RefTarget} {r : LsRef} (hget : db.refs.get name = some target)
    (hr : E.lsRefAt db args name target = .ok (some r)) : Pktline.Fits (asBytes r.line) := by
  obtain ⟨hname, hsymref, hcases⟩ := hp.entry hget hr
  have hlen := r.length_line
  suffices hle : (asBytes r.line).length ≤ Pktline.MAX_DATA_LEN from
    ⟨List.ne_nil_of_length_pos (by omega), hle⟩
  rcases hcases with hhead | ⟨oid, peeled, rfl, rfl, hfits, hpeel, hno⟩
  · have htip : tipWidth r.oid ≤ 64 := by
      cases r.oid with
      | none => decide
      | some oid =>
        have hle := lenInBytes_le oid.kind
        simp only [tipWidth]
        omega
    have hsymref : symrefWidth r.symrefTarget ≤ 30 := by
      cases hinner : r.symrefTarget with
      | none => decide
      | some inner =>
        rw [hsymref inner hinner]
        decide
    have hpeel : peeledWidth r.peeled ≤ 72 := by
      cases r.peeled with
      | none => decide
      | some peeled =>
        have hle := lenInBytes_le peeled.kind
        simp only [peeledWidth]
        omega
    have hwidth : (asBytes r.name).length = 4 := by
      rw [hname, hhead]
      decide
    unfold Pktline.MAX_DATA_LEN
    omega
  · simp only [tipWidth, symrefWidth] at hlen
    cases peeled with
    | none =>
      simp only [peeledWidth] at hlen
      omega
    | some peeled =>
      have hroom : args.peel = true := by
        cases hargs : args.peel with
        | true => rfl
        | false => cases hno hargs
      have hroom := hpeeled hroom name oid peeled hget (hpeel hroom)
      simp only [peeledWidth] at hlen
      omega

variable (args) in
theorem Pushable.lsRefsAt_ok (hp : Pushable E db) : ∃ entries, E.lsRefsAt db args db.refs.entries = .ok entries :=
  Miscreant.lsRefsAt_ok fun name target _ => hp.toSound.lsRefAt_ok args name target

/-- Lines that fit, ids peeled, leave room for what the tags peel to. -/
theorem peeledFits_of_fits {entries : List LsRef} (hentries : E.lsRefsAt db args db.refs.entries = .ok entries)
    (hpeel : args.peel = true) (hfits : ∀ r ∈ entries, Pktline.Fits (asBytes r.line)) : PeeledFits E db := by
  intro name oid peeled hget hat
  have hr : E.lsRefAt db args name (.direct oid) = .ok (some ⟨some oid, name, none, some peeled⟩) := by
    rw [Env.lsRefAt, resolution_direct]
    dsimp only
    rw [if_pos hpeel, hat]
    rfl
  have hfit := hfits _ ((mem_lsRefsAt hentries).2 ⟨name, _, SortedMap.mem_entries.2 hget, hr⟩)
  have hlen := LsRef.length_line ⟨some oid, name, none, some peeled⟩
  have hle := hfit.2
  simp only [tipWidth, symrefWidth, peeledWidth] at hlen
  omega

/-- A response that is read back tells that the names are plain and the lines
fit. -/
theorem Pushable.of_readBack (hp : Pushable E db) (h : ReadBack E db args) (hall : args.prefixes = []) :
    NamesPlain db.refs.get ∧ (args.peel = true → PeeledFits E db) := by
  obtain ⟨entries, body, hentries, hrun, hread⟩ := h
  obtain ⟨refs, -, hrefs, -, x, hx, hbody⟩ := run_buildLsRefs hp.toIntact args
  cases hrun.symm.trans hx
  rw [hrefs hall, hentries] at hbody
  obtain ⟨hfits, hlines⟩ := readLsRefs_body hbody.symm
  rw [hlines] at hread
  refine ⟨fun name target hget => ?_, fun hpeel => ?_⟩
  · by_cases hname : name = HEAD_REF
    · rw [hname]
      decide
    · obtain ⟨oid, rfl, -⟩ := hp.pushed.other name target hget hname
      obtain ⟨r, hr⟩ := hp.toSound.lsRefAt_ok args name (.direct oid)
      cases r with
      | none =>
        rw [Env.lsRefAt, resolution_direct] at hr
        dsimp only at hr
        split at hr
        · cases hat : E.peelAt db oid <;> rw [hat] at hr <;> cases hr
        · cases hr
      | some r =>
        have hmem := (mem_lsRefsAt hentries).2 ⟨name, _, SortedMap.mem_entries.2 hget, hr⟩
        obtain ⟨peeled, rfl, -⟩ := lsRefAt_direct hr
        exact plain_of_mapM hread _ hmem
  · exact peeledFits_of_fits hentries hpeel hfits

theorem Pushable.readBack (hp : Pushable E db) (hplain : NamesPlain db.refs.get)
    (hpeeled : args.peel = true → PeeledFits E db) (hall : args.prefixes = []) : ReadBack E db args := by
  obtain ⟨entries, hentries⟩ := hp.lsRefsAt_ok args
  obtain ⟨refs, -, hrefs, -, x, hx, hbody⟩ := run_buildLsRefs hp.toIntact args
  rw [hrefs hall, hentries] at hbody
  have hentry : ∀ r ∈ entries, r.Plain ∧ Pktline.Fits (asBytes r.line) := by
    intro r hr
    obtain ⟨name, target, hmem, hat⟩ := (mem_lsRefsAt hentries).1 hr
    have hget := SortedMap.mem_entries.1 hmem
    exact ⟨hp.plain_entry hplain hget hat, hp.fits_entry hpeeled hget hat⟩
  obtain ⟨body, hok⟩ := lsRefsBody_ok fun r hr => (hentry r hr).2
  have hx' : E.run (UploadPack.buildLsRefs E args) db = some (.ok body, db) := by
    rw [hx, hbody, hok]
  refine ⟨entries, body, hentries, hx', ?_⟩
  rw [(readLsRefs_body hok).2]
  exact mapM_readLsRef fun r hr => (hentry r hr).1

end Pushed

/-- **`ls-refs` is read back exactly when the names allow it.** In every
repository requests have been made to, a client reads the entries of all refs
back from the response if and only if no ref has a space in its name, and,
where ids are peeled, the lines of the refs to tags fit. -/
theorem lsRefs_readBack_iff {E : Env} {G : GixPack} (hcodec : E.codec = .bytes) (hG : G.Hashed E) {db : E.Db}
    (h : Hosted E G db) (args : LsRefsArgs) (hall : args.prefixes = []) :
    ReadBack E db args ↔ NamesPlain db.refs.get ∧ (args.peel = true → PeeledFits E db) := by
  have hp := h.pushable hcodec hG
  exact ⟨fun hread => hp.of_readBack hread hall, fun hcond => hp.readBack hcond.1 hcond.2 hall⟩

namespace Sample

theorem tag_refs {name : String} {db : env.Db}
    (hrefs : db.refs.get = Function.update (newRepository : env.Db).refs.get name (some (.direct tagId)))
    {name' : String} {target : RefTarget} (hget : db.refs.get name' = some target) :
    (name' = name ∧ target = .direct tagId) ∨ name' = HEAD_REF ∧ target = .reference DEFAULT_BRANCH := by
  rw [hrefs] at hget
  by_cases heq : name' = name
  · rw [heq, Function.update_self] at hget
    exact .inl ⟨heq, (Option.some.inj hget).symm⟩
  · rw [Function.update_of_ne heq] at hget
    by_cases hhead : name' = HEAD_REF
    · rw [hhead, pushedRefs_new.head] at hget
      exact .inr ⟨hhead, (Option.some.inj hget).symm⟩
    · obtain ⟨oid, rfl, -⟩ := pushedRefs_new.other name' target hget hhead
      exact absurd hget (fresh_new.refs name' oid)

theorem peeledFits_tag {name : String} (hlen : (asBytes name).length ≤ 65378) {db : env.Db}
    (hrefs : db.refs.get = Function.update (newRepository : env.Db).refs.get name (some (.direct tagId))) :
    PeeledFits env db := by
  intro name' oid peeled hget _
  rcases tag_refs hrefs hget with ⟨rfl, -⟩ | ⟨-, heq⟩
  · have hle := lenInBytes_le oid.kind
    have hle' := lenInBytes_le peeled.kind
    unfold Pktline.MAX_DATA_LEN
    omega
  · cases heq

end Sample

/-- A tag, with everything a client can ask for. -/
theorem lsRefs_readBack_sample :
    ∃ db, Hosted Sample.env Sample.packs db ∧ db.refs.get "refs/tags/v" = some (.direct Sample.tagId) ∧
      ReadBack Sample.env db ⟨[], true, true, true⟩ := by
  obtain ⟨db, hhosted, hrefs⟩ := @Sample.requested_tag "refs/tags/v" (by decide) (by decide) (by decide) (by decide)
  have hplain : NamesPlain db.refs.get := by
    intro name target hget
    rcases Sample.tag_refs hrefs hget with ⟨rfl, -⟩ | ⟨rfl, -⟩ <;> decide
  refine ⟨db, hhosted, by rw [hrefs, Function.update_self], ?_⟩
  exact (lsRefs_readBack_iff rfl Sample.packs_hashed hhosted ⟨[], true, true, true⟩ rfl).2
    ⟨hplain, fun _ => Sample.peeledFits_tag (by decide) hrefs⟩

/-- A name with a space in it is pushed, and no response is read back any
more. -/
theorem lsRefs_unreadable :
    ∃ db, Hosted Sample.env Sample.packs db ∧ db.refs.get "refs/heads/a b" = some (.direct Sample.tagId) ∧
      ∀ args : LsRefsArgs, args.prefixes = [] → ¬ ReadBack Sample.env db args := by
  obtain ⟨db, hhosted, hrefs⟩ := @Sample.requested_tag "refs/heads/a b" (by decide) (by decide) (by decide) (by decide)
  have hget : db.refs.get "refs/heads/a b" = some (.direct Sample.tagId) := by rw [hrefs, Function.update_self]
  have hp := hhosted.pushable rfl Sample.packs_hashed
  refine ⟨db, hhosted, hget, fun args hall hread => ?_⟩
  exact (hp.of_readBack hread hall).1 _ _ hget (by decide)

end Miscreant
