/-
What a push reports.

A command's name is bounded by the line it came in, and a status line adds
less than the ids it drops (`Command.Framed`, `fits_statusLine`). The two
first stages leave the refs alone, and the third does the commands one after
another on them (`run_updateRefs_alone`), so the report of a push says what
became of the refs (`push_report`).
-/
import Miscreant.Advertise
import Miscreant.ReceivePack
import Miscreant.PushRuns
import Miscreant.UpdateRefsFacts

namespace Miscreant

open Lib

/-! ## Ref updates alone -/

/-- No ref was committed later than the last commit. -/
def Db.Dated {V : Type} (db : Db V) : Prop := ∀ name, db.refVersion name ≤ db.version

theorem dated_empty {V : Type} : (Db.empty : Db V).Dated := fun _ => le_rfl

theorem Refs.swapAll_cons (update : RefUpdate) (updates : List RefUpdate) (refs : Refs) :
    Refs.swapAll (update :: updates) refs =
      ((Refs.swapAll updates (refs.swap update).1).1, (refs.swap update).2 :: (Refs.swapAll updates (refs.swap update).1).2) := by
  induction updates using List.reverseRecOn with
  | nil => rfl
  | append_singleton updates last ih =>
    rw [← List.cons_append, Refs.swapAll_concat, ih, Refs.swapAll_concat]
    rfl

/-- The refs a transaction sees. -/
def RefTxn.refs (txn : RefTxn) : Refs := (txn.writes.foldl setRef txn.snapshot).get

theorem get_setRef (refs : SortedMap String RefTarget) (name : String) (target : Option RefTarget) :
    (setRef refs (name, target)).get = Function.update refs.get name target := by
  funext name'
  cases target with
  | none => simp [setRef, SortedMap.get_erase, Function.update_apply]
  | some target => simp [setRef, SortedMap.get_insert, Function.update_apply]

theorem RefTxn.refs_write (txn : RefTxn) (name : String) (target : Option RefTarget) :
    (txn.write name target).refs = Function.update txn.refs name target := by
  simp only [RefTxn.refs, RefTxn.write, List.foldl_append, List.foldl_cons, List.foldl_nil, get_setRef]

/-- One command in a transaction is one compare-and-swap on what it sees. -/
theorem RefTxn.update_spec (txn : RefTxn) (update : RefUpdate) :
    ((txn.update update).1.refs, (txn.update update).2) = txn.refs.swap update ∧
      (txn.update update).1.version = txn.version ∧ (txn.update update).1.snapshot = txn.snapshot := by
  have hcas : ∀ current : Option ObjectId, txn.refs update.name = current.map .direct →
      (((txn.read update.name).compareAndSwap update current).1.refs,
        ((txn.read update.name).compareAndSwap update current).2) = txn.refs.swap update ∧
      ((txn.read update.name).compareAndSwap update current).1.version = txn.version ∧
      ((txn.read update.name).compareAndSwap update current).1.snapshot = txn.snapshot := by
    intro current hcurrent
    rw [Refs.swap_direct hcurrent, RefTxn.compareAndSwap]
    by_cases heq : current = update.expectedOld
    · rw [if_neg (not_not.2 heq), if_pos heq, RefTxn.refs_write]
      exact ⟨rfl, rfl, rfl⟩
    · rw [if_pos heq, if_neg heq]
      exact ⟨rfl, rfl, rfl⟩
  have hget : txn.get update.name = txn.refs update.name := rfl
  unfold RefTxn.update
  cases hcurrent : txn.get update.name with
  | none => exact hcas none (hget.symm.trans hcurrent)
  | some target =>
    cases target with
    | direct oid => exact hcas (some oid) (hget.symm.trans hcurrent)
    | reference inner =>
      refine ⟨?_, rfl, rfl⟩
      rw [Refs.swap, hget.symm.trans hcurrent]
      rfl

/-- The commands in a transaction are those of the batch on what it sees. -/
theorem RefTxn.updateAll_spec : ∀ (updates : List RefUpdate) (txn : RefTxn),
    ((txn.updateAll updates).1.refs, (txn.updateAll updates).2) = Refs.swapAll updates txn.refs ∧
      (txn.updateAll updates).1.version = txn.version ∧ (txn.updateAll updates).1.snapshot = txn.snapshot
  | [], txn => ⟨rfl, rfl, rfl⟩
  | update :: updates, txn => by
    obtain ⟨hupdate, hversion, hsnapshot⟩ := txn.update_spec update
    obtain ⟨hrest, hversion', hsnapshot'⟩ := RefTxn.updateAll_spec updates (txn.update update).1
    refine ⟨?_, hversion'.trans hversion, hsnapshot'.trans hsnapshot⟩
    have hrefs := congrArg Prod.fst hupdate
    have hresult := congrArg Prod.snd hupdate
    dsimp only at hrefs hresult
    rw [Refs.swapAll_cons, ← hrefs, ← hresult, ← hrest]
    rfl

/-- Alone, `Store::update_refs` does the batch on the refs as they are. -/
theorem run_updateRefs_alone {V ε : Type} (updates : List RefUpdate) {db : Db V} (hdated : db.Dated) :
    ∃ db', (updateRefs updates : StoreProg V ε _).run Db.handler db =
        some (.ok (Refs.swapAll updates db.refs.get).2, db') ∧
      db'.refs.get = (Refs.swapAll updates db.refs.get).1 ∧ db'.Dated := by
  let txn : RefTxn := ⟨db.refs, db.version, [], []⟩
  obtain ⟨hspec, hversion, hsnapshot⟩ := txn.updateAll_spec updates
  have hrefs : (txn.updateAll updates).1.refs = (Refs.swapAll updates db.refs.get).1 := congrArg Prod.fst hspec
  have hresults : (txn.updateAll updates).2 = (Refs.swapAll updates db.refs.get).2 := congrArg Prod.snd hspec
  have hconf : db.conflicts (txn.updateAll updates).1 = false := by
    refine List.any_eq_false.2 fun name _ => ?_
    rw [hversion]
    simpa [txn] using hdated name
  refine ⟨db.apply (.refs (txn.updateAll updates).1.writes), ?_, ?_, fun name => ?_⟩
  · show (Store.commitTxn (txn.updateAll updates).1 >>= fun committed =>
      if committed then pure (txn.updateAll updates).2 else updateRefsFrom updates 1 : StoreProg V ε _).run
        Db.handler db = _
    have hcommit := @run_commitTxn V ε db (txn.updateAll updates).1
    rw [hconf, if_neg (by simp)] at hcommit
    rw [Prog.run_bind_ok hcommit, ← hresults]
    rfl
  · rw [← hrefs, RefTxn.refs, hsnapshot]
    rfl
  · have hname := hdated name
    show (if name ∈ (txn.updateAll updates).1.writes.map (·.1) then db.version + 1 else db.refVersion name) ≤
      db.version + 1
    split <;> omega

/-- What a command can be told. -/
theorem Refs.swap_outcome (refs : Refs) (update : RefUpdate) :
    (refs.swap update).2.outcome = .updated ∨ (refs.swap update).2.outcome = .rejected REASON_SYMBOLIC ∨
      (refs.swap update).2.outcome = .rejected REASON_NON_FAST_FORWARD := by
  unfold Refs.swap
  split
  · exact .inr (.inl rfl)
  · split
    · exact .inl rfl
    · exact .inr (.inr rfl)

theorem Refs.swapAll_results : ∀ (updates : List RefUpdate) (refs : Refs), ∀ r ∈ (Refs.swapAll updates refs).2,
    (∃ update ∈ updates, r.name = update.name) ∧
      (r.outcome = .updated ∨ r.outcome = .rejected REASON_SYMBOLIC ∨ r.outcome = .rejected REASON_NON_FAST_FORWARD)
  | [], refs, r, hr => absurd hr List.not_mem_nil
  | update :: updates, refs, r, hr => by
    rw [Refs.swapAll_cons] at hr
    rcases List.mem_cons.1 hr with rfl | hr
    · exact ⟨⟨update, by simp, Refs.swap_name refs update⟩, Refs.swap_outcome refs update⟩
    · obtain ⟨⟨update', hmem, hname⟩, houtcome⟩ := Refs.swapAll_results updates _ r hr
      exact ⟨⟨update', by simp [hmem], hname⟩, houtcome⟩

/-! ## The stages before the updates -/

/-- An operation that commits no ref. -/
def StoreOp.KeepsRefs {V : Type} : StoreOp V → Prop
  | .commitTxn _ => False
  | _ => True

/-- Two states with the same refs, committed at the same times. -/
structure SameRefState {V : Type} (db db' : Db V) : Prop where
  refs : db'.refs = db.refs
  version : db'.version = db.version
  refVersion : db'.refVersion = db.refVersion

theorem SameRefState.refl {V : Type} (db : Db V) : SameRefState db db := ⟨rfl, rfl, rfl⟩

theorem SameRefState.trans {V : Type} {db db' db'' : Db V} (h : SameRefState db db') (h' : SameRefState db' db'') :
    SameRefState db db'' :=
  ⟨h'.refs.trans h.refs, h'.version.trans h.version, h'.refVersion.trans h.refVersion⟩

theorem SameRefState.dated {V : Type} {db db' : Db V} (h : SameRefState db db') (hdated : db.Dated) : db'.Dated := by
  intro name
  rw [h.version, h.refVersion]
  exact hdated name

theorem sameRefState_handler {V : Type} {o : StoreOp V} (ho : o.KeepsRefs) (db : Db V) :
    SameRefState db (Db.handler o db).2 := by
  cases o with
  | commitTxn txn => exact ho.elim
  | _ => exact ⟨rfl, rfl, rfl⟩

/-- A program that commits no ref. -/
abbrev KeepsRefs {E : Env} {ε α : Type} (p : E.Prog ε α) : Prop := p.AllOps StoreOp.KeepsRefs

theorem KeepsRefs.sameRefState {E : Env} {ε α : Type} {p : E.Prog ε α} (hp : KeepsRefs p) {db db' : E.Db}
    {r : Except ε α} (hr : p.run Db.handler db = some (r, db')) : SameRefState db db' :=
  Prog.AllOps.run_inv (I := SameRefState db)
    (fun _ s ho hs => hs.trans (sameRefState_handler ho s)) hp (SameRefState.refl db) hr

section Stages

variable {E : Env} {ε : Type}

theorem GraphProg.keepsRefs {α : Type} {p : E.Prog ε α} (hp : GraphProg p) : KeepsRefs p :=
  hp.mono fun o ho => by cases o <;> trivial

theorem keepsRefs_put (oid : ObjectId) (kind : Kind) (body : Bytes) (durability : Durability) :
    KeepsRefs (ObjectDb.put E oid kind body durability : E.Prog ε Unit) := by
  have hrecord : KeepsRefs (ObjectDb.recordFor E oid kind body : E.Prog ε ObjectRecord) := by
    unfold ObjectDb.recordFor
    cases kind with
    | blob =>
      simp only
      split
      · exact Prog.AllOps.bind ⟨trivial, fun _ => trivial⟩ fun _ => trivial
      · trivial
    | tree | commit | tag => trivial
  refine Prog.AllOps.bind ⟨trivial, fun _ => trivial⟩ fun known => ?_
  split
  · trivial
  · exact hrecord.bind fun record => ⟨trivial, fun _ => trivial⟩

theorem keepsRefs_validateStep (staged : StagedPack) (s : Promote.Visit) :
    KeepsRefs (Promote.validateStep E staged s) := by
  unfold Promote.validateStep
  split
  · trivial
  · trivial
  · split
    · trivial
    · refine Prog.AllOps.bind ⟨trivial, fun _ => trivial⟩ fun known => ?_
      split
      · trivial
      · split
        · trivial
        · split <;> trivial

theorem keepsRefs_putAll : ∀ l : List (ObjectId × Kind × Bytes), KeepsRefs (Promote.putAll E l)
  | [] => trivial
  | (oid, kind, body) :: rest => (keepsRefs_put oid kind body .relaxed).bind fun _ => keepsRefs_putAll rest

theorem keepsRefs_validateAndPromote (fuel : Nat) (staged : StagedPack) (tips : List ObjectId) :
    KeepsRefs (Promote.validateAndPromote E fuel staged tips) :=
  (Prog.AllOps.loop (keepsRefs_validateStep staged) fuel _).bind fun _ =>
    (keepsRefs_putAll _).bind fun _ =>
      (GraphProg.keepsRefs (graphProg_extendGraphAll fuel _)).bind fun _ => ⟨trivial, fun _ => trivial⟩

/-- Reading an object ends, whatever the store holds. -/
theorem run_get_ends (oid : ObjectId) (db : E.Db) : ∃ x, (ObjectDb.get E oid).run Db.handler db = some (x, db) := by
  rw [ObjectDb.get, Prog.run_bind_ok (run_getObject db oid)]
  cases db.objects oid with
  | none => exact ⟨_, rfl⟩
  | some record =>
    have hstream : ∃ x, (ObjectDb.stream E oid record).run Db.handler db = some (x, db) := by
      cases record with
      | blobPointer size =>
        rw [ObjectDb.stream, Prog.run_bind_ok (run_blobGet db oid)]
        cases db.blobs oid <;> exact ⟨_, rfl⟩
      | blobInline len z | tree len z | commit len z | tag len z => exact ⟨_, rfl⟩
    obtain ⟨x, hstream⟩ := hstream
    simp only
    rw [Prog.run_bind, hstream]
    cases x with
    | error e => exact ⟨_, rfl⟩
    | ok lz =>
      obtain ⟨len, z⟩ := lz
      simp only
      cases E.zlib.inflate z len <;> exact ⟨_, rfl⟩

theorem run_prefetchBases : ∀ (ids : List ObjectId) (bases : List (ObjectId × Kind × Bytes)) (db : E.Db),
    ∃ x, (prefetchBases E ids bases).run Db.handler db = some (x, db)
  | [], bases, db => ⟨_, rfl⟩
  | id :: ids, bases, db => by
    obtain ⟨x, hget⟩ := run_get_ends id db
    rw [prefetchBases, Prog.run_bind, Prog.run_mapErr, hget]
    cases x with
    | error e => exact ⟨_, rfl⟩
    | ok object =>
      cases object with
      | none => exact run_prefetchBases ids bases db
      | some object => exact run_prefetchBases ids _ db

/-- Ingestion ends, and leaves the store as it was. -/
theorem run_ingestPack (G : GixPack) (input : Bytes) (objectHash : HashKind) (db : E.Db) :
    ∃ x, (ingestPack E G input objectHash).run Db.handler db = some (x, db) := by
  unfold ingestPack
  split
  · exact ⟨_, rfl⟩
  · obtain ⟨x, hbases⟩ := run_prefetchBases (G.refDeltaBases input objectHash) [] db
    rw [Prog.run_bind, hbases]
    cases x with
    | error e => exact ⟨_, rfl⟩
    | ok bases => exact ⟨_, Prog.run_ofExcept ..⟩

end Stages

/-! ## Reasons -/

/-- The reasons given to clients are short. -/
def Class.Short (c : Class) : Prop := ∀ reason, c = .client reason → (asBytes reason).length ≤ 76

theorem StoreError.class_ne_client (e : StoreError) (reason : String) : e.class ≠ .client reason := by
  cases e
  exact nofun

theorem ObjectDbError.class_ne_client (e : ObjectDbError) (reason : String) : e.class ≠ .client reason := by
  cases e with
  | store e => exact e.class_ne_client reason
  | blob | corruptZlib oid => exact nofun

theorem IngestError.short (e : IngestError) : Class.Short e.class := by
  intro reason h
  cases e with
  | pack =>
    cases h
    decide
  | baseLookup e => exact absurd h (e.class_ne_client reason)
  | bundle => cases h

theorem PromoteError.short (e : PromoteError) : Class.Short e.class := by
  intro reason h
  cases e with
  | store e => exact absurd h (e.class_ne_client reason)
  | objects e => exact absurd h (e.class_ne_client reason)
  | decode oid => cases h
  | connectivity missing referencedBy =>
    cases h
    decide
  | walk e =>
    cases e with
    | store e => exact absurd h (e.class_ne_client reason)
    | objects e => exact absurd h (e.class_ne_client reason)
    | unknownWant oid =>
      cases h
      have hlen := ObjectId.length_toHex oid
      have hkind : oid.kind.lenInBytes ≤ 32 := by cases oid.kind <;> decide
      have hlead : (asBytes "not our ref ").length = 12 := by decide
      rw [asBytes_append, List.length_append]
      omega
    | unsupportedWant oid kind =>
      cases h
      decide
    | missingObject | unexpectedKind | decode | discoveryStalled => cases h

namespace ReceivePack

/-! ## Commands that are let through -/

/-- The least number of digits a command's id is written with. -/
def hexWidth : Option ObjectId → Nat
  | some id => 2 * id.kind.lenInBytes
  | none => 40

/-- What is known of a command that came in a pkt-line. -/
structure Command.Framed (cmd : Command) : Prop where
  named : cmd.name ≠ ""
  fits : hexWidth cmd.old + hexWidth cmd.new + 2 + (asBytes cmd.name).length ≤ Pktline.MAX_DATA_LEN

theorem two_mul_lenInBytes_ge (kind : HashKind) : 40 ≤ 2 * kind.lenInBytes := by cases kind <;> decide

theorem hexWidth_ge (oid : Option ObjectId) : 40 ≤ hexWidth oid := by
  cases oid with
  | none => decide
  | some id => exact two_mul_lenInBytes_ge id.kind

theorem Command.Framed.length_name {cmd : Command} (h : cmd.Framed) : (asBytes cmd.name).length ≤ 65434 := by
  have hold := hexWidth_ge cmd.old
  have hnew := hexWidth_ge cmd.new
  have hfits := h.fits
  unfold Pktline.MAX_DATA_LEN at hfits
  omega

theorem splitAtSpace_eq {text before after : List Char} (h : splitAtSpace text = some (before, after)) :
    text = before ++ ' ' :: after ∧ ' ' ∉ before := by
  unfold splitAtSpace at h
  split at h
  · cases h
  · rename_i c rest hrest
    cases h
    have hc : c = ' ' := by
      have hhead := List.head?_dropWhile_not (fun c => decide (c ≠ ' ')) text
      rw [hrest] at hhead
      simpa using hhead
    refine ⟨?_, fun hmem => ?_⟩
    · have htext := List.takeWhile_append_dropWhile (p := fun c => decide (c ≠ ' ')) (l := text)
      rw [hrest, hc] at htext
      exact htext.symm
    · have hne := List.mem_takeWhile_imp hmem
      simp at hne

theorem length_asBytes_split (before after : List Char) :
    (asBytes (String.ofList (before ++ ' ' :: after))).length =
      (asBytes (String.ofList before)).length + 1 + (asBytes (String.ofList after)).length := by
  have hspace : (String.utf8EncodeChar ' ').length = 1 := by decide
  simp only [asBytes_ofList, List.flatMap_append, List.flatMap_cons, List.length_append, hspace]
  omega

theorem hexWidth_le_of_parseOid {hex : List Char} {oid : Option ObjectId} (h : parseOid hex = some oid) :
    hexWidth oid ≤ (asBytes (String.ofList hex)).length := by
  simp only [parseOid, Option.bind_eq_bind, Option.bind_eq_some_iff, Option.pure_def, Option.some.injEq] at h
  obtain ⟨id, hid, rfl⟩ := h
  rw [ObjectId.length_of_fromHex hid]
  split
  · exact two_mul_lenInBytes_ge id.kind
  · exact le_rfl

theorem parseFields_spec {text : List Char} {cmd : Command} (h : parseFields text = some cmd) :
    cmd.name ≠ "" ∧ hexWidth cmd.old + hexWidth cmd.new + 2 + (asBytes cmd.name).length ≤
      (asBytes (String.ofList text)).length := by
  simp only [parseFields, Option.bind_eq_bind, Option.bind_eq_some_iff] at h
  obtain ⟨⟨old, rest⟩, hold, ⟨new, name⟩, hnew, h⟩ := h
  split_ifs at h with hname
  simp only [Option.bind_eq_some_iff, Option.pure_def, Option.some.injEq] at h
  obtain ⟨oldId, holdId, newId, hnewId, rfl⟩ := h
  obtain ⟨rfl, -⟩ := splitAtSpace_eq hold
  obtain ⟨rfl, -⟩ := splitAtSpace_eq hnew
  refine ⟨fun heq => hname ?_, ?_⟩
  · simpa using congrArg String.toList heq
  · have hle := hexWidth_le_of_parseOid holdId
    have hle' := hexWidth_le_of_parseOid hnewId
    dsimp only
    rw [length_asBytes_split, length_asBytes_split]
    omega

theorem length_stripLf_le (data : Bytes) : (stripLf data).length ≤ data.length := by
  unfold stripLf
  split
  · rw [List.length_dropLast]
    omega
  · exact le_rfl

theorem length_splitCaps_le (data : Bytes) : (splitCaps data).1.length ≤ data.length := by
  unfold splitCaps
  split
  · exact List.length_take_le' _ _
  · exact le_rfl

theorem parseCommand_framed {data : Bytes} {cmd : Command} {caps : Option Caps}
    (h : parseCommand data = some (cmd, caps)) (hfits : Pktline.Fits data) : cmd.Framed := by
  simp only [parseCommand, Option.bind_eq_bind, Option.bind_eq_some_iff, Option.pure_def, Option.some.injEq,
    Prod.mk.injEq] at h
  obtain ⟨text, htext, command, hcommand, rfl, -⟩ := h
  obtain ⟨hnamed, hle⟩ := parseFields_spec hcommand
  have hlen := length_splitCaps_le (stripLf data)
  rw [← asBytes_fromUtf8 htext, ← String.ofList_toList (s := text)] at hlen
  exact ⟨hnamed, (hle.trans hlen).trans ((length_stripLf_le data).trans hfits.2)⟩

theorem parseRequestFrom_framed : ∀ {fuel : Nat} {body : Bytes} {first : Bool} {caps : Caps} {commands : List Command}
    {request : Request}, parseRequestFrom fuel body first caps commands = some request →
    (∀ cmd ∈ commands, cmd.Framed) → ∀ cmd ∈ request.commands, cmd.Framed
  | fuel + 1, body, first, caps, commands, request, h, hcommands => by
    unfold parseRequestFrom at h
    split at h
    · cases h
      exact hcommands
    · rename_i data consumed hline
      simp only [Option.bind_eq_bind, Option.bind_eq_some_iff] at h
      obtain ⟨⟨command, lineCaps⟩, hcommand, hrest⟩ := h
      refine parseRequestFrom_framed hrest fun cmd hcmd => ?_
      rcases List.mem_append.1 hcmd with hcmd | hcmd
      · exact hcommands cmd hcmd
      · rw [List.mem_singleton.1 hcmd]
        exact parseCommand_framed hcommand (Pktline.fits_of_streaming hline).1
    · cases h

theorem parseRequest_framed {body : Bytes} {request : Request} (h : parseRequest body = some request) :
    ∀ cmd ∈ request.commands, cmd.Framed :=
  parseRequestFrom_framed h fun _ hcmd => absurd hcmd (List.not_mem_nil)

/-! ## What a client writes -/

/-- The digits of an id, or of the all-zero id of a hash. -/
def hexTextIn (zero : HashKind) (oid : Option ObjectId) : String := (oid.getD (Advertise.nullId zero)).toHex

/-- A command's text. -/
def Command.textIn (zero : HashKind) (cmd : Command) : String :=
  hexTextIn zero cmd.old ++ " " ++ hexTextIn zero cmd.new ++ " " ++ cmd.name

/-- A command's text with SHA-1 ids. -/
def Command.text (cmd : Command) : String := cmd.textIn .sha1

/-- A command that can be written: its name is not empty and has no NUL, and
its ids are not the all-zero one. -/
structure Command.Writable (cmd : Command) : Prop where
  named : cmd.name ≠ ""
  noNul : (0 : UInt8) ∉ asBytes cmd.name
  old : ∀ id, cmd.old = some id → id.isNull = false
  new : ∀ id, cmd.new = some id → id.isNull = false

theorem parseOid_hexTextIn (zero : HashKind) {oid : Option ObjectId} (h : ∀ id, oid = some id → id.isNull = false) :
    parseOid (hexTextIn zero oid).toList = some oid := by
  rw [hexTextIn, parseOid, String.ofList_toList, ObjectId.fromHex_toHex]
  cases oid with
  | none => cases zero <;> rfl
  | some id => simp [h id rfl]

theorem splitAtSpace_append {before after : List Char} (h : ' ' ∉ before) :
    splitAtSpace (before ++ ' ' :: after) = some (before, after) := by
  have hall : ∀ c ∈ before, decide (c ≠ ' ') = true := by
    intro c hc
    have hne : c ≠ ' ' := fun heq => h (heq ▸ hc)
    simpa using hne
  unfold splitAtSpace
  rw [List.dropWhile_append_of_pos hall, List.takeWhile_append_of_pos hall]
  simp

/-- A command's text has its three fields. -/
theorem parseFields_eq (zero : HashKind) (cmd : Command) :
    parseFields (cmd.textIn zero).toList =
      if cmd.name.toList = [] then none
      else (parseOid (hexTextIn zero cmd.old).toList).bind fun old =>
        (parseOid (hexTextIn zero cmd.new).toList).bind fun new => some ⟨old, new, cmd.name⟩ := by
  have hspace : ∀ oid, ' ' ∉ (hexTextIn zero oid).toList := fun oid => ObjectId.space_not_mem_toHex _
  have htext : (cmd.textIn zero).toList =
      (hexTextIn zero cmd.old).toList ++ ' ' :: ((hexTextIn zero cmd.new).toList ++ ' ' :: cmd.name.toList) := by
    simp [Command.textIn]
  rw [htext, parseFields, splitAtSpace_append (hspace _)]
  simp only [Option.bind_eq_bind, Option.bind_some, splitAtSpace_append (hspace _), String.ofList_toList,
    Option.pure_def]

theorem parseFields_textIn (zero : HashKind) {cmd : Command} (h : cmd.Writable) :
    parseFields (cmd.textIn zero).toList = some cmd := by
  have hname : cmd.name.toList ≠ [] := by
    intro hnil
    exact h.named (String.toList_inj.1 hnil)
  rw [parseFields_eq, if_neg hname, parseOid_hexTextIn zero h.old, parseOid_hexTextIn zero h.new]
  rfl

theorem nul_not_mem_textIn (zero : HashKind) {cmd : Command} (h : (0 : UInt8) ∉ asBytes cmd.name) :
    (0 : UInt8) ∉ asBytes (cmd.textIn zero) := by
  have hhex : ∀ oid, (0 : UInt8) ∉ asBytes (hexTextIn zero oid) := by
    intro oid hmem
    rw [hexTextIn, asBytes_toHex] at hmem
    obtain ⟨b, -, hb⟩ := List.mem_flatMap.1 hmem
    have hlt := b.toNat_lt
    have hne : ∀ n, n < 16 → (0 : UInt8) ≠ hexDigit n := by
      intro n hn heq
      have hdigit := toNat_hexDigit hn
      rw [← heq, UInt8.toNat_zero] at hdigit
      split at hdigit <;> omega
    simp only [List.mem_cons, List.not_mem_nil, or_false] at hb
    rcases hb with hb | hb
    · exact hne _ (by omega) hb
    · exact hne _ (by omega) hb
  have hspace : (0 : UInt8) ∉ asBytes " " := by decide
  simp only [Command.textIn, asBytes_append, List.mem_append, not_or]
  exact ⟨⟨⟨⟨hhex _, hspace⟩, hhex _⟩, hspace⟩, h⟩

theorem splitCaps_nul {text : Bytes} (h : (0 : UInt8) ∉ text) (caps : Bytes) :
    splitCaps (text ++ 0 :: caps) = (text, some (parseCaps caps)) := by
  have hfind : (text ++ 0 :: caps).findIdx? (· == 0) = some text.length := by
    rw [List.findIdx?_append, List.findIdx?_eq_none_iff.2 fun b hb => ?_]
    · simp [List.findIdx?_cons]
    · have hne : b ≠ 0 := fun heq => h (heq ▸ hb)
      simpa using hne
  have hrest : (text ++ 0 :: caps).drop (text.length + 1) = caps := by
    rw [← List.drop_drop, List.drop_left]
    rfl
  rw [splitCaps, hfind]
  simp only [List.take_left', hrest]

theorem splitCaps_plain {text : Bytes} (h : (0 : UInt8) ∉ text) : splitCaps text = (text, none) := by
  have hfind : text.findIdx? (· == 0) = none := by
    rw [List.findIdx?_eq_none_iff]
    intro b hb
    have hne : b ≠ 0 := fun heq => h (heq ▸ hb)
    simpa using hne
  rw [splitCaps, hfind]

/-- A written command with its capabilities is read back. -/
theorem parseCommand_written {cmd : Command} (h : cmd.Writable) {caps : Bytes} (hcaps : (0 :: caps).getLast? ≠ some 10) :
    parseCommand (asBytes cmd.text ++ 0 :: caps) = some (cmd, some (parseCaps caps)) := by
  have hstrip : stripLf (asBytes cmd.text ++ 0 :: caps) = asBytes cmd.text ++ 0 :: caps := by
    refine if_neg ?_
    rw [List.getLast?_append_of_ne_nil _ (List.cons_ne_nil 0 caps)]
    exact hcaps
  have hfields : parseFields cmd.text.toList = some cmd := parseFields_textIn .sha1 h
  have hsplit : splitCaps (asBytes cmd.text ++ 0 :: caps) = (asBytes cmd.text, some (parseCaps caps)) :=
    splitCaps_nul (nul_not_mem_textIn .sha1 h.noNul) caps
  rw [parseCommand, hstrip, hsplit]
  simp only [Option.bind_eq_bind, fromUtf8_asBytes, Option.bind_some, hfields, Option.pure_def]

/-- A request of one command. -/
theorem parseRequest_written {cmd : Command} (h : cmd.Writable) {caps : Bytes} (hcaps : (0 :: caps).getLast? ≠ some 10)
    (hlen : (asBytes cmd.text).length + 1 + caps.length ≤ Pktline.MAX_DATA_LEN) (pack : Bytes) :
    parseRequest (Pktline.line (asBytes cmd.text ++ 0 :: caps) ++ (Pktline.FLUSH_LINE ++ pack)) =
      some ⟨[cmd], parseCaps caps, pack⟩ := by
  have hfits : Pktline.Fits (asBytes cmd.text ++ 0 :: caps) :=
    ⟨by simp, by simpa [Nat.add_assoc, Nat.add_comm 1] using hlen⟩
  obtain ⟨fuel, hfuel⟩ : ∃ fuel, (Pktline.line (asBytes cmd.text ++ 0 :: caps) ++ (Pktline.FLUSH_LINE ++ pack)).length =
      fuel + 2 := ⟨_, (Nat.sub_add_cancel (by simp [Pktline.FLUSH_LINE]; omega)).symm⟩
  have hdrop : (Pktline.line (asBytes cmd.text ++ 0 :: caps) ++ (Pktline.FLUSH_LINE ++ pack)).drop
      ((asBytes cmd.text ++ 0 :: caps).length + 4) = Pktline.FLUSH_LINE ++ pack := by
    rw [← Pktline.length_line, List.drop_left]
  rw [parseRequest, hfuel, parseRequestFrom, Pktline.streaming_line hfits]
  simp only [parseCommand_written h hcaps, Option.bind_eq_bind, Option.bind_some, hdrop, parseRequestFrom,
    Pktline.streaming_flush, if_true, Option.getD_some, List.nil_append]
  rfl

/-! ## Reports -/

theorem length_okLine (name : String) : (asBytes (statusLine (name, .ok))).length = (asBytes name).length + 4 := by
  have hok : (asBytes "ok ").length = 3 := by decide
  have hlf : (asBytes "\n").length = 1 := by decide
  simp only [statusLine, asBytes_append, List.length_append, hok, hlf]
  omega

theorem length_ngLine (name reason : String) :
    (asBytes (statusLine (name, .ng reason))).length = (asBytes name).length + (asBytes reason).length + 5 := by
  have hng : (asBytes "ng ").length = 3 := by decide
  have hspace : (asBytes " ").length = 1 := by decide
  have hlf : (asBytes "\n").length = 1 := by decide
  simp only [statusLine, asBytes_append, List.length_append, hng, hspace, hlf]
  omega

/-- A status line of a command that came in a pkt-line fits one. -/
theorem fits_statusLine {s : String × RefStatus} (hname : (asBytes s.1).length ≤ 65434)
    (hreason : ∀ reason, s.2 = .ng reason → (asBytes reason).length ≤ 26) : Pktline.Fits (asBytes (statusLine s)) := by
  obtain ⟨name, status⟩ := s
  dsimp only at hname
  cases status with
  | ok =>
    have hlen := length_okLine name
    exact ⟨List.ne_nil_of_length_pos (by omega), by unfold Pktline.MAX_DATA_LEN; omega⟩
  | ng reason =>
    have hle := hreason reason rfl
    have hlen := length_ngLine name reason
    exact ⟨List.ne_nil_of_length_pos (by omega), by unfold Pktline.MAX_DATA_LEN; omega⟩

/-- What a client is told: the lines of the report, which are the same with a
side band, and nothing if it did not ask for them. -/
structure Reported (request : Request) (unpackLine : String) (statuses : List (String × RefStatus))
    (response : Response) : Prop where
  fits : ∀ s ∈ statuses, Pktline.Fits (asBytes (statusLine s))
  body : ∃ inner outer, reportBody unpackLine statuses false = .ok inner ∧
    reportBody unpackLine statuses true = .ok outer ∧
    Pktline.readLines inner = some (asBytes (unpackLine ++ "\n") :: statuses.map fun s => asBytes (statusLine s), []) ∧
    Pktline.readBand CHANNEL_DATA outer = some inner ∧
    response = ⟨200, RESULT_CONTENT_TYPE,
      if request.caps.reportStatus then (if request.caps.sideBand64k then outer else inner) else []⟩

theorem reported {request : Request} {unpackLine : String} {statuses : List (String × RefStatus)}
    (hunpack : Pktline.Fits (asBytes (unpackLine ++ "\n")))
    (hfits : ∀ s ∈ statuses, Pktline.Fits (asBytes (statusLine s))) :
    Reported request unpackLine statuses (buildReport request.caps unpackLine statuses) := by
  have hlines : ∀ l ∈ statuses.map fun s => asBytes (statusLine s), Pktline.Fits l := by
    intro l hl
    obtain ⟨s, hs, rfl⟩ := List.mem_map.1 hl
    exact hfits s hs
  have hall : ∀ l ∈ asBytes (unpackLine ++ "\n") :: statuses.map fun s => asBytes (statusLine s), Pktline.Fits l := by
    intro l hl
    rcases List.mem_cons.1 hl with rfl | hl
    · exact hunpack
    · exact hlines l hl
  obtain ⟨inner, hinner⟩ : ∃ inner, inner = (asBytes (unpackLine ++ "\n") ::
      statuses.map fun s => asBytes (statusLine s)).flatMap Pktline.line ++ Pktline.FLUSH_LINE := ⟨_, rfl⟩
  have hreport : reportLines unpackLine statuses = .ok inner := by
    simp only [reportLines, Pktline.dataToWrite_fits hunpack, bind, Except.bind, Pktline.writeAll_data hlines,
      Pktline.flushToWrite, hinner, pure, Except.pure, List.nil_append, List.flatMap_cons]
  have hread := Pktline.readLines_encoded hall []
  rw [List.append_nil, ← hinner] at hread
  obtain ⟨out, hband, hout⟩ := Pktline.readBand_encoded (n := MAX_BAND_DATA) (by decide) (by decide) CHANNEL_DATA inner
  have hplain : reportBody unpackLine statuses false = .ok inner := by
    simp only [reportBody, hreport, bind, Except.bind]
    rfl
  have hside : reportBody unpackLine statuses true = .ok (Pktline.flushToWrite out) := by
    simp only [reportBody, hreport, bind, Except.bind, hband]
    rfl
  refine ⟨hfits, inner, _, hplain, hside, hread, hout, ?_⟩
  unfold buildReport
  cases request.caps.reportStatus with
  | false => rfl
  | true =>
    cases request.caps.sideBand64k with
    | false =>
      rw [hplain]
      rfl
    | true =>
      rw [hside]
      rfl

/-- What a client is told when a stage fails: every command's failure if it is
to blame. -/
def Failed (request : Request) (c : Class) (response : Response) : Prop :=
  ∀ reason, c = .client reason →
    Reported request ("unpack " ++ reason) (request.commands.map fun cmd => (cmd.name, .ng NG_UNPACKER_ERROR)) response

theorem failed_pushFailed {request : Request} (hframed : ∀ cmd ∈ request.commands, cmd.Framed) {c : Class}
    (hshort : Class.Short c) : Failed request c (pushFailed request c) := by
  intro reason hc
  subst hc
  have hreason := hshort reason rfl
  refine reported ?_ fun s hs => ?_
  · have hlead : (asBytes "unpack ").length = 7 := by decide
    have hlf : (asBytes "\n").length = 1 := by decide
    have hlen : (asBytes ("unpack " ++ reason ++ "\n")).length = 7 + (asBytes reason).length + 1 := by
      rw [asBytes_append, asBytes_append, List.length_append, List.length_append, hlead, hlf]
    exact ⟨List.ne_nil_of_length_pos (by omega), by unfold Pktline.MAX_DATA_LEN; omega⟩
  · obtain ⟨cmd, hcmd, rfl⟩ := List.mem_map.1 hs
    refine fits_statusLine (hframed cmd hcmd).length_name fun reason h => ?_
    cases h
    decide

theorem reported_reportSuccess {request : Request} (hframed : ∀ cmd ∈ request.commands, cmd.Framed) (refs : Refs) :
    Reported request "unpack ok" ((Refs.swapAll request.updates refs).2.map fun r => (r.name, .ofOutcome r.outcome))
      (reportSuccess request (Refs.swapAll request.updates refs).2) := by
  refine reported ⟨by decide, by decide⟩ fun s hs => ?_
  obtain ⟨r, hr, rfl⟩ := List.mem_map.1 hs
  obtain ⟨⟨update, hupdate, hname⟩, houtcome⟩ := Refs.swapAll_results request.updates refs r hr
  obtain ⟨cmd, hcmd, rfl⟩ := List.mem_map.1 hupdate
  refine fits_statusLine ?_ fun reason h => ?_
  · rw [show (r.name, RefStatus.ofOutcome r.outcome).1 = cmd.name from hname]
    exact (hframed cmd hcmd).length_name
  · rcases houtcome with heq | heq | heq
    · rw [heq] at h
      cases h
    · rw [heq] at h
      cases h
      decide
    · rw [heq] at h
      cases h
      decide

end ReceivePack

open ReceivePack

/-- **The push report agrees with the refs.** A push whose ingestion or
promotion fails leaves the refs alone, and a client that is to blame is told
so for each command. Otherwise the commands are done one after another, and
the report has a line for each of them, in order. A client that did not ask
for a report gets an empty body. -/
theorem push_report (E : Env) (G : GixPack) (fuel : Nat) (objectFormat : HashKind) {body : Bytes} {request : Request}
    (hparse : parseRequest body = some request) {db : E.Db} (hdated : db.Dated) :
    ∃ ingested, E.run (ingestPack E G request.pack objectFormat) db = some (ingested, db) ∧
      match ingested with
      | .error e => ∃ response, (receivePack E G fuel objectFormat body : E.Prog Empty _).run Db.handler db =
          some (.ok response, db) ∧ Failed request e.class response
      | .ok staged =>
        match E.run (Promote.validateAndPromote E fuel staged request.tips) db with
        | none => (receivePack E G fuel objectFormat body : E.Prog Empty _).run Db.handler db = none
        | some (.error e, db₁) => ∃ response, (receivePack E G fuel objectFormat body : E.Prog Empty _).run Db.handler db =
            some (.ok response, db₁) ∧ db₁.refs = db.refs ∧ Failed request e.class response
        | some (.ok _, _) => ∃ response db₂, (receivePack E G fuel objectFormat body : E.Prog Empty _).run Db.handler db =
            some (.ok response, db₂) ∧ db₂.refs.get = (Refs.swapAll request.updates db.refs.get).1 ∧
            (Refs.swapAll request.updates db.refs.get).2.map (·.name) = request.commands.map (·.name) ∧
            Reported request "unpack ok"
              ((Refs.swapAll request.updates db.refs.get).2.map fun r => (r.name, .ofOutcome r.outcome)) response := by
  have hframed := parseRequest_framed hparse
  obtain ⟨ingested, hingest⟩ := run_ingestPack G request.pack objectFormat db
  have hreceive : (receivePack E G fuel objectFormat body : E.Prog Empty _) = handle E G fuel objectFormat request := by
    rw [receivePack, hparse]
  have hattempt : ((ingestPack E G request.pack objectFormat).attempt : E.Prog Empty _).run Db.handler db =
      some (.ok ingested, db) := by
    rw [Prog.run_attempt, hingest]
    rfl
  refine ⟨ingested, hingest, ?_⟩
  rw [hreceive, handle, Prog.run_bind_ok hattempt]
  cases ingested with
  | error e => exact ⟨_, rfl, failed_pushFailed hframed e.short⟩
  | ok staged =>
    dsimp only
    have hpromote : ((Promote.validateAndPromote E fuel staged request.tips).attempt : E.Prog Empty _).run Db.handler db =
        (E.run (Promote.validateAndPromote E fuel staged request.tips) db).map fun (r, db') => (.ok r, db') :=
      Prog.run_attempt _ _
    rw [Prog.run_bind, hpromote]
    cases hrun : E.run (Promote.validateAndPromote E fuel staged request.tips) db with
    | none => rfl
    | some r =>
      obtain ⟨promoted, db₁⟩ := r
      have hsame := (keepsRefs_validateAndPromote fuel staged request.tips).sameRefState hrun
      cases promoted with
      | error e => exact ⟨_, rfl, hsame.refs, failed_pushFailed hframed e.short⟩
      | ok promotion =>
        obtain ⟨db₂, hupdate, hrefs, -⟩ := run_updateRefs_alone (ε := Empty) request.updates (hsame.dated hdated)
        rw [hsame.refs] at hupdate hrefs
        refine ⟨_, db₂, Prog.run_bind_ok hupdate, hrefs, ?_, reported_reportSuccess hframed _⟩
        rw [Refs.swapAll_names, Request.updates, List.map_map]
        rfl

namespace Sample

/-- A command that deletes a ref that does not exist. -/
def deleteCommand : Command := ⟨some blobId, none, "refs/heads/a"⟩

theorem deleteCommand_writable : deleteCommand.Writable := by
  refine ⟨by decide, by decide, fun id h => ?_, fun id h => ?_⟩
  · cases h
    decide
  · cases h

theorem length_deleteCommand : (asBytes deleteCommand.text).length = 94 := by
  simp only [deleteCommand, Command.text, Command.textIn, hexTextIn, asBytes_append, List.length_append, ObjectId.length_toHex]
  decide

/-- An indexer that refuses every pack. -/
def noPacks : GixPack := ⟨fun _ _ => [], fun _ _ _ => .error .pack⟩

/-- The request of the command, with its capabilities. -/
def deleteBody (caps : Bytes) : Bytes :=
  Pktline.line (asBytes deleteCommand.text ++ 0 :: caps) ++ (Pktline.FLUSH_LINE ++ [])

theorem parse_deleteBody {caps : Bytes} (hcaps : (0 :: caps).getLast? ≠ some 10) (hlen : caps.length ≤ 100) :
    parseRequest (deleteBody caps) = some ⟨[deleteCommand], parseCaps caps, []⟩ := by
  refine parseRequest_written deleteCommand_writable hcaps ?_ []
  rw [length_deleteCommand]
  unfold Pktline.MAX_DATA_LEN
  omega

/-- An indexer of one pack. -/
def packs : GixPack := ⟨fun _ _ => [], fun _ _ _ => .ok pack⟩

/-- A branch is created, and deleted where it is not. -/
def branchRequest : Request :=
  ⟨[⟨none, some tipId, "refs/heads/main"⟩, ⟨some rootId, none, "refs/heads/main"⟩], ⟨true, true⟩, [0]⟩

def branchBody : Bytes :=
  Pktline.line (asBytes ((Command.text ⟨none, some tipId, "refs/heads/main"⟩) ++ "\x00 report-status side-band-64k")) ++
    Pktline.line (asBytes (Command.text ⟨some rootId, none, "refs/heads/main"⟩)) ++ Pktline.FLUSH_LINE ++ [0]

theorem parse_branchBody : parseRequest branchBody = some branchRequest := by decide +kernel

theorem promote_branch : (env.run (Promote.validateAndPromote env 20 pack branchRequest.tips) Db.empty).any
    (fun x => x.1.toOption.isSome) = true := by decide +kernel

end Sample

open Sample in
/-- The branch is created and its deletion refused, and the report says so. -/
theorem push_report_sample :
    ∃ response db', (receivePack env packs 20 .sha1 branchBody : env.Prog Empty _).run Db.handler Db.empty =
        some (.ok response, db') ∧
      db'.refs.get "refs/heads/main" = some (.direct tipId) ∧
      Reported branchRequest "unpack ok"
        [("refs/heads/main", .ok), ("refs/heads/main", .ng REASON_NON_FAST_FORWARD)] response := by
  obtain ⟨ingested, hingest, h⟩ := push_report env packs 20 .sha1 parse_branchBody dated_empty
  cases hingest
  obtain ⟨⟨promoted, db₁⟩, hrun, hok⟩ := (Option.any_eq_true ..).1 promote_branch
  dsimp only at h
  rw [hrun] at h
  cases promoted with
  | error e => cases hok
  | ok promotion =>
    obtain ⟨response, db', hresponse, hrefs, -, hreported⟩ := h
    exact ⟨response, db', hresponse, congrFun hrefs "refs/heads/main", hreported⟩

/-- A client that does not ask for a report is not told that its command was
refused. -/
theorem push_report_silent :
    ∃ response db', parseRequest (Sample.deleteBody []) = some ⟨[Sample.deleteCommand], ⟨false, false⟩, []⟩ ∧
      Sample.env.run (ingestPack Sample.env Sample.noPacks [] .sha1) Db.empty = some (.ok ⟨.empty⟩, Db.empty) ∧
      Sample.env.run (Promote.validateAndPromote Sample.env 1 ⟨.empty⟩ []) Db.empty = some (.ok ⟨[], []⟩, Db.empty) ∧
      (receivePack Sample.env Sample.noPacks 1 .sha1 (Sample.deleteBody []) : Sample.env.Prog Empty _).run
        Db.handler Db.empty = some (.ok response, db') ∧
      Pktline.readLines response.body = none := by
  have hparse : parseRequest (Sample.deleteBody []) = some ⟨[Sample.deleteCommand], ⟨false, false⟩, []⟩ :=
    (Sample.parse_deleteBody (by decide) (by decide)).trans (by decide)
  have hreceive : (receivePack Sample.env Sample.noPacks 1 .sha1 (Sample.deleteBody []) : Sample.env.Prog Empty _) =
      handle Sample.env Sample.noPacks 1 .sha1 ⟨[Sample.deleteCommand], ⟨false, false⟩, []⟩ := by
    rw [receivePack, hparse]
  obtain ⟨db', hrun⟩ := Prog.exists_ok
    (x := (handle Sample.env Sample.noPacks 1 .sha1 ⟨[Sample.deleteCommand], ⟨false, false⟩, []⟩ :
      Sample.env.Prog Empty _).run Db.handler Db.empty) (a := ⟨200, RESULT_CONTENT_TYPE, []⟩) rfl
  exact ⟨_, db', hparse, rfl, rfl, by rw [hreceive]; exact hrun, by decide⟩

end Miscreant
