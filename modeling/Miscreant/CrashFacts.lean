/-
Pushes among pushes, with crashes in between.

Each push checks its objects against what others have written, durable or
not, and writes them in its own order. What holds the repository together is
the order of the log: each object's record comes after those of its children,
and each ref's after that of its object (`Log.Inv`). That is so of every
prefix of the log as well, so a crash leaves the same (`recoverable_closed`).
-/
import Miscreant.Crash
import Miscreant.PushRuns
import Miscreant.Lib.Pool

namespace Miscreant

open Lib

namespace Log

variable {V : Type} {base : Db V}

/-! ## What stands in a log -/

theorem foldl_concat (es : List (Write V)) (w : Write V) (db : Db V) :
    (es ++ [w]).foldl Db.apply db = (es.foldl Db.apply db).apply w := by
  rw [List.foldl_append]
  rfl

/-- An object's record was there before the log, or the log has it. -/
theorem objects_of_entries {x : ObjectId} {record : ObjectRecord} (es : List (Write V))
    (h : (es.foldl Db.apply base).objects x = some record) :
    base.objects x = some record ∨ ∃ pre post, es = pre ++ .object x record :: post := by
  induction es using List.reverseRecOn with
  | nil => exact .inl h
  | append_singleton es w ih =>
    have hold : (es.foldl Db.apply base).objects x = some record →
        base.objects x = some record ∨ ∃ pre post, es ++ [w] = pre ++ .object x record :: post := by
      intro h
      refine (ih h).imp_right fun hw => ?_
      obtain ⟨pre, post, rfl⟩ := hw
      exact ⟨pre, post ++ [w], by simp⟩
    rw [foldl_concat] at h
    cases w with
    | graph | refs => exact hold h
    | object y record' =>
      by_cases hxy : x = y
      · subst hxy
        have heq : record' = record := by simpa [Db.apply] using h
        exact .inr ⟨es, [], by rw [heq]⟩
      · refine hold ?_
        simpa [Db.apply, Function.update_of_ne hxy] using h

/-- A ref was there before the log, or a transaction of the log wrote it. -/
theorem refs_of_entries {name : String} {target : RefTarget} (es : List (Write V))
    (h : (es.foldl Db.apply base).refs.get name = some target) :
    base.refs.get name = some target ∨
      ∃ pre writes post, es = pre ++ .refs writes :: post ∧ (name, some target) ∈ writes := by
  induction es using List.reverseRecOn with
  | nil => exact .inl h
  | append_singleton es w ih =>
    have hold : (es.foldl Db.apply base).refs.get name = some target →
        base.refs.get name = some target ∨
          ∃ pre writes post, es ++ [w] = pre ++ .refs writes :: post ∧ (name, some target) ∈ writes := by
      intro h
      refine (ih h).imp_right fun hw => ?_
      obtain ⟨pre, writes, post, rfl, hmem⟩ := hw
      exact ⟨pre, writes, post ++ [w], by simp, hmem⟩
    rw [foldl_concat] at h
    cases w with
    | object | graph => exact hold h
    | refs writes =>
      rcases get_foldl_setRef writes _ h with h | h
      · exact hold h
      · exact .inr ⟨es, writes, [], rfl, h⟩

/-- An object that has a record keeps one. -/
theorem objects_foldl_isSome {x : ObjectId} : ∀ (es : List (Write V)) {db : Db V}, (db.objects x).isSome →
    ((es.foldl Db.apply db).objects x).isSome
  | [], _, h => h
  | w :: es, db, h => by
    refine objects_foldl_isSome es ?_
    cases w with
    | graph | refs => exact h
    | object y record =>
      by_cases hxy : x = y
      · simp [Db.apply, hxy]
      · simpa [Db.apply, Function.update_of_ne hxy] using h

end Log

variable {E : Env} {content : ObjectId → Option (Kind × Bytes)}

/-! ## The order of a log -/

/-- The offloaded stream of `x` inflates to `body`. -/
def HasBlob (E : Env) (db : E.Db) (x : ObjectId) (body : Bytes) : Prop :=
  ∃ stream, db.blobs x = some stream ∧ E.zlib.inflate stream body.length = some body

/-- `db'` has the objects and the blobs `db` has. -/
structure Grown (E : Env) (content : ObjectId → Option (Kind × Bytes)) (db db' : E.Db) : Prop where
  committed : ∀ x, Promote.Committed db x → Promote.Committed db' x
  blobs : ∀ x body, content x = some (.blob, body) → HasBlob E db x body → HasBlob E db' x body

/-- The record holds `kind` and `body`. -/
structure RecordOf (E : Env) (db : E.Db) (x : ObjectId) (kind : Kind) (body : Bytes) (record : ObjectRecord) :
    Prop where
  kind : record.kind = kind
  stream : ∃ z, streamAt db x record = some (body.length, z) ∧ E.zlib.inflate z body.length = some body

theorem RecordOf.objectAt {db : E.Db} {x : ObjectId} {kind : Kind} {body : Bytes} {record : ObjectRecord}
    (h : RecordOf E db x kind body record) (hr : db.objects x = some record) :
    E.objectAt db x = some (kind, body) := by
  obtain ⟨z, hstream, hinflate⟩ := h.stream
  simp [Env.objectAt, hr, hstream, hinflate, h.kind]

theorem RecordOf.mono {db db' : E.Db} (hg : Grown E content db db') {x : ObjectId} {kind : Kind} {body : Bytes}
    {record : ObjectRecord} (hc : content x = some (kind, body)) (h : RecordOf E db x kind body record) :
    RecordOf E db' x kind body record := by
  refine ⟨h.kind, ?_⟩
  obtain ⟨z, hstream, hinflate⟩ := h.stream
  cases record with
  | blobInline len b | tree len b | commit len b | tag len b => exact ⟨z, hstream, hinflate⟩
  | blobPointer size =>
    obtain ⟨bytes, hblob, heq⟩ := Option.map_eq_some_iff.1 hstream
    obtain ⟨rfl, rfl⟩ := Prod.mk.inj heq
    have hkind : kind = .blob := h.kind.symm
    subst hkind
    obtain ⟨bytes', hblob', hinflate'⟩ := hg.blobs x body hc ⟨bytes, hblob, hinflate⟩
    exact ⟨bytes', by simp [streamAt, hblob'], hinflate'⟩

/-- What a write must find in the store before it. -/
def Write.InOrder (E : Env) (content : ObjectId → Option (Kind × Bytes)) (db : E.Db) : Write E.codec.Val → Prop
  | .object x record => ∃ kind body children, content x = some (kind, body) ∧ RecordOf E db x kind body record ∧
      Promote.objectChildren E x kind body = some children ∧ ∀ y ∈ children, Promote.Committed db y
  | .graph _ _ => True
  | .refs writes => ∀ name oid, (name, some (.direct oid)) ∈ writes → Promote.Committed db oid

theorem Write.InOrder.mono {db db' : E.Db} (hg : Grown E content db db') {w : Write E.codec.Val}
    (h : w.InOrder E content db) : w.InOrder E content db' := by
  cases w with
  | object x record =>
    obtain ⟨kind, body, children, hc, hrecord, hch, hall⟩ := h
    exact ⟨kind, body, children, hc, hrecord.mono hg hc, hch, fun y hy => hg.committed y (hall y hy)⟩
  | graph => trivial
  | refs writes => exact fun name oid hw => hg.committed oid (h name oid hw)

/-- Each write found what it needs in the state before it. -/
def Log.Inv (E : Env) (content : ObjectId → Option (Kind × Bytes)) (base : E.Db) (s : Log E.codec.Val) : Prop :=
  ∀ pre w post, s.entries = pre ++ w :: post → w.InOrder E content (({ s with entries := pre } : Log _).db base)

/-- What others do: the log grows, and blobs stay. -/
structure Log.Later (E : Env) (content : ObjectId → Option (Kind × Bytes)) (base : E.Db) (s s' : Log E.codec.Val) :
    Prop where
  entries : s.entries <+: s'.entries
  blobs : ∀ x body, content x = some (.blob, body) → HasBlob E (s.db base) x body → HasBlob E (s'.db base) x body

/-- What an operation of a push does: at most one write, in order. -/
structure Log.Guar (E : Env) (content : ObjectId → Option (Kind × Bytes)) (base : E.Db) (s s' : Log E.codec.Val) :
    Prop where
  entries : s'.entries = s.entries ∨ ∃ w, s'.entries = s.entries ++ [w] ∧ w.InOrder E content (s.db base)
  blobs : ∀ x body, content x = some (.blob, body) → HasBlob E (s.db base) x body → HasBlob E (s'.db base) x body

namespace Log

variable {base : E.Db} {s s' s'' : Log E.codec.Val}

theorem Later.refl (s : Log E.codec.Val) : Later E content base s s := ⟨List.prefix_rfl, fun _ _ _ h => h⟩

theorem Later.trans (h : Later E content base s s') (h' : Later E content base s' s'') : Later E content base s s'' :=
  ⟨h.entries.trans h'.entries, fun x body hc hb => h'.blobs x body hc (h.blobs x body hc hb)⟩

theorem Later.grown (h : Later E content base s s') : Grown E content (s.db base) (s'.db base) := by
  refine ⟨fun x hx => ?_, h.blobs⟩
  obtain ⟨es, hes⟩ := h.entries
  have hold : ((s.entries.foldl Db.apply base).objects x).isSome := hx
  have hsome := objects_foldl_isSome es hold
  rw [← List.foldl_append, hes] at hsome
  exact hsome

theorem Guar.later (h : Guar E content base s s') : Later E content base s s' := by
  refine ⟨?_, h.blobs⟩
  rcases h.entries with heq | ⟨w, heq, -⟩
  · rw [heq]
  · rw [heq]
    exact List.prefix_append _ _

theorem inv_start : Inv E content base (start base) := by
  intro pre w post h
  exact absurd h (by simp [start])

/-- A write in order keeps a log in order. -/
theorem Guar.inv (h : Guar E content base s s') (hs : Inv E content base s) : Inv E content base s' := by
  have hblobs : ∀ pre, Grown E content (({ s with entries := pre } : Log _).db base)
      (({ s' with entries := pre } : Log _).db base) := fun pre => ⟨fun x hx => hx, h.blobs⟩
  intro pre w post heq
  rcases h.entries with hsame | ⟨w', hadd, horder⟩
  · exact (hs pre w post (hsame ▸ heq)).mono (hblobs pre)
  · rw [hadd] at heq
    rcases List.append_eq_append_iff.1 heq with ⟨l, hpre, hl⟩ | ⟨l, hpre, hl⟩
    · cases l with
      | nil =>
        obtain ⟨rfl, -⟩ := List.cons.inj hl
        rw [List.append_nil] at hpre
        subst hpre
        exact horder.mono (hblobs s.entries)
      | cons w'' l => simp at hl
    · cases l with
      | nil =>
        obtain ⟨rfl, -⟩ := List.cons.inj hl
        rw [List.append_nil] at hpre
        subst hpre
        exact horder.mono (hblobs _)
      | cons w'' l =>
        obtain ⟨rfl, -⟩ := List.cons.inj hl
        exact (hs pre w l hpre).mono (hblobs pre)

/-- A prefix of a log in order is in order. -/
theorem Crash.inv (h : Crash s s') (hs : Inv E content base s) : Inv E content base s' := by
  obtain ⟨⟨es, hes⟩, hblobs⟩ := h.entries
  intro pre w post heq
  rw [hblobs]
  refine hs pre w (post ++ es) ?_
  rw [← hes, heq, List.append_assoc, List.cons_append]

end Log

/-! ## Closed states -/

/-- Every record can be read, and its children have records; every ref to an
object names one with a record; and every offloaded blob is there. -/
structure ClosedState (E : Env) (db : E.Db) : Prop where
  children : ∀ x, Promote.Committed db x → ∃ kind body children, E.objectAt db x = some (kind, body) ∧
    Promote.objectChildren E x kind body = some children ∧ ∀ y ∈ children, Promote.Committed db y
  targets : ∀ name oid, db.refs.get name = some (.direct oid) → Promote.Committed db oid
  blobs : ∀ x size, db.objects x = some (.blobPointer size) →
    ∃ stream body, db.blobs x = some stream ∧ E.zlib.inflate stream size = some body

/-- A log in order has left a closed state. -/
theorem Log.Inv.closed {base : E.Db} (hfresh : Fresh E base) {s : Log E.codec.Val} (hs : Log.Inv E content base s) :
    ClosedState E (s.db base) := by
  have hgrown : ∀ pre post, s.entries = pre ++ post →
      Grown E content (({ s with entries := pre } : Log _).db base) (s.db base) := by
    intro pre post heq
    exact (show Log.Later E content base { s with entries := pre } s from ⟨⟨post, heq.symm⟩, fun _ _ _ h => h⟩).grown
  have hrecord : ∀ x record, (s.db base).objects x = some record → ∃ kind body children,
      RecordOf E (s.db base) x kind body record ∧ Promote.objectChildren E x kind body = some children ∧
        ∀ y ∈ children, Promote.Committed (s.db base) y := by
    intro x record hx
    rcases Log.objects_of_entries s.entries hx with hold | ⟨pre, post, heq⟩
    · rw [hfresh.objects] at hold
      cases hold
    · obtain ⟨kind, body, children, -, hrec, hch, hall⟩ := (hs pre _ post heq).mono (hgrown pre _ heq)
      exact ⟨kind, body, children, hrec, hch, hall⟩
  refine ⟨fun x hx => ?_, fun name oid hname => ?_, fun x size hx => ?_⟩
  · obtain ⟨record, hx⟩ := Option.isSome_iff_exists.1 hx
    obtain ⟨kind, body, children, hrec, hch, hall⟩ := hrecord x record hx
    exact ⟨kind, body, children, hrec.objectAt hx, hch, hall⟩
  · rcases Log.refs_of_entries s.entries hname with hold | ⟨pre, writes, post, heq, hmem⟩
    · exact absurd hold (hfresh.refs name oid)
    · exact (hgrown pre _ heq).committed oid (hs pre _ post heq name oid hmem)
  · obtain ⟨kind, body, children, hrec, -⟩ := hrecord x _ hx
    obtain ⟨z, hstream, hinflate⟩ := hrec.stream
    obtain ⟨bytes, hblob, heq⟩ := Option.map_eq_some_iff.1 hstream
    obtain ⟨rfl, rfl⟩ := Prod.mk.inj heq
    exact ⟨bytes, body, hblob, hinflate⟩

/-! ## The order of a push's writes -/

namespace Promote

/-- The references among staged objects lead to objects of the kinds they
declare. -/
def Typed (E : Env) (staged : StagedPack) : Prop :=
  ∀ x y k, staged.Refers E x y k → ∀ kind body, staged.read y = some (kind, body) → kind = k

/-- The order in which the kinds are written. -/
def rank : Kind → Nat
  | .blob => 0
  | .tree => 1
  | .commit => 2
  | .tag => 3

/-- An object refers to kinds that are not written after its own. -/
theorem rank_le {id : ObjectId} {kind : Kind} {body : Bytes} {refs : List (ObjectId × Kind)}
    (h : objectRefs E id kind body = some refs) {y : ObjectId} {k : Kind} (hy : (y, k) ∈ refs) : rank k ≤ rank kind := by
  cases kind with
  | blob =>
    cases h
    exact absurd hy List.not_mem_nil
  | tree =>
    obtain ⟨entries, -, rfl⟩ := Option.map_eq_some_iff.1 h
    obtain ⟨entry, -, hentry⟩ := List.mem_filterMap.1 hy
    cases hm : entry.mode <;> simp [entryRef, hm] at hentry <;> obtain ⟨-, rfl⟩ := hentry <;> decide
  | commit =>
    obtain ⟨commit, -, rfl⟩ := Option.map_eq_some_iff.1 h
    rcases List.mem_cons.1 hy with hy | hy
    · cases hy
      decide
    · obtain ⟨p, -, hp⟩ := List.mem_map.1 hy
      cases hp
      decide
  | tag => cases k <;> decide

/-- Each object's children are in `S`, or stand before it. -/
def ChildrenFirst (E : Env) (staged : StagedPack) : (ObjectId → Prop) → List (ObjectId × Kind × Bytes) → Prop
  | _, [] => True
  | S, e :: rest => (∀ y, staged.Child E e.1 y → S y) ∧ ChildrenFirst E staged (fun y => S y ∨ y = e.1) rest

variable {staged : StagedPack}

theorem ChildrenFirst.mono : ∀ {l : List (ObjectId × Kind × Bytes)} {S S' : ObjectId → Prop}, (∀ y, S y → S' y) →
    ChildrenFirst E staged S l → ChildrenFirst E staged S' l
  | [], _, _, _, _ => trivial
  | _ :: _, _, _, hS, h => ⟨fun y hy => hS y (h.1 y hy), h.2.mono fun y hy => hy.imp_left (hS y)⟩

theorem ChildrenFirst.append : ∀ {l l' : List (ObjectId × Kind × Bytes)} {S : ObjectId → Prop},
    ChildrenFirst E staged S l → ChildrenFirst E staged (fun y => S y ∨ y ∈ ids l) l' →
    ChildrenFirst E staged S (l ++ l')
  | [], _, _, _, h' => h'.mono fun y hy => hy.resolve_right List.not_mem_nil
  | e :: l, l', S, h, h' => by
    refine ⟨h.1, h.2.append (h'.mono fun y hy => ?_)⟩
    rw [ids_cons, List.mem_cons] at hy
    tauto

theorem rank_injective : Function.Injective rank := by
  intro k k' h
  cases k <;> cases k' <;> first | rfl | cases h

/-- A listed object refers to listed objects of kinds that are not written
after its own. -/
theorem child_rank_le {l : List (ObjectId × Kind × Bytes)} (hholds : ∀ e ∈ l, staged.Holds E e)
    (htyped : Typed E staged) {e e' : ObjectId × Kind × Bytes} (he : e ∈ l) (he' : e' ∈ l)
    (hchild : staged.Child E e.1 e'.1) : rank e'.2.1 ≤ rank e.2.1 := by
  obtain ⟨x, kind, body⟩ := e
  obtain ⟨kind', body', children, hread, hch, hy⟩ := hchild
  cases hread.symm.trans (hholds _ he).1
  rw [objectChildren_eq, Option.map_eq_some_iff] at hch
  obtain ⟨refs, hrefs, rfl⟩ := hch
  obtain ⟨⟨y, k⟩, hmem, heq⟩ := List.mem_map.1 hy
  have hkind : e'.2.1 = k :=
    htyped x e'.1 k ⟨kind, body, refs, hread, hrefs, by rwa [← heq]⟩ e'.2.1 e'.2.2 (hholds e' he').1
  rw [hkind]
  exact rank_le hrefs hmem

theorem ofKind_concat (kind : Kind) (l : List (ObjectId × Kind × Bytes)) (e : ObjectId × Kind × Bytes) :
    ofKind kind (l ++ [e]) = if e.2.1 = kind then ofKind kind l ++ [e] else ofKind kind l := by
  split
  · rename_i he
    simp [ofKind, he]
  · rename_i he
    simp [ofKind, he]

/-- The objects of one kind, with those of lower kinds written. -/
theorem childrenFirst_ofKind {C : ObjectId → Prop} {l : List (ObjectId × Kind × Bytes)}
    (hholds : ∀ e ∈ l, staged.Holds E e)
    (hchildren : ∀ pre e post, l = pre ++ e :: post → ∀ y, staged.Child E e.1 y → C y ∨ y ∈ ids pre)
    (htyped : Typed E staged) (kind : Kind) {S : ObjectId → Prop} (hC : ∀ y, C y → S y)
    (hlower : ∀ e ∈ l, rank e.2.1 < rank kind → S e.1) : ∀ (pre rest : List (ObjectId × Kind × Bytes)),
      l = pre ++ rest → ChildrenFirst E staged (fun y => S y ∨ y ∈ ids (ofKind kind pre)) (ofKind kind rest)
  | pre, [], _ => trivial
  | pre, e :: rest, hl => by
    have hrest := childrenFirst_ofKind hholds hchildren htyped kind hC hlower (pre ++ [e]) rest (by simp [hl])
    by_cases he : e.2.1 = kind
    · have hcons : ofKind kind (e :: rest) = e :: ofKind kind rest := by simp [ofKind, he]
      rw [hcons]
      refine ⟨fun y hy => ?_, hrest.mono fun y hy => ?_⟩
      · rcases hchildren pre e rest hl y hy with hy' | hy'
        · exact .inl (hC y hy')
        obtain ⟨e', he', rfl⟩ := mem_ids.1 hy'
        have hmem : e' ∈ l := by simp [hl, he']
        have hle : rank e'.2.1 ≤ rank kind := he ▸ child_rank_le hholds htyped (by simp [hl]) hmem hy
        rcases Nat.lt_or_eq_of_le hle with hlt | heq
        · exact .inl (hlower e' hmem hlt)
        · exact .inr (mem_ids_of_mem (mem_ofKind.2 ⟨he', rank_injective heq⟩))
      · rw [ofKind_concat, if_pos he, ids_append] at hy
        simpa [or_assoc] using hy
    · have hcons : ofKind kind (e :: rest) = ofKind kind rest := by simp [ofKind, he]
      rw [hcons]
      rwa [ofKind_concat, if_neg he] at hrest

/-- The write order has children first. -/
theorem childrenFirst_writeOrder {tips : List ObjectId} {C : ObjectId → Prop} {l : List (ObjectId × Kind × Bytes)}
    (h : PostOrder E staged tips C l) (htyped : Typed E staged) : ChildrenFirst E staged C (writeOrder l) := by
  have hkind := fun kind S hC hlower =>
    (childrenFirst_ofKind h.holds h.children htyped kind (S := S) hC hlower [] l rfl).mono
      fun y hy => hy.resolve_right List.not_mem_nil
  have hmem : ∀ e ∈ l, e.1 ∈ ids (ofKind e.2.1 l) := fun e he => mem_ids_of_mem (mem_ofKind.2 ⟨he, rfl⟩)
  have hblobs := hkind .blob C (fun _ h => h) fun e _ hlt => absurd hlt (Nat.not_lt_zero _)
  have htrees := hkind .tree (fun y => C y ∨ y ∈ ids (ofKind .blob l)) (fun _ => .inl) fun e he hlt => by
    have hin := hmem e he
    generalize e.2.1 = k at hlt hin
    cases k with
    | blob => exact .inr hin
    | tree | commit | tag => exact absurd hlt (by decide)
  have hcommits := hkind .commit (fun y => C y ∨ y ∈ ids (ofKind .blob l ++ ofKind .tree l)) (fun _ => .inl)
    fun e he hlt => by
      have hin := hmem e he
      generalize e.2.1 = k at hlt hin
      cases k with
      | blob | tree => exact .inr (by simp [hin])
      | commit | tag => exact absurd hlt (by decide)
  have htags := hkind .tag (fun y => C y ∨ y ∈ ids (ofKind .blob l ++ ofKind .tree l ++ ofKind .commit l))
    (fun _ => .inl) fun e he hlt => by
      have hin := hmem e he
      generalize e.2.1 = k at hlt hin
      cases k with
      | blob | tree | commit => exact .inr (by simp [hin])
      | tag => exact absurd hlt (by decide)
  exact ((hblobs.append htrees).append hcommits).append htags

end Promote

/-! ## One push among others -/

section Push

variable {base : E.Db} {A : StoreOp E.codec.Val → Log E.codec.Val → Prop}

/-- What holds of a push's program among others. -/
abbrev SafeIn (E : Env) (content : ObjectId → Option (Kind × Bytes)) (base : E.Db)
    (A : StoreOp E.codec.Val → Log E.codec.Val → Prop) {ε α : Type} (Q : Except ε α → Log E.codec.Val → Prop)
    (p : E.Prog ε α) (s : Log E.codec.Val) : Prop :=
  p.Safe (Log.handler base) (Log.Later E content base) (Log.Guar E content base) A Q s

/-- An operation that writes no object, no ref and no blob. -/
theorem guar_onGraph {o : StoreOp E.codec.Val} (ho : o.OnGraph) (s : Log E.codec.Val) :
    Log.Guar E content base s (Log.handler base o s).2 := by
  cases o with
  | putObject | blobPut | commitTxn => exact ho.elim
  | putCommitGraph oid value d => exact ⟨.inr ⟨.graph oid value, rfl, trivial⟩, fun _ _ _ h => h⟩
  | getObject | blobGet | getCommitGraph | getRef | listRefs | flush | beginTxn =>
    exact ⟨.inl (List.append_nil _), fun _ _ _ h => h⟩

/-- What only grows still holds when a program has ended. -/
theorem SafeIn.frame {ε α : Type} {Q : Except ε α → Log E.codec.Val → Prop} {p : E.Prog ε α} {s : Log E.codec.Val}
    (hp : SafeIn E content base A Q p s) {P : E.Db → Prop}
    (hP : ∀ db db', Grown E content db db' → P db → P db') (hs : P (s.db base)) :
    SafeIn E content base A (fun r s => P (s.db base) ∧ Q r s) p s :=
  Prog.Safe.frame (P := fun s => P (s.db base)) (fun _ _ hs hlater => hP _ _ hlater.grown hs) (fun _ _ => Log.Guar.later)
    hs hp

/-- An object that was found is there from then on. -/
theorem safe_exists {ε : Type} (oid : ObjectId) (s : Log E.codec.Val) :
    SafeIn E content base A (fun r s => r = .ok true → Promote.Committed (s.db base) oid)
      (Store.objectExists oid : E.Prog ε Bool) s := by
  intro s' _ _
  have hsame : Log.handler base (.getObject oid) s' = ((s'.db base).objects oid, s') := by
    refine Prod.ext rfl ?_
    simp only [Log.handler, StoreOp.writes, List.append_nil]
    rfl
  have honGraph : StoreOp.OnGraph (.getObject oid : StoreOp E.codec.Val) := trivial
  refine ⟨guar_onGraph honGraph s', ?_⟩
  rw [hsame]
  intro s'' hlater heq
  have hsome : ((s'.db base).objects oid).isSome = true := by simpa using heq
  exact hlater.grown.committed oid hsome

/-! ### Validation -/

theorem safe_validate {staged : StagedPack} (hacyc : staged.Acyclic E) (fuel : Nat) (tips : List ObjectId)
    (s : Log E.codec.Val) :
    SafeIn E content base A (fun r s => ∀ l, r = .ok l →
        Promote.PostOrder E staged tips (Promote.Committed (s.db base)) l)
      (Promote.validate E fuel staged tips) s := by
  refine Prog.Safe.loop _ (I := fun v s => Promote.Visit.Inv E staged tips (Promote.Committed (s.db base)) v)
    Log.Later.refl (fun v s h => ?_) fuel Promote.Visit.Inv.start
  have hmono : ∀ {v : Promote.Visit} (db db' : E.Db), Grown E content db db' →
      Promote.Visit.Inv E staged tips (Promote.Committed db) v →
      Promote.Visit.Inv E staged tips (Promote.Committed db') v := fun _ _ hg h => h.mono hg.committed
  unfold Promote.validateStep
  cases hs : v.stack with
  | nil =>
    refine Prog.Safe.ret fun s' hlater => ?_
    intro l hl
    cases hl
    exact (hmono _ _ hlater.grown h).finish hs
  | cons f rest =>
    cases f with
    | emit oid kind body => exact Prog.Safe.ret fun s' hlater => hmono _ _ hlater.grown (h.emit hacyc hs)
    | enter oid referencedBy =>
      by_cases hdone : oid ∈ v.done
      · simp only [hdone, if_true]
        exact Prog.Safe.ret fun s' hlater => hmono _ _ hlater.grown (h.skip hs subset_rfl (fun y hy => .inl hy) hdone)
      · simp only [hdone, if_false]
        refine Prog.Safe.bind ((safe_exists oid s).frame hmono h) (fun known s' hknown => ?_)
          fun e s' _ l hl => nomatch hl
        have h' := fun s'' hlater => (hknown s'' hlater).1
        cases known with
        | true =>
          refine Prog.Safe.ret fun s'' hlater => (h' s'' hlater).skip hs (Finset.subset_insert _ _) (fun y hy => ?_)
            (Finset.mem_insert_self _ _)
          rcases Finset.mem_insert.1 hy with rfl | hy
          · exact .inr ((hknown s'' hlater).2 rfl)
          · exact .inl hy
        | false =>
          simp only [Bool.false_eq_true, if_false]
          cases hread : staged.read oid with
          | none => exact Prog.Safe.fail fun s'' _ l hl => nomatch hl
          | some kb =>
            obtain ⟨kind, body⟩ := kb
            simp only
            cases hch : Promote.objectChildren E oid kind body with
            | none => exact Prog.Safe.fail fun s'' _ l hl => nomatch hl
            | some children => exact Prog.Safe.ret fun s'' hlater => (h' s'' hlater).expand hs hdone hread hch

/-! ### Writing the objects -/

variable (base) in
/-- Offloading a blob. -/
theorem guar_blobPut {x : ObjectId} {body : Bytes} (hc : content x = some (.blob, body)) (bytes : Bytes)
    (hinflate : E.zlib.inflate bytes body.length = some body) (s : Log E.codec.Val) :
    Log.Guar E content base s (Log.handler base (.blobPut x bytes) s).2 ∧
      HasBlob E ((Log.handler base (.blobPut x bytes) s).2.db base) x body := by
  have hnew : HasBlob E ((Log.handler base (.blobPut x bytes) s).2.db base) x body :=
    ⟨bytes, Function.update_self .., hinflate⟩
  refine ⟨⟨.inl (List.append_nil _), fun y body' hc' hblob => ?_⟩, hnew⟩
  by_cases hxy : y = x
  · subst hxy
    cases hc.symm.trans hc'
    exact hnew
  · obtain ⟨bytes', hbytes', hinflate'⟩ := hblob
    exact ⟨bytes', (Function.update_of_ne hxy ..).trans hbytes', hinflate'⟩

theorem safe_recordFor {ε : Type} {x : ObjectId} {kind : Kind} {body : Bytes} (hc : content x = some (kind, body))
    (s : Log E.codec.Val) :
    SafeIn E content base A (fun r s => ∀ record, r = .ok record → RecordOf E (s.db base) x kind body record)
      (ObjectDb.recordFor E x kind body : E.Prog ε ObjectRecord) s := by
  have hinflate := E.zlib.inflate_deflate body E.compressionLevel
  unfold ObjectDb.recordFor
  cases kind with
  | tree | commit | tag =>
    refine Prog.Safe.ret fun s' _ record hrecord => ?_
    cases hrecord
    exact ⟨rfl, _, rfl, hinflate⟩
  | blob =>
    simp only
    split
    · intro s' _ _
      obtain ⟨hguar, hblob⟩ := guar_blobPut base hc (ObjectDb.compress E body) hinflate s'
      refine ⟨hguar, fun s'' hlater record hrecord => ?_⟩
      cases hrecord
      obtain ⟨bytes, hbytes, hinflate'⟩ := hlater.blobs x body hc hblob
      exact ⟨rfl, bytes, by simp [streamAt, hbytes], hinflate'⟩
    · refine Prog.Safe.ret fun s' _ record hrecord => ?_
      cases hrecord
      exact ⟨rfl, _, rfl, hinflate⟩

/-- Putting an object whose children are there. -/
theorem safe_put {ε : Type} {x : ObjectId} {kind : Kind} {body : Bytes} {children : List ObjectId}
    (hc : content x = some (kind, body)) (hch : Promote.objectChildren E x kind body = some children)
    (durability : Durability) {s : Log E.codec.Val} (hall : ∀ y ∈ children, Promote.Committed (s.db base) y) :
    SafeIn E content base A (fun r s => r = .ok () → Promote.Committed (s.db base) x)
      (ObjectDb.put E x kind body durability : E.Prog ε Unit) s := by
  have hmono : ∀ db db' : E.Db, Grown E content db db' → (∀ y ∈ children, Promote.Committed db y) →
      ∀ y ∈ children, Promote.Committed db' y := fun db db' hg h y hy => hg.committed y (h y hy)
  refine Prog.Safe.bind ((safe_exists x s).frame hmono hall) (fun known s₁ h₁ => ?_) fun e s₁ _ h => nomatch h
  cases known with
  | true => exact Prog.Safe.ret fun s₂ hlater _ => (h₁ s₂ hlater).2 rfl
  | false =>
    simp only [Bool.false_eq_true, if_false]
    refine Prog.Safe.bind ((safe_recordFor hc s₁).frame hmono (h₁ s₁ (.refl s₁)).1) (fun record s₂ h₂ => ?_)
      fun e s₂ _ h => nomatch h
    intro s₃ hlater _
    obtain ⟨hall₃, hrecord⟩ := h₂ s₃ hlater
    refine ⟨⟨.inr ⟨.object x record, rfl, kind, body, children, hc, hrecord record rfl, hch, hall₃⟩,
      fun _ _ _ h => h⟩, fun s₄ hlater₄ _ => hlater₄.grown.committed x ?_⟩
    have hdb := congrArg Prod.snd (Log.handler_db base (.putObject x record durability) s₃)
    rw [show (Log.handler base (.putObject x record durability) s₃).2.db base = _ from hdb]
    show (Function.update (s₃.db base).objects x (some record) x).isSome
    simp

/-- Phase 2 of a promotion. -/
theorem safe_putAll {staged : StagedPack} (hcontent : ∀ x kb, staged.read x = some kb → content x = some kb) :
    ∀ (l : List (ObjectId × Kind × Bytes)) {S : ObjectId → Prop} {s : Log E.codec.Val},
      (∀ e ∈ l, staged.Holds E e) → Promote.ChildrenFirst E staged S l →
      (∀ y, S y → Promote.Committed (s.db base) y) →
      SafeIn E content base A (fun r s => r = .ok () → ∀ y, S y ∨ y ∈ Promote.ids l → Promote.Committed (s.db base) y)
        (Promote.putAll E l) s
  | [], S, s, _, _, hS => Prog.Safe.ret fun s' hlater _ y hy =>
      hlater.grown.committed y (hS y (hy.resolve_right List.not_mem_nil))
  | (x, kind, body) :: rest, S, s, hholds, hfirst, hS => by
    obtain ⟨hread, hdec⟩ := hholds (x, kind, body) (by simp)
    obtain ⟨children, hch⟩ := Option.isSome_iff_exists.1 hdec
    have hall : ∀ y ∈ children, Promote.Committed (s.db base) y :=
      fun y hy => hS y (hfirst.1 y ⟨kind, body, children, hread, hch, hy⟩)
    have hmono : ∀ db db' : E.Db, Grown E content db db' → (∀ y, S y → Promote.Committed db y) →
        ∀ y, S y → Promote.Committed db' y := fun db db' hg h y hy => hg.committed y (h y hy)
    refine Prog.Safe.bind ((safe_put (hcontent x _ hread) hch .relaxed hall).frame hmono hS) (fun u s₁ h₁ => ?_)
      fun e s₁ _ h => nomatch h
    obtain ⟨hS₁, hput⟩ := h₁ s₁ (.refl s₁)
    have hnext : ∀ y, S y ∨ y = x → Promote.Committed (s₁.db base) y := by
      intro y hy
      rcases hy with hy | rfl
      · exact hS₁ y hy
      · exact hput rfl
    have hrest := safe_putAll hcontent rest (fun e he => hholds e (by simp [he])) hfirst.2 hnext
    refine Prog.Safe.weaken (fun r s₂ h hr y hy => h hr y ?_) hrest
    rw [Promote.ids_cons, List.mem_cons] at hy
    tauto

/-! ### The commit graph, the flush and the refs -/

/-- The rest of a promotion writes no object, no ref and no blob. -/
theorem safe_graphProg {ε α : Type} {p : E.Prog ε α} (hp : GraphProg p) (s : Log E.codec.Val) :
    SafeIn E content base A (fun _ _ => True) p s :=
  Prog.AllOps.safe (I := fun _ => True) (fun _ _ _ _ => trivial) (fun _ s ho _ => ⟨guar_onGraph ho s, trivial⟩)
    (fun _ _ _ => trivial) hp trivial

/-- The commit of a transaction with the updates' writes. -/
theorem guar_commitTxn {updates : List RefUpdate} {s : Log E.codec.Val}
    (htips : ∀ t ∈ Promote.tipsOf updates, Promote.Committed (s.db base) t) (txn : RefTxn) (hwrites : txn.writes = []) :
    Log.Guar E content base s (Log.handler base (.commitTxn (txn.updateAll updates).1) s).2 := by
  refine ⟨?_, fun _ _ _ h => h⟩
  show s.entries ++ (if _ then [] else [.refs (txn.updateAll updates).1.writes]) = s.entries ∨ _
  split
  · exact .inl (List.append_nil _)
  · rename_i hconf
    refine .inr ⟨.refs (txn.updateAll updates).1.writes, ?_, fun name oid hw => ?_⟩
    · show s.entries ++ (if _ then [] else [.refs (txn.updateAll updates).1.writes]) = _
      rw [if_neg hconf]
    · rcases RefTxn.mem_updateAll hw with hw | ⟨u, hu, heq⟩
      · rw [hwrites] at hw
        exact absurd hw List.not_mem_nil
      · refine htips oid (List.mem_filterMap.2 ⟨u, hu, ?_⟩)
        obtain ⟨-, hnew⟩ := Prod.mk.inj heq
        cases hu' : u.new with
        | none => simp [hu'] at hnew
        | some oid' =>
          simp only [hu', Option.map_some, Option.some.injEq, RefTarget.direct.injEq] at hnew
          rw [hnew]

/-- Ref updates whose new objects are there. -/
theorem safe_updateRefs {ε : Type} (updates : List RefUpdate) : ∀ (attempts : Nat) {s : Log E.codec.Val},
    (∀ t ∈ Promote.tipsOf updates, Promote.Committed (s.db base) t) →
    SafeIn E content base A (fun _ _ => True) (updateRefsFrom updates attempts : E.Prog ε (List RefUpdateResult)) s
  | 0, _, _ => Prog.Safe.ret fun _ _ => trivial
  | attempts + 1, s, htips => by
    intro s₁ hlater₁ _
    have honGraph : StoreOp.OnGraph (.beginTxn : StoreOp E.codec.Val) := trivial
    have hbegin : Log.Guar E content base s₁ (Log.handler base .beginTxn s₁).2 := guar_onGraph honGraph s₁
    refine ⟨hbegin, fun s₂ hlater₂ _ => ?_⟩
    let txn : RefTxn := ⟨(s₁.db base).refs, (s₁.db base).version, [], []⟩
    have htips₂ : ∀ t ∈ Promote.tipsOf updates, Promote.Committed (s₂.db base) t :=
      fun t ht => ((hlater₁.trans hbegin.later).trans hlater₂).grown.committed t (htips t ht)
    have hguar : Log.Guar E content base s₂ (Log.handler base (.commitTxn (txn.updateAll updates).1) s₂).2 :=
      guar_commitTxn htips₂ txn rfl
    have hend : ∀ committed : Bool, SafeIn E content base A (fun _ _ => True)
        (if committed then pure (txn.updateAll updates).2 else updateRefsFrom updates attempts : E.Prog ε _)
        (Log.handler base (.commitTxn (txn.updateAll updates).1) s₂).2 := by
      intro committed
      split
      · exact Prog.Safe.ret fun _ _ => trivial
      · exact safe_updateRefs updates attempts fun t ht => hguar.later.grown.committed t (htips₂ t ht)
    exact ⟨hguar, hend _⟩

theorem safe_flush {ε : Type} (s : Log E.codec.Val) :
    SafeIn E content base A (fun _ _ => True) (Store.flush : E.Prog ε Unit) s := by
  have hflush : GraphProg (Store.flush : E.Prog ε Unit) := ⟨trivial, fun _ => trivial⟩
  exact safe_graphProg hflush s

/-- A promotion: once it has ended, the tips are there. -/
theorem safe_promote {staged : StagedPack} (hacyc : staged.Acyclic E) (htyped : Promote.Typed E staged)
    (hcontent : ∀ x kb, staged.read x = some kb → content x = some kb) (fuel : Nat) (tips : List ObjectId)
    (s : Log E.codec.Val) :
    SafeIn E content base A (fun r s => ∀ p, r = .ok p → ∀ t ∈ tips, Promote.Committed (s.db base) t)
      (Promote.validateAndPromote E fuel staged tips) s := by
  have hmono : ∀ db db' : E.Db, Grown E content db db' → (∀ t ∈ tips, Promote.Committed db t) →
      ∀ t ∈ tips, Promote.Committed db' t := fun db db' hg h t ht => hg.committed t (h t ht)
  refine Prog.Safe.bind (safe_validate hacyc fuel tips s) (fun l s₁ h₁ => ?_) fun e s₁ _ p hp => nomatch hp
  have hl := h₁ s₁ (.refl s₁) l rfl
  have hholds : ∀ e ∈ Promote.writeOrder l, staged.Holds E e :=
    fun e he => hl.holds e ((Promote.writeOrder_perm l).mem_iff.1 he)
  refine Prog.Safe.bind (safe_putAll hcontent _ hholds (Promote.childrenFirst_writeOrder hl htyped) fun _ h => h)
    (fun u s₂ h₂ => ?_) fun e s₂ _ p hp => nomatch hp
  have htips : ∀ t ∈ tips, Promote.Committed (s₂.db base) t := by
    intro t ht
    refine h₂ s₂ (.refl s₂) rfl t ((hl.tips t ht).imp_right fun hmem => ?_)
    exact (Promote.ids_writeOrder_perm l).mem_iff.2 hmem
  refine Prog.Safe.bind ((safe_graphProg (graphProg_extendGraphAll fuel _) s₂).frame hmono htips) (fun u s₃ h₃ => ?_)
    fun e s₃ _ p hp => nomatch hp
  refine Prog.Safe.bind ((safe_flush s₃).frame hmono (h₃ s₃ (.refl s₃)).1) (fun u s₄ h₄ => ?_)
    fun e s₄ _ p hp => nomatch hp
  exact Prog.Safe.ret fun s₅ hlater _ _ => (h₄ s₅ hlater).1

/-- A whole push. -/
theorem safe_receivePack {staged : StagedPack} (hacyc : staged.Acyclic E) (htyped : Promote.Typed E staged)
    (hcontent : ∀ x kb, staged.read x = some kb → content x = some kb) (fuel : Nat) (updates : List RefUpdate)
    (s : Log E.codec.Val) :
    SafeIn E content base A (fun _ _ => True) (Promote.receivePack E fuel staged updates) s :=
  Prog.Safe.bind (safe_promote hacyc htyped hcontent fuel _ s)
    (fun p s₁ h₁ => safe_updateRefs updates UPDATE_REFS_ATTEMPTS (h₁ s₁ (.refl s₁) p rfl)) fun _ _ _ => trivial

end Push

/-- A push of a pack whose ids are hashes, and whose objects refer to objects
of the kinds they declare. -/
def Pushing (E : Env) (content : ObjectId → Option (Kind × Bytes)) (_ : Unit)
    (p : E.Prog PromoteError (List RefUpdateResult)) : Prop :=
  ∃ fuel staged updates, p = Promote.receivePack E fuel staged updates ∧ staged.Acyclic E ∧ Promote.Typed E staged ∧
    ∀ x kb, staged.read x = some kb → content x = some kb

/-- **Every recoverable state is closed.** Any number of pushes run in a
repository created empty, one operation at a time in any order, and crashes
come between. In every state that is reached, before a crash or after it,
every record's children have records, every ref to an object names one with a
record, and every offloaded blob is there. -/
theorem recoverable_closed {E : Env} (content : ObjectId → Option (Kind × Bytes)) {base : E.Db} (hfresh : Fresh E base)
    {c : List (Thread (storeSig E.codec.Val) Unit PromoteError (List RefUpdateResult)) × Log E.codec.Val}
    (hc : Pool.Reachable (Log.handler base) (Pushing E content) (fun _ _ _ => True) Log.Crash (Log.start base) c) :
    ClosedState E (c.2.db base) := by
  have hinv := Pool.reachable_inv (I := Log.Inv E content base) (Q := fun _ _ _ => True) (R := Log.Later E content base)
    (G := Log.Guar E content base) Log.Later.refl (fun _ _ _ => Log.Later.trans)
    (fun tag p s hp _ => by
      obtain ⟨fuel, staged, updates, rfl, hacyc, htyped, hcontent⟩ := hp
      exact Pool.ThreadSafe.of_safe (safe_receivePack hacyc htyped hcontent fuel updates s) fun _ _ _ => trivial)
    (fun s s' hs hg => ⟨hg.later, hg.inv hs⟩) (fun s s' hs hcr => hcr.inv hs) Log.inv_start hc
  exact hinv.1.closed hfresh

namespace Sample

/-- A branch is pushed, and a tag of its tip. -/
def pushes : List (Unit × env.Prog PromoteError (List RefUpdateResult)) :=
  [((), Promote.receivePack env 20 pack [⟨"refs/heads/main", none, some tipId⟩]),
    ((), Promote.receivePack env 20 pack [⟨"refs/tags/v", none, some tagId⟩])]

theorem pushing_pushes : ∀ x ∈ pushes, Pushing env pack.read x.1 x.2 := by
  have htyped : Promote.Typed env pack := fun x y k hr kind body hread =>
    pack_typed .bytes x y k hr kind body (.inr ⟨by simp [Promote.Committed, Db.empty], hread⟩)
  intro x hx
  simp only [pushes, List.mem_cons, List.not_mem_nil, or_false] at hx
  rcases hx with rfl | rfl
  · exact ⟨20, pack, _, rfl, pack_acyclic, htyped, fun _ _ h => h⟩
  · exact ⟨20, pack, _, rfl, pack_acyclic, htyped, fun _ _ h => h⟩

/-- Of three operations the first push does two. -/
def pushOrder : List Nat := (List.replicate 11 [0, 0, 1]).flatten

/-- The branch's push has ended; the other has just written the tag. -/
def beforeCrash : List (Thread (storeSig env.codec.Val) Unit PromoteError (List RefUpdateResult)) × Log env.codec.Val :=
  Pool.turns (Log.handler Db.empty) (Pool.waiting pushes, Log.start Db.empty) pushOrder

theorem reachable_beforeCrash :
    Pool.Reachable (Log.handler Db.empty) (Pushing env pack.read) (fun _ _ _ => True) Log.Crash (Log.start Db.empty)
      beforeCrash :=
  Pool.Reachable.waiting_turns (fun _ _ _ => trivial) .refl pushing_pushes pushOrder

/-- What is durable of that. -/
def afterCrash : Log env.codec.Val :=
  { beforeCrash.2 with entries := beforeCrash.2.entries.take beforeCrash.2.durable }

end Sample

open Sample in
/-- Two pushes at once, and a crash that loses what is not flushed: the tag,
but not the branch. -/
theorem recoverable_closed_sample : Log.Crash beforeCrash.2 afterCrash ∧
    ((beforeCrash.2.db Db.empty).objects tagId).isSome ∧ (afterCrash.db Db.empty).objects tagId = none ∧
      (afterCrash.db Db.empty).refs.get "refs/heads/main" = some (.direct tipId) ∧
      ClosedState env (afterCrash.db Db.empty) := by
  have hrun : ((beforeCrash.2.db Db.empty).objects tagId).isSome ∧ (afterCrash.db Db.empty).objects tagId = none ∧
      (afterCrash.db Db.empty).refs.get "refs/heads/main" = some (.direct tipId) ∧
      beforeCrash.2.durable ≤ beforeCrash.2.entries.length := by
    decide +kernel
  obtain ⟨hwritten, hlost, href, hdurable⟩ := hrun
  have hcrash : Log.Crash beforeCrash.2 afterCrash := ⟨_, le_rfl, hdurable, rfl⟩
  have hclosed := recoverable_closed pack.read fresh_empty (reachable_beforeCrash.crash hcrash)
  exact ⟨hcrash, hwritten, hlost, href, hclosed⟩

end Miscreant
