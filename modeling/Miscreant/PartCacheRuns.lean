/-
What the part cache answers, whatever else is going on.

Any number of reads, head requests, writes, deletions and evictions run at
once, each one operation at a time; requests fail or break off, files cannot be
read or written, or go away. As long as an object is never changed, every file
holds what its name says of it and calls under way share what they should
(`CacheInv`), so a read that answers answers the object's bytes of the range
asked for (`cached_reads_transparent`).
-/
import Miscreant.PartRangeFacts
import Miscreant.PartPathFacts
import Miscreant.Lib.Upholds

namespace Miscreant

open Lib

/-- What the object store has, or would have, at a location: never changed
once it is there. -/
structure StoredObject where
  bytes : Bytes
  eTag : Option String
  version : Option String

/-- A head is of the object: its size, its tag and its version. -/
def StoredObject.Describes (object : StoredObject) (info : ObjectMeta) : Prop :=
  info.size = object.bytes.length ∧ info.eTag = object.eTag ∧ info.version = object.version

/-- The object store keeps to its interface: what it answers is of the object
and of the range asked for, the range goes by `GetRange::as_range`, and a body
is the whole of it or breaks off with a failure. A request for the head may
have no body. -/
structure World.Honest (w : World) (content : String → StoredObject) : Prop where
  info : ∀ {t location options result}, w.get t location options = .ok result →
    (content location).Describes result.info
  range : ∀ {t location options result}, w.get t location options = .ok result →
    canonicalizeRange options.range result.info.size = .ok result.range
  body : ∀ {t location options result}, w.get t location options = .ok result →
    options.head = true ∧ result.chunks.flatten = [] ∨
      result.chunks.flatten <+: slice (content location).bytes result.range.start result.range.stop ∧
        (result.failure = none →
          result.chunks.flatten = slice (content location).bytes result.range.start result.range.stop)
  put : ∀ {t location result}, w.put t location = .ok result →
    result.eTag = (content location).eTag ∧ result.version = (content location).version

/-- The object store answers a request with a failure, or a body that breaks
off with it. -/
def World.Fails (w : World) (location : String) (options : GetOptions) (message : String) : Prop :=
  ∃ t, w.get t location options = .error message ∨
    ∃ result, w.get t location options = .ok result ∧ result.failure = some message

/-- `serde_json` never reads anything else than was written. -/
def HeadCodec.Lawful (codec : HeadCodec) : Prop :=
  ∀ head head', codec.fromJson (codec.toJson head) = some head' → head' = head

namespace CachedObjectStore

variable (cache : CachedObjectStore) (content : String → StoredObject)

/-- What calls of one key may share. -/
def SharedValue : (f : Flight) → f.Key → f.Val → Prop
  | .head, location, head => (content location).Describes head.1
  | .prefetch, (location, _), head => (content location).Describes head.1
  | .part, (location, partId), bytes => bytes = partOf cache.partSizeBytes partId (content location).bytes

/-- What is in the files and in the cells of the calls under way. -/
structure CacheInv (s : PartCacheState) : Prop where
  part : ∀ location partNumber b, s.files (cache.partPath location partNumber) = some b →
    b = partOf cache.partSizeBytes partNumber (content location).bytes
  head : ∀ location b head, s.files (cache.headPath location) = some b → cache.codec.fromJson b = some head →
    (content location).Describes (head.info cache.codec)
  shared : ∀ f c cell value, (s.flights f).cells c = some cell → cell.value = some value →
    cache.SharedValue content f cell.key value
  mapped : ∀ f key c, (s.flights f).inFlight key = some c → ∃ cell, (s.flights f).cells c = some cell ∧ cell.key = key
  fresh : ∀ f c, (s.flights f).next ≤ c → (s.flights f).cells c = none

/-- A cell is of a key. -/
def CellOf (f : Flight) (c : Nat) (key : f.Key) (s : PartCacheState) : Prop :=
  ∃ cell, (s.flights f).cells c = some cell ∧ cell.key = key

/-- The invariant; cells stay, with their keys. -/
def shared : Shared PartCacheState where
  Inv := cache.CacheInv content
  Kept s s' := ∀ f c key, CellOf f c key s → CellOf f c key s'
  refl _ _ _ _ := id
  trans _ _ _ h h' f c key hc := h' f c key (h f c key hc)

theorem lasting_cellOf (f : Flight) (c : Nat) (key : f.Key) : (cache.shared content).Lasting (CellOf f c key) :=
  fun _ _ hc h => h f c key hc

/-- Programs that keep the invariant, whatever they know besides. -/
def Gives (w : World) {α : Type} (Q : Except CacheError α → Prop) (p : CacheProg α) : Prop :=
  ∀ K, (cache.shared content).Lasting K → p.Upholds w.handler (cache.shared content) K Q

end CachedObjectStore

/-! ## Calls under way -/

namespace FlightOp

variable {K T : Type} [DecidableEq K] {s : SingleFlight K T}

omit [DecidableEq K] in
theorem modify_cells (s : SingleFlight K T) (c₀ c : Nat) (f : FlightCell K T → FlightCell K T) :
    (s.modify c₀ f).cells c = if c = c₀ then (s.cells c).map f else s.cells c := by
  by_cases h : c = c₀
  · subst h
    simp [SingleFlight.modify]
  · simp [SingleFlight.modify, h]

theorem leave_cells (s : SingleFlight K T) (key : K) (c₀ c : Nat) :
    ∃ f : FlightCell K T → FlightCell K T, (s.leave key c₀).cells c = (s.cells c).map f ∧
      ∀ cell, (f cell).key = cell.key ∧ (f cell).value = cell.value := by
  have hone : ∀ (s : SingleFlight K T) (c₀ : Nat) (g : Nat → Nat),
      ∃ f : FlightCell K T → FlightCell K T,
        (s.modify c₀ fun cell => { cell with strong := g cell.strong }).cells c = (s.cells c).map f ∧
          ∀ cell, (f cell).key = cell.key ∧ (f cell).value = cell.value := by
    intro s c₀ g
    rw [modify_cells]
    split
    · exact ⟨_, rfl, fun _ => ⟨rfl, rfl⟩⟩
    · exact ⟨id, by rw [Option.map_id, id], fun _ => ⟨rfl, rfl⟩⟩
  obtain ⟨f, hf, hkeep⟩ := hone s c₀ (· - 1)
  unfold SingleFlight.leave
  dsimp only
  split
  · exact ⟨f, hf, hkeep⟩
  · split
    · rename_i c' _ _
      obtain ⟨g, hg, hkeep'⟩ := hone (s.modify c₀ fun cell => { cell with strong := cell.strong - 1 }) c' fun _ => 0
      refine ⟨g ∘ f, ?_, fun cell => ⟨(hkeep' _).1.trans (hkeep cell).1, (hkeep' _).2.trans (hkeep cell).2⟩⟩
      rw [← Option.map_map, ← hf]
      exact hg
    · exact ⟨f, hf, hkeep⟩

/-- What an operation leaves in a cell: its key, and its value unless it is
the operation that ends its run. -/
theorem cells_eq (o : FlightOp K T) (s : SingleFlight K T) (c : Nat) :
    (∃ f : FlightCell K T → FlightCell K T, (o.apply s).2.cells c = (s.cells c).map f ∧
      ∀ cell, (f cell).key = cell.key ∧ ((f cell).value = cell.value ∨ o = .settle c (f cell).value)) ∨
      c = s.next ∧ ∃ key, o = .enter key ∧ (o.apply s).2.cells c = some ⟨key, none, false, 2⟩ := by
  cases o with
  | enter key =>
    simp only [apply, SingleFlight.enter]
    split
    · rw [modify_cells]
      split
      · exact .inl ⟨_, rfl, fun _ => ⟨rfl, .inl rfl⟩⟩
      · exact .inl ⟨id, by rw [Option.map_id, id], fun _ => ⟨rfl, .inl rfl⟩⟩
    · by_cases h : c = s.next
      · exact .inr ⟨h, key, rfl, by simp [h]⟩
      · exact .inl ⟨id, by simp [h], fun _ => ⟨rfl, .inl rfl⟩⟩
  | poll c₀ =>
    have hsame : ∃ f : FlightCell K T → FlightCell K T, s.cells c = (s.cells c).map f ∧
        ∀ cell, (f cell).key = cell.key ∧ ((f cell).value = cell.value ∨ (.poll c₀ : FlightOp K T) = .settle c (f cell).value) :=
      ⟨id, by rw [Option.map_id, id], fun _ => ⟨rfl, .inl rfl⟩⟩
    refine .inl ?_
    simp only [apply, SingleFlight.poll]
    split
    · exact hsame
    · split
      · exact hsame
      · split
        · exact hsame
        · simp only [modify_cells]
          split
          · exact ⟨_, rfl, fun _ => ⟨rfl, .inl rfl⟩⟩
          · exact hsame
  | settle c₀ value =>
    refine .inl ?_
    simp only [apply, SingleFlight.settle, modify_cells]
    split
    · rename_i h
      subst h
      exact ⟨_, rfl, fun _ => ⟨rfl, .inr rfl⟩⟩
    · exact ⟨id, by rw [Option.map_id, id], fun _ => ⟨rfl, .inl rfl⟩⟩
  | leave key c₀ =>
    obtain ⟨f, hf, hkeep⟩ := leave_cells s key c₀ c
    exact .inl ⟨f, hf, fun cell => ⟨(hkeep cell).1, .inl (hkeep cell).2⟩⟩

theorem next_le (o : FlightOp K T) (s : SingleFlight K T) :
    s.next ≤ (o.apply s).2.next ∧ ((o.apply s).2.next = s.next ∨ ∃ key, o = .enter key ∧ s.inFlight key = none) := by
  cases o with
  | enter key =>
    simp only [apply, SingleFlight.enter]
    split
    · exact ⟨Nat.le_refl _, .inl rfl⟩
    · rename_i h
      exact ⟨Nat.le_succ _, .inr ⟨key, rfl, h⟩⟩
  | poll c₀ =>
    simp only [apply, SingleFlight.poll]
    split
    · exact ⟨Nat.le_refl _, .inl rfl⟩
    · split
      · exact ⟨Nat.le_refl _, .inl rfl⟩
      · split <;> exact ⟨Nat.le_refl _, .inl rfl⟩
  | settle c₀ value => exact ⟨Nat.le_refl _, .inl rfl⟩
  | leave key c₀ =>
    simp only [apply, SingleFlight.leave]
    split
    · exact ⟨Nat.le_refl _, .inl rfl⟩
    · split <;> exact ⟨Nat.le_refl _, .inl rfl⟩

/-- Past `next` there is no cell. -/
theorem fresh (hfresh : ∀ c, s.next ≤ c → s.cells c = none) (o : FlightOp K T) :
    ∀ c, (o.apply s).2.next ≤ c → (o.apply s).2.cells c = none := by
  intro c hc
  obtain ⟨hle, -⟩ := next_le o s
  rcases cells_eq o s c with ⟨f, hf, -⟩ | ⟨rfl, key, rfl, -⟩
  · rw [hf, hfresh c (by omega), Option.map_none]
  · simp only [apply, SingleFlight.enter] at hc ⊢
    split at hc
    · simp only [modify_cells, hfresh s.next (Nat.le_refl _), Option.map_none, ite_self]
    · simp only at hc
      omega

/-- A cell found keeps its key. -/
theorem cell_kept (hfresh : ∀ c, s.next ≤ c → s.cells c = none) (o : FlightOp K T) {cell : FlightCell K T}
    (hc : s.cells c = some cell) : ∃ cell', (o.apply s).2.cells c = some cell' ∧ cell'.key = cell.key := by
  rcases cells_eq o s c with ⟨f, hf, hkeep⟩ | ⟨rfl, -⟩
  · exact ⟨f cell, by rw [hf, hc, Option.map_some], (hkeep cell).1⟩
  · rw [hfresh _ (Nat.le_refl _)] at hc
    cases hc

/-- The map gets the key of a call that enters, and no other. -/
theorem inFlight_of (o : FlightOp K T) {key : K} {c : Nat} (h : (o.apply s).2.inFlight key = some c) :
    s.inFlight key = some c ∨ c = s.next ∧ (o.apply s).2.cells c = some ⟨key, none, false, 2⟩ := by
  cases o with
  | enter key' =>
    simp only [apply, SingleFlight.enter] at h ⊢
    split at h
    · exact .inl h
    · by_cases hkey : key = key'
      · subst hkey
        obtain rfl : s.next = c := by simpa using h
        exact .inr (by simp)
      · exact .inl (by simpa [hkey] using h)
  | poll c₀ =>
    simp only [apply, SingleFlight.poll] at h
    split at h
    · exact .inl h
    · split at h
      · exact .inl h
      · split at h <;> exact .inl h
  | settle c₀ value => exact .inl h
  | leave key' c₀ =>
    simp only [apply, SingleFlight.leave] at h
    split at h
    · exact .inl h
    · split at h
      · by_cases hkey : key = key'
        · subst hkey
          simp at h
        · exact .inl (by simpa [hkey, SingleFlight.modify] using h)
      · exact .inl h

theorem enter_cell (hmapped : ∀ key c, s.inFlight key = some c → ∃ cell, s.cells c = some cell ∧ cell.key = key)
    (key : K) : ∃ cell, (s.enter key).2.cells (s.enter key).1 = some cell ∧ cell.key = key := by
  unfold SingleFlight.enter
  split
  · rename_i c hc
    obtain ⟨cell, hcell, hkey⟩ := hmapped key c hc
    exact ⟨{ cell with strong := cell.strong + 1 }, by rw [modify_cells, if_pos rfl, hcell]; rfl, hkey⟩
  · exact ⟨⟨key, none, false, 2⟩, by simp, rfl⟩

omit [DecidableEq K] in
theorem poll_ready {c : Nat} {value : T} (h : (s.poll c).1 = .ready value) :
    ∃ cell, s.cells c = some cell ∧ cell.value = some value := by
  unfold SingleFlight.poll at h
  split at h
  · cases h
  · rename_i cell hcell
    split at h
    · rename_i value' hv
      cases h
      exact ⟨cell, hcell, hv⟩
    · split at h <;> cases h

end FlightOp

/-! ## Operations -/

namespace CachedObjectStore

variable {cache : CachedObjectStore} {content : String → StoredObject} {w : World}

/-- An operation on the files or the object store leaves the calls alone. -/
theorem CacheInv.of_files {s : PartCacheState} {files : String → Option Bytes} (h : cache.CacheInv content s)
    (hpart : ∀ location partNumber b, files (cache.partPath location partNumber) = some b →
      b = partOf cache.partSizeBytes partNumber (content location).bytes)
    (hhead : ∀ location b head, files (cache.headPath location) = some b → cache.codec.fromJson b = some head →
      (content location).Describes (head.info cache.codec)) :
    cache.CacheInv content { s.tick with files } :=
  ⟨hpart, hhead, h.shared, h.mapped, h.fresh⟩

theorem CacheInv.tick {s : PartCacheState} (h : cache.CacheInv content s) : cache.CacheInv content s.tick :=
  h.of_files h.part h.head

theorem CacheInv.flight {s : PartCacheState} (h : cache.CacheInv content s) {f : Flight} {o : FlightOp f.Key f.Val}
    (ho : ∀ c value, o = .settle c (some value) →
      ∀ cell, (s.flights f).cells c = some cell → cache.SharedValue content f cell.key value) :
    cache.CacheInv content (w.handler (.flight f o) s).2 ∧
      (cache.shared content).Kept s (w.handler (.flight f o) s).2 := by
  have hsame : (w.handler (.flight f o) s).2.flights f = (o.apply (s.flights f)).2 := Function.update_self ..
  have hother : ∀ g, g ≠ f → (w.handler (.flight f o) s).2.flights g = s.flights g :=
    fun g hg => Function.update_of_ne hg ..
  refine ⟨⟨h.part, h.head, fun g c cell value hc hv => ?_, fun g key c hc => ?_, fun g c hc => ?_⟩,
    fun g c key hc => ?_⟩
  · by_cases hg : g = f
    · subst hg
      rw [hsame] at hc
      rcases FlightOp.cells_eq o (s.flights g) c with ⟨fn, hfn, hkeep⟩ | ⟨-, key, -, hnew⟩
      · rw [hfn] at hc
        obtain ⟨cell₀, hc₀, rfl⟩ := Option.map_eq_some_iff.1 hc
        rw [(hkeep cell₀).1]
        rcases (hkeep cell₀).2 with hkept | hset
        · exact h.shared g c cell₀ value hc₀ (hkept ▸ hv)
        · exact ho c value (by rw [hset, hv]) cell₀ hc₀
      · cases hnew.symm.trans hc
        cases hv
    · rw [hother g hg] at hc
      exact h.shared g c cell value hc hv
  · by_cases hg : g = f
    · subst hg
      rw [hsame] at hc ⊢
      rcases FlightOp.inFlight_of o hc with hold | ⟨-, hnew⟩
      · obtain ⟨cell, hcell, hkey⟩ := h.mapped g key c hold
        obtain ⟨cell', hcell', hkey'⟩ := FlightOp.cell_kept (h.fresh g) o hcell
        exact ⟨cell', hcell', hkey'.trans hkey⟩
      · exact ⟨_, hnew, rfl⟩
    · rw [hother g hg] at hc ⊢
      exact h.mapped g key c hc
  · by_cases hg : g = f
    · subst hg
      rw [hsame] at hc ⊢
      exact FlightOp.fresh (h.fresh g) o c hc
    · rw [hother g hg] at hc ⊢
      exact h.fresh g c hc
  · obtain ⟨cell, hcell, hkey⟩ := hc
    by_cases hg : g = f
    · subst hg
      obtain ⟨cell', hcell', hkey'⟩ := FlightOp.cell_kept (h.fresh g) o hcell
      exact ⟨cell', by rw [hsame]; exact hcell', hkey'.trans hkey⟩
    · exact ⟨cell, by rw [hother g hg]; exact hcell, hkey⟩

/-! ## Rules -/

section Rules

variable {α β : Type} {Q : Except CacheError α → Prop} {Q' : Except CacheError β → Prop}

theorem Gives.ret {a : α} (h : Q (.ok a)) : cache.Gives content w Q (Prog.ret a) := fun _ hK => .ret hK h

theorem Gives.fail {e : CacheError} (h : Q (.error e)) : cache.Gives content w Q (Prog.fail e) := fun _ hK => .fail hK h

theorem Gives.ofExcept {x : Except CacheError α} (h : Q x) : cache.Gives content w Q (Prog.ofExcept x) :=
  fun _ hK => .ofExcept hK h

theorem Gives.weaken {R : Except CacheError α → Prop} {p : CacheProg α} (h : cache.Gives content w R p)
    (hq : ∀ r, R r → Q r) : cache.Gives content w Q p := fun K hK => (h K hK).weaken hq

theorem Gives.bind {p : CacheProg α} {f : α → CacheProg β} (hp : cache.Gives content w Q p)
    (hok : ∀ a, Q (.ok a) → cache.Gives content w Q' (f a)) (herr : ∀ e, Q (.error e) → Q' (.error e)) :
    cache.Gives content w Q' (p >>= f) := fun K hK => .bind (hp K hK) (fun a ha => hok a ha K hK) herr

/-- The failures of a program as answers. -/
theorem Gives.bind_attempt {p : CacheProg α} {f : Except CacheError α → CacheProg β} (hp : cache.Gives content w Q p)
    (hf : ∀ r, Q r → cache.Gives content w Q' (f r)) :
    cache.Gives content w Q' ((p.attempt : CacheProg (Except CacheError α)) >>= f) := fun K hK =>
  Prog.Upholds.bind (Q := fun r => match r with | .ok r => Q r | .error _ => False)
    (.attempt (hp K hK)) (fun r hr => hf r hr K hK) fun _ he => he.elim

theorem Gives.ok {p : CacheProg α} (hp : cache.Gives content w Q p) (hpanic : Q (.error .panic) → Q' (.error .panic))
    {k : CacheProg β} (hk : cache.Gives content w Q' k) :
    cache.Gives content w Q' (CachedObjectStore.ok p >>= fun _ => k) := by
  rw [CachedObjectStore.ok, Prog.bind_assoc]
  refine Gives.bind_attempt hp fun r hr => ?_
  cases r with
  | ok a => exact hk
  | error e =>
    cases e with
    | panic => exact Gives.fail (hpanic hr)
    | upstream e => exact hk
    | disk => exact hk
    | range e => exact hk

theorem Gives.op {o : CacheOp} {k : o.Ans → CacheProg α} {P : o.Ans → Prop}
    (ho : ∀ s, cache.CacheInv content s →
      (cache.shared content).Kept s (w.handler o s).2 ∧ cache.CacheInv content (w.handler o s).2 ∧ P (w.handler o s).1)
    (hk : ∀ ans, P ans → cache.Gives content w Q (k ans)) :
    cache.Gives content w Q (Prog.op (S := cacheSig) o k) :=
  fun K hK => .op_ans hK (fun s hi _ => ho s hi) fun ans hans => hk ans hans K hK

theorem gives_readFile {path : String} {P : Bytes → Prop}
    (hP : ∀ s, cache.CacheInv content s → ∀ b, s.files path = some b → P b) :
    cache.Gives content w (fun r => r ≠ .error .panic ∧ ∀ b, r = .ok (some b) → P b) (readFile path) := by
  refine Gives.op (P := fun ans => ∀ b, ans = .ok (some b) → P b) (fun s hs => ⟨fun _ _ _ h => h, hs.tick, ?_⟩)
    fun ans hans => ?_
  · intro b hb
    have hb : (if w.readFails s.clock path then (.error () : Except Unit (Option Bytes)) else .ok (s.files path)) =
      .ok (some b) := hb
    split at hb
    · cases hb
    · exact hP s hs b (Except.ok.inj hb)
  · cases ans with
    | ok content => exact Gives.ret ⟨by simp, fun b hb => hans b (congrArg Except.ok (Except.ok.inj hb))⟩
    | error _ => exact Gives.fail ⟨by simp, fun b hb => by cases hb⟩

theorem gives_atomicWrite {path : String} {buf : Bytes}
    (h : ∀ s, cache.CacheInv content s →
      cache.CacheInv content { s.tick with files := Function.update s.files path (some buf) }) :
    cache.Gives content w (fun r => r ≠ .error .panic) (atomicWrite path buf) := by
  refine Gives.op (P := fun _ => True) (fun s hs => ⟨fun _ _ _ h => h, ?_, trivial⟩) fun ans _ => ?_
  · simp only [World.handler]
    split
    · exact h s hs
    · exact hs.tick
  · cases ans with
    | ok _ => exact Gives.ret (by simp)
    | error _ => exact Gives.fail (by simp)

theorem gives_upstreamGet {location : String} {options : GetOptions} :
    cache.Gives content w
      (fun r => match r with
        | .ok result => ∃ t, w.get t location options = .ok result
        | .error e => ∃ message, e = .upstream message ∧ w.Fails location options message)
      (upstreamGet location options) := by
  refine Gives.op (P := fun ans => ∃ t, w.get t location options = ans)
    (fun s hs => ⟨fun _ _ _ h => h, hs.tick, s.clock, rfl⟩) fun ans hans => ?_
  obtain ⟨t, hget⟩ := hans
  cases ans with
  | ok result => exact Gives.ret ⟨t, hget⟩
  | error message => exact Gives.fail ⟨message, rfl, t, .inl hget⟩

end Rules

/-! ## Single flights -/

/-- A call answers what calls of its key may share, if its own function
does. -/
theorem gives_call {polls : Nat} {f : Flight} {k : f.Key} {func : CacheProg f.Val} {E : CacheError → Prop}
    (hfunc : cache.Gives content w
      (fun r => match r with | .ok value => cache.SharedValue content f k value | .error e => E e) func) :
    cache.Gives content w
      (fun r => match r with | .ok value => cache.SharedValue content f k value | .error e => E e)
      (call polls f k func) := by
  intro K hK
  refine Prog.Upholds.op hK (L := fun cell => CellOf f cell k) (fun s hi _ => ?_) fun (cell : Nat) => ?_
  · obtain ⟨hinv, hkept⟩ := CacheInv.flight (w := w) hi (o := .enter k) (by simp)
    obtain ⟨cell, hcell, hkey⟩ := FlightOp.enter_cell (hi.mapped f) k
    refine ⟨hkept, hinv, cell, ?_, hkey⟩
    exact (congrFun (congrArg SingleFlight.cells (Function.update_self f _ s.flights)) _).trans hcell
  have hL := hK.and (lasting_cellOf cache content f cell k)
  -- the value found, or the one made
  refine Prog.Upholds.bind
    (Q := fun (r : Except CacheError (Except CacheError f.Val)) => match r with
      | .ok (.ok value) => cache.SharedValue content f k value
      | .ok (.error e) => E e
      | .error _ => False)
    (Prog.Upholds.loop hL _ (J := fun _ => True) (fun _ _ => ?_) polls trivial) (fun r hr => ?_) fun e he => he.elim
  · refine Prog.Upholds.op_ans hL
      (P := fun ans => ∀ value, ans = .ready value → cache.SharedValue content f k value)
      (fun s hi hk => ?_) fun (ans : FlightPoll f.Val) hans => ?_
    · obtain ⟨hinv, hkept⟩ := CacheInv.flight (w := w) hi (o := .poll cell) (by simp)
      refine ⟨hkept, hinv, fun value hready => ?_⟩
      obtain ⟨cell₀, hc₀, hv⟩ := FlightOp.poll_ready hready
      obtain ⟨cell₁, hc₁, hkey⟩ := hk.2
      cases hc₀.symm.trans hc₁
      exact hkey ▸ hi.shared f cell cell₀ value hc₀ hv
    · cases ans with
      | ready value => exact .ret hL (hans value rfl)
      | pending => exact .ret hL trivial
      | run =>
        refine Prog.Upholds.bind
          (Q := fun (r : Except CacheError (Except CacheError f.Val)) => match r with
            | .ok (.ok value) => cache.SharedValue content f k value
            | .ok (.error e) => E e
            | .error _ => False)
          (.attempt ((hfunc _ hL).weaken ?_)) (fun r hr => ?_) fun e he => he.elim
        · rintro (e | value) h <;> exact h
        · have hsettle : ∀ value, (∀ v, value = some v → cache.SharedValue content f k v) →
              ∀ s, cache.CacheInv content s → K s ∧ CellOf f cell k s →
                (cache.shared content).Kept s (w.handler (.flight f (.settle cell value)) s).2 ∧
                  cache.CacheInv content (w.handler (.flight f (.settle cell value)) s).2 ∧ True := by
            intro value hv s hi hk
            obtain ⟨cell₀, hc₀, hkey⟩ := hk.2
            obtain ⟨hinv, hkept⟩ := CacheInv.flight (w := w) hi (o := .settle cell value) fun c v heq cell' hc' => by
              cases heq
              cases hc₀.symm.trans hc'
              rw [hkey]
              exact hv v rfl
            exact ⟨hkept, hinv, trivial⟩
          cases r with
          | ok value =>
            refine Prog.Upholds.op_ans hL (P := fun _ => True) (hsettle (some value) fun v hv => ?_) fun _ _ =>
              .ret hL hr
            cases hv
            exact hr
          | error e =>
            exact Prog.Upholds.op_ans hL (P := fun _ => True) (hsettle none (by simp)) fun _ _ => .ret hL hr
  · refine Prog.Upholds.op_ans hL (P := fun _ => True) (fun s hi _ => ?_) fun _ _ => .ofExcept hL ?_
    · obtain ⟨hinv, hkept⟩ := CacheInv.flight (w := w) hi (o := .leave k cell) (by simp)
      exact ⟨hkept, hinv, trivial⟩
    · cases r with
      | ok value => exact hr
      | error e => exact hr

/-! ## Files -/

theorem partPath_inj {location location' : String} {n n' : Nat}
    (h : cache.partPath location n = cache.partPath location' n') : location = location' ∧ n = n' := by
  obtain ⟨heq, -⟩ := CacheFile.path_inj cache.rootFolder (f := .part location n cache.partSizeBytes)
    (g := .part location' n' cache.partSizeBytes) cache.valid.2 cache.valid.2 (v := none) (w := none)
    CacheFile.alphanumeric_none CacheFile.alphanumeric_none h
  cases heq
  exact ⟨rfl, rfl⟩

theorem headPath_inj {location location' : String} (h : cache.headPath location = cache.headPath location') :
    location = location' := by
  obtain ⟨heq, -⟩ := CacheFile.path_inj cache.rootFolder (f := .head location) (g := .head location')
    trivial trivial (v := none) (w := none) CacheFile.alphanumeric_none CacheFile.alphanumeric_none h
  cases heq
  rfl

theorem partPath_ne_headPath (location location' : String) (n : Nat) :
    cache.partPath location n ≠ cache.headPath location' := by
  intro h
  obtain ⟨heq, -⟩ := CacheFile.path_inj cache.rootFolder (f := .part location n cache.partSizeBytes)
    (g := .head location') cache.valid.2 trivial (v := none) (w := none) CacheFile.alphanumeric_none CacheFile.alphanumeric_none h
  cases heq

theorem CacheInv.savePart {s : PartCacheState} (h : cache.CacheInv content s) {location : String} {n : Nat} {buf : Bytes}
    (hbuf : buf = partOf cache.partSizeBytes n (content location).bytes) :
    cache.CacheInv content { s.tick with files := Function.update s.files (cache.partPath location n) (some buf) } := by
  refine h.of_files (fun location' n' b hb => ?_) fun location' b head hb => ?_
  · by_cases hpath : cache.partPath location' n' = cache.partPath location n
    · obtain ⟨rfl, rfl⟩ := partPath_inj hpath
      rw [Function.update_self] at hb
      cases hb
      exact hbuf
    · rw [Function.update_of_ne hpath] at hb
      exact h.part location' n' b hb
  · rw [Function.update_of_ne (partPath_ne_headPath location location' n).symm] at hb
    exact h.head location' b head hb

theorem CacheInv.saveHead (hcodec : cache.codec.Lawful) {s : PartCacheState} (h : cache.CacheInv content s)
    {location : String} {info : ObjectMeta} (attributes : Attributes) (hinfo : (content location).Describes info) :
    cache.CacheInv content { s.tick with
      files := Function.update s.files (cache.headPath location)
        (some (cache.codec.toJson (.ofMeta cache.codec info attributes))) } := by
  refine h.of_files (fun location' n' b hb => ?_) fun location' b head hb hjson => ?_
  · rw [Function.update_of_ne (partPath_ne_headPath location' location n')] at hb
    exact h.part location' n' b hb
  · by_cases hpath : cache.headPath location' = cache.headPath location
    · rw [headPath_inj hpath, Function.update_self] at hb
      rw [← Option.some.inj hb] at hjson
      rw [hcodec _ _ hjson, headPath_inj hpath]
      exact hinfo
    · rw [Function.update_of_ne hpath] at hb
      exact h.head location' b head hb hjson

/-! ## Saving -/

section Programs

variable (hcodec : cache.codec.Lawful) {location : String}

theorem gives_readHead : cache.Gives content w
    (fun r => r ≠ .error .panic ∧ ∀ head, r = .ok (some head) → (content location).Describes head.1)
    (cache.readHead location) := by
  refine Gives.bind (gives_readFile (P := fun b => ∀ head, cache.codec.fromJson b = some head →
    (content location).Describes (head.info cache.codec)) fun s hs b hb head => hs.head location b head hb)
    (fun file hfile => ?_) fun e he => ⟨fun h => he.1 (by cases h; rfl), fun head h => by cases h⟩
  cases file with
  | none => exact Gives.ret ⟨by simp, fun head h => by cases h⟩
  | some b =>
    dsimp only
    split
    · exact Gives.fail ⟨by simp, fun head h => by cases h⟩
    · rename_i head hjson
      refine Gives.ret ⟨by simp, fun head' h => ?_⟩
      cases h
      exact hfile.2 b rfl head hjson

include hcodec in
theorem gives_saveHead {info : ObjectMeta} {attributes : Attributes} (hinfo : (content location).Describes info) :
    cache.Gives content w (fun r => r ≠ .error .panic) (cache.saveHead location info attributes) := by
  refine Gives.bind_attempt gives_readHead fun r _ => ?_
  split
  · exact Gives.ret (by simp)
  · exact gives_atomicWrite fun s hs => hs.saveHead hcodec attributes hinfo

theorem gives_savePart {n : Nat} {buf : Bytes} (hbuf : buf = partOf cache.partSizeBytes n (content location).bytes) :
    cache.Gives content w (fun r => r ≠ .error .panic) (cache.savePart location n buf) :=
  gives_atomicWrite fun _ hs => hs.savePart hbuf

end Programs

/-- What is left of a body from part `n` on: the object's bytes from there,
up to the end of a part or of the object unless the body breaks off. -/
structure Pending (bytes : Bytes) (size : Nat) (failure : Option String) (n : Nat) (rest : Bytes) : Prop where
  here : rest <+: bytes.drop (size * n)
  ends : failure = none → size ∣ rest.length ∨ size * n + rest.length = bytes.length

theorem Pending.full {bytes : Bytes} {size : Nat} {failure : Option String} {n : Nat} {buffer rest : Bytes}
    (h : Pending bytes size failure n (buffer ++ rest)) (hlen : size ≤ buffer.length) :
    buffer.take size = partOf size n bytes ∧ Pending bytes size failure (n + 1) (buffer.drop size ++ rest) := by
  obtain ⟨tail, htail⟩ := h.here
  have hsplit : buffer.drop size ++ rest = (buffer ++ rest).drop size := (List.drop_append_of_le_length hlen).symm
  have hnext : size * (n + 1) = size * n + size := by rw [Nat.mul_add, Nat.mul_one]
  refine ⟨?_, ?_, fun hf => ?_⟩
  · rw [partOf, slice, hnext, Nat.add_sub_cancel_left, ← htail, List.append_assoc,
      List.take_append_of_le_length hlen]
  · rw [hsplit, hnext, ← List.drop_drop]
    exact h.here.drop size
  · have hlength : (buffer ++ rest).length = size + (buffer.drop size ++ rest).length := by
      rw [hsplit, List.length_drop]
      have : size ≤ (buffer ++ rest).length := by rw [List.length_append]; omega
      omega
    rcases h.ends hf with hdvd | hend
    · rw [hlength] at hdvd
      exact .inl ((Nat.dvd_add_right (Nat.dvd_refl size)).1 hdvd)
    · right
      omega

/-- What is left at the end is the object's last part. -/
theorem Pending.last {bytes : Bytes} {size : Nat} {n : Nat} {buffer : Bytes} (h : Pending bytes size none n buffer)
    (hlt : buffer.length < size) (hne : buffer ≠ []) : buffer = partOf size n bytes := by
  have hpos : 0 < buffer.length := List.length_pos_iff.2 hne
  have hend : size * n + buffer.length = bytes.length := by
    rcases h.ends rfl with hdvd | hend
    · exact absurd (Nat.le_of_dvd hpos hdvd) (by omega)
    · exact hend
  have hwhole : buffer = bytes.drop (size * n) := by
    refine List.IsPrefix.eq_of_length h.here ?_
    rw [List.length_drop]
    omega
  rw [partOf, slice_of_le_length (by rw [Nat.mul_add, Nat.mul_one]; omega), ← hwhole]

theorem gives_drain {location : String} {failure : Option String} {rest : Bytes} {buffer : Bytes} {n : Nat}
    (h : Pending (content location).bytes cache.partSizeBytes failure n (buffer ++ rest)) :
    cache.Gives content w
      (fun r => match r with
        | .ok (buffer, n) =>
          buffer.length < cache.partSizeBytes ∧
            Pending (content location).bytes cache.partSizeBytes failure n (buffer ++ rest)
        | .error e => e ≠ .panic)
      (cache.drain location buffer n) := by
  intro K hK
  refine Prog.Upholds.loop hK _
    (J := fun x : Bytes × Nat => Pending (content location).bytes cache.partSizeBytes failure x.2 (x.1 ++ rest))
    (fun x h => ?_) _ h
  obtain ⟨buffer, n⟩ := x
  dsimp only at h ⊢
  split
  · rename_i hlen
    obtain ⟨hpart, hnext⟩ := Pending.full h hlen
    exact Prog.Upholds.bind (gives_savePart hpart K hK) (fun _ _ => .ret hK hnext) fun e he => by simpa using he
  · rename_i hlen
    exact .ret hK ⟨Nat.lt_of_not_le hlen, h⟩

theorem gives_savePartsFrom {location : String} {failure : Option String} :
    ∀ {chunks : List Bytes} {b : Bytes} {n total : Nat}, b.length < cache.partSizeBytes →
      Pending (content location).bytes cache.partSizeBytes failure n (b ++ chunks.flatten) →
        cache.Gives content w (fun r => r ≠ .error .panic)
          (cache.savePartsFrom location failure chunks b n total)
  | [], buffer, n, total, hlt, h => by
    rw [List.flatten_nil, List.append_nil] at h
    unfold savePartsFrom
    split
    · exact Gives.fail (by simp)
    · by_cases hne : buffer = []
      · rw [if_neg (not_not.2 hne)]
        exact Gives.ret (by simp)
      · rw [if_pos hne]
        exact Gives.bind (gives_savePart (h.last hlt hne)) (fun _ _ => Gives.ret (by simp)) fun e he => by simpa using he
  | chunk :: chunks, buffer, n, total, _, h => by
    rw [List.flatten_cons, ← List.append_assoc] at h
    exact Gives.bind (gives_drain h) (fun ⟨buffer, n⟩ hb => gives_savePartsFrom hb.1 hb.2) fun e he => by simpa using he

section Programs

variable (hcodec : cache.codec.Lawful) (hw : w.Honest content) {location : String}

/-- The body of an answer is pending from the first of its parts. -/
theorem honest_pending {w : World} (hw : w.Honest content) {t : Nat} {options : GetOptions} {result : GetResult}
    (hget : w.get t location options = .ok result) {size : Nat} (hstart : size ∣ result.range.start)
    (hstop : size ∣ result.range.stop ∨ result.range.stop = result.info.size) :
    Pending (content location).bytes size result.failure (result.range.start / size) result.chunks.flatten := by
  obtain ⟨hle, hbound⟩ := canonicalizeRange_bounds (hw.range hget)
  rw [(hw.info hget).1] at hbound hstop
  rcases hw.body hget with ⟨-, hempty⟩ | ⟨hfront, hwhole⟩
  · rw [hempty]
    exact ⟨List.nil_prefix, fun _ => .inl (Nat.dvd_zero _)⟩
  · refine ⟨?_, fun hf => ?_⟩
    · rw [Nat.mul_div_cancel' hstart]
      exact hfront.trans (List.take_prefix _ _)
    · rw [hwhole hf, length_slice, Nat.min_eq_left hbound, Nat.mul_div_cancel' hstart]
      rcases hstop with hdvd | hend
      · exact .inl (Nat.dvd_sub hdvd hstart)
      · right
        omega

include hcodec hw in
/-- An answer of the object store is saved, or one of the assertions does not
hold. -/
theorem gives_saveGetResult {t : Nat} {options : GetOptions} {result : GetResult}
    (hget : w.get t location options = .ok result)
    (hstop : cache.partSizeBytes ∣ result.range.stop ∨ result.range.stop = result.info.size) :
    cache.Gives content w (fun r => r = .error .panic → ¬cache.partSizeBytes ∣ result.range.start)
      (cache.saveGetResult location result) := by
  unfold saveGetResult
  by_cases hstart : cache.partSizeBytes ∣ result.range.start
  · rw [if_pos ⟨hstart, hstop⟩]
    refine Gives.bind (gives_saveHead hcodec (hw.info hget)) (fun _ _ => ?_) fun e he => fun h => absurd (by cases h; rfl) he
    refine Gives.bind (gives_savePartsFrom cache.partSize_pos (honest_pending hw hget hstart hstop))
      (fun _ _ => Gives.ret (by simp)) fun e he => fun h => absurd (by cases h; rfl) he
  · rw [if_neg (fun h => hstart h.1)]
    exact Gives.fail fun _ => hstart

include hcodec hw in
theorem gives_cachedHead {polls : Nat} {admitOnMiss : Bool} :
    cache.Gives content w
      (fun r => match r with
        | .ok head => (content location).Describes head.1
        | .error e => ∃ message, e = .upstream message ∧ w.Fails location ⟨none, true⟩ message)
      (cache.cachedHead polls location admitOnMiss) := by
  have hmiss : cache.Gives content w
      (fun r => match r with
        | .ok head => (content location).Describes head.1
        | .error e => ∃ message, e = .upstream message ∧ w.Fails location ⟨none, true⟩ message)
      (call polls .head location do
        let result ← upstreamGet location ⟨none, true⟩
        if admitOnMiss then ok (cache.saveGetResult location result)
        Prog.ret (result.info, result.attributes)) := by
    refine Gives.weaken (gives_call (f := .head) (k := location)
      (E := fun e => ∃ message, e = .upstream message ∧ w.Fails location ⟨none, true⟩ message) ?_)
      fun r hr => by cases r <;> exact hr
    refine Gives.bind gives_upstreamGet (fun result hget => ?_) fun e he => he
    obtain ⟨t, hget⟩ := hget
    by_cases hadmit : admitOnMiss = true
    · obtain ⟨hstart, hstop⟩ : cache.partSizeBytes ∣ result.range.start ∧ result.range.stop = result.info.size := by
        rw [← Except.ok.inj (hw.range hget)]
        exact ⟨Nat.dvd_zero _, rfl⟩
      rw [if_pos hadmit]
      exact Gives.ok (gives_saveGetResult hcodec hw hget (.inr hstop)) (fun h => absurd hstart (h rfl))
        (Gives.ret (hw.info hget))
    · rw [if_neg hadmit]
      exact Gives.ret (hw.info hget)
  refine Gives.bind_attempt gives_readHead fun r hr => ?_
  rcases r with e | _ | head
  · exact hmiss
  · exact hmiss
  · exact Gives.ret (hr.2 head rfl)

/-- The request for a part. -/
def partOptions (cache : CachedObjectStore) (n : Nat) : GetOptions :=
  ⟨some (.bounded ⟨n * cache.partSizeBytes, (n + 1) * cache.partSizeBytes⟩), false⟩

/-- What a read can fail with: a failure of the object store, of the aligned
request or of one for a part; that the range is not one of the object; or the
assertion. -/
inductive ReadError (cache : CachedObjectStore) (w : World) (object : StoredObject) (location : String)
    (range : Option GetRange) : CacheError → Prop
  | prefetch {message} (h : w.Fails location ⟨range.map cache.alignGetRange, false⟩ message) :
      ReadError cache w object location range (.upstream message)
  | part {n message} (hn : cache.partSizeBytes * n < object.bytes.length)
      (h : w.Fails location (cache.partOptions n) message) :
      ReadError cache w object location range (.upstream message)
  | range {e} (h : canonicalizeRange range object.bytes.length = .error e) :
      ReadError cache w object location range (.range e)
  | panic (h : ¬cache.Aligned range object.bytes.length) : ReadError cache w object location range .panic

include hcodec hw in
theorem gives_maybePrefetchRange {polls : Nat} {range : Option GetRange} (hrounds : cache.Rounds range) :
    cache.Gives content w
      (fun r => match r with
        | .ok head => (content location).Describes head.info
        | .error e => cache.ReadError w (content location) location range e)
      (cache.maybePrefetchRange polls location range) := by
  have hmiss : cache.Gives content w
      (fun r => match r with
        | .ok head => (content location).Describes head.info
        | .error e => cache.ReadError w (content location) location range e)
      (do
        let head ← call polls .prefetch (location, range.map cache.alignGetRange) do
          let result ← upstreamGet location ⟨range.map cache.alignGetRange, false⟩
          ok (cache.saveGetResult location result)
          Prog.ret (result.info, result.attributes)
        Prog.ret (⟨head.1, head.2, .upstream⟩ : PrefetchedHead)) := by
    refine Gives.bind
      (gives_call (f := .prefetch) (k := (location, range.map cache.alignGetRange))
        (E := cache.ReadError w (content location) location range) ?_)
      (fun head hhead => Gives.ret hhead) fun e he => he
    refine Gives.bind gives_upstreamGet (fun result hget => ?_) fun e he => ?_
    · obtain ⟨t, hget⟩ := hget
      have hwide := cache.alignGetRange_widened hrounds result.info.size
      rw [hw.range hget] at hwide
      refine Gives.ok (gives_saveGetResult hcodec hw hget hwide.stops) (fun h => .panic ?_) (Gives.ret (hw.info hget))
      rw [← (hw.info hget).1, ← hwide.starts]
      exact h rfl
    · obtain ⟨message, rfl, hfails⟩ := he
      exact .prefetch hfails
  refine Gives.bind_attempt gives_readHead fun r hr => ?_
  rcases r with e | _ | head
  · exact hmiss
  · exact hmiss
  · exact Gives.ret (hr.2 head rfl)

/-- What of a part is asked for is there. -/
structure InPart (bytes : Bytes) (size n : Nat) (r : ByteRange) : Prop where
  start : r.start ≤ r.stop
  stop : r.stop ≤ (partOf size n bytes).length

theorem gives_readPartFile {n : Nat} {r : ByteRange} :
    cache.Gives content w
      (fun x => x ≠ .error .panic ∧ ∀ b, x = .ok (some b) →
        b = slice (partOf cache.partSizeBytes n (content location).bytes) r.start r.stop)
      (cache.readPartFile location n r) := by
  refine Gives.bind (gives_readFile
    (P := fun b => b = partOf cache.partSizeBytes n (content location).bytes) fun s hs b hb => hs.part location n b hb)
    (fun file hfile => ?_) fun e he => ⟨fun h => he.1 (by cases h; rfl), fun b h => by cases h⟩
  cases file with
  | none => exact Gives.ret ⟨by simp, fun b h => by cases h⟩
  | some b =>
    dsimp only
    split
    · refine Gives.ret ⟨by simp, fun b' h => ?_⟩
      cases h
      rw [hfile.2 b rfl]
    · exact Gives.fail ⟨by simp, fun b h => by cases h⟩

include hcodec hw in
/-- A part is read as it is of the object, from wherever. -/
theorem gives_readPart {polls n : Nat} {r : ByteRange} {forceRefresh : Bool}
    (hr : InPart (content location).bytes cache.partSizeBytes n r) :
    cache.Gives content w
      (fun x => match x with
        | .ok (bytes, _) => bytes = slice (partOf cache.partSizeBytes n (content location).bytes) r.start r.stop
        | .error e => ∃ message, e = .upstream message ∧ w.Fails location (cache.partOptions n) message)
      (cache.readPart polls location n r forceRefresh) := by
  have hmiss : cache.Gives content w
      (fun x => match x with
        | .ok (bytes, _) => bytes = slice (partOf cache.partSizeBytes n (content location).bytes) r.start r.stop
        | .error e => ∃ message, e = .upstream message ∧ w.Fails location (cache.partOptions n) message)
      (do
        let bytes ← call polls .part (location, n) do
          let result ← upstreamGet location (cache.partOptions n)
          let bytes ← body result
          ok (cache.saveHead location result.info result.attributes)
          ok (cache.savePart location n bytes)
          Prog.ret bytes
        let bytes ← sliceBytes bytes r
        Prog.ret (bytes, ReadResultSource.upstream)) := by
    refine Gives.bind (gives_call (f := .part) (k := (location, n))
        (E := fun e => ∃ message, e = .upstream message ∧ w.Fails location (cache.partOptions n) message) ?_)
      (fun (bytes : Bytes) hbytes => ?_) fun e he => he
    · refine Gives.bind gives_upstreamGet (fun result hget => ?_) fun e he => he
      obtain ⟨t, hget⟩ := hget
      refine Gives.bind (Q := fun x => match x with
          | .ok bytes => bytes = partOf cache.partSizeBytes n (content location).bytes
          | .error e => ∃ message, e = .upstream message ∧ w.Fails location (cache.partOptions n) message)
        ?_ (fun bytes hbytes => ?_) fun e he => he
      · unfold body
        split
        · rename_i message hf
          exact Gives.fail ⟨message, rfl, t, .inr ⟨result, hget, hf⟩⟩
        · rename_i hf
          refine Gives.ret ?_
          rcases hw.body hget with ⟨hhead, -⟩ | ⟨-, hwhole⟩
          · cases hhead
          · have hrange := hw.range hget
            have hbound := (hw.info hget).1
            simp only [partOptions, canonicalizeRange] at hrange
            split at hrange
            · cases hrange
            · split at hrange
              · cases hrange
              · rw [hwhole hf, ← Except.ok.inj hrange, hbound]
                dsimp only
                rw [slice_min, partOf, Nat.mul_comm n, Nat.mul_comm (n + 1)]
      · refine Gives.ok (gives_saveHead hcodec (hw.info hget)) (fun h => absurd rfl h) ?_
        exact Gives.ok (gives_savePart hbytes) (fun h => absurd rfl h) (Gives.ret hbytes)
    · have hbytes : bytes = partOf cache.partSizeBytes n (content location).bytes := hbytes
      refine Gives.bind (Q := fun x => x = .ok (slice bytes r.start r.stop)) ?_ (fun b hb => ?_) fun e he => by cases he
      · unfold sliceBytes
        rw [if_pos ⟨hr.start, by rw [hbytes]; exact hr.stop⟩]
        exact Gives.ret rfl
      · rw [Except.ok.inj hb, hbytes]
        exact Gives.ret rfl
  unfold readPart
  by_cases hforce : forceRefresh = true
  · rw [if_pos hforce]
    exact hmiss
  · rw [if_neg hforce]
    refine Gives.bind_attempt gives_readPartFile fun x hx => ?_
    rcases x with e | _ | bytes
    · exact hmiss
    · exact hmiss
    · exact Gives.ret (hx.2 bytes rfl)

include hcodec hw in
theorem gives_cachedGetOpts {polls : Nat} {range : Option GetRange} (hrounds : cache.Rounds range) :
    cache.Gives content w
      (fun x => match x with
        | .ok get => get.location = location ∧ (content location).Describes get.info ∧
            canonicalizeRange range (content location).bytes.length = .ok get.range ∧
            get.parts = cache.splitRangeIntoParts get.range
        | .error e => cache.ReadError w (content location) location range e)
      (cache.cachedGetOpts polls location range) := by
  refine Gives.bind (gives_maybePrefetchRange hcodec hw hrounds) (fun head hhead => ?_) fun e he => he
  refine Gives.bind (Q := fun x => x = (canonicalizeRange range head.info.size).mapError .range)
    (Gives.ofExcept rfl) (fun r hr => ?_) fun e he => ?_
  · have hrange : canonicalizeRange range head.info.size = .ok r := by
      cases hcanon : canonicalizeRange range head.info.size with
      | error e => rw [hcanon] at hr; cases hr
      | ok r' => rw [hcanon] at hr; cases hr; rfl
    rw [hhead.1] at hrange
    exact Gives.ret ⟨rfl, hhead, hrange, rfl⟩
  · cases hcanon : canonicalizeRange range head.info.size with
    | error e' =>
      rw [hcanon] at he
      cases he
      exact .range (hhead.1 ▸ hcanon)
    | ok r => rw [hcanon] at he; cases he

/-- What the items of a body's stream are. -/
def Items (size : Nat) (bytes : Bytes) (parts : List (Nat × ByteRange)) (items : List (Bool × Bytes)) : Prop :=
  List.Forall₂ (fun part item => item.2 = slice (partOf size part.1 bytes) part.2.start part.2.stop) parts items

theorem Items.flatMap {size : Nat} {bytes : Bytes} {parts : List (Nat × ByteRange)} {items : List (Bool × Bytes)}
    (h : Items size bytes parts items) :
    items.flatMap Prod.snd =
      parts.flatMap fun part => slice (partOf size part.1 bytes) part.2.start part.2.stop := by
  induction h with
  | nil => rfl
  | cons hitem _ ih => rw [List.flatMap_cons, List.flatMap_cons, ih, hitem]

include hcodec hw in
theorem gives_nextParts {polls : Nat} {forceRefresh : Bool} {get : CachedGet} (parts : List (Nat × ByteRange))
    (hloc : get.location = location)
    (hparts : ∀ part ∈ parts, InPart (content location).bytes cache.partSizeBytes part.1 part.2) :
    cache.Gives content w
      (fun x => match x with
        | .ok items => Items cache.partSizeBytes (content location).bytes parts items
        | .error e => ∃ part ∈ parts, ∃ message, e = .upstream message ∧
            w.Fails location (cache.partOptions part.1) message)
      (cache.nextParts polls forceRefresh get parts) := by
  intro K hK
  refine Prog.Upholds.forEach hK
    (E := fun e => ∃ part ∈ parts, ∃ message, e = .upstream message ∧
      w.Fails location (cache.partOptions part.1) message)
    (R := fun (part : Nat × ByteRange) (item : Bool × Bytes) =>
      item.2 = slice (partOf cache.partSizeBytes part.1 (content location).bytes) part.2.start part.2.stop)
    (fun part hpart => ?_) (fun _ h => h) fun e he => he
  rw [hloc]
  refine Prog.Upholds.bind (gives_readPart hcodec hw (hparts part hpart) K hK) (fun x hx => ?_)
    fun e he => ⟨part, hpart, he⟩
  obtain ⟨bytes, source⟩ := x
  exact .ret hK hx

/-- What a read answers: the range asked for, and the object's bytes of as much
of it as was read. -/
structure Transparent (object : StoredObject) (range : Option GetRange) (count : Nat) (get : CachedGet)
    (items : List (Bool × Bytes)) : Prop where
  info : object.Describes get.info
  range : canonicalizeRange range object.bytes.length = .ok get.range
  bytes : items.flatMap Prod.snd <+: slice object.bytes get.range.start get.range.stop
  whole : get.parts.length ≤ count → items.flatMap Prod.snd = slice object.bytes get.range.start get.range.stop

include hcodec hw in
theorem gives_getOpts {polls count : Nat} {range : Option GetRange} {forceRefresh : Bool}
    (hrounds : cache.Rounds range) :
    cache.Gives content w
      (fun x => match x with
        | .ok (get, items) => Transparent (content location) range count get items
        | .error e => cache.ReadError w (content location) location range e)
      (cache.getOpts polls location range forceRefresh count) := by
  refine Gives.bind (gives_cachedGetOpts hcodec hw hrounds) (fun get hget => ?_) fun e he => he
  obtain ⟨hloc, hinfo, hrange, hparts⟩ := hget
  obtain ⟨hle, hbound⟩ := canonicalizeRange_bounds hrange
  have htiles := cache.splitRangeIntoParts_tiles (canonicalizeRange_bounds hrange).1
  rw [← hparts] at htiles
  refine Gives.bind (gives_nextParts hcodec hw (get.parts.take count) hloc fun part hpart => ?_)
    (fun items hitems => Gives.ret ⟨hinfo, hrange, ?_, fun hcount => ?_⟩) fun e he => ?_
  · have hmem := List.mem_of_mem_take hpart
    exact ⟨(htiles.within part hmem).1, htiles.inBounds _ hbound part hmem⟩
  · rw [hitems.flatMap, ← htiles.joined]
    exact (List.take_prefix count get.parts).flatMap _
  · rw [hitems.flatMap, List.take_of_length_le hcount, htiles.joined]
  · obtain ⟨part, hpart, message, rfl, hfails⟩ := he
    have hreached := htiles.reached part (List.mem_of_mem_take hpart)
    exact .part (by omega) hfails

include hcodec hw in
theorem gives_cachedPutOpts {payload : List Bytes} {attributes : Attributes}
    (hpayload : payload.flatten = (content location).bytes) :
    cache.Gives content w
      (fun x => ∀ e, x = .error e → ∃ t message, e = .upstream message ∧ w.put t location = .error message)
      (cache.cachedPutOpts location payload attributes) := by
  have hput : cache.Gives content w
      (fun x => match x with
        | .ok result => result.eTag = (content location).eTag ∧ result.version = (content location).version
        | .error e => ∃ t message, e = .upstream message ∧ w.put t location = .error message)
      (upstreamPut location payload attributes) := by
    refine Gives.op (P := fun ans => ∃ t, w.put t location = ans)
      (fun s hs => ⟨fun _ _ _ h => h, hs.tick, s.clock, rfl⟩) fun ans hans => ?_
    obtain ⟨t, hput⟩ := hans
    cases ans with
    | ok result => exact Gives.ret (hw.put hput)
    | error message => exact Gives.fail ⟨t, message, rfl, hput⟩
  unfold cachedPutOpts
  split
  · exact hput.weaken fun x hx e h => by rw [h] at hx; exact hx
  · refine Gives.bind hput (fun result hresult => ?_) fun e he e' h => by cases h; exact he
    refine Gives.ok (gives_savePartsFrom (b := []) cache.partSize_pos ?_) (fun h => absurd rfl h) ?_
    · rw [List.nil_append, hpayload]
      exact ⟨by rw [Nat.mul_zero, List.drop_zero], fun _ => .inr (by rw [Nat.mul_zero, Nat.zero_add])⟩
    · refine Gives.ok (gives_saveHead hcodec ?_) (fun h => absurd rfl h) (Gives.ret fun e h => by cases h)
      exact ⟨by rw [hpayload]; rfl, hresult⟩

theorem gives_removeFiles {paths : List String} :
    cache.Gives content w (fun x => x = .ok ()) (removeFiles paths) := by
  intro K hK
  refine Prog.Upholds.bind (Q := fun x => ∃ ys, x = .ok ys)
    (Prog.Upholds.forEach hK (R := fun _ _ => True) (E := fun _ => False) (fun path _ => ?_) (by simp) (by simp))
    (fun _ _ => .ret hK rfl) fun e he => by obtain ⟨_, he⟩ := he; cases he
  refine Prog.Upholds.op_ans hK (P := fun _ => True) (fun s hs _ => ⟨fun _ _ _ h => h, ?_, trivial⟩)
    fun _ _ => .ret hK trivial
  refine hs.of_files (fun location n b hb => ?_) fun location b head hb => ?_
  · by_cases hpath : cache.partPath location n = path
    · rw [hpath, Function.update_self] at hb
      cases hb
    · rw [Function.update_of_ne hpath] at hb
      exact hs.part location n b hb
  · by_cases hpath : cache.headPath location = path
    · rw [hpath, Function.update_self] at hb
      cases hb
    · rw [Function.update_of_ne hpath] at hb
      exact hs.head location b head hb

end Programs

end CachedObjectStore

/-! ## Any number at once -/

/-- What is done with the cache. -/
inductive CacheCall
  | get (location : String) (range : Option GetRange) (forceRefresh : Bool) (count : Nat)
  | head (location : String) (admitOnMiss : Bool)
  | put (location : String) (payload : List Bytes) (attributes : Attributes)
  | remove (paths : List String)

inductive CacheAnswer
  | got (get : CachedGet) (items : List (Bool × Bytes))
  | headed (info : ObjectMeta) (attributes : Attributes)
  | stored (result : PutResult)
  | removed
  deriving DecidableEq, Repr

namespace CacheCall

def prog (cache : CachedObjectStore) (polls : Nat) : CacheCall → CacheProg CacheAnswer
  | get location range forceRefresh count => do
    let (result, items) ← cache.getOpts polls location range forceRefresh count
    Prog.ret (.got result items)
  | head location admitOnMiss => do
    let (info, attributes) ← cache.cachedHead polls location admitOnMiss
    Prog.ret (.headed info attributes)
  | put location payload attributes => do
    let result ← cache.cachedPutOpts location payload attributes
    Prog.ret (.stored result)
  | remove paths => do
    CachedObjectStore.removeFiles paths
    Prog.ret .removed

/-- An object is put as it always is, and the end of a read can be rounded
up. -/
def Allowed (cache : CachedObjectStore) (content : String → StoredObject) : CacheCall → Prop
  | get _ range _ _ => cache.Rounds range
  | put location payload _ => payload.flatten = (content location).bytes
  | _ => True

/-- The answers of a call. -/
def RightAnswer (content : String → StoredObject) : CacheCall → CacheAnswer → Prop
  | get location range _ count, .got result items =>
    CachedObjectStore.Transparent (content location) range count result items
  | head location _, .headed info _ => (content location).Describes info
  | put _ _ _, .stored _ => True
  | remove _, .removed => True
  | _, _ => False

/-- The failures of a call: of a read those of `ReadError`, of the others what
the object store fails with. -/
def MayFail (cache : CachedObjectStore) (content : String → StoredObject) (w : World) : CacheCall → CacheError → Prop
  | get location range _ _, e => cache.ReadError w (content location) location range e
  | head location _, e => ∃ message, e = .upstream message ∧ w.Fails location ⟨none, true⟩ message
  | put location _ _, e => ∃ t message, e = .upstream message ∧ w.put t location = .error message
  | remove _, _ => False

/-- What a call may end with. -/
def Right (cache : CachedObjectStore) (content : String → StoredObject) (w : World) (call : CacheCall) :
    Except CacheError CacheAnswer → Prop
  | .ok answer => call.RightAnswer content answer
  | .error e => call.MayFail cache content w e

theorem gives (cache : CachedObjectStore) (content : String → StoredObject) {w : World} (hcodec : cache.codec.Lawful)
    (hw : w.Honest content) (polls : Nat) {call : CacheCall} (hcall : call.Allowed cache content) :
    cache.Gives content w (call.Right cache content w) (call.prog cache polls) := by
  cases call with
  | get location range forceRefresh count =>
    exact CachedObjectStore.Gives.bind (CachedObjectStore.gives_getOpts hcodec hw hcall)
      (fun _ hx => CachedObjectStore.Gives.ret hx) fun _ he => he
  | head location admitOnMiss =>
    exact CachedObjectStore.Gives.bind (CachedObjectStore.gives_cachedHead hcodec hw)
      (fun _ hx => CachedObjectStore.Gives.ret hx) fun _ he => he
  | put location payload attributes =>
    exact CachedObjectStore.Gives.bind (CachedObjectStore.gives_cachedPutOpts hcodec hw hcall)
      (fun _ _ => CachedObjectStore.Gives.ret trivial) fun e he => he e rfl
  | remove paths =>
    exact CachedObjectStore.Gives.bind CachedObjectStore.gives_removeFiles
      (fun _ _ => CachedObjectStore.Gives.ret trivial) fun _ he => by cases he

end CacheCall

/-- The states any number of calls can reach: each is started at any time, and
its operations come between those of the others. The process may be started
anew, with the files there are. -/
def CacheReachable (cache : CachedObjectStore) (content : String → StoredObject) (w : World) (s : PartCacheState)
    (c : List (Thread cacheSig CacheCall CacheError CacheAnswer) × PartCacheState) : Prop :=
  Pool.Reachable w.handler (fun call p => call.Allowed cache content ∧ ∃ polls, p = call.prog cache polls)
    (fun _ _ _ => True) (fun s s' => s' = { s with flights := fun _ => .new }) s c

theorem CacheReachable.restart {cache : CachedObjectStore} {content : String → StoredObject} {w : World}
    {s : PartCacheState} {c : List (Thread cacheSig CacheCall CacheError CacheAnswer) × PartCacheState}
    (h : CacheReachable cache content w s c) :
    CacheReachable cache content w s ([], { c.2 with flights := fun _ => .new }) := by
  obtain ⟨ts, s'⟩ := c
  exact h.tail (.crash rfl)

/-- However reads, head requests, writes, deletions, evictions and failures
are interleaved, the files stay what their names say, every call that has
answered has answered of the object as it is in the object store, and one that
failed did so for the object store's reasons: never for the disk's. -/
theorem cached_reads_transparent {cache : CachedObjectStore} {content : String → StoredObject} {w : World}
    (hcodec : cache.codec.Lawful) (hw : w.Honest content) {s : PartCacheState} (hs : cache.CacheInv content s)
    {c : List (Thread cacheSig CacheCall CacheError CacheAnswer) × PartCacheState}
    (hc : CacheReachable cache content w s c) :
    cache.CacheInv content c.2 ∧
      ∀ call begun x, ⟨call, begun, Prog.ofExcept x⟩ ∈ c.1 → call.Right cache content w x := by
  refine Pool.reachable_upholds (C := cache.shared content) (fun call p hp => ?_) (fun s s' hi hcrash => ?_) hs hc
  · obtain ⟨hcall, polls, rfl⟩ := hp
    exact CacheCall.gives cache content hcodec hw polls hcall _ Shared.Lasting.true
  · subst hcrash
    exact ⟨hi.part, hi.head, fun f c cell value h => (by cases h), fun f key c h => (by cases h), fun f c _ => rfl⟩

/-- Nothing on disk and no call under way. -/
theorem CachedObjectStore.CacheInv.empty (cache : CachedObjectStore) (content : String → StoredObject) :
    cache.CacheInv content .empty :=
  ⟨fun _ _ _ h => (by cases h), fun _ _ _ h => (by cases h), fun _ _ _ _ h => (by cases h),
    fun _ _ _ h => (by cases h), fun _ _ _ => rfl⟩

/-! ### One object of three bytes -/

def sampleObject : StoredObject := ⟨[1, 2, 3], none, none⟩

/-- An object store with the one object, to be read only. -/
def sampleWorld : World where
  readFails _ _ := false
  write _ _ := ⟨true, true⟩
  get _ location options :=
    if location = "db/1.sst" then
      match canonicalizeRange options.range 3 with
      | .ok r => .ok ⟨⟨location, 0, 3, none, none⟩, [], r, [slice [1, 2, 3] r.start r.stop], none⟩
      | .error e => .error e.message
    else .error "not found"
  put _ _ := .error "read only"

theorem sampleCodec_lawful : sampleCodec.Lawful := by
  intro head head' h
  by_cases hhead : head = sampleHead
  · subst hhead
    rw [show sampleCodec.fromJson (sampleCodec.toJson sampleHead) = some sampleHead by decide] at h
    exact (Option.some.inj h).symm
  · have hempty : sampleCodec.toJson head = [] := if_neg hhead
    rw [hempty, show sampleCodec.fromJson [] = none by decide] at h
    cases h

/-- What the store answers. -/
theorem sampleWorld_get {t : Nat} {location : String} {options : GetOptions} {result : GetResult}
    (h : sampleWorld.get t location options = .ok result) :
    ∃ r, canonicalizeRange options.range 3 = .ok r ∧
      result = ⟨⟨location, 0, 3, none, none⟩, [], r, [slice [1, 2, 3] r.start r.stop], none⟩ := by
  simp only [sampleWorld] at h
  split at h
  · split at h
    · rename_i r hr
      exact ⟨r, hr, (Except.ok.inj h).symm⟩
    · cases h
  · cases h

theorem sampleWorld_honest : sampleWorld.Honest fun _ => sampleObject where
  info h := by
    obtain ⟨r, -, rfl⟩ := sampleWorld_get h
    exact ⟨rfl, rfl, rfl⟩
  range h := by
    obtain ⟨r, hr, rfl⟩ := sampleWorld_get h
    exact hr
  body h := by
    obtain ⟨r, -, rfl⟩ := sampleWorld_get h
    refine .inr ⟨?_, fun _ => ?_⟩
    · rw [List.flatten_singleton]
      exact List.prefix_refl _
    · rw [List.flatten_singleton]
      rfl
  put h := by cases h

/-- A disk of which some reads and writes fail. -/
def flakyWorld : World :=
  { sampleWorld with
    readFails := fun t _ => t = 6
    write := fun t _ => ⟨true, t % 3 = 0⟩ }

theorem flakyWorld_honest : flakyWorld.Honest fun _ => sampleObject where
  info h := @World.Honest.info sampleWorld _ sampleWorld_honest 0 _ _ _ h
  range h := @World.Honest.range sampleWorld _ sampleWorld_honest 0 _ _ _ h
  body h := @World.Honest.body sampleWorld _ sampleWorld_honest 0 _ _ _ h
  put h := @World.Honest.put sampleWorld _ sampleWorld_honest 0 "" _ h

/-- Two reads of the last bytes, one of none, and a deletion of their part. -/
def sampleCalls : List CacheCall :=
  [.get "db/1.sst" (some (.bounded ⟨1, 3⟩)) false 1, .get "db/1.sst" (some (.suffix 2)) false 1,
    .remove [sampleCache.partPath "db/1.sst" 0], .get "db/1.sst" (some (.suffix 0)) false 1]

def underWay (calls : List CacheCall) : List (Thread cacheSig CacheCall CacheError CacheAnswer) :=
  Pool.waiting (calls.map fun call => (call, call.prog sampleCache 20))

/-- The four calls, each an operation at a time. -/
def firstRun : List (Thread cacheSig CacheCall CacheError CacheAnswer) × PartCacheState :=
  Pool.turns flakyWorld.handler (underWay sampleCalls, .empty) ((List.range 100).map (· % 4))

/-- After a restart, the first again. -/
def secondRun : List (Thread cacheSig CacheCall CacheError CacheAnswer) × PartCacheState :=
  Pool.turns flakyWorld.handler (underWay (sampleCalls.take 1), { firstRun.2 with flights := fun _ => .new })
    (List.replicate 9 0)

def sampleGot (source : ReadResultSource) : CachedGet :=
  ⟨"db/1.sst", ⟨"db/1.sst", 0, 3, none, none⟩, [], ⟨1, 3⟩, [(0, ⟨1, 3⟩)], source⟩

theorem reachable_underWay {calls : List CacheCall} {s : PartCacheState} (order : List Nat)
    (hcalls : ∀ call ∈ calls, call.Allowed sampleCache fun _ => sampleObject)
    (hstart : CacheReachable sampleCache (fun _ => sampleObject) flakyWorld .empty ([], s)) :
    CacheReachable sampleCache (fun _ => sampleObject) flakyWorld .empty
      (Pool.turns flakyWorld.handler (underWay calls, s) order) := by
  refine Pool.Reachable.waiting_turns (fun _ _ _ => trivial) hstart (fun x hx => ?_) order
  obtain ⟨call, hcall, rfl⟩ := List.mem_map.1 hx
  exact ⟨hcalls call hcall, 20, rfl⟩

theorem reachable_firstRun : CacheReachable sampleCache (fun _ => sampleObject) flakyWorld .empty firstRun := by
  refine reachable_underWay _ (fun call hcall => ?_) .refl
  simp only [sampleCalls, List.mem_cons, List.not_mem_nil, or_false] at hcall
  rcases hcall with rfl | rfl | rfl | rfl
  · exact show sampleCache.Rounds (some (.bounded ⟨1, 3⟩)) by decide
  · exact show sampleCache.Rounds (some (.suffix 2)) by decide
  · exact trivial
  · exact show sampleCache.Rounds (some (.suffix 0)) by decide

theorem reachable_secondRun : CacheReachable sampleCache (fun _ => sampleObject) flakyWorld .empty secondRun := by
  refine reachable_underWay _ (fun call hcall => ?_) reachable_firstRun.restart
  rw [List.mem_singleton.1 hcall]
  exact show sampleCache.Rounds (some (.bounded ⟨1, 3⟩)) by decide

theorem outcomes_firstRun : firstRun.1.map Thread.outcome =
    [some (.ok (.got (sampleGot .upstream) [(false, [2, 3])])),
        some (.ok (.got (sampleGot .upstream) [(false, [2, 3])])), some (.ok .removed), some (.error .panic)] := by
  decide +kernel

theorem outcomes_secondRun : secondRun.1.map Thread.outcome =
    [some (.ok (.got (sampleGot .disk) [(true, [2, 3])]))] := by
  decide +kernel

/-- The two reads answer though the disk fails them and the part is deleted
meanwhile, and the suffix of no bytes panics. After the restart the part is
read from the disk. -/
theorem cached_reads_transparent_sample :
    (firstRun.1.map Thread.outcome = [some (.ok (.got (sampleGot .upstream) [(false, [2, 3])])),
        some (.ok (.got (sampleGot .upstream) [(false, [2, 3])])), some (.ok .removed), some (.error .panic)] ∧
      sampleCache.CacheInv (fun _ => sampleObject) firstRun.2 ∧
      ∀ call begun x, ⟨call, begun, Prog.ofExcept x⟩ ∈ firstRun.1 →
        CacheCall.Right sampleCache (fun _ => sampleObject) flakyWorld call x) ∧
    secondRun.1.map Thread.outcome = [some (.ok (.got (sampleGot .disk) [(true, [2, 3])]))] ∧
      ∀ call begun x, ⟨call, begun, Prog.ofExcept x⟩ ∈ secondRun.1 →
        CacheCall.Right sampleCache (fun _ => sampleObject) flakyWorld call x := by
  obtain ⟨hinv, hright⟩ := cached_reads_transparent sampleCodec_lawful flakyWorld_honest (.empty _ _) reachable_firstRun
  exact ⟨⟨outcomes_firstRun, hinv, hright⟩, outcomes_secondRun,
    (cached_reads_transparent sampleCodec_lawful flakyWorld_honest (.empty _ _) reachable_secondRun).2⟩

end Miscreant
