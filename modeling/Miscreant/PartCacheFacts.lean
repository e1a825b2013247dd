/-
What the part cache is for: what has been read once is read from disk.

Alone, with files that can be read and written, a read leaves its head and its
parts behind, and any range within them is then read without the object store
(`cached_read_admits`). The first read of a suffix that is not aligned panics
(`cold_read_panics_iff`).
-/
import Miscreant.PartCacheRuns
import Miscreant.Lib.Ends

namespace Miscreant

open Lib

/-- Files can be read and written. -/
structure World.Calm (w : World) : Prop where
  reads : ∀ t path, w.readFails t path = false
  writes : ∀ t path, w.write t path = ⟨true, true⟩

/-- The object store answers every request for a range it has of the object,
with a head that can be read back from disk. -/
structure World.Answers (w : World) (codec : HeadCodec) (object : StoredObject) (location : String) : Prop where
  get : ∀ t options r, canonicalizeRange options.range object.bytes.length = .ok r →
    ∃ result, w.get t location options = .ok result ∧ result.failure = none ∧
      codec.fromJson (codec.toJson (.ofMeta codec result.info result.attributes)) ≠ none

namespace CachedObjectStore

variable {cache : CachedObjectStore} {content : String → StoredObject} {w : World} {location : String}

/-- No call is under way. -/
def Quiet (s : PartCacheState) : Prop := ∀ f key, (s.flights f).inFlight key = none

/-- A head can be read. -/
def HeadOnDisk (cache : CachedObjectStore) (s : PartCacheState) (location : String) : Prop :=
  ∃ b head, s.files (cache.headPath location) = some b ∧ cache.codec.fromJson b = some head

/-- A part is there. -/
def PartOnDisk (cache : CachedObjectStore) (s : PartCacheState) (location : String) (n : Nat) : Prop :=
  ∃ b, s.files (cache.partPath location n) = some b

/-- What is on disk stays there. -/
structure Grows (cache : CachedObjectStore) (s s' : PartCacheState) : Prop where
  head : ∀ location, cache.HeadOnDisk s location → cache.HeadOnDisk s' location
  part : ∀ location n, cache.PartOnDisk s location n → cache.PartOnDisk s' location n

theorem Grows.refl (s : PartCacheState) : cache.Grows s s := ⟨fun _ h => h, fun _ _ h => h⟩

theorem Grows.trans (s₁ s₂ s₃ : PartCacheState) (h : cache.Grows s₁ s₂) (h' : cache.Grows s₂ s₃) : cache.Grows s₁ s₃ :=
  ⟨fun l hl => h'.head l (h.head l hl), fun l n hl => h'.part l n (h.part l n hl)⟩

theorem Grows.of_files {s s' : PartCacheState} (h : s'.files = s.files) : cache.Grows s s' := by
  constructor
  · intro l hl
    rwa [HeadOnDisk, h]
  · intro l n hl
    rwa [PartOnDisk, h]

/-- Calls that only use the disk and the object store. -/
def Stays (cache : CachedObjectStore) (s s' : PartCacheState) : Prop := s'.flights = s.flights ∧ cache.Grows s s'

theorem Stays.refl (s : PartCacheState) : cache.Stays s s := ⟨rfl, .refl s⟩

theorem Stays.trans {s₁ s₂ s₃ : PartCacheState} (h : cache.Stays s₁ s₂) (h' : cache.Stays s₂ s₃) : cache.Stays s₁ s₃ :=
  ⟨h'.1.trans h.1, .trans _ _ _ h.2 h'.2⟩

theorem Stays.tick (s : PartCacheState) : cache.Stays s s.tick := ⟨rfl, .of_files rfl⟩

/-! ## The disk -/

theorem ends_readFile (hreads : ∀ t path, w.readFails t path = false) {path : String} {s : PartCacheState} :
    Prog.Ends w.handler (readFile path) (fun r s' => r = .ok (s.files path) ∧ s' = s.tick) s := by
  have hans : (w.handler (.readFile path) s).1 = (.ok (s.files path) : Except Unit (Option Bytes)) :=
    if_neg (by rw [hreads]; exact Bool.false_ne_true)
  exact Prog.Ends.op_ans hans (.ret ⟨rfl, rfl⟩)

theorem ends_readHead (hreads : ∀ t path, w.readFails t path = false) {s : PartCacheState} :
    Prog.Ends w.handler (cache.readHead location)
      (fun r s' => s' = s.tick ∧ (cache.HeadOnDisk s location ↔ ∃ head, r = .ok (some head))) s := by
  refine Prog.Ends.bind (ends_readFile hreads) (fun file s' hfile => ?_) fun e s' he => by cases he.1
  obtain ⟨hfile, rfl⟩ := hfile
  cases hfile
  split
  · rename_i hnone
    refine .ret ⟨rfl, ?_⟩
    constructor
    · rintro ⟨b, head, hb, -⟩
      rw [hnone] at hb
      cases hb
    · rintro ⟨head, h⟩
      cases h
  · rename_i b hb
    split
    · rename_i hjson
      refine .fail ⟨rfl, ?_⟩
      constructor
      · rintro ⟨b', head, hb', hjson'⟩
        cases hb.symm.trans hb'
        rw [hjson] at hjson'
        cases hjson'
      · rintro ⟨head, h⟩
        cases h
    · rename_i head hjson
      exact .ret ⟨rfl, fun _ => ⟨_, rfl⟩, fun _ => ⟨b, head, hb, hjson⟩⟩

theorem ends_atomicWrite (hcalm : w.Calm) {path : String} {buf : Bytes} {s : PartCacheState} :
    Prog.Ends w.handler (atomicWrite path buf)
      (fun r s' => r = .ok () ∧ s' = { s.tick with files := Function.update s.files path (some buf) }) s := by
  have hans : w.handler (.writeFile path buf) s =
      ((.ok () : Except Unit Unit), { s.tick with files := Function.update s.files path (some buf) }) := by
    simp only [World.handler, hcalm.writes]
    rfl
  refine Prog.Ends.op ?_
  rw [hans]
  exact .ret ⟨rfl, rfl⟩

theorem grows_savePart {s : PartCacheState} {n : Nat} {buf : Bytes} :
    cache.Grows s { s.tick with files := Function.update s.files (cache.partPath location n) (some buf) } := by
  constructor
  · rintro l ⟨b, head, hb, hjson⟩
    exact ⟨b, head, (Function.update_of_ne (partPath_ne_headPath location l n).symm ..).trans hb, hjson⟩
  · rintro l m ⟨b, hb⟩
    by_cases hpath : cache.partPath l m = cache.partPath location n
    · exact ⟨buf, by rw [hpath]; exact Function.update_self ..⟩
    · exact ⟨b, (Function.update_of_ne hpath ..).trans hb⟩

theorem ends_savePart (hcalm : w.Calm) {n : Nat} {buf : Bytes} {s : PartCacheState} :
    Prog.Ends w.handler (cache.savePart location n buf)
      (fun r s' => r = .ok () ∧ cache.Stays s s' ∧ cache.PartOnDisk s' location n) s := by
  refine (ends_atomicWrite hcalm).weaken fun r s' h => ?_
  obtain ⟨rfl, rfl⟩ := h
  exact ⟨rfl, ⟨rfl, grows_savePart⟩, buf, Function.update_self ..⟩

theorem ends_saveHead (hcalm : w.Calm) {info : ObjectMeta} {attributes : Attributes}
    (hjson : cache.codec.fromJson (cache.codec.toJson (.ofMeta cache.codec info attributes)) ≠ none) {s : PartCacheState} :
    Prog.Ends w.handler (cache.saveHead location info attributes)
      (fun r s' => r = .ok () ∧ cache.Stays s s' ∧ cache.HeadOnDisk s' location) s := by
  refine Prog.Ends.bind_attempt (ends_readHead hcalm.reads) fun r s' h => ?_
  obtain ⟨rfl, hdisk⟩ := h
  have hwrite : Prog.Ends w.handler
      (atomicWrite (cache.headPath location) (cache.codec.toJson (.ofMeta cache.codec info attributes)))
      (fun r s' => r = .ok () ∧ cache.Stays s s' ∧ cache.HeadOnDisk s' location) s.tick := by
    obtain ⟨head, hhead⟩ := Option.ne_none_iff_exists'.1 hjson
    refine (ends_atomicWrite hcalm).weaken fun r s' h => ?_
    obtain ⟨rfl, rfl⟩ := h
    refine ⟨rfl, ⟨rfl, fun l hl => ?_, fun l n hl => ?_⟩, _, head, Function.update_self .., hhead⟩
    · by_cases hpath : cache.headPath l = cache.headPath location
      · exact ⟨_, head, by rw [hpath]; exact Function.update_self .., hhead⟩
      · obtain ⟨b, head', hb, hjson'⟩ := hl
        exact ⟨b, head', (Function.update_of_ne hpath ..).trans hb, hjson'⟩
    · obtain ⟨b, hb⟩ := hl
      exact ⟨b, (Function.update_of_ne (partPath_ne_headPath l location n) ..).trans hb⟩
  rcases r with e | _ | head
  · exact hwrite
  · exact hwrite
  · exact .ret ⟨rfl, Stays.tick s, hdisk.2 ⟨head, rfl⟩⟩

/-! ## Saving -/

theorem ends_drain (hcalm : w.Calm) {buffer : Bytes} {n : Nat} {s : PartCacheState} :
    Prog.Ends w.handler (cache.drain location buffer n) (fun r s' => (∃ x, r = .ok x) ∧ cache.Stays s s') s := by
  have hn := cache.partSize_pos
  refine Prog.Ends.loop _ (I := fun _ s' => cache.Stays s s') (fun x => x.1.length) (fun x s' hs => ?_) (Stays.refl s)
    (Nat.lt_succ_self _)
  obtain ⟨buffer, n⟩ := x
  dsimp only
  split
  · rename_i hlen
    refine Prog.Ends.bind (ends_savePart hcalm) (fun _ s'' h => .ret ⟨hs.trans h.2.1, ?_⟩) fun e s'' h => by cases h.1
    have := Nat.lt_of_lt_of_le hn hlen
    rw [List.length_drop]
    omega
  · exact .ret ⟨⟨_, rfl⟩, hs⟩

theorem ends_savePartsFrom (hcalm : w.Calm) {failure : Option String} :
    ∀ {chunks : List Bytes} {buffer : Bytes} {n total : Nat} {s : PartCacheState},
      Prog.Ends w.handler (cache.savePartsFrom location failure chunks buffer n total)
        (fun r s' => r ≠ .error .panic ∧ cache.Stays s s') s
  | [], buffer, n, total, s => by
    unfold savePartsFrom
    split
    · exact .fail ⟨by simp, .refl s⟩
    · by_cases hne : buffer = []
      · rw [if_neg (not_not.2 hne)]
        exact .ret ⟨by simp, .refl s⟩
      · rw [if_pos hne]
        exact Prog.Ends.bind (ends_savePart hcalm) (fun _ s' h => .ret ⟨by simp, h.2.1⟩) fun e s' h => by cases h.1
  | chunk :: chunks, buffer, n, total, s => by
    refine Prog.Ends.bind (ends_drain hcalm) (fun x s' h => ?_) fun e s' h => by
      obtain ⟨⟨_, h⟩, -⟩ := h
      cases h
    exact (ends_savePartsFrom hcalm).weaken fun r s'' h' => ⟨h'.1, h.2.trans h'.2⟩

/-- A failure that is no panic is ignored. -/
theorem ends_ok {α : Type} {p : CacheProg α} {P : PartCacheState → Prop} {s : PartCacheState}
    (hp : Prog.Ends w.handler p (fun r s' => r ≠ .error .panic ∧ P s') s) :
    Prog.Ends w.handler (ok p) (fun r s' => r = .ok () ∧ P s') s := by
  refine Prog.Ends.bind_attempt hp fun r s' h => ?_
  cases r with
  | ok a => exact .ret ⟨rfl, h.2⟩
  | error e =>
    cases e with
    | panic => exact absurd rfl h.1
    | upstream e => exact .ret ⟨rfl, h.2⟩
    | disk => exact .ret ⟨rfl, h.2⟩
    | range e => exact .ret ⟨rfl, h.2⟩

/-! ## A call with no other under way -/

/-- A call that finds no other of its key gets the permit, and leaves the map
as it was. -/
theorem alone_call {K T : Type} [DecidableEq K] {s : SingleFlight K T} {key : K} (h : s.inFlight key = none)
    (value : Option T) :
    ((s.enter key).2.poll (s.enter key).1).1 = .run ∧
      (((((s.enter key).2.poll (s.enter key).1).2).settle (s.enter key).1 value).leave key (s.enter key).1).inFlight =
        s.inFlight := by
  have henter : s.enter key = (s.next, ⟨Function.update s.inFlight key (some s.next),
      Function.update s.cells s.next (some ⟨key, none, false, 2⟩), s.next + 1⟩) := by
    rw [SingleFlight.enter, h]
  rw [henter]
  constructor
  · simp [SingleFlight.poll]
  · have hkey : Function.update s.inFlight key none = s.inFlight := by
      rw [← h, Function.update_eq_self]
    simp [SingleFlight.poll, SingleFlight.settle, SingleFlight.leave, SingleFlight.modify, hkey]

/-- With no other call under way, a call runs its own function, and there is
none under way after it. -/
theorem ends_call {polls : Nat} {f : Flight} {key : f.Key} {func : CacheProg f.Val}
    {Q : Except CacheError f.Val → PartCacheState → Prop} {s : PartCacheState} (hquiet : Quiet s)
    (hfunc : ∀ s₁, s₁.files = s.files →
      Prog.Ends w.handler func (fun r s₂ => s₂.flights = s₁.flights ∧ ∀ s₃, s₃.files = s₂.files → Q r s₃) s₁) :
    Prog.Ends w.handler (call (polls + 1) f key func) (fun r s' => Quiet s' ∧ Q r s') s := by
  let cell := ((s.flights f).enter key).1
  let running := (((s.flights f).enter key).2.poll cell).2
  obtain ⟨hrun, -⟩ := alone_call (hquiet f key) none
  let Left (r : Except CacheError f.Val) (s' : PartCacheState) : Prop :=
    (∃ value, s'.flights f = running.settle cell value) ∧ (∀ g, g ≠ f → s'.flights g = s.flights g) ∧
      ∀ s₃, s₃.files = s'.files → Q r s₃
  have hat : ∀ {s : PartCacheState} {o : FlightOp f.Key f.Val},
      (w.handler (.flight f o) s).2.flights f = (o.apply (s.flights f)).2 := Function.update_self ..
  have hother : ∀ {s : PartCacheState} {o : FlightOp f.Key f.Val} {g}, g ≠ f →
      (w.handler (.flight f o) s).2.flights g = s.flights g := fun hg => Function.update_of_ne hg ..
  let s₁ := (w.handler (.flight f (.enter key)) s).2
  have hs₁ : s₁.flights f = ((s.flights f).enter key).2 := hat
  refine Prog.Ends.op (Prog.Ends.bind (Q := fun x s' => ∃ r, x = .ok r ∧ Left r s') ?_ (fun x s' hx => ?_)
    fun e s' he => by obtain ⟨_, h, -⟩ := he; cases h)
  · rw [Prog.run_loop_succ]
    refine Prog.Ends.bind (Q := fun x s' => ∃ r, x = .ok (.inr r) ∧ Left r s') ?_ (fun x s' hx => ?_)
      fun e s' he => by obtain ⟨_, h, -⟩ := he; cases h
    · have hpoll : (w.handler (.flight f (.poll cell)) s₁).1 = (.run : FlightPoll f.Val) := by
        refine Eq.trans ?_ hrun
        exact congrArg (fun fl : SingleFlight f.Key f.Val => (fl.poll cell).1) hs₁
      have hs₂ : (w.handler (.flight f (.poll cell)) s₁).2.flights f = running := by
        refine hat.trans ?_
        exact congrArg (fun fl : SingleFlight f.Key f.Val => (fl.poll cell).2) hs₁
      refine Prog.Ends.op_ans hpoll ?_
      refine Prog.Ends.bind_attempt (hfunc _ rfl) fun r s₂ hr => ?_
      have hflights : s₂.flights = (w.handler (.flight f (.poll cell)) s₁).2.flights := hr.1
      have hmine : s₂.flights f = running := (congrFun hflights f).trans hs₂
      have hleft : ∀ value, Left r (w.handler (.flight f (.settle cell value)) s₂).2 := by
        refine fun value => ⟨⟨value, hat.trans ?_⟩, fun g hg => ?_, fun s₃ hs₃ => hr.2 s₃ hs₃⟩
        · rw [hmine]
          rfl
        · exact (hother hg).trans ((congrFun hflights g).trans ((hother hg).trans (hother hg)))
      cases r with
      | ok value => exact Prog.Ends.op (.ret ⟨.ok value, rfl, hleft (some value)⟩)
      | error e => exact Prog.Ends.op (.ret ⟨.error e, rfl, hleft none⟩)
    · obtain ⟨r, h, hleft⟩ := hx
      cases h
      exact .ret ⟨r, rfl, hleft⟩
  · obtain ⟨r, h, ⟨value, hvalue⟩, hothers, hpost⟩ := hx
    cases h
    refine Prog.Ends.op (Prog.Ends.ofExcept ⟨fun g k => ?_, hpost _ rfl⟩)
    by_cases hg : g = f
    · subst hg
      have hleave := (alone_call (hquiet g key) value).2
      rw [hat, hvalue]
      exact (congrFun hleave k).trans (hquiet g k)
    · rw [hother hg, hothers g hg]
      exact hquiet g k

/-! ## A first read -/

section Reads

variable {object : StoredObject}

theorem Grows.of_same {s s₁ s₂ s₃ : PartCacheState} (h₁ : s₁.files = s.files) (h : cache.Grows s₁ s₂)
    (h₃ : s₃.files = s₂.files) : cache.Grows s s₃ :=
  .trans _ _ _ (.of_files h₁) (.trans _ _ _ h (.of_files h₃))

theorem HeadOnDisk.of_files {s s' : PartCacheState} (h : cache.HeadOnDisk s location) (hfiles : s'.files = s.files) :
    cache.HeadOnDisk s' location := by
  rwa [HeadOnDisk, hfiles]

theorem PartOnDisk.of_files {s s' : PartCacheState} {n : Nat} (h : cache.PartOnDisk s location n)
    (hfiles : s'.files = s.files) : cache.PartOnDisk s' location n := by
  rwa [PartOnDisk, hfiles]

theorem ends_upstreamGet (hans : w.Answers cache.codec object location) {options : GetOptions} {r : ByteRange}
    (hr : canonicalizeRange options.range object.bytes.length = .ok r) {s : PartCacheState} :
    Prog.Ends w.handler (upstreamGet location options)
      (fun x s' => ∃ result, x = .ok result ∧ w.get s.clock location options = .ok result ∧ result.failure = none ∧
        cache.codec.fromJson (cache.codec.toJson (.ofMeta cache.codec result.info result.attributes)) ≠ none ∧
        s' = s.tick) s := by
  obtain ⟨result, hget, hfailure, hjson⟩ := hans.get s.clock options r hr
  exact Prog.Ends.op_ans (a := (.ok result : Except String GetResult)) hget (.ret ⟨result, rfl, hget, hfailure, hjson, rfl⟩)

theorem ends_saveGetResult (hcalm : w.Calm) {result : GetResult}
    (haligned : cache.partSizeBytes ∣ result.range.start ∧
      (cache.partSizeBytes ∣ result.range.stop ∨ result.range.stop = result.info.size))
    (hjson : cache.codec.fromJson (cache.codec.toJson (.ofMeta cache.codec result.info result.attributes)) ≠ none)
    {s : PartCacheState} :
    Prog.Ends w.handler (cache.saveGetResult location result)
      (fun r s' => r ≠ .error .panic ∧ cache.Stays s s' ∧ cache.HeadOnDisk s' location) s := by
  rw [saveGetResult, if_pos haligned]
  refine Prog.Ends.bind (ends_saveHead hcalm hjson) (fun _ s₁ h => ?_) fun e s₁ h => by cases h.1
  obtain ⟨-, hstays, hhead⟩ := h
  refine Prog.Ends.bind (ends_savePartsFrom hcalm) (fun _ s₂ h => ?_) fun e s₂ h => ?_
  · exact .ret ⟨by simp, hstays.trans h.2, h.2.2.head location hhead⟩
  · exact ⟨fun he => h.1 (by cases he; rfl), hstays.trans h.2, h.2.2.head location hhead⟩

theorem ends_maybePrefetchRange (hw : w.Honest content) (hcalm : w.Calm)
    (hans : w.Answers cache.codec (content location) location) (polls : Nat) {range : Option GetRange} {r : ByteRange}
    (hrange : canonicalizeRange range (content location).bytes.length = .ok r)
    (hrounds : cache.Rounds range) (haligned : cache.Aligned range (content location).bytes.length)
    {s : PartCacheState} (hquiet : Quiet s) :
    Prog.Ends w.handler (cache.maybePrefetchRange (polls + 1) location range)
      (fun x s' => (∃ head, x = .ok head) ∧ Quiet s' ∧ cache.Grows s s' ∧ cache.HeadOnDisk s' location) s := by
  refine Prog.Ends.bind_attempt (ends_readHead hcalm.reads) fun x s₁ h => ?_
  obtain ⟨rfl, hdisk⟩ := h
  have hmiss : Prog.Ends w.handler (do
        let head ← call (polls + 1) .prefetch (location, range.map cache.alignGetRange) do
          let result ← upstreamGet location ⟨range.map cache.alignGetRange, false⟩
          ok (cache.saveGetResult location result)
          Prog.ret (result.info, result.attributes)
        Prog.ret (⟨head.1, head.2, .upstream⟩ : PrefetchedHead))
      (fun x s' => (∃ head, x = .ok head) ∧ Quiet s' ∧ cache.Grows s s' ∧ cache.HeadOnDisk s' location) s.tick := by
    refine Prog.Ends.bind (ends_call (f := .prefetch)
        (Q := fun x s' => (∃ head, x = .ok head) ∧ cache.Grows s s' ∧ cache.HeadOnDisk s' location)
        (s := s.tick) hquiet fun s₁ hs₁ => ?_)
      (fun head s' h => .ret ⟨⟨_, rfl⟩, h.1, h.2.2⟩) fun e s' h => by
        obtain ⟨_, h⟩ := h.2.1
        cases h
    have hwide := cache.alignGetRange_widened hrounds (content location).bytes.length
    cases hcanon : canonicalizeRange (range.map cache.alignGetRange) (content location).bytes.length with
    | error e =>
      rw [hcanon] at hwide
      exact absurd hrange (hwide r)
    | ok wide =>
      rw [hcanon] at hwide
      refine Prog.Ends.bind (ends_upstreamGet hans hcanon) (fun result s₂ h => ?_) fun e s₂ h => by
        obtain ⟨_, h, -⟩ := h
        cases h
      obtain ⟨_, heq, hget, -, hjson, rfl⟩ := h
      cases heq
      obtain ⟨rfl⟩ : wide = result.range := by
        have := hw.range hget
        rw [(hw.info hget).1, hcanon] at this
        exact Except.ok.inj this
      have hsave := @ends_saveGetResult cache w location hcalm _
        ⟨hwide.starts.2 haligned, (hw.info hget).1 ▸ hwide.stops⟩ hjson
      refine Prog.Ends.bind (ends_ok hsave) (fun _ s₂ h => ?_) fun e s₂ h => by cases h.1
      obtain ⟨-, hstays, hhead⟩ := h
      refine .ret ⟨hstays.1, fun s₃ hs₃ => ⟨⟨_, rfl⟩, ?_, hhead.of_files hs₃⟩⟩
      exact .of_same hs₁ (.trans _ _ _ (Stays.tick s₁).2 hstays.2) hs₃
  rcases x with e | _ | head
  · exact hmiss
  · exact hmiss
  · exact .ret ⟨⟨_, rfl⟩, hquiet, (Stays.tick s).2, (hdisk.2 ⟨head, rfl⟩).of_files rfl⟩

theorem ends_readPartFile (hreads : ∀ t path, w.readFails t path = false) {n : Nat} {r : ByteRange} {s : PartCacheState} :
    Prog.Ends w.handler (cache.readPartFile location n r)
      (fun x s' => s' = s.tick ∧ ((∃ b, x = .ok (some b)) → cache.PartOnDisk s location n) ∧
        ∀ b, s.files (cache.partPath location n) = some b → r.stop ≤ b.length →
          x = .ok (some (slice b r.start r.stop))) s := by
  refine Prog.Ends.bind (ends_readFile hreads) (fun file s' hfile => ?_) fun e s' he => by cases he.1
  obtain ⟨hfile, rfl⟩ := hfile
  cases hfile
  split
  · rename_i hnone
    refine .ret ⟨rfl, fun ⟨b, h⟩ => (by cases h), fun b hb => ?_⟩
    rw [hnone] at hb
    cases hb
  · rename_i b hb
    split
    · refine .ret ⟨rfl, fun _ => ⟨b, hb⟩, fun b' hb' _ => ?_⟩
      cases hb.symm.trans hb'
      rfl
    · rename_i hlen
      refine .fail ⟨rfl, fun ⟨b, h⟩ => (by cases h), fun b' hb' hle => ?_⟩
      cases hb.symm.trans hb'
      exact absurd (.inr hle) hlen

theorem ends_readPart (hw : w.Honest content) (hcalm : w.Calm)
    (hans : w.Answers cache.codec (content location) location) {polls n : Nat} {r : ByteRange}
    (hn : cache.partSizeBytes * n < (content location).bytes.length)
    (hr : InPart (content location).bytes cache.partSizeBytes n r) {s : PartCacheState} (hquiet : Quiet s) :
    Prog.Ends w.handler (cache.readPart (polls + 1) location n r false)
      (fun x s' => (∃ y, x = .ok y) ∧ Quiet s' ∧ cache.Grows s s' ∧ cache.PartOnDisk s' location n) s := by
  have hmiss : Prog.Ends w.handler (do
        let bytes ← call (polls + 1) .part (location, n) do
          let result ← upstreamGet location (cache.partOptions n)
          let bytes ← body result
          ok (cache.saveHead location result.info result.attributes)
          ok (cache.savePart location n bytes)
          Prog.ret bytes
        let bytes ← sliceBytes bytes r
        Prog.ret (bytes, ReadResultSource.upstream))
      (fun x s' => (∃ y, x = .ok y) ∧ Quiet s' ∧ cache.Grows s s' ∧ cache.PartOnDisk s' location n) s.tick := by
    refine Prog.Ends.bind (ends_call (f := .part)
        (Q := fun (x : Except CacheError Bytes) s' =>
          x = .ok (partOf cache.partSizeBytes n (content location).bytes) ∧ cache.Grows s s' ∧
            cache.PartOnDisk s' location n)
        (s := s.tick) hquiet fun s₁ hs₁ => ?_)
      (fun (bytes : Bytes) s' h => ?_) fun e s' h => by cases h.2.1
    · have hpos := cache.partSize_pos
      have hcanon : canonicalizeRange (cache.partOptions n).range (content location).bytes.length =
          .ok ⟨n * cache.partSizeBytes, min ((n + 1) * cache.partSizeBytes) (content location).bytes.length⟩ := by
        have hn' : n * cache.partSizeBytes < (content location).bytes.length := by rwa [Nat.mul_comm]
        have hsucc : (n + 1) * cache.partSizeBytes = n * cache.partSizeBytes + cache.partSizeBytes := by
          rw [Nat.add_mul, Nat.one_mul]
        simp only [partOptions, canonicalizeRange]
        rw [if_neg (by omega), if_neg (by omega)]
      refine Prog.Ends.bind (ends_upstreamGet hans hcanon) (fun result s₂ h => ?_) fun e s₂ h => by
        obtain ⟨_, h, -⟩ := h
        cases h
      obtain ⟨_, heq, hget, hfailure, hjson, rfl⟩ := h
      cases heq
      have hbody : body result = Prog.ret (partOf cache.partSizeBytes n (content location).bytes) := by
        rw [body, hfailure]
        rcases hw.body hget with ⟨hhead, -⟩ | ⟨-, hwhole⟩
        · cases hhead
        · have hrange := hw.range hget
          rw [(hw.info hget).1, hcanon] at hrange
          rw [hwhole hfailure, ← Except.ok.inj hrange]
          dsimp only
          rw [slice_min, partOf, Nat.mul_comm n, Nat.mul_comm (n + 1)]
      rw [hbody, Prog.ret_bind]
      refine Prog.Ends.bind (ends_ok ((ends_saveHead hcalm hjson).weaken fun x s' h => ⟨by simp [h.1], h.2.1⟩))
        (fun _ s₂ h => ?_) fun e s₂ h => by cases h.1
      have hstays := h.2
      refine Prog.Ends.bind (ends_ok ((ends_savePart hcalm).weaken fun x s' h => ⟨by simp [h.1], h.2⟩))
        (fun _ s₃ h => ?_) fun e s₃ h => by cases h.1
      obtain ⟨-, hstays', hpart⟩ := h
      refine .ret ⟨hstays'.1.trans hstays.1, fun s₄ hs₄ => ⟨rfl, ?_, hpart.of_files hs₄⟩⟩
      exact .of_same hs₁ (.trans _ _ _ (Stays.tick s₁).2 (.trans _ _ _ hstays.2 hstays'.2)) hs₄
    · obtain ⟨hquiet', heq, hgrows, hpart⟩ := h
      cases heq
      rw [sliceBytes, if_pos ⟨hr.start, hr.stop⟩]
      exact .ret ⟨⟨_, rfl⟩, hquiet', hgrows, hpart⟩
  rw [readPart, if_neg Bool.false_ne_true]
  refine Prog.Ends.bind_attempt (ends_readPartFile hcalm.reads) fun x s₁ h => ?_
  obtain ⟨rfl, hdisk, -⟩ := h
  rcases x with e | _ | bytes
  · exact hmiss
  · exact hmiss
  · exact .ret ⟨⟨_, rfl⟩, hquiet, (Stays.tick s).2, (hdisk ⟨bytes, rfl⟩).of_files rfl⟩

/-- A first read leaves the head and its parts on disk. -/
theorem ends_getOpts (hcodec : cache.codec.Lawful) (hw : w.Honest content) (hcalm : w.Calm)
    (hans : w.Answers cache.codec (content location) location) (polls : Nat) {range : Option GetRange} {r : ByteRange}
    (hrange : canonicalizeRange range (content location).bytes.length = .ok r)
    (hrounds : cache.Rounds range) (haligned : cache.Aligned range (content location).bytes.length)
    {s : PartCacheState} (hinv : cache.CacheInv content s)
    (hquiet : Quiet s) :
    Prog.Ends w.handler (cache.getOpts (polls + 1) location range false (cache.splitRangeIntoParts r).length)
      (fun x s' => (∃ y, x = .ok y) ∧ cache.HeadOnDisk s' location ∧
        ∀ part ∈ cache.splitRangeIntoParts r, cache.PartOnDisk s' location part.1) s := by
  obtain ⟨x, s₁, hrun, ⟨head, rfl⟩, hquiet₁, -, hhead⟩ :=
    ends_maybePrefetchRange hw hcalm hans polls hrange hrounds haligned hquiet
  obtain ⟨-, -, hinfo⟩ := (gives_maybePrefetchRange hcodec hw hrounds _ Shared.Lasting.true).run hinv trivial hrun
  have hsize : head.info.size = (content location).bytes.length := hinfo.1
  have htiles := cache.splitRangeIntoParts_tiles (canonicalizeRange_bounds hrange).1
  have hbound := (canonicalizeRange_bounds hrange).2
  refine Prog.Ends.bind (Q := fun x s' => s' = s₁ ∧ ∃ get, x = .ok get ∧ get.location = location ∧
      get.parts = cache.splitRangeIntoParts r) ?_ (fun get s₂ h => ?_) fun e s₂ h => by
    obtain ⟨-, _, h, -⟩ := h
    cases h
  · refine ⟨_, s₁, ?_, rfl, ⟨location, head.info, head.attributes, r, cache.splitRangeIntoParts r, head.headSource⟩,
      rfl, rfl, rfl⟩
    rw [cachedGetOpts, Prog.run_bind_ok hrun, hsize, hrange]
    rfl
  · obtain ⟨rfl, _, heq, hloc, hparts⟩ := h
    cases heq
    rw [hparts, List.take_length]
    refine Prog.Ends.bind (Prog.Ends.forEach (I := Quiet) (N := cache.Grows)
        (R := fun (part : Nat × ByteRange) (_ : Bool × Bytes) s' => cache.PartOnDisk s' location part.1)
        Grows.refl Grows.trans (fun part _ s s' h hgrows => hgrows.part location part.1 h) hquiet₁
        fun part hpart s₂ hquiet₂ => ?_)
      (fun items s₂ h => ?_) fun e s₂ h => by
        obtain ⟨_, h, -⟩ := h
        cases h
    · rw [hloc]
      have hreached := htiles.reached part hpart
      refine Prog.Ends.bind (ends_readPart hw hcalm hans (by omega)
        ⟨(htiles.within part hpart).1, htiles.inBounds _ hbound part hpart⟩ hquiet₂) (fun y s₃ h => ?_) fun e s₃ h => by
          obtain ⟨⟨_, h⟩, -⟩ := h
          cases h
      obtain ⟨bytes, source⟩ := y
      exact .ret ⟨_, rfl, h.2.1, h.2.2.1, h.2.2.2⟩
    · obtain ⟨ys, heq, -, hgrows, hall⟩ := h
      have hpart := ((List.forall₂_and_left (R := fun _ _ => True) _ _).1 (hall.imp fun _ _ h => ⟨h, trivial⟩)).1
      exact .ret ⟨⟨_, rfl⟩, hgrows.head location hhead, hpart⟩

/-! ## A later read -/

/-- A read of which everything is on disk asks the object store nothing. -/
theorem ends_getOpts_warm (hreads : ∀ t path, w.readFails t path = false) (polls : Nat) {range : Option GetRange}
    {r : ByteRange} (hrange : canonicalizeRange range (content location).bytes.length = .ok r) {s : PartCacheState}
    (hinv : cache.CacheInv content s) (hhead : cache.HeadOnDisk s location)
    (hparts : ∀ part ∈ cache.splitRangeIntoParts r, cache.PartOnDisk s location part.1) :
    Prog.Ends w.handler (cache.getOpts polls location range false (cache.splitRangeIntoParts r).length)
      (fun x _ => ∃ get, x = .ok (get, (cache.splitRangeIntoParts r).map fun part =>
        (true, slice (partOf cache.partSizeBytes part.1 (content location).bytes) part.2.start part.2.stop))) s := by
  obtain ⟨x, s₁, hrun, rfl, hdisk⟩ := @ends_readHead cache w location hreads s
  obtain ⟨head, rfl⟩ := hdisk.1 hhead
  obtain ⟨-, -, -, hinfo⟩ := (gives_readHead _ Shared.Lasting.true).run hinv trivial hrun
  have hsize : head.1.size = (content location).bytes.length := (hinfo head rfl).1
  have htiles := cache.splitRangeIntoParts_tiles (canonicalizeRange_bounds hrange).1
  have hbound := (canonicalizeRange_bounds hrange).2
  have hget : (cache.cachedGetOpts polls location range).run w.handler s =
      some (.ok ⟨location, head.1, head.2, r, cache.splitRangeIntoParts r, .disk⟩, s.tick) := by
    have hread : ((cache.readHead location).attempt : CacheProg _).run w.handler s =
        some (.ok (.ok (some head)), s.tick) := by
      rw [Prog.run_attempt, hrun]
      rfl
    rw [cachedGetOpts, maybePrefetchRange, Prog.bind_assoc, Prog.run_bind_ok hread]
    simp only [Prog.ret_bind, hsize, hrange]
    rfl
  refine Prog.Ends.bind (Q := fun x s' => x = .ok ⟨location, head.1, head.2, r, cache.splitRangeIntoParts r, .disk⟩ ∧
    s'.files = s.files) ⟨_, _, hget, rfl, rfl⟩ (fun get s₂ h => ?_) fun e s₂ h => by cases h.1
  obtain ⟨heq, hfiles⟩ := h
  cases heq
  rw [List.take_length]
  refine Prog.Ends.bind (Prog.Ends.forEach (I := fun s' => s'.files = s.files) (N := fun _ _ => True)
      (R := fun (part : Nat × ByteRange) (item : Bool × Bytes) _ => (true,
        slice (partOf cache.partSizeBytes part.1 (content location).bytes) part.2.start part.2.stop) = item)
      (fun _ => trivial) (fun _ _ _ _ _ => trivial) (fun _ _ _ _ h _ => h) hfiles fun part hpart s₃ hs₃ => ?_)
    (fun items s₃ h => ?_) fun e s₃ h => by
      obtain ⟨_, h, -⟩ := h
      cases h
  · obtain ⟨b, hb⟩ := hparts part hpart
    have hpartOf := hinv.part location part.1 b hb
    refine Prog.Ends.bind (Q := fun x s' => x = .ok (slice (partOf cache.partSizeBytes part.1
        (content location).bytes) part.2.start part.2.stop, ReadResultSource.disk) ∧ s'.files = s.files)
      ?_ (fun y s₄ h => ?_) fun e s₄ h => by cases h.1
    · rw [readPart, if_neg Bool.false_ne_true]
      refine Prog.Ends.bind_attempt (ends_readPartFile hreads) fun x s₄ h => ?_
      obtain ⟨rfl, -, hread⟩ := h
      rw [hread b (by rw [hs₃]; exact hb) (by rw [hpartOf]; exact htiles.inBounds _ hbound part hpart), hpartOf]
      exact .ret ⟨rfl, hs₃⟩
    · obtain ⟨heq, hs₄⟩ := h
      cases heq
      exact .ret ⟨_, rfl, hs₄, trivial, rfl⟩
  · obtain ⟨ys, heq, -, -, hall⟩ := h
    cases heq
    have hmap := List.forall₂_map_left_iff (R := Eq).2 hall
    rw [List.forall₂_eq_eq_eq] at hmap
    exact .ret ⟨_, by rw [hmap]⟩

end Reads

end CachedObjectStore

/-! ## Admission -/

section Admission

variable {cache : CachedObjectStore} {content : String → StoredObject} {w w' : World} {location : String}

open CachedObjectStore

/-- What a read has touched is read from disk from then on, whatever the object
store does: every part is a hit. -/
theorem cached_read_admits (hcodec : cache.codec.Lawful) (hw : w.Honest content) (hcalm : w.Calm)
    (hans : w.Answers cache.codec (content location) location) (hreads : ∀ t path, w'.readFails t path = false)
    {s : PartCacheState} (hinv : cache.CacheInv content s) (hquiet : Quiet s) {range : Option GetRange} {r : ByteRange}
    (hrange : canonicalizeRange range (content location).bytes.length = .ok r)
    (hrounds : cache.Rounds range) (haligned : cache.Aligned range (content location).bytes.length) (polls : Nat) :
    ∃ get items s', (cache.getOpts (polls + 1) location range false (cache.splitRangeIntoParts r).length).run w.handler s =
        some (.ok (get, items), s') ∧
      items.flatMap Prod.snd = slice (content location).bytes r.start r.stop ∧
      ∀ (range' : Option GetRange) (r' : ByteRange) (polls' : Nat),
        canonicalizeRange range' (content location).bytes.length = .ok r' →
        (∀ part ∈ cache.splitRangeIntoParts r', part.1 ∈ (cache.splitRangeIntoParts r).map Prod.fst) →
          ∃ get' items' s'',
            (cache.getOpts polls' location range' false (cache.splitRangeIntoParts r').length).run w'.handler s' =
                some (.ok (get', items'), s'') ∧
              (∀ item ∈ items', item.1 = true) ∧
              items'.flatMap Prod.snd = slice (content location).bytes r'.start r'.stop := by
  obtain ⟨x, s', hrun, ⟨⟨get, items⟩, rfl⟩, hhead, hparts⟩ :=
    ends_getOpts hcodec hw hcalm hans polls hrange hrounds haligned hinv hquiet
  obtain ⟨hinv', -, hright⟩ := (gives_getOpts hcodec hw hrounds _ Shared.Lasting.true).run hinv trivial hrun
  have hget : get.range = r := Except.ok.inj (hright.range.symm.trans hrange)
  have hsplit : get.parts = cache.splitRangeIntoParts r := by
    obtain ⟨get₁, s₁, hrun₁, hrest⟩ := Prog.run_bind_ok_inv hrun
    obtain ⟨-, -, -, -, -, hparts⟩ := (gives_cachedGetOpts hcodec hw hrounds _ Shared.Lasting.true).run hinv trivial hrun₁
    obtain ⟨items₁, s₂, -, hret⟩ := Prog.run_bind_ok_inv hrest
    cases hret
    rw [hparts, hget]
  refine ⟨get, items, s', hrun, ?_, fun range' r' polls' hrange' hwithin => ?_⟩
  · rw [hright.whole (by rw [hsplit]), hget]
  · have hheld : ∀ part ∈ cache.splitRangeIntoParts r', cache.PartOnDisk s' location part.1 := by
      intro part hpart
      obtain ⟨part₀, hpart₀, heq⟩ := List.mem_map.1 (hwithin part hpart)
      rw [← heq]
      exact hparts part₀ hpart₀
    obtain ⟨x, s'', hrun', get', rfl⟩ := ends_getOpts_warm hreads polls' hrange' hinv' hhead hheld
    refine ⟨get', _, s'', hrun', by simp, ?_⟩
    rw [List.flatMap_map, ← (cache.splitRangeIntoParts_tiles (canonicalizeRange_bounds hrange').1).joined]

theorem sampleWorld_calm : sampleWorld.Calm := ⟨fun _ _ => rfl, fun _ _ => rfl⟩

theorem sampleWorld_answers : sampleWorld.Answers sampleCodec sampleObject "db/1.sst" where
  get t options r hr := by
    have hjson : sampleCodec.fromJson (sampleCodec.toJson (.ofMeta sampleCodec ⟨"db/1.sst", 0, 3, none, none⟩ [])) ≠ none := by
      decide
    refine ⟨⟨⟨"db/1.sst", 0, 3, none, none⟩, [], r, [slice [1, 2, 3] r.start r.stop], none⟩, ?_, rfl, hjson⟩
    simp only [sampleWorld, if_true]
    rw [show canonicalizeRange options.range 3 = .ok r from hr]

theorem quiet_empty : Quiet .empty := fun _ _ => rfl

/-- The object store gone, after the whole object has been read. -/
def lostWorld : World := { sampleWorld with get := fun _ _ _ => .error "unreachable" }

theorem cached_read_admits_sample : ∃ s' get' items' s'',
    (sampleCache.getOpts 1 "db/1.sst" (some (.bounded ⟨1, 3⟩)) false 1).run lostWorld.handler s' =
        some (.ok (get', items'), s'') ∧
      (∀ item ∈ items', item.1 = true) ∧ items'.flatMap Prod.snd = [2, 3] := by
  have hreads : ∀ t path, lostWorld.readFails t path = false := fun _ _ => rfl
  have hrange : canonicalizeRange none sampleObject.bytes.length = .ok ⟨0, 3⟩ := rfl
  obtain ⟨-, -, s', -, -, hlater⟩ := cached_read_admits sampleCodec_lawful sampleWorld_honest
    sampleWorld_calm sampleWorld_answers hreads (.empty sampleCache fun _ => sampleObject) quiet_empty
    hrange trivial (fun _ h => (by cases h)) 0
  obtain ⟨get', items', s'', hrun, hhit, hbytes⟩ := hlater (some (.bounded ⟨1, 3⟩)) ⟨1, 3⟩ 1 rfl (by decide)
  exact ⟨s', get', items', s'', hrun, hhit, hbytes⟩

/-- Without a head on disk none is read, whether or not the disk can be
read. -/
theorem ends_readHead_cold {s : PartCacheState} (hcold : ¬cache.HeadOnDisk s location) :
    Prog.Ends w.handler (cache.readHead location) (fun x s' => s' = s.tick ∧ ∀ head, x ≠ .ok (some head)) s := by
  have hfile : Prog.Ends w.handler (readFile (cache.headPath location))
      (fun x s' => s' = s.tick ∧ ∀ b, x = .ok (some b) → s.files (cache.headPath location) = some b) s := by
    by_cases hfails : w.readFails s.clock (cache.headPath location) = true
    · exact Prog.Ends.op_ans (a := (.error () : Except Unit (Option Bytes))) (if_pos hfails)
        (.fail ⟨rfl, fun b h => (by cases h)⟩)
    · exact Prog.Ends.op_ans (a := (.ok (s.files (cache.headPath location)) : Except Unit (Option Bytes)))
        (if_neg hfails) (.ret ⟨rfl, fun b h => Except.ok.inj h⟩)
  refine Prog.Ends.bind hfile (fun file s' h => ?_) fun e s' h => ⟨h.1, fun head h => by cases h⟩
  obtain ⟨rfl, hread⟩ := h
  cases file with
  | none => exact .ret ⟨rfl, by simp⟩
  | some b =>
    dsimp only
    split
    · exact .fail ⟨rfl, by simp⟩
    · rename_i head hjson
      exact absurd ⟨b, head, hread b rfl, hjson⟩ hcold

theorem not_aligned_iff {range : Option GetRange} {size : Nat} :
    ¬cache.Aligned range size ↔
      ∃ n, range = some (.suffix n) ∧ divCeilMul n cache.partSizeBytes < size ∧ ¬cache.partSizeBytes ∣ size := by
  simp only [Aligned, not_forall, exists_prop]

/-- The first read of an object panics exactly for a suffix that, rounded up to
whole parts, is shorter than an object that is not: the request then starts
where no part does. -/
theorem cold_read_panics_iff (hcodec : cache.codec.Lawful) (hw : w.Honest content)
    (hans : w.Answers cache.codec (content location) location) {s : PartCacheState} (hinv : cache.CacheInv content s)
    (hquiet : Quiet s) (hcold : ¬cache.HeadOnDisk s location) (polls count : Nat) {range : Option GetRange}
    (hrounds : cache.Rounds range) (forceRefresh : Bool) :
    (∃ s', (cache.getOpts (polls + 1) location range forceRefresh count).run w.handler s = some (.error .panic, s')) ↔
      ∃ n, range = some (.suffix n) ∧ divCeilMul n cache.partSizeBytes < (content location).bytes.length ∧
        ¬cache.partSizeBytes ∣ (content location).bytes.length := by
  rw [← not_aligned_iff]
  constructor
  · rintro ⟨s', hrun⟩
    obtain ⟨-, -, herror⟩ := (gives_getOpts hcodec hw hrounds _ Shared.Lasting.true).run hinv trivial hrun
    cases herror with
    | panic h => exact h
  · intro hmis
    obtain ⟨n, rfl, -, -⟩ := not_aligned_iff.1 hmis
    have hwide := cache.alignGetRange_widened hrounds (content location).bytes.length
    simp only [Option.map_some, alignGetRange, canonicalizeRange] at hwide
    have hpanic : Prog.Ends w.handler (cache.maybePrefetchRange (polls + 1) location (some (.suffix n)))
        (fun x _ => x = .error .panic) s := by
      refine Prog.Ends.bind_attempt (ends_readHead_cold hcold) fun x s₁ h => ?_
      obtain ⟨rfl, hnone⟩ := h
      have hmiss : Prog.Ends w.handler (do
            let head ← call (polls + 1) .prefetch (location, some (cache.alignGetRange (.suffix n))) do
              let result ← upstreamGet location ⟨some (cache.alignGetRange (.suffix n)), false⟩
              ok (cache.saveGetResult location result)
              Prog.ret (result.info, result.attributes)
            Prog.ret (⟨head.1, head.2, .upstream⟩ : PrefetchedHead)) (fun x _ => x = .error .panic) s.tick := by
        refine Prog.Ends.bind (ends_call (f := .prefetch) (Q := fun x _ => x = .error .panic) (s := s.tick) hquiet
          fun s₁ _ => ?_) (fun head s' h => by cases h.2) fun e s' h => by cases h.2; rfl
        refine Prog.Ends.bind (ends_upstreamGet hans rfl) (fun result s₂ h => ?_) fun e s₂ h => by
          obtain ⟨_, h, -⟩ := h
          cases h
        obtain ⟨_, heq, hget, -, -, rfl⟩ := h
        cases heq
        have hrange := hw.range hget
        rw [(hw.info hget).1] at hrange
        have hstart : ¬cache.partSizeBytes ∣ result.range.start := by
          rw [← Except.ok.inj hrange]
          exact fun h => hmis (hwide.starts.1 h)
        rw [saveGetResult, if_neg (fun h => hstart h.1)]
        exact ⟨_, _, rfl, rfl, fun _ _ => rfl⟩
      rcases x with e | _ | head
      · exact hmiss
      · exact hmiss
      · exact absurd rfl (hnone head)
    obtain ⟨x, s', hrun, rfl⟩ := hpanic
    exact ⟨s', by rw [getOpts, cachedGetOpts, Prog.bind_assoc, Prog.run_bind_error hrun]⟩

theorem cold_read_panics_iff_sample :
    ∃ s', (sampleCache.getOpts 1 "db/1.sst" (some (.suffix 0)) false 1).run sampleWorld.handler .empty =
      some (.error .panic, s') :=
  (cold_read_panics_iff sampleCodec_lawful sampleWorld_honest sampleWorld_answers
    (.empty sampleCache fun _ => sampleObject) quiet_empty (fun ⟨_, _, h, _⟩ => (by cases h)) 0 1 (by decide)
    false).2 ⟨0, rfl, by decide, by decide⟩

end Admission

end Miscreant
