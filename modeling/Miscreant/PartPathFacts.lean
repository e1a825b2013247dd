/-
What the files of the part cache are named, and what their heads keep.

No two files have one path (`filePath_injective`): a part's name says its
object, its number and the part size, also after the size has been changed,
and a file being written is apart from every finished one. So a file can only
be what was written under its name.

A head read back has the size, the tag and the version that were saved; of the
attributes it has all, except a storage class and metadata named as one of the
others (`attrs_ofMeta_iff`).
-/
import Miscreant.PartRangeFacts
import Mathlib.Data.Set.Function

namespace Miscreant

open Lib

/-! ## Names -/

/-- Where a run of characters ends, by one that is not of it. -/
theorem append_cons_inj_of_forall {α : Type} {p : α → Prop} {c d : α} {a b : List α} (hc : ¬p c) (hd : ¬p d) :
    ∀ {x y : List α}, (∀ z ∈ x, p z) → (∀ z ∈ y, p z) → x ++ c :: a = y ++ d :: b → x = y ∧ c = d ∧ a = b
  | [], [], _, _, h => by
    obtain ⟨rfl, rfl⟩ := List.cons_eq_cons.1 h
    exact ⟨rfl, rfl, rfl⟩
  | [], z :: y, _, hy, h => by
    obtain ⟨rfl, -⟩ := List.cons_eq_cons.1 h
    exact absurd (hy c (List.mem_cons_self ..)) hc
  | z :: x, [], hx, _, h => by
    obtain ⟨rfl, -⟩ := List.cons_eq_cons.1 h
    exact absurd (hx z (List.mem_cons_self ..)) hd
  | z :: x, z' :: y, hx, hy, h => by
    obtain ⟨rfl, htail⟩ := List.cons_eq_cons.1 h
    obtain ⟨rfl, hcd, hab⟩ := append_cons_inj_of_forall hc hd (fun z hz => hx z (List.mem_cons_of_mem _ hz))
      (fun z hz => hy z (List.mem_cons_of_mem _ hz)) htail
    exact ⟨rfl, hcd, hab⟩

/-- What follows the last `c`. -/
theorem append_last_inj {α : Type} {c : α} {a b x y : List α} (hx : c ∉ x) (hy : c ∉ y)
    (h : a ++ c :: x = b ++ c :: y) : a = b ∧ x = y := by
  have hrev : x.reverse ++ c :: a.reverse = y.reverse ++ c :: b.reverse := by
    have := congrArg List.reverse h
    simpa using this
  obtain ⟨hxy, -, hab⟩ := append_cons_inj_of_forall (p := (· ≠ c)) (by simp) (by simp)
    (fun z hz => by rintro rfl; exact hx (List.mem_reverse.1 hz))
    (fun z hz => by rintro rfl; exact hy (List.mem_reverse.1 hz)) hrev
  exact ⟨List.reverse_inj.1 hab, List.reverse_inj.1 hxy⟩

/-- A file the cache keeps. -/
inductive CacheFile
  | part (location : String) (partNumber partSize : Nat)
  | head (location : String)
  deriving DecidableEq, Repr

namespace CacheFile

/-- The part size is one the cache accepts. -/
def Valid : CacheFile → Prop
  | part _ _ partSize => 1024 ∣ partSize
  | head _ => True

def location : CacheFile → String
  | part location _ _ => location
  | head location => location

/-- The path of the file, or of the one written before the rename. -/
def path (rootFolder : String) (file : CacheFile) (writing : Option String) : String :=
  let path := match file with
    | part location partNumber partSize => makePartPath rootFolder location partNumber partSize
    | head location => makeHeadPath rootFolder location
  match writing with
  | none => path
  | some suffix => tmpPath path suffix

/-- The part size in a name. -/
def sizeName (partSize : Nat) : List Char :=
  if partSize % (1024 * 1024) = 0 then Nat.toDigits 10 (partSize / (1024 * 1024)) ++ ['m', 'b']
  else Nat.toDigits 10 (partSize / 1024) ++ ['k', 'b']

/-- The last component of a file's path. -/
def name : CacheFile → List Char
  | part _ partNumber partSize => "_part".toList ++ sizeName partSize ++ '-' :: (zeroPadded partNumber).toList
  | head _ => "_head".toList

def extension : Option String → List Char
  | none => []
  | some suffix => '.' :: "_tmp".toList ++ suffix.toList

theorem toList_path (rootFolder : String) (file : CacheFile) (writing : Option String) :
    (file.path rootFolder writing).toList =
      (rootFolder.toList ++ '/' :: file.location.toList) ++ '/' :: (file.name ++ extension writing) := by
  cases file with
  | head location => cases writing <;> simp [path, makeHeadPath, tmpPath, name, extension, CacheFile.location]
  | part location partNumber partSize =>
    have hsize : (if partSize % (1024 * 1024) = 0 then s!"{partSize / (1024 * 1024)}mb"
        else s!"{partSize / 1024}kb").toList = sizeName partSize := by
      rw [sizeName]
      split <;> (simp; rfl)
    cases writing <;> simp [path, makePartPath, tmpPath, name, extension, CacheFile.location, ← hsize]

/-- A digit, a letter, an underscore or a dash. -/
def NameChar (c : Char) : Prop := c ≠ '/' ∧ c ≠ '.'

theorem nameChar_of_isDigit {c : Char} (h : c.isDigit = true) : NameChar c := by
  constructor <;> (rintro rfl; revert h; decide)

theorem toList_zeroPadded (n : Nat) :
    (zeroPadded n).toList = List.replicate (9 - (Nat.toDigits 10 n).length) '0' ++ Nat.toDigits 10 n := by
  rw [zeroPadded, String.toList_ofList]

theorem isDigit_toDigits {n : Nat} {c : Char} (h : c ∈ Nat.toDigits 10 n) : c.isDigit = true :=
  Nat.isDigit_of_mem_toDigits (by decide) (by decide) h

theorem isDigit_zeroPadded {n : Nat} {c : Char} (h : c ∈ (zeroPadded n).toList) : c.isDigit = true := by
  rw [toList_zeroPadded, List.mem_append] at h
  rcases h with h | h
  · rw [List.eq_of_mem_replicate h]
    rfl
  · exact isDigit_toDigits h

theorem zeroPadded_injective {m n : Nat} (h : (zeroPadded m).toList = (zeroPadded n).toList) : m = n := by
  have hvalue : ∀ n, Nat.ofDigitChars 10 (zeroPadded n).toList 0 = n := by
    intro n
    rw [toList_zeroPadded, Nat.ofDigitChars_append, Nat.ofDigitChars_replicate_zero, Nat.mul_zero,
      Nat.ofDigitChars_ten_toDigits]
  rw [← hvalue m, h, hvalue]

theorem toDigits_injective {m n : Nat} (h : Nat.toDigits 10 m = Nat.toDigits 10 n) : m = n := by
  rw [← Nat.ofDigitChars_ten_toDigits (n := m), h, Nat.ofDigitChars_ten_toDigits]

theorem nameChar_of_all {cs : List Char} (h : (cs.all fun c => c != '/' && c != '.') = true) : ∀ c ∈ cs, NameChar c := by
  intro c hc
  have hboth := List.all_eq_true.1 h c hc
  simp only [Bool.and_eq_true, bne_iff_ne] at hboth
  exact hboth

theorem nameChar_name (file : CacheFile) : ∀ c ∈ file.name, NameChar c := by
  cases file with
  | head location => exact nameChar_of_all rfl
  | part location partNumber partSize =>
    intro c hc
    simp only [name, sizeName, List.mem_append, List.mem_cons] at hc
    rcases hc with (hc | hc) | rfl | hc
    · exact nameChar_of_all rfl c hc
    · split at hc
      all_goals
        rcases List.mem_append.1 hc with hc | hc
        · exact nameChar_of_isDigit (isDigit_toDigits hc)
        · simp only [List.mem_cons, List.not_mem_nil, or_false] at hc
          rcases hc with rfl | rfl <;> exact ⟨by decide, by decide⟩
    · exact ⟨by decide, by decide⟩
    · exact nameChar_of_isDigit (isDigit_zeroPadded hc)

/-- The number before a letter. -/
theorem digits_inj {m n : Nat} {c d : Char} {a b : List Char} (hc : c.isDigit = false) (hd : d.isDigit = false)
    (h : Nat.toDigits 10 m ++ c :: a = Nat.toDigits 10 n ++ d :: b) : m = n ∧ c = d ∧ a = b := by
  obtain ⟨hdigits, hcd, hab⟩ := append_cons_inj_of_forall (p := fun c => c.isDigit = true) (by simp [hc]) (by simp [hd])
    (fun _ => isDigit_toDigits) (fun _ => isDigit_toDigits) h
  exact ⟨toDigits_injective hdigits, hcd, hab⟩

/-- The size of a part and what follows it. -/
theorem sizeName_inj {p q : Nat} (hp : 1024 ∣ p) (hq : 1024 ∣ q) {a b : List Char}
    (h : sizeName p ++ a = sizeName q ++ b) : p = q ∧ a = b := by
  have hm : 'm'.isDigit = false := rfl
  have hk : 'k'.isDigit = false := rfl
  unfold sizeName at h
  split at h <;> split at h <;> simp only [List.append_assoc, List.cons_append, List.nil_append] at h
  · obtain ⟨hpq, -, hab⟩ := digits_inj hm hm h
    exact ⟨by omega, by simpa using hab⟩
  · obtain ⟨-, hc, -⟩ := digits_inj hm hk h
    exact absurd hc (by decide)
  · obtain ⟨-, hc, -⟩ := digits_inj hk hm h
    exact absurd hc (by decide)
  · obtain ⟨hpq, -, hab⟩ := digits_inj hk hk h
    exact ⟨by omega, by simpa using hab⟩

theorem name_inj {f g : CacheFile} (hf : f.Valid) (hg : g.Valid) (hloc : f.location = g.location)
    (h : f.name = g.name) : f = g := by
  cases f with
  | head l =>
    cases g with
    | head l' => rw [show l = l' from hloc]
    | part l' n' p' => exact absurd (congrArg (·[1]?) h) (by simp [name])
  | part l n p =>
    cases g with
    | head l' => exact absurd (congrArg (·[1]?) h) (by simp [name])
    | part l' n' p' =>
      simp only [name, List.append_assoc, List.append_cancel_left_eq] at h
      obtain ⟨rfl, hnumber⟩ := sizeName_inj hf hg h
      rw [show l = l' from hloc, zeroPadded_injective (List.cons_eq_cons.1 hnumber).2]

/-- The suffixes of `make_rand_suffix`. -/
def Alphanumeric (writing : Option String) : Prop := ∀ suffix ∈ writing, ∀ c ∈ suffix.toList, c.isAlphanum = true

theorem alphanumeric_none : Alphanumeric none := fun _ h => (by cases h)

/-- A path says which file it is of, and whether it is being written. -/
theorem path_inj (rootFolder : String) {f g : CacheFile} (hf : f.Valid) (hg : g.Valid) {v w : Option String}
    (hv : Alphanumeric v) (hw : Alphanumeric w) (h : f.path rootFolder v = g.path rootFolder w) : f = g ∧ v = w := by
  have hslash : ∀ {file : CacheFile} {writing : Option String},
      Alphanumeric writing → '/' ∉ file.name ++ extension writing := by
    intro file writing hw hmem
    rcases List.mem_append.1 hmem with hmem | hmem
    · exact (nameChar_name file _ hmem).1 rfl
    · cases writing with
      | none => cases hmem
      | some suffix =>
        simp only [extension, List.cons_append, List.mem_cons, List.mem_append] at hmem
        rcases hmem with hmem | hmem | hmem
        · exact absurd hmem (by decide)
        · exact absurd hmem (by decide)
        · exact absurd (hw suffix rfl _ hmem) (by decide)
  have hlist := congrArg String.toList h
  rw [toList_path, toList_path] at hlist
  obtain ⟨hdir, hname⟩ := append_last_inj (hslash hv) (hslash hw) hlist
  have hloc : f.location = g.location := by
    have := (List.cons_eq_cons.1 (List.append_cancel_left hdir)).2
    exact String.toList_inj.1 this
  -- a name has no dot of its own
  have hdot : ∀ (file : CacheFile), ∀ c ∈ file.name, c ≠ '.' := fun file c hc => (nameChar_name file c hc).2
  cases v with
  | none =>
    cases w with
    | none =>
      rw [extension, List.append_nil, List.append_nil] at hname
      exact ⟨name_inj hf hg hloc hname, rfl⟩
    | some suffix =>
      have hmem : '.' ∈ f.name ++ extension none := by rw [hname]; simp [extension]
      rw [extension, List.append_nil] at hmem
      exact absurd rfl (hdot f _ hmem)
  | some suffix =>
    cases w with
    | none =>
      have hmem : '.' ∈ g.name ++ extension none := by rw [← hname]; simp [extension]
      rw [extension, List.append_nil] at hmem
      exact absurd rfl (hdot g _ hmem)
    | some suffix' =>
      obtain ⟨hname, -, htmp⟩ := append_cons_inj_of_forall (p := (· ≠ '.')) (by simp) (by simp) (hdot f) (hdot g) hname
      exact ⟨name_inj hf hg hloc hname, by rw [String.toList_inj.1 (List.append_cancel_left htmp)]⟩

/-- No two files, of any objects, part numbers and part sizes, being written or
finished, are at one path. -/
theorem filePath_injective (rootFolder : String) :
    Set.InjOn (fun x : CacheFile × Option String => x.1.path rootFolder x.2) {x | x.1.Valid ∧ Alphanumeric x.2} := by
  rintro ⟨f, v⟩ ⟨hf, hv⟩ ⟨g, w⟩ ⟨hg, hw⟩ h
  obtain ⟨rfl, rfl⟩ := path_inj rootFolder hf hg hv hw h
  rfl

/-- A finished part, the head of the same object and a part still being
written are at three paths. -/
theorem filePath_injective_sample :
    let part : CacheFile × Option String := (.part "a/b" 3 1048576, none)
    let head : CacheFile × Option String := (.head "a/b", none)
    let written : CacheFile × Option String := (.part "a/b" 3 1048576, some "Xy9")
    [part, head, written].Pairwise fun x y => x.1.path "/cache" x.2 ≠ y.1.path "/cache" y.2 := by
  have hinj := filePath_injective "/cache"
  have hpart : Valid (.part "a/b" 3 1048576) := ⟨1024, rfl⟩
  have hhead : Valid (.head "a/b") := trivial
  have hsuffix : Alphanumeric (some "Xy9") := fun suffix hmem c hc => by
    obtain rfl := Option.some_inj.1 hmem
    exact List.all_eq_true.1 (by decide +kernel : "Xy9".toList.all Char.isAlphanum = true) c hc
  refine .cons ?_ (.cons ?_ (List.pairwise_singleton ..))
  · intro y hy hpath
    rcases List.mem_pair.1 hy with rfl | rfl
    · exact absurd (hinj ⟨hpart, alphanumeric_none⟩ ⟨hhead, alphanumeric_none⟩ hpath) (by decide)
    · exact absurd (hinj ⟨hpart, alphanumeric_none⟩ ⟨hpart, hsuffix⟩ hpath) (by decide)
  · intro y hy hpath
    obtain rfl := List.mem_singleton.1 hy
    exact absurd (hinj ⟨hhead, alphanumeric_none⟩ ⟨hpart, hsuffix⟩ hpath) (by decide)

end CacheFile

/-! ## Heads -/

/-- An attribute that its saved name gives back. -/
def Attribute.Saved (a : Attribute) : Prop := a.name.map Attribute.ofName = some a

/-- The names of the attributes that are not metadata. -/
def reservedNames : List String :=
  ["Cache-Control", "Content-Disposition", "Content-Encoding", "Content-Language", "Content-Type"]

theorem Attribute.saved_iff (a : Attribute) :
    a.Saved ↔ a ≠ storageClass ∧ ∀ key, a = metadata key → key ∉ reservedNames := by
  cases a with
  | metadata key =>
    simp only [Saved, name, ofName, Option.map_some, Option.some.injEq, reservedNames, ne_eq, reduceCtorEq,
      not_false_eq_true, Attribute.metadata.injEq, forall_eq', true_and, List.mem_cons, List.not_mem_nil, or_false,
      not_or]
    split_ifs <;> simp_all
  | storageClass => simp [Saved, name]
  | cacheControl => simp [Saved, name, ofName]
  | contentDisposition => simp [Saved, name, ofName]
  | contentEncoding => simp [Saved, name, ofName]
  | contentLanguage => simp [Saved, name, ofName]
  | contentType => simp [Saved, name, ofName]

theorem Attribute.saved_ofName (key : String) : (Attribute.ofName key).Saved := by
  unfold Attribute.ofName
  split_ifs <;> simp_all [Attribute.Saved, Attribute.name, Attribute.ofName]

/-- A key that is new is put last. -/
theorem insertEntry_of_notMem {κ : Type} [DecidableEq κ] {key : κ} {value : String} {map : List (κ × String)}
    (h : key ∉ map.map Prod.fst) : insertEntry key value map = map ++ [(key, value)] := by
  rw [insertEntry, List.filter_eq_self.2]
  intro entry hmem
  simp only [ne_eq, decide_not, Bool.not_eq_eq_eq_not, Bool.not_true, decide_eq_false_iff_not]
  rintro rfl
  exact h (List.mem_map_of_mem hmem)

theorem mem_insertEntry {κ : Type} [DecidableEq κ] {key : κ} {value : String} {map : List (κ × String)}
    {entry : κ × String} (h : entry ∈ insertEntry key value map) : entry ∈ map ∨ entry = (key, value) := by
  rcases List.mem_append.1 h with h | h
  · exact .inl (List.mem_of_mem_filter h)
  · exact .inr (List.mem_singleton.1 h)

/-- Entries whose keys are told apart by `f` go over in their order. -/
theorem foldl_insertEntry {κ κ' : Type} [DecidableEq κ'] {f : κ → κ'} :
    ∀ (entries : List (κ × String)) (map : List (κ' × String)),
      (map.map Prod.fst ++ (entries.map fun entry => f entry.1)).Nodup →
        entries.foldl (fun map entry => insertEntry (f entry.1) entry.2 map) map =
          map ++ entries.map fun entry => (f entry.1, entry.2)
  | [], map, _ => (List.append_nil map).symm
  | entry :: entries, map, h => by
    rw [List.map_cons, List.nodup_middle, List.nodup_cons] at h
    have hnew : f entry.1 ∉ map.map Prod.fst := fun hmem => h.1 (List.mem_append_left _ hmem)
    rw [List.foldl_cons, insertEntry_of_notMem hnew, foldl_insertEntry, List.map_cons, List.append_assoc,
      List.singleton_append]
    rw [List.map_append, List.map_cons, List.map_nil, List.append_assoc, List.singleton_append, List.nodup_middle,
      List.nodup_cons]
    exact h

/-- The attributes read back are ones that names give back. -/
theorem LocalCacheHead.saved_attrs (head : LocalCacheHead) : ∀ entry ∈ head.attrs, entry.1.Saved := by
  suffices h : ∀ (entries : List (String × String)) (map : Attributes), (∀ entry ∈ map, entry.1.Saved) →
      ∀ entry ∈ entries.foldl (fun map entry => insertEntry (Attribute.ofName entry.1) entry.2 map) map,
        entry.1.Saved from h head.attributes [] (by simp)
  intro entries
  induction entries with
  | nil => exact fun map h => h
  | cons entry entries ih =>
    refine fun map h => ih _ fun entry' hmem => ?_
    rcases mem_insertEntry hmem with hmem | rfl
    · exact h entry' hmem
    · exact Attribute.saved_ofName entry.1

/-- Saved attributes come back as they were. -/
theorem LocalCacheHead.attrs_ofMeta (codec : HeadCodec) (info : ObjectMeta) {attributes : Attributes}
    (hnodup : (attributes.map Prod.fst).Nodup) (hsaved : ∀ entry ∈ attributes, entry.1.Saved) :
    (ofMeta codec info attributes).attrs = attributes := by
  have hname : ∀ entry ∈ attributes, entry.1.name = some (entry.1.name.getD "") := by
    intro entry hmem
    have := hsaved entry hmem
    cases hn : entry.1.name with
    | none => rw [Attribute.Saved, hn] at this; cases this
    | some key => rfl
  have hback : ∀ entry ∈ attributes, Attribute.ofName (entry.1.name.getD "") = entry.1 := by
    intro entry hmem
    have h := hsaved entry hmem
    rw [Attribute.Saved, hname entry hmem] at h
    exact Option.some.inj h
  have hkeys : (attributes.map fun entry => entry.1.name.getD "").Nodup := by
    refine (List.Nodup.of_map Attribute.ofName ?_)
    rw [List.map_map]
    exact (List.map_congr_left (g := Prod.fst) hback) ▸ hnodup
  have hsave : (ofMeta codec info attributes).attributes = attributes.map fun entry => (entry.1.name.getD "", entry.2) := by
    have hfold := foldl_insertEntry (f := fun a : Attribute => a.name.getD "") attributes [] (by simpa using hkeys)
    rw [List.nil_append] at hfold
    rw [← hfold]
    simp only [ofMeta]
    refine List.foldl_ext _ _ _ fun map entry hmem => ?_
    rw [hname entry hmem]
    rfl
  rw [attrs, hsave, foldl_insertEntry (f := Attribute.ofName) _ [], List.nil_append, List.map_map]
  · have hid : ∀ entry ∈ attributes, (Attribute.ofName (entry.1.name.getD ""), entry.2) = id entry :=
      fun entry hmem => by rw [hback entry hmem]; rfl
    exact (List.map_congr_left hid).trans (List.map_id _)
  · rw [List.map_nil, List.nil_append, List.map_map]
    exact (List.map_congr_left (g := Prod.fst) hback) ▸ hnodup

/-- Exactly these attributes survive the head file: every one but a storage
class, and metadata under another attribute's name. -/
theorem LocalCacheHead.attrs_ofMeta_iff (codec : HeadCodec) (info : ObjectMeta) {attributes : Attributes}
    (hnodup : (attributes.map Prod.fst).Nodup) :
    (∀ a, (ofMeta codec info attributes).attrs.lookup a = attributes.lookup a) ↔
      ∀ entry ∈ attributes, entry.1 ≠ .storageClass ∧ ∀ key, entry.1 = .metadata key → key ∉ reservedNames := by
  constructor
  · intro h entry hmem
    rw [← Attribute.saved_iff]
    by_contra hlost
    have hnone : (ofMeta codec info attributes).attrs.lookup entry.1 = none := by
      rw [List.lookup_eq_none_iff]
      intro entry' hmem'
      have hs := (ofMeta codec info attributes).saved_attrs entry' hmem'
      simp only [bne_iff_ne, ne_eq]
      intro heq
      rw [← heq] at hs
      exact hlost hs
    rw [h] at hnone
    simpa using List.lookup_eq_none_iff.1 hnone entry hmem
  · intro h a
    rw [attrs_ofMeta codec info hnodup fun entry hmem => (Attribute.saved_iff entry.1).2 (h entry hmem)]

theorem LocalCacheHead.attrs_ofMeta_iff_typed :
    (ofMeta sampleCodec ⟨"db/1.sst", 0, 3, none, none⟩
      [(.contentType, "text/plain"), (.metadata "level", "1")]).attrs.lookup (.metadata "level") = some "1" :=
  (attrs_ofMeta_iff sampleCodec _ (by decide)).2 (by simp [reservedNames]) _

end Miscreant
