/-
The repository registry under concurrent creation.

A name is mapped once: a creation reads the mapping, and commits only if it
is still absent. The id it takes is the counter it read, which no one else
can have taken since. A lookup outside of any transaction sees a mapping only
together with the repository's defaults, which were committed with it.
-/
import Miscreant.Slate
import Miscreant.Lib.Pool

namespace Miscreant

open Lib

namespace Slate

/-! ## What the registry holds -/

/-- The key of a name's mapping. -/
abbrev repoKey (name : String) : Bytes := metaKey .GLOBAL (META_REPO_PREFIX ++ name)

/-- The key of the id counter. -/
abbrev counterKey : Bytes := metaKey .GLOBAL META_NEXT_REPO_ID

/-- A 64-bit number as the registry stores it. -/
def rawValue (n : UInt64) : Bytes := (MetaValue.raw (u64ToBeBytes n)).encode

theorem rawValue_injective : Function.Injective rawValue := by
  intro n m h
  exact u64ToBeBytes_injective (MetaValue.raw.inj (MetaValue.encode_injective h))

theorem rawU64_u64ToBeBytes (n : UInt64) : rawU64 (.raw (u64ToBeBytes n)) = some n := by
  have hread : readU64Be (u64ToBeBytes n) = n := by
    rw [← List.append_nil (u64ToBeBytes n), readU64Be_u64ToBeBytes]
  simp [rawU64, length_u64ToBeBytes, hread]

theorem repoKey_inj {name name' : String} : repoKey name = repoKey name' ↔ name = name' := by
  rw [metaKey_inj]
  constructor
  · intro h
    exact (String.append_right_inj META_REPO_PREFIX).1 h.2
  · intro h
    exact ⟨rfl, by rw [h]⟩

theorem repo_ne {name key : String} (h : key.toList.head? ≠ some 'r') : META_REPO_PREFIX ++ name ≠ key := by
  intro heq
  refine h ?_
  rw [← heq, String.toList_append]
  rfl

/-- The repository has its defaults. -/
def HasDefaults (m : SortedMap Bytes Bytes) (id : RepoId) : Prop := ∀ w ∈ defaultWrites id, m.get w.1 = some w.2

/-- The counter, which starts at the first id. -/
def CounterAt (m : SortedMap Bytes Bytes) (n : UInt64) : Prop :=
  (m.get counterKey = none ∧ n = FIRST_REPO_ID) ∨ m.get counterKey = some (rawValue n)

/-- What creations leave: every mapped name has its defaults, and until the
counter is used up the ids are all different. -/
structure Registered (kv : Kv Bytes Bytes) : Prop where
  counter : ∃ next, CounterAt kv.data next ∧ 0 < next.toNat ∧
    (kv.version < 2 ^ 64 - 1 → next.toNat = kv.version + 1)
  named : ∀ name bytes, kv.data.get (repoKey name) = some bytes →
    ∃ id, bytes = rawValue id ∧ 0 < id.toNat ∧ HasDefaults kv.data ⟨id⟩ ∧ (kv.version < 2 ^ 64 - 1 → id.toNat ≤ kv.version)
  unique : kv.version < 2 ^ 64 - 1 → ∀ name name' bytes, kv.data.get (repoKey name) = some bytes →
    kv.data.get (repoKey name') = some bytes → name = name'

theorem registered_empty : Registered (Kv.empty : Kv Bytes Bytes) where
  counter := ⟨FIRST_REPO_ID, .inl ⟨rfl, rfl⟩, by decide, fun _ => rfl⟩
  named _ _ h := nomatch h
  unique _ _ _ _ h := nomatch h

theorem CounterAt.unique {m : SortedMap Bytes Bytes} {n n' : UInt64} (h : CounterAt m n) (h' : CounterAt m n') :
    n = n' := by
  rcases h with ⟨hnone, rfl⟩ | hsome
  · rcases h' with ⟨-, rfl⟩ | hsome'
    · rfl
    · cases hnone.symm.trans hsome'
  · rcases h' with ⟨hnone, -⟩ | hsome'
    · cases hnone.symm.trans hsome
    · exact rawValue_injective (Option.some.inj (hsome.symm.trans hsome'))

/-! ## One creation -/

section Creation

variable {m : SortedMap Bytes Bytes} {name : String} {nextId : UInt64}

/-- The writes of a creation as the transaction holds them. -/
def txnWrites (name : String) (nextId : UInt64) : List (Bytes × Option Bytes) :=
  (creationWrites name nextId).map fun w => (w.1, some w.2)

theorem get_creation_counter :
    (overlay m (txnWrites name nextId)).get counterKey = some (rawValue (saturatingSucc nextId)) := by
  refine overlay_of_mem (fun w hw hk => ?_) (.inl (by simp [txnWrites, creationWrites]))
  have hrepo : META_REPO_PREFIX ++ name ≠ META_NEXT_REPO_ID := repo_ne (by decide)
  simp only [txnWrites, creationWrites, defaultWrites, List.map_cons, List.map_nil, List.mem_cons, List.not_mem_nil,
    or_false] at hw
  rcases hw with rfl | rfl | rfl | rfl | rfl | rfl
  · rfl
  · exact absurd (metaKey_inj.1 hk).2 hrepo
  · exact absurd (metaKey_inj.1 hk).2 (by decide)
  · exact absurd (metaKey_inj.1 hk).2 (by decide)
  · exact absurd (metaKey_inj.1 hk).2 (by decide)
  · exact absurd hk.symm (metaKey_ne_refKey _ _ _ _)

theorem get_creation_repo (name' : String) :
    (overlay m (txnWrites name nextId)).get (repoKey name') =
      if name' = name then some (rawValue nextId) else m.get (repoKey name') := by
  have hfresh : ∀ w ∈ txnWrites name nextId, w.1 = repoKey name' → name' = name ∧ w.2 = some (rawValue nextId) := by
    intro w hw hk
    simp only [txnWrites, creationWrites, defaultWrites, List.map_cons, List.map_nil, List.mem_cons,
      List.not_mem_nil, or_false] at hw
    rcases hw with rfl | rfl | rfl | rfl | rfl | rfl
    · exact absurd (metaKey_inj.1 hk).2.symm (repo_ne (by decide))
    · exact ⟨(repoKey_inj.1 hk).symm, rfl⟩
    · exact absurd (metaKey_inj.1 hk).2.symm (repo_ne (by decide))
    · exact absurd (metaKey_inj.1 hk).2.symm (repo_ne (by decide))
    · exact absurd (metaKey_inj.1 hk).2.symm (repo_ne (by decide))
    · exact absurd hk.symm (metaKey_ne_refKey _ _ _ _)
  split
  · rename_i heq
    subst heq
    exact overlay_of_mem (fun w hw hk => (hfresh w hw hk).2) (.inl (by simp [txnWrites, creationWrites]))
  · rename_i hne
    refine overlay_of_not_mem fun hmem => ?_
    obtain ⟨w, hw, hk⟩ := List.mem_map.1 hmem
    exact hne (hfresh w hw hk).1

/-- The defaults of any repository are written as they are. -/
theorem defaults_agree {id : RepoId} {d : Bytes × Bytes} (hd : d ∈ defaultWrites id) :
    ∀ w ∈ txnWrites name nextId, w.1 = d.1 → w.2 = some d.2 := by
  intro w hw hk
  simp only [txnWrites, creationWrites, defaultWrites, List.map_cons, List.map_nil, List.mem_cons,
    List.not_mem_nil, or_false] at hw hd
  have hrepo : ∀ key : String, key.toList.head? ≠ some 'r' → META_REPO_PREFIX ++ name ≠ key := fun _ h => repo_ne h
  rcases hd with rfl | rfl | rfl | rfl <;> rcases hw with rfl | rfl | rfl | rfl | rfl | rfl
  all_goals first
    | rfl
    | exact absurd (metaKey_inj.1 hk).2 (by decide)
    | exact absurd (metaKey_inj.1 hk).2 (hrepo _ (by decide))
    | exact absurd hk (metaKey_ne_refKey _ _ _ _)
    | exact absurd hk.symm (metaKey_ne_refKey _ _ _ _)

theorem HasDefaults.creation {id : RepoId} (h : HasDefaults m id) :
    HasDefaults (overlay m (txnWrites name nextId)) id :=
  fun d hd => overlay_of_mem (defaults_agree hd) (.inr (h d hd))

theorem hasDefaults_created : HasDefaults (overlay m (txnWrites name nextId)) ⟨nextId⟩ := by
  intro d hd
  refine overlay_of_mem (defaults_agree hd) (.inl ?_)
  simp only [txnWrites, creationWrites, List.map_cons, List.map_map, List.mem_cons]
  exact .inr (.inr (List.mem_map_of_mem hd))

end Creation

theorem toNat_saturatingSucc {n : UInt64} (h : n.toNat + 1 < 2 ^ 64) : (saturatingSucc n).toNat = n.toNat + 1 := by
  rw [saturatingSucc, if_pos h, UInt64.toNat_add]
  exact Nat.mod_eq_of_lt h

theorem saturatingSucc_pos {n : UInt64} (h : 0 < n.toNat) : 0 < (saturatingSucc n).toNat := by
  by_cases hlt : n.toNat + 1 < 2 ^ 64
  · rw [toNat_saturatingSucc hlt]
    omega
  · rw [saturatingSucc, if_neg hlt]
    exact h

/-- A creation at the current counter. -/
theorem Registered.creation {kv : Kv Bytes Bytes} (h : Registered kv) {name : String} {nextId : UInt64}
    (hcounter : CounterAt kv.data nextId) : Registered (kv.commit (txnWrites name nextId)) := by
  obtain ⟨next, hnext, hpos, hbound⟩ := h.counter
  obtain rfl := hcounter.unique hnext
  have hver : (kv.commit (txnWrites name nextId)).version = kv.version + 1 := rfl
  refine ⟨⟨saturatingSucc nextId, .inr get_creation_counter, saturatingSucc_pos hpos, fun hlt => ?_⟩, ?_, ?_⟩
  · have hid := hbound (by omega)
    rw [toNat_saturatingSucc (by omega)]
    omega
  · intro name' bytes hget
    rw [show (kv.commit (txnWrites name nextId)).data = overlay kv.data (txnWrites name nextId) from rfl,
      get_creation_repo] at hget
    split at hget
    · cases hget
      refine ⟨nextId, rfl, hpos, hasDefaults_created, fun hlt => ?_⟩
      have hid := hbound (by omega)
      omega
    · obtain ⟨id, hbytes, hid, hdef, hle⟩ := h.named name' bytes hget
      refine ⟨id, hbytes, hid, hdef.creation, fun hlt => ?_⟩
      have := hle (by omega)
      omega
  · intro hlt name₁ name₂ bytes h₁ h₂
    rw [show (kv.commit (txnWrites name nextId)).data = overlay kv.data (txnWrites name nextId) from rfl,
      get_creation_repo] at h₁ h₂
    have hid := hbound (by omega)
    -- an id of an old name is below the counter
    have hold : ∀ name', kv.data.get (repoKey name') ≠ some (rawValue nextId) := by
      intro name' hget
      obtain ⟨id, hbytes, -, -, hle⟩ := h.named name' _ hget
      obtain rfl := rawValue_injective hbytes
      have := hle (by omega)
      omega
    split at h₁ <;> split at h₂
    · rename_i heq₁ heq₂
      rw [heq₁, heq₂]
    · cases h₁
      exact absurd h₂ (hold name₂)
    · cases h₂
      exact absurd h₁ (hold name₁)
    · exact h.unique (by omega) name₁ name₂ bytes h₁ h₂

/-! ## Creations among others -/

/-- What other creations may do to the store. -/
structure Grows (s s' : Slate) : Prop where
  later : s.kv.Later s'.kv
  named : ∀ name bytes, s.kv.data.get (repoKey name) = some bytes → s'.kv.data.get (repoKey name) = some bytes
  defaults : ∀ id, HasDefaults s.kv.data id → HasDefaults s'.kv.data id
  registered : Registered s.kv → Registered s'.kv

theorem Grows.refl (s : Slate) : Grows s s := ⟨.refl _, fun _ _ h => h, fun _ h => h, id⟩

theorem Grows.trans (s₁ s₂ s₃ : Slate) (h : Grows s₁ s₂) (h' : Grows s₂ s₃) : Grows s₁ s₃ :=
  ⟨h.later.trans h'.later, fun name bytes hn => h'.named name bytes (h.named name bytes hn),
    fun id hd => h'.defaults id (h.defaults id hd), fun hr => h'.registered (h.registered hr)⟩

/-- What a call for `name` ends with: the id the name is mapped to, or the end
of its attempts. -/
def Resolves (name : String) : Except SlateError RepoMeta → Slate → Prop
  | .ok info, s => s.kv.data.get (repoKey name) = some (rawValue info.id.id)
  | .error e, _ => e = .createContention

/-- A call for `name` among others. -/
abbrev SafeFor (name : String) (p : SlateProg SlateError RepoMeta) (s : Slate) : Prop :=
  p.Safe handler Grows Grows (fun _ _ => True) (Resolves name) s

variable {name : String} {s : Slate}

/-- Reading the metadata of a repository that has its defaults. -/
theorem readRepoMeta_safe {id : RepoId} (hdef : HasDefaults s.kv.data id)
    {α : Type} {Q : Except SlateError α → Slate → Prop} {f : RepoMeta → SlateProg SlateError α}
    (hf : ∀ s', Grows s s' → (f ⟨id, .sha1, DEFAULT_BRANCH⟩).Safe handler Grows Grows (fun _ _ => True) Q s') :
    (readRepoMeta id >>= f).Safe handler Grows Grows (fun _ _ => True) Q s := by
  have hfirst := fun s' (hr : Grows s s') => hr.defaults id hdef _ (List.mem_cons_self ..)
  have hsecond := fun s' (hr : Grows s s') =>
    hr.defaults id hdef _ (List.mem_cons_of_mem _ (List.mem_cons_self ..))
  refine Prog.Safe.op fun s₁ hr₁ _ => ⟨.refl s₁, ?_⟩
  simp only [handler, hfirst s₁ hr₁]
  refine Prog.Safe.op fun s₂ hr₂ _ => ⟨.refl s₂, ?_⟩
  have hr := Grows.trans _ _ _ hr₁ hr₂
  simp only [handler, hsecond s₂ hr]
  exact hf s₂ hr

theorem repoIdOf_rawValue (key : String) (id : UInt64) : repoIdOf key (rawValue id) = .ok ⟨id⟩ := by
  simp [repoIdOf, rawValue, decodeRepoId, rawU64_u64ToBeBytes, Except.mapError, bind, Except.bind]

theorem nextIdOf_counter {m : SortedMap Bytes Bytes} {next : UInt64} (h : CounterAt m next) :
    nextIdOf (m.get counterKey) = .ok next := by
  rcases h with ⟨hnone, rfl⟩ | hsome
  · rw [hnone]
    rfl
  · rw [hsome]
    simp [nextIdOf, rawValue, decodeCounter, rawU64_u64ToBeBytes, Except.mapError, bind, Except.bind]

/-- Writing a creation down changes nothing yet. -/
theorem putAll_safe {f : SlateTxn → SlateProg SlateError RepoMeta} : ∀ {writes : List (Bytes × Bytes)} {txn : SlateTxn}
    {s : Slate}, (∀ s', Grows s s' →
      SafeFor name (f { txn with writes := txn.writes ++ writes.map fun w => (w.1, some w.2) }) s') →
    SafeFor name (putAll txn writes >>= f) s
  | [], txn, s, hf => by
    have hsafe := hf s (.refl s)
    rw [List.map_nil, List.append_nil] at hsafe
    exact hsafe
  | (key, value) :: writes, txn, s, hf => by
    refine Prog.Safe.pure_op Grows.refl (fun _ => rfl) fun s' hr => ?_
    have hrest := @putAll_safe f writes (txn.write key (some value)) s'
    refine hrest fun s'' hr' => ?_
    simpa [Txn.write] using hf s'' (.trans _ _ _ hr hr')

/-- A name that is mapped is answered from its mapping. -/
theorem mapped_safe (hreg : Registered s.kv) {bytes : Bytes} (hget : s.kv.data.get (repoKey name) = some bytes)
    {s' : Slate} (hr : Grows s s') :
    SafeFor name (Prog.ofExcept (repoIdOf (META_REPO_PREFIX ++ name) bytes) >>= readRepoMeta) s' := by
  obtain ⟨id, rfl, -, hdef, -⟩ := hreg.named name bytes hget
  rw [repoIdOf_rawValue]
  have hsafe : SafeFor name (readRepoMeta ⟨id⟩ >>= Prog.ret) s' := by
    refine readRepoMeta_safe (hr.defaults _ hdef) fun s₁ hr₁ => Prog.Safe.ret fun s₂ hr₂ => ?_
    exact hr₂.named name _ (hr₁.named name _ (hr.named name _ hget))
  rwa [Prog.bind_ret] at hsafe

/-- A transaction that has read the mapping and the counter, and writes the
creation down. -/
def creating (name : String) (nextId : UInt64) (kv : Kv Bytes Bytes) : SlateTxn where
  snapshot := kv.data
  version := kv.version
  reads := [repoKey name, counterKey]
  writes := txnWrites name nextId

/-- The commit of a creation. -/
theorem commit_safe {nextId : UInt64} {s₀ : Slate} (hcounter : CounterAt s₀.kv.data nextId)
    (hnew : s₀.kv.data.get (repoKey name) = none) (hr : Grows s₀ s) {retry : SlateProg SlateError RepoMeta}
    (hretry : ∀ s', Grows s s' → SafeFor name retry s') :
    SafeFor name (commit (creating name nextId s₀.kv) >>= fun committed =>
      if committed then pure ⟨⟨nextId⟩, .sha1, DEFAULT_BRANCH⟩ else retry) s := by
  refine Prog.Safe.op fun s' hr' _ => ?_
  have hvalid : (creating name nextId s₀.kv).Valid s'.kv := by
    have hbegin : (creating name nextId s₀.kv).Valid s₀.kv := ⟨le_rfl, fun _ _ => rfl⟩
    exact hbegin.later (hr.later.trans hr'.later)
  cases hc : s'.kv.conflicts (creating name nextId s₀.kv) with
  | true =>
    rw [commit_conflict hc]
    exact ⟨.refl s', hretry s' hr'⟩
  | false =>
    rw [commit_ok hc]
    have hname : s'.kv.data.get (repoKey name) = none :=
      (hvalid.current hc (.inl (by simp [creating]))).trans hnew
    have hnext : s'.kv.data.get counterKey = s₀.kv.data.get counterKey :=
      hvalid.current hc (.inl (by simp [creating]))
    have hcounter' : CounterAt s'.kv.data nextId := by
      unfold CounterAt
      rw [hnext]
      exact hcounter
    refine ⟨⟨Kv.later_commit _ _, fun name' bytes hget => ?_, fun id hdef => hdef.creation,
      fun hreg => hreg.creation hcounter'⟩, Prog.Safe.ret fun s₂ hr₂ => hr₂.named name _ ?_⟩
    · show (overlay s'.kv.data (txnWrites name nextId)).get (repoKey name') = some bytes
      rw [get_creation_repo]
      split
      · rename_i heq
        rw [heq, hname] at hget
        cases hget
      · exact hget
    · show (overlay s'.kv.data (txnWrites name nextId)).get (repoKey name) = some (rawValue nextId)
      rw [get_creation_repo, if_pos rfl]

theorem createRepoFrom_safe : ∀ {attempts : Nat} {s : Slate}, Registered s.kv →
    SafeFor name (createRepoFrom name attempts) s
  | 0, _, _ => Prog.Safe.fail fun _ _ => rfl
  | attempts + 1, s, hs => by
    refine Prog.Safe.op fun s₀ hr₀ _ => ⟨.refl s₀, ?_⟩
    have hreg := hr₀.registered hs
    refine Prog.Safe.pure_op Grows.refl (fun _ => rfl) fun s₁ hr₁ => ?_
    show SafeFor name (createFound name ((s₀.kv.begin).read (repoKey name)) (createRepoFrom name attempts)
      (s₀.kv.data.get (repoKey name))) s₁
    cases hget : s₀.kv.data.get (repoKey name) with
    | some bytes => exact mapped_safe hreg hget hr₁
    | none =>
      obtain ⟨next, hnext, -, -⟩ := hreg.counter
      refine Prog.Safe.pure_op Grows.refl (fun _ => rfl) fun s₂ hr₂ => ?_
      show SafeFor name (Prog.ofExcept (nextIdOf (s₀.kv.data.get counterKey)) >>= fun nextId =>
        putAll (((s₀.kv.begin).read (repoKey name)).read counterKey) (creationWrites name nextId) >>= fun txn =>
          commit txn >>= fun committed =>
            if committed then pure ⟨⟨nextId⟩, .sha1, DEFAULT_BRANCH⟩ else createRepoFrom name attempts) s₂
      rw [nextIdOf_counter hnext]
      refine putAll_safe fun s₃ hr₃ => ?_
      have hr := Grows.trans _ _ _ hr₁ (.trans _ _ _ hr₂ hr₃)
      exact commit_safe hnext hget hr fun s₄ hr₄ => createRepoFrom_safe (hr₄.registered (hr.registered hreg))

theorem lookupRepo_safe (hs : Registered s.kv) {f : Option RepoMeta → SlateProg SlateError RepoMeta}
    (hnone : ∀ s', Grows s s' → SafeFor name (f none) s')
    (hsome : ∀ info s', s'.kv.data.get (repoKey name) = some (rawValue info.id.id) → SafeFor name (f (some info)) s') :
    SafeFor name (lookupRepo name >>= f) s := by
  refine Prog.Safe.op fun s₁ hr₁ _ => ⟨.refl s₁, ?_⟩
  cases hget : s₁.kv.data.get (repoKey name) with
  | none =>
    simp only [handler, hget]
    exact hnone s₁ hr₁
  | some bytes =>
    obtain ⟨id, rfl, -, hdef, -⟩ := (hr₁.registered hs).named name bytes hget
    simp only [handler, hget, Prog.andThen, repoIdOf_rawValue]
    show SafeFor name ((readRepoMeta ⟨id⟩ >>= fun info => pure (some info)) >>= f) s₁
    rw [Prog.bind_assoc]
    exact readRepoMeta_safe hdef fun s₂ hr₂ => hsome _ _ (hr₂.named name _ hget)

/-- The calls that create repositories. -/
def Creates (name : String) (p : SlateProg SlateError RepoMeta) : Prop :=
  p = createRepo name ∨ p = getOrCreateRepo name

theorem Creates.safe {p : SlateProg SlateError RepoMeta} (hp : Creates name p) (hs : Registered s.kv) :
    SafeFor name p s := by
  rcases hp with rfl | rfl
  · exact createRepoFrom_safe hs
  · refine lookupRepo_safe hs (fun s' hr => createRepoFrom_safe (hr.registered hs)) fun info s' hget => ?_
    exact Prog.Safe.ret fun s'' hr => hr.named name _ hget

end Slate

open Slate

/-- **Repositories are created without races.** In every state that any number
of `create_repo` and `get_or_create_repo` calls reach from an empty store, in
any interleaving of their operations: two calls that have returned have the
same id if and only if they were for the same name, no id is the global one,
a mapped name has all its defaults, and a call fails only by running out of
attempts. Every commit is a creation, so `version` counts them. -/
theorem creation_raceFree {c : List (Thread slateSig String SlateError RepoMeta) × Slate}
    (hc : Pool.Reachable Slate.handler Creates (fun _ _ _ => True) (fun _ _ => False) Slate.empty c)
    (hfew : c.2.kv.version < 2 ^ 64 - 2) :
    (∀ t ∈ c.1, ∀ t' ∈ c.1, ∀ info info', t.prog = .ret info → t'.prog = .ret info' →
      (info.id = info'.id ↔ t.tag = t'.tag)) ∧
    (∀ t ∈ c.1, ∀ info, t.prog = .ret info → info.id ≠ .GLOBAL) ∧
    (∀ name bytes, c.2.kv.data.get (repoKey name) = some bytes → ∃ id, bytes = rawValue id ∧
      HasDefaults c.2.kv.data ⟨id⟩) ∧
    ∀ t ∈ c.1, ∀ e, t.prog = .fail e → e = .createContention := by
  have hinv := Pool.reachable_inv (I := fun s => Registered s.kv) (Q := Resolves) Grows.refl Grows.trans
    (fun name p s hp hs => Pool.ThreadSafe.of_safe (hp.safe hs) fun _ _ _ => trivial)
    (fun s s' hs hr => ⟨hr, hr.registered hs⟩) (fun _ _ _ h => h.elim) registered_empty hc
  obtain ⟨hreg, hthreads⟩ := hinv
  have hended : ∀ t ∈ c.1, ∀ x, t.prog = Prog.ofExcept x → Resolves t.tag x c.2 := by
    intro t ht x hx
    obtain ⟨tag, begun, p⟩ := t
    have hsafe := hthreads _ ht
    dsimp only at hx
    subst hx
    exact hsafe.ended Grows.refl
  have hmapped : ∀ t ∈ c.1, ∀ info, t.prog = .ret info →
      c.2.kv.data.get (repoKey t.tag) = some (rawValue info.id.id) :=
    fun t ht info hret => hended t ht (.ok info) hret
  refine ⟨fun t ht t' ht' info info' hret hret' => ⟨fun heq => ?_, fun heq => ?_⟩, fun t ht info hret => ?_, ?_, ?_⟩
  · have h₁ := hmapped t ht info hret
    have h₂ := hmapped t' ht' info' hret'
    rw [← heq] at h₂
    exact hreg.unique (by omega) _ _ _ h₁ h₂
  · have h₁ := hmapped t ht info hret
    have h₂ := hmapped t' ht' info' hret'
    rw [← heq, h₁] at h₂
    obtain ⟨⟨id⟩, format, branch⟩ := info
    obtain ⟨⟨id'⟩, format', branch'⟩ := info'
    exact congrArg RepoId.mk (rawValue_injective (Option.some.inj h₂))
  · obtain ⟨id, hbytes, hpos, -⟩ := hreg.named _ _ (hmapped t ht info hret)
    intro hglobal
    rw [hglobal] at hbytes
    obtain rfl := rawValue_injective hbytes
    exact absurd hpos (by decide)
  · intro name bytes hget
    obtain ⟨id, hbytes, -, hdef, -⟩ := hreg.named name bytes hget
    exact ⟨id, hbytes, hdef⟩
  · exact fun t ht e hfail => hended t ht (.error e) hfail

namespace Sample

/-- Two calls for one name, and one for another. -/
def creations : List (String × SlateProg SlateError RepoMeta) :=
  [("a", createRepo "a"), ("a", getOrCreateRepo "a"), ("b", createRepo "b")]

theorem creates_creations : ∀ x ∈ creations, Creates x.1 x.2 := by
  simp [creations, Creates]

/-- The calls take turns to their ends. -/
def inTurns : List (Thread slateSig String SlateError RepoMeta) × Slate :=
  Pool.turns Slate.handler (Pool.waiting creations, Slate.empty) (List.replicate 40 [0, 1, 2]).flatten

theorem ended_inTurns : (inTurns.1.map fun t => (t.tag, t.outcome)) =
    [("a", some (.ok ⟨⟨1⟩, .sha1, "refs/heads/main"⟩)), ("a", some (.ok ⟨⟨1⟩, .sha1, "refs/heads/main"⟩)),
      ("b", some (.ok ⟨⟨2⟩, .sha1, "refs/heads/main"⟩))] := by
  decide +kernel

end Sample

open Sample in
/-- Of three calls one creates its repository at its first attempt. The others
meet conflicts, and the name they are for is given one id. -/
theorem creation_raceFree_sample : inTurns.2.kv.version < 2 ^ 64 - 2 ∧ ∃ info info' other,
    (inTurns.1.map fun t => (t.tag, t.outcome)) =
        [("a", some (.ok info)), ("a", some (.ok info')), ("b", some (.ok other))] ∧
      info.id = info'.id ∧ info.id ≠ other.id ∧ info.id ≠ .GLOBAL ∧ other.id ≠ .GLOBAL := by
  have hc : Pool.Reachable Slate.handler Creates (fun _ _ _ => True) (fun _ _ => False) Slate.empty inTurns :=
    Pool.Reachable.waiting_turns (fun _ _ _ => trivial) .refl creates_creations _
  have hfew : inTurns.2.kv.version < 2 ^ 64 - 2 := by decide +kernel
  obtain ⟨hids, hglobal, -, -⟩ := creation_raceFree hc hfew
  have hended := fun i name info => @Thread.of_outcomes _ _ _ _ inTurns.1 i name (.ok info)
  rw [ended_inTurns] at hended
  obtain ⟨t₀, ht₀, htag₀, hret₀⟩ := hended 0 _ _ rfl
  obtain ⟨t₁, ht₁, htag₁, hret₁⟩ := hended 1 _ _ rfl
  obtain ⟨t₂, ht₂, htag₂, hret₂⟩ := hended 2 _ _ rfl
  replace ht₀ := List.mem_of_getElem? ht₀
  replace ht₁ := List.mem_of_getElem? ht₁
  replace ht₂ := List.mem_of_getElem? ht₂
  refine ⟨hfew, _, _, _, ended_inTurns, ?_, ?_, hglobal t₀ ht₀ _ hret₀, hglobal t₂ ht₂ _ hret₂⟩
  · exact (hids t₀ ht₀ t₁ ht₁ _ _ hret₀ hret₁).2 (htag₀.trans htag₁.symm)
  · intro heq
    have htags := (hids t₀ ht₀ t₂ ht₂ _ _ hret₀ hret₂).1 heq
    rw [htag₀, htag₂] at htags
    exact absurd htags (by decide)

end Miscreant
