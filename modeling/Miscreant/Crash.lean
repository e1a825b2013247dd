/-
The store as a log of writes. Reads see every write that was submitted;
`flush` and a write that is waited for make durable all that were submitted up
to it. A crash keeps a prefix of the log with at least what is durable. An
offloaded blob is in the object store once its `put` has returned, so a crash
does not touch it.
-/
import Miscreant.Store

namespace Miscreant

open Lib

/-- The writes submitted so far, oldest first, how many of them are durable,
and the offloaded blobs. -/
structure Log (V : Type) where
  entries : List (Write V)
  durable : Nat
  blobs : ObjectId → Option Bytes

/-- The operation answers when all that was submitted is durable. A transaction
that conflicts submits nothing and waits for nothing. -/
def StoreOp.awaited {V : Type} (db : Db V) : StoreOp V → Bool
  | putObject _ _ durability | putCommitGraph _ _ durability => durability = .durable
  | flush => true
  | commitTxn txn => !db.conflicts txn
  | _ => false

namespace Log

variable {V : Type} (base : Db V)

/-- Nothing written yet. -/
def start : Log V := ⟨[], 0, base.blobs⟩

/-- The state reads see: the writes, over what was there before them. -/
def db (s : Log V) : Db V := { s.entries.foldl Db.apply base with blobs := s.blobs }

/-- An operation on the log. -/
def handler : Handler (storeSig V) (Log V) := fun o s =>
  let entries := s.entries ++ StoreOp.writes (s.db base) o
  (StoreOp.answer (s.db base) o,
    ⟨entries, if StoreOp.awaited (s.db base) o then entries.length else s.durable, StoreOp.blobWrites s.blobs o⟩)

/-- A crash, after which a prefix of the log is left. -/
def Crash (s s' : Log V) : Prop :=
  ∃ n, s.durable ≤ n ∧ n ≤ s.entries.length ∧ s' = { s with entries := s.entries.take n }

variable {base}

/-- Writes leave the blobs alone. -/
theorem foldl_apply_blobs (blobs : ObjectId → Option Bytes) : ∀ (writes : List (Write V)) (db : Db V),
    writes.foldl Db.apply { db with blobs } = { writes.foldl Db.apply db with blobs }
  | [], _ => rfl
  | w :: writes, db => by
    have happly : ({ db with blobs } : Db V).apply w = { db.apply w with blobs } := by cases w <;> rfl
    rw [List.foldl_cons, List.foldl_cons, happly]
    exact foldl_apply_blobs blobs writes (db.apply w)

variable (base) in
/-- Until a crash, the log is the store. -/
theorem handler_db (o : StoreOp V) (s : Log V) :
    ((handler base o s).1, (handler base o s).2.db base) = Db.handler o (s.db base) := by
  have hwrites := foldl_apply_blobs (StoreOp.blobWrites s.blobs o) (StoreOp.writes (s.db base) o)
    (s.entries.foldl Db.apply base)
  refine Prod.ext rfl ?_
  show ({ (s.entries ++ StoreOp.writes (s.db base) o).foldl Db.apply base with
    blobs := StoreOp.blobWrites s.blobs o } : Db V) = _
  rw [List.foldl_append, ← hwrites]
  rfl

/-- A crash keeps a prefix of the log, and the blobs. -/
theorem Crash.entries {s s' : Log V} (h : Crash s s') : s'.entries <+: s.entries ∧ s'.blobs = s.blobs := by
  obtain ⟨n, -, -, rfl⟩ := h
  exact ⟨List.take_prefix n _, rfl⟩

end Log

end Miscreant
