import Mathlib.Data.Finmap
import LightningOnion.Crypto.Keys

/-! Batches of replay-log entries.

A batch collects entries by sequence number, and marks a sequence number as a
replay at once when its prefix is already in the batch. A Go map is a `Finmap`;
ranging over one visits its keys in any `IterationOrder`. -/
namespace LightningOnion

/-- The order of a range over a map with these keys: each key once. -/
structure IterationOrder {κ : Type} (keys : Finset κ) (order : List κ) : Prop where
  nodup : order.Nodup
  mem_iff : ∀ k, k ∈ order ↔ k ∈ keys

/-- The sequence numbers of detected replays. -/
structure ReplaySet where
  replays : Finset UInt16
  deriving DecidableEq

namespace ReplaySet

def new : ReplaySet := ⟨∅⟩

def size (rs : ReplaySet) : Nat := rs.replays.card

def add (rs : ReplaySet) (idx : UInt16) : ReplaySet := ⟨insert idx rs.replays⟩

def contains (rs : ReplaySet) (idx : UInt16) : Bool := decide (idx ∈ rs.replays)

/-- Adds the contents of `rs2`, one by one in some order. -/
def merge (rs rs2 : ReplaySet) : ReplaySet := ⟨rs.replays ∪ rs2.replays⟩

@[simp] theorem contains_new (idx : UInt16) : new.contains idx = false := rfl

@[simp] theorem contains_add (rs : ReplaySet) (idx idx' : UInt16) :
    (rs.add idx).contains idx' = (decide (idx' = idx) || rs.contains idx') := by
  simp [add, contains]

@[simp] theorem contains_merge (rs rs2 : ReplaySet) (idx : UInt16) :
    (rs.merge rs2).contains idx = (rs.contains idx || rs2.contains idx) := by
  simp [merge, contains]

theorem ext_contains {a b : ReplaySet} (h : ∀ idx, a.contains idx = true ↔ b.contains idx = true) :
    a = b := by
  have hmem : a.replays = b.replays := by
    ext idx
    simpa [contains] using h idx
  cases a
  cases b
  exact congrArg mk hmem

end ReplaySet

/-- A secret's hash prefix and the CLTV at which its packet expires. -/
structure BatchEntry where
  hashPrefix : HashPrefix
  cltv : UInt32
  deriving DecidableEq

structure Batch where
  /-- The batch has been written to the log. -/
  isCommitted : Bool
  /-- The caller's identifier. -/
  id : List UInt8
  /-- The sequence numbers detected as replays. -/
  replaySet : ReplaySet
  /-- The entries that may get written. -/
  entries : Finmap fun _ : UInt16 => BatchEntry
  /-- The prefixes already added. -/
  replayCache : Finset HashPrefix

namespace Batch

def new (id : List UInt8) : Batch := ⟨false, id, .new, ∅, ∅⟩

/-- Adds an entry, or marks the sequence number when its prefix is a duplicate. -/
def put (b : Batch) (seqNum : UInt16) (hashPrefix : HashPrefix) (cltv : UInt32) :
    Batch × Option Error :=
  if b.isCommitted then (b, some .errAlreadyCommitted)
  else if hashPrefix ∈ b.replayCache then ({b with replaySet := b.replaySet.add seqNum}, none)
  else
    ({b with
        entries := b.entries.insert seqNum ⟨hashPrefix, cltv⟩
        replayCache := insert hashPrefix b.replayCache}, none)

/-- Calls `fn` on each entry in the order given, until it fails. -/
def forEach {σ : Type} (b : Batch) (fn : UInt16 → HashPrefix → UInt32 → σ → σ × Option Error) :
    (order : List UInt16) → σ → σ × Option Error
  | [], s => (s, none)
  | seqNum :: rest, s =>
    match b.entries.lookup seqNum with
    | none => forEach b fn rest s
    | some entry =>
      match fn seqNum entry.hashPrefix entry.cltv s with
      | (s', some err) => (s', some err)
      | (s', none) => forEach b fn rest s'

/-- A batch is open: entries can still be added. -/
def Open (b : Batch) : Prop := b.isCommitted = false

theorem put_committed (b : Batch) (h : b.isCommitted = true) (seqNum : UInt16) (hp : HashPrefix)
    (cltv : UInt32) : b.put seqNum hp cltv = (b, some .errAlreadyCommitted) := by
  rw [put, if_pos h]

theorem committed_or_open (b : Batch) : b.isCommitted = true ∨ b.Open := by
  cases h : b.isCommitted with
  | true => exact .inl rfl
  | false => exact .inr h

theorem put_cached {b : Batch} (ho : b.Open) {hp : HashPrefix} (h : hp ∈ b.replayCache)
    (seqNum : UInt16) (cltv : UInt32) :
    b.put seqNum hp cltv = ({b with replaySet := b.replaySet.add seqNum}, none) := by
  rw [put, if_neg (by rw [ho]; decide), if_pos h]

theorem put_fresh {b : Batch} (ho : b.Open) {hp : HashPrefix} (h : hp ∉ b.replayCache)
    (seqNum : UInt16) (cltv : UInt32) :
    b.put seqNum hp cltv =
      ({b with
          entries := b.entries.insert seqNum ⟨hp, cltv⟩
          replayCache := insert hp b.replayCache}, none) := by
  rw [put, if_neg (by rw [ho]; decide), if_neg h]

/-- Adding never changes whether the batch is committed, or its ID. -/
theorem put_frame (b : Batch) (seqNum : UInt16) (hp : HashPrefix) (cltv : UInt32) :
    (b.put seqNum hp cltv).1.isCommitted = b.isCommitted ∧ (b.put seqNum hp cltv).1.id = b.id := by
  unfold put
  split
  · exact ⟨rfl, rfl⟩
  · split <;> exact ⟨rfl, rfl⟩

theorem put_open {b : Batch} (ho : b.Open) (seqNum : UInt16) (hp : HashPrefix) (cltv : UInt32) :
    (b.put seqNum hp cltv).2 = none := by
  by_cases h : hp ∈ b.replayCache
  · rw [put_cached ho h]
  · rw [put_fresh ho h]

/-- What holds of every batch built by `put`: the prefixes among the entries are
cached, and no two entries share one. -/
structure Inv (b : Batch) : Prop where
  cached : ∀ {s e}, b.entries.lookup s = some e → e.hashPrefix ∈ b.replayCache
  distinct : ∀ {s s' e e'}, b.entries.lookup s = some e → b.entries.lookup s' = some e' →
    e.hashPrefix = e'.hashPrefix → s = s'

theorem inv_new (id : List UInt8) : (new id).Inv :=
  ⟨fun h => by simp [new] at h, fun h => by simp [new] at h⟩

/-- Adding keeps the invariant, even over an entry with the same sequence number. -/
theorem inv_put {b : Batch} (h : b.Inv) (seqNum : UInt16) (hp : HashPrefix) (cltv : UInt32) :
    (b.put seqNum hp cltv).1.Inv := by
  rcases b.committed_or_open with hc | ho
  · rw [put_committed b hc]
    exact h
  · by_cases hmem : hp ∈ b.replayCache
    · rw [put_cached ho hmem]
      exact ⟨h.cached, h.distinct⟩
    · rw [put_fresh ho hmem]
      -- A lookup finds the new entry, whose prefix is new, or an old one.
      have hlookup : ∀ {s e}, (b.entries.insert seqNum ⟨hp, cltv⟩).lookup s = some e →
          (s = seqNum ∧ e.hashPrefix = hp) ∨ (s ≠ seqNum ∧ b.entries.lookup s = some e) := by
        intro s e hs
        by_cases he : s = seqNum
        · subst he
          rw [Finmap.lookup_insert] at hs
          cases hs
          exact .inl ⟨rfl, rfl⟩
        · rw [Finmap.lookup_insert_of_ne _ he] at hs
          exact .inr ⟨he, hs⟩
      have hnew : ∀ {s e}, b.entries.lookup s = some e → e.hashPrefix ≠ hp := by
        intro s e hs heq
        exact hmem (heq ▸ h.cached hs)
      refine ⟨fun hs => ?_, fun hs hs' heq => ?_⟩
      · rcases hlookup hs with ⟨-, he⟩ | ⟨-, he⟩
        · exact he ▸ Finset.mem_insert_self _ _
        · exact Finset.mem_insert_of_mem (h.cached he)
      · rcases hlookup hs with ⟨rfl, he⟩ | ⟨-, he⟩ <;> rcases hlookup hs' with ⟨rfl, he'⟩ | ⟨-, he'⟩
        · rfl
        · exact absurd (heq.symm.trans he) (hnew he')
        · exact absurd (heq.trans he') (hnew he)
        · exact h.distinct he he' heq

end Batch

end LightningOnion
