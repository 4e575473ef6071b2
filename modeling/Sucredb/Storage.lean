import Sucredb.Engine

/-!
# The storage layer

`Storage` is a namespace handle: point reads and writes through the key codec,
batches, the two iterators, and `clear`. The engine handle the source keeps in
each value is the `DB` every operation is given here, and the `Arc<()>` iterator
sentinel is named by its allocation; its strong count is an argument of `clear`.

Panics (`unwrap`, `assert!`) are `Except Panic` results. Two additions in the
source are on fixed-width integers, `prefix + 1` in `log_iterator` and
`self.num + 1` in `clear`; they wrap, as in a release build.

`mainKey_ops_panic_iff` settles when the main-key operations panic.
-/

namespace Sucredb

/-- `Storage`: a namespace id and its iterator sentinel `iterators_handle`. -/
structure Storage where
  num : UInt16
  iteratorsHandle : Nat
  deriving DecidableEq, Repr

/-- `StorageBatch`: the handle that made it, and its write batch. -/
structure StorageBatch where
  storage : Storage
  wb : WriteBatch

structure StorageIterator where
  iterator : DBIter
  iteratorsHandle : Nat
  first : Bool

structure LogStorageIterator where
  iterator : DBIter
  iteratorsHandle : Nat
  first : Bool

/-- `StorageIter`, the view `iter()` lends out: a borrow of the `StorageIterator`. -/
structure StorageIter where
  it : StorageIterator

structure LogStorageIter where
  it : LogStorageIterator

/-- `check_pending_iters`: the sentinel's strong count must be 1, the handle's own
reference. No `Weak` of it is ever made, so the weak count is 0. -/
def checkPendingIters (strongCount : Nat) : Except Panic Unit :=
  if strongCount = 1 then .ok () else .error (.pendingIterators (strongCount - 1))

namespace Storage

/-- `iterator`: the `default` family from `be16(num)` on, while the extracted prefix
stays that of `be16(num)`. -/
def iterator (h : Storage) (db : DB) : Except Panic StorageIterator := do
  let keyPrefix ← buildKey 2 h.num []
  let ro : ReadOptions := { prefixSameAsStart := true }
  pure { iterator := (db.iterCfOpt .default ro).seek keyPrefix,
         iteratorsHandle := h.iteratorsHandle, first := true }

/-- `log_iterator`: the `log` family from `(prefix, start)` on, below
`build_log_prefix(num, prefix + 1)`. -/
def logIterator (h : Storage) (db : DB) (pre start : UInt64) : LogStorageIterator :=
  let endPrefix := buildLogPrefix h.num (pre + 1)
  let startKey := buildLogKey h.num (pre, start)
  let ro : ReadOptions := { iterateUpperBound := some endPrefix }
  { iterator := (db.iterCfOpt .log ro).seek startKey,
    iteratorsHandle := h.iteratorsHandle, first := true }

def get {R : Type} (h : Storage) (db : DB) (key : Bytes) (callback : Bytes → R) :
    Except Panic (Option R) := do
  let buffer ← buildKey 512 h.num key
  pure ((db.getCf .default buffer).map callback)

def logGet {R : Type} (h : Storage) (db : DB) (logKey : UInt64 × UInt64) (callback : Bytes → R) :
    Option R :=
  (db.getCf .log (buildLogKey h.num logKey)).map callback

/-- `batch_new`; the capacity hint `reserve` changes nothing observable. -/
def batchNew (h : Storage) (_reserve : Nat) : StorageBatch := { storage := h, wb := [] }

/-- `batch_write`: the batch's keys were encoded by the handle that made it. -/
def batchWrite (_h : Storage) (db : DB) (batch : StorageBatch) : DB := db.write batch.wb

end Storage

namespace StorageBatch

/-- `StorageBatch::set` and `StorageBatch::del`: the main key in a 512-byte buffer,
then one operation on it. -/
def mainOp (b : StorageBatch) (key : Bytes) (op : Bytes → WriteOp) :
    Except Panic StorageBatch := do
  let buffer ← buildKey 512 b.storage.num key
  pure { b with wb := b.wb ++ [op buffer] }

def set (b : StorageBatch) (key value : Bytes) : Except Panic StorageBatch :=
  b.mainOp key (.put .default · value)

def del (b : StorageBatch) (key : Bytes) : Except Panic StorageBatch :=
  b.mainOp key (.delete .default ·)

def logSet (b : StorageBatch) (key : UInt64 × UInt64) (value : Bytes) : StorageBatch :=
  { b with wb := b.wb ++ [.put .log (buildLogKey b.storage.num key) value] }

end StorageBatch

namespace Storage

/-- `Storage::set` and `Storage::del`: one operation in a fresh batch, written at once. -/
def single (h : Storage) (db : DB) (op : StorageBatch → Except Panic StorageBatch) :
    Except Panic DB := do
  let b ← op (h.batchNew 0)
  pure (h.batchWrite db b)

def set (h : Storage) (db : DB) (key value : Bytes) : Except Panic DB :=
  h.single db (·.set key value)

def del (h : Storage) (db : DB) (key : Bytes) : Except Panic DB :=
  h.single db (·.del key)

/-- One pass of `clear`'s loop: the file-deletion fast path, then the per-key deletes
of an iterator from `from` below `to`. -/
def clearCf (db : DB) (cf : CfName) (fromKey toKey : Bytes) (dropped : Bytes → Bool) : DB :=
  let db := db.deleteFileInRangeCf cf fromKey toKey dropped
  let ro : ReadOptions := { prefixSameAsStart := true, iterateUpperBound := some toKey }
  let iter := (db.iterCfOpt cf ro).seek fromKey
  deleteWhileValid cf iter.inBounds iter.rest db

/-- `clear`: `strongCount` is the sentinel's strong count, and `dropped` says, per
family, which keys the fast path removes. -/
def clear (h : Storage) (db : DB) (strongCount : Nat) (dropped : CfName → Bytes → Bool) :
    Except Panic DB := do
  checkPendingIters strongCount
  let fromKey := writeU16 h.num
  let toKey := writeU16 (h.num + 1)
  pure ([CfName.default, .log].foldl (fun db cf => clearCf db cf fromKey toKey (dropped cf)) db)

end Storage

/-! ## Iterator views -/

def StorageIterator.iter (it : StorageIterator) : StorageIter := ⟨it⟩

def LogStorageIterator.iter (it : LogStorageIterator) : LogStorageIter := ⟨it⟩

/-- `StorageIter::next`: the first call reads where `seek` left the cursor, later calls
call the engine's `next` first. A key is returned without its two-byte prefix. -/
def StorageIter.next (v : StorageIter) : Except Panic (Option (Bytes × Bytes) × StorageIter) := do
  let it ← if v.it.first then pure { v.it with first := false }
    else do
      let iterator ← v.it.iterator.next
      pure { v.it with iterator }
  if it.iterator.valid then pure (some (it.iterator.key.drop 2, it.iterator.value), ⟨it⟩)
  else pure (none, ⟨it⟩)

/-- `LogStorageIter::next`: as `StorageIter::next`, decoding `(prefix, seq)` from a key
that must be 18 bytes long. -/
def LogStorageIter.next (v : LogStorageIter) :
    Except Panic (Option ((UInt64 × UInt64) × Bytes) × LogStorageIter) := do
  let it ← if v.it.first then pure { v.it with first := false }
    else do
      let iterator ← v.it.iterator.next
      pure { v.it with iterator }
  if it.iterator.valid then
    if it.iterator.key.length = 2 + 8 + 8 then
      pure (some (readLogKey it.iterator.key, it.iterator.value), ⟨it⟩)
    else throw .logKeyLength
  else pure (none, ⟨it⟩)

/-! ## Keys longer than the buffer -/

section
variable (key : Bytes)

theorem StorageBatch.mainOp_eq (b : StorageBatch) (op : Bytes → WriteOp) :
    b.mainOp key op = if key.length ≤ 510
      then .ok { b with wb := b.wb ++ [op (writeU16 b.storage.num ++ key)] } else .error .writeZero := by
  unfold mainOp
  rw [buildKey_eq]
  split <;> rfl

theorem Storage.get_eq {R : Type} (h : Storage) (db : DB) (callback : Bytes → R) :
    h.get db key callback = if key.length ≤ 510
      then .ok ((db.getCf .default (writeU16 h.num ++ key)).map callback) else .error .writeZero := by
  unfold get
  rw [buildKey_eq]
  split <;> rfl

/-- The main-key operations panic exactly on keys longer than the 510 bytes after the
prefix in their 512-byte buffer; below that they address `be16(num) ++ key`. -/
theorem mainKey_ops_panic_iff {R : Type} (h : Storage) (db : DB) (b : StorageBatch) (value : Bytes)
    (callback : Bytes → R) :
    h.get db key callback = (if key.length ≤ 510
      then .ok ((db.getCf .default (writeU16 h.num ++ key)).map callback) else .error .writeZero) ∧
    b.set key value = (if key.length ≤ 510
      then .ok { b with wb := b.wb ++ [.put .default (writeU16 b.storage.num ++ key) value] }
      else .error .writeZero) ∧
    b.del key = (if key.length ≤ 510
      then .ok { b with wb := b.wb ++ [.delete .default (writeU16 b.storage.num ++ key)] }
      else .error .writeZero) ∧
    h.set db key value = (if key.length ≤ 510
      then .ok (db.write [.put .default (writeU16 h.num ++ key) value]) else .error .writeZero) ∧
    h.del db key = (if key.length ≤ 510
      then .ok (db.write [.delete .default (writeU16 h.num ++ key)]) else .error .writeZero) := by
  refine ⟨Storage.get_eq _ _ _ _, StorageBatch.mainOp_eq _ _ _, StorageBatch.mainOp_eq _ _ _, ?_, ?_⟩
  all_goals
    simp only [Storage.set, Storage.del, Storage.single, StorageBatch.set, StorageBatch.del,
      StorageBatch.mainOp_eq]
    split <;> rfl

end

theorem get_long_key_panics :
    (⟨0, 0⟩ : Storage).get DB.empty (List.replicate 511 0) id = .error .writeZero := by
  rw [Storage.get_eq, if_neg (by rw [List.length_replicate]; decide)]

end Sucredb
