import Sucredb.Codec

/-!
# The engine: column families, write batches, iterators

The part of RocksDB the storage layer uses. A column family is a key-sorted list
of entries under the bytewise order; `DB` holds the `default` and `log` families
that `StorageManager::new` opens. A write batch is the list of its puts and
deletes, which `DB::write` applies in order and at once.

An iterator reads the snapshot taken when it is created. `seek` moves to the
least key at or after its target and `next` to the following entry; `valid`
also checks the read options' bounds: `prefix_same_as_start` through the column
family's prefix extractor, and `iterate_upper_bound`. RocksDB requires `Valid()`
of `Next`, and the call on an iterator that is not valid is a fault here.

The `log` family is opened with FIFO compaction and no size option, so once its
files pass RocksDB's default cap the oldest are deleted (`DB.fifoCompaction`).
-/

namespace Sucredb

def Sorted (es : List (Bytes × Bytes)) : Prop := es.Pairwise (fun a b => a.1 < b.1)

structure Cf where
  entries : List (Bytes × Bytes)
  sorted : Sorted entries

def insertEntry (k v : Bytes) : List (Bytes × Bytes) → List (Bytes × Bytes)
  | [] => [(k, v)]
  | e :: es =>
    if k < e.1 then (k, v) :: e :: es
    else if k = e.1 then (k, v) :: es
    else e :: insertEntry k v es

theorem forall_mem_insertEntry {P : Bytes × Bytes → Prop} {k v : Bytes} (hkv : P (k, v)) :
    ∀ {es : List (Bytes × Bytes)}, (∀ x ∈ es, P x) → ∀ x ∈ insertEntry k v es, P x
  | [], _ => List.forall_mem_singleton.mpr hkv
  | e :: es, h => by
    rw [List.forall_mem_cons] at h
    unfold insertEntry
    split
    · exact List.forall_mem_cons.mpr ⟨hkv, List.forall_mem_cons.mpr h⟩
    · split
      · exact List.forall_mem_cons.mpr ⟨hkv, h.2⟩
      · exact List.forall_mem_cons.mpr ⟨h.1, forall_mem_insertEntry hkv h.2⟩

theorem sorted_insertEntry {k v : Bytes} :
    ∀ {es : List (Bytes × Bytes)}, Sorted es → Sorted (insertEntry k v es)
  | [], _ => List.pairwise_singleton _ _
  | e :: es, h => by
    rw [Sorted, List.pairwise_cons] at h
    unfold insertEntry
    split
    · next hk =>
      exact .cons (List.forall_mem_cons.mpr ⟨hk, fun x hx => lt_trans hk (h.1 x hx)⟩) (.cons h.1 h.2)
    · next hlt =>
      split
      · next hk => exact .cons (fun x hx => hk ▸ h.1 x hx) h.2
      · next hne =>
        have he : e.1 < k := lt_of_le_of_ne (not_lt.mp hlt) (Ne.symm hne)
        exact .cons (forall_mem_insertEntry he h.1) (sorted_insertEntry h.2)

theorem find?_insertEntry {k v k' : Bytes} :
    ∀ {es : List (Bytes × Bytes)}, (insertEntry k v es).find? (·.1 = k') =
      if k = k' then some (k, v) else es.find? (·.1 = k')
  | [] => by by_cases h : k = k' <;> simp [insertEntry, h]
  | e :: es => by
    unfold insertEntry
    by_cases hk : k = k'
    · subst hk
      split
      · simp
      · split
        · simp
        · simp [List.find?_cons, Ne.symm ‹k ≠ e.1›, find?_insertEntry]
    · split
      · simp [hk]
      · split
        · simp [hk, List.find?_cons, ← ‹k = e.1›]
        · simp [List.find?_cons, find?_insertEntry, hk]

namespace Cf

def empty : Cf := ⟨[], List.Pairwise.nil⟩

def get (cf : Cf) (k : Bytes) : Option Bytes := (cf.entries.find? (·.1 = k)).map Prod.snd

def put (cf : Cf) (k v : Bytes) : Cf := ⟨insertEntry k v cf.entries, sorted_insertEntry cf.sorted⟩

def filter (cf : Cf) (p : Bytes → Bool) : Cf :=
  ⟨cf.entries.filter (p ·.1), cf.sorted.filter _⟩

def delete (cf : Cf) (k : Bytes) : Cf := cf.filter (· ≠ k)

@[simp] theorem get_empty (k : Bytes) : empty.get k = none := rfl

@[simp] theorem get_put (cf : Cf) (k v k' : Bytes) :
    (cf.put k v).get k' = if k' = k then some v else cf.get k' := by
  simp only [get, put, find?_insertEntry, eq_comm (a := k')]
  split <;> rfl

@[simp] theorem get_filter (cf : Cf) (p : Bytes → Bool) (k : Bytes) :
    (cf.filter p).get k = if p k then cf.get k else none := by
  simp only [get, filter, List.find?_filter]
  by_cases hp : p k
  · rw [if_pos hp]
    congr 2
    funext e
    by_cases he : e.1 = k <;> simp [he, hp]
  · rw [if_neg hp, Option.map_eq_none', List.find?_eq_none]
    rintro e - h
    simp only [decide_eq_true_eq] at h
    exact hp (h.2 ▸ h.1)

@[simp] theorem get_delete (cf : Cf) (k k' : Bytes) :
    (cf.delete k).get k' = if k' = k then none else cf.get k' := by
  by_cases h : k' = k <;> simp [delete, h]

theorem mem_entries_iff {cf : Cf} {k v : Bytes} : (k, v) ∈ cf.entries ↔ cf.get k = some v := by
  obtain ⟨es, hs⟩ := cf
  simp only [get]
  induction es with
  | nil => simp
  | cons e es ih =>
    rw [Sorted, List.pairwise_cons] at hs
    by_cases he : e.1 = k
    · subst he
      have : (e.1, v) ∉ es := fun hm => lt_irrefl e.1 (hs.1 (e.1, v) hm)
      simp [List.find?_cons, this, Prod.ext_iff, eq_comm]
    · simp [List.find?_cons, he, ih hs.2, Prod.ext_iff, Ne.symm he]

end Cf

/-! ## Sorted lists: scans as filters -/

section
variable {l : List (Bytes × Bytes)} {P : Bytes × Bytes → Bool}

def DownClosed (l : List (Bytes × Bytes)) (P : Bytes × Bytes → Bool) : Prop :=
  ∀ x ∈ l, ∀ y ∈ l, y.1 < x.1 → P x → P y

theorem DownClosed.tail {e : Bytes × Bytes} (h : DownClosed (e :: l) P) : DownClosed l P :=
  fun x hx y hy => h x (.tail _ hx) y (.tail _ hy)

theorem takeWhile_eq_filter (hs : Sorted l) (hP : DownClosed l P) :
    l.takeWhile P = l.filter P := by
  induction l with
  | nil => rfl
  | cons e es ih =>
    rw [Sorted, List.pairwise_cons] at hs
    by_cases he : P e
    · simp [List.takeWhile_cons, List.filter_cons, he, ih hs.2 hP.tail]
    · have : ∀ x ∈ es, ¬ P x := fun x hx hx' => he (hP x (.tail _ hx) e (.head _) (hs.1 x hx) hx')
      simp [List.takeWhile_cons, List.filter_cons, he, List.filter_eq_nil_iff.mpr this]

theorem dropWhile_eq_filter (hs : Sorted l) (hP : DownClosed l P) :
    l.dropWhile P = l.filter (!P ·) := by
  induction l with
  | nil => rfl
  | cons e es ih =>
    rw [Sorted, List.pairwise_cons] at hs
    by_cases he : P e
    · simp [List.dropWhile_cons, List.filter_cons, he, ih hs.2 hP.tail]
    · have : ∀ x ∈ es, ¬ P x := fun x hx hx' => he (hP x (.tail _ hx) e (.head _) (hs.1 x hx) hx')
      have hes : es.filter (!P ·) = es := List.filter_eq_self.mpr fun x hx => by simpa using this x hx
      simp [List.dropWhile_cons, List.filter_cons, he, hes]

end

/-! ## Databases and write batches -/

/-- The column families `StorageManager::new` opens: `cf` and `log_cf` of a `Storage`. -/
inductive CfName where
  | default
  | log
  deriving DecidableEq, Repr

structure DB where
  default : Cf
  log : Cf

def DB.empty : DB := ⟨.empty, .empty⟩

def DB.cf (db : DB) : CfName → Cf
  | .default => db.default
  | .log => db.log

def DB.setCf (db : DB) : CfName → Cf → DB
  | .default, c => { db with default := c }
  | .log, c => { db with log := c }

@[simp] theorem DB.cf_setCf (db : DB) (cf cf' : CfName) (c : Cf) :
    (db.setCf cf c).cf cf' = if cf' = cf then c else db.cf cf' := by
  cases cf <;> cases cf' <;> rfl

inductive WriteOp where
  | put (cf : CfName) (key value : Bytes)
  | delete (cf : CfName) (key : Bytes)

/-- `rocksdb::WriteBatch`: its operations in the order they were added. -/
abbrev WriteBatch := List WriteOp

def DB.apply (db : DB) : WriteOp → DB
  | .put cf k v => db.setCf cf ((db.cf cf).put k v)
  | .delete cf k => db.setCf cf ((db.cf cf).delete k)

/-- `DB::write`: the batch's operations in order, all at once. -/
def DB.write (db : DB) (wb : WriteBatch) : DB := wb.foldl DB.apply db

/-- `get_cf`. -/
def DB.getCf (db : DB) (cf : CfName) (key : Bytes) : Option Bytes := (db.cf cf).get key

/-- `delete_cf`. -/
def DB.deleteCf (db : DB) (cf : CfName) (key : Bytes) : DB := db.apply (.delete cf key)

/-- `delete_file_in_range_cf(cf, from, to)`, RocksDB's `DeleteFilesInRange` with the
end key included: it drops the SST files whose keys all lie in `[from, to]`. Which
keys share a file is not modelled: `dropped` says which keys sat in a dropped file. -/
def DB.deleteFileInRangeCf (db : DB) (cf : CfName) (fromKey toKey : Bytes)
    (dropped : Bytes → Bool) : DB :=
  db.setCf cf ((db.cf cf).filter fun k => !(dropped k && fromKey ≤ k && k ≤ toKey))

@[simp] theorem DB.getCf_deleteCf (db : DB) (cf cf' : CfName) (k k' : Bytes) :
    (db.deleteCf cf k).getCf cf' k' = if cf' = cf ∧ k' = k then none else db.getCf cf' k' := by
  by_cases h : cf' = cf <;> simp [deleteCf, apply, getCf, h]

@[simp] theorem DB.getCf_apply_put (db : DB) (cf cf' : CfName) (k v k' : Bytes) :
    (db.apply (.put cf k v)).getCf cf' k' = if cf' = cf ∧ k' = k then some v else db.getCf cf' k' := by
  by_cases h : cf' = cf <;> simp [apply, getCf, h]

@[simp] theorem DB.getCf_apply_delete (db : DB) (cf cf' : CfName) (k k' : Bytes) :
    (db.apply (.delete cf k)).getCf cf' k' = if cf' = cf ∧ k' = k then none else db.getCf cf' k' :=
  db.getCf_deleteCf cf cf' k k'

@[simp] theorem DB.getCf_deleteFileInRangeCf (db : DB) (cf cf' : CfName) (fromKey toKey : Bytes)
    (dropped : Bytes → Bool) (k : Bytes) :
    (db.deleteFileInRangeCf cf fromKey toKey dropped).getCf cf' k =
      if cf' = cf ∧ dropped k ∧ fromKey ≤ k ∧ k ≤ toKey then none else db.getCf cf' k := by
  by_cases h : cf' = cf
  · subst h
    simp only [deleteFileInRangeCf, getCf, cf_setCf, if_true, Cf.get_filter]
    rw [← ite_not]
    congr 1
    simp [and_assoc]
  · simp [deleteFileInRangeCf, getCf, h]

/-- FIFO compaction of `log`: it deletes that family's oldest files. Which entries they hold
is not modelled: `dropped` says which keys sat in a deleted file. -/
def DB.fifoCompaction (db : DB) (dropped : Bytes → Bool) : DB :=
  db.setCf .log ((db.cf .log).filter fun k => !dropped k)

@[simp] theorem DB.getCf_fifoCompaction (db : DB) (dropped : Bytes → Bool) (cf : CfName)
    (k : Bytes) : (db.fifoCompaction dropped).getCf cf k =
      if cf = .log ∧ dropped k then none else db.getCf cf k := by
  cases cf <;> by_cases hk : dropped k <;> simp [fifoCompaction, getCf, hk]

@[simp] theorem DB.write_nil (db : DB) : db.write [] = db := rfl

theorem DB.write_append (db : DB) (wb wb' : WriteBatch) :
    db.write (wb ++ wb') = (db.write wb).write wb' := List.foldl_append _ _ _ _

/-! ## Iterators -/

/-- The prefix extractor each column family was opened with: `U16BeSuffixTransform` on
`default`, none on `log`. -/
def prefixExtractor : CfName → Option (Bytes → Bytes)
  | .default => some U16BeSuffixTransform.transform
  | .log => none

/-- The read options the storage layer sets. (`total_order_seek` is always `false` and
selects no different result in this model.) -/
structure ReadOptions where
  prefixSameAsStart : Bool := false
  iterateUpperBound : Option Bytes := none

/-- A `DBIterator`: the snapshot of its column family, the entries from the cursor on,
and the target of the last seek. -/
structure DBIter where
  cf : CfName
  ro : ReadOptions
  snapshot : List (Bytes × Bytes)
  rest : List (Bytes × Bytes)
  target : Bytes

/-- `iter_cf_opt(cf, ro)`: an unpositioned iterator over a snapshot of `cf`. -/
def DB.iterCfOpt (db : DB) (cf : CfName) (ro : ReadOptions) : DBIter :=
  { cf, ro, snapshot := (db.cf cf).entries, rest := [], target := [] }

namespace DBIter

/-- `seek(SeekKey::Key(target))`: to the least key at or after `target`. -/
def seek (it : DBIter) (target : Bytes) : DBIter :=
  { it with rest := it.snapshot.dropWhile (·.1 < target), target }

def inBounds (it : DBIter) (k : Bytes) : Bool :=
  (match it.ro.prefixSameAsStart, prefixExtractor it.cf with
    | true, some t => t k = t it.target
    | _, _ => true) &&
  it.ro.iterateUpperBound.all (k < ·)

def valid (it : DBIter) : Bool :=
  match it.rest with
  | [] => false
  | e :: _ => it.inBounds e.1

def key (it : DBIter) : Bytes := (it.rest.head?.map Prod.fst).getD []

def value (it : DBIter) : Bytes := (it.rest.head?.map Prod.snd).getD []

def next (it : DBIter) : Except Panic DBIter :=
  if it.valid then .ok { it with rest := it.rest.tail } else .error .invalidNext

@[simp] theorem inBounds_withRest (it : DBIter) (l : List (Bytes × Bytes)) :
    ({ it with rest := l } : DBIter).inBounds = it.inBounds := rfl

end DBIter

/-- `while iter.valid() { db.delete_cf(cf, iter.key()); iter.next(); }` over the
entries `es` from the cursor on, `inBounds` being the iterator's bound check. The
iterator walks its snapshot while the deletes go to the live `db`. -/
def deleteWhileValid (cf : CfName) (inBounds : Bytes → Bool) : List (Bytes × Bytes) → DB → DB
  | [], db => db
  | e :: es, db =>
    if inBounds e.1 then deleteWhileValid cf inBounds es (db.deleteCf cf e.1) else db

theorem getCf_deleteWhileValid (cf cf' : CfName) (inBounds : Bytes → Bool) (k : Bytes) :
    ∀ (es : List (Bytes × Bytes)) (db : DB), (deleteWhileValid cf inBounds es db).getCf cf' k =
      if cf' = cf ∧ k ∈ (es.takeWhile (inBounds ·.1)).map Prod.fst then none else db.getCf cf' k
  | [], db => by simp [deleteWhileValid]
  | e :: es, db => by
    unfold deleteWhileValid
    by_cases he : inBounds e.1
    · rw [if_pos he, getCf_deleteWhileValid cf cf' inBounds k es, DB.getCf_deleteCf,
        List.takeWhile_cons_of_pos (p := fun x : Bytes × Bytes => inBounds x.1) he]
      simp only [List.map_cons, List.mem_cons]
      by_cases hc : cf' = cf
      · by_cases hk : k = e.1
        · simp only [hc, hk, true_or, and_self, if_true, ite_self]
        · simp only [hc, hk, false_or, true_and, if_false]
      · simp only [hc, false_and, if_false]
    · rw [if_neg he, List.takeWhile_cons_of_neg (p := fun x : Bytes × Bytes => inBounds x.1) he]
      simp

theorem deleteWhileValid_eq (cf : CfName) (it : DBIter) (db : DB) :
    deleteWhileValid cf it.inBounds it.rest db =
      if it.valid then
        match it.next with
        | .ok it' => deleteWhileValid cf it'.inBounds it'.rest (db.deleteCf cf it.key)
        | .error _ => db
      else db := by
  obtain ⟨c, ro, sn, _ | ⟨e, es⟩, t⟩ := it
  · rfl
  · by_cases he : DBIter.inBounds ⟨c, ro, sn, e :: es, t⟩ e.1
    · simp only [deleteWhileValid, DBIter.next, DBIter.valid, he, if_true]
      rfl
    · simp [deleteWhileValid, DBIter.valid, he]

end Sucredb
