import Sucredb.Clear

/-!
# Handles, iterators and runs

A program holds one `StorageManager`, the handles `open` has returned, and the
iterators it has made and not dropped. Each handle owns a fresh `Arc<()>`, named here
by its allocation, and every iterator clones the `Arc` of the handle that made it;
`Arc::strong_count` counts those holders. `World.step` is one call of the storage API,
`none` when it names no live handle or iterator, and a `Panic` when the call panics.

Every reachable world keeps its stored keys well shaped, so iteration never trips the
log-key assertion (`keyShape_of_reachable`). The iterator sentinel is per handle: a
`clear` that passes `check_pending_iters` sees no live iterator of its own handle
(`clear_passes_no_own_iterator`), but another handle of the same namespace may hold one
(`clear_passes_with_live_iterator`). Dropping the manager passes its asserts exactly when
every handle has been dropped (`dropManager_iff`).
-/

namespace Sucredb

/-! ## Worlds -/

/-- An iterator the program holds, with the namespace of the handle that made it. -/
inductive Cursor where
  | main (num : UInt16) (it : StorageIterator)
  | log (num : UInt16) (it : LogStorageIterator)

namespace Cursor

def num : Cursor → UInt16
  | .main n _ => n
  | .log n _ => n

def sentinel : Cursor → Nat
  | .main _ it => it.iteratorsHandle
  | .log _ it => it.iteratorsHandle

def next : Cursor → Except Panic Cursor
  | .main n it => do
    let (_, v) ← it.iter.next
    pure (.main n v.it)
  | .log n it => do
    let (_, v) ← it.iter.next
    pure (.log n v.it)

end Cursor

structure World where
  db : DB
  handles : List Storage
  cursors : List Cursor
  nextArc : Nat

def World.init : World := ⟨DB.empty, [], [], 0⟩

/-- `Arc::strong_count` of the allocation `a`: its handle and the iterators that cloned it. -/
def World.strongCount (w : World) (a : Nat) : Nat :=
  (w.handles.map (·.iteratorsHandle)).count a + (w.cursors.map (·.sentinel)).count a

/-- The calls a program makes; handles and iterators are named by their position. -/
inductive Action where
  | openHandle (num : UInt16)
  | iterator (i : Nat)
  | logIterator (i : Nat) (pre start : UInt64)
  | next (j : Nat)
  | dropIterator (j : Nat)
  | set (i : Nat) (key value : Bytes)
  | del (i : Nat) (key : Bytes)
  | batchWrite (i i' : Nat) (ops : List BatchOp)
  | clear (i : Nat) (dropped : CfName → Bytes → Bool)
  | dropHandle (i : Nat)
  /-- The engine's FIFO compaction of `log`, between any two calls. -/
  | fifoCompaction (dropped : Bytes → Bool)

/-- One call. A batch is built on handle `i` and written through handle `i'`; `clear`
and dropping a handle check the strong count of the handle's sentinel. -/
def World.step (w : World) : Action → Option (Except Panic World)
  | .openHandle num => some (.ok { w with handles := w.handles ++ [⟨num, w.nextArc⟩],
                                          nextArc := w.nextArc + 1 })
  | .iterator i => w.handles[i]?.map fun h =>
      (h.iterator w.db).map fun it => { w with cursors := w.cursors ++ [.main h.num it] }
  | .logIterator i pre start => w.handles[i]?.map fun h =>
      .ok { w with cursors := w.cursors ++ [.log h.num (h.logIterator w.db pre start)] }
  | .next j => w.cursors[j]?.map fun c =>
      c.next.map fun c' => { w with cursors := w.cursors.set j c' }
  | .dropIterator j =>
      if j < w.cursors.length then some (.ok { w with cursors := w.cursors.eraseIdx j }) else none
  | .set i k v => w.handles[i]?.map fun h => (h.set w.db k v).map fun db => { w with db }
  | .del i k => w.handles[i]?.map fun h => (h.del w.db k).map fun db => { w with db }
  | .batchWrite i i' ops => w.handles[i]?.bind fun h => w.handles[i']?.map fun h' =>
      ((h.batchNew 0).pushAll ops).map fun b => { w with db := h'.batchWrite w.db b }
  | .clear i dropped => w.handles[i]?.map fun h =>
      (h.clear w.db (w.strongCount h.iteratorsHandle) dropped).map fun db => { w with db }
  | .dropHandle i => w.handles[i]?.map fun h =>
      (checkPendingIters (w.strongCount h.iteratorsHandle)).map fun _ =>
        { w with handles := w.handles.eraseIdx i }
  | .fifoCompaction dropped => some (.ok { w with db := w.db.fifoCompaction dropped })

inductive Reachable : World → Prop where
  | init : Reachable World.init
  | step {w w' : World} (a : Action) : Reachable w → w.step a = some (.ok w') → Reachable w'

def World.run : World → List Action → Option (Except Panic World)
  | w, [] => some (.ok w)
  | w, a :: as => (w.step a).bind fun
    | .ok w' => w'.run as
    | .error e => some (.error e)

theorem reachable_run : ∀ {w w' : World} {as : List Action}, Reachable w →
    w.run as = some (.ok w') → Reachable w'
  | w, w', [], hw, h => by cases h; exact hw
  | w, w', a :: as, hw, h => by
    cases hs : w.step a with
    | none => simp [World.run, hs] at h
    | some r =>
      cases r with
      | error e => simp [World.run, hs] at h
      | ok w₁ =>
        simp only [World.run, hs, Option.some_bind] at h
        exact reachable_run (.step a hw hs) h

theorem except_map_eq_ok {ε α β : Type} {f : α → β} {r : Except ε α} {b : β} :
    r.map f = .ok b ↔ ∃ a, r = .ok a ∧ f a = b := by
  cases r <;> simp [Except.map]

/-! ## Well-shaped keys -/

def keyShaped : CfName → Bytes → Bool
  | .default, k => U16BeSuffixTransform.inDomain k
  | .log, k => k.length = 2 + 8 + 8

def KeyShape (db : DB) : Prop := ∀ cf k v, db.getCf cf k = some v → keyShaped cf k

def WriteOp.Shaped : WriteOp → Prop
  | .put cf k _ => keyShaped cf k
  | .delete _ _ => True

theorem BatchOp.encode_shaped (n : UInt16) (op : BatchOp) : (op.encode n).Shaped := by
  cases op <;> simp [encode, WriteOp.Shaped, keyShaped, U16BeSuffixTransform.inDomain]

section
variable {db db' : DB}

theorem KeyShape.apply (hs : KeyShape db) : ∀ {op : WriteOp}, op.Shaped → KeyShape (db.apply op)
  | .put cf k v, ho => fun cf' k' v' hv => by
    rw [DB.getCf_apply_put] at hv
    split_ifs at hv with hk
    · obtain ⟨rfl, rfl⟩ := hk
      exact ho
    · exact hs _ _ _ hv
  | .delete cf k, _ => fun cf' k' v' hv => by
    rw [DB.getCf_apply_delete] at hv
    split_ifs at hv
    exact hs _ _ _ hv

theorem KeyShape.write (hs : KeyShape db) {wb : WriteBatch} (hw : ∀ op ∈ wb, WriteOp.Shaped op) :
    KeyShape (db.write wb) := by
  induction wb generalizing db with
  | nil => exact hs
  | cons op wb ih =>
    rw [List.forall_mem_cons] at hw
    exact ih (hs.apply hw.1) hw.2

theorem KeyShape.fifoCompaction (hs : KeyShape db) (dropped : Bytes → Bool) :
    KeyShape (db.fifoCompaction dropped) := fun cf k v hv => by
  rw [DB.getCf_fifoCompaction] at hv
  split_ifs at hv
  exact hs _ _ _ hv

theorem KeyShape.clear (hs : KeyShape db) {h : Storage} {c : Nat} {dropped : CfName → Bytes → Bool}
    (hc : h.clear db c dropped = .ok db') : KeyShape db' := fun cf k v hv => by
  rw [getCf_clear hc] at hv
  split_ifs at hv
  exact hs _ _ _ hv

theorem KeyShape.rest_seek (hs : KeyShape db) (cf : CfName) (ro : ReadOptions) (t : Bytes) :
    ∀ e ∈ ((db.iterCfOpt cf ro).seek t).rest, keyShaped cf e.1 := fun e he =>
  hs cf e.1 e.2 (Cf.mem_entries_iff.mp ((List.dropWhile_sublist _).subset he))

end

/-! ## Writes through handles -/

theorem StorageBatch.push_ok {b b' : StorageBatch} {op : BatchOp} (h : b.push op = .ok b') :
    b' = { b with wb := b.wb ++ [op.encode b.storage.num] } := by
  cases op <;> simp only [push, set, del, mainOp_eq, logSet] at h <;> (try split at h) <;>
    cases h <;> rfl

theorem StorageBatch.pushAll_ok : ∀ {ops : List BatchOp} {b b' : StorageBatch},
    b.pushAll ops = .ok b' → b' = { b with wb := b.wb ++ ops.map (BatchOp.encode b.storage.num) }
  | [], b, b', h => by cases h; simp
  | op :: ops, b, b', h => by
    rw [pushAll, List.foldlM_cons] at h
    cases hp : b.push op with
    | error e => rw [hp] at h; cases h
    | ok b₁ =>
      rw [hp] at h
      rw [pushAll_ok h, push_ok hp]
      simp

theorem Storage.single_ok {h : Storage} {db db' : DB} {op : StorageBatch → Except Panic StorageBatch}
    (hs : h.single db op = .ok db') : ∃ b, op (h.batchNew 0) = .ok b ∧ db' = db.write b.wb := by
  unfold single at hs
  cases hb : op (h.batchNew 0) with
  | error e => rw [hb] at hs; cases hs
  | ok b => rw [hb] at hs; cases hs; exact ⟨b, rfl, rfl⟩

theorem KeyShape.single {h : Storage} {db db' : DB} (hs : KeyShape db) (op : BatchOp)
    (hw : h.single db (·.push op) = .ok db') : KeyShape db' := by
  obtain ⟨b, hb, rfl⟩ := Storage.single_ok hw
  rw [StorageBatch.push_ok hb]
  exact hs.write fun o ho => by
    simp only [Storage.batchNew, List.nil_append, List.mem_singleton] at ho
    exact ho ▸ BatchOp.encode_shaped _ _

/-! ## Cursors -/

namespace Cursor

def Shaped : Cursor → Prop
  | .main _ it => ∀ e ∈ it.iterator.rest, keyShaped .default e.1
  | .log _ it => ∀ e ∈ it.iterator.rest, keyShaped .log e.1

theorem next_ok {c c' : Cursor} (h : c.next = .ok c') :
    c'.num = c.num ∧ c'.sentinel = c.sentinel ∧ (c.Shaped → c'.Shaped) := by
  cases c with
  | main n it =>
    simp only [next, StorageIterator.iter, StorageIter.next_eq] at h
    cases hc : it.iterator.call it.first with
    | error e => simp [hc, Except.map, bind, Except.bind] at h
    | ok r =>
      simp only [hc, Except.map, bind, Except.bind, pure, Except.pure, Except.ok.injEq] at h
      subst h
      exact ⟨rfl, rfl, fun hs e he => hs e ((DBIter.call_ok hc).2 e he)⟩
  | log n it =>
    simp only [next, LogStorageIterator.iter, LogStorageIter.next_eq] at h
    cases hc : it.iterator.call it.first with
    | error e => simp [hc, bind, Except.bind] at h
    | ok r =>
      cases hr : readLogEntry r.1 with
      | error e => simp [hc, hr, Except.map, bind, Except.bind] at h
      | ok x =>
        simp only [hc, hr, Except.map, bind, Except.bind, pure, Except.pure, Except.ok.injEq] at h
        subst h
        exact ⟨rfl, rfl, fun hs e he => hs e ((DBIter.call_ok hc).2 e he)⟩

theorem next_shaped {c : Cursor} (hs : c.Shaped) {e : Panic} (h : c.next = .error e) :
    e = .invalidNext := by
  cases c with
  | main n it =>
    simp only [next, StorageIterator.iter, StorageIter.next_eq] at h
    cases hc : it.iterator.call it.first with
    | error e' =>
      simp only [hc, Except.map, bind, Except.bind] at h
      cases h
      exact DBIter.call_error hc
    | ok r => simp [hc, Except.map, bind, Except.bind, pure, Except.pure] at h
  | log n it =>
    simp only [next, LogStorageIterator.iter] at h
    rw [LogStorageIter.next_ok _ fun e he => by simpa [keyShaped] using hs e he] at h
    cases hc : it.iterator.call it.first with
    | error e' =>
      simp only [hc, Except.map, bind, Except.bind] at h
      cases h
      exact DBIter.call_error hc
    | ok r => simp [hc, Except.map, bind, Except.bind, pure, Except.pure] at h

end Cursor

/-! ## The invariant -/

/-- What every reachable world keeps. -/
structure Inv (w : World) : Prop where
  keyShape : KeyShape w.db
  cursorShape : ∀ c ∈ w.cursors, c.Shaped
  arcsNodup : (w.handles.map (·.iteratorsHandle)).Nodup
  arcsFresh : ∀ h ∈ w.handles, h.iteratorsHandle < w.nextArc
  cursorOwned : ∀ c ∈ w.cursors, ∃ h ∈ w.handles, h.iteratorsHandle = c.sentinel ∧ h.num = c.num

theorem inv_init : Inv World.init where
  keyShape cf k v h := by cases cf <;> simp [World.init, DB.getCf, DB.empty, DB.cf] at h
  cursorShape := by simp [World.init]
  arcsNodup := List.nodup_nil
  arcsFresh := by simp [World.init]
  cursorOwned := by simp [World.init]

theorem checkPendingIters_ok {c : Nat} (h : checkPendingIters c = .ok ()) : c = 1 := by
  unfold checkPendingIters at h
  split at h
  · assumption
  · cases h

theorem Storage.clear_count {h : Storage} {db db' : DB} {c : Nat} {dropped : CfName → Bytes → Bool}
    (hc : h.clear db c dropped = .ok db') : c = 1 :=
  Classical.byContradiction fun hne => by rw [Storage.clear_pending _ _ _ hne] at hc; cases hc

theorem Inv.no_sentinel {w : World} (hi : Inv w) {h : Storage} (hh : h ∈ w.handles)
    (hc : w.strongCount h.iteratorsHandle = 1) :
    ∀ c ∈ w.cursors, c.sentinel ≠ h.iteratorsHandle := by
  rw [World.strongCount, List.count_eq_one_of_mem hi.arcsNodup (List.mem_map_of_mem _ hh)] at hc
  have : h.iteratorsHandle ∉ w.cursors.map (·.sentinel) := List.count_eq_zero.mp (by omega)
  exact fun c hc' he => this (List.mem_map.mpr ⟨c, hc', he⟩)

/-! ## One step keeps the invariant -/

section
variable {w w' : World}

theorem Inv.withDb (hi : Inv w) {db : DB} (hdb : KeyShape db) : Inv { w with db } :=
  { hi with keyShape := hdb }

theorem Inv.openHandle (hi : Inv w) (num : UInt16) :
    Inv { w with handles := w.handles ++ [⟨num, w.nextArc⟩], nextArc := w.nextArc + 1 } where
  keyShape := hi.keyShape
  cursorShape := hi.cursorShape
  arcsNodup := by
    rw [List.map_append, List.nodup_append]
    refine ⟨hi.arcsNodup, List.nodup_singleton _, fun a ha hb => ?_⟩
    obtain ⟨h, hh, rfl⟩ := List.mem_map.mp ha
    rw [List.map_singleton, List.mem_singleton] at hb
    exact (hi.arcsFresh h hh).ne hb
  arcsFresh h hh := by
    rcases List.mem_append.mp hh with hh | hh
    · exact Nat.lt_succ_of_lt (hi.arcsFresh h hh)
    · rw [List.mem_singleton.mp hh]
      exact Nat.lt_succ_self _
  cursorOwned c hc := by
    obtain ⟨h, hh, e⟩ := hi.cursorOwned c hc
    exact ⟨h, List.mem_append_left _ hh, e⟩

theorem Inv.addCursor (hi : Inv w) {h : Storage} (hh : h ∈ w.handles) {c : Cursor} (hc : c.Shaped)
    (hs : c.sentinel = h.iteratorsHandle) (hn : c.num = h.num) :
    Inv { w with cursors := w.cursors ++ [c] } where
  keyShape := hi.keyShape
  cursorShape d hd := by
    rcases List.mem_append.mp hd with hd | hd
    · exact hi.cursorShape d hd
    · rw [List.mem_singleton.mp hd]
      exact hc
  arcsNodup := hi.arcsNodup
  arcsFresh := hi.arcsFresh
  cursorOwned d hd := by
    rcases List.mem_append.mp hd with hd | hd
    · exact hi.cursorOwned d hd
    · rw [List.mem_singleton.mp hd]
      exact ⟨h, hh, hs.symm, hn.symm⟩

theorem Inv.setCursor (hi : Inv w) {j : Nat} {c c' : Cursor} (hj : w.cursors[j]? = some c)
    (hc : c.next = .ok c') : Inv { w with cursors := w.cursors.set j c' } where
  keyShape := hi.keyShape
  cursorShape d hd := by
    rcases List.mem_or_eq_of_mem_set hd with hd | rfl
    · exact hi.cursorShape d hd
    · exact (Cursor.next_ok hc).2.2 (hi.cursorShape c (List.getElem?_mem hj))
  arcsNodup := hi.arcsNodup
  arcsFresh := hi.arcsFresh
  cursorOwned d hd := by
    rcases List.mem_or_eq_of_mem_set hd with hd | rfl
    · exact hi.cursorOwned d hd
    · obtain ⟨hn, hs, -⟩ := Cursor.next_ok hc
      rw [hn, hs]
      exact hi.cursorOwned c (List.getElem?_mem hj)

theorem Inv.eraseCursor (hi : Inv w) (j : Nat) : Inv { w with cursors := w.cursors.eraseIdx j } where
  keyShape := hi.keyShape
  cursorShape c hc := hi.cursorShape c (List.mem_of_mem_eraseIdx hc)
  arcsNodup := hi.arcsNodup
  arcsFresh := hi.arcsFresh
  cursorOwned c hc := hi.cursorOwned c (List.mem_of_mem_eraseIdx hc)

theorem Inv.eraseHandle (hi : Inv w) {i : Nat} {h : Storage} (hh : w.handles[i]? = some h)
    (hc : w.strongCount h.iteratorsHandle = 1) :
    Inv { w with handles := w.handles.eraseIdx i } where
  keyShape := hi.keyShape
  cursorShape := hi.cursorShape
  arcsNodup := hi.arcsNodup.sublist ((List.eraseIdx_sublist _ _).map _)
  arcsFresh h' hh' := hi.arcsFresh h' (List.mem_of_mem_eraseIdx hh')
  cursorOwned c hc' := by
    obtain ⟨h', hh', hs, hn⟩ := hi.cursorOwned c hc'
    obtain ⟨j, hj⟩ := List.mem_iff_getElem?.mp hh'
    refine ⟨h', List.mem_eraseIdx_iff_getElem?.mpr ⟨j, fun hji => ?_, hj⟩, hs, hn⟩
    rw [hji, hh, Option.some.injEq] at hj
    subst hj
    exact hi.no_sentinel (List.getElem?_mem hh) hc c hc' hs.symm

/-- Every call that returns keeps the invariant. -/
theorem Inv.step (hi : Inv w) : ∀ {a : Action}, w.step a = some (.ok w') → Inv w'
  | .openHandle num, hs => by
    simp only [World.step, Option.some.injEq, Except.ok.injEq] at hs
    exact hs ▸ hi.openHandle num
  | .iterator i, hs => by
    simp only [World.step, Option.map_eq_some', except_map_eq_ok] at hs
    obtain ⟨h, hh, it, hit, rfl⟩ := hs
    rw [Storage.iterator_eq] at hit
    cases hit
    exact hi.addCursor (List.getElem?_mem hh) (hi.keyShape.rest_seek _ _ _) rfl rfl
  | .logIterator i pre start, hs => by
    simp only [World.step, Option.map_eq_some', Except.ok.injEq] at hs
    obtain ⟨h, hh, rfl⟩ := hs
    exact hi.addCursor (List.getElem?_mem hh) (hi.keyShape.rest_seek _ _ _) rfl rfl
  | .next j, hs => by
    simp only [World.step, Option.map_eq_some', except_map_eq_ok] at hs
    obtain ⟨c, hj, c', hc, rfl⟩ := hs
    exact hi.setCursor hj hc
  | .dropIterator j, hs => by
    simp only [World.step] at hs
    split at hs
    · cases hs
      exact hi.eraseCursor j
    · cases hs
  | .set i k v, hs => by
    simp only [World.step, Option.map_eq_some', except_map_eq_ok] at hs
    obtain ⟨h, -, db, hdb, rfl⟩ := hs
    exact hi.withDb (hi.keyShape.single (.set k v) hdb)
  | .del i k, hs => by
    simp only [World.step, Option.map_eq_some', except_map_eq_ok] at hs
    obtain ⟨h, -, db, hdb, rfl⟩ := hs
    exact hi.withDb (hi.keyShape.single (.del k) hdb)
  | .batchWrite i i' ops, hs => by
    simp only [World.step, Option.bind_eq_some, Option.map_eq_some', except_map_eq_ok] at hs
    obtain ⟨h, -, h', -, b, hb, rfl⟩ := hs
    rw [StorageBatch.pushAll_ok hb]
    refine hi.withDb (hi.keyShape.write fun o ho => ?_)
    simp only [Storage.batchNew, List.nil_append, List.mem_map] at ho
    obtain ⟨op, -, rfl⟩ := ho
    exact BatchOp.encode_shaped _ _
  | .clear i dropped, hs => by
    simp only [World.step, Option.map_eq_some', except_map_eq_ok] at hs
    obtain ⟨h, -, db, hdb, rfl⟩ := hs
    exact hi.withDb (hi.keyShape.clear hdb)
  | .dropHandle i, hs => by
    simp only [World.step, Option.map_eq_some', except_map_eq_ok] at hs
    obtain ⟨h, hh, u, hu, rfl⟩ := hs
    exact hi.eraseHandle hh (checkPendingIters_ok hu)
  | .fifoCompaction dropped, hs => by
    cases hs
    exact hi.withDb (hi.keyShape.fifoCompaction dropped)

theorem inv_of_reachable (hw : Reachable w) : Inv w := by
  induction hw with
  | init => exact inv_init
  | step a _ hs ih => exact ih.step hs

end

/-! ## Runs -/

/-- **Well-shaped keys.** In every reachable world every log key has `2 + 8 + 8` bytes and
every main key is in the domain of `U16BeSuffixTransform`. So no call of `next`, on a log
iterator made on it or on a live iterator, trips the key-length assertion. -/
theorem keyShape_of_reachable {w : World} (hw : Reachable w) :
    (∀ k v, w.db.getCf .log k = some v → k.length = 2 + 8 + 8) ∧
    (∀ k v, w.db.getCf .default k = some v → U16BeSuffixTransform.inDomain k) ∧
    (∀ (h : Storage) (pre start : UInt64) (cs : List Nat),
      (h.logIterator w.db pre start).drive cs ≠ .error .logKeyLength) ∧
    ∀ j c, w.cursors[j]? = some c → w.step (.next j) ≠ some (.error .logKeyLength) := by
  have hi := inv_of_reachable hw
  refine ⟨fun k v hv => by simpa [keyShaped] using hi.keyShape .log k v hv, hi.keyShape .default,
    fun h pre start cs hd => ?_, fun j c hj hd => ?_⟩
  · rw [LogStorageIterator.drive_eq _ _ fun e he => by
      simpa [keyShaped] using hi.keyShape.rest_seek .log _ _ e he] at hd
    cases hp : popPendingN cs.sum ((h.logIterator w.db pre start).iterator.pending
      (h.logIterator w.db pre start).first) with
    | error e => rw [hp] at hd; cases hd; cases popPendingN_error hp
    | ok l => rw [hp] at hd; cases hd
  · simp only [World.step, hj, Option.map_some', Option.some.injEq] at hd
    cases hc : c.next with
    | error e =>
      rw [hc] at hd
      cases hd
      cases Cursor.next_shaped (hi.cursorShape c (List.getElem?_mem hj)) hc
    | ok c' => rw [hc] at hd; cases hd

def twoHandles : World :=
  ⟨DB.empty, [⟨1, 0⟩, ⟨1, 1⟩], [.main 1 ⟨mainCursor DB.empty 1, 0, true⟩], 2⟩

theorem twoHandles_reachable : Reachable twoHandles :=
  @reachable_run World.init twoHandles [.openHandle 1, .openHandle 1, .iterator 0] .init rfl

def logWorld : World :=
  ((World.init.run [.openHandle 0, .batchWrite 0 0 [.set [1] [2], .logSet (1, 1) [3]],
    .logIterator 0 1 0]).bind Except.toOption).getD World.init

theorem keyShape_of_reachable_logWorld :
    Reachable logWorld ∧
    (∀ k v, logWorld.db.getCf .log k = some v → k.length = 2 + 8 + 8) ∧
    (∀ k v, logWorld.db.getCf .default k = some v → U16BeSuffixTransform.inDomain k) ∧
    (∀ (h : Storage) (pre start : UInt64) (cs : List Nat),
      (h.logIterator logWorld.db pre start).drive cs ≠ .error .logKeyLength) ∧
    ∀ j c, logWorld.cursors[j]? = some c → logWorld.step (.next j) ≠ some (.error .logKeyLength) :=
  have hw : Reachable logWorld := @reachable_run World.init logWorld
    [.openHandle 0, .batchWrite 0 0 [.set [1] [2], .logSet (1, 1) [3]], .logIterator 0 1 0] .init rfl
  ⟨hw, keyShape_of_reachable hw⟩

/-- **Sentinel per handle.** In every reachable world, when `clear` on a handle passes
`check_pending_iters`, no live iterator holds that handle's sentinel: every live iterator
holds the sentinel of another live handle, the one that made it. -/
theorem clear_passes_no_own_iterator {w w' : World} {i : Nat} {h : Storage}
    {dropped : CfName → Bytes → Bool} (hw : Reachable w) (hh : w.handles[i]? = some h)
    (hc : w.step (.clear i dropped) = some (.ok w')) :
    ∀ c ∈ w.cursors, c.sentinel ≠ h.iteratorsHandle ∧
      ∃ h' ∈ w.handles, h'.iteratorsHandle = c.sentinel ∧ h'.num = c.num := by
  have hi := inv_of_reachable hw
  simp only [World.step, hh, Option.map_some', Option.some.injEq, except_map_eq_ok] at hc
  obtain ⟨db, hdb, -⟩ := hc
  exact fun c hc' => ⟨hi.no_sentinel (List.getElem?_mem hh) (Storage.clear_count hdb) c hc',
    hi.cursorOwned c hc'⟩

theorem clear_passes_no_own_iterator_twoHandles :
    (Cursor.main 1 ⟨mainCursor DB.empty 1, 0, true⟩).sentinel ≠ 1 ∧
      ∃ h' ∈ twoHandles.handles, h'.iteratorsHandle = 0 ∧ h'.num = 1 :=
  @clear_passes_no_own_iterator twoHandles _ 1 ⟨1, 1⟩ (fun _ _ => true) twoHandles_reachable rfl rfl
    _ (List.mem_singleton_self _)

/-- The second handle of namespace 1 passes `check_pending_iters` while the first handle's
iterator over namespace 1 is live. -/
theorem clear_passes_with_live_iterator :
    Reachable twoHandles ∧ (∃ w', twoHandles.step (.clear 1 fun _ _ => true) = some (.ok w')) ∧
      twoHandles.handles[1]?.map (·.num) = some 1 ∧ ∃ c ∈ twoHandles.cursors, c.num = 1 :=
  ⟨twoHandles_reachable, ⟨_, rfl⟩, rfl, _, List.mem_singleton_self _, rfl⟩

/-! ## Dropping the manager -/

/-- `Arc::strong_count` of the engine: the manager's own reference, and the clone each handle
and each live iterator holds. -/
def World.dbStrongCount (w : World) : Nat := 1 + w.handles.length + w.cursors.length

/-- Whether the asserts of `Drop for StorageManager` pass: no `Weak` of the engine is made, so
its weak count is 0, and the strong count must be the manager's alone. -/
def World.dropManager (w : World) : Bool := w.dbStrongCount == 1

/-- **Dropping the manager.** In every reachable world, the asserts of `Drop for
StorageManager` pass exactly when no handle is live: a handle is dropped only once none of its
iterators is live, so no iterator outlives every handle. -/
theorem dropManager_iff {w : World} (hw : Reachable w) : w.dropManager = true ↔ w.handles = [] := by
  have hi := inv_of_reachable hw
  simp only [World.dropManager, World.dbStrongCount, beq_iff_eq]
  constructor
  · intro h
    exact List.length_eq_zero.mp (by omega)
  · intro h
    have hc : w.cursors = [] := List.eq_nil_iff_forall_not_mem.mpr fun c hc => by
      obtain ⟨h', hh', -⟩ := hi.cursorOwned c hc
      simp [h] at hh'
    simp [h, hc]

theorem dropManager_iff_twoHandles :
    Reachable twoHandles ∧ (twoHandles.dropManager = true ↔ twoHandles.handles = []) :=
  ⟨twoHandles_reachable, dropManager_iff twoHandles_reachable⟩

end Sucredb
