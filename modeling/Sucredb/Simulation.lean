import Sucredb.Spec

/-!
# The storage refines independent maps

`World.view` is what a program can observe of a world: each namespace's maps
(`abstraction`), the handles, and for each live iterator what its later calls of `next`
read (`Cursor.view`): the admitted run from its next position on, or nothing once it has
returned `None`.

Each call of a run from a fresh manager is a step of `Spec` on the views, with the same
panics (`run_refines`), as long as the run keeps away from the places where the code
departs from independent maps (`World.avoids`): a `log_iterator` at prefix `u64::MAX`,
which wraps `prefix + 1`; a `clear` on namespace `0xFFFF`, which wraps `num + 1`; and a
`clear` whose fast path drops `be16(num + 1)`. Along such a run, each live iterator's next
call returns what its view's call returns. Conversely, the code takes every such run the
spec takes, to the one outcome the spec allows (`runs_iff_run`).
-/

namespace Sucredb

/-! ## Views -/

theorem popPending_map {α β : Type} (f : α → β) (p : Option (List α)) :
    popPending (p.map (List.map f)) =
      (popPending p).map fun r => (r.1.map f, r.2.map (List.map f)) := by
  rcases p with _ | _ | ⟨x, xs⟩ <;> rfl

namespace Cursor

/-- What the later calls of `next` on a live iterator read, as those calls decode it. -/
def view : Cursor → SpecCursor
  | .main _ it => .main it.iteratorsHandle
      ((it.iterator.pending it.first).map (List.map stripPrefix))
  | .log _ it => .log it.iteratorsHandle
      ((it.iterator.pending it.first).map (List.map decodeLogEntry))

def reply : Cursor → Except Panic (Option Item)
  | .main _ it => it.iter.next.map fun r => r.1.map .inl
  | .log _ it => it.iter.next.map fun r => r.1.map .inr

@[simp] theorem owner_view (c : Cursor) : c.view.owner = c.sentinel := by
  cases c <;> rfl

/-- A call of `next` on a live iterator of well-shaped keys returns what the call on its view
returns, and leaves the view of the iterator after it. -/
theorem next_view {c : Cursor} (hs : c.Shaped) :
    c.reply = c.view.next.map (·.1) ∧ c.next.map view = c.view.next.map (·.2) := by
  cases c with
  | main n it =>
    simp only [reply, next, view, SpecCursor.next, StorageIterator.iter, StorageIter.next_eq,
      popPending_map, ← DBIter.call_pending]
    cases it.iterator.call it.first <;> exact ⟨rfl, rfl⟩
  | log n it =>
    simp only [reply, next, view, SpecCursor.next, LogStorageIterator.iter,
      LogStorageIter.next_ok _ fun e he => by simpa [keyShaped] using hs e he, popPending_map,
      ← DBIter.call_pending]
    cases it.iterator.call it.first <;> exact ⟨rfl, rfl⟩

end Cursor

/-- What a program can observe of a world. -/
def World.view (w : World) : Spec :=
  ⟨abstraction w.db, w.handles, w.cursors.map Cursor.view, w.nextArc⟩

namespace World

theorem view_init : World.init.view = Spec.init := rfl

@[simp] theorem view_withDb (w : World) (db : DB) :
    ({ w with db } : World).view = { w.view with store := abstraction db } := rfl

@[simp] theorem view_addCursor (w : World) (c : Cursor) :
    ({ w with cursors := w.cursors ++ [c] } : World).view =
      { w.view with cursors := w.view.cursors ++ [c.view] } := by
  simp [view]

@[simp] theorem view_setCursor (w : World) (j : Nat) (c : Cursor) :
    ({ w with cursors := w.cursors.set j c } : World).view =
      { w.view with cursors := w.view.cursors.set j c.view } := by
  simp [view, List.map_set]

@[simp] theorem view_eraseCursor (w : World) (j : Nat) :
    ({ w with cursors := w.cursors.eraseIdx j } : World).view =
      { w.view with cursors := w.view.cursors.eraseIdx j } := by
  simp [view, List.eraseIdx_eq_take_drop_succ, List.map_take, List.map_drop]

theorem strongCount_eq {w : World} (hi : Inv w) {h : Storage} (hh : h ∈ w.handles) :
    w.strongCount h.iteratorsHandle = 1 + w.view.pending h.iteratorsHandle := by
  rw [strongCount, List.count_eq_one_of_mem hi.arcsNodup (List.mem_map_of_mem _ hh)]
  simp [view, Spec.pending, List.map_map, Function.comp_def]

end World

/-! ## Runs that keep away from the departures -/

/-- Whether a call keeps away from the places where the code departs from independent maps:
a `log_iterator` at prefix `u64::MAX`, a `clear` on namespace `0xFFFF`, and a `clear` whose
fast path drops `be16(num + 1)`, the empty user key of the next namespace. -/
def Action.avoids (w : World) : Action → Bool
  | .logIterator _ pre _ => pre != 0xFFFFFFFFFFFFFFFF
  | .clear i dropped => (w.handles[i]?).all fun h =>
      h.num != 0xFFFF && !dropped .default (writeU16 (h.num + 1))
  | _ => true

def World.avoids : World → List Action → Bool
  | _, [] => true
  | w, a :: as => a.avoids w && match w.step a with
    | some (.ok w') => w'.avoids as
    | _ => true

section
variable {w : World} {r : Except Panic World}

/-- **Simulation.** On a world that keeps `Inv`, each call that keeps away from the departures
is a step of `Spec` on the views, with the same panic. -/
theorem World.view_step {a : Action} (hi : Inv w) (ha : a.avoids w = true)
    (hs : w.step a = some r) : Spec.Step w.view a (r.map World.view) := by
  cases a with
  | openHandle num =>
    cases hs
    exact .openHandle num
  | iterator i =>
    simp only [World.step, Option.map_eq_some'] at hs
    obtain ⟨h, hh, rfl⟩ := hs
    simp only [Storage.iterator_eq, Except.map, World.view_addCursor]
    exact .iterator hh (lists_mainCursor w.db h.num)
  | logIterator i pre start =>
    simp only [World.step, Option.map_eq_some'] at hs
    obtain ⟨h, hh, rfl⟩ := hs
    simp only [Except.map, World.view_addCursor]
    have hlog : ∀ e ∈ w.db.log.entries, e.1.length = 18 := fun e he => by
      simpa [keyShaped] using hi.keyShape .log e.1 e.2 (Cf.mem_entries_iff.mp he)
    have hp : pre.toNat + 1 < 2 ^ 64 := by
      have := pre.toNat_lt_size
      have hmax : (0xFFFFFFFFFFFFFFFF : UInt64).toNat = 2 ^ 64 - 1 := rfl
      simp only [Action.avoids, bne_iff_ne, ne_eq, UInt64.ext_iff, hmax] at ha
      simp only [UInt64.size] at this
      omega
    exact .logIterator hh (logLists_logCursor w.db hlog hp)
  | next j =>
    simp only [World.step, Option.map_eq_some'] at hs
    obtain ⟨c, hj, rfl⟩ := hs
    have hj' : w.view.cursors[j]? = some c.view := by simp [World.view, hj]
    have hv := (Cursor.next_view (hi.cursorShape c (List.getElem?_mem hj))).2
    have : (c.next.map fun c' => { w with cursors := w.cursors.set j c' }).map World.view =
        (c.next.map Cursor.view).map fun c' => { w.view with cursors := w.view.cursors.set j c' } := by
      cases c.next <;> simp [Except.map]
    rw [this, hv]
    convert Spec.Step.next hj' using 1
    cases c.view.next <;> rfl
  | dropIterator j =>
    simp only [World.step] at hs
    split at hs
    · next hj =>
      cases hs
      simp only [Except.map, World.view_eraseCursor]
      exact .dropIterator (by simpa [World.view] using hj)
    · cases hs
  | set i k v =>
    simp only [World.step, Option.map_eq_some'] at hs
    obtain ⟨h, hh, rfl⟩ := hs
    by_cases hk : k.length ≤ 510
    · simp only [Storage.set_eq v hk, Except.map, World.view_withDb, abstraction_write]
      exact .set hh hk
    · simp only [Storage.set_long v (Nat.lt_of_not_le hk), Except.map]
      exact .setLong hh (Nat.lt_of_not_le hk)
  | del i k =>
    simp only [World.step, Option.map_eq_some'] at hs
    obtain ⟨h, hh, rfl⟩ := hs
    by_cases hk : k.length ≤ 510
    · simp only [Storage.del_eq hk, Except.map, World.view_withDb, abstraction_write]
      exact .del hh hk
    · simp only [Storage.del_long (Nat.lt_of_not_le hk), Except.map]
      exact .delLong hh (Nat.lt_of_not_le hk)
  | batchWrite i i' ops =>
    simp only [World.step, Option.bind_eq_some, Option.map_eq_some'] at hs
    obtain ⟨h, hh, h', hh', rfl⟩ := hs
    by_cases hops : ∀ op ∈ ops, op.keyFits
    · simp only [StorageBatch.pushAll_eq hops, Except.map, World.view_withDb, Storage.batchWrite,
        Storage.batchNew, List.nil_append, abstraction_write]
      exact .batchWrite hh hh' hops
    · have hlong : ∃ op ∈ ops, op.keyFits = false := by
        simpa only [not_forall, Classical.not_imp, Bool.not_eq_true, exists_prop] using hops
      simp only [StorageBatch.pushAll_long hlong, Except.map]
      exact .batchLong hh hh' hlong
  | clear i dropped =>
    simp only [World.step, Option.map_eq_some'] at hs
    obtain ⟨h, hh, rfl⟩ := hs
    simp only [Action.avoids, hh, Option.all_some, Bool.and_eq_true, bne_iff_ne, ne_eq,
      Bool.not_eq_true'] at ha
    rw [World.strongCount_eq hi (List.getElem?_mem hh)]
    by_cases hp : w.view.pending h.iteratorsHandle = 0
    · have hc := Storage.clear_eq_ok h w.db dropped
      have hn : h.num.toNat + 1 < 2 ^ 16 := by
        have := h.num.toNat_lt_size
        rw [UInt16.ext_iff] at ha
        simp only [UInt16.size] at this
        exact lt_of_le_of_ne this (by simpa using ha.1)
      rw [hp, Nat.add_zero]
      simp only [hc, Except.map, World.view_withDb]
      rw [abstraction_clear hc hn ha.2]
      exact .clear hh hp
    · have hc : 1 + w.view.pending h.iteratorsHandle ≠ 1 := by omega
      simp only [Storage.clear_pending h w.db dropped hc, Except.map, Nat.add_sub_cancel_left]
      exact .clearPending hh hp
  | dropHandle i =>
    simp only [World.step, Option.map_eq_some'] at hs
    obtain ⟨h, hh, rfl⟩ := hs
    rw [World.strongCount_eq hi (List.getElem?_mem hh)]
    by_cases hp : w.view.pending h.iteratorsHandle = 0
    · simp only [hp, checkPendingIters, Nat.add_zero, if_true, Except.map]
      exact .dropHandle hh hp
    · have hc : 1 + w.view.pending h.iteratorsHandle ≠ 1 := by omega
      simp only [checkPendingIters, if_neg hc, Except.map, Nat.add_sub_cancel_left]
      exact .dropPending hh hp
  | fifoCompaction dropped =>
    cases hs
    simp only [Except.map, World.view_withDb, abstraction_fifoCompaction]
    exact .fifoCompaction dropped

theorem World.avoids_cons {a : Action} {as : List Action} (ha : w.avoids (a :: as) = true) :
    a.avoids w = true ∧ ∀ w', w.step a = some (.ok w') → w'.avoids as = true := by
  simp only [World.avoids, Bool.and_eq_true] at ha
  refine ⟨ha.1, fun w' hs => ?_⟩
  simpa [hs] using ha.2

/-- Along a run that keeps away from the departures, the views make a run of `Spec`. -/
theorem World.view_run : ∀ {w : World} {as : List Action} {r : Except Panic World}, Inv w →
    w.avoids as = true → w.run as = some r → w.view.Runs as (r.map World.view)
  | w, [], r, _, _, hr => by cases hr; exact .nil _
  | w, a :: as, r, hi, ha, hr => by
    obtain ⟨ha₁, ha₂⟩ := World.avoids_cons ha
    cases hs : w.step a with
    | none => simp [World.run, hs] at hr
    | some r₁ =>
      have hstep := World.view_step hi ha₁ hs
      cases r₁ with
      | error e =>
        simp only [World.run, hs, Option.some_bind, Option.some.injEq] at hr
        subst hr
        exact .panic hstep
      | ok w₁ =>
        simp only [World.run, hs, Option.some_bind] at hr
        exact .step hstep (view_run (hi.step hs) (ha₂ w₁ hs) hr)

end

/-- **Refinement.** Every run of calls from a fresh manager that keeps away from the
departures is, on the views, a run of `Spec` with the same panics; and in the world it
reaches, each live iterator's next call returns what the call on its view returns. -/
theorem run_refines {as : List Action} (havoid : World.init.avoids as = true)
    {r : Except Panic World} (hr : World.init.run as = some r) :
    Spec.init.Runs as (r.map World.view) ∧
      ∀ w, r = .ok w → ∀ c ∈ w.cursors, c.reply = c.view.next.map (·.1) := by
  refine ⟨World.view_init ▸ World.view_run inv_init havoid hr, ?_⟩
  rintro w rfl c hc
  exact (Cursor.next_view ((inv_of_reachable (reachable_run .init hr)).cursorShape c hc)).1

/-- Two handles, of namespaces 1 and 2; a `set`, and a batch built on the second handle and
written through the first; both iterators, with a call of `next` each; then the iterators
are dropped, namespace 1 is cleared, a FIFO compaction drops the log entry, and the second
handle is dropped. -/
def sampleRun : List Action :=
  [.openHandle 1, .openHandle 2, .set 0 [7] [1],
    .batchWrite 1 0 [.set [8] [2], .logSet (1, 1) [3], .del [8]],
    .iterator 0, .next 0, .logIterator 1 1 0, .next 1, .dropIterator 0, .dropIterator 0,
    .clear 0 fun _ _ => false, .fifoCompaction fun k => k == buildLogKey 2 (1, 1), .dropHandle 1]

def sampleEnd : Except Panic World := (World.init.run sampleRun).getD (.error .unreachable)

theorem run_refines_sampleRun :
    World.init.avoids sampleRun = true ∧ World.init.run sampleRun = some sampleEnd ∧
      Spec.init.Runs sampleRun (sampleEnd.map World.view) ∧
      ∀ w, sampleEnd = .ok w → ∀ c ∈ w.cursors, c.reply = c.view.next.map (·.1) :=
  ⟨rfl, rfl, @run_refines sampleRun rfl _ rfl⟩

end Sucredb
