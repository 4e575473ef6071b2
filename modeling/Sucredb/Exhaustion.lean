import Sucredb.Iteration

/-!
# Calls after the first `None`

`StorageIter::next` and `LogStorageIter::next` call the engine's `next` on every call but
the first, without checking `valid`. Once a call has returned `None` the engine iterator
is not valid, and RocksDB requires `Valid()` of `Next`, so the call after the first `None`
is undefined. Neither view is a `FusedIterator`, and `Iterator` allows that call. On every
state, through any views, a caller's calls fault exactly when they go past the first
`None` (`iterator_calls`, `logIterator_calls`); two calls on an empty namespace make such
a call (`iterator_next_after_none`).
-/

namespace Sucredb

section
variable (db : DB) (h : Storage)

/-- **Main iterator calls.** On every state, through any views, the calls of `next` on
`iterator()` return the pairs of `M n` and then `None`; a call after the first `None` calls
`Next` on an invalid engine iterator. -/
theorem iterator_calls (cs : List Nat) :
    ∃ it : StorageIterator, h.iterator db = .ok it ∧
      it.drive cs = if cs.sum ≤ (mainCursor db h.num).run.length + 1
        then .ok ((((mainCursor db h.num).run.map stripPrefix).map some ++ [none]).take cs.sum)
        else .error .invalidNext :=
  ⟨_, Storage.iterator_eq db h, mainIterator_drive db h.num h.iteratorsHandle cs⟩

/-- **Log iterator calls.** On every state whose log keys have 18 bytes, through any views,
the calls of `next` on `log_iterator(p, s)` return the decoded entries of its run and then
`None`; a call after the first `None` calls `Next` on an invalid engine iterator. -/
theorem logIterator_calls (hlog : ∀ e ∈ db.log.entries, e.1.length = 18) (pre start : UInt64)
    (cs : List Nat) :
    (h.logIterator db pre start).drive cs =
      if cs.sum ≤ (logCursor db h.num pre start).run.length + 1
      then .ok ((((logCursor db h.num pre start).run.map decodeLogEntry).map some ++ [none]).take
        cs.sum)
      else .error .invalidNext := by
  rw [Storage.logIterator_eq, LogStorageIterator.drive_eq _ _ fun e he =>
    hlog e ((List.dropWhile_sublist _).subset he), DBIter.pending, if_pos rfl, popPendingN_some]
  by_cases hc : cs.sum ≤ (logCursor db h.num pre start).run.length + 1 <;>
    simp [hc, Except.map, List.map_take]

theorem logIterator_calls_oneLogEntry :
    (∀ e ∈ oneLogEntry.log.entries, e.1.length = 18) ∧
      ((⟨0, 0⟩ : Storage).logIterator oneLogEntry 1 0).drive [1, 2] =
        if [1, 2].sum ≤ (logCursor oneLogEntry 0 1 0).run.length + 1
        then .ok ((((logCursor oneLogEntry 0 1 0).run.map decodeLogEntry).map some ++ [none]).take
          [1, 2].sum)
        else .error .invalidNext :=
  have hlog : ∀ e ∈ oneLogEntry.log.entries, e.1.length = 18 := by decide
  ⟨hlog, logIterator_calls oneLogEntry ⟨0, 0⟩ hlog 1 0 [1, 2]⟩

end

/-- On an empty store, two `iter()` views of `iterator()` with one call of `next` each: the
first call returns `None`, and the second calls `Next` on the invalid engine iterator. -/
theorem iterator_next_after_none :
    ∃ it : StorageIterator, (⟨0, 0⟩ : Storage).iterator DB.empty = .ok it ∧
      it.drive [1] = .ok [none] ∧ it.drive [1, 1] = .error .invalidNext :=
  ⟨_, Storage.iterator_eq DB.empty ⟨0, 0⟩, by rw [mainIterator_drive]; rfl,
    by rw [mainIterator_drive]; rfl⟩

end Sucredb
