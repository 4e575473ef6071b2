import Sucredb.Refinement

/-!
# What the iterators yield

Both storage iterators move an engine cursor the same way: the first call of
`next` reads where `seek` left it, every later call calls the engine's `next` first.
`DBIter.pending` is what the later calls read: the entries from the next position on
that the read options admit, then `None`. Once a call has returned `None` the engine
iterator is not valid, and the next call faults (`DBIter.call_pending`). A caller may
take any number of `iter()` views and call `next` any number of times on each: the
views borrow the iterator, so only the total count matters (`StorageIterator.drive_eq`).

`iterator_yields` characterises the main iterator on every state. The log
iterator yields the range `(p, s..)` for every `p` below `u64::MAX`
(`logIterator_yields`); at `u64::MAX` the upper bound `prefix + 1` wraps to 0 and
nothing is yielded, though the state may hold entries of that prefix
(`logIterator_max_skips_entry`).
-/

namespace Sucredb

/-! ## Pending items -/

def popPending {α : Type} : Option (List α) → Except Panic (Option α × Option (List α))
  | some (x :: xs) => .ok (some x, some xs)
  | some [] => .ok (none, none)
  | none => .error .invalidNext

def popPendingN {α : Type} : Nat → Option (List α) → Except Panic (List (Option α))
  | 0, _ => .ok []
  | n + 1, p => (popPending p).bind fun r => (popPendingN n r.2).map (r.1 :: ·)

theorem popPendingN_none {α : Type} (n : Nat) :
    popPendingN n (none : Option (List α)) = if n = 0 then .ok [] else .error .invalidNext := by
  cases n <;> rfl

theorem popPendingN_some {α : Type} (l : List α) (n : Nat) :
    popPendingN n (some l) =
      if n ≤ l.length + 1 then .ok ((l.map some ++ [none]).take n) else .error .invalidNext := by
  induction l generalizing n with
  | nil => rcases n with _ | _ | n <;> rfl
  | cons x xs ih =>
    cases n with
    | zero => rfl
    | succ n =>
      rw [popPendingN, popPending, Except.bind, ih]
      simp only [List.length_cons, Nat.add_le_add_iff_right]
      split <;> rfl

theorem popPendingN_error {α : Type} {e : Panic} :
    ∀ {n : Nat} {p : Option (List α)}, popPendingN n p = .error e → e = .invalidNext := by
  rintro n (_ | l) h
  · rw [popPendingN_none] at h
    split at h <;> cases h
    rfl
  · rw [popPendingN_some] at h
    split at h <;> cases h
    rfl

namespace DBIter

def current (it : DBIter) : Option (Bytes × Bytes) :=
  match it.rest with
  | [] => none
  | e :: _ => if it.inBounds e.1 then some e else none

def run (it : DBIter) : List (Bytes × Bytes) := it.rest.takeWhile (fun e => it.inBounds e.1)

def call (it : DBIter) (first : Bool) : Except Panic (Option (Bytes × Bytes) × DBIter) := do
  let it ← if first then pure it else it.next
  pure (it.current, it)

def pending (it : DBIter) (first : Bool) : Option (List (Bytes × Bytes)) :=
  if first then some it.run else if it.valid then some it.run.tail else none

theorem current_eq_head_run (it : DBIter) : it.current = it.run.head? := by
  unfold current run
  cases it.rest with
  | nil => rfl
  | cons e l => by_cases he : it.inBounds e.1 <;> simp [List.takeWhile_cons, he]

theorem valid_eq_isSome_current (it : DBIter) : it.valid = it.current.isSome := by
  unfold valid current
  cases it.rest with
  | nil => rfl
  | cons e l => by_cases he : it.inBounds e.1 <;> simp [he]

theorem popPending_run (it : DBIter) :
    popPending (some it.run) = .ok (it.current, it.pending false) := by
  simp only [pending, valid_eq_isSome_current, current_eq_head_run, if_false]
  cases it.run <;> rfl

theorem next_eq_ok {it it' : DBIter} (h : it.next = .ok it') :
    it.valid ∧ it' = { it with rest := it.rest.tail } := by
  unfold next at h
  split at h
  · cases h
    exact ⟨‹_›, rfl⟩
  · cases h

theorem run_tail {it : DBIter} (hv : it.valid) :
    ({ it with rest := it.rest.tail } : DBIter).run = it.run.tail := by
  unfold valid at hv
  unfold run
  split at hv
  · cases hv
  · next e l hr => simp [hr, List.takeWhile_cons, hv]

theorem call_pending (it : DBIter) (first : Bool) :
    (it.call first).map (fun r => (r.1, r.2.pending false)) = popPending (it.pending first) := by
  cases first
  · by_cases hv : it.valid
    · rw [pending, if_neg Bool.false_ne_true, if_pos hv, ← run_tail hv, popPending_run]
      simp only [call, next, hv, if_true]
      rfl
    · simp only [call, pending, next, hv, Bool.false_eq_true, if_false]
      rfl
  · rw [pending, if_pos rfl, popPending_run]
    rfl

theorem call_ok {it it' : DBIter} {first : Bool} {x : Option (Bytes × Bytes)}
    (h : it.call first = .ok (x, it')) : x = it'.current ∧ ∀ e ∈ it'.rest, e ∈ it.rest := by
  cases first
  · cases hn : it.next with
    | error => simp [call, hn] at h
    | ok it₁ =>
      simp only [call, hn] at h
      cases h
      rw [(next_eq_ok hn).2]
      exact ⟨rfl, fun e he => List.mem_of_mem_tail he⟩
  · cases h
    exact ⟨rfl, fun e he => he⟩

theorem next_error {it : DBIter} {e : Panic} (h : it.next = .error e) : e = .invalidNext := by
  unfold next at h
  split at h <;> cases h
  rfl

theorem call_error {it : DBIter} {first : Bool} {e : Panic} (h : it.call first = .error e) :
    e = .invalidNext := by
  cases first
  · cases hn : it.next with
    | error e' =>
      simp only [call, hn] at h
      cases h
      exact next_error hn
    | ok it' => simp [call, hn] at h
  · cases h

theorem rest_seek_eq {it : DBIter} {t : Bytes} (hs : Sorted it.snapshot) :
    (it.seek t).rest = it.snapshot.filter (fun e => t ≤ e.1) := by
  show it.snapshot.dropWhile (·.1 < t) = _
  rw [dropWhile_eq_filter hs fun x _ y _ hyx hx => by simpa using lt_trans hyx (by simpa using hx)]
  congr 1
  funext e
  simp only [← decide_not, not_lt]

theorem run_seek {it : DBIter} {t : Bytes} (hs : Sorted it.snapshot)
    (hP : ∀ x ∈ it.snapshot, ∀ y ∈ it.snapshot, t ≤ y.1 → y.1 < x.1 →
      (it.seek t).inBounds x.1 → (it.seek t).inBounds y.1) :
    (it.seek t).run = it.snapshot.filter (fun e => t ≤ e.1 && (it.seek t).inBounds e.1) := by
  rw [run, rest_seek_eq hs, takeWhile_eq_filter (hs.filter _), List.filter_filter]
  · simp [Bool.and_comm]
  · intro x hx y hy hyx
    simp only [List.mem_filter, decide_eq_true_eq] at hx hy
    exact hP x hx.1 y hy.1 hy.2 hyx

end DBIter

/-! ## Calls of `next` through views -/

def stripPrefix (e : Bytes × Bytes) : Bytes × Bytes := (e.1.drop 2, e.2)

theorem DBIter.valid_read {α σ : Type} (it : DBIter) (f : Bytes × Bytes → α) (s : σ) :
    (if it.valid then pure (some (f (it.key, it.value)), s) else pure (none, s) :
      Except Panic (Option α × σ)) = .ok (it.current.map f, s) := by
  unfold valid current key value
  cases it.rest with
  | nil => rfl
  | cons e l => by_cases he : it.inBounds e.1 <;> simp [he] <;> rfl

theorem StorageIter.next_eq (v : StorageIter) :
    v.next = (v.it.iterator.call v.it.first).map fun r =>
      (r.1.map stripPrefix, ⟨{ v.it with iterator := r.2, first := false }⟩) := by
  obtain ⟨⟨it, hnd, first⟩⟩ := v
  cases first
  · cases hn : it.next with
    | error e => simp only [next, DBIter.call, hn]; rfl
    | ok it' =>
      simp only [next, DBIter.call, hn]
      exact DBIter.valid_read it' stripPrefix _
  · exact DBIter.valid_read it stripPrefix _

/-- A caller that takes an `iter()` view for each count in `counts` and calls `next` that
many times on it; the items, in order. -/
def StorageIterator.drive :
    List Nat → StorageIterator → Except Panic (List (Option (Bytes × Bytes)))
  | [], _ => .ok []
  | 0 :: cs, it => drive cs it
  | (c + 1) :: cs, it => do
    let (r, v) ← it.iter.next
    let rs ← drive (c :: cs) v.it
    pure (r :: rs)
termination_by cs => cs.sum + cs.length
decreasing_by all_goals simp only [List.sum_cons, List.length_cons]; omega

/-- The views borrow the iterator, so the `first` flag persists across them: a caller
pops the total number of calls from what is pending. -/
theorem StorageIterator.drive_eq (cs : List Nat) (it : StorageIterator) :
    it.drive cs = (popPendingN cs.sum (it.iterator.pending it.first)).map
      (List.map (Option.map stripPrefix)) := by
  induction cs, it using StorageIterator.drive.induct with
  | case1 it => rw [drive]; rfl
  | case2 cs it ih => rw [drive, ih, List.sum_cons, Nat.zero_add]
  | case3 c cs it ih =>
    rw [drive, StorageIterator.iter, StorageIter.next_eq, List.sum_cons,
      show c + 1 + cs.sum = c + cs.sum + 1 by omega, popPendingN, ← DBIter.call_pending]
    dsimp only
    cases it.iterator.call it.first with
    | error e => rfl
    | ok r =>
      simp only [Except.map, bind, Except.bind]
      rw [ih, List.sum_cons]
      cases popPendingN (c + cs.sum) (r.2.pending false) <;> rfl

def decodeLogEntry (e : Bytes × Bytes) : (UInt64 × UInt64) × Bytes := (readLogKey e.1, e.2)

def readLogEntry : Option (Bytes × Bytes) → Except Panic (Option ((UInt64 × UInt64) × Bytes))
  | none => .ok none
  | some e => if e.1.length = 2 + 8 + 8 then .ok (some (decodeLogEntry e)) else .error .logKeyLength

theorem DBIter.mem_rest_of_current {it : DBIter} {e : Bytes × Bytes} (h : it.current = some e) :
    e ∈ it.rest := by
  unfold current at h
  split at h
  · cases h
  · simp_all

theorem DBIter.valid_readLog {σ : Type} (it : DBIter) (s : σ) :
    (if it.valid then
      if it.key.length = 2 + 8 + 8 then pure (some (readLogKey it.key, it.value), s)
      else throw .logKeyLength
    else pure (none, s) : Except Panic _) = (readLogEntry it.current).map (·, s) := by
  unfold valid current key value
  cases it.rest with
  | nil => rfl
  | cons e l =>
    by_cases he : it.inBounds e.1
    · by_cases hl : e.1.length = 2 + 8 + 8 <;> simp [he, hl, readLogEntry, decodeLogEntry] <;> rfl
    · simp [he]; rfl

theorem LogStorageIter.next_eq (v : LogStorageIter) :
    v.next = (v.it.iterator.call v.it.first).bind fun r =>
      (readLogEntry r.1).map (·, ⟨{ v.it with iterator := r.2, first := false }⟩) := by
  obtain ⟨⟨it, hnd, first⟩⟩ := v
  cases first
  · cases hn : it.next with
    | error e => simp only [next, DBIter.call, hn]; rfl
    | ok it' =>
      simp only [next, DBIter.call, hn]
      exact DBIter.valid_readLog it' _
  · exact DBIter.valid_readLog it _

theorem LogStorageIter.next_ok (v : LogStorageIter)
    (hk : ∀ e ∈ v.it.iterator.rest, e.1.length = 18) :
    v.next = (v.it.iterator.call v.it.first).map fun r =>
      (r.1.map decodeLogEntry, ⟨{ v.it with iterator := r.2, first := false }⟩) := by
  rw [next_eq]
  cases hc : v.it.iterator.call v.it.first with
  | error e => rfl
  | ok r =>
    obtain ⟨hx, hr⟩ := DBIter.call_ok hc
    cases hx' : r.1 with
    | none => simp [Except.bind, hx', readLogEntry, Except.map]
    | some e =>
      have := hk e (hr e (DBIter.mem_rest_of_current (hx ▸ hx')))
      simp [Except.bind, hx', readLogEntry, this, Except.map]

/-- The log-iterator caller: one `iter()` view per count, that many calls on each. -/
def LogStorageIterator.drive :
    List Nat → LogStorageIterator → Except Panic (List (Option ((UInt64 × UInt64) × Bytes)))
  | [], _ => .ok []
  | 0 :: cs, it => drive cs it
  | (c + 1) :: cs, it => do
    let (r, v) ← it.iter.next
    let rs ← drive (c :: cs) v.it
    pure (r :: rs)
termination_by cs => cs.sum + cs.length
decreasing_by all_goals simp only [List.sum_cons, List.length_cons]; omega

/-- Where every entry from the cursor on has an 18-byte key, the calls pop what is pending. -/
theorem LogStorageIterator.drive_eq (cs : List Nat) (it : LogStorageIterator)
    (hk : ∀ e ∈ it.iterator.rest, e.1.length = 18) :
    it.drive cs = (popPendingN cs.sum (it.iterator.pending it.first)).map
      (List.map (Option.map decodeLogEntry)) := by
  induction cs, it using LogStorageIterator.drive.induct with
  | case1 it => rw [drive]; rfl
  | case2 cs it ih => rw [drive, ih hk, List.sum_cons, Nat.zero_add]
  | case3 c cs it ih =>
    rw [drive, LogStorageIterator.iter, LogStorageIter.next_ok _ hk, List.sum_cons,
      show c + 1 + cs.sum = c + cs.sum + 1 by omega, popPendingN, ← DBIter.call_pending]
    dsimp only
    cases hc : it.iterator.call it.first with
    | error e => rfl
    | ok r =>
      simp only [Except.map, bind, Except.bind]
      rw [ih _ fun e he => hk e ((DBIter.call_ok hc).2 e he), List.sum_cons]
      cases popPendingN (c + cs.sum) (r.2.pending false) <;> rfl

/-! ## The main iterator -/

@[simp] theorem take_two_writeU16 (n : UInt16) : (writeU16 n).take 2 = writeU16 n :=
  List.take_of_length_le (by simp)

theorem take_two_eq_iff {k : Bytes} {n : UInt16} :
    k.take 2 = writeU16 n ↔ k = writeU16 n ++ k.drop 2 :=
  ⟨fun h => by rw [← h, List.take_append_drop], fun h => by rw [h]; simp⟩

theorem take_two_of_between {n : UInt16} {x y : Bytes} (hy : writeU16 n ≤ y) (hyx : y < x)
    (hx : x.take 2 = writeU16 n) : y.take 2 = writeU16 n := by
  rw [take_two_eq_iff.mp hx] at hyx
  have hp := prefix_of_between (a := []) (by simpa using hy) hyx
  rw [List.prefix_iff_eq_take, length_writeU16] at hp
  exact hp.symm

section
variable (db : DB) (h : Storage)

def mainCursor (n : UInt16) : DBIter :=
  (db.iterCfOpt .default { prefixSameAsStart := true }).seek (writeU16 n)

theorem Storage.iterator_eq :
    h.iterator db = .ok ⟨mainCursor db h.num, h.iteratorsHandle, true⟩ := by
  simp [Storage.iterator, buildKey_ok, mainCursor]

theorem mainCursor_inBounds (n : UInt16) (k : Bytes) :
    (mainCursor db n).inBounds k = decide (k.take 2 = writeU16 n) := by
  simp [mainCursor, DBIter.inBounds, DB.iterCfOpt, DBIter.seek, prefixExtractor,
    U16BeSuffixTransform.transform]

theorem mainCursor_inBounds_of_between {n : UInt16} {x y : Bytes} (hy : writeU16 n ≤ y)
    (hyx : y < x) (hx : (mainCursor db n).inBounds x) : (mainCursor db n).inBounds y := by
  simp only [mainCursor_inBounds, decide_eq_true_eq] at hx ⊢
  exact take_two_of_between hy hyx hx

theorem mainCursor_run (n : UInt16) :
    (mainCursor db n).run = db.default.entries.filter (fun e => e.1.take 2 = writeU16 n) := by
  rw [mainCursor, DBIter.run_seek db.default.sorted fun _ _ _ _ =>
    mainCursor_inBounds_of_between db, ← mainCursor]
  congr 1
  funext e
  simp only [mainCursor_inBounds, Bool.and_iff_right_iff_imp, decide_eq_true_eq]
  intro he
  rw [take_two_eq_iff.mp he]
  exact le_append_right _ _

theorem lists_mainCursor (n : UInt16) :
    Lists (abstraction db n).main ((mainCursor db n).run.map stripPrefix) := by
  refine ⟨?_, fun k v => ?_⟩
  · rw [mainCursor_run, List.pairwise_map]
    refine (db.default.sorted.filter _).imp_of_mem fun ha hb hab => ?_
    simp only [List.mem_filter, decide_eq_true_eq] at ha hb
    rw [take_two_eq_iff.mp ha.2, take_two_eq_iff.mp hb.2, append_lt_append_left_iff] at hab
    exact hab
  · simp only [mainCursor_run, List.mem_map, List.mem_filter, decide_eq_true_eq, abstraction,
      DB.getCf, DB.cf, ← Cf.mem_entries_iff]
    constructor
    · rintro ⟨⟨ek, ev⟩, ⟨he, hp⟩, hs⟩
      simp only [stripPrefix, Prod.mk.injEq] at hs
      rwa [← hs.1, ← hs.2, ← take_two_eq_iff.mp hp]
    · intro hk
      exact ⟨_, ⟨hk, by simp⟩, by simp [stripPrefix]⟩

theorem mainIterator_drive (n : UInt16) (a : Nat) (cs : List Nat) :
    (⟨mainCursor db n, a, true⟩ : StorageIterator).drive cs =
      if cs.sum ≤ (mainCursor db n).run.length + 1
      then .ok ((((mainCursor db n).run.map stripPrefix).map some ++ [none]).take cs.sum)
      else .error .invalidNext := by
  rw [StorageIterator.drive_eq, DBIter.pending, if_pos rfl, popPendingN_some]
  by_cases hc : cs.sum ≤ (mainCursor db n).run.length + 1 <;> simp [hc, Except.map, List.map_take]

/-- **Main iteration.** On every engine state, `iterator()` on a handle of namespace `n`
yields, through any views and any number of calls up to the first `None`, the pairs
`(k, M n k)` for every key of `M n`'s domain, each once, in strictly ascending order of
`k`, the prefix stripped. -/
theorem iterator_yields :
    ∃ (it : StorageIterator) (ys : List (Bytes × Bytes)), h.iterator db = .ok it ∧
      (∀ cs : List Nat, cs.sum ≤ ys.length + 1 →
        it.drive cs = .ok ((ys.map some ++ [none]).take cs.sum)) ∧
      ys.Pairwise (fun a b => a.1 < b.1) ∧
      ∀ k v, (k, v) ∈ ys ↔ (abstraction db h.num).main k = some v := by
  refine ⟨_, _, Storage.iterator_eq db h, fun cs hcs => ?_, lists_mainCursor db h.num⟩
  rw [mainIterator_drive, if_pos (by simpa using hcs)]

end

/-! ## The log iterator -/

theorem buildLogKey_lt_buildLogPrefix {n n' : UInt16} {p p' s' : UInt64} :
    buildLogKey n' (p', s') < buildLogPrefix n p ↔ n' < n ∨ n' = n ∧ p' < p := by
  rw [buildLogKey, buildLogPrefix, ← List.append_nil (writeU16 n ++ writeU64 p),
    append_lt_append_iff (by simp), append_lt_append_iff (by simp), writeU16_lt_writeU16,
    writeU16_inj, writeU64_lt_writeU64, append_inj_iff (by simp), writeU16_inj, writeU64_inj]
  simp [List.Lex.not_nil_right]

theorem logKey_mem_range {n n' : UInt16} {p p' s s' : UInt64} (hp : p.toNat + 1 < 2 ^ 64) :
    (buildLogKey n (p, s) ≤ buildLogKey n' (p', s') ∧
      buildLogKey n' (p', s') < buildLogPrefix n (p + 1)) ↔ n' = n ∧ p' = p ∧ s ≤ s' := by
  rw [← not_lt, buildLogKey_lt_buildLogKey, buildLogKey_lt_buildLogPrefix]
  simp only [UInt16.lt_iff_toNat_lt, UInt64.lt_iff_toNat_lt, UInt16.ext_iff,
    UInt64.ext_iff, UInt64.le_iff_toNat_le, UInt64.toNat_add_one, Nat.mod_eq_of_lt hp]
  omega

section
variable (db : DB) (h : Storage)

def logCursor (n : UInt16) (pre start : UInt64) : DBIter :=
  (db.iterCfOpt .log { iterateUpperBound := some (buildLogPrefix n (pre + 1)) }).seek
    (buildLogKey n (pre, start))

theorem Storage.logIterator_eq (pre start : UInt64) :
    h.logIterator db pre start = ⟨logCursor db h.num pre start, h.iteratorsHandle, true⟩ := rfl

theorem logCursor_inBounds (n : UInt16) (pre start : UInt64) (k : Bytes) :
    (logCursor db n pre start).inBounds k = decide (k < buildLogPrefix n (pre + 1)) := by
  simp [logCursor, DBIter.inBounds, DB.iterCfOpt, DBIter.seek, prefixExtractor]

theorem logCursor_inBounds_of_lt {n : UInt16} {pre start : UInt64} {x y : Bytes} (hyx : y < x)
    (hx : (logCursor db n pre start).inBounds x) : (logCursor db n pre start).inBounds y := by
  simp only [logCursor_inBounds, decide_eq_true_eq] at hx ⊢
  exact lt_trans hyx hx

theorem logCursor_run (n : UInt16) (pre start : UInt64) :
    (logCursor db n pre start).run = db.log.entries.filter
      (fun e => buildLogKey n (pre, start) ≤ e.1 && e.1 < buildLogPrefix n (pre + 1)) := by
  rw [logCursor, DBIter.run_seek db.log.sorted fun _ _ _ _ _ =>
    logCursor_inBounds_of_lt db, ← logCursor]
  simp [logCursor_inBounds, DB.iterCfOpt, DBIter.seek, DB.cf]

theorem mem_logCursor_run (hlog : ∀ e ∈ db.log.entries, e.1.length = 18) {n : UInt16}
    {pre start : UInt64} (hp : pre.toNat + 1 < 2 ^ 64) {e : Bytes × Bytes} :
    e ∈ (logCursor db n pre start).run ↔
      e ∈ db.log.entries ∧ ∃ s', start ≤ s' ∧ e.1 = buildLogKey n (pre, s') := by
  rw [logCursor_run, List.mem_filter, and_congr_right_iff]
  intro he
  obtain ⟨n', p', s', hk⟩ : ∃ n' p' s', e.1 = buildLogKey n' (p', s') :=
    ⟨_, _, _, (buildLogKey_readLogKey (hlog e he)).symm⟩
  simp only [Bool.and_eq_true, decide_eq_true_eq, hk, logKey_mem_range hp, buildLogKey_inj,
    Prod.mk.injEq]
  constructor
  · rintro ⟨rfl, rfl, hs⟩
    exact ⟨s', hs, rfl, rfl, rfl⟩
  · rintro ⟨s'', hs, rfl, rfl, rfl⟩
    exact ⟨rfl, rfl, hs⟩

theorem logLists_logCursor (hlog : ∀ e ∈ db.log.entries, e.1.length = 18) {n : UInt16}
    {pre start : UInt64} (hp : pre.toNat + 1 < 2 ^ 64) :
    LogLists (abstraction db n).log pre start
      ((logCursor db n pre start).run.map decodeLogEntry) := by
  have hrun := fun e => @mem_logCursor_run db hlog n pre start hp e
  refine ⟨?_, ?_⟩
  · have hs : Sorted (logCursor db n pre start).run := by
      rw [logCursor_run]; exact db.log.sorted.filter _
    rw [List.pairwise_map]
    refine hs.imp_of_mem fun ha hb hab => ?_
    obtain ⟨-, sa, -, hka⟩ := (hrun _).mp ha
    obtain ⟨-, sb, -, hkb⟩ := (hrun _).mp hb
    rw [hka, hkb, buildLogKey_lt_buildLogKey] at hab
    simpa [decodeLogEntry, hka, hkb] using hab
  · rintro ⟨p0, s0⟩ v
    constructor
    · intro hm
      obtain ⟨e, he, hde⟩ := List.mem_map.mp hm
      obtain ⟨hmem, s', hs', hk⟩ := (hrun e).mp he
      simp only [decodeLogEntry, hk, readLogKey_buildLogKey, Prod.mk.injEq] at hde
      obtain ⟨⟨rfl, rfl⟩, rfl⟩ := hde
      exact ⟨rfl, hs', Cf.mem_entries_iff.mp (hk ▸ hmem)⟩
    · rintro ⟨rfl, hs', hv⟩
      exact List.mem_map.mpr ⟨(buildLogKey n (p0, s0), v),
        (hrun _).mpr ⟨Cf.mem_entries_iff.mpr hv, s0, hs', rfl⟩, by simp [decodeLogEntry]⟩

/-- Below `u64::MAX`, on every state whose log keys are 18 bytes long, `log_iterator(p, s)`
on a handle of namespace `n` yields, through any views and calls up to the first `None`,
the entries `((p, s'), L n (p, s'))` for every `s' ≥ s` where `L n` is defined, each once, in
ascending `s'`. -/
theorem logIterator_yields (hlog : ∀ e ∈ db.log.entries, e.1.length = 18) (pre start : UInt64)
    (hp : pre.toNat + 1 < 2 ^ 64) :
    ∃ ys : List ((UInt64 × UInt64) × Bytes),
      (∀ cs : List Nat, cs.sum ≤ ys.length + 1 →
        (h.logIterator db pre start).drive cs = .ok ((ys.map some ++ [none]).take cs.sum)) ∧
      ys.Pairwise (fun a b => a.1.2 < b.1.2) ∧
      ∀ pk v, (pk, v) ∈ ys ↔ pk.1 = pre ∧ start ≤ pk.2 ∧ (abstraction db h.num).log pk = some v := by
  refine ⟨_, fun cs hcs => ?_, logLists_logCursor db hlog hp⟩
  rw [Storage.logIterator_eq, LogStorageIterator.drive_eq _ _ fun e he =>
    hlog e ((List.dropWhile_sublist _).subset he), DBIter.pending, if_pos rfl, popPendingN_some,
    if_pos (by simpa using hcs)]
  simp [Except.map, List.map_take]

def oneLogEntry : DB := DB.empty.write [.put .log (buildLogKey 0 (1, 1)) [3]]

theorem logIterator_yields_oneLogEntry :
    (∀ e ∈ oneLogEntry.log.entries, e.1.length = 18) ∧ (1 : UInt64).toNat + 1 < 2 ^ 64 ∧
      ∃ ys : List ((UInt64 × UInt64) × Bytes),
        (∀ cs : List Nat, cs.sum ≤ ys.length + 1 →
          ((⟨0, 0⟩ : Storage).logIterator oneLogEntry 1 0).drive cs =
            .ok ((ys.map some ++ [none]).take cs.sum)) ∧
        ys.Pairwise (fun a b => a.1.2 < b.1.2) ∧
        ∀ pk v, (pk, v) ∈ ys ↔
          pk.1 = 1 ∧ 0 ≤ pk.2 ∧ (abstraction oneLogEntry (⟨0, 0⟩ : Storage).num).log pk = some v :=
  have hlog : ∀ e ∈ oneLogEntry.log.entries, e.1.length = 18 := by decide
  ⟨hlog, by decide, logIterator_yields oneLogEntry ⟨0, 0⟩ hlog 1 0 (by decide)⟩

theorem logCursor_max_run (n : UInt16) (start : UInt64) :
    (logCursor db n 0xFFFFFFFFFFFFFFFF start).run = [] := by
  have hub : ¬ buildLogKey n (0xFFFFFFFFFFFFFFFF, start) <
      buildLogPrefix n (0xFFFFFFFFFFFFFFFF + 1) := by
    rw [buildLogKey_lt_buildLogPrefix]
    rintro (hn | ⟨-, hp⟩)
    · exact UInt16.lt_irrefl n hn
    · exact absurd hp (by decide)
  rw [logCursor_run, List.filter_eq_nil_iff]
  intro e _ he
  simp only [Bool.and_eq_true, decide_eq_true_eq] at he
  exact hub (lt_of_le_of_lt he.1 he.2)

theorem logIterator_first_none {pre start : UInt64} (hr : (logCursor db h.num pre start).run = []) :
    (h.logIterator db pre start).iter.next =
      .ok (none, ⟨{ h.logIterator db pre start with first := false }⟩) := by
  have hc : (logCursor db h.num pre start).current = none := by
    rw [DBIter.current_eq_head_run, hr]
    rfl
  rw [LogStorageIter.next_eq]
  simp only [LogStorageIterator.iter, Storage.logIterator_eq, DBIter.call, if_true, pure_bind, hc]
  rfl

theorem logIterator_drive_first_none {pre start : UInt64}
    (hr : (logCursor db h.num pre start).run = []) :
    (h.logIterator db pre start).drive [1] = .ok [none] := by
  rw [LogStorageIterator.drive, logIterator_first_none db h hr]
  simp only [bind, Except.bind]
  rw [LogStorageIterator.drive, LogStorageIterator.drive]
  rfl

theorem logIterator_max_yields_nothing (start : UInt64) :
    (h.logIterator db 0xFFFFFFFFFFFFFFFF start).iter.next =
      .ok (none, ⟨{ h.logIterator db 0xFFFFFFFFFFFFFFFF start with first := false }⟩) :=
  logIterator_first_none db h (logCursor_max_run db h.num start)

end

/-- After a `log_set` of `(u64::MAX, 0)` in namespace 0, `L 0 (u64::MAX, 0)` is defined, yet
`log_iterator(u64::MAX, 0)` yields `None` at once. -/
theorem logIterator_max_skips_entry :
    (abstraction ((⟨0, 0⟩ : Storage).batchWrite DB.empty
      (((⟨0, 0⟩ : Storage).batchNew 0).logSet (0xFFFFFFFFFFFFFFFF, 0) [1])) 0).log
        (0xFFFFFFFFFFFFFFFF, 0) = some [1] ∧
    ((⟨0, 0⟩ : Storage).logIterator ((⟨0, 0⟩ : Storage).batchWrite DB.empty
      (((⟨0, 0⟩ : Storage).batchNew 0).logSet (0xFFFFFFFFFFFFFFFF, 0) [1]))
        0xFFFFFFFFFFFFFFFF 0).drive [1] = .ok [none] := by
  refine ⟨by decide, ?_⟩
  rw [LogStorageIterator.drive, logIterator_max_yields_nothing]
  simp only [bind, Except.bind]
  rw [LogStorageIterator.drive, LogStorageIterator.drive]
  rfl

end Sucredb
