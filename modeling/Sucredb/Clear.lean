import Sucredb.Iteration

/-!
# Clearing a namespace

`clear` on a handle of namespace `n` makes one pass over `default` and one over `log`:
`DeleteFilesInRange` over `[be16(n), be16(n + 1)]`, then the per-key deletes of an
iterator from `be16(n)` below `be16(n + 1)`. `getCf_clear_nsKey` says which keys of which
namespace a successful `clear` removes. Below `0xFFFF` that is every key of namespace `n`
(`clear_empties`) and, when the fast path drops its file, the key `be16(n + 1)`: the
empty user key of namespace `n + 1`, since the engine's range includes its end
(`clear_frame`, `clear_drops_next_empty_key`). At `0xFFFF`, `self.num + 1` wraps to 0,
the range is empty and nothing is removed (`clear_max_keeps_entries`). Whatever files the
fast path drops, the result differs from the per-key loop's at that one key alone
(`clear_fastPath_agrees`).
-/

namespace Sucredb

/-! ## One pass -/

def clearCursor (db : DB) (cf : CfName) (fromKey toKey : Bytes) : DBIter :=
  (db.iterCfOpt cf { prefixSameAsStart := true, iterateUpperBound := some toKey }).seek fromKey

theorem Storage.clearCf_eq (db : DB) (cf : CfName) (fromKey toKey : Bytes) (dropped : Bytes → Bool) :
    Storage.clearCf db cf fromKey toKey dropped =
      deleteWhileValid cf
        (clearCursor (db.deleteFileInRangeCf cf fromKey toKey dropped) cf fromKey toKey).inBounds
        (clearCursor (db.deleteFileInRangeCf cf fromKey toKey dropped) cf fromKey toKey).rest
        (db.deleteFileInRangeCf cf fromKey toKey dropped) := rfl

theorem getCf_deleteWhileValid_run (cf cf' : CfName) (it : DBIter) (db : DB) (k : Bytes) :
    (deleteWhileValid cf it.inBounds it.rest db).getCf cf' k =
      if cf' = cf ∧ k ∈ it.run.map Prod.fst then none else db.getCf cf' k :=
  getCf_deleteWhileValid cf cf' it.inBounds k it.rest db

section
variable (db : DB) (cf : CfName) (n : UInt16) (toKey : Bytes)

theorem clearCursor_inBounds (k : Bytes) :
    (clearCursor db cf (writeU16 n) toKey).inBounds k =
      decide ((cf = .log ∨ k.take 2 = writeU16 n) ∧ k < toKey) := by
  cases cf <;> simp [clearCursor, DBIter.inBounds, DB.iterCfOpt, DBIter.seek, prefixExtractor,
    U16BeSuffixTransform.transform]

theorem clearCursor_run : (clearCursor db cf (writeU16 n) toKey).run =
    (db.cf cf).entries.filter fun e =>
      writeU16 n ≤ e.1 && (clearCursor db cf (writeU16 n) toKey).inBounds e.1 := by
  refine DBIter.run_seek (db.cf cf).sorted fun x _ y _ hy hyx hx => ?_
  rw [← clearCursor, clearCursor_inBounds, decide_eq_true_eq] at hx ⊢
  exact ⟨hx.1.imp_right (take_two_of_between hy hyx), lt_trans hyx hx.2⟩

theorem mem_clearCursor_run {k : Bytes} :
    k ∈ (clearCursor db cf (writeU16 n) toKey).run.map Prod.fst ↔
      db.getCf cf k ≠ none ∧ writeU16 n ≤ k ∧ (cf = .log ∨ k.take 2 = writeU16 n) ∧ k < toKey := by
  simp only [clearCursor_run, List.mem_map, List.mem_filter, Prod.exists, exists_and_right,
    exists_eq_right, Cf.mem_entries_iff, DB.getCf, Option.ne_none_iff_exists', clearCursor_inBounds,
    Bool.and_eq_true, decide_eq_true_eq]

theorem getCf_clearCf (dropped : Bytes → Bool) (cf' : CfName) (k : Bytes) :
    (Storage.clearCf db cf (writeU16 n) toKey dropped).getCf cf' k =
      if cf' = cf ∧ writeU16 n ≤ k ∧
        (dropped k ∧ k ≤ toKey ∨ (cf = .log ∨ k.take 2 = writeU16 n) ∧ k < toKey)
      then none else db.getCf cf' k := by
  rw [Storage.clearCf_eq, getCf_deleteWhileValid_run]
  simp only [mem_clearCursor_run, DB.getCf_deleteFileInRangeCf]
  by_cases hc : cf' = cf
  · subst hc
    by_cases hd : dropped k ∧ writeU16 n ≤ k ∧ k ≤ toKey
    · simp [hd]
    · by_cases ha : writeU16 n ≤ k ∧ (cf' = .log ∨ k.take 2 = writeU16 n) ∧ k < toKey
      · simp [hd, ha]
      · have : ¬ (writeU16 n ≤ k ∧
            (dropped k ∧ k ≤ toKey ∨ (cf' = .log ∨ k.take 2 = writeU16 n) ∧ k < toKey)) := by
          rintro ⟨h1, ⟨h2, h3⟩ | ⟨h2, h3⟩⟩
          exacts [hd ⟨h2, h1, h3⟩, ha ⟨h1, h2, h3⟩]
        simp [hd, ha, this]
  · simp [hc]

end

/-! ## Keys of a namespace against the range bounds -/

theorem writeU16_le_mainKey {m n : UInt16} {k : Bytes} :
    writeU16 n ≤ writeU16 m ++ k ↔ n.toNat ≤ m.toNat := by
  rw [← not_lt, ← List.append_nil (writeU16 n), mainKey_lt_mainKey]
  simp [List.Lex.not_nil_right, UInt16.lt_iff_toNat_lt]

theorem mainKey_lt_writeU16 {m n : UInt16} {k : Bytes} :
    writeU16 m ++ k < writeU16 n ↔ m.toNat < n.toNat := by
  rw [← List.append_nil (writeU16 n), mainKey_lt_mainKey]
  simp [List.Lex.not_nil_right, UInt16.lt_iff_toNat_lt]

theorem mainKey_le_writeU16 {m n : UInt16} {k : Bytes} :
    writeU16 m ++ k ≤ writeU16 n ↔ m.toNat < n.toNat ∨ m.toNat = n.toNat ∧ k = [] := by
  rw [← not_lt, ← List.append_nil (writeU16 n), mainKey_lt_mainKey, UInt16.lt_iff_toNat_lt,
    UInt16.ext_iff]
  cases k with
  | nil => simp only [lt_irrefl, and_false, or_false, and_true]; omega
  | cons b k =>
    have : ([] : Bytes) < b :: k := List.Lex.nil
    simp only [this, List.cons_ne_nil, and_true, and_false, or_false]
    omega

theorem take_two_mainKey {m n : UInt16} {k : Bytes} :
    (writeU16 m ++ k).take 2 = writeU16 n ↔ m = n := by
  rw [List.take_left' (length_writeU16 m), writeU16_inj]

/-! ## The whole call -/

theorem Storage.clear_eq_ok (h : Storage) (db : DB) (dropped : CfName → Bytes → Bool) :
    h.clear db 1 dropped = .ok (Storage.clearCf
      (Storage.clearCf db .default (writeU16 h.num) (writeU16 (h.num + 1)) (dropped .default))
      .log (writeU16 h.num) (writeU16 (h.num + 1)) (dropped .log)) := rfl

theorem Storage.clear_pending (h : Storage) (db : DB) (dropped : CfName → Bytes → Bool) {c : Nat}
    (hc : c ≠ 1) : h.clear db c dropped = .error (.pendingIterators (c - 1)) := by
  simp [Storage.clear, checkPendingIters, hc]

section
variable {h : Storage} {db db' : DB} {c : Nat} {dropped : CfName → Bytes → Bool}

theorem getCf_clear (hc : h.clear db c dropped = .ok db') (cf : CfName) (k : Bytes) :
    db'.getCf cf k = if writeU16 h.num ≤ k ∧ (dropped cf k ∧ k ≤ writeU16 (h.num + 1) ∨
        (cf = .log ∨ k.take 2 = writeU16 h.num) ∧ k < writeU16 (h.num + 1))
      then none else db.getCf cf k := by
  by_cases h1 : c = 1
  · subst h1
    rw [Storage.clear_eq_ok] at hc
    cases hc
    cases cf <;> simp [getCf_clearCf]
  · rw [Storage.clear_pending _ _ _ h1] at hc
    cases hc

theorem getCf_clear_nsKey (hc : h.clear db c dropped = .ok db') (cf : CfName) (m : UInt16)
    (k : Bytes) : db'.getCf cf (writeU16 m ++ k) =
      if h.num.toNat + 1 < 2 ^ 16 ∧ (m = h.num ∨
        dropped cf (writeU16 m ++ k) ∧ m.toNat = h.num.toNat + 1 ∧ k = [])
      then none else db.getCf cf (writeU16 m ++ k) := by
  have hn : h.num.toNat < 2 ^ 16 := h.num.toNat_lt_size
  have hm : m.toNat < 2 ^ 16 := m.toNat_lt_size
  rw [getCf_clear hc]
  refine if_congr ?_ rfl rfl
  simp only [writeU16_le_mainKey, mainKey_le_writeU16, take_two_mainKey, mainKey_lt_writeU16,
    UInt16.toNat_add_one, UInt16.ext_iff]
  by_cases hk : k = [] <;> cases dropped cf (writeU16 m ++ k) <;> simp [hk] <;> omega

theorem getCf_clear_of_take_two (hc : h.clear db c dropped = .ok db')
    (hn : h.num.toNat + 1 < 2 ^ 16) (cf : CfName) {k : Bytes} (hk : k.take 2 = writeU16 h.num) :
    db'.getCf cf k = none := by
  rw [take_two_eq_iff.mp hk, getCf_clear_nsKey hc, if_pos ⟨hn, .inl rfl⟩]

theorem take_two_ne_of_mem_clear (hc : h.clear db c dropped = .ok db')
    (hn : h.num.toNat + 1 < 2 ^ 16) (cf : CfName) {e : Bytes × Bytes}
    (he : e ∈ (db'.cf cf).entries) : e.1.take 2 ≠ writeU16 h.num := fun hk => by
  have h1 := getCf_clear_of_take_two hc hn cf hk
  simp [DB.getCf, Cf.mem_entries_iff.mp he] at h1

/-- Below `0xFFFF`, when the fast path keeps `be16(n + 1)`, a successful `clear` empties the
maps of namespace `n` and leaves every other namespace's maps as they were. -/
theorem abstraction_clear (hc : h.clear db c dropped = .ok db') (hn : h.num.toNat + 1 < 2 ^ 16)
    (hd : dropped .default (writeU16 (h.num + 1)) = false) :
    abstraction db' = Function.update (abstraction db) h.num .empty := by
  funext m
  by_cases hm : m = h.num
  · subst hm
    rw [Function.update_same, abstraction, NsState.empty]
    congr 1 <;> funext k
    · rw [getCf_clear_nsKey hc, if_pos ⟨hn, .inl rfl⟩]
    · rw [buildLogKey, List.append_assoc, getCf_clear_nsKey hc, if_pos ⟨hn, .inl rfl⟩]
  · rw [Function.update_noteq hm, abstraction, abstraction]
    congr 1 <;> funext k
    · rw [getCf_clear_nsKey hc, if_neg]
      rintro ⟨-, hm' | ⟨hdr, hmn, rfl⟩⟩
      · exact hm hm'
      · have : m = h.num + 1 := by
          rw [UInt16.ext_iff, UInt16.toNat_add_one, Nat.mod_eq_of_lt hn]
          exact hmn
        rw [List.append_nil, this, hd] at hdr
        exact Bool.false_ne_true hdr
    · rw [buildLogKey, List.append_assoc, getCf_clear_nsKey hc, if_neg]
      rintro ⟨-, hm' | ⟨-, -, hk⟩⟩
      · exact hm hm'
      · simpa using congrArg List.length hk

/-- **Fast path.** On every state, the keys `clear` removes with any fast-path drop set are
those its per-key loop alone removes, but for the bare key `be16(n + 1)` of `default`, the
empty user key of namespace `n + 1`: every other entry of every namespace's maps agrees. -/
theorem clear_fastPath_agrees {db₁ db₂ : DB} (h₁ : h.clear db c dropped = .ok db₁)
    (h₂ : h.clear db c (fun _ _ => false) = .ok db₂) (m : UInt16) :
    (abstraction db₁ m).log = (abstraction db₂ m).log ∧
      ∀ k, (m, k) ≠ (h.num + 1, []) → (abstraction db₁ m).main k = (abstraction db₂ m).main k := by
  refine ⟨funext fun pk => ?_, fun k hk => ?_⟩
  · simp only [abstraction, buildLogKey, List.append_assoc, getCf_clear_nsKey h₁,
      getCf_clear_nsKey h₂]
    refine if_congr ?_ rfl rfl
    have : writeU64 pk.1 ++ writeU64 pk.2 ≠ [] := List.ne_nil_of_length_pos (by simp)
    simp [this]
  · simp only [abstraction, getCf_clear_nsKey h₁, getCf_clear_nsKey h₂]
    refine if_congr ?_ rfl rfl
    simp only [Bool.false_eq_true, false_and, or_false]
    refine and_congr_right fun hn => or_iff_left_of_imp fun ⟨_, hm, hk0⟩ => absurd ?_ hk
    rw [hk0, Prod.mk.injEq, UInt16.ext_iff, UInt16.toNat_add_one, Nat.mod_eq_of_lt hn]
    exact ⟨hm, rfl⟩

theorem clear_fastPath_agrees_one :
    ∃ db₁ db₂, (⟨0, 0⟩ : Storage).clear (DB.empty.write [.put .default (writeU16 1) [7]]) 1
        (fun _ _ => true) = .ok db₁ ∧
      (⟨0, 0⟩ : Storage).clear (DB.empty.write [.put .default (writeU16 1) [7]]) 1
        (fun _ _ => false) = .ok db₂ ∧
      ∀ m, (abstraction db₁ m).log = (abstraction db₂ m).log ∧
        ∀ k, (m, k) ≠ ((⟨0, 0⟩ : Storage).num + 1, []) →
          (abstraction db₁ m).main k = (abstraction db₂ m).main k :=
  have h₁ := Storage.clear_eq_ok ⟨0, 0⟩ (DB.empty.write [.put .default (writeU16 1) [7]])
    fun _ _ => true
  have h₂ := Storage.clear_eq_ok ⟨0, 0⟩ (DB.empty.write [.put .default (writeU16 1) [7]])
    fun _ _ => false
  ⟨_, _, h₁, h₂, clear_fastPath_agrees h₁ h₂⟩

/-! ## Namespaces after a clear -/

/-- **Clear empties.** Below `0xFFFF`, a successful `clear` on namespace `n` empties `M n` and
`L n`, and the first call of `next` on `iterator()` or on any `log_iterator(p, s)` of `n`
returns `None`. -/
theorem clear_empties (hc : h.clear db c dropped = .ok db') (hn : h.num.toNat + 1 < 2 ^ 16) :
    (∀ k, (abstraction db' h.num).main k = none) ∧ (∀ pk, (abstraction db' h.num).log pk = none) ∧
    (∃ it : StorageIterator, h.iterator db' = .ok it ∧ it.drive [1] = .ok [none]) ∧
    ∀ p s, (h.logIterator db' p s).drive [1] = .ok [none] := by
  have hmain : (mainCursor db' h.num).run = [] := by
    rw [mainCursor_run, List.filter_eq_nil_iff]
    exact fun e he hk => take_two_ne_of_mem_clear hc hn .default he (of_decide_eq_true hk)
  have hlog : ∀ p s, (logCursor db' h.num p s).run = [] := fun p s => by
    rw [logCursor_run, List.filter_eq_nil_iff]
    intro e he hr
    simp only [Bool.and_eq_true, decide_eq_true_eq, buildLogKey, buildLogPrefix,
      List.append_assoc] at hr
    refine take_two_ne_of_mem_clear hc hn .log he ?_
    rw [eq_comm, ← length_writeU16 h.num, ← List.prefix_iff_eq_take]
    exact prefix_of_between hr.1 hr.2
  refine ⟨fun k => ?_, fun pk => ?_, ⟨_, Storage.iterator_eq db' h, ?_⟩,
    fun p s => logIterator_drive_first_none db' h (hlog p s)⟩
  · exact getCf_clear_of_take_two hc hn .default (by simp [take_two_mainKey])
  · exact getCf_clear_of_take_two hc hn .log (by simp [buildLogKey, take_two_mainKey])
  · rw [mainIterator_drive, hmain]
    rfl

theorem clear_empties_one :
    ∃ db', (⟨1, 0⟩ : Storage).clear (DB.empty.write [.put .default (writeU16 1) [7]]) 1
        (fun _ _ => true) = .ok db' ∧ (⟨1, 0⟩ : Storage).num.toNat + 1 < 2 ^ 16 ∧
      (∀ k, (abstraction db' (⟨1, 0⟩ : Storage).num).main k = none) ∧
      (∀ pk, (abstraction db' (⟨1, 0⟩ : Storage).num).log pk = none) ∧
      (∃ it : StorageIterator, (⟨1, 0⟩ : Storage).iterator db' = .ok it ∧
        it.drive [1] = .ok [none]) ∧
      ∀ p s, ((⟨1, 0⟩ : Storage).logIterator db' p s).drive [1] = .ok [none] :=
  have hc := Storage.clear_eq_ok ⟨1, 0⟩ (DB.empty.write [.put .default (writeU16 1) [7]])
    fun _ _ => true
  ⟨_, hc, by decide, clear_empties hc (by decide)⟩

theorem clear_max_unchanged (hc : h.clear db c dropped = .ok db') (hn : h.num = 0xFFFF)
    (cf : CfName) (k : Bytes) : db'.getCf cf k = db.getCf cf k := by
  rw [getCf_clear hc, hn, if_neg]
  rintro ⟨h1, h2⟩
  have h3 : k ≤ writeU16 (0xFFFF + 1) := h2.elim (·.2) (le_of_lt ·.2)
  exact absurd (le_trans h1 h3) (by decide)

end

/-- `clear` on namespace `0xFFFF`, with the fast path dropping every file it may, leaves
its entry under the empty key. -/
theorem clear_max_keeps_entries :
    (abstraction (DB.empty.write [.put .default (writeU16 0xFFFF) [1]]) 0xFFFF).main [] = some [1] ∧
    ((⟨0xFFFF, 0⟩ : Storage).clear (DB.empty.write [.put .default (writeU16 0xFFFF) [1]]) 1
      (fun _ _ => true)).map (fun db' => (abstraction db' 0xFFFF).main []) = .ok (some [1]) := by
  refine ⟨rfl, ?_⟩
  have hc := Storage.clear_eq_ok ⟨0xFFFF, 0⟩ (DB.empty.write [.put .default (writeU16 0xFFFF) [1]])
    fun _ _ => true
  rw [hc]
  simp only [Except.map, abstraction]
  rw [clear_max_unchanged hc rfl]
  rfl

/-- `clear` on namespace 0, with the fast path dropping the file of `be16(1)`, removes the
entry of namespace 1 under the empty key. -/
theorem clear_drops_next_empty_key :
    (abstraction (DB.empty.write [.put .default (writeU16 1) [7]]) 1).main [] = some [7] ∧
    ((⟨0, 0⟩ : Storage).clear (DB.empty.write [.put .default (writeU16 1) [7]]) 1
      (fun _ _ => true)).map (fun db' => (abstraction db' 1).main []) = .ok none := by
  refine ⟨rfl, ?_⟩
  have hc := Storage.clear_eq_ok ⟨0, 0⟩ (DB.empty.write [.put .default (writeU16 1) [7]])
    fun _ _ => true
  rw [hc]
  exact congrArg Except.ok ((getCf_clear_nsKey hc .default 1 []).trans
    (if_pos ⟨by decide, .inr ⟨rfl, by decide, rfl⟩⟩))

end Sucredb
