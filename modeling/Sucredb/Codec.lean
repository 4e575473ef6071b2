import Sucredb.Bytes

/-!
# The key codec

`build_key`, `build_log_key` and `build_log_prefix` write a namespace id and a
user key, or a `(prefix, seq)` log key, into a stack buffer. A physical main key
is `be16(num) ++ key`; a physical log key is `be16(num) ++ be64(prefix) ++ be64(seq)`.

`buildLogKey_orderIso` shows the log encoding is an order isomorphism onto the
18-byte strings, with the decoding `LogStorageIter::next` performs as inverse;
`buildKey_orderEmbedding` shows the main encoding embeds `u16 × bytes`
lexicographically.
-/

namespace Sucredb

/-- The panics of the source, each an `unwrap`, an `assert!` or an `unreachable!()`, and the
one engine call whose behaviour is undefined. -/
inductive Panic where
  /-- `write_all` past the end of a key buffer: `unwrap` of `ErrorKind::WriteZero`. -/
  | writeZero
  /-- `check_pending_iters`: `"{} pending iterators"`. -/
  | pendingIterators (count : Nat)
  /-- `assert!(key.len() == 2 + 8 + 8)` in `LogStorageIter::next`. -/
  | logKeyLength
  /-- `unreachable!()` in `FabricMsg::get_type`. -/
  | unreachable
  /-- RocksDB's `Iterator::Next` on an iterator that is not `Valid()`, which it requires: the
  call's behaviour is undefined. -/
  | invalidNext
  deriving DecidableEq, Repr

/-- `(&mut buffer[2..]).write_all(data).unwrap()` into a slice of `room` bytes. -/
def writeAll (room : Nat) (data : Bytes) : Except Panic Bytes :=
  if data.length ≤ room then .ok data else .error .writeZero

/-- `build_key` into a buffer of `len` bytes: 512 in `get`, `set` and `del`, and 2 in
`iterator`. Every call site's buffer holds the two-byte prefix. -/
def buildKey (len : Nat) (num : UInt16) (key : Bytes) : Except Panic Bytes := do
  let key ← writeAll (len - 2) key
  pure (writeU16 num ++ key)

/-- `build_log_key`: 18 bytes, in an 18-byte buffer. -/
def buildLogKey (num : UInt16) (logKey : UInt64 × UInt64) : Bytes :=
  writeU16 num ++ writeU64 logKey.1 ++ writeU64 logKey.2

/-- `build_log_prefix`: 10 bytes, in a 10-byte buffer. -/
def buildLogPrefix (num : UInt16) (pre : UInt64) : Bytes :=
  writeU16 num ++ writeU64 pre

/-- The `(prefix, seq)` that `LogStorageIter::next` reads from bytes `[2..10]` and
`[10..18]` of a log key. -/
def readLogKey (key : Bytes) : UInt64 × UInt64 :=
  (readU64 ((key.drop 2).take 8), readU64 ((key.drop 10).take 8))

namespace U16BeSuffixTransform

/-- `&key[..2]`, the prefix extractor of the default column family. The slice is
in bounds on the keys of its domain, and every stored main key is in it. -/
def transform (key : Bytes) : Bytes := key.take 2

def inDomain (key : Bytes) : Bool := 2 ≤ key.length

end U16BeSuffixTransform

/-! ## Main keys -/

theorem buildKey_eq (len : Nat) (num : UInt16) (key : Bytes) :
    buildKey len num key =
      if key.length ≤ len - 2 then .ok (writeU16 num ++ key) else .error .writeZero := by
  unfold buildKey writeAll
  split <;> rfl

theorem buildKey_ok {len : Nat} {key : Bytes} (num : UInt16) (h : key.length ≤ len - 2) :
    buildKey len num key = .ok (writeU16 num ++ key) := by
  rw [buildKey_eq, if_pos h]

theorem mainKey_lt_mainKey {m n : UInt16} {k k' : Bytes} :
    writeU16 m ++ k < writeU16 n ++ k' ↔ m < n ∨ m = n ∧ k < k' := by
  rw [append_lt_append_iff (by simp), writeU16_lt_writeU16, writeU16_inj]

theorem append_inj_iff {a a' b b' : Bytes} (h : a.length = a'.length) :
    a ++ b = a' ++ b' ↔ a = a' ∧ b = b' :=
  ⟨fun e => List.append_inj e h, fun ⟨e1, e2⟩ => e1 ▸ e2 ▸ rfl⟩

theorem mainKey_inj {m n : UInt16} {k k' : Bytes} :
    writeU16 m ++ k = writeU16 n ++ k' ↔ m = n ∧ k = k' := by
  rw [append_inj_iff (by simp), writeU16_inj]

@[simp] theorem transform_mainKey (n : UInt16) (key : Bytes) :
    U16BeSuffixTransform.transform (writeU16 n ++ key) = writeU16 n := by
  simp [U16BeSuffixTransform.transform, List.take_append_eq_append_take]

/-- **Main key encoding.** For keys of at most 510 bytes `build_key` writes
`be16(n) ++ k`; the encoding is a strict order embedding of `u16 × bytes` under the
lexicographic order, hence injective, and the extractor and the `[2..]` slice of
`StorageIter::next` recover `be16(n)` and `k`. -/
theorem buildKey_orderEmbedding (n₁ n₂ : UInt16) (k₁ k₂ : Bytes) (h₁ : k₁.length ≤ 510)
    (h₂ : k₂.length ≤ 510) :
    buildKey 512 n₁ k₁ = .ok (writeU16 n₁ ++ k₁) ∧ buildKey 512 n₂ k₂ = .ok (writeU16 n₂ ++ k₂) ∧
      (writeU16 n₁ ++ k₁ < writeU16 n₂ ++ k₂ ↔ n₁ < n₂ ∨ n₁ = n₂ ∧ k₁ < k₂) ∧
      (writeU16 n₁ ++ k₁ = writeU16 n₂ ++ k₂ ↔ n₁ = n₂ ∧ k₁ = k₂) ∧
      U16BeSuffixTransform.transform (writeU16 n₁ ++ k₁) = writeU16 n₁ ∧
      (writeU16 n₁ ++ k₁).drop 2 = k₁ :=
  ⟨buildKey_ok _ h₁, buildKey_ok _ h₂, mainKey_lt_mainKey, mainKey_inj,
    transform_mainKey _ _, by simp [List.drop_append_eq_append_drop]⟩

theorem buildKey_orderEmbedding_one_zero :
    ([] : Bytes).length ≤ 510 ∧ ([0xff] : Bytes).length ≤ 510 ∧
      (buildKey 512 1 [] = .ok (writeU16 1 ++ []) ∧
        buildKey 512 0 [0xff] = .ok (writeU16 0 ++ [0xff]) ∧
        (writeU16 1 ++ [] < writeU16 0 ++ [0xff] ↔
          (1 : UInt16) < 0 ∨ (1 : UInt16) = 0 ∧ ([] : Bytes) < [0xff]) ∧
        (writeU16 1 ++ [] = writeU16 0 ++ [0xff] ↔ (1 : UInt16) = 0 ∧ ([] : Bytes) = [0xff]) ∧
        U16BeSuffixTransform.transform (writeU16 1 ++ []) = writeU16 1 ∧
        (writeU16 1 ++ []).drop 2 = []) :=
  ⟨by decide, by decide, buildKey_orderEmbedding 1 0 [] [0xff] (by decide) (by decide)⟩

/-! ## Log keys -/

@[simp] theorem length_buildLogKey (n : UInt16) (pk : UInt64 × UInt64) :
    (buildLogKey n pk).length = 18 := by
  simp [buildLogKey]

theorem buildLogKey_lt_buildLogKey {n₁ n₂ : UInt16} {pk₁ pk₂ : UInt64 × UInt64} :
    buildLogKey n₁ pk₁ < buildLogKey n₂ pk₂ ↔
      n₁ < n₂ ∨ n₁ = n₂ ∧ (pk₁.1 < pk₂.1 ∨ pk₁.1 = pk₂.1 ∧ pk₁.2 < pk₂.2) := by
  simp only [buildLogKey, List.append_assoc]
  rw [append_lt_append_iff (by simp), append_lt_append_iff (by simp), writeU16_lt_writeU16,
    writeU16_inj, writeU64_lt_writeU64, writeU64_inj, writeU64_lt_writeU64]

theorem buildLogKey_inj {n₁ n₂ : UInt16} {pk₁ pk₂ : UInt64 × UInt64} :
    buildLogKey n₁ pk₁ = buildLogKey n₂ pk₂ ↔ n₁ = n₂ ∧ pk₁ = pk₂ := by
  simp only [buildLogKey, List.append_assoc]
  rw [append_inj_iff (by simp), append_inj_iff (by simp), writeU16_inj, writeU64_inj,
    writeU64_inj, Prod.ext_iff]

theorem readLogKey_append {a b c : Bytes} (ha : a.length = 2) (hb : b.length = 8)
    (hc : c.length = 8) : readLogKey (a ++ b ++ c) = (readU64 b, readU64 c) := by
  have h10 : (a ++ b).length = 10 := by simp [ha, hb]
  rw [readLogKey, List.drop_left' h10, List.take_of_length_le (l := c) (by omega),
    List.append_assoc, List.drop_left' ha, List.take_left' hb]

@[simp] theorem readLogKey_buildLogKey (n : UInt16) (pk : UInt64 × UInt64) :
    readLogKey (buildLogKey n pk) = pk := by
  rw [buildLogKey, readLogKey_append (by simp) (by simp) (by simp)]
  simp

theorem buildLogKey_readLogKey {key : Bytes} (h : key.length = 18) :
    buildLogKey (readU16 (key.take 2)) (readLogKey key) = key := by
  obtain ⟨a, b, c, rfl, ha, hb, hc⟩ : ∃ a b c : Bytes, key = a ++ b ++ c ∧ a.length = 2 ∧
      b.length = 8 ∧ c.length = 8 :=
    ⟨key.take 2, (key.drop 2).take 8, (key.drop 2).drop 8,
      by rw [List.append_assoc, List.take_append_drop, List.take_append_drop],
      by simp [h], by simp [h], by simp [h]⟩
  have h2 : (a ++ b ++ c).take 2 = a := by rw [List.append_assoc, List.take_left' ha]
  rw [readLogKey_append ha hb hc, h2, buildLogKey, writeU16_readU16 ha, writeU64_readU64 hb,
    writeU64_readU64 hc]

/-- **Log key encoding.** `build_log_key` is an order isomorphism from `u16 × u64 × u64`
under the lexicographic order onto the 18-byte strings under the bytewise order; the
big-endian decoding of bytes `[0..2]`, `[2..10]` and `[10..18]` is its inverse. -/
theorem buildLogKey_orderIso :
    (∀ (n₁ n₂ : UInt16) (pk₁ pk₂ : UInt64 × UInt64),
      buildLogKey n₁ pk₁ < buildLogKey n₂ pk₂ ↔
        n₁ < n₂ ∨ n₁ = n₂ ∧ (pk₁.1 < pk₂.1 ∨ pk₁.1 = pk₂.1 ∧ pk₁.2 < pk₂.2)) ∧
    (∀ (n : UInt16) (pk : UInt64 × UInt64), (buildLogKey n pk).length = 18) ∧
    (∀ (n : UInt16) (pk : UInt64 × UInt64),
      readU16 ((buildLogKey n pk).take 2) = n ∧ readLogKey (buildLogKey n pk) = pk) ∧
    (∀ key : Bytes, key.length = 18 → buildLogKey (readU16 (key.take 2)) (readLogKey key) = key) :=
  ⟨fun _ _ _ _ => buildLogKey_lt_buildLogKey, length_buildLogKey,
    fun n pk => ⟨by simp [buildLogKey, List.take_append_eq_append_take], readLogKey_buildLogKey n pk⟩,
    fun _ => buildLogKey_readLogKey⟩

end Sucredb
