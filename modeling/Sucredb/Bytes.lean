import Mathlib

/-!
# Bytes, the bytewise order, and big-endian integers

Keys and values are byte strings. Both column families use the engine's
bytewise comparator: `memcmp` on the common prefix, then the shorter key
first, which is the lexicographic order `List.Lex` on `List UInt8`. The key
codec writes integers with `byteorder`'s `BigEndian`, most significant byte
first, so that this order on encodings is the numeric order.
-/

namespace Sucredb

instance instLinearOrderByte : LinearOrder UInt8 where
  le := (· ≤ ·)
  lt := (· < ·)
  le_refl := UInt8.le_refl
  le_trans _ _ _ := UInt8.le_trans
  le_antisymm _ _ h1 h2 := UInt8.toNat.inj (Nat.le_antisymm h1 h2)
  le_total := UInt8.le_total
  lt_iff_le_not_le _ _ := Nat.lt_iff_le_not_le
  decidableLE := inferInstance
  decidableLT := inferInstance
  decidableEq := inferInstance

abbrev Bytes := List UInt8

/-- Found before instance search tries the algebraic hierarchy on `UInt8`. -/
instance (priority := high) instNonemptyBytes : Nonempty Bytes := ⟨[]⟩

/-! ## The lexicographic order -/

section
variable {α : Type} [LinearOrder α]

theorem cons_lt_cons_iff {a b : α} {l l' : List α} :
    a :: l < b :: l' ↔ a < b ∨ a = b ∧ l < l' := by
  constructor
  · rintro (_ | h | h)
    · exact .inr ⟨rfl, ‹_›⟩
    · exact .inl ‹_›
  · rintro (h | ⟨rfl, h⟩)
    · exact .rel h
    · exact .cons h

theorem append_lt_append_iff {u u' v v' : List α} (h : u.length = u'.length) :
    u ++ v < u' ++ v' ↔ u < u' ∨ u = u' ∧ v < v' := by
  induction u generalizing u' with
  | nil => cases u' with
    | nil => simp [List.Lex.not_nil_right]
    | cons => simp at h
  | cons a u ih => cases u' with
    | nil => simp at h
    | cons b u' =>
      simp only [List.cons_append, cons_lt_cons_iff, ih (Nat.succ.inj h), List.cons.injEq]
      simp only [and_or_left, or_assoc, and_assoc]

theorem append_lt_append_left_iff {c v v' : List α} : c ++ v < c ++ v' ↔ v < v' := by
  simp [append_lt_append_iff]

theorem lt_append_right {c : List α} {v : List α} (hv : v ≠ []) : c < c ++ v := by
  obtain ⟨a, v, rfl⟩ := List.exists_cons_of_ne_nil hv
  simpa using List.Lex.append_left _ (List.Lex.nil (a := a) (l := v)) c

theorem le_append_right (c v : List α) : c ≤ c ++ v := by
  cases v with
  | nil => simp
  | cons a v => exact (lt_append_right (List.cons_ne_nil a v)).le

theorem prefix_of_between {c a b x : List α} (h1 : c ++ a ≤ x) (h2 : x < c ++ b) :
    c <+: x := by
  induction c generalizing x with
  | nil => exact List.nil_prefix
  | cons d c ih =>
    cases x with
    | nil => exact absurd (lt_of_lt_of_le (List.Lex.nil) h1) (lt_irrefl _)
    | cons e x =>
      rw [List.cons_append] at h1 h2
      rcases cons_lt_cons_iff.mp h2 with hed | ⟨rfl, hx⟩
      · exact absurd (lt_of_le_of_lt h1 (cons_lt_cons_iff.mpr (.inl hed))) (lt_irrefl _)
      · have ha : c ++ a ≤ x := by
          rcases le_iff_lt_or_eq.mp h1 with h | h
          · exact ((cons_lt_cons_iff.mp h).resolve_left (lt_irrefl _)).2.le
          · exact (List.cons.inj h).2.le
        exact (List.prefix_cons_inj e).mpr (ih ha hx)

end

/-! ## Big-endian integers -/

def beBytes : Nat → Nat → Bytes
  | 0, _ => []
  | w + 1, x => beBytes w (x / 256) ++ [UInt8.ofNat x]

def beValue (bs : Bytes) : Nat := bs.foldl (fun acc b => acc * 256 + b.toNat) 0

/-- `write_u16::<BigEndian>`. -/
def writeU16 (n : UInt16) : Bytes := beBytes 2 n.toNat

/-- `write_u64::<BigEndian>`. -/
def writeU64 (n : UInt64) : Bytes := beBytes 8 n.toNat

/-- `read_u16::<BigEndian>` of a two-byte slice. -/
def readU16 (bs : Bytes) : UInt16 := UInt16.ofNat (beValue bs)

/-- `read_u64::<BigEndian>` of an eight-byte slice. -/
def readU64 (bs : Bytes) : UInt64 := UInt64.ofNat (beValue bs)

@[simp] theorem length_beBytes (w x : Nat) : (beBytes w x).length = w := by
  induction w generalizing x <;> simp [beBytes, *]

@[simp] theorem length_writeU16 (n : UInt16) : (writeU16 n).length = 2 := length_beBytes _ _

@[simp] theorem length_writeU64 (n : UInt64) : (writeU64 n).length = 8 := length_beBytes _ _

@[simp] theorem beValue_append_singleton (bs : Bytes) (b : UInt8) :
    beValue (bs ++ [b]) = beValue bs * 256 + b.toNat := by
  simp [beValue]

theorem beValue_beBytes (w x : Nat) : beValue (beBytes w x) = x % 256 ^ w := by
  induction w generalizing x with
  | zero => simp [beBytes, beValue, Nat.mod_one]
  | succ w ih =>
    rw [beBytes, beValue_append_singleton, ih, Nat.pow_succ', Nat.mod_mul]
    simp only [UInt8.toNat, UInt8.ofNat, BitVec.toNat_ofNat]
    omega

theorem beValue_lt {bs : Bytes} : beValue bs < 256 ^ bs.length := by
  induction bs using List.reverseRecOn with
  | nil => simp [beValue]
  | append_singleton bs b ih =>
    have : b.toNat < 256 := b.toNat_lt_size
    rw [beValue_append_singleton, List.length_append, List.length_singleton, Nat.pow_succ]
    omega

theorem beBytes_beValue {bs : Bytes} : beBytes bs.length (beValue bs) = bs := by
  induction bs using List.reverseRecOn with
  | nil => rfl
  | append_singleton bs b ih =>
    have : b.toNat < 256 := b.toNat_lt_size
    rw [List.length_append, List.length_singleton, beBytes, beValue_append_singleton,
      show (beValue bs * 256 + b.toNat) / 256 = beValue bs by omega, ih]
    congr
    exact UInt8.toNat.inj (by simp only [UInt8.toNat, UInt8.ofNat, BitVec.toNat_ofNat] at *; omega)

theorem beBytes_inj {w x y : Nat} (hx : x < 256 ^ w) (hy : y < 256 ^ w) :
    beBytes w x = beBytes w y ↔ x = y := by
  refine ⟨fun h => ?_, congrArg _⟩
  have := congrArg beValue h
  rwa [beValue_beBytes, beValue_beBytes, Nat.mod_eq_of_lt hx, Nat.mod_eq_of_lt hy] at this

theorem beBytes_lt_beBytes {w x y : Nat} (hx : x < 256 ^ w) (hy : y < 256 ^ w) :
    beBytes w x < beBytes w y ↔ x < y := by
  induction w generalizing x y with
  | zero => simp_all [beBytes]
  | succ w ih =>
    have hx' : x / 256 < 256 ^ w := by rw [Nat.pow_succ] at hx; omega
    have hy' : y / 256 < 256 ^ w := by rw [Nat.pow_succ] at hy; omega
    have hlast : [UInt8.ofNat x] < [UInt8.ofNat y] ↔ x % 256 < y % 256 :=
      List.Lex.singleton_iff _ _
    simp only [beBytes]
    rw [append_lt_append_iff (by simp), ih hx' hy', beBytes_inj hx' hy', hlast]
    omega

theorem UInt16.lt_iff_toNat_lt {m n : UInt16} : m < n ↔ m.toNat < n.toNat := Iff.rfl

theorem UInt64.lt_iff_toNat_lt {m n : UInt64} : m < n ↔ m.toNat < n.toNat := Iff.rfl

theorem UInt64.le_iff_toNat_le {m n : UInt64} : m ≤ n ↔ m.toNat ≤ n.toNat := Iff.rfl

theorem UInt64.toNat_add_one (p : UInt64) : (p + 1).toNat = (p.toNat + 1) % 2 ^ 64 := by
  simp [UInt64.toNat, UInt64.add_def]

theorem UInt16.toNat_add_one (n : UInt16) : (n + 1).toNat = (n.toNat + 1) % 2 ^ 16 := by
  simp [UInt16.toNat, UInt16.add_def]

theorem writeU16_inj {m n : UInt16} : writeU16 m = writeU16 n ↔ m = n :=
  (beBytes_inj m.toNat_lt_size n.toNat_lt_size).trans ⟨UInt16.toNat.inj, congrArg _⟩

theorem writeU64_inj {m n : UInt64} : writeU64 m = writeU64 n ↔ m = n :=
  (beBytes_inj m.toNat_lt_size n.toNat_lt_size).trans ⟨UInt64.toNat.inj, congrArg _⟩

theorem writeU16_lt_writeU16 {m n : UInt16} : writeU16 m < writeU16 n ↔ m < n :=
  beBytes_lt_beBytes m.toNat_lt_size n.toNat_lt_size

theorem writeU64_lt_writeU64 {m n : UInt64} : writeU64 m < writeU64 n ↔ m < n :=
  beBytes_lt_beBytes m.toNat_lt_size n.toNat_lt_size

@[simp] theorem readU16_writeU16 (n : UInt16) : readU16 (writeU16 n) = n := by
  have h : n.toNat < 256 ^ 2 := n.toNat_lt_size
  rw [readU16, writeU16, beValue_beBytes, Nat.mod_eq_of_lt h]
  exact UInt16.toNat.inj (UInt16.toNat_ofNat_of_lt n.toNat_lt_size)

@[simp] theorem readU64_writeU64 (n : UInt64) : readU64 (writeU64 n) = n := by
  have h : n.toNat < 256 ^ 8 := n.toNat_lt_size
  rw [readU64, writeU64, beValue_beBytes, Nat.mod_eq_of_lt h]
  exact UInt64.toNat.inj (UInt64.toNat_ofNat_of_lt n.toNat_lt_size)

theorem writeU16_readU16 {bs : Bytes} (h : bs.length = 2) : writeU16 (readU16 bs) = bs := by
  have hv : beValue bs < 256 ^ 2 := h ▸ beValue_lt
  have : (UInt16.ofNat (beValue bs)).toNat = beValue bs := UInt16.toNat_ofNat_of_lt hv
  rw [writeU16, readU16, this, ← h, beBytes_beValue]

theorem writeU64_readU64 {bs : Bytes} (h : bs.length = 8) : writeU64 (readU64 bs) = bs := by
  have hv : beValue bs < 256 ^ 8 := h ▸ beValue_lt
  have : (UInt64.ofNat (beValue bs)).toNat = beValue bs := UInt64.toNat_ofNat_of_lt hv
  rw [writeU64, readU64, this, ← h, beBytes_beValue]

end Sucredb
