import Sucredb.Storage

/-!
# Namespaces refine independent stores

Namespace `n` sees two maps: its user map `M n k = default[be16(n) ++ k]` and its
log map `L n (p, s) = log[build_log_key(n, (p, s))]`; `abstraction` reads them off a
`DB`. A batch of `StorageBatch::set`, `log_set` and `del` built on any handle of `n`
and written through any handle changes `M n` and `L n` by those updates in batch
order and no other namespace, and the point reads return the abstract maps
(`storage_refines`). The encoding's injectivity is what makes this hold for every
pair of namespaces and keys.
-/

namespace Sucredb

/-- What one namespace holds: its user map and its log map. -/
structure NsState where
  main : Bytes → Option Bytes
  log : UInt64 × UInt64 → Option Bytes

def NsState.empty : NsState := ⟨fun _ => none, fun _ => none⟩

/-- Every namespace's maps, as stored in `db`. -/
def abstraction (db : DB) (n : UInt16) : NsState :=
  ⟨fun k => db.getCf .default (writeU16 n ++ k), fun pk => db.getCf .log (buildLogKey n pk)⟩

/-- The calls a batch is built from. -/
inductive BatchOp where
  | set (key value : Bytes)
  | logSet (key : UInt64 × UInt64) (value : Bytes)
  | del (key : Bytes)

def BatchOp.keyFits : BatchOp → Bool
  | .set k _ => k.length ≤ 510
  | .logSet _ _ => true
  | .del k => k.length ≤ 510

def BatchOp.encode (n : UInt16) : BatchOp → WriteOp
  | .set k v => .put .default (writeU16 n ++ k) v
  | .logSet pk v => .put .log (buildLogKey n pk) v
  | .del k => .delete .default (writeU16 n ++ k)

def StorageBatch.push (b : StorageBatch) : BatchOp → Except Panic StorageBatch
  | .set k v => b.set k v
  | .logSet pk v => .ok (b.logSet pk v)
  | .del k => b.del k

def StorageBatch.pushAll (b : StorageBatch) (ops : List BatchOp) : Except Panic StorageBatch :=
  ops.foldlM StorageBatch.push b

def NsState.apply (s : NsState) : BatchOp → NsState
  | .set k v => { s with main := Function.update s.main k (some v) }
  | .logSet pk v => { s with log := Function.update s.log pk (some v) }
  | .del k => { s with main := Function.update s.main k none }

def absStep (A : UInt16 → NsState) (n : UInt16) (ops : List BatchOp) : UInt16 → NsState :=
  Function.update A n (ops.foldl NsState.apply (A n))

theorem absStep_ne {A : UInt16 → NsState} {m n : UInt16} (ops : List BatchOp) (h : m ≠ n) :
    absStep A n ops m = A m :=
  Function.update_noteq h _ _

/-! ## Listings -/

def Lists (m : Bytes → Option Bytes) (ys : List (Bytes × Bytes)) : Prop :=
  ys.Pairwise (fun a b => a.1 < b.1) ∧ ∀ k v, (k, v) ∈ ys ↔ m k = some v

def LogLists (m : UInt64 × UInt64 → Option Bytes) (p s : UInt64)
    (ys : List ((UInt64 × UInt64) × Bytes)) : Prop :=
  ys.Pairwise (fun a b => a.1.2 < b.1.2) ∧
    ∀ pk v, (pk, v) ∈ ys ↔ pk.1 = p ∧ s ≤ pk.2 ∧ m pk = some v

theorem StorageBatch.push_eq {b : StorageBatch} {op : BatchOp} (h : op.keyFits) :
    b.push op = .ok { b with wb := b.wb ++ [op.encode b.storage.num] } := by
  cases op <;> simp_all [push, set, del, mainOp_eq, BatchOp.keyFits, BatchOp.encode, logSet]

theorem StorageBatch.pushAll_eq {ops : List BatchOp} (h : ∀ op ∈ ops, op.keyFits) (b : StorageBatch) :
    b.pushAll ops = .ok { b with wb := b.wb ++ ops.map (BatchOp.encode b.storage.num) } := by
  induction ops generalizing b with
  | nil => simp only [List.map_nil, List.append_nil]; rfl
  | cons op ops ih =>
    simp only [List.forall_mem_cons] at h
    rw [pushAll, List.foldlM_cons, push_eq h.1]
    exact (ih h.2 _).trans (by simp)

theorem StorageBatch.pushAll_long : ∀ {ops : List BatchOp} {b : StorageBatch},
    (∃ op ∈ ops, op.keyFits = false) → b.pushAll ops = .error .writeZero
  | [], _, ⟨_, h, _⟩ => absurd h (List.not_mem_nil _)
  | op :: ops, b, ⟨o, ho, hf⟩ => by
    rw [pushAll, List.foldlM_cons]
    by_cases hfit : op.keyFits
    · rw [push_eq hfit]
      refine pushAll_long ⟨o, (List.mem_cons.mp ho).resolve_left ?_, hf⟩
      rintro rfl
      simp [hfit] at hf
    · have : b.push op = .error .writeZero := by
        cases op <;> simp_all [push, set, del, mainOp_eq, BatchOp.keyFits]
      rw [this]
      rfl

/-! ## One engine operation refines one call -/

theorem abstraction_apply (db : DB) (n : UInt16) (op : BatchOp) :
    abstraction (db.apply (op.encode n)) = Function.update (abstraction db) n ((abstraction db n).apply op) := by
  funext m
  by_cases hm : m = n
  · subst hm
    cases op <;> simp only [abstraction, DB.apply, BatchOp.encode, NsState.apply, DB.getCf,
      Function.update_same, DB.cf_setCf, Cf.get_put, Cf.get_delete, mainKey_inj, buildLogKey_inj,
      true_and, reduceCtorEq, if_true, if_false] <;> congr 1 <;> funext k <;> simp [Function.update_apply]
  · cases op <;> simp [abstraction, DB.apply, BatchOp.encode, DB.getCf, hm, mainKey_inj, buildLogKey_inj]

theorem abstraction_write (db : DB) (n : UInt16) (ops : List BatchOp) :
    abstraction (db.write (ops.map (BatchOp.encode n))) = absStep (abstraction db) n ops := by
  induction ops generalizing db with
  | nil => simp [absStep]
  | cons op ops ih =>
    simp only [List.map_cons, DB.write, List.foldl_cons] at ih ⊢
    rw [ih, abstraction_apply, absStep, absStep]
    simp

def absCompact (A : UInt16 → NsState) (dropped : Bytes → Bool) (n : UInt16) : NsState :=
  { A n with log := fun pk => if dropped (buildLogKey n pk) then none else (A n).log pk }

theorem abstraction_fifoCompaction (db : DB) (dropped : Bytes → Bool) :
    abstraction (db.fifoCompaction dropped) = absCompact (abstraction db) dropped := by
  funext n
  simp [abstraction, absCompact]

/-! ## The refinement -/

section
variable {h : Storage} {db : DB} {k : Bytes}

theorem Storage.set_eq (v : Bytes) (hk : k.length ≤ 510) :
    h.set db k v = .ok (db.write ([BatchOp.set k v].map (BatchOp.encode h.num))) := by
  have := @StorageBatch.push_eq (h.batchNew 0) (.set k v) (by simpa [BatchOp.keyFits])
  rw [Storage.set, Storage.single, show (h.batchNew 0).set k v = _ from this]
  rfl

theorem Storage.del_eq (hk : k.length ≤ 510) :
    h.del db k = .ok (db.write ([BatchOp.del k].map (BatchOp.encode h.num))) := by
  have := @StorageBatch.push_eq (h.batchNew 0) (.del k) (by simpa [BatchOp.keyFits])
  rw [Storage.del, Storage.single, show (h.batchNew 0).del k = _ from this]
  rfl


theorem Storage.set_long (v : Bytes) (hk : 510 < k.length) : h.set db k v = .error .writeZero := by
  simp only [Storage.set, Storage.single, StorageBatch.set, StorageBatch.mainOp_eq,
    if_neg (Nat.not_le_of_lt hk)]
  rfl

theorem Storage.del_long (hk : 510 < k.length) : h.del db k = .error .writeZero := by
  simp only [Storage.del, Storage.single, StorageBatch.del, StorageBatch.mainOp_eq,
    if_neg (Nat.not_le_of_lt hk)]
  rfl

end

/-- **Refinement.** On every engine state, a batch built on any handle of namespace
`n` from calls whose user keys fit the key buffer, and written through any handle,
moves the abstract maps by those calls in order on `n` alone; `Storage::set` and
`del` are one-call batches; `get` and `log_get` on any handle of `n` read `M n` and
`L n`. -/
theorem storage_refines (db : DB) (h h' : Storage) (reserve : Nat) (ops : List BatchOp)
    (hops : ∀ op ∈ ops, op.keyFits) :
    (∃ b, (h.batchNew reserve).pushAll ops = .ok b ∧
      abstraction (h'.batchWrite db b) = absStep (abstraction db) h.num ops) ∧
    (∀ k v : Bytes, k.length ≤ 510 → ∃ db', h.set db k v = .ok db' ∧
      abstraction db' = absStep (abstraction db) h.num [.set k v]) ∧
    (∀ k : Bytes, k.length ≤ 510 → ∃ db', h.del db k = .ok db' ∧
      abstraction db' = absStep (abstraction db) h.num [.del k]) ∧
    (∀ {R : Type} (callback : Bytes → R) (k : Bytes), k.length ≤ 510 →
      h.get db k callback = .ok (((abstraction db h.num).main k).map callback)) ∧
    (∀ {R : Type} (callback : Bytes → R) (pk : UInt64 × UInt64),
      h.logGet db pk callback = ((abstraction db h.num).log pk).map callback) := by
  refine ⟨⟨_, StorageBatch.pushAll_eq hops _, ?_⟩,
    fun k v hk => ⟨_, Storage.set_eq v hk, abstraction_write _ _ _⟩,
    fun k hk => ⟨_, Storage.del_eq hk, abstraction_write _ _ _⟩,
    fun callback k hk => by rw [Storage.get_eq, if_pos hk]; rfl, fun _ _ => rfl⟩
  simpa [Storage.batchWrite, Storage.batchNew] using abstraction_write db h.num ops

theorem storage_refines_one_two :
    (∀ op ∈ [BatchOp.set [7] [1], .logSet (1, 1) [2], .del [7]], op.keyFits) ∧
      ∃ b, ((⟨1, 0⟩ : Storage).batchNew 0).pushAll [.set [7] [1], .logSet (1, 1) [2], .del [7]] = .ok b ∧
        abstraction ((⟨2, 1⟩ : Storage).batchWrite DB.empty b) =
          absStep (abstraction DB.empty) 1 [.set [7] [1], .logSet (1, 1) [2], .del [7]] :=
  ⟨by decide, (storage_refines DB.empty ⟨1, 0⟩ ⟨2, 1⟩ 0 _ (by decide)).1⟩

end Sucredb
