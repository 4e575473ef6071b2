import Sucredb.World

/-!
# The storage as independent maps

What a program written against `Storage` relies on. Each namespace holds a user map and
a log map, and only writes through its own handles change them, but for the log
family's FIFO compaction, which may remove log entries between any two calls.
`iterator()` returns the user map in ascending key order, and `log_iterator(p, s)` the
log entries of prefix `p` from sequence number `s` on, both as the namespace held them
when the iterator was made, then `None`; the call after that faults. `clear` empties the
namespace, and `clear` and dropping a handle panic while an iterator the handle made is
live. A key longer than the 510 bytes the key buffer leaves panics.

`Spec.Step` is that machine over the calls of `Action`, and `Spec.Runs` its runs. A map
has one listing, so the machine is deterministic (`Spec.Step.det`).
-/

namespace Sucredb

abbrev Item := (Bytes × Bytes) ⊕ ((UInt64 × UInt64) × Bytes)

/-- A live iterator: the sentinel of the handle that made it, and what its later calls of
`next` read: the items left before `None`, or `none` once it has returned `None`. -/
inductive SpecCursor where
  | main (owner : Nat) (items : Option (List (Bytes × Bytes)))
  | log (owner : Nat) (items : Option (List ((UInt64 × UInt64) × Bytes)))

namespace SpecCursor

def owner : SpecCursor → Nat
  | .main o _ => o
  | .log o _ => o

def next : SpecCursor → Except Panic (Option Item × SpecCursor)
  | .main o items => (popPending items).map fun r => (r.1.map .inl, .main o r.2)
  | .log o items => (popPending items).map fun r => (r.1.map .inr, .log o r.2)

end SpecCursor

structure Spec where
  store : UInt16 → NsState
  handles : List Storage
  cursors : List SpecCursor
  nextArc : Nat

def Spec.init : Spec := ⟨fun _ => .empty, [], [], 0⟩

def Spec.pending (s : Spec) (a : Nat) : Nat := (s.cursors.map (·.owner)).count a

/-- One call. Handles and iterators are named by position, as in `World.step`; a call that
names none has no step. -/
inductive Spec.Step : Spec → Action → Except Panic Spec → Prop
  | openHandle {s : Spec} (num : UInt16) :
      Step s (.openHandle num)
        (.ok { s with handles := s.handles ++ [⟨num, s.nextArc⟩], nextArc := s.nextArc + 1 })
  | iterator {s : Spec} {i : Nat} {h : Storage} {ys : List (Bytes × Bytes)}
      (hh : s.handles[i]? = some h) (hys : Lists (s.store h.num).main ys) :
      Step s (.iterator i)
        (.ok { s with cursors := s.cursors ++ [.main h.iteratorsHandle (some ys)] })
  | logIterator {s : Spec} {i : Nat} {h : Storage} {pre start : UInt64}
      {ys : List ((UInt64 × UInt64) × Bytes)}
      (hh : s.handles[i]? = some h) (hys : LogLists (s.store h.num).log pre start ys) :
      Step s (.logIterator i pre start)
        (.ok { s with cursors := s.cursors ++ [.log h.iteratorsHandle (some ys)] })
  | next {s : Spec} {j : Nat} {c : SpecCursor} (hj : s.cursors[j]? = some c) :
      Step s (.next j) (c.next.map fun r => { s with cursors := s.cursors.set j r.2 })
  | dropIterator {s : Spec} {j : Nat} (hj : j < s.cursors.length) :
      Step s (.dropIterator j) (.ok { s with cursors := s.cursors.eraseIdx j })
  | set {s : Spec} {i : Nat} {h : Storage} {k v : Bytes} (hh : s.handles[i]? = some h)
      (hk : k.length ≤ 510) :
      Step s (.set i k v) (.ok { s with store := absStep s.store h.num [.set k v] })
  | setLong {s : Spec} {i : Nat} {h : Storage} {k v : Bytes} (hh : s.handles[i]? = some h)
      (hk : 510 < k.length) : Step s (.set i k v) (.error .writeZero)
  | del {s : Spec} {i : Nat} {h : Storage} {k : Bytes} (hh : s.handles[i]? = some h)
      (hk : k.length ≤ 510) :
      Step s (.del i k) (.ok { s with store := absStep s.store h.num [.del k] })
  | delLong {s : Spec} {i : Nat} {h : Storage} {k : Bytes} (hh : s.handles[i]? = some h)
      (hk : 510 < k.length) : Step s (.del i k) (.error .writeZero)
  | batchWrite {s : Spec} {i i' : Nat} {h h' : Storage} {ops : List BatchOp}
      (hh : s.handles[i]? = some h) (hh' : s.handles[i']? = some h')
      (hops : ∀ op ∈ ops, op.keyFits) :
      Step s (.batchWrite i i' ops) (.ok { s with store := absStep s.store h.num ops })
  | batchLong {s : Spec} {i i' : Nat} {h h' : Storage} {ops : List BatchOp}
      (hh : s.handles[i]? = some h) (hh' : s.handles[i']? = some h')
      (hops : ∃ op ∈ ops, op.keyFits = false) : Step s (.batchWrite i i' ops) (.error .writeZero)
  | clear {s : Spec} {i : Nat} {h : Storage} {dropped : CfName → Bytes → Bool}
      (hh : s.handles[i]? = some h) (hp : s.pending h.iteratorsHandle = 0) :
      Step s (.clear i dropped) (.ok { s with store := Function.update s.store h.num .empty })
  | clearPending {s : Spec} {i : Nat} {h : Storage} {dropped : CfName → Bytes → Bool}
      (hh : s.handles[i]? = some h) (hp : s.pending h.iteratorsHandle ≠ 0) :
      Step s (.clear i dropped) (.error (.pendingIterators (s.pending h.iteratorsHandle)))
  | dropHandle {s : Spec} {i : Nat} {h : Storage} (hh : s.handles[i]? = some h)
      (hp : s.pending h.iteratorsHandle = 0) :
      Step s (.dropHandle i) (.ok { s with handles := s.handles.eraseIdx i })
  | dropPending {s : Spec} {i : Nat} {h : Storage} (hh : s.handles[i]? = some h)
      (hp : s.pending h.iteratorsHandle ≠ 0) :
      Step s (.dropHandle i) (.error (.pendingIterators (s.pending h.iteratorsHandle)))
  | fifoCompaction {s : Spec} (dropped : Bytes → Bool) :
      Step s (.fifoCompaction dropped) (.ok { s with store := absCompact s.store dropped })

inductive Spec.Runs : Spec → List Action → Except Panic Spec → Prop
  | nil (s : Spec) : Runs s [] (.ok s)
  | step {s s' : Spec} {a : Action} {as : List Action} {r : Except Panic Spec} :
      Step s a (.ok s') → Runs s' as r → Runs s (a :: as) r
  | panic {s : Spec} {a : Action} {as : List Action} {e : Panic} :
      Step s a (.error e) → Runs s (a :: as) (.error e)

end Sucredb
