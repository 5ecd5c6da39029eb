import FlowGraph.Proofs.Pool
import Mathlib.Data.Finmap

/-! # The pool as a ledger

Whatever is asked of a pool, and in whatever order, it answers as a ledger does that has only two
things written down: a finite map from slots to edges, and the slots that have been given up and not
been taken again, the one given up last first. From these two the ledger tells which slot the next
edge takes. The pool tells it from its stack, which is therefore never out of step with the slots. -/

namespace FlowGraph

/-- What may be asked of a pool of edges. -/
inductive PoolRequest where
  | alloc (edge : Edge)
  | dealloc (e : EdgeId)
  /-- An edge is rewritten in place. -/
  | modify (e : EdgeId) (f : Edge → Edge)
  | clear

namespace EdgePool

def serve (p : EdgePool) : PoolRequest → EdgePool
  | .alloc edge => (p.alloc edge).2
  | .dealloc e => p.dealloc e
  | .modify e f => p.modify e f
  | .clear => p.clear

def serveAll (p : EdgePool) (rs : List PoolRequest) : EdgePool := rs.foldl serve p

end EdgePool

structure Ledger where
  edges : Finmap fun _ : EdgeId => Edge
  /-- Slots given up and not taken again, the one given up last first. -/
  vacated : List EdgeId

namespace Ledger

def blank : Ledger := ⟨∅, []⟩

/-- Number of slots that have come into use. -/
def width (l : Ledger) : Nat := l.edges.keys.card + l.vacated.length

/-- The slot given up last, or the first one that has not come into use. -/
def nextSlot (l : Ledger) : EdgeId := l.vacated.headD ⟨l.width⟩

/-- Requests that name a slot without an edge leave everything as it is. -/
def serve (l : Ledger) : PoolRequest → Ledger
  | .alloc edge => ⟨l.edges.insert l.nextSlot edge, l.vacated.tail⟩
  | .dealloc e => if e ∈ l.edges then ⟨l.edges.erase e, e :: l.vacated⟩ else l
  | .modify e f =>
    match l.edges.lookup e with
    | some edge => ⟨l.edges.insert e (f edge), l.vacated⟩
    | none => l
  | .clear => blank

def serveAll (l : Ledger) (rs : List PoolRequest) : Ledger := rs.foldl serve l

end Ledger

namespace EdgePool

variable {p : EdgePool} {l : Ledger}

/-! ## In step -/

/-- Slot by slot the pool holds what the ledger says, and its stack is that of the ledger. -/
structure InStep (p : EdgePool) (l : Ledger) : Prop where
  get : ∀ e, p.get? e = l.edges.lookup e
  free : p.free = l.vacated
  sound : p.Sound

namespace InStep

theorem mem_iff (inStep : InStep p l) {e : EdgeId} : e ∈ l.edges ↔ ∃ edge, p.get? e = some edge := by
  rw [Finmap.mem_iff, inStep.get]

theorem not_mem_iff (inStep : InStep p l) {e : EdgeId} : e ∉ l.edges ↔ p.get? e = none := by
  rw [← Finmap.lookup_eq_none, inStep.get]

theorem card_eq (inStep : InStep p l) : l.edges.keys.card = p.entries.length := by
  have keys : l.edges.keys = (p.entries.map Prod.fst).toFinset := by
    ext e
    rw [Finmap.mem_keys, inStep.mem_iff, List.mem_toFinset, mem_entries_fst]
  rw [keys, List.toFinset_card_of_nodup p.nodup_entries, List.length_map]

theorem width_eq (inStep : InStep p l) : l.width = p.capacity := by
  rw [Ledger.width, inStep.card_eq, ← inStep.free, inStep.sound.length_entries]

theorem nextSlot_eq (inStep : InStep p l) : p.nextSlot = l.nextSlot := by
  unfold nextSlot Ledger.nextSlot
  rw [inStep.free, inStep.width_eq]
  rfl

/-! ## One request -/

theorem alloc (inStep : InStep p l) (edge : Edge) :
    InStep (p.serve (.alloc edge)) (l.serve (.alloc edge)) := by
  have slot := inStep.nextSlot_eq
  refine ⟨fun e => ?get, ?free, inStep.sound.insert edge⟩
  case get =>
    change (p.insert edge).get? e = (l.edges.insert l.nextSlot edge).lookup e
    rw [inStep.sound.get?_insert, slot]
    by_cases here : e = l.nextSlot
    · rw [if_pos here, here, Finmap.lookup_insert]
    · rw [if_neg here, Finmap.lookup_insert_of_ne _ here, inStep.get]
  case free =>
    change (p.insert edge).free = l.vacated.tail
    rw [← inStep.free]
    unfold EdgePool.insert
    cases p.free <;> rfl

theorem dealloc (inStep : InStep p l) (e : EdgeId) :
    InStep (p.serve (.dealloc e)) (l.serve (.dealloc e)) := by
  cases stored : p.get? e with
  | none =>
    have absent : e ∉ l.edges := inStep.not_mem_iff.2 stored
    have pool : p.serve (.dealloc e) = p := by simp [serve, EdgePool.dealloc, stored]
    have ledger : l.serve (.dealloc e) = l := by simp [Ledger.serve, absent]
    rw [pool, ledger]
    exact inStep
  | some edge =>
    have present : e ∈ l.edges := inStep.mem_iff.2 ⟨edge, stored⟩
    have ledger : l.serve (.dealloc e) = ⟨l.edges.erase e, e :: l.vacated⟩ := by
      simp [Ledger.serve, present]
    rw [ledger]
    refine ⟨fun e' => ?get, ?free, inStep.sound.dealloc e⟩
    case get =>
      change (p.dealloc e).get? e' = (l.edges.erase e).lookup e'
      rw [get?_dealloc]
      by_cases here : e' = e
      · rw [if_pos here, here, Finmap.lookup_erase]
      · rw [if_neg here, Finmap.lookup_erase_ne here, inStep.get]
    case free =>
      change (p.dealloc e).free = e :: l.vacated
      simp [EdgePool.dealloc, stored, inStep.free]

theorem modify (inStep : InStep p l) (e : EdgeId) (f : Edge → Edge) :
    InStep (p.serve (.modify e f)) (l.serve (.modify e f)) := by
  have sound : (p.modify e f).Sound := inStep.sound.modify e f
  cases stored : l.edges.lookup e with
  | none =>
    have ledger : l.serve (.modify e f) = l := by simp [Ledger.serve, stored]
    rw [ledger]
    refine ⟨fun e' => ?_, inStep.free, sound⟩
    change (p.modify e f).get? e' = l.edges.lookup e'
    rw [get?_modify, inStep.get]
    by_cases here : e' = e
    · rw [if_pos here, here, stored, Option.map_none]
    · rw [if_neg here]
  | some edge =>
    have ledger : l.serve (.modify e f) = ⟨l.edges.insert e (f edge), l.vacated⟩ := by
      simp [Ledger.serve, stored]
    rw [ledger]
    refine ⟨fun e' => ?_, inStep.free, sound⟩
    change (p.modify e f).get? e' = (l.edges.insert e (f edge)).lookup e'
    rw [get?_modify, inStep.get]
    by_cases here : e' = e
    · rw [if_pos here, here, stored, Option.map_some, Finmap.lookup_insert]
    · rw [if_neg here, Finmap.lookup_insert_of_ne _ here]

end InStep

theorem inStep_blank : InStep empty Ledger.blank := ⟨fun _ => rfl, rfl, sound_empty⟩

theorem InStep.serve (inStep : InStep p l) (r : PoolRequest) : InStep (p.serve r) (l.serve r) := by
  cases r with
  | alloc edge => exact inStep.alloc edge
  | dealloc e => exact inStep.dealloc e
  | modify e f => exact inStep.modify e f
  | clear => exact inStep_blank

/-! ## Any number of requests -/

theorem InStep.serveAll (rs : List PoolRequest) :
    ∀ {p : EdgePool} {l : Ledger}, InStep p l → InStep (p.serveAll rs) (l.serveAll rs) := by
  induction rs with
  | nil => exact id
  | cons r rs ih => exact fun inStep => ih (inStep.serve r)

/-- All that can be seen of a pool is what its ledger says. -/
structure Mirrors (p : EdgePool) (l : Ledger) : Prop where
  get : ∀ e, p.get? e = l.edges.lookup e
  entries : ∀ e edge, (e, edge) ∈ p.entries ↔ l.edges.lookup e = some edge
  ascending : p.entries.Pairwise fun one other => one.1.index < other.1.index
  issue : ∀ edge, (p.alloc edge).1 = l.nextSlot
  capacity : p.capacity = l.width
  /-- No edge holds the slot that the next one takes. -/
  fresh : ∀ edge, (p.alloc edge).1 ∉ l.edges
  free : p.free = l.vacated
  distinct : p.free.Nodup
  vacant : ∀ e, e ∈ p.free ↔ e.index < p.capacity ∧ e ∉ l.edges
  size : p.size = l.edges.keys.card
  /-- There are no more slots on the stack than slots, so counting the others never falls short. -/
  room : p.free.length ≤ p.capacity

theorem InStep.mirrors (inStep : InStep p l) : p.Mirrors l := by
  have sound := inStep.sound
  have all := sound.length_entries
  have slot (edge : Edge) : (p.alloc edge).1 = p.nextSlot := rfl
  refine ⟨inStep.get, fun e edge => ?entries, p.sorted_entries, fun edge => ?issue,
    inStep.width_eq.symm, fun edge => ?fresh, inStep.free, sound.distinct, fun e => ?vacant, ?size,
    by omega⟩
  case entries => rw [mem_entries, inStep.get]
  case issue => rw [slot, inStep.nextSlot_eq]
  case fresh =>
    rw [slot, inStep.not_mem_iff]
    exact sound.get?_nextSlot
  case vacant => rw [sound.mem_free, inStep.not_mem_iff]
  case size => rw [sound.size_eq, inStep.card_eq]

/-- Whatever is asked of a pool and of a ledger that begin empty, they agree in all that can be seen,
and a slot is issued only while no edge holds it. -/
theorem serveAll_mirrors (rs : List PoolRequest) :
    (empty.serveAll rs).Mirrors (Ledger.blank.serveAll rs) :=
  (inStep_blank.serveAll rs).mirrors

/-- A slot is given up twice and reissued once: the second time counts for nothing. -/
example (edge : Edge) : ((empty.serveAll [.alloc edge, .alloc edge, .dealloc ⟨0⟩, .dealloc ⟨0⟩,
    .alloc edge]).alloc edge).1 = ⟨2⟩ := rfl

end EdgePool

end FlowGraph
