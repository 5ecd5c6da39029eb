import FlowGraph.Proofs.Consistency

/-! # What can be observed of a graph

A path from entry is observed through the instructions of its blocks. No-ops, offset markers and
branches are not observed, since they do nothing but lead on. An edge is observed only if it leaves
its block by an exception or a return, or if a jump table chooses it.

A pass may lead around a block of which nothing is observed. The words of the complete paths, those
to exit, stay the same, and no path gets a new word. But if the way into the block is observed, the
word of a path that stops right there is only found again as the beginning of a longer one. -/

namespace FlowGraph

inductive Event where
  | exec (i : Instr)
  /-- The block is left by an edge of this kind. -/
  | leave (kind : EdgeKind)
  /-- A jump table chooses the edge at this place in the array of its block. -/
  | choose (position : Nat)
deriving DecidableEq, Repr

def Event.isTurn : Event → Bool
  | exec _ => false
  | leave _ | choose _ => true

def Opcode.isSilent (op : Opcode) : Bool := op = .nop || op = .markOffset || op.isBranch

/-- What is observed of the instructions of a block. -/
def observed (is : List Instr) : List Event := (is.filter fun i => !i.opcode.isSilent).map .exec

/-- What is observed of an edge at a place in the array of a block with this last instruction. -/
def turn (last : Option Instr) (kind : EdgeKind) (position : Nat) : List Event :=
  (if kind = .except ∨ kind = .ret then [.leave kind] else []) ++
    if last.any (·.opcode = .jumpTable) then [.choose position] else []

/-- The last event of the word belongs to an edge. -/
def EndsInTurn (w : List Event) : Prop := ∃ u event, w = u ++ [event] ∧ event.isTurn = true

theorem isTurn_of_mem_turn {last : Option Instr} {kind : EdgeKind} {position : Nat} {event : Event}
    (member : event ∈ turn last kind position) : event.isTurn = true := by
  unfold turn at member
  rw [List.mem_append] at member
  cases member with
  | inl leave =>
    split at leave
    · rw [List.mem_singleton.1 leave]
      rfl
    · cases leave
  | inr choose =>
    split at choose
    · rw [List.mem_singleton.1 choose]
      rfl
    · cases choose

namespace Graph

/-! ## Words of paths -/

/-- What is observed of a block. -/
def code (g : Graph) (b : BlockId) : List Event := (g.block? b).elim [] fun data => observed data.instrs

/-- An edge leads from `b` to `d`, and `w` is what is observed of it. -/
def Leads (g : Graph) (b : BlockId) (w : List Event) (d : BlockId) : Prop :=
  ∃ data e edge, g.block? b = some data ∧ g.edges.get? e = some edge ∧ edge.src = b ∧ edge.dst = d ∧
    w = turn data.last? edge.kind (data.succs.idxOf e)

/-- A path leads from entry to a block, and the word is what is observed up to there. -/
inductive Trace (g : Graph) : List Event → BlockId → Prop where
  | entry : Trace g [] .entry
  | along {w u : List Event} {b d : BlockId} (trace : Trace g w b) (leads : g.Leads b u d) :
    Trace g (w ++ g.code b ++ u) d

/-- The word of some finite path from entry. -/
def Shows (g : Graph) (w : List Event) : Prop := ∃ u b, g.Trace u b ∧ w = u ++ g.code b

/-- The word of some path from entry to exit. -/
def Completes (g : Graph) (w : List Event) : Prop := ∃ u, g.Trace u .exit ∧ w = u ++ g.code .exit

/-- All words of complete paths are kept, and no word is new. A word that is lost ends in what is
observed of an edge, and some longer word begins with it. -/
structure Preserves (g g' : Graph) : Prop where
  completes : ∀ w, g'.Completes w ↔ g.Completes w
  sound : ∀ w, g'.Shows w → g.Shows w
  kept : ∀ w, g.Shows w → g'.Shows w ∨ EndsInTurn w ∧ ∃ rest, g'.Shows (w ++ rest)

section

variable {g g' : Graph} {w u : List Event} {b c d : BlockId}

theorem Preserves.refl (g : Graph) : Preserves g g :=
  ⟨fun _ => .rfl, fun _ shown => shown, fun _ shown => .inl shown⟩

theorem Preserves.trans {g'' : Graph} (first : Preserves g g') (second : Preserves g' g'') :
    Preserves g g'' := by
  refine ⟨fun w => (second.completes w).trans (first.completes w),
    fun w shown => first.sound w (second.sound w shown), fun w shown => ?_⟩
  obtain shown | ⟨turns, rest, shown⟩ := first.kept w shown
  · exact second.kept w shown
  · refine .inr ⟨turns, ?_⟩
    obtain shown | ⟨-, more, shown⟩ := second.kept (w ++ rest) shown
    · exact ⟨rest, shown⟩
    · exact ⟨rest ++ more, by rwa [← List.append_assoc]⟩

theorem Leads.eq_nil_or_endsInTurn (leads : g.Leads b u d) (w : List Event) :
    u = [] ∨ EndsInTurn (w ++ u) := by
  obtain ⟨data, e, edge, -, -, -, -, same⟩ := leads
  cases List.eq_nil_or_concat u with
  | inl nothing => exact .inl nothing
  | inr split =>
    obtain ⟨front, event, rfl⟩ := split
    have member : event ∈ turn data.last? edge.kind (data.succs.idxOf e) := by
      rw [← same]
      simp
    exact .inr ⟨w ++ front, event, by rw [List.concat_eq_append, List.append_assoc],
      isTurn_of_mem_turn member⟩

/-- A list that is closed under edges holds every path, together with what is observed of it. -/
theorem Trace.mem_of_closed {known : List (List Event × BlockId)} (entry : ([], .entry) ∈ known)
    (closed : ∀ p ∈ known, ∀ q ∈ g.edges.entries, q.2.src = p.2 → ∀ data ∈ g.block? p.2,
      (p.1 ++ g.code p.2 ++ turn data.last? q.2.kind (data.succs.idxOf q.1), q.2.dst) ∈ known)
    (trace : g.Trace w b) : (w, b) ∈ known := by
  induction trace with
  | entry => exact entry
  | along trace leads ih =>
    obtain ⟨data, e, edge, found, stored, src, rfl, rfl⟩ := leads
    exact closed _ ih (e, edge) (EdgePool.mem_entries.2 stored) src data found

/-! ## Where nothing is changed -/

theorem Preserves.of_same (inside : BlockId → Prop) (entry : inside .entry)
    (closed : ∀ b u d, inside b → g.Leads b u d → inside d)
    (code : ∀ b, inside b → g'.code b = g.code b)
    (leads : ∀ b u d, inside b → (g'.Leads b u d ↔ g.Leads b u d)) : Preserves g g' := by
  -- a path stays where both graphs have the same blocks and edges
  have forward {w : List Event} {b : BlockId} (trace : g.Trace w b) : g'.Trace w b ∧ inside b := by
    induction trace with
    | entry => exact ⟨.entry, entry⟩
    | along trace step ih =>
      obtain ⟨trace', member⟩ := ih
      rw [← code _ member]
      exact ⟨trace'.along ((leads _ _ _ member).2 step), closed _ _ _ member step⟩
  have backward {w : List Event} {b : BlockId} (trace : g'.Trace w b) : g.Trace w b ∧ inside b := by
    induction trace with
    | entry => exact ⟨.entry, entry⟩
    | along trace step ih =>
      obtain ⟨trace', member⟩ := ih
      have step' := (leads _ _ _ member).1 step
      rw [code _ member]
      exact ⟨trace'.along step', closed _ _ _ member step'⟩
  refine ⟨fun w => ⟨?_, ?_⟩, ?_, ?_⟩
  · rintro ⟨u, trace, rfl⟩
    obtain ⟨trace', member⟩ := backward trace
    exact ⟨u, trace', by rw [code _ member]⟩
  · rintro ⟨u, trace, rfl⟩
    obtain ⟨trace', member⟩ := forward trace
    exact ⟨u, trace', by rw [code _ member]⟩
  · rintro w ⟨u, b, trace, rfl⟩
    obtain ⟨trace', member⟩ := backward trace
    exact ⟨u, b, trace', by rw [code _ member]⟩
  · rintro w ⟨u, b, trace, rfl⟩
    obtain ⟨trace', member⟩ := forward trace
    exact .inl ⟨u, b, trace', by rw [code _ member]⟩

/-! ## Leading around a block -/

/-- Some ways into the block `m`, of which nothing is observed, lead on to its only successor `t`
instead. The block itself is as it was, or no way leads into it any more. -/
structure Bypassed (m t : BlockId) (g g' : Graph) : Prop where
  notEntry : m ≠ .entry
  notExit : m ≠ .exit
  silent : g.code m = []
  only : ∀ u d, g.Leads m u d ↔ u = [] ∧ d = t
  code : ∀ c, c ≠ m → g'.code c = g.code c
  forward : ∀ c u d, c ≠ m → g.Leads c u d → g'.Leads c u d ∨ d = m ∧ g'.Leads c u t
  backward : ∀ c u d, c ≠ m → g'.Leads c u d → g.Leads c u d ∨ d = t ∧ g.Leads c u m
  stays : ∀ c u, g'.Leads c u m → g'.code m = [] ∧ ∀ u d, g'.Leads m u d ↔ u = [] ∧ d = t

namespace Bypassed

variable {m t : BlockId}

theorem reached (bypassed : Bypassed m t g g') (trace : g'.Trace w m) :
    g'.code m = [] ∧ ∀ u d, g'.Leads m u d ↔ u = [] ∧ d = t := by
  cases trace with
  | entry => exact absurd rfl bypassed.notEntry
  | along _ leads => exact bypassed.stays _ _ leads

theorem trace_sound (bypassed : Bypassed m t g g') (trace : g'.Trace w c) : g.Trace w c := by
  induction trace with
  | entry => exact .entry
  | @along w u b d trace leads ih =>
    by_cases here : b = m
    · subst b
      obtain ⟨silent, only⟩ := bypassed.reached trace
      obtain ⟨rfl, rfl⟩ := (only u d).1 leads
      have step := ih.along ((bypassed.only [] d).2 ⟨rfl, rfl⟩)
      rw [bypassed.silent] at step
      rwa [silent]
    · rw [bypassed.code b here]
      obtain direct | ⟨rfl, into⟩ := bypassed.backward b u d here leads
      · exact ih.along direct
      · -- the way around the block is the way through it
        have through := (ih.along into).along ((bypassed.only [] d).2 ⟨rfl, rfl⟩)
        rwa [bypassed.silent, List.append_nil, List.append_nil] at through

theorem trace_kept (bypassed : Bypassed m t g g') (trace : g.Trace w c) :
    g'.Trace w c ∨ c = m ∧ g'.Trace w t ∧ (g'.Shows w ∨ EndsInTurn w) := by
  induction trace with
  | entry => exact .inl .entry
  | @along w u b d trace leads ih =>
    obtain trace' | ⟨rfl, trace', -⟩ := ih
    · by_cases here : b = m
      · subst b
        obtain ⟨silent, only⟩ := bypassed.reached trace'
        obtain ⟨rfl, rfl⟩ := (bypassed.only u d).1 leads
        have step := trace'.along ((only [] d).2 ⟨rfl, rfl⟩)
        rw [silent] at step
        rw [bypassed.silent]
        exact .inl step
      · rw [← bypassed.code b here]
        obtain direct | ⟨rfl, around⟩ := bypassed.forward b u d here leads
        · exact .inl (trace'.along direct)
        · refine .inr ⟨rfl, trace'.along around, ?_⟩
          obtain rfl | turns := leads.eq_nil_or_endsInTurn (w ++ g'.code b)
          · exact .inl ⟨w, b, trace', by rw [List.append_nil]⟩
          · exact .inr turns
    · -- the path has been waiting behind the block, and now leaves it
      obtain ⟨rfl, rfl⟩ := (bypassed.only u d).1 leads
      rw [bypassed.silent, List.append_nil, List.append_nil]
      exact .inl trace'

theorem preserves (bypassed : Bypassed m t g g') : Preserves g g' := by
  have code (w : List Event) (b : BlockId) (trace : g'.Trace w b) : g'.code b = g.code b := by
    by_cases here : b = m
    · subst b
      rw [(bypassed.reached trace).1, bypassed.silent]
    · exact bypassed.code b here
  refine ⟨fun w => ⟨?_, ?_⟩, ?_, ?_⟩
  · rintro ⟨u, trace, rfl⟩
    exact ⟨u, bypassed.trace_sound trace, by rw [code u _ trace]⟩
  · rintro ⟨u, trace, rfl⟩
    obtain trace' | ⟨atExit, -⟩ := bypassed.trace_kept trace
    · exact ⟨u, trace', by rw [code u _ trace']⟩
    · exact absurd atExit.symm bypassed.notExit
  · rintro w ⟨u, b, trace, rfl⟩
    exact ⟨u, b, bypassed.trace_sound trace, by rw [code u b trace]⟩
  · rintro w ⟨u, b, trace, rfl⟩
    obtain trace' | ⟨rfl, trace', shown⟩ := bypassed.trace_kept trace
    · exact .inl ⟨u, b, trace', by rw [code u b trace']⟩
    · rw [bypassed.silent, List.append_nil]
      exact shown.imp_right fun turns => ⟨turns, _, u, t, trace', rfl⟩

end Bypassed

end

end Graph

end FlowGraph
