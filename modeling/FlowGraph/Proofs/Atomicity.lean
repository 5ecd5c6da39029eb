import FlowGraph.Proofs.Derivation

/-! # A build that fails changes nothing

A build goes along the layout twice. The first pass only looks: it works out the edges of block after
block and stops at the first one whose last instruction sends control nowhere. Only then do the old
edges go, and a second pass works the edges out again while it fills the graph. All that it writes
are edges, on which no instruction, label or link depends, so what the first pass has let through
cannot fail in the second one.

A build that fails returns no graph. To say that it leaves the graph as it was, the two passes are
written once more as steps on a graph in place, which keep what they have changed when they fail. -/

namespace FlowGraph

/-! ## Instructions that send control nowhere -/

/-- The instruction must name the label it sends control to. -/
def Instr.NeedsDest (i : Instr) : Prop :=
  i.opcode.flow = .branch ∨ i.opcode.flow = .conditionalBranch ∨ i.opcode.flow = .callHandler

namespace Graph

/-- An instruction at the end of `b` sends control nowhere, for which this fault is reported. -/
inductive Astray (g : Graph) (b : BlockId) (i : Instr) : Fault → Prop where
  | missing (needs : i.NeedsDest) (dest : i.dest = none) : Astray g b i (.missingTarget b)
  | unbound {l : Label} (needs : i.NeedsDest) (dest : i.dest = some l)
      (unbound : g.resolve l = none) : Astray g b i (.undefinedLabel l b)
  | entry {before after : List Label} {l : Label} (flow : i.opcode.flow = .jumpTable)
      (table : i.table = before ++ l :: after) (bound : ∀ k ∈ before, (g.resolve k).isSome)
      (unbound : g.resolve l = none) : Astray g b i (.undefinedLabel l b)

/-- The last instruction of `b` sends control nowhere. -/
def Stranded (g : Graph) (b : BlockId) (f : Fault) : Prop :=
  ∃ data i, g.block? b = some data ∧ data.instrs.getLast? = some i ∧ g.Astray b i f

section

variable {g : Graph} {xs : List BlockId} {b : BlockId} {i : Instr} {f : Fault}

theorem target_eq_error {l : Label} :
    g.target b l = .error f ↔ g.resolve l = none ∧ f = .undefinedLabel l b := by
  unfold target
  cases g.resolve l <;> simp [eq_comm]

theorem destination_eq_error : g.destination b i = .error f ↔
    (i.dest = none ∧ f = .missingTarget b) ∨
      ∃ l, i.dest = some l ∧ g.resolve l = none ∧ f = .undefinedLabel l b := by
  unfold destination
  cases i.dest with
  | none => simp [eq_comm]
  | some l => simp [target_eq_error]

theorem astray_iff_destination (needs : i.NeedsDest) :
    g.Astray b i f ↔ g.destination b i = .error f := by
  rw [destination_eq_error]
  constructor
  · intro astray
    cases astray with
    | missing _ dest => exact .inl ⟨dest, rfl⟩
    | unbound _ dest unbound => exact .inr ⟨_, dest, unbound, rfl⟩
    | entry flow => simp [Instr.NeedsDest, flow] at needs
  · rintro (⟨dest, rfl⟩ | ⟨l, dest, unbound, rfl⟩)
    · exact .missing needs dest
    · exact .unbound needs dest unbound

theorem astray_iff_table (flow : i.opcode.flow = .jumpTable) : g.Astray b i f ↔
    ∃ before l after, i.table = before ++ l :: after ∧ (∀ k ∈ before, (g.resolve k).isSome) ∧
      g.resolve l = none ∧ f = .undefinedLabel l b := by
  constructor
  · intro astray
    cases astray with
    | missing needs => simp [Instr.NeedsDest, flow] at needs
    | unbound needs => simp [Instr.NeedsDest, flow] at needs
    | entry _ table bound unbound => exact ⟨_, _, _, table, bound, unbound, rfl⟩
  · rintro ⟨before, l, after, table, bound, unbound, rfl⟩
    exact .entry flow table bound unbound

/-- Arrows cannot be worked out exactly for the instructions that send control nowhere. -/
theorem transfers_eq_error : g.transfers b i = .error f ↔ g.Astray b i f := by
  have aimed (k : EdgeKind) (x : Except Fault BlockId) :
      (do return [(← x, k)]) = Except.error f ↔ x = .error f := by
    cases x <;> simp [bind, Except.bind, pure, Except.pure]
  have found (l : Label) : (∃ a, (do return (← g.target b l, EdgeKind.branch)) = Except.ok a) ↔
      (g.resolve l).isSome := by
    unfold target
    cases g.resolve l <;> simp [bind, Except.bind, pure, Except.pure]
  have lost (l : Label) : (do return (← g.target b l, EdgeKind.branch)) = Except.error f ↔
      g.resolve l = none ∧ f = .undefinedLabel l b := by
    rw [← target_eq_error]
    cases g.target b l <;> simp [bind, Except.bind, pure, Except.pure]
  unfold transfers
  cases flow : i.opcode.flow with
  | ret | throw | call | sequential =>
    constructor
    · rintro ⟨⟩
    · intro astray
      cases astray <;> simp_all [Instr.NeedsDest]
  | branch | conditionalBranch | callHandler =>
    rw [astray_iff_destination (by simp [Instr.NeedsDest, flow])]
    exact aimed _ _
  | jumpTable =>
    rw [astray_iff_table flow]
    simp only [mapM_eq_error, found, lost]

/-! ## Blocks whose edges cannot be planned -/

theorem outgoing_eq_error {data : Block} (here : g.block? b = some data) :
    g.outgoing b = .error f ↔ g.Stranded b f := by
  have stranded : g.Stranded b f ↔ ∃ i, data.instrs.getLast? = some i ∧ g.Astray b i f := by
    simp only [Stranded, here, Option.some.injEq, exists_and_left, exists_eq_left']
  rw [outgoing_of_block here, bind_eq_error, stranded, Block.last?]
  cases last : data.instrs.getLast? <;> simp [calls, transfers_eq_error]

theorem planned_eq_error (laid : g.LaidOut xs) :
    g.planned = .error f ↔ xs.dropLast.mapM g.plannedFrom = .error f := by
  rw [planned, laid.body_eq]
  cases xs.dropLast.mapM g.plannedFrom <;> simp [Trail.finish, bind, Except.bind, pure, Except.pure]

theorem build_eq_error : g.build = .error f ↔ g.planned = .error f := by
  cases planned : g.planned with
  | error e =>
    rw [build, planned, bind_eq_error]
    simp
  | ok es => simp [build_eq_ok_iff.2 ⟨es, planned, rfl⟩]

variable (laid : g.LaidOut xs) (bound : ∀ l t, g.resolve l = some t → (g.block? t).isSome)
include laid bound

/-- Where the labels are bound inside the arena, arrows end inside. -/
theorem inside_of_sends {out : List (BlockId × EdgeKind)} (sends : g.Sends i out) :
    ∀ a ∈ out, (g.block? a.1).isSome := by
  cases sends with
  | ret | uncaught => simpa using laid.closed
  | branch _ _ found | callHandler _ _ found | caught _ _ found => simpa using bound _ _ found
  | sequential => simp
  | jumpTable _ found =>
    intro a member
    obtain ⟨t, inTable, rfl⟩ := List.mem_map.1 member
    obtain ⟨l, -, found⟩ := exists_of_forall₂ found inTable
    exact bound l t found

theorem inside_of_outgoing (member : b ∈ xs) {out : List (BlockId × EdgeKind)}
    (called : g.outgoing b = .ok out) : ∀ a ∈ out, (g.block? a.1).isSome := by
  obtain ⟨data, here⟩ := laid.exists_block member
  rw [outgoing_of_block here, bind_eq_ok] at called
  obtain ⟨explicit, called, same⟩ := called
  cases same
  intro a inOut
  obtain inOut | inOut := List.mem_append.1 inOut
  · cases last : data.last? with
    | none =>
      rw [last] at called
      cases called
      cases inOut
    | some i =>
      rw [last] at called
      exact inside_of_sends laid bound (transfers_eq_ok_iff_sends.1 called) a inOut
  · -- the arrow out of the bottom goes to the block behind
    obtain ⟨c, next, rfl⟩ : ∃ c, data.next = some c ∧ (c, .fallthru) = a := by
      unfold fallthrough at inOut
      split at inOut <;> simp_all
    rw [← next?_eq here] at next
    exact Option.isSome_iff_exists.2 (laid.exists_block (laid.next?_mem member next).1)

theorem plannedFrom_eq_error (member : b ∈ xs) : g.plannedFrom b = .error f ↔ g.Stranded b f := by
  obtain ⟨data, here⟩ := laid.exists_block member
  rw [← outgoing_eq_error here]
  cases called : g.outgoing b with
  | error e =>
    rw [plannedFrom, called, bind_eq_error]
    simp
  | ok out =>
    have planned : g.plannedFrom b = .ok (edgesFrom b (g.due b)) := by
      obtain ⟨calledDue, rfl⟩ := outgoing_eq_ok_iff.1 called
      exact plannedFrom_eq_ok.2 ⟨⟨calledDue, inside_of_outgoing laid bound member called⟩, rfl⟩
    rw [planned]
    simp

theorem exists_plannedFrom (member : b ∈ xs) :
    (∃ es, g.plannedFrom b = .ok es) ↔ ∀ f, ¬g.Stranded b f := by
  simp only [← plannedFrom_eq_error laid bound member]
  cases g.plannedFrom b <;> simp

/-! ## The first block from which control goes nowhere -/

theorem build_eq_error_iff : g.build = .error f ↔ ∃ l b r, xs = l ++ b :: r ∧ b ≠ .exit ∧
      (∀ c ∈ l, ∀ f', ¬g.Stranded c f') ∧ g.Stranded b f := by
  rw [build_eq_error, planned_eq_error laid, mapM_eq_error]
  have member {l r : List BlockId} {b : BlockId} (split : xs = l ++ b :: r) :
      b ∈ xs ∧ ∀ c ∈ l, c ∈ xs := by
    simp +contextual [split]
  constructor
  · rintro ⟨l, b, r, split, fine, failed⟩
    obtain ⟨inner, r, split⟩ := laid.dropLast_eq_append_cons.1 ⟨r, split⟩
    refine ⟨l, b, r, split, inner, fun c before => ?_, ?_⟩
    · exact (exists_plannedFrom laid bound ((member split).2 c before)).1 (fine c before)
    · exact (plannedFrom_eq_error laid bound (member split).1).1 failed
  · rintro ⟨l, b, r, split, inner, fine, stranded⟩
    obtain ⟨r', inBody⟩ := laid.dropLast_eq_append_cons.2 ⟨inner, r, split⟩
    refine ⟨l, b, r', inBody, fun c before => ?_, ?_⟩
    · exact (exists_plannedFrom laid bound ((member split).2 c before)).2 (fine c before)
    · exact (plannedFrom_eq_error laid bound (member split).1).2 stranded

end

/-! ## Steps on a graph in place -/

/-- Steps that change a graph in place. What they have changed before a fault stays changed. -/
abbrev InPlace := ExceptT Fault (StateM Graph)

namespace InPlace

variable {α β : Type} {g : Graph}

/-- What comes of the steps, and the graph that they leave behind. -/
def runOn (x : InPlace α) (g : Graph) : Except Fault α × Graph := (x.run.run g).run

def read (look : Graph → Except Fault α) : InPlace α := do ofExcept (look (← get))

def write (change : Graph → Except Fault Graph) : InPlace Unit := do
  set (← ofExcept (change (← get)))

/-! ### Step by step -/

theorem runOn_ofExcept (x : Except Fault α) : runOn (ofExcept x) g = (x, g) := by
  cases x <;> rfl

theorem runOn_bind (x : InPlace α) (f : α → InPlace β) : runOn (x >>= f) g =
    match runOn x g with
    | (.ok a, g') => runOn (f a) g'
    | (.error e, g') => (.error e, g') := by
  unfold runOn
  simp only [ExceptT.run_bind, StateT.run_bind, Id.run_bind]
  rcases (x.run.run g).run with ⟨_ | _, _⟩ <;> rfl

theorem runOn_bind_of_ok {x : InPlace α} {g' : Graph} {a : α} (ran : runOn x g = (.ok a, g'))
    (f : α → InPlace β) : runOn (x >>= f) g = runOn (f a) g' := by
  rw [runOn_bind, ran]

theorem runOn_bind_of_error {x : InPlace α} {g' : Graph} {e : Fault}
    (ran : runOn x g = (.error e, g')) (f : α → InPlace β) :
    runOn (x >>= f) g = (.error e, g') := by
  rw [runOn_bind, ran]

@[simp] theorem runOn_read (look : Graph → Except Fault α) : runOn (read look) g = (look g, g) := by
  have got : runOn get g = (.ok g, g) := rfl
  rw [read, runOn_bind_of_ok got, runOn_ofExcept]

theorem runOn_write {change : Graph → Except Fault Graph} {g' : Graph}
    (changed : change g = .ok g') : runOn (write change) g = (.ok (), g') := by
  have got : runOn get g = (.ok g, g) := rfl
  have given : runOn (ofExcept (change g)) g = (.ok g', g) := by
    rw [runOn_ofExcept, changed]
  rw [write, runOn_bind_of_ok got, runOn_bind_of_ok given]
  rfl

/-! ### The two passes -/

/-- Visits block after block up to exit. Which one comes next is read when a block has been
visited. -/
def pass (visit : BlockId → InPlace Unit) : Nat → Option BlockId → InPlace Unit
  | _, none => pure ()
  | 0, some _ => throw .endless
  | n + 1, some b =>
    if b = .exit then pure ()
    else do
      visit b
      let data ← read (·.block b)
      pass visit n data.next

/-- Works out the edges of `b` and keeps none of them. -/
def check (b : BlockId) : InPlace Unit := do let _ ← read (·.plannedFrom b)

/-- Works out the edges of `b` and enters them one by one. -/
def fill (b : BlockId) : InPlace Unit := do
  forM (edgesFrom b (← read (·.outgoing b))) fun edge =>
    write fun g => do return (← g.connect edge.src edge.dst edge.kind).2

/-- Goes along the layout to check it, gives up the edges there are, and goes along it again. -/
def build : InPlace Unit := do
  let steps ← read fun g => .ok (g.blockCount + 1)
  pass check steps (some .entry)
  write fun g => .ok g.disconnectAll
  pass fill steps (some .entry)

section

variable {h h' : Graph} {xs : List BlockId} {es : List Edge} {b c : BlockId}

theorem runOn_check (b : BlockId) :
    runOn (check b) g = ((g.plannedFrom b).map fun _ => (), g) := by
  rw [check, runOn_bind, runOn_read]
  cases g.plannedFrom b <;> rfl

/-- The first pass fails if the edges of some block cannot be planned, and it changes nothing. -/
theorem runOn_pass_check (laid : g.LaidOut xs) (t : List BlockId) :
    ∀ (l : List BlockId) (b : BlockId) (n : Nat), xs = l ++ b :: t → t.length < n →
      runOn (pass check n (some b)) g =
        (((b :: t).dropLast.mapM g.plannedFrom).map fun _ => (), g) := by
  induction t with
  | nil =>
    intro l b n split enough
    obtain ⟨n, rfl⟩ := Nat.exists_eq_add_one_of_ne_zero (Nat.ne_zero_of_lt enough)
    have atExit : b = .exit := by simpa [split] using laid.last
    rw [pass, if_pos atExit]
    rfl
  | cons c t ih =>
    intro l b n split enough
    obtain ⟨n, rfl⟩ := Nat.exists_eq_add_one_of_ne_zero (Nat.ne_zero_of_lt enough)
    have link := (laid.linked split).1
    obtain ⟨data, found, next⟩ := exists_of_next? link
    have looked : runOn (read (·.block b)) g = (.ok data, g) := by
      rw [runOn_read, block_eq_ok.2 found]
    rw [pass, if_neg (laid.ne_exit link), List.dropLast_cons_cons, List.mapM_cons]
    cases planned : g.plannedFrom b with
    | error e =>
      have checked : runOn (check b) g = (.error e, g) := by
        rw [runOn_check, planned]
        rfl
      rw [runOn_bind_of_error checked]
      rfl
    | ok es =>
      have checked : runOn (check b) g = (.ok (), g) := by
        rw [runOn_check, planned]
        rfl
      rw [runOn_bind_of_ok checked, runOn_bind_of_ok looked, next]
      rw [ih (l ++ [b]) c n (by simp [split]) (by simpa using enough)]
      cases (c :: t).dropLast.mapM g.plannedFrom <;> rfl

theorem runOn_check_layout (laid : g.LaidOut xs) :
    runOn (pass check (g.blockCount + 1) (some .entry)) g = (g.planned.map fun _ => (), g) := by
  obtain ⟨t, split, enough⟩ := laid.eq_entry_cons
  rw [runOn_pass_check laid t [] .entry _ split (Nat.lt_succ_of_lt enough), ← split, planned,
    laid.body_eq]
  cases xs.dropLast.mapM g.plannedFrom <;> rfl

theorem runOn_forM_connect (connected : h.connectAll es = .ok h') :
    runOn (forM es fun edge => write fun g => do
      return (← g.connect edge.src edge.dst edge.kind).2) h = (.ok (), h') := by
  induction es generalizing h with
  | nil =>
    cases connected
    rfl
  | cons edge es ih =>
    rw [connectAll, List.foldlM_cons, bind_eq_ok] at connected
    obtain ⟨mid, first, rest⟩ := connected
    rw [List.forM_cons, runOn_bind_of_ok (runOn_write first), ih rest]

theorem runOn_fill (emitted : h.emit b = .ok h') : runOn (fill b) h = (.ok (), h') := by
  obtain ⟨out, called, connected⟩ := bind_eq_ok.1 emitted
  have looked : runOn (read (·.outgoing b)) h = (.ok out, h) := by
    rw [runOn_read, called]
  rw [fill, runOn_bind_of_ok looked, runOn_forM_connect connected]

theorem runOn_pass_fill {n : Nat} {c : Option BlockId} (filled : h.materialize n c = .ok h') :
    runOn (pass fill n c) h = (.ok (), h') := by
  induction n generalizing c h with
  | zero =>
    cases c with
    | none =>
      cases filled
      rfl
    | some b => cases filled
  | succ n ih =>
    cases c with
    | none =>
      cases filled
      rfl
    | some b =>
      rw [materialize] at filled
      rw [pass]
      split at filled
      case isTrue atExit =>
        cases filled
        rw [if_pos atExit]
        rfl
      case isFalse inner =>
        obtain ⟨mid, emitted, filled⟩ := bind_eq_ok.1 filled
        obtain ⟨data, found, filled⟩ := bind_eq_ok.1 filled
        have looked : runOn (read (·.block b)) mid = (.ok data, mid) := by
          rw [runOn_read, found]
        rw [if_neg inner, runOn_bind_of_ok (runOn_fill emitted), runOn_bind_of_ok looked, ih filled]

/-- What the first pass lets through, the second one enters without a fault. -/
theorem runOn_fill_layout (laid : g.LaidOut xs) (planned : g.planned = .ok es) :
    runOn (pass fill (g.blockCount + 1) (some .entry)) g.disconnectAll = (.ok (), g.filled es) :=
  runOn_pass_fill (materialize_of_planned laid planned)

theorem runOn_build (laid : g.LaidOut xs) : runOn build g =
    match g.build with
    | .ok g' => (.ok (), g')
    | .error f => (.error f, g) := by
  have steps : runOn (read fun g => .ok (g.blockCount + 1)) g = (.ok (g.blockCount + 1), g) :=
    runOn_read _
  have checked := runOn_check_layout laid
  rw [build, runOn_bind_of_ok steps]
  cases planned : g.planned with
  | error f =>
    rw [planned] at checked
    rw [runOn_bind_of_error checked, build_eq_error.2 planned]
  | ok es =>
    rw [planned] at checked
    have cleared : runOn (write fun g => .ok g.disconnectAll) g = (.ok (), g.disconnectAll) :=
      runOn_write rfl
    rw [runOn_bind_of_ok checked, runOn_bind_of_ok cleared, runOn_fill_layout laid planned,
      build_eq_ok_iff.2 ⟨es, planned, rfl⟩]

end

end InPlace

/-! ## Atomicity -/

section

variable {g : Graph} {xs : List BlockId}

/-- A build fails exactly if some block in front of exit sends control nowhere, and it reports the
first such block of the layout with its first such label. In place it does what `build` says, and
where it fails the graph is left as it was, edges and cached postorder included. What the first pass
lets through cannot fail in the second one, which is the only one that writes. -/
theorem build_atomic (laid : g.LaidOut xs)
    (bound : ∀ l t, g.resolve l = some t → (g.block? t).isSome) :
    ((∃ f, g.build = .error f) ↔ ∃ b ∈ xs, b ≠ .exit ∧ ∃ f, g.Stranded b f) ∧
    (∀ f, g.build = .error f ↔ ∃ l b r, xs = l ++ b :: r ∧ b ≠ .exit ∧
      (∀ c ∈ l, ∀ f', ¬g.Stranded c f') ∧ g.Stranded b f) ∧
    (∀ f, g.build = .error f → InPlace.build.runOn g = (.error f, g)) ∧
    (∀ g', g.build = .ok g' → InPlace.build.runOn g = (.ok (), g')) ∧
    ∀ h, (InPlace.pass InPlace.check (g.blockCount + 1) (some .entry)).runOn g = (.ok (), h) →
      h = g ∧ ∃ g', g.build = .ok g' ∧
        (InPlace.pass InPlace.fill (g.blockCount + 1) (some .entry)).runOn h.disconnectAll =
          (.ok (), g') := by
  have exact (f : Fault) := build_eq_error_iff (f := f) laid bound
  refine ⟨?fails, exact, ?undone, ?done, ?second⟩
  case fails =>
    constructor
    · rintro ⟨f, failed⟩
      obtain ⟨l, b, r, split, inner, -, stranded⟩ := (exact f).1 failed
      exact ⟨b, by simp [split], inner, f, stranded⟩
    · rintro ⟨b, member, inner, f, stranded⟩
      -- a build that returned would have planned the edges of every block, this one's among them
      cases built : g.build with
      | error f' => exact ⟨f', rfl⟩
      | ok g' =>
        obtain ⟨es, planned, -⟩ := build_eq_ok_iff.1 built
        have inBody := laid.mem_dropLast.2 ⟨member, inner⟩
        have plannable := ((planned_eq_ok laid.body_eq).1 planned).1 b inBody
        have fine := (exists_plannedFrom laid bound member).1
          ⟨_, plannedFrom_eq_ok.2 ⟨plannable, rfl⟩⟩
        exact absurd stranded (fine f)
  case undone =>
    intro f failed
    rw [InPlace.runOn_build laid, failed]
  case done =>
    intro g' built
    rw [InPlace.runOn_build laid, built]
  case second =>
    intro h passed
    rw [InPlace.runOn_check_layout laid, Prod.mk.injEq] at passed
    obtain ⟨passed, rfl⟩ := passed
    cases planned : g.planned with
    | error f =>
      rw [planned] at passed
      cases passed
    | ok es =>
      exact ⟨rfl, g.filled es, build_eq_ok_iff.2 ⟨es, planned, rfl⟩,
        InPlace.runOn_fill_layout laid planned⟩

/-- Whether labels are bound inside the arena can be read off the slots of their table. -/
theorem isSome_of_slots
    (slots : ∀ slot ∈ g.labels.slots.toList, ∀ t ∈ slot.block, (g.block? t).isSome)
    (l : Label) (t : BlockId) (bound : g.resolve l = some t) : (g.block? t).isSome := by
  obtain ⟨slot, found, here⟩ := Option.bind_eq_some_iff.1 bound
  exact slots slot (Array.mem_toList_iff.2 (Array.mem_of_getElem? found)) t here

/-- After a build, block 3 has been given a jump table that also names a label bound nowhere, and
block 4 a branch without destination. The edges and the postorder are still those of before. -/
def derailed : Graph :=
  { switchboard with
    blocks := #[
      { Block.fresh with status := .live, next := some ⟨2⟩, succs := [⟨0⟩] },
      { Block.fresh with status := .live, prev := some ⟨4⟩, preds := [⟨3⟩] },
      { Block.fresh with
        instrs := [.branch .brItrue ⟨2⟩], label := some ⟨1⟩, status := .live
        prev := some .entry, next := some ⟨3⟩, succs := [⟨1⟩, ⟨2⟩], preds := [⟨0⟩] },
      { Block.fresh with
        instrs := [.dispatch [⟨1⟩, ⟨9⟩]], label := some ⟨2⟩, status := .live
        prev := some ⟨2⟩, next := some ⟨4⟩, succs := [⟨3⟩], preds := [⟨1⟩, ⟨2⟩] },
      { Block.fresh with
        instrs := [⟨.br, none, []⟩], deadEnd := true, status := .live
        prev := some ⟨3⟩, next := some .exit }]
    edges := ⟨#[some ⟨.entry, ⟨2⟩, .fallthru⟩, some ⟨⟨2⟩, ⟨3⟩, .branch⟩, some ⟨⟨2⟩, ⟨3⟩, .fallthru⟩,
      some ⟨⟨3⟩, .exit, .ret⟩], []⟩
    order := some [.exit, ⟨3⟩, ⟨2⟩, .entry] }

theorem build_atomic_derailed :
    derailed.LaidOut [.entry, ⟨2⟩, ⟨3⟩, ⟨4⟩, .exit] ∧
    (∀ l t, derailed.resolve l = some t → (derailed.block? t).isSome) ∧
    derailed.build = .error (.undefinedLabel ⟨9⟩ ⟨3⟩) ∧
    InPlace.build.runOn derailed = (.error (.undefinedLabel ⟨9⟩ ⟨3⟩), derailed) ∧
    (∃ l b r, [.entry, ⟨2⟩, ⟨3⟩, ⟨4⟩, .exit] = l ++ b :: r ∧ b ≠ .exit ∧
      (∀ c ∈ l, ∀ f, ¬derailed.Stranded c f) ∧ derailed.Stranded b (.undefinedLabel ⟨9⟩ ⟨3⟩)) := by
  have laid : derailed.LaidOut [.entry, ⟨2⟩, ⟨3⟩, ⟨4⟩, .exit] := by
    have links : List.IsChain derailed.Linked [.entry, ⟨2⟩, ⟨3⟩, ⟨4⟩, .exit] :=
      .cons_cons ⟨rfl, rfl⟩ (.cons_cons ⟨rfl, rfl⟩ (.cons_cons ⟨rfl, rfl⟩
        (.cons_cons ⟨rfl, rfl⟩ (.singleton _))))
    exact ⟨by decide, rfl, rfl, links, rfl, rfl⟩
  have bound := isSome_of_slots (g := derailed) (by decide +kernel)
  have failed : derailed.build = .error (.undefinedLabel ⟨9⟩ ⟨3⟩) := by decide +kernel
  obtain ⟨-, exact, undone, -⟩ := build_atomic laid bound
  exact ⟨laid, bound, failed, undone _ failed, (exact _).1 failed⟩

end

end Graph

end FlowGraph
