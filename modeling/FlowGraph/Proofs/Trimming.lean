import FlowGraph.Proofs.Emission
import FlowGraph.Proofs.Purge
import FlowGraph.Proofs.Simplification

/-! # What a simplification may touch

A simplification takes blocks out of the layout, and of the blocks that stay it rewrites at most the
last instruction, which must be a branch. One part of a round after the other keeps to this, and so
does any number of rounds: a conditional branch that has become unconditional may become a no-op
later on, and a no-op stays one. A block that is not live lists no edges, so no part of a round
changes anything of it, except that a block which has a place in the layout without being live gets
another neighbour when a block next to it leaves. -/

namespace FlowGraph

/-! ## Instructions -/

/-- Instructions that are those of `is` but for the last one, if that was a branch: it may have
become a no-op, or unconditional with the same destination. -/
inductive Retouched (is : List Instr) : List Instr → Prop where
  | same : Retouched is is
  | nop {i : Instr} (last : is.getLast? = some i) (branch : i.opcode.isBranch = true) :
    Retouched is (is.dropLast ++ [.plain .nop])
  | jump {i : Instr} (last : is.getLast? = some i)
    (conditional : i.opcode.flow = .conditionalBranch) :
    Retouched is (is.dropLast ++ [i.withOpcode .br])

namespace Retouched

variable {is is' is'' : List Instr}

theorem of_eq (same : is' = is) : Retouched is is' := by
  rw [same]
  exact .same

theorem trans (first : Retouched is is') (second : Retouched is' is'') : Retouched is is'' := by
  cases first with
  | same => exact second
  | nop last branch =>
    -- a no-op is no branch, so it is never rewritten
    cases second with
    | same => exact .nop last branch
    | nop again branch' =>
      rw [List.getLast?_concat, Option.some.injEq] at again
      simp [← again, Instr.plain, Opcode.isBranch, Opcode.flow] at branch'
    | jump again conditional =>
      rw [List.getLast?_concat, Option.some.injEq] at again
      simp [← again, Instr.plain, Opcode.flow] at conditional
  | @jump i last conditional =>
    have branch : i.opcode.isBranch = true := by simp [Opcode.isBranch, conditional]
    cases second with
    | same => exact .jump last conditional
    | nop _ _ =>
      rw [List.dropLast_concat]
      exact .nop last branch
    | jump again conditional' =>
      rw [List.getLast?_concat, Option.some.injEq] at again
      simp [← again, Instr.withOpcode, Opcode.flow] at conditional'

/-- Whatever is no branch stays where it was. -/
theorem getElem?_eq (retouched : Retouched is is') {n : Nat} {i : Instr} (there : is[n]? = some i)
    (other : i.opcode.isBranch = false) : is'[n]? = some i := by
  have front {j : Instr} (last : is.getLast? = some j) (branch : j.opcode.isBranch = true)
      (k : Instr) : (is.dropLast ++ [k])[n]? = some i := by
    have split : is = is.dropLast ++ [j] := (List.dropLast_append_getLast? j last).symm
    rw [split, List.getElem?_append] at there
    split at there
    · rename_i inside
      rw [List.getElem?_append_left inside, there]
    · have atEnd : [j][n - is.dropLast.length]? = some i := there
      have same : i = j := by simpa using List.mem_of_getElem? atEnd
      rw [same, branch] at other
      cases other
  cases retouched with
  | same => exact there
  | nop last branch => exact front last branch _
  | jump last conditional => exact front last (by simp [Opcode.isBranch, conditional]) _

end Retouched

namespace Graph

/-! ## What is left as it was -/

/-- The layout `xs` has shrunk to `xs'`. Only live blocks have left it, and they are retired and
empty; whatever has not left it keeps its status, and its instructions up to a branch at the end. A
block that is not live keeps all it has, and the labels bound to it, except for its neighbours if it
stands in the layout. -/
structure Trimmed (xs xs' : List BlockId) (g g' : Graph) : Prop where
  sublist : xs'.Sublist xs
  listed : ∃ gone : List BlockId, g'.retired = g.retired ++ gone.toArray ∧ gone.Nodup ∧
    ∀ b, b ∈ gone ↔ b ∈ xs ∧ b ∉ xs'
  vanished : ∀ b ∈ xs, b ∉ xs' → g.HasStatus b .live ∧ ∃ data', g'.block? b = some data' ∧
    data'.status = .retired ∧ data'.instrs = [] ∧ data'.succs = [] ∧ data'.preds = []
  kept : ∀ b data, (b ∈ xs → b ∈ xs') → g.block? b = some data → ∃ data',
    g'.block? b = some data' ∧ Retouched data.instrs data'.instrs ∧ data'.status = data.status
  metadata : SameBlocks Block.metadata g g'
  idle : ∀ b data, g.block? b = some data → data.status ≠ .live → ∃ prev next marked,
    g'.block? b = some { data with prev := prev, next := next, marked := marked } ∧
      (b ∉ xs → prev = data.prev ∧ next = data.next)
  bound : ∀ b data, g.block? b = some data → data.status ≠ .live →
    ∀ l, g'.resolve l = some b ↔ g.resolve l = some b

namespace Trimmed

variable {xs xs' xs'' : List BlockId} {g g' g'' : Graph}

theorem refl (xs : List BlockId) (g : Graph) : Trimmed xs xs g g := by
  refine ⟨.refl xs, ⟨[], by simp, by simp, by simp⟩, fun b member away => absurd member away,
    fun b data _ found => ⟨data, found, .same, rfl⟩, .refl _ g,
    fun b data found _ => ⟨data.prev, data.next, data.marked, found, fun _ => ⟨rfl, rfl⟩⟩,
    fun b data _ _ l => Iff.rfl⟩

theorem hasStatus_iff (trimmed : Trimmed xs xs' g g') {b : BlockId} (stays : b ∈ xs → b ∈ xs')
    {status : Status} : g'.HasStatus b status ↔ g.HasStatus b status := by
  have carried {data : Block} (found : g.block? b = some data) : g'.HasStatus b data.status := by
    obtain ⟨data', found', -, same⟩ := trimmed.kept b data stays found
    exact ⟨data', found', same⟩
  constructor
  · intro after
    have ⟨_, found', _⟩ := after
    obtain ⟨data, found, -⟩ := trimmed.metadata.symm.exists_block found'
    exact ⟨data, found, (carried found).unique after⟩
  · rintro ⟨data, found, rfl⟩
    exact carried found

theorem trans (first : Trimmed xs xs' g g') (second : Trimmed xs' xs'' g' g'') :
    Trimmed xs xs'' g g'' := by
  refine ⟨second.sublist.trans first.sublist, ?listed, fun b member away => ?vanished,
    fun b data stays found => ?kept, first.metadata.trans second.metadata,
    fun b data found idle => ?idle, fun b data found idle l => ?bound⟩
  case listed =>
    obtain ⟨gone, retired, distinct, gone_iff⟩ := first.listed
    obtain ⟨gone', retired', distinct', gone_iff'⟩ := second.listed
    refine ⟨gone ++ gone', by simp [retired', retired], ?_, fun b => ?_⟩
    · refine List.nodup_append.2 ⟨distinct, distinct', fun b inFirst c inSecond same => ?_⟩
      subst same
      exact ((gone_iff b).1 inFirst).2 ((gone_iff' b).1 inSecond).1
    · have inner := first.sublist.subset (a := b)
      have later := second.sublist.subset (a := b)
      rw [List.mem_append, gone_iff, gone_iff']
      tauto
  case vanished =>
    by_cases middle : b ∈ xs'
    · obtain ⟨live', result⟩ := second.vanished b middle away
      exact ⟨(first.hasStatus_iff fun _ => middle).1 live', result⟩
    · obtain ⟨live, data', found', status, empty⟩ := first.vanished b member middle
      refine ⟨live, ?_⟩
      obtain ⟨prev, next, marked, found'', -⟩ := second.idle b data' found' (by simp [status])
      exact ⟨_, found'', status, empty⟩
  case kept =>
    have stays₁ (member : b ∈ xs) : b ∈ xs' := second.sublist.subset (stays member)
    have stays₂ (member : b ∈ xs') : b ∈ xs'' := stays (first.sublist.subset member)
    obtain ⟨data', found', instrs, status⟩ := first.kept b data stays₁ found
    obtain ⟨data'', found'', instrs', status'⟩ := second.kept b data' stays₂ found'
    exact ⟨data'', found'', instrs.trans instrs', status'.trans status⟩
  case idle =>
    obtain ⟨prev, next, marked, found', same⟩ := first.idle b data found idle
    obtain ⟨prev', next', marked', found'', same'⟩ := second.idle b _ found' idle
    refine ⟨prev', next', marked', found'', fun away => ?_⟩
    obtain ⟨samePrev, sameNext⟩ := same away
    have later := same' fun member => away (first.sublist.subset member)
    exact ⟨later.1.trans samePrev, later.2.trans sameNext⟩
  case bound =>
    obtain ⟨prev, next, marked, found', -⟩ := first.idle b data found idle
    exact (second.bound b _ found' idle l).trans (first.bound b data found idle l)

end Trimmed

/-! ## Steps that leave the layout alone -/

/-- No block has come or gone, and a block that is not live has changed at most its edges and its
mark. -/
structure Steady (g g' : Graph) : Prop where
  same : SameBlocks (fun d => (d.status, d.metadata)) g g'
  instrs : ∀ b data data', g.block? b = some data → g'.block? b = some data' →
    Retouched data.instrs data'.instrs
  idle : ∀ b data data', g.block? b = some data → g'.block? b = some data' →
    data.status ≠ .live → data'.unwired.unmark = data.unwired.unmark
  retired : g'.retired = g.retired
  bound : ∀ b data, g.block? b = some data → data.status ≠ .live →
    ∀ l, g'.resolve l = some b ↔ g.resolve l = some b

section

variable {allowed : Fault → Prop} {g g₀ g₁ g' : Graph} {xs xs' : List BlockId} {b c t : BlockId}

theorem Steady.of_same (same : SameBlocks (fun d => d.unwired.unmark) g g')
    (globals : SameGlobals g g') : Steady g g' := by
  refine ⟨same.weaken fun d => (d.status, d.metadata), fun b data data' found found' => ?_,
    fun b data data' found found' _ => same.agree found found', globals.retired,
    fun b data _ _ l => by rw [resolve_congr globals.labels]⟩
  apply Retouched.of_eq
  simpa [Block.unmark, Block.unwired] using congrArg Block.instrs (same.agree found found')

theorem Steady.trimmed (steady : Steady g g') (coherent : g.Coherent xs)
    (coherent' : g'.Coherent xs) : Trimmed xs xs g g' := by
  refine ⟨.refl xs, ⟨[], by simp [steady.retired], by simp, by simp⟩,
    fun b member away => absurd member away, fun b data _ found => ?kept,
    steady.same.weaken Prod.snd, fun b data found idle => ?idle, steady.bound⟩
  case kept =>
    obtain ⟨data', found', same⟩ := steady.same.exists_block found
    exact ⟨data', found', steady.instrs b data data' found found', congrArg Prod.fst same⟩
  case idle =>
    -- both before and after, the block lists no edges
    obtain ⟨data', found', same⟩ := steady.same.exists_block found
    have status : data'.status = data.status := congrArg Prod.fst same
    obtain ⟨succs, preds⟩ := coherent.unlisted_of_idle found idle
    obtain ⟨succs', preds'⟩ := coherent'.unlisted_of_idle found' (by rwa [status])
    have rest := steady.idle b data data' found found' idle
    refine ⟨data.prev, data.next, data'.marked, ?_, fun _ => ⟨rfl, rfl⟩⟩
    rw [found', Option.some.injEq]
    cases data
    cases data'
    simp_all [Block.unwired, Block.unmark]

theorem Remarked.steady (remarked : Remarked g g') : Steady g g' :=
  .of_same (remarked.block.weaken Block.unwired) remarked.globals

theorem Redirected.steady {moved : List EdgeId} (redirected : Redirected moved t g g') :
    Steady g g' :=
  .of_same (redirected.block.weaken fun d : Block => d.unwired.unmark) redirected.globals

theorem LabelsMoved.steady (moved : LabelsMoved b t g g') (source : g.HasStatus b .live)
    (target : g.HasStatus t .live) : Steady g g' := by
  -- neither the block that gives labels nor the one that takes them is idle
  have apart {c : BlockId} {data : Block} (found : g.block? c = some data)
      (idle : data.status ≠ .live) : c ≠ b ∧ c ≠ t := by
    have live : ¬g.HasStatus c .live := fun live => idle (HasStatus.unique ⟨data, found, rfl⟩ live)
    constructor
    · rintro rfl
      exact live source
    · rintro rfl
      exact live target
  refine ⟨moved.relabelled.block.weaken fun d => (d.status, d.metadata),
    fun c data data' found found' => ?instrs, fun c data data' found found' idle => ?idle,
    moved.relabelled.retired, fun c data found idle l => ?bound⟩
  case instrs =>
    have same := moved.relabelled.block.agree found found'
    apply Retouched.of_eq
    simpa [Block.withoutLabel] using congrArg Block.instrs same
  case idle =>
    obtain ⟨notSource, notTarget⟩ := apart found idle
    rw [moved.other c notSource notTarget, found] at found'
    cases found'
    rfl
  case bound =>
    obtain ⟨notSource, notTarget⟩ := apart found idle
    rw [moved.resolve]
    split
    · rename_i atSource
      simp [atSource, notSource.symm, notTarget.symm]
    · rfl

/-! ## Blocks that leave the layout -/

theorem Dropped.trimmed {gone : List BlockId} (dropped : Dropped gone g g')
    (parted : Parted xs gone g g') (coherent : g.Coherent xs)
    (coherent' : g'.Coherent (xs.filter (· ∉ gone))) (distinct : gone.Nodup)
    (inside : ∀ c ∈ gone, c ∈ xs) (live : ∀ c ∈ gone, g.HasStatus c .live) :
    Trimmed xs (xs.filter (· ∉ gone)) g g' := by
  have exists_stem {c : BlockId} {data : Block} (stays : c ∉ gone)
      (found : g.block? c = some data) : ∃ data', g'.block? c = some data' ∧ data'.stem = data.stem := by
    have same := dropped.stem c stays
    rw [found, Option.map_some, Option.map_eq_some_iff] at same
    exact same
  refine ⟨List.filter_sublist, ⟨gone, parted.listed, distinct, fun c => ?_⟩,
    fun c member away => ?vanished, fun c data stays found => ?kept, fun c => ?metadata,
    fun c data found idle => ?idle, fun c data _ _ l => by rw [resolve_congr dropped.labels]⟩
  · have within := inside c
    simp only [List.mem_filter, decide_eq_true_eq]
    tauto
  case vanished =>
    have left : c ∈ gone := by simpa [member] using away
    obtain ⟨data, found, status⟩ := live c left
    have found' := parted.shed c left
    rw [found, Option.map_some] at found'
    exact ⟨⟨data, found, status⟩, data.retire, found', rfl, rfl, rfl, rfl⟩
  case kept =>
    have stays : c ∉ gone := by
      intro left
      simpa [left] using stays (inside c left)
    obtain ⟨data', found', same⟩ := exists_stem stays found
    have instrs : data'.instrs = data.instrs := by
      simpa [Block.stem] using congrArg Block.instrs same
    have status : data'.status = data.status := by
      simpa [Block.stem] using congrArg Block.status same
    exact ⟨data', found', .of_eq instrs, status⟩
  case metadata =>
    by_cases left : c ∈ gone
    · rw [parted.shed c left, Option.map_map]
      rfl
    · have same := congrArg (Option.map Block.metadata) (dropped.stem c left)
      rw [Option.map_map, Option.map_map] at same
      exact same
  case idle =>
    have stays : c ∉ gone := fun left => idle (HasStatus.unique ⟨data, found, rfl⟩ (live c left))
    by_cases placed : c ∈ xs
    · obtain ⟨data', found', same⟩ := exists_stem stays found
      have status : data'.status = data.status := by
        simpa [Block.stem] using congrArg Block.status same
      obtain ⟨succs, preds⟩ := coherent.unlisted_of_idle found idle
      obtain ⟨succs', preds'⟩ := coherent'.unlisted_of_idle found' (by rwa [status])
      refine ⟨data'.prev, data'.next, data.marked, ?_, fun away => absurd placed away⟩
      rw [found', Block.eq_of_stem same, succs', preds']
      simp [succs, preds]
    · have found' := parted.aside c data placed idle found
      exact ⟨data.prev, data.next, data.marked, found', fun _ => ⟨rfl, rfl⟩⟩

theorem Swept.trimmed {l gone : List BlockId} (swept : Swept g xs l gone g')
    (coherent : g.Coherent xs) (within : l.Sublist xs) : Trimmed xs (xs.filter (· ∉ gone)) g g' := by
  have sublist := swept.sublist.trans within
  exact swept.dropped.trimmed swept.parted coherent swept.coherent
    (sublist.nodup coherent.laid.nodup) (fun c member => sublist.subset member) swept.live

/-! ## Merges -/

section

variable {v : View} {out : EdgeId} {kind : EdgeKind} {ms : List EdgeId}

/-- Once nothing enters the block that is merged, its own edge is the only one at either end of which
it stands. -/
theorem MergedFrom.touches_iff (merged : MergedFrom xs xs' b t v out kind ms g g₀ g')
    (moved : LabelsMoved b t g g₀) (forwarded : Forwarded xs b t kind ms g₀ g₁)
    (all : ∀ e explicit, g₀.Enters b explicit e → e ∈ ms) {e : EdgeId} {edge : Edge}
    (stored : g₁.edges.get? e = some edge) : e ∈ [out] ↔ edge.src = b ∨ edge.dst = b := by
  obtain ⟨data, found, listed⟩ := merged.listed
  obtain ⟨data₀, found₀, same₀⟩ := moved.relabelled.block.exists_block found
  obtain ⟨data₁, found₁, same₁⟩ := forwarded.redirected.block.exists_block found₀
  have succs : data₁.succs = [out] := by
    rw [← listed]
    have first := congrArg Block.succs same₀
    have second := congrArg Block.succs same₁
    exact second.trans first
  have source : e ∈ data₁.succs ↔ edge.src = b := by
    simp [(forwarded.coherent.succs found₁).2 e, stored]
  have target : edge.dst ≠ b := by
    rintro rfl
    have entering := forwarded.coherent.mem_preds stored found₁
    obtain ⟨⟨explicit, enters⟩, unsent⟩ := (forwarded.mem_preds_iff merged.apart found₁ e).1 entering
    exact unsent (all e explicit enters)
  rw [← succs, source]
  simp [target]

theorem MergedFrom.trimmed (merged : MergedFrom xs xs' b t v out kind ms g g₀ g')
    (coherent : g.Coherent xs) (coherent' : g'.Coherent xs') (moved : LabelsMoved b t g g₀)
    (notEntry : b ≠ .entry) : Trimmed xs xs' g g' := by
  obtain ⟨data, found, listed⟩ := merged.listed
  obtain ⟨member, notExit, live⟩ := coherent.of_mem_succs found (e := out) (by simp [listed])
  obtain ⟨-, target⟩ := coherent.target merged.stored
  obtain ⟨g₁, forwarded, fate⟩ := merged.forwarded
  have coherent₀ := coherent.relabelled moved.relabelled
  have relabelled : Trimmed xs xs g g₀ :=
    (moved.steady ⟨data, found, live⟩ target).trimmed coherent coherent₀
  have redirected : Trimmed xs xs g₀ g₁ :=
    forwarded.redirected.steady.trimmed coherent₀ forwarded.coherent
  cases fate with
  | stays waits => exact relabelled.trans redirected
  | @leaves p n g₂ _ all pruned retired =>
    have struck : xs.erase b = xs.filter (· ∉ [b]) := by
      rw [coherent.laid.nodup.erase_eq_filter]
      apply List.filter_congr
      intro c _
      by_cases same : c = b <;> simp [same]
    have dropped : Dropped [b] g₁ g' := pruned.dropped forwarded.coherent
      (fun e edge stored => merged.touches_iff moved forwarded all stored) retired
    have parted : Parted xs [b] g₁ g' :=
      pruned.parted forwarded.coherent member notEntry notExit retired
    rw [struck] at coherent' ⊢
    have before := relabelled.trans redirected
    have left : Trimmed xs (xs.filter (· ∉ [b])) g₁ g' := by
      apply dropped.trimmed parted forwarded.coherent coherent' (by simp)
      · simpa using member
      · simpa using (before.hasStatus_iff id).2 ⟨data, found, live⟩
    exact before.trans left

end

/-! ## Folds -/

/-- The code of `b` has been retouched, and otherwise no more than edges has changed. The block lists
an edge, so it is live. -/
structure Refitted (b : BlockId) (g g' : Graph) : Prop where
  own : ∃ data data', g.block? b = some data ∧ g'.block? b = some data' ∧ data.succs ≠ [] ∧
    Retouched data.instrs data'.instrs
  same : SameBlocks (fun d => (d.status, d.metadata)) g g'
  other : ∀ c, c ≠ b → (g'.block? c).map Block.unwired = (g.block? c).map Block.unwired
  globals : SameGlobals g g'

theorem refitted_of_recoded {data : Block} {f : Block → Block} (found : g.block? b = some data)
    (listed : data.succs ≠ []) (code : ∀ d, (f d).withoutCode = d.withoutCode)
    (retouched : Retouched data.instrs (f data).instrs)
    (block : ∀ c, g₁.block? c = (g.block? c).map fun d => if c = b then f d else d)
    (rewired : Rewired g₁ g') (globals : SameGlobals g g₁) : Refitted b g g' := by
  have found₁ : g₁.block? b = some (f data) := by rw [block, found, Option.map_some, if_pos rfl]
  obtain ⟨data', found', wired⟩ := rewired.block.exists_block found₁
  have recoded : SameBlocks (fun d => (d.status, d.metadata)) g g₁ := by
    refine .of_map block fun c d => ?_
    split
    · simpa [Block.withoutCode] using congrArg (fun d => (d.status, d.metadata)) (code d)
    · rfl
  refine ⟨⟨data, data', found, found', listed, ?_⟩,
    recoded.trans (rewired.block.weaken fun d => (d.status, d.metadata)), fun c apart => ?_,
    globals.trans rewired.globals⟩
  · have instrs : data'.instrs = (f data).instrs := by
      simpa [Block.unwired] using congrArg Block.instrs wired
    rw [instrs]
    exact retouched
  · rw [rewired.block c, block]
    simp only [if_neg apart, Option.map_id']

theorem Refitted.steady (refitted : Refitted b g g') (coherent : g.Coherent xs) : Steady g g' := by
  obtain ⟨own, own', foundOwn, foundOwn', listed, retouched⟩ := refitted.own
  obtain ⟨e, member⟩ := List.exists_mem_of_ne_nil _ listed
  have live := (coherent.of_mem_succs foundOwn member).2.2
  have agree {c : BlockId} {data data' : Block} (apart : c ≠ b) (found : g.block? c = some data)
      (found' : g'.block? c = some data') : data'.unwired = data.unwired := by
    have same := refitted.other c apart
    simpa [found, found'] using same
  refine ⟨refitted.same, fun c data data' found found' => ?instrs,
    fun c data data' found found' idle => ?idle, refitted.globals.retired,
    fun c data _ _ l => by rw [resolve_congr refitted.globals.labels]⟩
  case instrs =>
    by_cases here : c = b
    · subst c
      rw [foundOwn] at found
      rw [foundOwn'] at found'
      cases found
      cases found'
      exact retouched
    · apply Retouched.of_eq
      simpa [Block.unwired] using congrArg Block.instrs (agree here found found')
  case idle =>
    have apart : c ≠ b := by
      rintro rfl
      rw [foundOwn] at found
      cases found
      exact idle live
    rw [agree apart found found']

theorem foldBranch_refits (g : Graph) (b : BlockId) :
    Yields (fun _ => True) (foldBranch g b) fun (g', _) => g' = g ∨ Refitted b g g' := by
  refine (block_yields g b).bind fun data found => ?_
  split
  case h_1 => exact yields_pure (.inl rfl)
  case h_2 e rest listed =>
  refine (edge_yields g e).bind fun edge _ => ?_
  split
  case isFalse => exact yields_pure (.inl rfl)
  case isTrue applies =>
  obtain ⟨i, last, branch⟩ := (Option.any_eq_true _ _).1 applies.2.2
  have nonempty : data.succs ≠ [] := by simp [listed]
  have retouched : Retouched data.instrs (data.modifyLast fun _ => .plain .nop).instrs := by
    rw [Block.modifyLast_eq last]
    exact .nop last branch
  have nop (c : BlockId) := block?_modify_eq_map g b c fun d => d.modifyLast fun _ => .plain .nop
  dsimp only
  split
  · have fallen (h : Graph) : Rewired h { h with
        edges := g.edges.modify e ({ · with kind := .fallthru }), order := none } :=
      (Rewired.refl h).repool _
    refine yields_pure (.inr (refitted_of_recoded found nonempty
      (f := fun d => { d.modifyLast fun _ => .plain .nop with deadEnd := false })
      (fun d => d.withoutCode_modifyLast _) retouched (fun c => ?_) (fallen _) ⟨rfl, rfl, rfl, rfl⟩))
    rw [block?_modify_eq_map, nop, Option.map_map]
    congr 1
    funext d
    by_cases here : c = b <;> simp [here]
  · apply (Rewired.disconnect_yields _ e).bind
    intro g' rewired
    exact yields_pure (.inr (refitted_of_recoded found nonempty
      (fun d => d.withoutCode_modifyLast _) retouched nop rewired.1 ⟨rfl, rfl, rfl, rfl⟩))

theorem foldConditional_refits (g : Graph) (b : BlockId) :
    Yields (fun _ => True) (foldConditional g b) fun (g', _) => g' = g ∨ Refitted b g g' := by
  refine (block_yields g b).bind fun data found => ?_
  split
  case h_2 => exact yields_pure (.inl rfl)
  case h_1 next e f _ listed =>
  refine (edge_yields g e).bind fun taken _ => ?_
  refine (edge_yields g f).bind fun fall _ => ?_
  split
  case isFalse => exact yields_pure (.inl rfl)
  case isTrue applies =>
  refine (block_yields g next).bind fun between _ => ?_
  split
  case h_2 => exact yields_pure (.inl rfl)
  case h_1 j _ =>
  refine (edge_yields g j).bind fun jump _ => ?_
  split
  case isFalse => exact yields_pure (.inl rfl)
  case isTrue =>
  obtain ⟨i, last, conditional⟩ := (Option.any_eq_true _ _).1 applies.1
  have nonempty : data.succs ≠ [] := by simp [listed]
  have retouched : Retouched data.instrs (data.modifyLast (·.withOpcode .br)).instrs := by
    rw [Block.modifyLast_eq last]
    exact .jump last (by simpa using conditional)
  apply (Rewired.disconnect_yields _ f).bind
  intro g' rewired
  exact yields_pure (.inr (refitted_of_recoded found nonempty
    (f := fun d => { d.modifyLast (·.withOpcode .br) with deadEnd := true })
    (fun d => d.withoutCode_modifyLast _) retouched (fun c => block?_modify_eq_map g b c _)
    rewired.1 ⟨rfl, rfl, rfl, rfl⟩))

/-! ## Parts of a round -/

theorem prune_trims (coherent : g.Coherent xs) (ready : Ready allowed g xs) :
    Yields allowed g.markReached fun (order, g₁) => Yields allowed (g₁.eliminate order)
      fun (gone, g₂) => Eliminated xs gone g g₂ ∧ (∀ b ∈ order, (g₂.block? b).isSome) ∧
        Trimmed xs (xs.filter (· ∉ gone)) g g₂ := by
  apply (prune_swept coherent ready).mono
  intro (order, g₁) ⟨remarked, swept⟩
  apply swept.mono
  intro (gone, g₃) ⟨eliminated, inside, t, g₂, within, swept, cleared⟩
  have coherent₁ := coherent.remarked remarked
  have unmarks := remarked_setMarks order false g₂
  rw [← cleared] at unmarks
  have before : Trimmed xs xs g g₁ := remarked.steady.trimmed coherent coherent₁
  have after := unmarks.steady.trimmed swept.coherent eliminated.coherent
  exact ⟨eliminated, inside, (before.trans (swept.trimmed coherent₁ within)).trans after⟩

/-- In a coherent graph with exact labels, even if its instructions say something else than its
edges. -/
theorem rule_trims (coherent : g.Coherent xs) (exact : g.LabelsExact) {s : Settings} {rule : Rule}
    (listed : rule ∈ s.rules) (notEntry : b ≠ .entry) (inside : (g.block? b).isSome) :
    Yields allowed (rule g b) fun (g', _) =>
      ∃ xs', Evolves xs xs' g g' ∧ g'.LabelsExact ∧ Trimmed xs xs' g g' := by
  have still : Evolves xs xs g g := .of_same coherent (.refl _ g)
  have refitted {g' : Graph} (refits : g' = g ∨ Refitted b g g') (evolves : Evolves xs xs g g') :
      Trimmed xs xs g g' := by
    obtain rfl | refitted := refits
    · exact .refl xs g'
    · exact (refitted.steady coherent).trimmed coherent evolves.coherent
  obtain rfl | rfl | rfl := Settings.mem_rules listed
  · apply ((foldBranch_yields coherent inside).and_of_eq_ok
      fun _ => (foldBranch_refits g b).of_eq_ok).mono
    intro (g', r) ⟨result, refits⟩
    obtain ⟨-, rfl⟩ | ⟨-, evolves, n, v, rest, folded⟩ := result
    · exact ⟨xs, still, exact, .refl xs _⟩
    · exact ⟨xs, evolves, folded.recoded.labelsExact exact rfl, refitted refits evolves⟩
  · apply ((foldConditional_yields coherent inside).and_of_eq_ok
      fun _ => (foldConditional_refits g b).of_eq_ok).mono
    intro (g', r) ⟨result, refits⟩
    obtain ⟨-, rfl⟩ | ⟨n, d, -, evolves, v, u, i, folded⟩ := result
    · exact ⟨xs, still, exact, .refl xs _⟩
    · exact ⟨xs, evolves, folded.recoded.labelsExact exact rfl, refitted refits evolves⟩
  · apply (mergeEmpty_exact coherent exact notEntry inside).mono
    intro (g', r) result
    obtain ⟨-, rfl⟩ | ⟨xs', t, v, out, kind, ms, n, g₀, -, evolves, moved, merged⟩ := result
    · exact ⟨xs, still, exact, .refl xs _⟩
    · exact ⟨xs', evolves, merged.labelsExact moved.exact,
        merged.trimmed coherent evolves.coherent moved notEntry⟩

end

/-! ## Whole runs -/

/-- The graph is in order and has come from `g` by nothing but trimming. -/
def TrimmedFrom (xs : List BlockId) (g g' : Graph) : Prop :=
  ∃ xs', g'.Coherent xs' ∧ g'.LabelsExact ∧ Ready (fun _ => True) g' xs' ∧ Trimmed xs xs' g g'

theorem trimmed_carries (s : Settings) (xs : List BlockId) (g : Graph) :
    Carries (fun _ => True) s fun _ => TrimmedFrom xs g := by
  refine ⟨?prune, ?reduce, ?order⟩
  case prune =>
    intro _ h ⟨ys, coherent, exact, ready, trimmed⟩
    apply (prune_trims coherent ready).mono
    intro (order, h₁) swept
    apply swept.mono
    intro (gone, h₂) ⟨eliminated, inside, step⟩
    exact ⟨⟨_, eliminated.coherent, eliminated.labelsExact exact,
      ready.evolves eliminated.evolves, trimmed.trans step⟩, inside⟩
  case reduce =>
    intro _ h b rule listed notEntry inside ⟨ys, coherent, exact, ready, trimmed⟩
    apply (rule_trims coherent exact listed notEntry inside).mono
    intro (h', r) ⟨ys', evolves, exact', step⟩
    exact ⟨⟨ys', evolves.coherent, exact', ready.evolves evolves, trimmed.trans step⟩,
      evolves.inside⟩
  case order =>
    intro _ h order ⟨ys, coherent, exact, ready, trimmed⟩
    have step : Trimmed ys ys h { h with order := order } :=
      have steady : Steady h { h with order := order } := .of_same (.refl _ h) ⟨rfl, rfl, rfl, rfl⟩
      steady.trimmed coherent (coherent.reorder order)
    exact ⟨ys, coherent.reorder order, exact.congr (.refl _ h) rfl,
      ⟨ready.unmarked, ready.enlisted⟩, trimmed.trans step⟩

/-- Block 2 is in no layout. Block 3 branches over block 4, which does nothing but branch itself, to
block 5, where control would go anyway. -/
def redundant : List Operation :=
  [.create, .push ⟨2⟩ (.branch .br ⟨1⟩), .append, .append, .append, .bindLabel ⟨5⟩ ⟨1⟩,
    .push ⟨3⟩ (.plain .iadd), .push ⟨3⟩ (.branch .brItrue ⟨1⟩), .push ⟨4⟩ (.branch .br ⟨1⟩),
    .push ⟨5⟩ (.plain .ret)]

example : ∃ g, (initial.performAll redundant).build = .ok g ∧
    ∃ result, g.simplify .standard = .ok result ∧ result.2.retired = #[⟨4⟩] ∧
      (result.2.block? ⟨3⟩).map Block.instrs = some [.plain .iadd, .plain .nop] ∧
      result.2.block? ⟨2⟩ = g.block? ⟨2⟩ := by
  decide +kernel

/-- The links from block 3 end at exit without leading to entry, so detaching the run from block 3 to
entry makes exit detached. The next operation links entry with exit again, and then block 4 comes in
between, where no edge leads. -/
def unmoored : List Operation :=
  [.create, .create, .attachAfter .entry ⟨2⟩ ⟨3⟩, .attachAfter .entry ⟨3⟩ .entry,
    .detach ⟨3⟩ .entry, .detach ⟨2⟩ ⟨3⟩, .create, .attachAfter .entry ⟨4⟩ ⟨4⟩,
    .setDeadEnd .entry true, .setDeadEnd ⟨4⟩ true]

end Graph

end FlowGraph
