import FlowGraph.Proofs.Quiet
import FlowGraph.Proofs.Trimming

/-! # What the counters of a run account for

Every block that is dropped leaves the layout and is entered in the list of retired blocks. So does a
block that is merged, unless some edge still enters it, and no other block does. Hence the counters
of a run tell between which bounds the layout has shrunk, by exactly as much as the list of retired
blocks has grown. The sum of the three counters of reductions tells how long the run may have gone
on, and whether it has come to rest at once. -/

namespace FlowGraph

/-! ## Reductions that the settings allow -/

def Settings.allows (s : Settings) : Reduction → Bool
  | .branchFolded _ => s.foldBranches
  | .conditionalFolded .. => s.foldBranches
  | .blockMerged .. => s.mergeEmpty

namespace Report

variable {r : Report} {s : Settings}

theorem tally_edgesMoved (r : Report) : r.tally.edgesMoved = (r.reductions.map (·.moved)).sum := by
  rw [List.sum_eq_foldl, List.foldl_map]
  rfl

theorem folds_of_allowed (allowed : ∀ made ∈ r.reductions, s.allows made)
    (off : s.foldBranches = false) :
    r.tally.branchesFolded = 0 ∧ r.tally.conditionalsFolded = 0 := by
  constructor
  · refine List.countP_eq_zero.2 fun made member isFold => ?_
    have inUse := allowed made member
    cases made <;> simp_all [Settings.allows, Reduction.isBranchFolded]
  · refine List.countP_eq_zero.2 fun made member isFold => ?_
    have inUse := allowed made member
    cases made <;> simp_all [Settings.allows, Reduction.isConditionalFolded]

theorem merges_of_allowed (allowed : ∀ made ∈ r.reductions, s.allows made)
    (off : s.mergeEmpty = false) : r.tally.blocksMerged = 0 ∧ r.tally.edgesMoved = 0 := by
  have noMerge (made : Reduction) (member : made ∈ r.reductions) :
      made.isBlockMerged = false ∧ made.moved = 0 := by
    have inUse := allowed made member
    cases made with
    | branchFolded | conditionalFolded => exact ⟨rfl, rfl⟩
    | blockMerged => simp [Settings.allows, off] at inUse
  constructor
  · refine List.countP_eq_zero.2 fun made member => ?_
    simp [(noMerge made member).1]
  · rw [tally_edgesMoved]
    refine List.sum_eq_zero fun n member => ?_
    obtain ⟨made, inside, rfl⟩ := List.mem_map.1 member
    exact (noMerge made inside).2

end Report

namespace Graph

section

variable {allowed : Fault → Prop} {s : Settings} {g g₀ g₁ g' g'' : Graph} {xs xs' : List BlockId}
  {b : BlockId}

/-! ## Blocks that leave -/

/-- As many blocks have retired as have left the layout: all those that were dropped, and maybe some
of those that were merged. -/
def Shed (dropped merged : Nat) (g g' : Graph) : Prop :=
  ∃ n, g.liveCount = g'.liveCount + n ∧ g'.retired.size = g.retired.size + n ∧
    dropped ≤ n ∧ n ≤ dropped + merged

namespace Shed

variable {dropped dropped' merged merged' : Nat}

theorem of_same (live : g'.liveCount = g.liveCount) (retired : g'.retired = g.retired)
    (merged : Nat) : Shed 0 merged g g' :=
  ⟨0, live.symm, by rw [retired, Nat.add_zero], le_rfl, Nat.zero_le _⟩

theorem trans (first : Shed dropped merged g g') (second : Shed dropped' merged' g' g'') :
    Shed (dropped + dropped') (merged + merged') g g'' := by
  obtain ⟨n, live, retired, low, high⟩ := first
  obtain ⟨n', live', retired', low', high'⟩ := second
  refine ⟨n + n', ?_, ?_, by omega, by omega⟩
  · rw [live, live', Nat.add_assoc, Nat.add_comm n']
  · rw [retired', retired, Nat.add_assoc]

end Shed

theorem Swept.sheds {t gone : List BlockId} (swept : Swept g xs t gone g') (coherent : g.Coherent xs)
    (within : t.Sublist xs) : Shed gone.length 0 g g' := by
  have inside := swept.sublist.trans within
  have distinct := inside.nodup coherent.laid.nodup
  -- what has gone is what the layout has lost
  have lost : (xs.filter (· ∈ gone)).Perm gone := by
    refine (List.perm_ext_iff_of_nodup (coherent.laid.nodup.filter _) distinct).2 fun c => ?_
    simpa using fun member => inside.subset member
  have split := List.length_eq_length_filter_add (l := xs) (· ∈ gone)
  rw [lost.length_eq] at split
  refine ⟨gone.length, ?_, by simp [swept.parted.listed], le_rfl, le_rfl⟩
  rw [coherent.count, swept.coherent.count, split, Nat.add_comm]
  simp

theorem prune_sheds (coherent : g.Coherent xs) (ready : Ready allowed g xs) :
    Yields allowed g.markReached fun (order, g₁) => Yields allowed (g₁.eliminate order)
      fun (gone, g₂) => Eliminated xs gone g g₂ ∧ (∀ b ∈ order, (g₂.block? b).isSome) ∧
        Shed gone.length 0 g g₂ := by
  apply (prune_swept coherent ready).mono
  intro (order, g₁) ⟨remarked, swept⟩
  apply swept.mono
  intro (gone, g₃) ⟨eliminated, inside, t, g₂, within, swept, cleared⟩
  have unmarks := (remarked_setMarks order false g₂).globals
  rw [← cleared] at unmarks
  have before : Shed 0 0 g g₁ := .of_same remarked.globals.liveCount remarked.globals.retired 0
  have sweep := swept.sheds (coherent.remarked remarked) within
  have after : Shed 0 0 g₂ g₃ := .of_same unmarks.liveCount unmarks.retired 0
  have all := (before.trans sweep).trans after
  rw [Nat.zero_add] at all
  exact ⟨eliminated, inside, all⟩

/-- A merged block leaves unless some edge still enters it. -/
theorem MergedFrom.sheds {t : BlockId} {v : View} {out : EdgeId} {kind : EdgeKind}
    {ms : List EdgeId} (merged : MergedFrom xs xs' b t v out kind ms g g₀ g')
    (relabelled : Relabelled g g₀) (coherent : g.Coherent xs) (coherent' : g'.Coherent xs') :
    Shed 0 1 g g' := by
  obtain ⟨g₁, forwarded, fate⟩ := merged.forwarded
  have retired₁ : g₁.retired = g.retired :=
    forwarded.redirected.globals.retired.trans relabelled.retired
  cases fate with
  | stays waits =>
    exact .of_same (forwarded.redirected.globals.liveCount.trans relabelled.liveCount) retired₁ 1
  | leaves all pruned retired =>
    obtain ⟨data, found, listed⟩ := merged.listed
    obtain ⟨member, -⟩ := coherent.of_mem_succs found (e := out) (by simp [listed])
    refine ⟨1, ?_, ?_, Nat.zero_le _, le_rfl⟩
    · rw [coherent.count, coherent'.count, List.length_erase_add_one member]
    · rw [retired.retired, pruned.globals.retired, retired₁, Array.size_push]

/-! ## Parts of a round -/

theorem rule_sheds (coherent : g.Coherent xs) (endless : allowed .endless) {rule : Rule}
    (listed : rule ∈ s.rules) (notEntry : b ≠ .entry) (inside : (g.block? b).isSome) :
    Yields allowed (rule g b) fun (g', r) => (∀ made ∈ r.toList, s.allows made) ∧
      ∃ xs', Evolves xs xs' g g' ∧ Shed 0 (r.toList.countP (·.isBlockMerged)) g g' := by
  have still (r : Option Reduction) : Evolves xs xs g g ∧
      Shed 0 (r.toList.countP (·.isBlockMerged)) g g :=
    ⟨.of_same coherent (.refl _ g), .of_same rfl rfl _⟩
  have refitted {g' : Graph} (refits : g' = g ∨ Refitted b g g') (n : Nat) : Shed 0 n g g' := by
    obtain rfl | refitted := refits
    · exact .of_same rfl rfl n
    · exact .of_same refitted.globals.liveCount refitted.globals.retired n
  obtain ⟨folds, rfl | rfl⟩ | ⟨merges, rfl⟩ := Settings.mem_rules_iff.1 listed
  · apply ((foldBranch_yields coherent inside).and_of_eq_ok
      fun _ => (foldBranch_refits g b).of_eq_ok).mono
    intro (g', r) ⟨result, refits⟩
    obtain ⟨rfl, rfl⟩ | ⟨rfl, evolves, -⟩ := result
    · exact ⟨by simp, xs, still none⟩
    · exact ⟨by simp [Settings.allows, folds], xs, evolves, refitted refits _⟩
  · apply ((foldConditional_yields coherent inside).and_of_eq_ok
      fun _ => (foldConditional_refits g b).of_eq_ok).mono
    intro (g', r) ⟨result, refits⟩
    obtain ⟨rfl, rfl⟩ | ⟨n, d, rfl, evolves, -⟩ := result
    · exact ⟨by simp, xs, still none⟩
    · exact ⟨by simp [Settings.allows, folds], xs, evolves, refitted refits _⟩
  · obtain ⟨data, found⟩ := Option.isSome_iff_exists.1 inside
    have pass (t : BlockId) (new : Block) (foundT : g.block? t = some new) (apart : b ≠ t) :=
      passLabels_safe (.inl endless) found foundT apart
    apply (mergeEmpty_yields coherent notEntry found pass).mono
    intro (g', r) result
    obtain ⟨rfl, rfl⟩ | ⟨xs', t, v, out, kind, ms, n, g₀, rfl, evolves, relabelled, -, merged⟩ :=
      result
    · exact ⟨by simp, xs, still none⟩
    · exact ⟨by simp [Settings.allows, merges], xs', evolves,
        merged.sheds relabelled coherent evolves.coherent⟩

/-- Deleting an edge vacates a slot, and no other change takes or vacates any. -/
theorem Change.edgeCount_le (change : Change g g') : g'.edgeCount ≤ g.edgeCount := by
  cases change with
  | forget => exact le_rfl
  | recode b f code => exact le_rfl
  | recast e kind => exact (EdgePool.size_modify ..).le
  | unlabel b => exact le_rfl
  | relabel t l led found old => exact le_rfl
  | disconnect ran =>
    rw [edgeCount, ((Rewired.disconnect_yields g _).of_eq_ok ran).2]
    exact EdgePool.size_dealloc_le ..
  | redirect led ran =>
    rw [edgeCount, ((Rewired.redirect_yields g _ _).of_eq_ok ran).2]
    exact (EdgePool.size_modify ..).le
  | retire ran =>
    obtain ⟨data, g₁, -, -, -, -, relaid, rfl⟩ := (retire_yields_relaid g _).of_eq_ok ran
    exact (congrArg EdgePool.size relaid.edges).le

theorem Touch.edgeCount_le (touch : Touch g g') : g'.edgeCount ≤ g.edgeCount := by
  cases touch with
  | change change => exact change.edgeCount_le
  | mark bs marked => exact (congrArg EdgePool.size (remarked_setMarks bs marked g).edges).le
  | reorder order => exact le_rfl

/-! ## Whole runs -/

/-- What is known of `g'` once these blocks have been dropped and these reductions been made. -/
structure Balanced (s : Settings) (g : Graph) (dropped : List BlockId) (made : List Reduction)
    (g' : Graph) : Prop where
  intact : ∃ xs, g'.Coherent xs ∧ g'.Settled xs
  shed : Shed dropped.length (made.countP (·.isBlockMerged)) g g'
  allowed : ∀ reduction ∈ made, s.allows reduction

theorem balanced_accrues (endless : allowed .endless) : Accrues allowed s (Balanced s g) := by
  refine ⟨?prune, ?reduce, ?order⟩
  case prune =>
    intro dropped made h ⟨⟨xs, coherent, settled⟩, shed, inUse⟩
    apply (prune_sheds coherent (settled.ready coherent)).mono
    intro (order, h₁) swept
    apply swept.mono
    intro (gone, h₂) ⟨eliminated, inside, more⟩
    refine ⟨⟨⟨_, eliminated.coherent, settled.evolves eliminated.evolves⟩, ?_, inUse⟩, inside⟩
    rw [List.length_append]
    exact shed.trans more
  case reduce =>
    intro dropped made h b rule listed notEntry inside ⟨⟨xs, coherent, settled⟩, shed, inUse⟩
    apply (rule_sheds coherent endless listed notEntry inside).mono
    intro (h', r) ⟨inUse', xs', evolves, more⟩
    refine ⟨⟨⟨xs', evolves.coherent, settled.evolves evolves⟩, ?_, ?_⟩, evolves.inside⟩
    · rw [List.countP_append]
      exact shed.trans more
    · exact List.forall_mem_append.2 ⟨inUse, inUse'⟩
  case order =>
    intro dropped made h order ⟨⟨xs, coherent, settled⟩, shed, inUse⟩
    exact ⟨⟨xs, coherent.reorder order, settled.enrolled, settled.clear⟩, shed, inUse⟩

/-- A run that ends without any reduction has come to rest in its first round. -/
theorem Ended.reductions_eq_nil_iff {inv : Graph → Prop} {report : Report}
    (ended : Ended s inv report g')
    (few : report.rounds.length ≤ report.reductions.length + 1) :
    report.reductions = [] ↔ report.rounds.length = 1 ∧ g'.order.isSome := by
  obtain ⟨h, order, round, h', -, ran, isLast, last⟩ := ended.last
  have given := order_simplifyRound ran
  have member : round ∈ report.rounds := List.mem_of_getLast? isLast
  have settled : g'.order.isSome ↔ round.reductions = [] := by
    unfold Round.changed at last
    split at last
    · rename_i changed
      rw [last.1, given]
      simpa using changed
    · rename_i quiet
      subst last
      simpa using quiet
  rw [settled]
  constructor
  · intro nothing
    have some := List.length_pos_of_mem member
    rw [nothing, List.length_nil] at few
    refine ⟨by omega, ?_⟩
    rw [Report.reductions, List.flatMap_eq_nil_iff] at nothing
    exact nothing round member
  · rintro ⟨once, nothing⟩
    obtain ⟨first, only⟩ := List.length_eq_one_iff.1 once
    rw [only, List.mem_singleton] at member
    simp [Report.reductions, only, ← member, nothing]

end

end Graph

/-- The counters of a run with these settings are in keeping with what has become of `g`. -/
structure Tally.Balances (t : Tally) (s : Settings) (g g' : Graph) : Prop where
  shed : Graph.Shed t.blocksDropped t.blocksMerged g g'
  edges : g'.edgeCount ≤ g.edgeCount
  started : 1 ≤ t.rounds
  limited : ∀ n, s.maxRounds = some n → t.rounds ≤ max 1 n
  few : t.rounds ≤ t.reductions + 1
  settled : t.reductions = 0 ↔ t.rounds = 1 ∧ g'.order.isSome
  folds : s.foldBranches = false → t.branchesFolded = 0 ∧ t.conditionalsFolded = 0
  merges : s.mergeEmpty = false → t.blocksMerged = 0 ∧ t.edgesMoved = 0

namespace Graph

theorem Accrued.rounds_le {s : Settings} {inv : List BlockId → List Reduction → Graph → Prop}
    {result : Report × Graph} (accrued : Accrued s inv result) {n : Nat}
    (limit : s.maxRounds = some n) : result.1.rounds.length ≤ max 1 n := by
  obtain ⟨m, count, going⟩ := accrued.within
  rw [Settings.exhausted, limit, Option.any_some, decide_eq_false_iff_not] at going
  omega

/-- Whatever the settings, simplifying an intact graph fails only by not coming to an end, and if it
ends, its counters balance. -/
theorem simplify_balances (g : Graph) (s : Settings) (intact : g.Intact) :
    Yields (· = .endless) (g.simplify s) fun (report, g') => report.tally.Balances s g g' := by
  obtain ⟨xs, coherent, settled⟩ := intact_iff.1 intact
  have start : Balanced s g [] [] g := ⟨⟨xs, coherent, settled⟩, .of_same rfl rfl 0, by simp⟩
  have accrues : Accrues (· = .endless) s (Balanced s g) := balanced_accrues rfl
  have run := accrues.simplify_yields (.inl rfl) start
  have edges : Yields (fun _ => True) (g.simplify s) fun (_, g') => g'.edgeCount ≤ g.edgeCount :=
    (simplify_touches g s).mono fun _ touches =>
      touches.keeps (fun h => h.edgeCount ≤ g.edgeCount)
        (fun touch fewer => touch.edgeCount_le.trans fewer) le_rfl
  have ended : Yields (fun _ => True) (g.simplify s) fun (report, g') =>
      Ended s (fun _ => True) report g' :=
    simplifyFrom_ended (fun _ _ _ _ _ _ => trivial) g.roundBound [] g trivial
  apply (run.and_of_eq_ok fun _ ran => And.intro (edges.of_eq_ok ran) (ended.of_eq_ok ran)).mono
  intro result facts
  obtain ⟨report, g'⟩ := result
  obtain ⟨accrued, fewer, ended⟩ := facts
  obtain ⟨-, shed, inUse⟩ := accrued.holds
  refine ⟨shed, fewer, ?started, fun n limit => accrued.rounds_le limit, ?few, ?settled,
    Report.folds_of_allowed inUse, Report.merges_of_allowed inUse⟩
  case started =>
    obtain ⟨n, count, -⟩ := accrued.within
    exact (Nat.le_add_left 1 n).trans_eq count.symm
  case few =>
    rw [report.tally_reductions]
    exact accrued.few
  case settled =>
    rw [report.tally_reductions, List.length_eq_zero_iff]
    exact ended.reductions_eq_nil_iff accrued.few

theorem simplify_derelict_balances : derelict.Intact ∧
    ∃ report g', derelict.simplify ⟨some 1, true, false⟩ = .ok (report, g') ∧
      report.tally.Balances ⟨some 1, true, false⟩ derelict g' := by
  have intact : derelict.Intact := by decide +kernel
  obtain ⟨⟨report, g'⟩, ran⟩ :
      ∃ result, derelict.simplify ⟨some 1, true, false⟩ = .ok result := by decide +kernel
  have balances := simplify_balances derelict ⟨some 1, true, false⟩ intact
  exact ⟨intact, report, g', ran, balances.of_eq_ok ran⟩

/-- Blocks 3 and 4 are dropped, and block 2, once its branch has been folded, is merged and leaves. -/
example : ∃ result, derelict.simplify .standard = .ok result ∧
    result.1.tally = ⟨2, 2, 1, 0, 1, 1⟩ ∧ result.2.liveCount + 3 = derelict.liveCount ∧
    result.2.retired = #[⟨3⟩, ⟨4⟩, ⟨2⟩] := by
  decide +kernel

end Graph

end FlowGraph
