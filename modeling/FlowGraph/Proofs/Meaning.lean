import FlowGraph.Proofs.Behaviour
import FlowGraph.Proofs.Simplification

/-! # Simplification preserves what can be observed

Folding a branch to the next block and dropping unreachable blocks change nothing that a path from
entry can meet. Folding a conditional branch leads around the block between, and merging leads around
the block that is merged. -/

namespace FlowGraph

theorem getElem?_filterMap_of_isSome {α β : Type} {f : α → Option β} {l : List α}
    (all : ∀ a ∈ l, (f a).isSome) (i : Nat) : (l.filterMap f)[i]? = l[i]?.bind f := by
  induction l generalizing i with
  | nil => simp
  | cons a l ih =>
    obtain ⟨b, here⟩ := Option.isSome_iff_exists.1 (all a (List.mem_cons_self ..))
    rw [List.filterMap_cons_some here]
    cases i with
    | zero => simp [here]
    | succ i => simpa using ih (fun c member => all c (List.mem_cons_of_mem _ member)) i

theorem observed_of_trivial {is : List Instr} (trivial : is.all (·.opcode.isTrivial) = true) :
    observed is = [] ∧ is.getLast?.any (·.opcode = .jumpTable) = false := by
  have silent (op : Opcode) (small : op.isTrivial = true) :
      op.isSilent = true ∧ op ≠ .jumpTable := by
    revert small
    cases op <;> decide
  rw [List.all_eq_true] at trivial
  constructor
  · rw [observed, List.map_eq_nil_iff, List.filter_eq_nil_iff]
    intro i member
    simp [(silent _ (trivial i member)).1]
  · rw [Option.any_eq_false]
    intro i last
    simp [(silent _ (trivial i (List.mem_of_getLast? last))).2]

namespace Graph

section

variable {g g' : Graph} {xs xs' : List BlockId} {b c d t : BlockId} {u : List Event} {v : View}

/-! ## Observing views -/

theorem code_eq (seen : g.view b = some v) : g.code b = observed v.instrs := by
  obtain ⟨data, found, rfl⟩ := exists_of_view seen
  rw [code, found]
  rfl

theorem Leads.exists_view (leads : g.Leads b u d) : ∃ v, g.view b = some v := by
  obtain ⟨data, _, _, found, -⟩ := leads
  exact ⟨_, view_eq found⟩

/-- The ways out of a block are its arrows, in the order of the array. -/
theorem Coherent.leads_iff (coherent : g.Coherent xs) (seen : g.view b = some v) :
    g.Leads b u d ↔ ∃ i kind, v.arrows[i]? = some (d, kind) ∧ u = turn v.last? kind i := by
  obtain ⟨data, found, rfl⟩ := exists_of_view seen
  -- every edge that is listed is there, so the places in both arrays correspond
  have arrow (i : Nat) : (g.look data).arrows[i]? =
      data.succs[i]?.bind fun e => (g.edges.get? e).map Edge.arrow := by
    refine getElem?_filterMap_of_isSome (fun e member => ?_) i
    obtain ⟨edge, stored, -⟩ := coherent.edge_of_mem_succs found member
    rw [stored]
    rfl
  constructor
  · rintro ⟨data', e, edge, found', stored, rfl, rfl, rfl⟩
    rw [found] at found'
    cases found'
    have member := coherent.mem_succs stored found
    refine ⟨data.succs.idxOf e, edge.kind, ?_, rfl⟩
    rw [arrow, List.getElem?_idxOf member, Option.bind_some, stored]
    rfl
  · rintro ⟨i, kind, here, rfl⟩
    rw [arrow, Option.bind_eq_some_iff] at here
    obtain ⟨e, listed, here⟩ := here
    obtain ⟨edge, stored, same⟩ := Option.map_eq_some_iff.1 here
    cases same
    obtain ⟨edge', stored', src⟩ := coherent.edge_of_mem_succs found (List.mem_of_getElem? listed)
    rw [stored] at stored'
    cases stored'
    refine ⟨data, e, edge, found, stored, src, rfl, ?_⟩
    have place : data.succs.idxOf e = i := by
      obtain ⟨small, rfl⟩ := List.getElem?_eq_some_iff.1 listed
      exact (coherent.succs found).1.idxOf_getElem i small
    rw [place]
    rfl

/-- Nothing is observed of branches and fallthroughs unless a jump table chooses among them. -/
theorem Coherent.leads_iff_quiet (coherent : g.Coherent xs) (seen : g.view b = some v)
    (plain : v.last?.any (·.opcode = .jumpTable) = false)
    (quiet : ∀ a ∈ v.arrows, a.2 = .branch ∨ a.2 = .fallthru) :
    g.Leads b u d ↔ u = [] ∧ ∃ kind, (d, kind) ∈ v.arrows := by
  have nothing (a : BlockId × EdgeKind) (member : a ∈ v.arrows) (i : Nat) :
      turn v.last? a.2 i = [] := by
    unfold turn
    rw [plain]
    obtain same | same := quiet a member <;> rw [same] <;> rfl
  rw [coherent.leads_iff seen]
  constructor
  · rintro ⟨i, kind, here, rfl⟩
    have member := List.mem_of_getElem? here
    exact ⟨nothing _ member i, kind, member⟩
  · rintro ⟨rfl, kind, member⟩
    obtain ⟨i, here⟩ := List.mem_iff_getElem?.1 member
    exact ⟨i, kind, here, (nothing _ member i).symm⟩

theorem leads_congr (coherent : g.Coherent xs) (coherent' : g'.Coherent xs')
    (same : g'.view b = g.view b) : (g'.Leads b u d ↔ g.Leads b u d) ∧ g'.code b = g.code b := by
  cases seen : g.view b with
  | none =>
    have absent : g.block? b = none := Option.map_eq_none_iff.1 seen
    have absent' : g'.block? b = none := Option.map_eq_none_iff.1 (same.trans seen)
    simp [Leads, code, absent, absent']
  | some v =>
    have seen' := same.trans seen
    rw [coherent.leads_iff seen, coherent'.leads_iff seen', code_eq seen, code_eq seen']
    exact ⟨.rfl, rfl⟩

/-! ## Dropping unreachable blocks -/

theorem Eliminated.preserves {gone : List BlockId} (eliminated : Eliminated xs gone g g')
    (coherent : g.Coherent xs) : Preserves g g' := by
  have same (b : BlockId) (kept : b ∉ gone) (u : List Event) (d : BlockId) :
      (g'.Leads b u d ↔ g.Leads b u d) ∧ g'.code b = g.code b :=
    leads_congr coherent eliminated.coherent (eliminated.view coherent kept)
  -- no edge leads out of what stays, so no path from entry meets a block that goes
  refine .of_same (· ∉ gone) (fun member => (eliminated.inner _ member).2.1 rfl) ?_
    (fun b kept => (same b kept [] b).2) (fun b u d kept => (same b kept u d).1)
  rintro b u d kept ⟨data, e, edge, -, stored, rfl, rfl, -⟩
  exact eliminated.closed e edge stored kept

/-! ## Folding -/

theorem observed_dropLast {is : List Instr} {i j : Instr} (last : is.getLast? = some i)
    (silent : i.opcode.isSilent = true) (silent' : j.opcode.isSilent = true) :
    observed (is.dropLast ++ [j]) = observed is := by
  obtain ⟨front, rfl⟩ := List.getLast?_eq_some_iff.1 last
  simp [observed, silent, silent']

theorem BranchFolded.preserves {n : BlockId} {rest : List (BlockId × EdgeKind)}
    (folded : BranchFolded b n v rest g g') (faithful : g.Faithful xs)
    (coherent' : g'.Coherent xs') : Preserves g g' := by
  obtain ⟨i, isLast, isBranch⟩ := (Option.any_eq_true _ _).1 folded.last
  have rest := folded.rest_eq faithful.coherent faithful.agrees
  have plain : i.opcode ≠ .jumpTable := by
    intro table
    simp [table, Opcode.isBranch, Opcode.flow] at isBranch
  -- whatever arrows there are before and after, all of them lead to the next block unobserved
  have before (u : List Event) (d : BlockId) : g.Leads b u d ↔ u = [] ∧ d = n := by
    rw [faithful.coherent.leads_iff_quiet folded.recoded.before (by simp [isLast, plain])]
    · rw [folded.arrows]
      obtain rfl | ⟨-, rfl⟩ := rest <;> simp [exists_or]
    · rw [folded.arrows]
      obtain rfl | ⟨-, rfl⟩ := rest <;> simp
  have after (u : List Event) (d : BlockId) : g'.Leads b u d ↔ u = [] ∧ d = n := by
    rw [coherent'.leads_iff_quiet folded.recoded.after (by simp [View.last?, Instr.plain])]
    · obtain rfl | ⟨-, rfl⟩ := rest <;> simp
    · obtain rfl | ⟨-, rfl⟩ := rest <;> simp
  have code : g'.code b = g.code b := by
    rw [code_eq folded.recoded.before, code_eq folded.recoded.after]
    exact observed_dropLast isLast (by simp [Opcode.isSilent, isBranch]) rfl
  have same (c : BlockId) (u : List Event) (d : BlockId) :
      (g'.Leads c u d ↔ g.Leads c u d) ∧ g'.code c = g.code c := by
    by_cases here : c = b
    · subst c
      exact ⟨(after u d).trans (before u d).symm, code⟩
    · exact leads_congr faithful.coherent coherent' (folded.recoded.other c here)
  exact .of_same (fun _ => True) trivial (fun _ _ _ _ _ => trivial)
    (fun c _ => (same c [] c).2) (fun c u d _ => (same c u d).1)

namespace ConditionalFolded

variable {n : BlockId} {w : View} {i : Instr}

theorem notJumpTable (folded : ConditionalFolded b n d v w i g g') : i.opcode ≠ .jumpTable := by
  intro table
  have flow := folded.conditional
  rw [table] at flow
  cases flow

theorem leads_before (folded : ConditionalFolded b n d v w i g g') (coherent : g.Coherent xs)
    (d' : BlockId) : g.Leads b u d' ↔ u = [] ∧ (d' = d ∨ d' = n) := by
  have table := folded.notJumpTable
  rw [coherent.leads_iff_quiet folded.recoded.before (by simp [folded.last, table])]
  · simp [folded.arrows, exists_or]
  · simp [folded.arrows]

theorem leads_after (folded : ConditionalFolded b n d v w i g g') (coherent' : g'.Coherent xs')
    (d' : BlockId) : g'.Leads b u d' ↔ u = [] ∧ d' = d := by
  rw [coherent'.leads_iff_quiet folded.recoded.after (by simp [View.last?, Instr.withOpcode])]
  · simp
  · simp

theorem code_eq (folded : ConditionalFolded b n d v w i g g') : g'.code b = g.code b := by
  have isBranch : i.opcode.isBranch = true := by rw [Opcode.isBranch, folded.conditional]
  rw [Graph.code_eq folded.recoded.before, Graph.code_eq folded.recoded.after]
  exact observed_dropLast folded.last (by simp [Opcode.isSilent, isBranch]) rfl

/-- The block between is another one, for it has one arrow and not two. -/
theorem apart (folded : ConditionalFolded b n d v w i g g') : n ≠ b := by
  rintro rfl
  have same := folded.between.symm.trans folded.recoded.before
  cases same
  have arrows := folded.arrows
  simp [folded.jump] at arrows

theorem inner (folded : ConditionalFolded b n d v w i g g') (coherent : g.Coherent xs) :
    n ≠ .entry ∧ n ≠ .exit := by
  have falls : (n, EdgeKind.fallthru) ∈ v.arrows := by simp [folded.arrows]
  have jumps : (d, EdgeKind.branch) ∈ w.arrows := by simp [folded.jump]
  obtain ⟨e, edge, stored, -, arrow⟩ := (coherent.mem_arrows folded.recoded.before).1 falls
  have dst : edge.dst = n := congrArg Prod.fst arrow
  exact ⟨dst ▸ (coherent.target stored).1, (coherent.of_mem_arrows folded.between jumps).2⟩

theorem bypassed (folded : ConditionalFolded b n d v w i g g') (coherent : g.Coherent xs)
    (coherent' : g'.Coherent xs') : Bypassed n d g g' := by
  obtain ⟨notEntry, notExit⟩ := folded.inner coherent
  obtain ⟨silent, plain⟩ := observed_of_trivial folded.trivial
  have silent : g.code n = [] := (Graph.code_eq folded.between).trans silent
  have only (u : List Event) (d' : BlockId) : g.Leads n u d' ↔ u = [] ∧ d' = d := by
    rw [coherent.leads_iff_quiet folded.between plain] <;> simp [folded.jump]
  have same (c : BlockId) (other : c ≠ b) (u : List Event) (d' : BlockId) :
      (g'.Leads c u d' ↔ g.Leads c u d') ∧ g'.code c = g.code c :=
    leads_congr coherent coherent' (folded.recoded.other c other)
  refine ⟨notEntry, notExit, silent, only, fun c _ => ?_, fun c u d' _ leads => ?_,
    fun c u d' _ leads => ?_, fun _ _ _ => ?_⟩
  · by_cases here : c = b
    · exact here ▸ folded.code_eq
    · exact (same c here [] c).2
  · by_cases here : c = b
    · -- of the two ways out of `b` one is the way around, and the other leads into the block
      subst c
      obtain ⟨rfl, rfl | rfl⟩ := (folded.leads_before coherent d').1 leads
      · exact .inl ((folded.leads_after coherent' _).2 ⟨rfl, rfl⟩)
      · exact .inr ⟨rfl, (folded.leads_after coherent' _).2 ⟨rfl, rfl⟩⟩
    · exact .inl ((same c here u d').1.2 leads)
  · by_cases here : c = b
    · subst c
      obtain ⟨rfl, rfl⟩ := (folded.leads_after coherent' d').1 leads
      exact .inl ((folded.leads_before coherent _).2 ⟨rfl, .inl rfl⟩)
    · exact .inl ((same c here u d').1.1 leads)
  · have code := (same n folded.apart [] n).2
    exact ⟨code.trans silent, fun u d' => ((same n folded.apart u d').1).trans (only u d')⟩

end ConditionalFolded

/-! ## Merging -/

theorem sendOn_eq_iff {sent : EdgeKind → Bool} {d' : BlockId} {kind kind' : EdgeKind} :
    sendOn b t sent (d, kind) = (d', kind') ↔ kind' = kind ∧
      (d = b ∧ sent kind = true ∧ d' = t ∨ ¬(d = b ∧ sent kind = true) ∧ d' = d) := by
  unfold sendOn
  by_cases sends : d = b ∧ sent kind = true
  · rw [if_pos sends, Prod.mk.injEq]
    simp [sends, eq_comm, and_comm]
  · rw [if_neg sends, Prod.mk.injEq]
    constructor
    · rintro ⟨rfl, rfl⟩
      exact ⟨rfl, .inr ⟨sends, rfl⟩⟩
    · rintro ⟨rfl, ⟨here, explicit, -⟩ | ⟨-, rfl⟩⟩
      · exact absurd ⟨here, explicit⟩ sends
      · exact ⟨rfl, rfl⟩

namespace Merged

variable {kind : EdgeKind} {whole : Bool}

/-- An edge out of another block was there before, and was sent on or not. -/
theorem exists_leads (merged : Merged xs xs' b t v kind whole g g') (coherent : g.Coherent xs)
    (evolves : Evolves xs xs' g g') (apart : c ≠ b) (leads : g'.Leads c u d) :
    ∃ d₀ kind, g.Leads c u d₀ ∧
      sendOn b t (fun k => whole || k.isExplicit) (d₀, kind) = (d, kind) := by
  obtain ⟨v', seen'⟩ := leads.exists_view
  have inside : (g.block? c).isSome := by
    rw [← evolves.inside, ← isSome_view, seen']
    rfl
  obtain ⟨data, found⟩ := Option.isSome_iff_exists.1 inside
  obtain ⟨label, now, -⟩ := merged.other c _ apart (view_eq found)
  obtain ⟨i, kind, here, rfl⟩ := (evolves.coherent.leads_iff now).1 leads
  rw [List.getElem?_map, Option.map_eq_some_iff] at here
  obtain ⟨⟨d₀, kind'⟩, listed, same⟩ := here
  obtain rfl := (sendOn_eq_iff.1 same).1
  exact ⟨d₀, kind, (coherent.leads_iff (view_eq found)).2 ⟨i, kind, listed, rfl⟩, same⟩

theorem leads_forward (merged : Merged xs xs' b t v kind whole g g') (coherent : g.Coherent xs)
    (coherent' : g'.Coherent xs') (apart : c ≠ b) (leads : g.Leads c u d) :
    g'.Leads c u d ∨ d = b ∧ g'.Leads c u t := by
  obtain ⟨w, seen⟩ := leads.exists_view
  obtain ⟨label, now, -⟩ := merged.other c w apart seen
  obtain ⟨i, kind, listed, rfl⟩ := (coherent.leads_iff seen).1 leads
  have sent (d' : BlockId)
      (same : sendOn b t (fun k => whole || k.isExplicit) (d, kind) = (d', kind)) :
      g'.Leads c (turn w.last? kind i) d' := by
    refine (coherent'.leads_iff now).2 ⟨i, kind, ?_, rfl⟩
    rw [List.getElem?_map, listed, Option.map_some, same]
  by_cases sends : d = b ∧ (whole || kind.isExplicit) = true
  · exact .inr ⟨sends.1, sent t (sendOn_eq_iff.2 ⟨rfl, .inl ⟨sends.1, sends.2, rfl⟩⟩)⟩
  · exact .inl (sent d (sendOn_eq_iff.2 ⟨rfl, .inr ⟨sends, rfl⟩⟩))

theorem leads_backward (merged : Merged xs xs' b t v kind whole g g') (coherent : g.Coherent xs)
    (evolves : Evolves xs xs' g g') (apart : c ≠ b) (leads : g'.Leads c u d) :
    g.Leads c u d ∨ d = t ∧ g.Leads c u b := by
  obtain ⟨d₀, kind, before, same⟩ := merged.exists_leads coherent evolves apart leads
  obtain ⟨-, ⟨rfl, -, rfl⟩ | ⟨-, rfl⟩⟩ := sendOn_eq_iff.1 same
  · exact .inr ⟨rfl, before⟩
  · exact .inl before

theorem code_eq (merged : Merged xs xs' b t v kind whole g g') (evolves : Evolves xs xs' g g')
    (apart : c ≠ b) : g'.code c = g.code c := by
  cases seen : g.view c with
  | none =>
    have absent : g.block? c = none := Option.map_eq_none_iff.1 seen
    have absent' : g'.block? c = none := by simpa [absent] using evolves.inside c
    rw [code, code, absent, absent']
  | some w =>
    obtain ⟨label, now, -⟩ := merged.other c w apart seen
    rw [Graph.code_eq seen, Graph.code_eq now]

/-- No edge leads into a block that has been retired. -/
theorem not_leads (merged : Merged xs xs' b t v kind true g g') (coherent : g.Coherent xs)
    (evolves : Evolves xs xs' g g') : ¬g'.Leads c u b := by
  intro leads
  by_cases here : c = b
  · obtain ⟨_, e, edge, -, stored, src, -⟩ := leads
    have inside := (evolves.coherent.source stored).1
    rw [src, here, merged.remaining] at inside
    exact coherent.laid.nodup.not_mem_erase inside
  · obtain ⟨d₀, kind, -, same⟩ := merged.exists_leads coherent evolves here leads
    obtain ⟨-, ⟨-, -, same⟩ | ⟨kept, rfl⟩⟩ := sendOn_eq_iff.1 same
    · exact merged.apart same.symm
    · simp at kept

theorem bypassed (merged : Merged xs xs' b t v kind whole g g') (notEntry : b ≠ .entry)
    (coherent : g.Coherent xs) (evolves : Evolves xs xs' g g') : Bypassed b t g g' := by
  have ownArrow : (t, kind) ∈ v.arrows := by simp [merged.arrows]
  obtain ⟨member, notExit⟩ := coherent.of_mem_arrows merged.seen ownArrow
  obtain ⟨silent, plain⟩ := observed_of_trivial merged.trivial
  have quiet : ∀ a ∈ v.arrows, a.2 = .branch ∨ a.2 = .fallthru := by
    simpa [merged.arrows] using merged.silent
  have arrows (d : BlockId) : (∃ kind, (d, kind) ∈ v.arrows) ↔ d = t := by simp [merged.arrows]
  refine ⟨notEntry, notExit, (Graph.code_eq merged.seen).trans silent, fun u d => ?_,
    fun c apart => merged.code_eq evolves apart,
    fun c u d apart => merged.leads_forward coherent evolves.coherent apart,
    fun c u d apart => merged.leads_backward coherent evolves apart, fun c u leads => ?_⟩
  · rw [coherent.leads_iff_quiet merged.seen plain quiet, arrows]
  · cases whole with
    | true => exact absurd leads (merged.not_leads coherent evolves)
    | false =>
      -- the block that stays has lost a label, which no path sees
      have self := merged.self rfl
      refine ⟨(Graph.code_eq self).trans silent, fun u d => ?_⟩
      rw [evolves.coherent.leads_iff_quiet self plain quiet, arrows]

end Merged

theorem Reduces.preserves {made : Reduction} (reduces : Reduces xs g g' xs' made)
    (faithful : g.Faithful xs) (evolves : Evolves xs xs' g g') : Preserves g g' := by
  cases reduces with
  | branch folded => exact folded.preserves faithful evolves.coherent
  | conditional folded => exact (folded.bypassed faithful.coherent evolves.coherent).preserves
  | merge notEntry merged => exact (merged.bypassed notEntry faithful.coherent evolves).preserves

end

/-! ## Whole runs -/

theorem preserved_preserves (g₀ : Graph) : Preserved fun g _ => Preserves g₀ g := by
  refine ⟨fun faithful before eliminated => ?_, fun faithful evolves before reduces => ?_,
    fun order before => ?_⟩
  · exact before.trans (eliminated.preserves faithful.coherent)
  · exact before.trans (reduces.preserves faithful evolves)
  · refine before.trans (.of_same (fun _ => True) trivial (fun _ _ _ _ _ => trivial) ?_ ?_)
    · exact fun _ _ => rfl
    · exact fun _ _ _ _ => .rfl

/-- Simplifying a graph just built keeps the words of all complete paths and adds no word to those of
the others. A word that is lost ends in what is observed of an edge, and some longer word begins with
it. -/
theorem simplify_preserves (g₀ g : Graph) (s : Settings) (built : g₀.build = .ok g)
    (consistent : g.violations = .ok []) (exact : g.LabelsExact) :
    Yields g.Unlinkable (g.simplify s) fun (_, g') =>
      (∀ w, g'.Completes w ↔ g.Completes w) ∧ (∀ w, g'.Shows w → g.Shows w) ∧
        ∀ w, g.Shows w → g'.Shows w ∨ EndsInTurn w ∧ ∃ rest, g'.Shows (w ++ rest) := by
  have preserved := preserved_preserves g
  refine (preserved.simplify_yields built consistent exact fun _ _ => .refl g).mono ?_
  intro ⟨report, g'⟩ ⟨_, _, xs, _, preserves⟩
  exact ⟨preserves.completes, preserves.sound, preserves.kept⟩

theorem simplify_preserves_triangle :
    triangle.build = .ok triangle ∧ triangle.violations = .ok [] ∧ triangle.LabelsExact ∧
      ∃ report g', triangle.simplify .standard = .ok (report, g') ∧
        (∀ w, g'.Completes w ↔ triangle.Completes w) ∧ (∀ w, g'.Shows w → triangle.Shows w) ∧
          ∀ w, triangle.Shows w →
            g'.Shows w ∨ EndsInTurn w ∧ ∃ rest, g'.Shows (w ++ rest) := by
  obtain ⟨built, consistent, exact⟩ := triangle_built
  obtain ⟨⟨report, g'⟩, ran⟩ := triangle_simplifies
  have preserves := simplify_preserves triangle triangle .standard built consistent exact
  exact ⟨built, consistent, exact, report, g', ran, preserves.of_eq_ok ran⟩

/-- Entry throws, and the handler is an empty block in front of one that returns. -/
def catching : Graph :=
  { blocks := #[
      { Block.fresh with
        instrs := [.plain .throw], deadEnd := true, status := .live, next := some ⟨2⟩
        succs := [⟨0⟩] },
      { Block.fresh with status := .live, prev := some ⟨3⟩, preds := [⟨2⟩] },
      { Block.fresh with
        label := some ⟨1⟩, status := .live, prev := some .entry, next := some ⟨3⟩, succs := [⟨1⟩]
        preds := [⟨0⟩] },
      { Block.fresh with
        instrs := [.plain .ret], deadEnd := true, status := .live, prev := some ⟨2⟩
        next := some .exit, succs := [⟨2⟩], preds := [⟨1⟩] }]
    liveCount := 4, retired := #[]
    edges := ⟨#[some ⟨.entry, ⟨2⟩, .except⟩, some ⟨⟨2⟩, ⟨3⟩, .fallthru⟩,
      some ⟨⟨3⟩, .exit, .ret⟩], []⟩
    labels := LabelTable.empty.bind ⟨1⟩ ⟨2⟩ none, order := none, catcher := some ⟨1⟩ }

/-- What is observed up to the handler. -/
def thrown : List Event := [.exec (.plain .throw), .leave .except]

/-- Where paths lead once the handler has been merged, and what is observed on the way. -/
def landings : List (List Event × BlockId) :=
  [([], .entry), (thrown, ⟨3⟩), (thrown ++ [.exec (.plain .ret), .leave .ret], .exit)]

/-- The path that stops at the handler is lost, for every path that gets that far now returns. -/
theorem simplify_loses_word :
    catching.build = .ok catching ∧ catching.violations = .ok [] ∧ catching.LabelsExact ∧
      ∃ result, catching.simplify .standard = .ok result ∧
        catching.Shows thrown ∧ ¬result.2.Shows thrown := by
  -- after the run every path ends in one of the landings, and none of them shows the word
  have closed : ∃ result, catching.simplify .standard = .ok result ∧
      (∀ p ∈ landings, ∀ q ∈ result.2.edges.entries, q.2.src = p.2 →
        ∀ data ∈ result.2.block? p.2, (p.1 ++ result.2.code p.2 ++
          turn data.last? q.2.kind (data.succs.idxOf q.1), q.2.dst) ∈ landings) ∧
      ∀ p ∈ landings, thrown ≠ p.1 ++ result.2.code p.2 := by
    decide +kernel
  obtain ⟨result, returned, closed, missing⟩ := closed
  refine ⟨by decide +kernel, by decide +kernel, by decide +kernel, result, returned, ?_, ?_⟩
  · exact ⟨thrown, ⟨2⟩, .along .entry ⟨_, ⟨0⟩, _, rfl, rfl, rfl, rfl, rfl⟩, rfl⟩
  · intro ⟨u, b, trace, same⟩
    exact missing (u, b) (trace.mem_of_closed (by decide) closed) same

end Graph

end FlowGraph
