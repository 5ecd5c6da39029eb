import FlowGraph.Proofs.Elimination
import FlowGraph.Proofs.Labels

/-! # How a graph evolves under a pass

Whatever a pass does to the edges and labels of a graph, its layout only gets smaller, and it treats
statuses and marks in one way: a block that leaves the layout is retired without a mark, every other
block keeps its status, and no mark is added. This is all it takes to carry the conditions on
statuses and marks from one step of a pass to the next. -/

namespace FlowGraph.Graph

structure Evolves (xs xs' : List BlockId) (g g' : Graph) : Prop where
  coherent : g'.Coherent xs'
  subset : xs' ⊆ xs
  kept : ∀ c, (c ∈ xs → c ∈ xs') → ∀ data', g'.block? c = some data' →
    ∃ data, g.block? c = some data ∧ data'.status = data.status ∧
      (data'.marked = true → data.marked = true)
  gone : ∀ c ∈ xs, c ∉ xs' → ∀ data, g'.block? c = some data →
    data.status = .retired ∧ data.marked = false
  inside : ∀ c, (g'.block? c).isSome = (g.block? c).isSome

namespace Evolves

variable {xs xs' : List BlockId} {g g' : Graph}

theorem of_same (coherent : g'.Coherent xs)
    (same : SameBlocks (fun d => (d.status, d.marked)) g g') : Evolves xs xs g g' := by
  refine ⟨coherent, fun _ member => member, fun c _ data' found' => ?_, ?_, same.isSome_eq⟩
  · obtain ⟨data, found, read⟩ := same.symm.exists_block found'
    simp only [Prod.mk.injEq] at read
    exact ⟨data, found, read.1.symm, fun marked => read.2.trans marked⟩
  · intro c member outside
    exact absurd member outside

theorem trans {xs'' : List BlockId} {g'' : Graph} (first : Evolves xs xs' g g')
    (second : Evolves xs' xs'' g' g'') : Evolves xs xs'' g g'' := by
  refine ⟨second.coherent, fun c member => first.subset (second.subset member),
    fun c stays data'' found'' => ?_, fun c member outside data found => ?_,
    fun c => (second.inside c).trans (first.inside c)⟩
  · have stays' : c ∈ xs → c ∈ xs' := fun member => second.subset (stays member)
    obtain ⟨data', found', status', marked'⟩ :=
      second.kept c (fun member => stays (first.subset member)) data'' found''
    obtain ⟨data, found, status, marked⟩ := first.kept c stays' data' found'
    exact ⟨data, found, status'.trans status, fun mark => marked (marked' mark)⟩
  · by_cases middle : c ∈ xs'
    · exact second.gone c middle outside data found
    · obtain ⟨data', found', status, marked⟩ :=
        second.kept c (fun member => absurd member middle) data found
      obtain ⟨retired, clear⟩ := first.gone c member middle data' found'
      refine ⟨status.trans retired, ?_⟩
      cases mark : data.marked with
      | false => rfl
      | true => simp [marked mark] at clear

end Evolves

/-! ## Single changes -/

section

variable {xs : List BlockId} {g g' : Graph}

theorem Relabelled.evolves (relabelled : Relabelled g g') (coherent : g.Coherent xs) :
    Evolves xs xs g g' :=
  .of_same (coherent.relabelled relabelled) (relabelled.block.weaken fun d => (d.status, d.marked))

theorem Redirected.evolves {moved : List EdgeId} {t : BlockId} (redirected : Redirected moved t g g')
    (coherent : g'.Coherent xs) : Evolves xs xs g g' :=
  .of_same coherent (redirected.block.weaken fun d => (d.status, d.marked))

theorem Pruned.evolves {gone : List EdgeId} (pruned : Pruned gone g g') (coherent : g.Coherent xs) :
    Evolves xs xs g g' :=
  .of_same (coherent.pruned pruned) (.of_map pruned.block fun _ _ => rfl)

theorem Retired.evolves {p b n : BlockId} (retired : Retired p b n g g') (distinct : xs.Nodup)
    (member : b ∈ xs) (coherent : g'.Coherent (xs.erase b)) : Evolves xs (xs.erase b) g g' := by
  have absent : b ∉ xs.erase b := distinct.not_mem_erase
  refine ⟨coherent, List.erase_subset, fun c stays data' found' => ?_,
    fun c inside outside data found => ?_, fun c => ?_⟩
  · have apart : c ≠ b := fun same => absent (same ▸ stays (same ▸ member))
    rw [retired.block, Option.map_eq_some_iff] at found'
    obtain ⟨data, found, rfl⟩ := found'
    rw [if_neg apart]
    exact ⟨data, found, rfl, id⟩
  · have same : c = b := by
      by_contra apart
      exact outside ((List.mem_erase_of_ne apart).2 inside)
    rw [retired.block, Option.map_eq_some_iff] at found
    obtain ⟨data, -, rfl⟩ := found
    rw [if_pos same]
    exact ⟨rfl, rfl⟩
  · rw [retired.block, Option.isSome_map]

end

/-! ## Conditions on statuses and marks -/

/-- The layout may be searched and swept: no mark in it is left over, and a block that cannot be
unlinked for its status is a failure that is allowed. -/
structure Ready (allowed : Fault → Prop) (g : Graph) (xs : List BlockId) : Prop where
  unmarked : ∀ c ∈ xs, g.Unmarked c
  enlisted : ∀ c ∈ xs, ∀ data, g.block? c = some data →
    data.status = .live ∨ allowed (.cannotDetach c c)

/-- A block is live exactly if it is in the layout, and no block carries a mark. -/
structure Settled (g : Graph) (xs : List BlockId) : Prop where
  enrolled : ∀ c data, g.block? c = some data → (data.status = .live ↔ c ∈ xs)
  clear : ∀ c data, g.block? c = some data → data.marked = false

section

variable {allowed : Fault → Prop} {xs xs' : List BlockId} {g g' : Graph}

theorem Settled.ready (settled : g.Settled xs) (coherent : g.Coherent xs) : Ready allowed g xs := by
  refine ⟨fun c member => ?_, fun c member data found => ?_⟩
  · obtain ⟨data, found⟩ := coherent.laid.exists_block member
    exact ⟨data, found, settled.clear c data found⟩
  · exact .inl ((settled.enrolled c data found).2 member)

theorem Ready.evolves (ready : Ready allowed g xs) (evolves : Evolves xs xs' g g') :
    Ready allowed g' xs' := by
  refine ⟨fun c member => ?_, fun c member data' found' => ?_⟩
  · obtain ⟨data', found'⟩ := evolves.coherent.laid.exists_block member
    obtain ⟨data, found, -, marked⟩ := evolves.kept c (fun _ => member) data' found'
    obtain ⟨data₀, found₀, clear⟩ := ready.unmarked c (evolves.subset member)
    rw [found] at found₀
    cases found₀
    refine ⟨data', found', ?_⟩
    cases mark : data'.marked with
    | false => rfl
    | true => simp [marked mark] at clear
  · obtain ⟨data, found, status, -⟩ := evolves.kept c (fun _ => member) data' found'
    rw [status]
    exact ready.enlisted c (evolves.subset member) data found

theorem Settled.evolves (settled : g.Settled xs) (evolves : Evolves xs xs' g g') :
    g'.Settled xs' := by
  refine ⟨fun c data' found' => ?_, fun c data' found' => ?_⟩
  · by_cases stays : c ∈ xs → c ∈ xs'
    · obtain ⟨data, found, status, -⟩ := evolves.kept c stays data' found'
      rw [status, settled.enrolled c data found]
      exact ⟨stays, fun member => evolves.subset member⟩
    · rw [Classical.not_imp] at stays
      obtain ⟨retired, -⟩ := evolves.gone c stays.1 stays.2 data' found'
      simp [retired, stays.2]
  · by_cases stays : c ∈ xs → c ∈ xs'
    · obtain ⟨data, found, -, marked⟩ := evolves.kept c stays data' found'
      have clear := settled.clear c data found
      cases mark : data'.marked with
      | false => rfl
      | true => simp [marked mark] at clear
    · rw [Classical.not_imp] at stays
      exact (evolves.gone c stays.1 stays.2 data' found').2

/-! ## Elimination -/

theorem Eliminated.evolves {gone : List BlockId} (eliminated : Eliminated xs gone g g') :
    Evolves xs (xs.filter (· ∉ gone)) g g' := by
  refine ⟨eliminated.coherent, List.filter_subset_self _, fun c stays data' found' => ?_,
    fun c member outside data found => ?_, eliminated.label.isSome_eq⟩
  · have kept : c ∉ gone := by
      intro inGone
      have inFilter := stays (eliminated.inner c inGone).1
      simp [inGone] at inFilter
    have core := eliminated.core c kept
    rw [found', Option.map_some] at core
    obtain ⟨data, found, same⟩ := Option.map_eq_some_iff.1 core.symm
    simp only [Block.core, Block.mk.injEq] at same
    refine ⟨data, found, same.2.2.2.2.1.symm, fun marked => ?_⟩
    obtain ⟨data₀, found₀, marked₀⟩ := eliminated.marked c data' found' marked
    rw [found] at found₀
    cases found₀
    exact marked₀
  · have inGone : c ∈ gone := by simpa [member] using outside
    exact eliminated.retired c inGone data found

end

end FlowGraph.Graph
