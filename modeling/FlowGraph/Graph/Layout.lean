import FlowGraph.Graph.Basic

/-! # Layout

The layout is the list of live blocks from entry to exit, kept as links in the blocks. Blocks are
created detached, linked in before or behind a live block, and unlinked again, singly or as a *run*:
the blocks from a first to a last one along their links. A run keeps its inner links, so it can be
moved as a whole. Entry and exit never move. -/

namespace FlowGraph.Graph

/-! ## Following the links -/

/-- Blocks met on a way through the layout, and what ended it early, if anything did. -/
structure Trail where
  blocks : List BlockId
  fault : Option Fault
deriving DecidableEq, Repr

/-- The blocks of a trail that ended as it should. -/
def Trail.finish (t : Trail) : Except Fault (List BlockId) :=
  match t.fault with
  | none => .ok t.blocks
  | some f => .error f

/-- Follows `next` links from a block until they end or `stop` holds, which excludes the block it
holds of. A way longer than the arena has met some block twice and would go on for ever. -/
def walk (g : Graph) (stop : BlockId → Bool) : Nat → Option BlockId → List BlockId → Trail
  | _, none, met => ⟨met.reverse, none⟩
  | 0, some _, met => ⟨met.reverse, some .endless⟩
  | n + 1, some b, met =>
    if stop b then ⟨met.reverse, none⟩
    else
      match g.block? b with
      | none => ⟨met.reverse, some (.outOfRange b)⟩
      | some data => walk g stop n data.next (b :: met)

def trail (g : Graph) : Trail := g.walk (fun _ => false) (g.blockCount + 1) (some .entry) []

/-- The way from entry up to exit, which it leaves out. -/
def body (g : Graph) : Trail := g.walk (· = .exit) (g.blockCount + 1) (some .entry) []

def layout (g : Graph) : Except Fault (List BlockId) := g.trail.finish

/-- At most `n` blocks of the layout, from entry on. -/
def firstBlocks (g : Graph) (n : Nat) : Except Fault (List BlockId) :=
  let way := g.walk (fun _ => false) n (some .entry) []
  match way.fault with
  | none | some .endless => .ok way.blocks
  | some f => .error f

/-- The run from `b` to `last`, or to the end of the links if they do not lead there. -/
def run (g : Graph) (last : BlockId) : Nat → BlockId → List BlockId → Except Fault (List BlockId)
  | 0, _, _ => .error .endless
  | n + 1, b, met => do
    let data ← g.block b
    if b = last then return (b :: met).reverse
    match data.next with
    | none => return (b :: met).reverse
    | some c => run g last n c (b :: met)

/-- No block behind `b` holds an instruction. -/
def isFinal (g : Graph) (b : BlockId) : Except Fault Bool := do
  let data ← g.block b
  let rest := g.walk (fun _ => false) (g.blockCount + 1) data.next []
  if rest.blocks.any fun c => (g.block? c).any fun data => !data.instrs.isEmpty then return false
  let _ ← rest.finish
  return true

/-! ## Blocks that come -/

/-- A new detached block. -/
def create (g : Graph) : BlockId × Graph :=
  (⟨g.blocks.size⟩, { g with blocks := g.blocks.push .fresh })

/-- What the count of live blocks must stay below. It is a 64-bit word; an arena too large for such
a word, which no machine holds, counts as far as it has blocks. -/
def countLimit (g : Graph) : Nat := max UInt64.size (g.blockCount + 1)

/-- Enters a run that has just been linked in: its blocks are live and are counted. -/
def enlist (g : Graph) (first last : BlockId) : Except Fault Graph := do
  let members ← g.run last (g.blockCount + 1) first []
  require (g.liveCount + members.length < g.countLimit) .countOverflow
  return { g.modifyAll members ({ · with status := .live }) with
    liveCount := g.liveCount + members.length, order := none }

/-- Links the detached run from `first` to `last` in behind `pivot`. -/
def attachAfter (g : Graph) (pivot first last : BlockId) : Except Fault Graph := do
  require (pivot ≠ .exit) (.cannotAttachAfter pivot first last)
  let place ← g.block pivot
  require (place.status = .live) (.cannotAttachAfter pivot first last)
  let head ← g.block first
  require (head.status = .detached) (.cannotAttachAfter pivot first last)
  match place.next with
  | none => return g
  | some next =>
    let g ← g.update first ({ · with prev := some pivot })
    let g ← g.update last ({ · with next := some next })
    let g ← g.update next ({ · with prev := some last })
    let g ← g.update pivot ({ · with next := some first })
    g.enlist first last

/-- Links the detached run from `first` to `last` in before `pivot`. -/
def attachBefore (g : Graph) (pivot first last : BlockId) : Except Fault Graph := do
  require (pivot ≠ .entry) (.cannotAttachBefore pivot first last)
  let place ← g.block pivot
  require (place.status = .live) (.cannotAttachBefore pivot first last)
  let head ← g.block first
  require (head.status = .detached) (.cannotAttachBefore pivot first last)
  match place.prev with
  | none => return g
  | some prev =>
    let g ← g.update first ({ · with prev := some prev })
    let g ← g.update last ({ · with next := some pivot })
    let g ← g.update prev ({ · with next := some first })
    let g ← g.update pivot ({ · with prev := some last })
    g.enlist first last

/-- A new block, linked in before exit. -/
def append (g : Graph) : Except Fault (BlockId × Graph) := do
  let (b, g) := g.create
  return (b, ← g.attachBefore .exit b b)

/-! ## Blocks that go -/

/-- Strikes out a run that has just been unlinked: its blocks are detached and no longer counted. -/
def discharge (g : Graph) (first last : BlockId) : Except Fault Graph := do
  let members ← g.run last (g.blockCount + 1) first []
  require (members.length ≤ g.liveCount) .countOverflow
  return { g.modifyAll members ({ · with status := .detached }) with
    liveCount := g.liveCount - members.length, order := none }

/-- Unlinks the run from `first` to `last`. A run without neighbours on both sides is in no layout
and stays as it is. -/
def detach (g : Graph) (first last : BlockId) : Except Fault Graph := do
  require (first ≠ .entry ∧ last ≠ .exit) (.cannotDetach first last)
  let head ← g.block first
  require (head.status = .live) (.cannotDetach first last)
  let tail ← g.block last
  match head.prev, tail.next with
  | some prev, some next =>
    let g ← g.update prev ({ · with next := some next })
    let g ← g.update next ({ · with prev := some prev })
    let g ← g.update first ({ · with prev := none })
    let g ← g.update last ({ · with next := none })
    g.discharge first last
  | _, _ => return g

/-- Gives up the data of a block, which leaves the layout if it is in it. Its edges are not looked
at: they must have been deleted or sent elsewhere before. -/
def destroy (g : Graph) (b : BlockId) : Except Fault Graph := do
  require (b ≠ .entry ∧ b ≠ .exit) (.sentinelDestroyed b)
  let data ← g.block b
  let g ← if data.isLive then g.detach b b else pure g
  g.update b ({ ·.release with metadata := .empty, status := .destroyed })

/-- Takes a block that has lost all its edges out of the graph for good. Its handle, label and
metadata stay. -/
def retire (g : Graph) (b : BlockId) : Except Fault Graph := do
  let data ← g.block b
  require (data.succs = [] ∧ data.preds = []) (.edgesRemain b)
  let g ← g.detach b b
  let g ← g.update b ({ ·.release with deadEnd := false, marked := false, status := .retired })
  return { g with retired := g.retired.push b }

end FlowGraph.Graph
