import FlowGraph.Dot
import FlowGraph.Proofs.Operation
import Mathlib.Algebra.Ring.Parity

/-! # Escaped text

Text is escaped by six replacements, each made in what the one before it has left. They come to a
single pass that looks at every character by itself, because none of them touches what an earlier one
has written: backslashes are doubled before any other backslash is written. The result consists of
plain characters and of backslashes, each with a character behind it that belongs to it. A reader who
takes such pairs together meets no end of the quotes in it, wherever it is put, and if he reads each
pair as what it stands for, he gets the text back but for its carriage returns. In a drawing he finds
between quotes what was put there and nothing else. -/

namespace FlowGraph

namespace Dot

/-! ## A single pass -/

/-- What is written for a character. -/
def escapeChar : Char → List Char
  | '\\' => ['\\', '\\']
  | '"' => ['\\', '"']
  | '\n' => ['\\', 'n']
  | '\r' => []
  | '<' => ['\\', '<']
  | '>' => ['\\', '>']
  | c => [c]

theorem escapeChars_append (s t : List Char) :
    escapeChars (s ++ t) = escapeChars s ++ escapeChars t := by
  unfold escapeChars
  induction replacements generalizing s t with
  | nil => rfl
  | cons entry table ih =>
    rw [List.foldl_cons, List.foldl_cons, List.foldl_cons, ← ih]
    simp [replace]

theorem escapeChars_singleton (c : Char) : escapeChars [c] = escapeChar c := by
  unfold escapeChar
  split
  case h_7 backslash quote newline ret less greater =>
    simp [escapeChars, replacements, replace, if_neg backslash, if_neg quote, if_neg newline,
      if_neg ret, if_neg less, if_neg greater]
  all_goals rfl

theorem escapeChars_eq (s : List Char) : escapeChars s = s.flatMap escapeChar := by
  induction s with
  | nil => rfl
  | cons c s ih => rw [List.flatMap_cons, ← escapeChars_singleton, ← ih, ← escapeChars_append]; rfl

theorem escapeChars_cons (c : Char) (s : List Char) :
    escapeChars (c :: s) = escapeChar c ++ escapeChars s := by
  rw [escapeChars_eq, escapeChars_eq, List.flatMap_cons]

theorem ne_of_mem_escapeChar {c d : Char} (member : d ∈ escapeChar c) : d ≠ '\n' ∧ d ≠ '\r' := by
  unfold escapeChar at member
  split at member
  case h_7 newline ret _ _ =>
    obtain rfl := List.mem_singleton.1 member
    exact ⟨newline, ret⟩
  case h_4 => cases member
  all_goals
    simp only [List.mem_cons, List.not_mem_nil, or_false] at member
    rcases member with rfl | rfl <;> decide

theorem escapeChars_oneLine {s : List Char} {d : Char} (member : d ∈ escapeChars s) :
    d ≠ '\n' ∧ d ≠ '\r' := by
  rw [escapeChars_eq] at member
  obtain ⟨c, -, written⟩ := List.mem_flatMap.1 member
  exact ne_of_mem_escapeChar written

/-! ## Reading escapes -/

/-- Reads every pair as what it stands for. -/
def unescapeChars : List Char → List Char
  | [] => []
  | '\\' :: 'n' :: rest => '\n' :: unescapeChars rest
  | '\\' :: c :: rest => c :: unescapeChars rest
  | c :: rest => c :: unescapeChars rest

def unescape (s : String) : String := .ofList (unescapeChars s.toList)

theorem unescapeChars_plain {c : Char} (notBackslash : c ≠ '\\') (rest : List Char) :
    unescapeChars (c :: rest) = c :: unescapeChars rest := by
  rw [unescapeChars]
  · exact fun _ same => absurd same notBackslash
  · exact fun _ _ same => absurd same notBackslash

theorem unescapeChars_escapeChar (c : Char) (rest : List Char) :
    unescapeChars (escapeChar c ++ rest) = (if c = '\r' then [] else [c]) ++ unescapeChars rest := by
  unfold escapeChar
  split
  case h_7 backslash _ _ ret _ _ => simp [unescapeChars_plain backslash, if_neg ret]
  all_goals simp [unescapeChars]

theorem unescapeChars_escapeChars (s : List Char) :
    unescapeChars (escapeChars s) = s.filter (· ≠ '\r') := by
  induction s with
  | nil => rfl
  | cons c s ih =>
    rw [escapeChars_cons, unescapeChars_escapeChar, ih, List.filter_cons]
    by_cases ret : c = '\r' <;> simp [ret]

theorem unescape_escape (s : String) :
    unescape (escape s) = String.ofList (s.toList.filter (· ≠ '\r')) := by
  rw [unescape, escape, String.toList_ofList, unescapeChars_escapeChars]

/-- Nothing else is lost. -/
theorem unescape_escape_of_noReturn {s : String} (noReturn : '\r' ∉ s.toList) :
    unescape (escape s) = s := by
  have kept : s.toList.filter (· ≠ '\r') = s.toList :=
    List.filter_eq_self.2 fun c member => by
      simpa using ne_of_mem_of_not_mem member noReturn
  rw [unescape_escape, kept, String.ofList_toList]

/-! ## Text between quotes -/

/-- Text that may stand between quotes: plain characters, and backslashes that each belong together
with the character behind them. -/
inductive Body : List Char → Prop where
  | nil : Body []
  | plain {c : Char} {w : List Char} (notQuote : c ≠ '"') (notBackslash : c ≠ '\\') (rest : Body w) :
    Body (c :: w)
  | pair (c : Char) {w : List Char} (rest : Body w) : Body ('\\' :: c :: w)

/-- Number of backslashes at the end of a text. -/
def trailing (w : List Char) : Nat := (w.reverse.takeWhile (· = '\\')).length

theorem trailing_concat (w : List Char) (c : Char) :
    trailing (w ++ [c]) = if c = '\\' then trailing w + 1 else 0 := by
  unfold trailing
  rw [List.reverse_append, List.reverse_singleton, List.singleton_append, List.takeWhile_cons]
  split <;> simp_all

namespace Body

variable {w w' : List Char}

theorem append (body : Body w) (body' : Body w') : Body (w ++ w') := by
  induction body with
  | nil => exact body'
  | plain notQuote notBackslash _ ih => exact .plain notQuote notBackslash ih
  | pair c _ ih => exact .pair c ih

theorem flatMap {α : Type} {f : α → List Char} {xs : List α} (each : ∀ x ∈ xs, Body (f x)) :
    Body (xs.flatMap f) := by
  induction xs with
  | nil => exact .nil
  | cons x xs ih =>
    obtain ⟨first, rest⟩ := List.forall_mem_cons.1 each
    exact first.append (ih rest)

theorem of_plain (plain : ∀ c ∈ w, c ≠ '"' ∧ c ≠ '\\') : Body w := by
  induction w with
  | nil => exact .nil
  | cons c w ih =>
    obtain ⟨first, rest⟩ := List.forall_mem_cons.1 plain
    exact .plain first.1 first.2 (ih rest)

/-- Behind an even number of backslashes, every quote in the text comes behind an odd number of them,
and their number at its end is even again. -/
theorem trailing_append (body : Body w) : ∀ {front : List Char}, Even (trailing front) →
    Even (trailing (front ++ w)) ∧
      ∀ l r, w = l ++ '"' :: r → Odd (trailing (front ++ l)) := by
  induction body with
  | nil => exact fun even => ⟨by simpa using even, by simp⟩
  | @plain c w notQuote notBackslash _ ih =>
    intro front even
    have next : Even (trailing (front ++ [c])) := by simp [trailing_concat, notBackslash]
    obtain ⟨atEnd, quotes⟩ := ih next
    refine ⟨by simpa using atEnd, fun l r split => ?_⟩
    cases l with
    | nil =>
      cases split
      exact absurd rfl notQuote
    | cons d l =>
      cases split
      simpa using quotes l r rfl
  | @pair c w _ ih =>
    intro front even
    have odd : Odd (trailing (front ++ ['\\'])) := by
      simpa [trailing_concat] using even.add_one
    have next : Even (trailing (front ++ ['\\'] ++ [c])) := by
      rw [trailing_concat]
      split
      · exact odd.add_one
      · exact Even.zero
    obtain ⟨atEnd, quotes⟩ := ih next
    refine ⟨by simpa using atEnd, fun l r split => ?_⟩
    match l, split with
    | [], split => simp at split
    | [d], split =>
      cases split
      exact odd
    | d :: d' :: l, split =>
      cases split
      simpa using quotes l r rfl

end Body

theorem body_escapeChars (s : List Char) : Body (escapeChars s) := by
  rw [escapeChars_eq]
  refine .flatMap fun c _ => ?_
  unfold escapeChar
  split
  case h_7 backslash quote _ _ _ _ => exact .plain quote backslash .nil
  case h_4 => exact .nil
  all_goals exact .pair _ .nil

theorem body_escape (s : String) : Body (escape s).toList := by
  rw [escape, String.toList_ofList]
  exact body_escapeChars s.toList

/-! ## Reading quotes -/

/-- Reads a text and gives what stands between quotes in it, if all of them are closed. The first
argument is what has been read since a quote was opened that is not closed yet. -/
def quotations : Option (List Char) → List Char → Option (List (List Char))
  | none, [] => some []
  | some _, [] => none
  | none, '"' :: rest => quotations (some []) rest
  | none, _ :: rest => quotations none rest
  | some w, '"' :: rest => (quotations none rest).map (w :: ·)
  | some w, '\\' :: c :: rest => quotations (some (w ++ ['\\', c])) rest
  | some w, c :: rest => quotations (some (w ++ [c])) rest

def quoted (s : String) : Option (List String) :=
  (quotations none s.toList).map (·.map String.ofList)

theorem quotations_append {opened : Option (List Char)} {w : List Char} {qs : List (List Char)}
    (read : quotations opened w = some qs) (rest : List Char) :
    quotations opened (w ++ rest) = (quotations none rest).map (qs ++ ·) := by
  fun_induction quotations opened w generalizing qs with
  | case1 => cases read; simp
  | case2 => cases read
  | case3 w ih => simpa [quotations] using ih read
  | case4 c w notQuote ih => simpa [quotations, notQuote] using ih read
  | case5 v w ih =>
    obtain ⟨qs', read', rfl⟩ := Option.map_eq_some_iff.1 read
    simp [quotations, ih read', Function.comp_def]
  | case6 v c w ih => simpa [quotations] using ih read
  | case7 v c w notQuote notPair ih =>
    -- a backslash would be the last character, and the quotes would not be closed
    have notBackslash : c ≠ '\\' := by
      rintro rfl
      cases w with
      | nil => cases read
      | cons d w => exact notPair d w rfl rfl
    rw [List.cons_append, quotations, ih read]
    · exact notQuote
    · exact fun _ _ same => absurd same notBackslash

/-- Text outside quotes shows nothing. -/
theorem quotations_plain {w : List Char} (plain : ∀ c ∈ w, c ≠ '"') :
    quotations none w = some [] := by
  induction w with
  | nil => rfl
  | cons c w ih =>
    obtain ⟨first, rest⟩ := List.forall_mem_cons.1 plain
    rw [quotations, ih rest]
    exact first

/-- A reader who is between quotes goes through such text and is between the same quotes still. -/
theorem Body.quotations {w : List Char} (body : Body w) (front rest : List Char) :
    quotations (some front) (w ++ rest) = quotations (some (front ++ w)) rest := by
  induction body generalizing front with
  | nil => simp
  | @plain c w notQuote notBackslash _ ih =>
    rw [List.cons_append, Dot.quotations, ih, List.append_assoc, List.singleton_append]
    · exact notQuote
    · exact fun _ _ same => absurd same notBackslash
  | pair c _ ih =>
    rw [List.cons_append, List.cons_append, Dot.quotations, ih, List.append_assoc]
    rfl

theorem quoted_append {s t : String} {qs qs' : List String} (read : quoted s = some qs)
    (read' : quoted t = some qs') : quoted (s ++ t) = some (qs ++ qs') := by
  obtain ⟨ws, left, rfl⟩ := Option.map_eq_some_iff.1 read
  obtain ⟨ws', right, rfl⟩ := Option.map_eq_some_iff.1 read'
  rw [quoted, String.toList_append, quotations_append left, right]
  simp

theorem quoted_body {s : String} (body : Body s.toList) :
    quoted ("\"" ++ s ++ "\"") = some [s] := by
  have opening : ("\"" ++ s ++ "\"").toList = '"' :: (s.toList ++ ['"']) := by simp
  rw [quoted, opening, quotations, body.quotations]
  simp [quotations]

theorem quoted_join {ss : List String} {qss : List (List String)}
    (reads : List.Forall₂ (fun s qs => quoted s = some qs) ss qss) :
    quoted (String.join ss) = some qss.flatten := by
  induction reads with
  | nil => rfl
  | cons read _ ih => simpa using quoted_append read ih

/-! ## Labels in a drawing -/

/-- Text in which nothing has to be escaped. -/
def Plain (s : String) : Prop := ∀ c ∈ s.toList, c ≠ '"' ∧ c ≠ '\\'

namespace Plain

theorem append {s t : String} (first : Plain s) (second : Plain t) : Plain (s ++ t) := by
  intro c member
  rw [String.toList_append, List.mem_append] at member
  exact member.elim (first c) (second c)

theorem join {ss : List String} (each : ∀ s ∈ ss, Plain s) : Plain (String.join ss) := by
  intro c member
  rw [String.toList_join] at member
  obtain ⟨s, member, within⟩ := List.mem_flatMap.1 member
  exact each s member c within

theorem number (n : Nat) : Plain (toString n) := by
  intro c member
  have digit : c.isDigit = true := by
    rw [Nat.toString_eq_repr, Nat.toList_repr] at member
    exact Nat.isDigit_of_mem_toDigits (by decide) (by decide) member
  constructor <;> rintro rfl <;> revert digit <;> decide

theorem quoted {s : String} (plain : Plain s) : quoted s = some [] := by
  rw [Dot.quoted, quotations_plain fun c member => (plain c member).1]
  rfl

theorem body {s : String} (plain : Plain s) : Body s.toList := .of_plain plain

end Plain

theorem quoted_between {s label t : String} (before : Plain s) (within : Body label.toList)
    (after : Plain t) : quoted (s ++ ("\"" ++ label ++ "\"") ++ t) = some [label] :=
  quoted_append (quoted_append before.quoted (quoted_body within)) after.quoted

end Dot

namespace Graph

open Dot

/-- The quotation at the node of a block. -/
def nodeQuotes (g : Graph) (b : BlockId) : Except Fault (List String) := do
  let heading ← g.heading b
  let data ← g.block b
  return [heading ++ "\\l" ++ String.join (data.instrs.map fun i => escape i.text ++ "\\l")]

/-- The quotations at the arrows out of a block. -/
def arrowQuotes (g : Graph) (b : BlockId) : Except Fault (List String) := do
  return (← g.outEdges b).map fun (_, edge) => edge.kind.name

theorem plain_text (b : BlockId) : Plain b.text := .append (by simp [Plain]) (.number _)

theorem plain_heading {g : Graph} {b : BlockId} {heading : String} (made : g.heading b = .ok heading) :
    Plain heading := by
  obtain ⟨labels, -, made⟩ := bind_eq_ok.1 made
  cases made
  have role : Plain b.role := by
    unfold BlockId.role
    split_ifs <;> simp [Plain]
  refine .append (.append (plain_text b) role) (.join fun s member => ?_)
  obtain ⟨l, -, rfl⟩ := List.mem_map.1 member
  exact .append (by simp [Plain]) (.append (by simp [Plain]) (.number _))

theorem body_nodeText {heading : String} (plain : Plain heading) (instrs : List Instr) :
    Body (heading ++ "\\l" ++ String.join (instrs.map fun i => escape i.text ++ "\\l")).toList := by
  have newline : Body "\\l".toList := .pair 'l' .nil
  rw [String.toList_append, String.toList_append, String.toList_join, List.flatMap_map]
  refine .append (.append plain.body newline) (.flatMap fun i _ => ?_)
  rw [String.toList_append]
  exact .append (body_escape _) newline

theorem quoted_dotNode {g : Graph} {b : BlockId} {text : String} (drawn : g.dotNode b = .ok text) :
    ∃ quotes, g.nodeQuotes b = .ok quotes ∧ quoted text = some quotes := by
  obtain ⟨heading, headed, drawn⟩ := bind_eq_ok.1 drawn
  obtain ⟨data, found, drawn⟩ := bind_eq_ok.1 drawn
  cases drawn
  refine ⟨_, bind_eq_ok.2 ⟨heading, headed, bind_eq_ok.2 ⟨data, found, rfl⟩⟩, ?_⟩
  have label := body_nodeText (plain_heading headed) data.instrs
  generalize String.join (data.instrs.map fun i => escape i.text ++ "\\l") = lines at label ⊢
  have before : Plain ("    " ++ b.text ++ " [label=") :=
    .append (.append (by simp [Plain]) (plain_text b)) (by simp [Plain])
  have after : Plain (nodeStyle b ++ "];\n") := by
    refine .append ?_ (by simp [Plain])
    unfold nodeStyle
    split_ifs <;> simp [Plain]
  have parts : "    " ++ b.text ++ " [label=\"" ++ heading ++ "\\l" ++ lines ++ "\"" ++ nodeStyle b ++
      "];\n" = "    " ++ b.text ++ " [label=" ++ ("\"" ++ (heading ++ "\\l" ++ lines) ++ "\"") ++
        (nodeStyle b ++ "];\n") := by
    have opening : " [label=\"" = " [label=" ++ "\"" := rfl
    rw [opening]
    simp only [String.append_assoc]
  rw [parts]
  exact quoted_between before label after

theorem quoted_dotArrow (edge : Edge) : quoted (dotArrow edge) = some [edge.kind.name] := by
  have before : Plain ("    " ++ edge.src.text ++ " -> " ++ edge.dst.text ++ " [label=") :=
    .append (.append (.append (.append (by simp [Plain]) (plain_text _)) (by simp [Plain]))
      (plain_text _)) (by simp [Plain])
  have name : Plain edge.kind.name := by cases edge.kind <;> simp [Plain, EdgeKind.name]
  have after : Plain (", color=" ++ color edge.kind ++ "];\n") := by
    cases edge.kind <;> simp [Plain, color]
  have parts : dotArrow edge = "    " ++ edge.src.text ++ " -> " ++ edge.dst.text ++ " [label=" ++
      ("\"" ++ edge.kind.name ++ "\"") ++ (", color=" ++ color edge.kind ++ "];\n") := by
    have opening : " [label=\"" = " [label=" ++ "\"" := rfl
    have closing : "\", color=" = "\"" ++ ", color=" := rfl
    rw [dotArrow, opening, closing]
    simp only [String.append_assoc]
  rw [parts]
  exact quoted_between before name.body after

theorem quoted_dotArrows {g : Graph} {b : BlockId} {text : String}
    (drawn : g.dotArrows b = .ok text) :
    ∃ quotes, g.arrowQuotes b = .ok quotes ∧ quoted text = some quotes := by
  obtain ⟨out, found, drawn⟩ := bind_eq_ok.1 drawn
  cases drawn
  refine ⟨_, bind_eq_ok.2 ⟨out, found, rfl⟩, ?_⟩
  have each : List.Forall₂ (fun s qs => quoted s = some qs) (out.map fun (_, edge) => dotArrow edge)
      (out.map fun (_, edge) => [edge.kind.name]) := by
    simp [quoted_dotArrow]
  rw [quoted_join each, ← List.flatMap_def, ← List.map_eq_flatMap]

theorem mapM_quoted {f : BlockId → Except Fault String} {quotes : BlockId → Except Fault (List String)}
    (each : ∀ {b s}, f b = .ok s → ∃ qs, quotes b = .ok qs ∧ quoted s = some qs)
    {bs : List BlockId} {parts : List String} (made : bs.mapM f = .ok parts) :
    ∃ qss, bs.mapM quotes = .ok qss ∧
      List.Forall₂ (fun s qs => quoted s = some qs) parts qss := by
  simp only [mapM_eq_ok] at made ⊢
  induction made with
  | nil => exact ⟨[], .nil, .nil⟩
  | cons here _ ih =>
    obtain ⟨qs, first, read⟩ := each here
    obtain ⟨qss, rest, reads⟩ := ih
    exact ⟨qs :: qss, .cons first rest, .cons read reads⟩

theorem quoted_eachBlock {g : Graph} {f : BlockId → Except Fault String}
    {quotes : BlockId → Except Fault (List String)} {text : String}
    (each : ∀ {b s}, f b = .ok s → ∃ qs, quotes b = .ok qs ∧ quoted s = some qs)
    (shown : g.eachBlock f = .ok text) :
    ∃ way qss, g.layout = .ok way ∧ way.mapM quotes = .ok qss ∧ quoted text = some qss.flatten := by
  obtain ⟨parts, made, shown⟩ := bind_eq_ok.1 shown
  obtain ⟨way, finished, shown⟩ := bind_eq_ok.1 shown
  cases shown
  have blocks : g.trail.blocks = way := by
    unfold Trail.finish at finished
    split at finished
    · exact Except.ok.inj finished
    · cases finished
  obtain ⟨qss, quotess, reads⟩ := mapM_quoted each (blocks ▸ made)
  exact ⟨way, qss, finished, quotess, quoted_join reads⟩

theorem quoted_title (title : Option String) :
    quoted (match title with
      | some t => "    label=\"CFG: " ++ escape t ++ "\";\n"
      | none => "") = some (title.map ("CFG: " ++ escape ·)).toList := by
  cases title with
  | none => rfl
  | some t =>
    have before : Plain "    label=" := by simp [Plain]
    have after : Plain ";\n" := by simp [Plain]
    have name : Plain "CFG: " := by simp [Plain]
    have label : Body ("CFG: " ++ escape t).toList := by
      rw [String.toList_append]
      exact name.body.append (body_escape t)
    have parts : "    label=\"CFG: " ++ escape t ++ "\";\n" =
        "    label=" ++ ("\"" ++ ("CFG: " ++ escape t) ++ "\"") ++ ";\n" := by
      have opening : "    label=\"CFG: " = "    label=" ++ "\"" ++ "CFG: " := rfl
      have closing : "\";\n" = "\"" ++ ";\n" := rfl
      rw [opening, closing]
      simp only [String.append_assoc]
    simp only [parts]
    exact quoted_between before label after

/-- A drawing shows the title, the names of fonts, the text of every block in the layout and the kind
of every arrow, each between quotes of its own. -/
theorem quoted_dot {g : Graph} {title : Option String} {text : String}
    (drawn : g.dot title = .ok text) :
    ∃ way nodes arrows, g.layout = .ok way ∧ way.mapM g.nodeQuotes = .ok nodes ∧
      way.mapM g.arrowQuotes = .ok arrows ∧
      quoted text = some ((title.map ("CFG: " ++ escape ·)).toList ++ ["Courier", "Courier"] ++
        nodes.flatten ++ arrows.flatten) := by
  obtain ⟨nodeText, nodesDrawn, drawn⟩ := bind_eq_ok.1 drawn
  obtain ⟨arrowText, arrowsDrawn, drawn⟩ := bind_eq_ok.1 drawn
  cases drawn
  obtain ⟨way, nodes, layout, nodesMade, nodesRead⟩ := quoted_eachBlock quoted_dotNode nodesDrawn
  obtain ⟨way', arrows, layout', arrowsMade, arrowsRead⟩ :=
    quoted_eachBlock quoted_dotArrows arrowsDrawn
  obtain rfl : way = way' := Except.ok.inj (layout.symm.trans layout')
  refine ⟨way, nodes, arrows, layout, nodesMade, arrowsMade, ?_⟩
  have start : Plain "digraph CFG \x7b\n" := by simp [Plain]
  have place : Plain "    labelloc=t;\n" := by simp [Plain]
  have line : Plain "\n" := by simp [Plain]
  have stop : Plain "\x7d\n" := by simp [Plain]
  have nodeFont : quoted "    node [shape=box, fontname=\"Courier\", fontsize=10];\n" =
      some ["Courier"] := by simp [quoted, quotations]
  have edgeFont : quoted "    edge [fontname=\"Courier\", fontsize=9];\n\n" =
      some ["Courier"] := by simp [quoted, quotations]
  have whole := quoted_append (quoted_append (quoted_append (quoted_append (quoted_append
    (quoted_append (quoted_append (quoted_append start.quoted (quoted_title title)) place.quoted)
    nodeFont) edgeFont) nodesRead) line.quoted) arrowsRead) stop.quoted
  refine whole.trans ?_
  simp

/-- Escaping is one pass, character by character. It leaves a single line in which every quote stands
behind an odd number of backslashes and the end does not, so that a reader who is between quotes is
between them still when he has gone through. Only carriage returns are lost, and what has none is
escaped like no other text. In a drawing, that makes whatever is put between quotes a quotation as it
stands. -/
theorem escape_faithful :
    (∀ s : String, (escape s).toList = s.toList.flatMap escapeChar ∧
      (∀ c ∈ (escape s).toList, c ≠ '\n' ∧ c ≠ '\r') ∧
      (∀ l r, (escape s).toList = l ++ '"' :: r → Odd (trailing l)) ∧
      ¬ Odd (trailing (escape s).toList) ∧
      (∀ front rest, quotations (some front) ((escape s).toList ++ rest) =
        quotations (some (front ++ (escape s).toList)) rest) ∧
      unescape (escape s) = .ofList (s.toList.filter (· ≠ '\r'))) ∧
    (∀ s t : String, '\r' ∉ s.toList → '\r' ∉ t.toList → escape s = escape t → s = t) ∧
    ∀ (g : Graph) (title : Option String) (text : String), g.dot title = .ok text →
      ∃ way nodes arrows, g.layout = .ok way ∧ way.mapM g.nodeQuotes = .ok nodes ∧
        way.mapM g.arrowQuotes = .ok arrows ∧
        quoted text = some ((title.map ("CFG: " ++ escape ·)).toList ++ ["Courier", "Courier"] ++
          nodes.flatten ++ arrows.flatten) := by
  refine ⟨fun s => ?_, fun s t noReturn noReturn' same => ?_, fun g title text => quoted_dot⟩
  · have body := body_escape s
    have written : (escape s).toList = escapeChars s.toList := by
      rw [escape, String.toList_ofList]
    have backslashes := body.trailing_append (by decide : Even (trailing []))
    simp only [List.nil_append] at backslashes
    obtain ⟨atEnd, quotes⟩ := backslashes
    refine ⟨?_, fun c member => ?_, quotes, ?_, body.quotations, unescape_escape s⟩
    · rw [written, escapeChars_eq]
    · exact escapeChars_oneLine (written ▸ member)
    · exact Nat.not_odd_iff_even.2 atEnd
  · rw [← unescape_escape_of_noReturn noReturn, same, unescape_escape_of_noReturn noReturn']

/-- A graph with one block between entry and exit. -/
def spare : Graph := initial.performAll [.append, .build]

/-- The title would end its quotes if one of its two characters were to stay as it is. -/
theorem escape_faithful_spare : ∃ text, spare.dot (some "\\\"") = .ok text ∧
    quoted text = some ["CFG: \\\\\\\"", "Courier", "Courier", "B0 (entry)\\l", "B2\\l",
      "B1 (exit)\\l", "fallthru", "fallthru"] := by
  have returns : (spare.dot (some "\\\"")).isOk = true := by decide +kernel
  have layout : spare.layout = .ok [⟨0⟩, ⟨2⟩, ⟨1⟩] := by decide +kernel
  have nodes : [⟨0⟩, ⟨2⟩, ⟨1⟩].mapM spare.nodeQuotes =
      .ok [["B0 (entry)\\l"], ["B2\\l"], ["B1 (exit)\\l"]] := by decide +kernel
  have arrows : [⟨0⟩, ⟨2⟩, ⟨1⟩].mapM spare.arrowQuotes = .ok [["fallthru"], ["fallthru"], []] := by
    decide +kernel
  have title : escape "\\\"" = "\\\\\\\"" := by simp [escape, escapeChars, replacements, replace]
  cases drawn : spare.dot (some "\\\"") with
  | error f => simp [drawn, Except.isOk, Except.toBool] at returns
  | ok text =>
    refine ⟨text, rfl, ?_⟩
    obtain ⟨way, nodes', arrows', found, made, made', read⟩ := escape_faithful.2.2 _ _ _ drawn
    obtain rfl := Except.ok.inj (layout.symm.trans found)
    obtain rfl := Except.ok.inj (nodes.symm.trans made)
    obtain rfl := Except.ok.inj (arrows.symm.trans made')
    rw [read, Option.map_some, title]
    simp

end Graph

end FlowGraph
