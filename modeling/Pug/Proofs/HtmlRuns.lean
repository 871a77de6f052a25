/-
# Runs of HTML lines

Lines of HTML and the nodes of the blocks under them are one sequence, in which each longest run of
HTML text is made one node. Runs go on through line breaks and into blocks and out of them, and end
at every other node.
-/

import Mathlib.Data.List.SplitBy
import Pug.Proofs.Coupling.Ahead

namespace Pug

open Grammar

namespace Node

/-- The text of a line of HTML. -/
def html? : Node → Option String
  | text value true _ => some value
  | _ => none

/-- Whether two nodes that stand next to each other are of one run. -/
def joins (first second : Node) : Bool := first.html?.isSome && second.html?.isSome

/-- What the nodes of a run are made: lines of HTML are one node at the place of the first one. -/
def merged : List Node → List Node
  | text value true loc :: lines =>
    [text ("\n".intercalate (value :: lines.filterMap html?)) true loc]
  | nodes => nodes

theorem exists_text {node : Node} (h : node.html?.isSome) :
    ∃ value loc, node = text value true loc := by
  cases node with
  | text value isHtml loc =>
    cases isHtml with
    | true => exact ⟨value, loc, rfl⟩
    | false => cases h
  | _ => cases h

theorem ne_text {node : Node} (h : ¬ node.html?.isSome) (value : String) (loc : Location) :
    node ≠ text value true loc := by
  rintro rfl
  exact h rfl

theorem merged_singleton {node : Node} (h : ¬ node.html?.isSome) : merged [node] = [node] := by
  rw [merged]
  rintro value loc lines hnode
  exact absurd (List.cons.inj hnode).1 (ne_text h value loc)

end Node

/-- **Lines of HTML in front of what is none** are joined to one node. -/
theorem joinHtml_lines_append {lines rest : List Node} (hlines : ∀ node ∈ lines, node.html?.isSome)
    (hrest : ∀ node ∈ rest.head?, ¬ node.html?.isSome) (value : String) (loc : Location) :
    joinHtml (.text value true loc :: (lines ++ rest)) =
      .text ("\n".intercalate (value :: lines.filterMap Node.html?)) true loc :: joinHtml rest := by
  induction lines generalizing value with
  | nil =>
    cases rest with
    | nil => rfl
    | cons node rest =>
      have hjoin := joinHtml_append_cons (Node.ne_text (hrest node rfl)) value loc rest
      rw [List.nil_append, hjoin.2, hjoin.1]
      rfl
  | cons node lines ih =>
    obtain ⟨hnode, hmore⟩ := List.forall_mem_cons.1 hlines
    obtain ⟨more, place, rfl⟩ := Node.exists_text hnode
    rw [List.cons_append, joinHtml_cons_cons, ih hmore]
    rfl

/-- Nodes begin with the lines of a run, behind which none comes. -/
theorem exists_lines (nodes : List Node) : ∃ lines rest, nodes = lines ++ rest ∧
    (∀ node ∈ lines, node.html?.isSome) ∧ ∀ node ∈ rest.head?, ¬ node.html?.isSome := by
  refine ⟨nodes.takeWhile (·.html?.isSome), nodes.dropWhile (·.html?.isSome),
    List.takeWhile_append_dropWhile.symm, List.all_eq_true.1 List.all_takeWhile, fun node hnode => ?_⟩
  have hnot := List.head?_dropWhile_not (fun node : Node => node.html?.isSome) nodes
  rw [Option.mem_def.1 hnode] at hnot
  exact Bool.not_eq_true _ ▸ hnot

/-- What is no line of HTML is left as it is. -/
theorem joinHtml_cons {node : Node} (hnode : ¬ node.html?.isSome) (nodes : List Node) :
    joinHtml (node :: nodes) = node :: joinHtml nodes :=
  (joinHtml_append_cons (Node.ne_text hnode) "" ⟨.first, none⟩ nodes).1

/-- Lines of HTML are one run. -/
theorem splitBy_lines {lines : List Node} (hne : lines ≠ [])
    (hlines : ∀ node ∈ lines, node.html?.isSome) : lines.splitBy Node.joins = [lines] := by
  refine List.splitBy_of_isChain hne (List.Pairwise.isChain ?_)
  refine List.pairwise_of_forall_mem_list fun a ha b hb => ?_
  simp [Node.joins, hlines a ha, hlines b hb]

/-- **Joining nodes makes each longest run of lines of HTML one node,** and leaves the others as they
are. -/
theorem joinHtml_eq (nodes : List Node) :
    joinHtml nodes = (nodes.splitBy Node.joins).flatMap Node.merged := by
  match nodes with
  | [] => rfl
  | node :: nodes =>
    by_cases hnode : node.html?.isSome
    · obtain ⟨value, loc, rfl⟩ := Node.exists_text hnode
      obtain ⟨lines, rest, hnodes, hlines, hrest⟩ := exists_lines nodes
      have hlen : rest.length ≤ nodes.length := by
        rw [hnodes, List.length_append]
        omega
      have hsplit : (.text value true loc :: lines ++ rest).splitBy Node.joins =
          (.text value true loc :: lines).splitBy Node.joins ++ rest.splitBy Node.joins :=
        List.splitBy_append fun _ _ next hnext => by simp [Node.joins, hrest next hnext]
      rw [hnodes, joinHtml_lines_append hlines hrest, joinHtml_eq rest, ← List.cons_append, hsplit,
        splitBy_lines (List.cons_ne_nil _ _) (List.forall_mem_cons.2 ⟨hnode, hlines⟩)]
      rfl
    · have hsplit : (node :: nodes).splitBy Node.joins =
          [node].splitBy Node.joins ++ nodes.splitBy Node.joins := by
        refine List.splitBy_append (l := [node]) fun last hlast next _ => ?_
        obtain rfl : node = last := by simpa using hlast
        simp [Node.joins, hnode]
      have hone : ([node].splitBy Node.joins).flatMap Node.merged = [node] :=
        (List.append_nil _).trans (Node.merged_singleton hnode)
      rw [joinHtml_cons hnode, joinHtml_eq nodes, hsplit, List.flatMap_append, hone]
      rfl
termination_by nodes.length
decreasing_by
  · exact Nat.lt_succ_of_le hlen
  · exact Nat.lt_succ_self _

/-- Behind joining, no two lines of HTML stand next to each other. -/
theorem isChain_joinHtml (nodes : List Node) :
    (joinHtml nodes).IsChain fun first second => ¬ first.joins second := by
  induction nodes with
  | nil => exact .nil
  | cons node nodes ih =>
    by_cases hnode : node.html?.isSome
    · obtain ⟨value, loc, rfl⟩ := Node.exists_text hnode
      rw [joinHtml]
      split
      · rename_i more place rest hrest
        rw [hrest] at ih
        exact List.isChain_cons.2 (List.isChain_cons.1 ih)
      · rename_i hnext
        refine List.isChain_cons.2 ⟨fun next hmem hjoins => ?_, ih⟩
        obtain ⟨more, place, rfl⟩ := Node.exists_text (Bool.and_eq_true_iff.1 hjoins).2
        obtain ⟨rest, hrest⟩ := List.head?_eq_some_iff.1 (Option.mem_def.1 hmem)
        exact hnext more place rest hrest
    · rw [joinHtml_cons hnode]
      refine List.isChain_cons.2 ⟨fun next _ hjoins => ?_, ih⟩
      exact hnode (Bool.and_eq_true_iff.1 hjoins).1

section Items

variable (o : Options) (inner : Inner) (scope : Scope)

/-- In one round, the nodes of a line, of no line, or of the block under it are read. -/
inductive HtmlRound : Cursor → List Node → Cursor → Prop where
  | line {c : Cursor} {value : String} {pos : Position} (h : c.peek = ⟨.textHtml value, pos⟩) :
      HtmlRound c [.text value true (o.place pos)] c.advance
  | newline {c : Cursor} (h : c.peek.terminal = .newline) : HtmlRound c [] c.advance
  | block {c rest : Cursor} {b : Block} {events : List Event} (h : c.peek.terminal = .indent)
      (hrun : (inner.block scope).run o c = ⟨.done b rest, events⟩) : HtmlRound c b.nodes rest

/-- The items that are read up to a token that is no line, no line break and no block. -/
inductive HtmlItems : Cursor → List Node → Cursor → Prop where
  | done {c : Cursor} (h : c.peek.terminal ∉ [.textHtml, .newline, .indent]) : HtmlItems c [] c
  | round {c mid rest : Cursor} {nodes items : List Node} (h : HtmlRound o inner scope c nodes mid)
      (more : HtmlItems mid items rest) : HtmlItems c (nodes ++ items) rest

end Items

/-- A sequence is done where its second reader is, behind where the first one is. -/
theorem Run.exists_of_andThen {α β : Type} {r : Run α} {next : α → Cursor → Run β} {b : β}
    {rest : Cursor} {events : List Event} (h : r.andThen next = ⟨.done b rest, events⟩) :
    ∃ a mid first second, r = ⟨.done a mid, first⟩ ∧ next a mid = ⟨.done b rest, second⟩ := by
  obtain ⟨_ | _ | _, first⟩ := r
  · rename_i a mid
    match hnext : next a mid with
    | ⟨outcome, second⟩ =>
      rw [andThen_done, hnext] at h
      cases h
      exact ⟨a, mid, first, second, rfl, hnext⟩
  · cases h
  · cases h

variable {o : Options} {inner : Inner} {scope : Scope}

/-- **One round of the reader of HTML** adds the nodes that it reads to what is read. -/
theorem round_of_htmlStep {r : HtmlRun} {next : Option HtmlRun} {c rest : Cursor}
    {events : List Event} (h : (htmlStep inner scope r).run o c = ⟨.done next rest, events⟩) :
    (next = none ∧ rest = c ∧ c.peek.terminal ∉ [.textHtml, .newline, .indent]) ∨
      ∃ nodes, next = some (nodes.foldl .add r) ∧ HtmlRound o inner scope c nodes rest := by
  rw [htmlStep, Reader.run_bind, Reader.run_peek, Run.andThen_done, Run.after_nil] at h
  obtain ⟨l, pos, hpeek⟩ : ∃ l pos, c.peek = ⟨l, pos⟩ := ⟨_, _, rfl⟩
  rw [hpeek] at h ⊢
  cases l with
  | textHtml value =>
    cases h
    exact .inr ⟨_, rfl, .line hpeek⟩
  | newline =>
    cases h
    exact .inr ⟨[], rfl, .newline (by rw [hpeek]; rfl)⟩
  | indent =>
    obtain ⟨b, mid, first, second, hblock, hdone⟩ := Run.exists_of_andThen h
    cases hdone
    exact .inr ⟨b.nodes, rfl, .block (by rw [hpeek]; rfl) hblock⟩
  | _ =>
    cases h
    exact .inl ⟨rfl, rfl, by simp [Token.terminal, Lexeme.terminal]⟩

/-- **The rounds of the reader of HTML** add the items that they read to what is read. -/
theorem items_of_iterate {rounds : Nat} {r r' : HtmlRun} {c rest : Cursor} {events : List Event}
    (h : (Reader.iterate (htmlStep inner scope) rounds r).run o c = ⟨.done r' rest, events⟩) :
    ∃ items, r' = items.foldl .add r ∧ HtmlItems o inner scope c items rest := by
  induction rounds generalizing r c events with
  | zero => cases h
  | succ rounds ih =>
    obtain ⟨next, mid, first, second, hstep, hmore⟩ := Run.exists_of_andThen h
    rcases round_of_htmlStep hstep with ⟨rfl, rfl, hend⟩ | ⟨nodes, rfl, hround⟩
    · cases hmore
      exact ⟨[], rfl, .done hend⟩
    · obtain ⟨items, rfl, hitems⟩ := ih hmore
      exact ⟨nodes ++ items, List.foldl_append.symm, .round hround hitems⟩

/-- **What joining makes of nodes in front of others** depends on what it makes of these. -/
theorem joinHtml_append_congr (front : List Node) {nodes nodes' : List Node}
    (h : joinHtml nodes = joinHtml nodes') : joinHtml (front ++ nodes) = joinHtml (front ++ nodes') := by
  induction front with
  | nil => exact h
  | cons node front ih =>
    by_cases hnode : node.html?.isSome
    · obtain ⟨value, loc, rfl⟩ := Node.exists_text hnode
      rw [List.cons_append, List.cons_append, joinHtml, joinHtml, ih]
    · rw [List.cons_append, List.cons_append, joinHtml_cons hnode, joinHtml_cons hnode, ih]

/-- **Nodes that are joined already** may be joined with others as they were before. -/
theorem joinHtml_joinHtml_append (nodes tail : List Node) :
    joinHtml (joinHtml nodes ++ tail) = joinHtml (nodes ++ tail) := by
  induction nodes with
  | nil => rfl
  | cons node nodes ih =>
    by_cases hnode : node.html?.isSome
    · obtain ⟨value, loc, rfl⟩ := Node.exists_text hnode
      have hfront := joinHtml_append_congr [.text value true loc] ih
      rw [joinHtml]
      split
      · rename_i more place rest hrest
        rw [hrest] at hfront
        exact (joinHtml_cons_cons value more loc place (rest ++ tail)).symm.trans hfront
      · exact hfront
    · rw [joinHtml_cons hnode, List.cons_append, List.cons_append, joinHtml_cons hnode,
        joinHtml_cons hnode, ih]

/-- The text of a line of HTML. -/
def Token.html? (t : Token) : Option String :=
  match t.lexeme with
  | .textHtml value => some value
  | _ => none

/-- The lines of HTML among tokens. -/
def htmlLines (o : Options) (ts : List Token) : List Node :=
  ts.filterMap fun t => t.html?.map fun value => .text value true (o.place t.pos)

theorem htmlLines_append (ts us : List Token) :
    htmlLines o (ts ++ us) = htmlLines o ts ++ htmlLines o us := List.filterMap_append ..

/-- Whether a token is a line of HTML, or a line break, indent or outdent around such lines. -/
def Token.isHtmlOnly (t : Token) : Prop := t.terminal ∈ [.textHtml, .newline, .indent, .outdent]

mutual

/-- **Where there are only lines of HTML,** what they mean is joined as the lines themselves are,
however deep they stand. -/
theorem joinHtml_meaning_html (d : Derivation .html) (hd : ∀ t ∈ d.tokens, t.isHtmlOnly)
    (tail : List Node) :
    joinHtml (d.meaning o ++ tail) = joinHtml (htmlLines o d.tokens ++ tail) := by
  match d with
  | .endHtml => rfl
  | .htmlNewline pos rest =>
    exact joinHtml_meaning_html rest (fun t ht => hd t (List.mem_cons_of_mem _ ht)) tail
  | .htmlLine value pos rest =>
    exact joinHtml_append_congr [.text value true (o.place pos)]
      (joinHtml_meaning_html rest (fun t ht => hd t (List.mem_cons_of_mem _ ht)) tail)
  | .htmlBlock (.block indent items outdent) rest =>
    have htokens : (Derivation.htmlBlock (.block indent items outdent) rest).tokens =
        ⟨.indent, indent⟩ :: (items.tokens ++ ⟨.outdent, outdent⟩ :: rest.tokens) := by
      simp [Derivation.tokens]
    have hlines : htmlLines o (Derivation.htmlBlock (.block indent items outdent) rest).tokens =
        htmlLines o items.tokens ++ htmlLines o rest.tokens := by
      rw [htokens, ← List.singleton_append, htmlLines_append, htmlLines_append]
      rfl
    rw [htokens] at hd
    have hitems := joinHtml_meaning_items items (fun t ht => hd t (by simp [ht]))
      (rest.meaning o ++ tail)
    have hrest := joinHtml_meaning_html rest (fun t ht => hd t (by simp [ht])) tail
    calc joinHtml ((items.meaning o ++ rest.meaning o) ++ tail)
        = joinHtml (items.meaning o ++ (rest.meaning o ++ tail)) := by rw [List.append_assoc]
      _ = joinHtml (htmlLines o items.tokens ++ (rest.meaning o ++ tail)) := hitems
      _ = joinHtml (htmlLines o items.tokens ++ (htmlLines o rest.tokens ++ tail)) :=
          joinHtml_append_congr _ hrest
      _ = _ := by rw [hlines, List.append_assoc]
termination_by d.tokens.length
decreasing_by
  all_goals
    simp only [Derivation.tokens, List.length_append, List.length_cons, List.length_nil]
    omega

/-- The same for a list of productions. -/
theorem joinHtml_meaning_items (d : Derivation .items) (hd : ∀ t ∈ d.tokens, t.isHtmlOnly)
    (tail : List Node) :
    joinHtml (d.meaning o ++ tail) = joinHtml (htmlLines o d.tokens ++ tail) := by
  match d with
  | .nil => rfl
  | .newline pos rest =>
    exact joinHtml_meaning_items rest (fun t ht => hd t (List.mem_cons_of_mem _ ht)) tail
  | .item e rest =>
    have hpos := e.length_expr_pos
    rcases e.expr_head with ⟨value, pos, more, he⟩ | ⟨t, us, htokens, hmem, hne⟩
    · have htokens : e.tokens = ⟨.textHtml value, pos⟩ :: more.tokens := by rw [he, Derivation.tokens]
      let line : Node := .text value true (o.place pos)
      have hmeaning : (e.meaning o).spliced = joinHtml (line :: more.meaning o) := by
        rw [he]
        rfl
      have hlen : more.tokens.length < e.tokens.length := by rw [htokens]; exact Nat.lt_succ_self _
      have hmore := joinHtml_meaning_html more
        (fun t ht => hd t (by simp [Derivation.tokens, htokens, ht])) (rest.meaning o ++ tail)
      have hrest := joinHtml_meaning_items rest (fun t ht => hd t (by simp [Derivation.tokens, ht]))
        tail
      calc joinHtml (((e.meaning o).spliced ++ rest.meaning o) ++ tail)
          = joinHtml ((line :: more.meaning o) ++ (rest.meaning o ++ tail)) := by
            rw [hmeaning, List.append_assoc, joinHtml_joinHtml_append]
        _ = joinHtml ([line] ++ (htmlLines o more.tokens ++ (rest.meaning o ++ tail))) :=
            joinHtml_append_congr [line] hmore
        _ = joinHtml ([line] ++ (htmlLines o more.tokens ++ (htmlLines o rest.tokens ++ tail))) :=
            joinHtml_append_congr [line] (joinHtml_append_congr _ hrest)
        _ = _ := by
            rw [Derivation.tokens, htmlLines_append, htokens, List.append_assoc]
            rfl
    · -- No other production begins with such a token.
      have ht := hd t (by simp [Derivation.tokens, htokens])
      have hnone : ∀ terminal ∈ [Terminal.textHtml, .newline, .indent, .outdent],
          terminal ∈ exprStarts → terminal = .textHtml := by decide
      exact absurd (hnone _ ht hmem) hne
termination_by d.tokens.length
decreasing_by
  all_goals
    simp only [Derivation.tokens, List.length_append, List.length_cons]
    omega

end

/-- What joining makes of the lines of HTML among tokens that begin with one. -/
theorem joinHtml_htmlLines (value : String) (pos : Position) (ts : List Token) :
    joinHtml (htmlLines o (⟨.textHtml value, pos⟩ :: ts)) =
      [.text ("\n".intercalate ((⟨.textHtml value, pos⟩ :: ts).filterMap Token.html?)) true
        (o.place pos)] := by
  have hlines : ∀ node ∈ htmlLines o ts, node.html?.isSome := by
    intro node hnode
    obtain ⟨t, -, ht⟩ := List.mem_filterMap.1 hnode
    obtain ⟨text, -, rfl⟩ := Option.map_eq_some_iff.1 ht
    rfl
  have hvalues : (htmlLines o ts).filterMap Node.html? = ts.filterMap Token.html? := by
    rw [htmlLines, List.filterMap_filterMap]
    refine congrArg (List.filterMap · ts) (funext fun t => ?_)
    cases t.html? <;> rfl
  have hnone : ∀ node ∈ ([] : List Node).head?, ¬ node.html?.isSome := nofun
  have hjoin := joinHtml_lines_append hlines hnone value (o.place pos)
  rw [List.append_nil, hvalues] at hjoin
  exact hjoin

/-- **What is read from a line of HTML on has a derivation,** from whichever cursor it is read. -/
theorem exists_html_derivation {n : Nat} {c rest : Cursor} {nodes : List Node} {events : List Event}
    (hpeek : c.peek.terminal = .textHtml)
    (h : (html (.ofDepth n) scope).run o c = ⟨.done nodes rest, events⟩) :
    ∃ value pos, ∃ d : Derivation .html, c.peek = ⟨.textHtml value, pos⟩ ∧
      c.ahead = (⟨.textHtml value, pos⟩ :: d.tokens) ++ rest.ahead ∧
      nodes = joinHtml (.text value true (o.place pos) :: d.meaning o) := by
  obtain ⟨value, pos, hline⟩ : ∃ value pos, c.peek = ⟨.textHtml value, pos⟩ := by
    rcases hc : c.peek with ⟨l, pos⟩
    rw [hc] at hpeek
    cases l with
    | textHtml value => exact ⟨value, pos, rfl⟩
    | _ => cases hpeek
  have hexpr : (expr (.ofDepth n) scope).run o c =
      ⟨.done (.block ⟨nodes, o.place pos⟩) rest, events⟩ := by
    rw [expr, Reader.run_bind, Reader.run_peek, Run.andThen_done, Run.after_nil, hline]
    change ((html (.ofDepth n) scope).run o c).andThen _ = _
    rw [h]
    exact congrArg (Run.mk _) (List.append_nil events)
  obtain ⟨e, hahead, -, -, hmeaning⟩ := exists_derivation_of_done hexpr
  rcases e.expr_head with ⟨text, start, d, rfl⟩ | ⟨t, us, htokens, -, hne⟩
  · obtain ⟨rfl, rfl⟩ : value = text ∧ pos = start := by
      have hfirst := Cursor.peek_of_ahead hahead
      rw [hline] at hfirst
      cases hfirst
      exact ⟨rfl, rfl⟩
    refine ⟨value, pos, d, hline, hahead, ?_⟩
    cases hmeaning
    rfl
  · rw [htokens] at hahead
    rw [Cursor.peek_of_ahead hahead] at hpeek
    exact absurd hpeek hne

/-- **Lines of HTML are merged across nesting.** Of what is read from a line of HTML on:

* The items are the lines, and the nodes of the blocks under them, in order. Each longest run of
  HTML text among them is one node, at the place of its first line, with the texts joined by line
  breaks. All other nodes are left as they are.
* No two nodes of HTML text stand next to each other.
* If only lines, line breaks, indents and outdents are gone past, there is a single node, with all
  lines in order. -/
theorem html_merges_lines {n : Nat} {c rest : Cursor} {nodes : List Node} {events : List Event}
    (hpeek : c.peek.terminal = .textHtml)
    (h : (html (.ofDepth n) scope).run o c = ⟨.done nodes rest, events⟩) :
    (∃ items, HtmlItems o (.ofDepth n) scope c items rest ∧
      nodes = (items.splitBy Node.joins).flatMap Node.merged) ∧
    (nodes.IsChain fun first second => ¬ first.joins second) ∧
    ∃ us, c.ahead = us ++ rest.ahead ∧ ((∀ t ∈ us, t.isHtmlOnly) →
      nodes = [.text ("\n".intercalate (us.filterMap Token.html?)) true (o.place c.peek.pos)]) := by
  obtain ⟨value, pos, d, hline, hahead, hmeaning⟩ := exists_html_derivation hpeek h
  obtain ⟨r, mid, first, second, hloop, hclose⟩ := Run.exists_of_andThen h
  cases hclose
  obtain ⟨items, rfl, hitems⟩ := items_of_iterate hloop
  have hjoin : (items.foldl HtmlRun.add .empty).close = joinHtml items :=
    HtmlRun.close_foldl_add .empty items
  refine ⟨⟨items, hitems, hjoin.trans (joinHtml_eq items)⟩, hjoin ▸ isChain_joinHtml items,
    _, hahead, fun hus => ?_⟩
  let line : Node := .text value true (o.place pos)
  have hlines := @joinHtml_meaning_html o d (fun t ht => hus t (List.mem_cons_of_mem _ ht)) []
  rw [List.append_nil, List.append_nil] at hlines
  calc (items.foldl HtmlRun.add .empty).close
      = joinHtml ([line] ++ d.meaning o) := hmeaning
    _ = joinHtml ([line] ++ htmlLines o d.tokens) := joinHtml_append_congr [line] hlines
    _ = _ := by
        rw [hline]
        exact joinHtml_htmlLines value pos d.tokens

/-- The lines of a list around a placeholder in an item of it are two runs, of which one goes on into
the block and the other one out of it. -/
theorem html_merges_lines_of_list :
    let place := Options.default.place
    let before := Cursor.ofList [⟨.textHtml "<ul>", ⟨1, 1⟩⟩, ⟨.indent, ⟨2, 3⟩⟩,
      ⟨.textHtml "<li>", ⟨2, 3⟩⟩, ⟨.newline, ⟨3, 3⟩⟩, ⟨.yield, ⟨3, 3⟩⟩, ⟨.newline, ⟨4, 3⟩⟩,
      ⟨.textHtml "</li>", ⟨4, 3⟩⟩, ⟨.outdent, ⟨5, 1⟩⟩, ⟨.textHtml "</ul>", ⟨5, 1⟩⟩, ⟨.eos, ⟨5, 6⟩⟩]
    let behind : Cursor := ⟨[], [⟨.eos, ⟨5, 6⟩⟩], ⟨5, 6⟩⟩
    let nodes : List Node := [.text "<ul>\n<li>" true (place ⟨1, 1⟩), .yieldBlock (place ⟨3, 3⟩),
      .text "</li>\n</ul>" true (place ⟨4, 3⟩)]
    (html (.ofDepth 7) .outermost).run .default before = ⟨.done nodes behind, []⟩ ∧
      ∃ items, HtmlItems .default (.ofDepth 7) .outermost before items behind ∧
        nodes = (items.splitBy Node.joins).flatMap Node.merged := by
  refine ⟨?run, (html_merges_lines rfl ?run).1⟩
  rfl

end Pug
