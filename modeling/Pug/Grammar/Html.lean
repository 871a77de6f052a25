/-
# Lines of literal HTML

Lines that are already HTML may have blocks under them, which are read as part of
the same sequence. Each line becomes a text node, and text nodes of HTML that
come to stand next to each other are joined by a line break.

    html = (TextHtml | block | Newline)*

The nodes are joined as they are read: the last text node is kept apart as long as
further lines may join it. This comes to the same as joining the nodes when all of
them are read (`html_eq`).
-/

import Pug.Grammar.Inner

namespace Pug
namespace Grammar

open Reader

/-- What is read of a sequence of HTML lines. -/
structure HtmlRun where
  /-- The nodes that no further line joins. -/
  nodes : List Node
  /-- The text that the next line joins, and where it began. -/
  pending : Option (String × Location)

namespace HtmlRun

/-- Nothing is read yet. -/
def empty : HtmlRun := ⟨[], none⟩

/-- One more line. -/
def line (r : HtmlRun) (value : String) (loc : Location) : HtmlRun :=
  match r.pending with
  | some (text, start) => { r with pending := some (text ++ "\n" ++ value, start) }
  | none => { r with pending := some (value, loc) }

/-- The nodes, when no further line comes. -/
def close (r : HtmlRun) : List Node :=
  match r.pending with
  | some (text, start) => r.nodes ++ [.text text true start]
  | none => r.nodes

/-- One more node, which joins the text before it if both are HTML. -/
def add (r : HtmlRun) : Node → HtmlRun
  | .text value true loc => r.line value loc
  | node => ⟨r.close ++ [node], none⟩

end HtmlRun

/-- One line, one block or one line break behind what is read. -/
def htmlStep (inner : Inner) (scope : Scope) (r : HtmlRun) : Reader (Option HtmlRun) := do
  let t ← peek
  match t.lexeme with
  | .textHtml value => do
    skip
    let loc ← locate t.pos
    return some (r.line value loc)
  | .indent => return some ((← inner.block scope).nodes.foldl .add r)
  | .newline => do
    skip
    return some r
  | _ => return none

/-- The nodes of a sequence of HTML lines. -/
def html (inner : Inner) (scope : Scope) : Reader (List Node) := do
  return (← iterate (htmlStep inner scope) inner.rounds .empty).close

/-- The nodes of a list, with each longest run of HTML text made one node at the
place of its first line. -/
def joinHtml : List Node → List Node
  | [] => []
  | .text value true loc :: nodes =>
    match joinHtml nodes with
    | .text more true _ :: rest => .text (value ++ "\n" ++ more) true loc :: rest
    | rest => .text value true loc :: rest
  | node :: nodes => node :: joinHtml nodes

/-- The nodes of one line, one block or one line break. -/
def htmlItem (inner : Inner) (scope : Scope) : Reader (Option (List Node)) := do
  let t ← peek
  match t.lexeme with
  | .textHtml value => do
    skip
    let loc ← locate t.pos
    return some [.text value true loc]
  | .indent => return some (← inner.block scope).nodes
  | .newline => do
    skip
    return some []
  | _ => return none

/-- A line joins the one in front of it, whatever comes behind them. -/
theorem joinHtml_cons_cons (value more : String) (loc place : Location) (nodes : List Node) :
    joinHtml (.text value true loc :: .text more true place :: nodes) =
      joinHtml (.text (value ++ "\n" ++ more) true loc :: nodes) := by
  simp only [joinHtml]
  cases joinHtml nodes with
  | nil => rfl
  | cons node rest =>
    cases node with
    | text last isHtml end_ =>
      cases isHtml with
      | true => simp only [String.append_assoc]
      | false => rfl
    | _ => rfl

/-- A node that is no HTML is left as it is, and no line in front of it is joined to one behind
it. -/
theorem joinHtml_append_cons {node : Node} (hnode : ∀ value loc, node ≠ .text value true loc)
    (value : String) (loc : Location) (nodes : List Node) :
    joinHtml (node :: nodes) = node :: joinHtml nodes ∧
      joinHtml (.text value true loc :: node :: nodes) =
        .text value true loc :: node :: joinHtml nodes := by
  have hcons : joinHtml (node :: nodes) = node :: joinHtml nodes := by
    rw [joinHtml]
    exact hnode
  refine ⟨hcons, ?_⟩
  rw [joinHtml, hcons]
  split
  · rename_i h
    exact absurd (List.cons.inj h).1 (hnode _ _)
  · rfl

namespace HtmlRun

/-- **Joining the nodes one by one is joining all of them,** behind the text that is pending. -/
theorem close_foldl_add (r : HtmlRun) (nodes : List Node) :
    (nodes.foldl add r).close =
      r.nodes ++ joinHtml ((r.pending.map fun p => .text p.1 true p.2).toList ++ nodes) := by
  induction nodes generalizing r with
  | nil =>
    rcases r with ⟨done, _ | ⟨text, start⟩⟩
    · exact (List.append_nil done).symm
    · rfl
  | cons node nodes ih =>
    rw [List.foldl_cons, ih]
    by_cases hnode : ∃ value loc, node = .text value true loc
    · obtain ⟨value, loc, rfl⟩ := hnode
      rcases r with ⟨done, _ | ⟨text, start⟩⟩
      · rfl
      · exact congrArg (done ++ ·) (joinHtml_cons_cons text value start loc nodes).symm
    · have hne : ∀ value loc, node ≠ .text value true loc := fun value loc h =>
        hnode ⟨value, loc, h⟩
      have hadd : r.add node = ⟨r.close ++ [node], none⟩ := by
        rw [add]
        exact hne
      rw [hadd]
      rcases r with ⟨done, _ | ⟨text, start⟩⟩
      · simp [close, (joinHtml_append_cons hne "" ⟨.first, none⟩ nodes).1]
      · simp [close, (joinHtml_append_cons hne text start nodes).2]

end HtmlRun

/-- Each step adds the nodes of its item. -/
theorem htmlStep_eq (inner : Inner) (scope : Scope) (r : HtmlRun) :
    htmlStep inner scope r =
      Option.map (List.foldl HtmlRun.add r) <$> htmlItem inner scope := by
  unfold htmlStep htmlItem
  rw [map_bind]
  refine bind_congr fun t => ?_
  split <;>
    simp only [map_eq_pure_bind, bind_assoc, pure_bind, Option.map_some, Option.map_none,
      List.foldl_cons, List.foldl_nil, HtmlRun.add]

/-- **The nodes of a sequence of HTML lines are those of its items, joined.** -/
theorem html_eq (inner : Inner) (scope : Scope) :
    html inner scope = do
      let items ← many (htmlItem inner scope) inner.rounds
      return joinHtml items.flatten := by
  rw [html, iterate_eq_many (htmlStep_eq inner scope), bind_map_left]
  refine bind_congr fun items => congrArg pure ?_
  rw [← List.foldl_flatten, HtmlRun.close_foldl_add]
  rfl

end Grammar
end Pug
