/-
# Trees up to their places

A tree in which each place of a mixin's block is made a yield still tells where its places are,
but not of which kind. Two derivations of one shape have trees that are the same up to this.
-/

import Pug.Proofs.Derivation.Meaning
import Pug.Proofs.Placeholder.Refill
import Pug.Proofs.Tree.Assembly

namespace Pug

open Grammar

mutual

/-- A node with each place of a mixin's block made a yield. -/
def Node.asYield : Node → Node
  | .block body => .block body.asYield
  | .tag name selfClosing textOnly isInline attrs body loc =>
      .tag name selfClosing textOnly isInline attrs body.asYield loc
  | .interpolatedTag expr selfClosing textOnly attrs body loc =>
      .interpolatedTag expr selfClosing textOnly attrs body.asYield loc
  | .text value isHtml loc => .text value isHtml loc
  | .code c isInline body loc => .code c isInline (Block.asYield? body) loc
  | .conditional test consequent alternate loc =>
      .conditional test consequent.asYield (Alternate.asYield? alternate) loc
  | .while test body loc => .while test body.asYield loc
  | .each iteration body alternate loc =>
      .each iteration body.asYield (Block.asYield? alternate) loc
  | .case expr body loc => .case expr body.asYield loc
  | .when expr body loc => .when expr (Block.asYield? body) loc
  | .mixin name args isCall attrs body loc =>
      .mixin name args isCall attrs (Block.asYield? body) loc
  | .mixinBlock loc => .yieldBlock loc
  | .yieldBlock loc => .yieldBlock loc
  | .namedBlock name mode body loc => .namedBlock name mode body.asYield loc
  | .filter name attrs body loc => .filter name attrs body.asYield loc
  | .includeFilter f => .includeFilter f
  | .include file body loc => .include file (Block.asYield? body) loc
  | .rawInclude file filters loc => .rawInclude file filters loc
  | .extends file loc => .extends file loc
  | .comment value buffered loc => .comment value buffered loc
  | .blockComment value buffered body loc => .blockComment value buffered body.asYield loc
  | .doctype value loc => .doctype value loc

/-- The nodes of a list, each with its places made yields. -/
def Node.asYields : List Node → List Node
  | [] => []
  | node :: nodes => node.asYield :: Node.asYields nodes

/-- A block with each place of a mixin's block made a yield. -/
def Block.asYield : Block → Block
  | ⟨nodes, loc⟩ => ⟨Node.asYields nodes, loc⟩

/-- A block that may be absent, with its places made yields. -/
def Block.asYield? : Option Block → Option Block
  | none => none
  | some body => some body.asYield

/-- An alternate that may be absent, with its places made yields. -/
def Alternate.asYield? : Option Alternate → Option Alternate
  | none => none
  | some alternate => some alternate.asYield

/-- An alternate with its places made yields. -/
def Alternate.asYield : Alternate → Alternate
  | .elseIf test consequent alternate loc =>
      .elseIf test consequent.asYield (Alternate.asYield? alternate) loc
  | .otherwise body => .otherwise body.asYield

end

section AsYield

attribute [local simp] Node.asYield Node.asYields Block.asYield Block.asYield? Alternate.asYield
  Alternate.asYield?

@[simp] theorem Node.asYields_eq (nodes : List Node) :
    Node.asYields nodes = nodes.map Node.asYield := by
  induction nodes with
  | nil => rfl
  | cons node nodes ih => simp [ih]

@[simp] theorem Block.asYield?_eq (body : Option Block) :
    Block.asYield? body = body.map Block.asYield := by
  cases body <;> simp

@[simp] theorem Alternate.asYield?_eq (alternate : Option Alternate) :
    Alternate.asYield? alternate = alternate.map Alternate.asYield := by
  cases alternate <;> simp

@[simp] theorem Block.asYield_mk (nodes : List Node) (loc : Location) :
    Block.asYield ⟨nodes, loc⟩ = ⟨nodes.map Node.asYield, loc⟩ := by
  simp

@[simp] theorem Block.map_asYield_nodes (b : Block) :
    b.nodes.map Node.asYield = b.asYield.nodes := by
  cases b
  simp

@[simp] theorem Block.asYield_loc (b : Block) : b.asYield.loc = b.loc := by
  cases b
  simp

@[simp] theorem Block.asYield_empty (loc : Location) :
    (Block.empty loc).asYield = .empty loc := by
  simp [Block.empty]

@[simp] theorem Block.asYield_getD (body : Option Block) (b : Block) :
    (body.getD b).asYield = (body.map Block.asYield).getD b.asYield := by
  cases body <;> rfl

@[simp] theorem Block.map_asYield_elim (body : Option Block) :
    (body.elim [] Block.nodes).map Node.asYield =
      (body.map Block.asYield).elim [] Block.nodes := by
  cases body <;> simp

theorem Block.loc_eq_of_asYield {b b' : Block} (h : b.asYield = b'.asYield) : b.loc = b'.loc := by
  rw [← b.asYield_loc, h, b'.asYield_loc]

@[simp] theorem Node.map_asYield_spliced (node : Node) :
    node.spliced.map Node.asYield = node.asYield.spliced := by
  cases node <;> simp [Node.spliced]

@[simp] theorem Node.asYield_asBody (node : Node) (loc : Location) :
    (node.asBody loc).asYield = node.asYield.asBody loc := by
  cases node <;> simp [Node.asBody]

@[simp] theorem map_asYield_callBody (b : Block) :
    (callBody b).map Block.asYield = callBody b.asYield := by
  rcases b with ⟨nodes, loc⟩
  cases nodes <;> simp [callBody, Block.isEmpty]

@[simp] theorem asYield_gather (loc : Location) (nodes : List Node) :
    (gather loc nodes).asYield = gather loc (nodes.map Node.asYield) := by
  match nodes with
  | [] => simp [gather]
  | [node] => rfl
  | _ :: _ :: _ => simp [gather]

@[simp] theorem map_asYield_joinHtml (nodes : List Node) :
    (joinHtml nodes).map Node.asYield = joinHtml (nodes.map Node.asYield) := by
  fun_induction joinHtml nodes with
  | case1 => rfl
  | case2 value loc nodes more place rest hjoin ih =>
    rw [hjoin] at ih
    simp [joinHtml, ← ih]
  | case3 value loc nodes hjoin ih =>
    rw [List.map_cons, List.map_cons, ih]
    simp only [Node.asYield, joinHtml, ← ih]
    cases h : joinHtml nodes with
    | nil => rfl
    | cons node rest =>
      cases node with
      | text more isHtml place =>
        cases isHtml with
        | true => exact absurd h (hjoin _ _ _)
        | false => rfl
      | _ => simp
  | case4 node nodes hnode ih =>
    rw [List.map_cons, List.map_cons, ih]
    cases node with
    | text value isHtml loc =>
      cases isHtml with
      | true => exact (hnode _ _ rfl).elim
      | false => rfl
    | _ => simp [Node.asYield, joinHtml]

end AsYield

/-- Two meanings are the same once each place of a mixin's block is made a yield. -/
def Meaning.Alike : (s : Symbol) → Meaning s → Meaning s → Prop
  | .items, nodes, nodes' => nodes.map Node.asYield = nodes'.map Node.asYield
  | .block, b, b' => Block.asYield b = Block.asYield b'
  | .nested, b, b' => Option.map Block.asYield b = Option.map Block.asYield b'
  | .region, b, b' => Option.map Block.asYield b = Option.map Block.asYield b'
  | .parts _, nodes, nodes' => nodes.map Node.asYield = nodes'.map Node.asYield
  | .fragment, node, node' => Node.asYield node = Node.asYield node'
  | .html, nodes, nodes' => nodes.map Node.asYield = nodes'.map Node.asYield
  | .content _, line, line' => ∀ loc, (line loc).selfClosing = (line' loc).selfClosing ∧
      (line loc).block.asYield = (line' loc).block.asYield
  | .body _, b, b' => ∀ loc attrs, (b loc attrs).attrs = (b' loc attrs).attrs ∧
      (b loc attrs).selfClosing = (b' loc attrs).selfClosing ∧
      (b loc attrs).textOnly = (b' loc attrs).textOnly ∧
      (b loc attrs).block.asYield = (b' loc attrs).block.asYield
  | .expansion, b, b' => Block.asYield b = Block.asYield b'
  | .branches, nodes, nodes' => nodes.map Node.asYield = nodes'.map Node.asYield
  | .alternates, a, a' => Option.map Alternate.asYield a = Option.map Alternate.asYield a'
  | .filter, node, node' => Node.asYield node = Node.asYield node'
  | .expr, node, node' => Node.asYield node = Node.asYield node'

/-- A place behind a line break does not keep it. -/
@[simp] theorem Layout.keeps_refill (layout : Layout) (f : Nat → Bool) (n : Nat)
    (ts : List Token) : layout.keeps (refill f n ts) = layout.keeps ts := by
  cases ts with
  | nil => rfl
  | cons t ts =>
    have ht := t.alike_refill (f n)
    have htext : t.terminal = .text ↔ (t.refill (f n)).terminal = .text := ht.eq_iff (by decide)
    have hcode : t.terminal = .interpolatedCode ↔ (t.refill (f n)).terminal = .interpolatedCode :=
      ht.eq_iff (by decide)
    simp [Layout.keeps, keepsBreak, htext, hcode]

namespace Derivation

@[simp] theorem fragmentStart_refill (f : Nat → Bool) (n : Nat) (d : Derivation .fragment) :
    (d.refill f n).fragmentStart = d.fragmentStart := by
  cases d <;> rfl

/-- **A derivation with its places refilled means the same, up to the places.** -/
theorem alike_meaning (o : Options) (f : Nat → Bool) {s : Symbol} (d : Derivation s) :
    ∀ n, Meaning.Alike s ((d.refill f n).meaning o) (d.meaning o) := by
  -- The index `n` of the first token is another one in each part of the derivation.
  induction d with
  | mixinBlock pos | yield pos =>
    intro n
    cases h : f n <;> simp [Meaning.Alike, refill, meaning, Node.asYield, h]
  | nesting content newlines nested ihc ihn =>
    intro n
    simp only [Meaning.Alike] at *
    simp [refill, meaning, ihc, ihn, fun loc => Block.loc_eq_of_asYield (ihc n loc).2]
  | otherwise newlines pos nested ih =>
    intro n
    have hcomp : Alternate.asYield ∘ Alternate.otherwise = Alternate.otherwise ∘ Block.asYield := by
      funext body
      simp [Alternate.asYield]
    simp only [Meaning.Alike] at *
    simp only [refill, meaning, Option.map_map, hcomp]
    simp only [← Option.map_map, ih]
  | mixin name args pos nested ih =>
    -- Whether a mixin is called or defined is told by its block, which is there or not.
    intro n
    simp only [Meaning.Alike] at *
    have hnone := congrArg Option.isNone (ih (n + 1))
    simp only [Option.isNone_map] at hnone
    simp [refill, meaning, Node.asYield, ih, hnone]
  | inclusion pos filters path place nested ih =>
    intro n
    simp only [Meaning.Alike] at *
    simp only [refill, meaning]
    split <;> simp [Node.asYield, ih]
  | comment value buffered pos region ih =>
    intro n
    simp only [Meaning.Alike] at *
    have hregion := ih (n + 1)
    simp only [refill, meaning]
    cases h : (region.refill f (n + 1)).meaning o with
    | none =>
      cases h' : region.meaning o with
      | none => rfl
      | some body' => simp [h, h'] at hregion
    | some body =>
      cases h' : region.meaning o with
      | none => simp [h, h'] at hregion
      | some body' => simpa [h, h', Node.asYield] using hregion
  | _ =>
    intro n
    simp only [Meaning.Alike] at *
    simp [refill, meaning, Content.none, Node.asYield, Alternate.asYield, *]

end Derivation
end Pug
