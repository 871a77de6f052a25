/-
# Trees that are written and read again

A tree is read under a bound on the depth, and the induction is on this bound. Every value nested
in an object is less deep than the object, so a bound that is enough for a node leaves enough for
the blocks and the alternate in it. A node that is a block shares one object with it, and so does
an alternate: a block can do with one level less than the depth of what it is written as.

The only absent values are `null`, and no block and no alternate is written as `null`.
-/

import Pug.Proofs.Encoding.Records

namespace Pug

open Json

theorem Json.depth_pos (j : Json) : 0 < j.depth := by
  cases j <;> simp [depth]

theorem Block.toJson_ne_null (b : Block) : b.toJson ≠ .null := by
  cases b
  simp [Block.toJson]

theorem Alternate.toJson_ne_null (alternate : Alternate) : alternate.toJson ≠ .null := by
  obtain _ | ⟨⟨_, _⟩⟩ := alternate <;> simp [Alternate.toJson]

/-- Whether a node is one with no room for other nodes in it. -/
def Node.isLeaf : Node → Bool
  | .text .. | .mixinBlock .. | .yieldBlock .. | .includeFilter .. | .rawInclude .. | .extends ..
  | .comment .. | .doctype .. => true
  | _ => false

theorem Node.read?_of_isLeaf {node : Node} (h : node.isLeaf = true) (d : Nat) :
    Node.read? (d + 1) node.toJson = some node := by
  cases node with
  | includeFilter f =>
    simp [Node.read?, Node.toJson, Node.kind, IncludeFilter.ofJson?, IncludeFilter.members,
      list?_ofList]
  | text | mixinBlock | yieldBlock | rawInclude | «extends» | comment | doctype =>
    simp [Node.read?, Node.toJson, Node.kind, list?_ofList]
  | _ => cases h

/-- What is not too deep for a bound is read back under it. A block is read back from any object
that has its members. -/
structure ReadBack (d : Nat) : Prop where
  block : ∀ (b : Block) (j : Json), depthOfItems (Node.listToJson b.nodes) < d →
    (∀ read : Json → Option (List Node), j.required read "nodes" =
      read (.array (Node.listToJson b.nodes))) →
    j.required Location.ofJson? "loc" = some b.loc → Block.read? d j = some b
  node : ∀ node : Node, node.toJson.depth ≤ d → Node.read? d node.toJson = some node
  alternate : ∀ alternate : Alternate, alternate.toJson.depth ≤ d →
    Alternate.read? d alternate.toJson = some alternate

namespace ReadBack

theorem zero : ReadBack 0 where
  block _ _ h := absurd h (Nat.not_lt_zero _)
  node node h := absurd (node.toJson.depth_pos) (Nat.not_lt.2 h)
  alternate alternate h := absurd (alternate.toJson.depth_pos) (Nat.not_lt.2 h)

variable {d : Nat} (h : ReadBack d)
include h

theorem nodes (nodes : List Node) (hd : depthOfItems (Node.listToJson nodes) ≤ d) :
    (Node.listToJson nodes).mapM (Node.read? d) = some nodes := by
  induction nodes with
  | nil => rfl
  | cons node nodes ih =>
    rw [Node.listToJson, depthOfItems, Nat.max_le] at hd
    simp [Node.listToJson, h.node node hd.1, ih hd.2]

theorem toJson (b : Block) (hd : b.toJson.depth ≤ d + 1) : Block.read? d b.toJson = some b := by
  obtain ⟨nodes, loc⟩ := b
  simp only [Block.toJson, depth, depthOfMembers] at hd
  exact h.block ⟨nodes, loc⟩ _ (by simp only; omega) (by simp [Block.toJson])
    (by simp [Block.toJson])

theorem optional (body : Option Block) (hd : (Block.optionToJson body).depth ≤ d + 1)
    (name : String) (members : List (String × Json)) :
    (object ((name, Block.optionToJson body) :: members)).optional (Block.read? d) name =
      some body := by
  cases body with
  | none => rw [Block.optionToJson, optional_cons_null]
  | some b =>
    rw [Block.optionToJson] at hd ⊢
    rw [optional_cons_self b.toJson_ne_null, h.toJson b hd, Option.map_some]

theorem next (alternate : Option Alternate) (hd : (Alternate.optionToJson alternate).depth ≤ d)
    (name : String) (members : List (String × Json)) :
    (object ((name, Alternate.optionToJson alternate) :: members)).optional (Alternate.read? d)
      name = some alternate := by
  cases alternate with
  | none => rw [Alternate.optionToJson, optional_cons_null]
  | some a =>
    rw [Alternate.optionToJson] at hd ⊢
    rw [optional_cons_self a.toJson_ne_null, h.alternate a hd, Option.map_some]

theorem block_succ (b : Block) (j : Json) (hd : depthOfItems (Node.listToJson b.nodes) < d + 1)
    (hnodes : ∀ read : Json → Option (List Node), j.required read "nodes" =
      read (.array (Node.listToJson b.nodes)))
    (hloc : j.required Location.ofJson? "loc" = some b.loc) : Block.read? (d + 1) j = some b := by
  obtain ⟨nodes, loc⟩ := b
  have hread := h.nodes nodes (Nat.le_of_lt_succ hd)
  simp [Block.read?, hnodes, list?, hread, hloc]

/-- A node is read back under a bound that is enough for what is nested in it. -/
theorem node_succ (node : Node) (hd : node.toJson.depth ≤ d + 1) :
    Node.read? (d + 1) node.toJson = some node := by
  cases node with
  | block body =>
    obtain ⟨nodes, loc⟩ := body
    simp only [Node.toJson, depth, depthOfMembers] at hd
    have hbody := h.block ⟨nodes, loc⟩ (Node.block ⟨nodes, loc⟩).toJson (by simp only; omega)
      (by simp [Node.toJson]) (by simp [Node.toJson])
    rw [Node.read?, hbody]
    simp [Node.toJson, Node.kind]
  | tag name selfClosing textOnly isInline attrs body loc =>
    simp only [Node.toJson, Attributes.members, List.cons_append, List.nil_append, depth,
      depthOfMembers] at hd
    simp [Node.read?, Node.toJson, Node.kind, Attributes.ofJson?, Attributes.members, list?_ofList,
      h.toJson body (by omega)]
  | interpolatedTag expr selfClosing textOnly attrs body loc =>
    simp only [Node.toJson, Attributes.members, List.cons_append, List.nil_append, depth,
      depthOfMembers] at hd
    simp [Node.read?, Node.toJson, Node.kind, Attributes.ofJson?, Attributes.members, list?_ofList,
      h.toJson body (by omega)]
  | code c isInline body loc =>
    simp only [Node.toJson, Code.members, List.cons_append, List.nil_append, depth,
      depthOfMembers] at hd
    simp [Node.read?, Node.toJson, Node.kind, Code.ofJson?, Code.members,
      h.optional body (by omega)]
  | conditional test consequent alternate loc =>
    simp only [Node.toJson, depth, depthOfMembers] at hd
    simp [Node.read?, Node.toJson, Node.kind, h.toJson consequent (by omega),
      h.next alternate (by omega)]
  | each iteration body alternate loc =>
    simp only [Node.toJson, Iteration.members, List.cons_append, List.nil_append, depth,
      depthOfMembers] at hd
    simp [Node.read?, Node.toJson, Node.kind, Iteration.ofJson?, Iteration.members,
      h.toJson body (by omega), h.optional alternate (by omega)]
  | mixin name args isCall attrs body loc =>
    simp only [Node.toJson, Attributes.members, List.cons_append, List.nil_append, depth,
      depthOfMembers] at hd
    simp [Node.read?, Node.toJson, Node.kind, Attributes.ofJson?, Attributes.members, list?_ofList,
      h.optional body (by omega)]
  | «while» _ body _ | case _ body _ | namedBlock _ _ body _ | filter _ _ body _
  | blockComment _ _ body _ =>
    simp only [Node.toJson, depth, depthOfMembers] at hd
    simp [Node.read?, Node.toJson, Node.kind, list?_ofList, h.toJson body (by omega)]
  | when _ body _ | «include» _ body _ =>
    simp only [Node.toJson, depth, depthOfMembers] at hd
    simp [Node.read?, Node.toJson, Node.kind, h.optional body (by omega)]
  | text | mixinBlock | yieldBlock | includeFilter | rawInclude | «extends» | comment | doctype =>
    exact Node.read?_of_isLeaf rfl d

theorem alternate_succ (alternate : Alternate) (hd : alternate.toJson.depth ≤ d + 1) :
    Alternate.read? (d + 1) alternate.toJson = some alternate := by
  cases alternate with
  | elseIf test consequent next loc =>
    simp only [Alternate.toJson, depth, depthOfMembers] at hd
    simp [Alternate.read?, Alternate.toJson, h.toJson consequent (by omega),
      h.next next (by omega)]
  | otherwise body =>
    obtain ⟨nodes, loc⟩ := body
    simp only [Alternate.toJson, depth, depthOfMembers] at hd
    have hbody := h.block ⟨nodes, loc⟩ (Alternate.otherwise ⟨nodes, loc⟩).toJson
      (by simp only; omega) (by simp [Alternate.toJson]) (by simp [Alternate.toJson])
    rw [Alternate.read?, hbody]
    simp [Alternate.toJson]

end ReadBack

/-- **Under every bound what is not too deep for it is read back.** -/
theorem readBack (d : Nat) : ReadBack d := by
  induction d with
  | zero => exact .zero
  | succ d ih => exact ⟨ih.block_succ, ih.node_succ, ih.alternate_succ⟩

end Pug
