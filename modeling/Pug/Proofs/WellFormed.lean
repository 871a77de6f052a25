/-
# Trees are well formed

The types of the tree allow more than a reading gives. The branches of a case, and nothing
else, are the children of the case. A mixin is a definition, with a block and without
attributes, or a call, whose block has nodes. Only code whose value is not put out has a block.
Paths and the names of blocks are trimmed, and the path of an include tells what is included.
-/

import Mathlib.Data.List.DropRight
import Mathlib.Tactic.MkIffOfInductiveProp
import Pug.Proofs.Derivation.Throughout
import Pug.Proofs.Reading.Document

namespace Pug

open Grammar

/-- No blank character is at an end of a text. -/
def Text.Trimmed (s : String) : Prop :=
  (∀ c ∈ s.toList.head?, isBlank c = false) ∧ ∀ c ∈ s.toList.getLast?, isBlank c = false

/-- **What is trimmed has no blank ends.** -/
theorem Text.trimmed_trim (s : String) : Trimmed (trim s) := by
  have hchars : (trim s).toList = (s.toList.dropWhile isBlank).rdropWhile isBlank := by
    rw [trim, String.toList_ofList]
    rfl
  unfold Trimmed
  rw [hchars]
  constructor
  · intro c hc
    have hprefix := List.rdropWhile_prefix isBlank (l := s.toList.dropWhile isBlank)
    have hfirst : (s.toList.dropWhile isBlank).head? = some c := by
      rcases hprefix with ⟨more, hmore⟩
      rw [← hmore, List.head?_append, Option.mem_def.1 hc]
      rfl
    have hnot := List.head?_dropWhile_not isBlank s.toList
    rw [hfirst] at hnot
    exact hnot
  · intro c hc
    obtain ⟨hne, rfl⟩ := List.mem_getLast?_eq_getLast hc
    exact Bool.eq_false_iff.2 (List.rdropWhile_last_not isBlank _ hne)

/-- A path ends in the extension of templates, or in one of old, that is not empty. -/
def Options.Recognises (o : Options) (path : String) : Prop :=
  ∃ ending ∈ o.extension :: o.legacyExtensions, ending ≠ "" ∧ ending.toList <:+ path.toList

/-- **What leads to no template ends in no extension.** -/
theorem Options.target_eq_raw_iff {o : Options} {path : String} :
    o.target path = .raw ↔ ¬ o.Recognises path := by
  have hextension : ∀ ending, hasExtension path ending = true ↔
      ending ≠ "" ∧ ending.toList <:+ path.toList := by
    intro ending
    simp [hasExtension, Text.endsIn]
  unfold target Recognises
  simp only [List.exists_mem_cons_iff, ← hextension, ← List.any_eq_true]
  split <;> rename_i hprimary
  · simp [hprimary]
  · split <;> rename_i hlegacy <;> simp [hprimary, hlegacy]

namespace Node

/-- Whether a node is a branch of a case. -/
def isWhen : Node → Bool
  | .when .. => true
  | _ => false

/-- Whether a node is a case. -/
def isCase : Node → Bool
  | .case .. => true
  | _ => false

/-- Whether a node is the place of a mixin's block. -/
def isMixinBlock : Node → Bool
  | .mixinBlock _ => true
  | _ => false

/-- Whether a node is the definition of a mixin. -/
def isDefinition : Node → Bool
  | .mixin _ _ isCall _ _ _ => !isCall
  | _ => false

/-- What is asked of a node by itself. -/
def Sound (o : Options) : Node → Prop
  | .includeFilter _ => False
  | .code c isInline body _ => body.isSome → c.buffered = false ∧ isInline = false
  | .mixin _ _ false attrs body _ => body.isSome ∧ attrs.listed = [] ∧ attrs.spreads = []
  | .mixin _ _ true _ body _ => ∀ b ∈ body, b.nodes ≠ []
  | .include file _ _ => o.Recognises file.path ∧ Text.Trimmed file.path
  | .rawInclude file _ _ => ¬ o.Recognises file.path ∧ Text.Trimmed file.path
  | .extends file _ => Text.Trimmed file.path
  | .namedBlock name _ _ _ => Text.Trimmed name
  | _ => True

/-- A node has its place below the nodes `above`: a branch stands in a case, and a case has
nothing but branches; the place of a mixin's block is in the definition of a mixin. -/
@[mk_iff]
structure Fits (o : Options) (above : List Node) (node : Node) : Prop where
  sound : node.Sound o
  branch : node.isWhen = above.head?.any isCase
  place : node.isMixinBlock = true → above.any isDefinition = true

end Node

/-- The symbol whose nodes are the branches of a case. -/
def Symbol.isBranches : Symbol → Bool
  | .branches => true
  | _ => false

section Fits

variable {o : Options} {outer : List Node}

/-- A node that is no place of a block need not be in a mixin. -/
theorem Node.fits_of_ne_mixinBlock {node : Node} (hsound : node.Sound o)
    (hbranch : node.isWhen = outer.head?.any isCase) (hplace : node.isMixinBlock = false) :
    node.Fits o outer :=
  ⟨hsound, hbranch, fun h => absurd (hplace.symm.trans h) Bool.false_ne_true⟩

/-- A node that is no block stands in a list as it is spliced into one; a block among nodes has
its own nodes below it, with the same around them. -/
theorem holds_of_spliced {node : Node} (houter : outer.head?.any Node.isCase = false)
    (h : ∀ outer' : List Node, outer'.head?.any Node.isCase = false →
      outer'.any Node.isDefinition = outer.any Node.isDefinition →
      Holds (Node.Fits o) outer' node.spliced) :
    Holds (Node.Fits o) outer [node] := by
  cases node with
  | block body =>
    exact holds_single.2 ⟨Node.fits_of_ne_mixinBlock trivial houter.symm rfl, h _ rfl rfl⟩
  | _ => exact h outer houter rfl

/-- Most nodes need only be sound and stand outside of a case's list. -/
theorem holds_node {node : Node} (houter : outer.head?.any Node.isCase = false)
    (hkind : node.isWhen = false ∧ node.isMixinBlock = false) (hsound : node.Sound o)
    (hchildren : Holds (Node.Fits o) (node :: outer) node.children) :
    Holds (Node.Fits o) outer [node] :=
  holds_single.2
    ⟨Node.fits_of_ne_mixinBlock hsound (hkind.1.trans houter.symm) hkind.2, hchildren⟩

/-- The branches of a case stand in its list. -/
theorem holds_branch {expr : String} {body : Option Block} {loc : Location} {rest : List Node}
    (houter : outer.head?.any Node.isCase = true)
    (hbody : Holds (Node.Fits o) (.when expr body loc :: outer) (body.elim [] Block.nodes))
    (hrest : Holds (Node.Fits o) outer rest) :
    Holds (Node.Fits o) outer (.when expr body loc :: rest) :=
  holds_cons.2 ⟨⟨Node.fits_of_ne_mixinBlock trivial houter.symm rfl, hbody⟩, hrest⟩

theorem nodes_ne_nil_of_callBody {body b : Block} (h : b ∈ callBody body) : b.nodes ≠ [] := by
  rcases body with ⟨nodes, loc⟩
  cases nodes with
  | nil => cases h
  | cons node nodes =>
    cases h
    exact List.cons_ne_nil _ _

theorem holds_text {value : String} {isHtml : Bool} {loc : Location}
    (houter : outer.head?.any Node.isCase = false) :
    Holds (Node.Fits o) outer [.text value isHtml loc] :=
  holds_node houter ⟨rfl, rfl⟩ trivial holds_nil

/-- The place of a body that is missing is of no account. -/
theorem holds_getD {body : Option Block} {loc : Location}
    (h : Holds (Node.Fits o) outer (body.elim [] Block.nodes)) :
    Holds (Node.Fits o) outer (body.getD (.empty loc)).nodes := by
  rwa [getD_empty_nodes]

theorem holds_plain (p : Plain) (houter : outer.head?.any Node.isCase = false) :
    Holds (Node.Fits o) outer [p.node o] := by
  cases p with
  | text value pos => exact holds_text houter
  | code c pos =>
    exact holds_node houter ⟨rfl, rfl⟩ (by simp [Plain.node, Node.Sound]) holds_nil

/-- **Lines of HTML that are joined are text.** -/
theorem holds_joinHtml {nodes : List Node} (h : Holds (Node.Fits o) outer nodes) :
    Holds (Node.Fits o) outer (joinHtml nodes) := by
  fun_induction joinHtml nodes with
  | case1 => exact h
  | case2 value loc nodes more place rest hjoin ih =>
    rw [holds_cons] at h
    have hrest := ih h.2
    rw [hjoin, holds_cons] at hrest
    have hfits : (Node.text (value ++ "\n" ++ more) true loc).Fits o outer :=
      Node.fits_of_ne_mixinBlock trivial h.1.1.branch rfl
    exact holds_cons.2 ⟨⟨hfits, holds_nil⟩, hrest.2⟩
  | case3 value loc nodes hjoin ih =>
    rw [holds_cons] at h ⊢
    exact ⟨h.1, ih h.2⟩
  | case4 node nodes hnode ih =>
    rw [holds_cons] at h ⊢
    exact ⟨h.1, ih h.2⟩

end Fits

namespace Derivation

/-- Code that has a block is not put out, if code that is put out has nothing below it. -/
theorem buffered_eq_false {o : Options} {c : Code} {nested : Derivation .nested}
    (hc : c.buffered → nested.tokens = []) (hsome : (nested.meaning o).isSome) :
    c.buffered = false := by
  cases nested with
  | noBlock => cases hsome
  | someBlock b =>
    refine Bool.eq_false_iff.2 fun h => ?_
    have hnil : b.tokens = [] := hc h
    have hpos := b.length_block_pos
    simp [hnil] at hpos

/-- **Every node of a derivation has its place.** -/
theorem holds_meaning (o : Options) {s : Symbol} (d : Derivation s) :
    ∀ (loc : Location) (attrs : Attributes) (outer : List Node),
      d.Lawful ⟨outer.any Node.isDefinition⟩ → outer.head?.any Node.isCase = s.isBranches →
      Holds (Node.Fits o) outer (Meaning.nodes loc attrs s (d.meaning o)) := by
  induction d with
  | lineBreak spread pos rest ih =>
    intro loc attrs outer hl houter
    have hrest : Holds (Node.Fits o) outer (rest.meaning o) := ih loc attrs outer hl houter
    simp only [Meaning.nodes, meaning]
    split
    · exact holds_append.2 ⟨holds_text houter, hrest⟩
    · exact hrest
  | part f rest ihf ih =>
    intro loc attrs outer hl houter
    have hrest : Holds (Node.Fits o) outer (rest.meaning o) := ih loc attrs outer hl.2 houter
    have hf : Holds (Node.Fits o) outer [f.meaning o] := holds_of_spliced houter
      fun outer' houter' hsame => ihf loc attrs outer' (hsame ▸ hl.1) houter'
    exact holds_append.2 ⟨hf, hrest⟩
  | run first rest ihf ih =>
    intro loc attrs outer hl houter
    have hrest : Holds (Node.Fits o) outer (rest.meaning o) := ih loc attrs outer hl.2 houter
    have hf : Holds (Node.Fits o) outer [first.meaning o] := holds_of_spliced houter
      fun outer' houter' hsame => ihf loc attrs outer' (hsame ▸ hl.1) houter'
    simp only [Meaning.nodes, meaning]
    cases hnodes : rest.meaning o with
    | nil => exact ihf loc attrs outer hl.1 houter
    | cons node nodes =>
      rw [hnodes] at hrest
      exact holds_append.2 ⟨hf, hrest⟩
  | plain p =>
    intro loc attrs outer hl houter
    have hp : Holds (Node.Fits o) outer [p.node o] := holds_plain p houter
    cases p <;> exact hp
  | lineRun first rest ih =>
    intro loc attrs outer hl houter
    exact holds_append.2 ⟨holds_plain first houter, ih loc attrs outer hl houter⟩
  | elseIf newlines test pos nested rest ihn ih
  | conditional test pos nested rest ihn ih =>
    intro loc attrs outer hl houter
    refine holds_node houter ⟨rfl, rfl⟩ trivial
      (holds_append.2 ⟨holds_getD (ihn loc attrs _ hl.1 rfl), ?_⟩)
    rw [← Meaning.nodes_alternates loc attrs]
    exact ih loc attrs _ hl.2 rfl
  | otherwise newlines pos nested ih =>
    intro loc attrs outer hl houter
    have hnested : Holds (Node.Fits o) outer ((nested.meaning o).elim [] Block.nodes) :=
      ih loc attrs outer hl houter
    simp only [meaning]
    cases hbody : nested.meaning o with
    | none => exact holds_nil
    | some body =>
      rw [hbody] at hnested
      exact hnested
  | inclusion pos filters path place nested ih =>
    intro loc attrs outer hl houter
    have hraw : o.target (Text.trim path) = .raw ↔ ¬ o.Recognises (Text.trim path) :=
      Options.target_eq_raw_iff
    simp only [Meaning.nodes, meaning]
    split
    · rename_i htarget
      exact holds_node houter ⟨rfl, rfl⟩ ⟨hraw.1 htarget, Text.trimmed_trim path⟩ holds_nil
    · rename_i htarget
      have hpath : o.Recognises (Text.trim path) := Classical.not_not.1 fun h => htarget (hraw.2 h)
      exact holds_node houter ⟨rfl, rfl⟩ ⟨hpath, Text.trimmed_trim path⟩ (ih loc attrs _ hl rfl)
  | filter f ih =>
    intro loc attrs outer hl houter
    have hf : Holds (Node.Fits o) outer [f.meaning o] := ih loc attrs outer hl houter
    cases f <;> exact hf
  | comment value buffered pos region ih =>
    intro loc attrs outer hl houter
    have hregion : ∀ outer' : List Node, outer'.head?.any Node.isCase = false →
        outer'.any Node.isDefinition = outer.any Node.isDefinition →
        Holds (Node.Fits o) outer' ((region.meaning o).elim [] Block.nodes) :=
      fun outer' houter' hsame => ih loc attrs outer' (hsame ▸ hl) houter'
    simp only [Meaning.nodes, meaning]
    cases hbody : region.meaning o with
    | none => exact holds_node houter ⟨rfl, rfl⟩ trivial holds_nil
    | some body =>
      rw [hbody] at hregion
      exact holds_node houter ⟨rfl, rfl⟩ trivial (hregion _ rfl rfl)
  | code c pos nested ih =>
    intro loc attrs outer hl houter
    exact holds_node houter ⟨rfl, rfl⟩ (fun h => ⟨buffered_eq_false hl.1 h, rfl⟩)
      (ih loc attrs _ hl.2 rfl)
  | html value pos rest ih =>
    intro loc attrs outer hl houter
    have hrest : Holds (Node.Fits o) outer (rest.meaning o) := ih loc attrs outer hl houter
    exact holds_joinHtml (holds_append.2 ⟨holds_text houter, hrest⟩)
  | mixin name args pos nested ih =>
    intro loc attrs outer hl houter
    cases nested with
    | noBlock =>
      exact holds_node houter ⟨rfl, rfl⟩ (by simp [meaning, Node.Sound]) holds_nil
    | someBlock b =>
      exact holds_node houter ⟨rfl, rfl⟩ ⟨rfl, rfl, rfl⟩ (ih loc attrs _ hl rfl)
  | call name args pos head body ih =>
    intro loc attrs outer hl houter
    refine holds_node houter ⟨rfl, rfl⟩ (fun b hb => ?_) ?_
    · exact nodes_ne_nil_of_callBody hb
    · show Holds _ _ ((callBody _).elim [] Block.nodes)
      rw [callBody_nodes]
      exact ih _ _ _ hl.2 rfl
  | mixinBlock pos =>
    intro loc attrs outer hl houter
    exact holds_single.2 ⟨⟨trivial, houter.symm, fun _ => hl⟩, holds_nil⟩
  | fallthrough expr pos rest ih =>
    intro loc attrs outer hl houter
    exact holds_branch houter holds_nil (ih loc attrs outer hl houter)
  | when expr pos body rest ihbody ih
  | default pos body rest ihbody ih =>
    intro loc attrs outer hl houter
    exact holds_branch houter (ihbody loc attrs _ hl.1 rfl) (ih loc attrs outer hl.2 houter)
  | caseOf expr pos indent branches _ ih
  | filterNested name pos group inner ih =>
    intro loc attrs outer hl houter
    exact holds_node houter ⟨rfl, rfl⟩ trivial (ih loc attrs _ hl rfl)
  | tag name pos head body ih
  | interpolatedTag expr pos head body ih
  | shorthand first head body ih =>
    intro loc attrs outer hl houter
    exact holds_node houter ⟨rfl, rfl⟩ trivial (ih _ _ _ hl.2 rfl)
  | filterText name pos group value place =>
    intro loc attrs outer hl houter
    exact holds_node houter ⟨rfl, rfl⟩ trivial (holds_text rfl)
  | namedBlock name mode pos nested ih =>
    intro loc attrs outer hl houter
    exact holds_node houter ⟨rfl, rfl⟩ (Text.trimmed_trim name)
      (holds_getD (ih loc attrs _ hl rfl))
  | filterRegion name pos group region ih
  | whileLoop test pos nested ih =>
    intro loc attrs outer hl houter
    exact holds_node houter ⟨rfl, rfl⟩ trivial (holds_getD (ih loc attrs _ hl rfl))
  | each iteration pos body ih =>
    intro loc attrs outer hl houter
    exact holds_node houter ⟨rfl, rfl⟩ trivial
      (holds_append.2 ⟨ih loc attrs _ hl rfl, holds_nil⟩)
  | eachElse iteration pos body place alternate ih ihalternate =>
    intro loc attrs outer hl houter
    exact holds_node houter ⟨rfl, rfl⟩ trivial
      (holds_append.2 ⟨ih loc attrs _ hl.1 rfl, ihalternate loc attrs _ hl.2 rfl⟩)
  | _ =>
    intro loc attrs outer hl houter
    have : Nonempty Location := ⟨loc⟩
    have : Nonempty Attributes := ⟨attrs⟩
    simp only [Meaning.nodes, forall_const, Lawful, Symbol.isBranches] at *
    simp [meaning, spliced_of_ne_block, holds_cons, Node.fits_iff, Node.children, Node.Sound,
      Node.isWhen, Node.isMixinBlock, Text.trimmed_trim, Content.none, *]

end Derivation

/-- Every node of a tree that is read has its place. -/
theorem fits_of_parse {o : Options} {ts : List Token} {tree : Block} {rest : Cursor}
    (h : (parse o ts).outcome = .done tree rest) {above : List Node} {node : Node}
    (hnode : Lineage tree.nodes above node) : node.Fits o above := by
  obtain ⟨d, hd⟩ := exists_derivation_of_parse h
  rw [tree_eq_of_reads h hd] at hnode
  have hholds := d.holds_meaning o ⟨.whole, o.filename⟩ .empty [] hd.lawful rfl
  have hfits := hholds.at_lineage above node hnode
  rwa [List.append_nil] at hfits

/-- **Every tree that is read is well formed.** Of each node of the tree, with the nodes above it:

* it is sound by itself: it is no filter of an include; code with a block is not put out and not
  inline; the definition of a mixin has a block and no attributes, and a call of one has no block
  without nodes; the path of an include of a template ends in an extension, and that of any other
  include does not; paths and the names of blocks have no blank ends;
* it is a branch exactly if its parent is a case. -/
theorem wellFormed_of_parse {o : Options} {ts : List Token} {tree : Block} {rest : Cursor}
    (h : (parse o ts).outcome = .done tree rest) :
    ∀ above node, Lineage tree.nodes above node →
      node.Sound o ∧ (node.isWhen = true ↔ ∃ parent ∈ above.head?, parent.isCase = true) := by
  intro above node hnode
  have hfits := fits_of_parse h hnode
  refine ⟨hfits.sound, ?_⟩
  rw [hfits.branch, Option.any_eq_true]
  rfl

/-- The branch `when 1` of `case x`, and the case. -/
theorem wellFormed_case :
    ∃ tree rest, (parse .default [⟨.case "x", ⟨1, 1⟩⟩, ⟨.indent, ⟨2, 1⟩⟩, ⟨.when "1", ⟨2, 3⟩⟩,
        ⟨.outdent, ⟨3, 1⟩⟩]).outcome = .done tree rest ∧
      ∀ above node, Lineage tree.nodes above node →
        node.Sound .default ∧ (node.isWhen = true ↔ ∃ parent ∈ above.head?, parent.isCase = true) :=
  ⟨_, _, by rfl, @wellFormed_of_parse .default [⟨.case "x", ⟨1, 1⟩⟩, ⟨.indent, ⟨2, 1⟩⟩,
    ⟨.when "1", ⟨2, 3⟩⟩, ⟨.outdent, ⟨3, 1⟩⟩] _ _ (by rfl)⟩

end Pug
