/-
# Derivations

    item          = Newline | expr
    block         = Indent item* Outdent
    region        = StartPipelessText (fragment | Newline)* EndPipelessText
    fragment      = Text | InterpolatedCode | StartInterpolation expr EndInterpolation
    group         = StartAttributes Attribute* EndAttributes
    head          = (Id | Class | AndAttributes | group)*
    content       = (Text | InterpolatedCode) fragment* | Code | Colon expr | Slash | nothing
    body          = content Newline* [block] | Dot content Newline* [region]
    expansion     = Colon expr | block
    branch        = When [expansion] | Default expansion
    alternate     = Newline* ElseIf [block] | Newline* Else [block]
    filter        = Filter [group] (Text | filter | [region])
    expr          = (Tag | Interpolation | Call) head body
                  | head body, if the head begins with Id or Class
                  | Mixin [block] | MixinBlock | Yield | Block [block] | Doctype
                  | Case Indent (Newline | Comment | branch)* Outdent
                  | Extends Path | Include (Filter [group])* Path [block]
                  | filter | Comment [region] | Dot [region]
                  | fragment (fragment | Newline)* | TextHtml (TextHtml | Newline | block)*
                  | Each block [Else block] | While [block] | If [block] alternate*
                  | Code [block] | BlockCode [StartPipelessText (Text | Newline)* EndPipelessText]

A derivation shows how a list of tokens is made by these rules. There is one
family of derivations, indexed by the symbols of the grammar, and one constructor
for each way to make a symbol. What the rules say about the choice of a rule by
the tokens ahead is not part of a derivation; see `Pug.Proofs.Derivation.Greedy`.
-/

import Pug.Token.Basic

namespace Pug

/-- A token between `StartAttributes` and `EndAttributes`. -/
structure AttributeToken where
  name : String
  value : String
  escaped : Bool
  pos : Position

/-- A group of attributes with its two delimiters. -/
structure Group where
  start : Position
  attrs : List AttributeToken
  stop : Position

/-- A shorthand, which may begin an element without a name. -/
inductive Shorthand where
  | idName (value : String) (pos : Position)
  | className (value : String) (pos : Position)

/-- One item of the head of an element. -/
inductive HeadItem where
  | shorthand (s : Shorthand)
  | andAttributes (expr : String) (pos : Position)
  | group (g : Group)

/-- Text or code on a line of text. -/
inductive Plain where
  | text (value : String) (pos : Position)
  | code (code : Code) (pos : Position)

/-- A filter of an include. -/
structure FilterToken where
  name : String
  pos : Position
  group : Option Group

/-- A token in a region of code. -/
inductive CodeToken where
  | text (value : String) (pos : Position)
  | newline (pos : Position)

/-- A region of code with its two delimiters. -/
structure CodeRegion where
  start : Position
  parts : List CodeToken
  stop : Position

/-- Where a sequence of fragments stands: on the line of an element, in a run over
several lines, or in a verbatim region. -/
inductive Layout where
  | line
  | lines
  | region
  deriving DecidableEq

/-- The symbols of the grammar. -/
inductive Symbol where
  /-- The items of a list of productions. -/
  | items
  | block
  /-- A block that may be absent. -/
  | nested
  /-- A verbatim region that may be absent. -/
  | region
  /-- Fragments, with line breaks between them unless they stand on one line. -/
  | parts (layout : Layout)
  | fragment
  /-- Lines of HTML, line breaks and blocks. -/
  | html
  /-- What stands on the line of an element; a slash only if it is `closable`. -/
  | content (closable : Bool)
  | body (closable : Bool)
  | expansion
  /-- The branches of a case. -/
  | branches
  | alternates
  | filter
  | expr

/-- The derivations of a symbol. -/
inductive Derivation : Symbol → Type where
  | nil : Derivation .items
  | newline (pos : Position) (rest : Derivation .items) : Derivation .items
  | item (e : Derivation .expr) (rest : Derivation .items) : Derivation .items
  | block (indent : Position) (items : Derivation .items) (outdent : Position) :
      Derivation .block
  | noBlock : Derivation .nested
  | someBlock (b : Derivation .block) : Derivation .nested
  | noRegion : Derivation .region
  | someRegion (start : Position) (parts : Derivation (.parts .region)) (stop : Position) :
      Derivation .region
  | endParts {layout : Layout} : Derivation (.parts layout)
  | lineBreak {layout : Layout} (spread : layout ≠ .line) (pos : Position)
      (rest : Derivation (.parts layout)) : Derivation (.parts layout)
  | part {layout : Layout} (f : Derivation .fragment) (rest : Derivation (.parts layout)) :
      Derivation (.parts layout)
  | plain (p : Plain) : Derivation .fragment
  | interpolated (start : Position) (e : Derivation .expr) (stop : Position) :
      Derivation .fragment
  | endHtml : Derivation .html
  | htmlNewline (pos : Position) (rest : Derivation .html) : Derivation .html
  | htmlLine (value : String) (pos : Position) (rest : Derivation .html) : Derivation .html
  | htmlBlock (b : Derivation .block) (rest : Derivation .html) : Derivation .html
  | noContent {closable : Bool} : Derivation (.content closable)
  | lineRun {closable : Bool} (first : Plain) (rest : Derivation (.parts .line)) :
      Derivation (.content closable)
  | lineCode {closable : Bool} (code : Code) (pos : Position) : Derivation (.content closable)
  | colon {closable : Bool} (pos : Position) (e : Derivation .expr) :
      Derivation (.content closable)
  | slash (pos : Position) : Derivation (.content true)
  | nesting {closable : Bool} (content : Derivation (.content closable))
      (newlines : List Position) (nested : Derivation .nested) : Derivation (.body closable)
  | textOnly {closable : Bool} (pos : Position) (content : Derivation (.content closable))
      (newlines : List Position) (region : Derivation .region) : Derivation (.body closable)
  | expandColon (pos : Position) (e : Derivation .expr) : Derivation .expansion
  | expandBlock (b : Derivation .block) : Derivation .expansion
  | endBranches : Derivation .branches
  | branchNewline (pos : Position) (rest : Derivation .branches) : Derivation .branches
  | branchComment (value : String) (buffered : Bool) (pos : Position)
      (rest : Derivation .branches) : Derivation .branches
  | fallthrough (expr : String) (pos : Position) (rest : Derivation .branches) :
      Derivation .branches
  | when (expr : String) (pos : Position) (body : Derivation .expansion)
      (rest : Derivation .branches) : Derivation .branches
  | default (pos : Position) (body : Derivation .expansion) (rest : Derivation .branches) :
      Derivation .branches
  | endAlternates : Derivation .alternates
  | elseIf (newlines : List Position) (test : String) (pos : Position)
      (nested : Derivation .nested) (rest : Derivation .alternates) : Derivation .alternates
  | otherwise (newlines : List Position) (pos : Position) (nested : Derivation .nested) :
      Derivation .alternates
  | filterText (name : String) (pos : Position) (group : Option Group) (value : String)
      (place : Position) : Derivation .filter
  | filterNested (name : String) (pos : Position) (group : Option Group)
      (inner : Derivation .filter) : Derivation .filter
  | filterRegion (name : String) (pos : Position) (group : Option Group)
      (region : Derivation .region) : Derivation .filter
  | tag (name : String) (pos : Position) (head : List HeadItem) (body : Derivation (.body true)) :
      Derivation .expr
  | interpolatedTag (expr : String) (pos : Position) (head : List HeadItem)
      (body : Derivation (.body true)) : Derivation .expr
  | shorthand (first : Shorthand) (head : List HeadItem) (body : Derivation (.body true)) :
      Derivation .expr
  | call (name : String) (args : Option String) (pos : Position) (head : List HeadItem)
      (body : Derivation (.body false)) : Derivation .expr
  | mixin (name : String) (args : Option String) (pos : Position)
      (nested : Derivation .nested) : Derivation .expr
  | mixinBlock (pos : Position) : Derivation .expr
  | yield (pos : Position) : Derivation .expr
  | namedBlock (name : String) (mode : BlockMode) (pos : Position)
      (nested : Derivation .nested) : Derivation .expr
  | doctype (value : String) (pos : Position) : Derivation .expr
  | caseOf (expr : String) (pos indent : Position) (branches : Derivation .branches)
      (outdent : Position) : Derivation .expr
  | parent (pos : Position) (path : String) (place : Position) : Derivation .expr
  | inclusion (pos : Position) (filters : List FilterToken) (path : String) (place : Position)
      (nested : Derivation .nested) : Derivation .expr
  | filter (f : Derivation .filter) : Derivation .expr
  | comment (value : String) (buffered : Bool) (pos : Position)
      (region : Derivation .region) : Derivation .expr
  | dot (pos : Position) (region : Derivation .region) : Derivation .expr
  | run (first : Derivation .fragment) (rest : Derivation (.parts .lines)) : Derivation .expr
  | html (value : String) (pos : Position) (rest : Derivation .html) : Derivation .expr
  | each (iteration : Iteration) (pos : Position) (body : Derivation .block) : Derivation .expr
  | eachElse (iteration : Iteration) (pos : Position) (body : Derivation .block)
      (place : Position) (alternate : Derivation .block) : Derivation .expr
  | whileLoop (test : String) (pos : Position) (nested : Derivation .nested) : Derivation .expr
  | conditional (test : String) (pos : Position) (nested : Derivation .nested)
      (rest : Derivation .alternates) : Derivation .expr
  | code (code : Code) (pos : Position) (nested : Derivation .nested) : Derivation .expr
  | blockCode (pos : Position) (region : Option CodeRegion) : Derivation .expr

namespace Group

/-- The tokens of a group. -/
def tokens (g : Group) : List Token :=
  ⟨.startAttributes, g.start⟩ ::
    ((g.attrs.map fun a => ⟨.attribute a.name a.value a.escaped, a.pos⟩) ++
      [⟨.endAttributes, g.stop⟩])

/-- The tokens of a group that may be absent. -/
def tokens? : Option Group → List Token
  | none => []
  | some g => g.tokens

end Group

namespace Shorthand

/-- The token of a shorthand. -/
def token : Shorthand → Token
  | .idName value pos => ⟨.idName value, pos⟩
  | .className value pos => ⟨.className value, pos⟩

/-- Where a shorthand stands. -/
def pos (s : Shorthand) : Position := s.token.pos

end Shorthand

namespace HeadItem

/-- The tokens of an item of a head. -/
def tokens : HeadItem → List Token
  | .shorthand s => [s.token]
  | .andAttributes expr pos => [⟨.andAttributes expr, pos⟩]
  | .group g => g.tokens

end HeadItem

namespace Plain

/-- The token of a piece of text or code. -/
def token : Plain → Token
  | .text value pos => ⟨.text value, pos⟩
  | .code c pos => ⟨.interpolatedCode c, pos⟩

end Plain

namespace FilterToken

/-- The tokens of a filter of an include. -/
def tokens (f : FilterToken) : List Token := ⟨.filter f.name, f.pos⟩ :: Group.tokens? f.group

end FilterToken

namespace CodeToken

/-- The token that a part of a region of code is. -/
def token : CodeToken → Token
  | .text value pos => ⟨.text value, pos⟩
  | .newline pos => ⟨.newline, pos⟩

end CodeToken

namespace CodeRegion

/-- The tokens of a region of code. -/
def tokens (r : CodeRegion) : List Token :=
  ⟨.startPipelessText, r.start⟩ ::
    (r.parts.map CodeToken.token ++ [⟨.endPipelessText, r.stop⟩])

/-- The tokens of a region of code that may be absent. -/
def tokens? : Option CodeRegion → List Token
  | none => []
  | some r => r.tokens

end CodeRegion

/-- The tokens of line breaks. -/
def newlineTokens (newlines : List Position) : List Token := newlines.map (⟨.newline, ·⟩)

namespace Derivation

/-- The tokens that a derivation makes, in order. -/
def tokens : {s : Symbol} → Derivation s → List Token
  | _, .nil => []
  | _, .newline pos rest => ⟨.newline, pos⟩ :: rest.tokens
  | _, .item e rest => e.tokens ++ rest.tokens
  | _, .block indent items outdent => ⟨.indent, indent⟩ :: (items.tokens ++ [⟨.outdent, outdent⟩])
  | _, .noBlock => []
  | _, .someBlock b => b.tokens
  | _, .noRegion => []
  | _, .someRegion start parts stop =>
      ⟨.startPipelessText, start⟩ :: (parts.tokens ++ [⟨.endPipelessText, stop⟩])
  | _, .endParts => []
  | _, .lineBreak _ pos rest => ⟨.newline, pos⟩ :: rest.tokens
  | _, .part f rest => f.tokens ++ rest.tokens
  | _, .plain p => [p.token]
  | _, .interpolated start e stop =>
      ⟨.startInterpolation, start⟩ :: (e.tokens ++ [⟨.endInterpolation, stop⟩])
  | _, .endHtml => []
  | _, .htmlNewline pos rest => ⟨.newline, pos⟩ :: rest.tokens
  | _, .htmlLine value pos rest => ⟨.textHtml value, pos⟩ :: rest.tokens
  | _, .htmlBlock b rest => b.tokens ++ rest.tokens
  | _, .noContent => []
  | _, .lineRun first rest => first.token :: rest.tokens
  | _, .lineCode c pos => [⟨.code c, pos⟩]
  | _, .colon pos e => ⟨.colon, pos⟩ :: e.tokens
  | _, .slash pos => [⟨.slash, pos⟩]
  | _, .nesting content newlines nested =>
      content.tokens ++ (newlineTokens newlines ++ nested.tokens)
  | _, .textOnly pos content newlines region =>
      ⟨.dot, pos⟩ :: (content.tokens ++ (newlineTokens newlines ++ region.tokens))
  | _, .expandColon pos e => ⟨.colon, pos⟩ :: e.tokens
  | _, .expandBlock b => b.tokens
  | _, .endBranches => []
  | _, .branchNewline pos rest => ⟨.newline, pos⟩ :: rest.tokens
  | _, .branchComment value buffered pos rest => ⟨.comment value buffered, pos⟩ :: rest.tokens
  | _, .fallthrough expr pos rest => ⟨.when expr, pos⟩ :: rest.tokens
  | _, .when expr pos body rest => ⟨.when expr, pos⟩ :: (body.tokens ++ rest.tokens)
  | _, .default pos body rest => ⟨.default, pos⟩ :: (body.tokens ++ rest.tokens)
  | _, .endAlternates => []
  | _, .elseIf newlines test pos nested rest =>
      newlineTokens newlines ++ ⟨.elseIf test, pos⟩ :: (nested.tokens ++ rest.tokens)
  | _, .otherwise newlines pos nested =>
      newlineTokens newlines ++ ⟨.else, pos⟩ :: nested.tokens
  | _, .filterText name pos group value place =>
      ⟨.filter name, pos⟩ :: (Group.tokens? group ++ [⟨.text value, place⟩])
  | _, .filterNested name pos group inner =>
      ⟨.filter name, pos⟩ :: (Group.tokens? group ++ inner.tokens)
  | _, .filterRegion name pos group region =>
      ⟨.filter name, pos⟩ :: (Group.tokens? group ++ region.tokens)
  | _, .tag name pos head body =>
      ⟨.tag name, pos⟩ :: (head.flatMap HeadItem.tokens ++ body.tokens)
  | _, .interpolatedTag expr pos head body =>
      ⟨.interpolation expr, pos⟩ :: (head.flatMap HeadItem.tokens ++ body.tokens)
  | _, .shorthand first head body =>
      first.token :: (head.flatMap HeadItem.tokens ++ body.tokens)
  | _, .call name args pos head body =>
      ⟨.call name args, pos⟩ :: (head.flatMap HeadItem.tokens ++ body.tokens)
  | _, .mixin name args pos nested => ⟨.mixin name args, pos⟩ :: nested.tokens
  | _, .mixinBlock pos => [⟨.mixinBlock, pos⟩]
  | _, .yield pos => [⟨.yield, pos⟩]
  | _, .namedBlock name mode pos nested => ⟨.block name mode, pos⟩ :: nested.tokens
  | _, .doctype value pos => [⟨.doctype value, pos⟩]
  | _, .caseOf expr pos indent branches outdent =>
      ⟨.case expr, pos⟩ :: ⟨.indent, indent⟩ :: (branches.tokens ++ [⟨.outdent, outdent⟩])
  | _, .parent pos path place => [⟨.extends, pos⟩, ⟨.path path, place⟩]
  | _, .inclusion pos filters path place nested =>
      ⟨.include, pos⟩ :: (filters.flatMap FilterToken.tokens ++
        ⟨.path path, place⟩ :: nested.tokens)
  | _, .filter f => f.tokens
  | _, .comment value buffered pos region => ⟨.comment value buffered, pos⟩ :: region.tokens
  | _, .dot pos region => ⟨.dot, pos⟩ :: region.tokens
  | _, .run first rest => first.tokens ++ rest.tokens
  | _, .html value pos rest => ⟨.textHtml value, pos⟩ :: rest.tokens
  | _, .each iteration pos body => ⟨.each iteration, pos⟩ :: body.tokens
  | _, .eachElse iteration pos body place alternate =>
      ⟨.each iteration, pos⟩ :: (body.tokens ++ ⟨.else, place⟩ :: alternate.tokens)
  | _, .whileLoop test pos nested => ⟨.while test, pos⟩ :: nested.tokens
  | _, .conditional test pos nested rest => ⟨.if test, pos⟩ :: (nested.tokens ++ rest.tokens)
  | _, .code c pos nested => ⟨.code c, pos⟩ :: nested.tokens
  | _, .blockCode pos region => ⟨.blockCode, pos⟩ :: CodeRegion.tokens? region

attribute [local simp] tokens

theorem length_block_pos (b : Derivation .block) : 0 < b.tokens.length := by
  cases b
  simp

theorem length_fragment_pos (f : Derivation .fragment) : 0 < f.tokens.length := by
  cases f <;> simp

theorem length_filter_pos (f : Derivation .filter) : 0 < f.tokens.length := by
  cases f <;> simp

/-- **Every production takes a token.** -/
theorem length_expr_pos (e : Derivation .expr) : 0 < e.tokens.length := by
  cases e with
  | filter f => exact length_filter_pos f
  | run first rest =>
    have h := length_fragment_pos first
    simp only [tokens, List.length_append]
    omega
  | _ => simp

end Derivation

/-- The only lexeme of a terminal whose tokens carry nothing. -/
def Terminal.lexeme? : Terminal → Option Lexeme
  | .mixinBlock => some .mixinBlock
  | .default => some .default
  | .extends => some .extends
  | .include => some .include
  | .startInterpolation => some .startInterpolation
  | .endInterpolation => some .endInterpolation
  | .dot => some .dot
  | .blockCode => some .blockCode
  | .else => some .else
  | .yield => some .yield
  | .startAttributes => some .startAttributes
  | .endAttributes => some .endAttributes
  | .startPipelessText => some .startPipelessText
  | .endPipelessText => some .endPipelessText
  | .indent => some .indent
  | .outdent => some .outdent
  | .newline => some .newline
  | .slash => some .slash
  | .colon => some .colon
  | .eos => some .eos
  | _ => none

/-- **A token that carries nothing is known by its terminal.** -/
theorem Lexeme.eq_of_terminal {l bare : Lexeme} {terminal : Terminal}
    (hl : l.terminal = terminal) (hbare : terminal.lexeme? = some bare) : l = bare := by
  subst hl
  cases l <;> cases hbare <;> rfl

/-- No end-of-stream token is among the tokens. -/
def EosFree (ts : List Token) : Prop := ∀ t ∈ ts, t.lexeme ≠ .eos

@[simp] theorem eosFree_nil : EosFree [] := by
  simp [EosFree]

@[simp] theorem eosFree_cons (t : Token) (ts : List Token) :
    EosFree (t :: ts) ↔ t.lexeme ≠ .eos ∧ EosFree ts := List.forall_mem_cons

@[simp] theorem eosFree_append (ts us : List Token) :
    EosFree (ts ++ us) ↔ EosFree ts ∧ EosFree us := List.forall_mem_append

theorem eosFree_map {α : Type} (f : α → Token) (h : ∀ a, (f a).lexeme ≠ .eos) (as : List α) :
    EosFree (as.map f) := by
  intro t ht
  obtain ⟨a, -, rfl⟩ := List.mem_map.1 ht
  exact h a

theorem eosFree_flatMap {α : Type} (f : α → List Token) (h : ∀ a, EosFree (f a))
    (as : List α) : EosFree (as.flatMap f) := by
  intro t ht
  obtain ⟨a, -, ht⟩ := List.mem_flatMap.1 ht
  exact h a t ht

@[simp] theorem Shorthand.token_ne_eos (s : Shorthand) : s.token.lexeme ≠ .eos := by
  cases s <;> exact nofun

@[simp] theorem Plain.token_ne_eos (p : Plain) : p.token.lexeme ≠ .eos := by
  cases p <;> exact nofun

@[simp] theorem Group.eosFree (g : Group) : EosFree g.tokens := by
  simp [tokens, eosFree_map]

@[simp] theorem Group.eosFree? (g : Option Group) : EosFree (tokens? g) := by
  cases g <;> simp [tokens?]

@[simp] theorem HeadItem.eosFree (head : List HeadItem) : EosFree (head.flatMap tokens) :=
  eosFree_flatMap tokens (fun item => by cases item <;> simp [tokens]) head

@[simp] theorem FilterToken.eosFree (filters : List FilterToken) :
    EosFree (filters.flatMap tokens) :=
  eosFree_flatMap tokens (fun f => by simp [tokens]) filters

@[simp] theorem CodeRegion.eosFree? (region : Option CodeRegion) : EosFree (tokens? region) := by
  have hpart : ∀ part : CodeToken, part.token.lexeme ≠ .eos := by
    intro part
    cases part <;> exact nofun
  cases region <;> simp [tokens?, tokens, eosFree_map _ hpart]

@[simp] theorem eosFree_newlineTokens (newlines : List Position) :
    EosFree (newlineTokens newlines) := by
  simp [newlineTokens, eosFree_map]

/-- **No derivation makes an end-of-stream token.** -/
theorem Derivation.eosFree {s : Symbol} (d : Derivation s) : EosFree d.tokens := by
  induction d <;> simp [tokens, *]

end Pug
