/-
# Templates at other places

A relocation takes each position to some position, and the name of the file to some name. It
moves whatever has a location: a token, an error, a warning, a tree. The identity moves nothing,
and the locations of a tree that is moved are those of the tree, moved.

What productions do with nodes (splicing, gathering, joining lines of HTML) looks at no
location but to hand it on, so it commutes with every relocation.
-/

import Pug.Grammar.Element
import Pug.Proofs.Tree.Assembly
import Pug.Report.Fault
import Pug.Report.Warning

namespace Pug

open Grammar

/-- Where the positions of a template come to stand, and what its file comes to be called. -/
structure Relocation where
  pos : Position → Position
  filename : Option String → Option String

/-- Data that may have locations. -/
class Movable (α : Type) where
  move : Relocation → α → α

namespace Relocation

/-- The relocation that leaves everything in place. -/
def stay : Relocation := ⟨id, id⟩

/-- Something with each of its locations moved. -/
abbrev move {α : Type} [Movable α] (ρ : Relocation) (a : α) : α := Movable.move ρ a

/-- The options of a reading of what is moved. -/
def options (ρ : Relocation) (o : Options) : Options := { o with filename := ρ.filename o.filename }

@[simp] theorem options_stay (o : Options) : stay.options o = o := rfl

end Relocation

instance : Movable Unit := ⟨fun _ a => a⟩

instance : Movable Bool := ⟨fun _ a => a⟩

instance : Movable String := ⟨fun _ a => a⟩

instance {α : Type} [Movable α] : Movable (Option α) := ⟨fun ρ a => a.map ρ.move⟩

instance {α : Type} [Movable α] : Movable (List α) := ⟨fun ρ as => as.map ρ.move⟩

instance : Movable Location := ⟨fun ρ loc => ⟨ρ.pos loc.toPosition, ρ.filename loc.filename⟩⟩

instance : Movable Token := ⟨fun ρ t => ⟨t.lexeme, ρ.pos t.pos⟩⟩

instance : Movable ParseError := ⟨fun ρ e => ⟨e.fault, ρ.move e.loc⟩⟩

instance : Movable Warning := ⟨fun ρ w => ⟨w.advice, ρ.move w.loc⟩⟩

instance : Movable Attribute := ⟨fun ρ a => ⟨a.name, a.value, a.escaped, ρ.move a.loc⟩⟩

instance : Movable Spread := ⟨fun ρ s => ⟨s.expr, ρ.move s.loc⟩⟩

instance : Movable Attributes := ⟨fun ρ a => ⟨ρ.move a.listed, ρ.move a.spreads⟩⟩

instance : Movable FileRef := ⟨fun ρ file => ⟨file.path, ρ.move file.loc⟩⟩

instance : Movable IncludeFilter := ⟨fun ρ f => ⟨f.name, ρ.move f.attrs, ρ.move f.loc⟩⟩

instance : Movable Head := ⟨fun ρ head => ⟨ρ.move head.toAttributes, head.grouped⟩⟩

mutual

/-- A node with each of its locations moved. -/
def Node.move (ρ : Relocation) : Node → Node
  | .block body => .block (body.move ρ)
  | .tag name selfClosing textOnly isInline attrs body loc =>
      .tag name selfClosing textOnly isInline (ρ.move attrs) (body.move ρ) (ρ.move loc)
  | .interpolatedTag expr selfClosing textOnly attrs body loc =>
      .interpolatedTag expr selfClosing textOnly (ρ.move attrs) (body.move ρ) (ρ.move loc)
  | .text value isHtml loc => .text value isHtml (ρ.move loc)
  | .code c isInline body loc => .code c isInline (Block.move? ρ body) (ρ.move loc)
  | .conditional test consequent alternate loc =>
      .conditional test (consequent.move ρ) (Alternate.move? ρ alternate) (ρ.move loc)
  | .while test body loc => .while test (body.move ρ) (ρ.move loc)
  | .each iteration body alternate loc =>
      .each iteration (body.move ρ) (Block.move? ρ alternate) (ρ.move loc)
  | .case expr body loc => .case expr (body.move ρ) (ρ.move loc)
  | .when expr body loc => .when expr (Block.move? ρ body) (ρ.move loc)
  | .mixin name args isCall attrs body loc =>
      .mixin name args isCall (ρ.move attrs) (Block.move? ρ body) (ρ.move loc)
  | .mixinBlock loc => .mixinBlock (ρ.move loc)
  | .yieldBlock loc => .yieldBlock (ρ.move loc)
  | .namedBlock name mode body loc => .namedBlock name mode (body.move ρ) (ρ.move loc)
  | .filter name attrs body loc => .filter name (ρ.move attrs) (body.move ρ) (ρ.move loc)
  | .includeFilter f => .includeFilter (ρ.move f)
  | .include file body loc => .include (ρ.move file) (Block.move? ρ body) (ρ.move loc)
  | .rawInclude file filters loc => .rawInclude (ρ.move file) (ρ.move filters) (ρ.move loc)
  | .extends file loc => .extends (ρ.move file) (ρ.move loc)
  | .comment value buffered loc => .comment value buffered (ρ.move loc)
  | .blockComment value buffered body loc =>
      .blockComment value buffered (body.move ρ) (ρ.move loc)
  | .doctype value loc => .doctype value (ρ.move loc)

/-- The nodes of a list, each moved. -/
def Node.moveAll (ρ : Relocation) : List Node → List Node
  | [] => []
  | node :: nodes => node.move ρ :: Node.moveAll ρ nodes

/-- A block with its location and its nodes moved. -/
def Block.move (ρ : Relocation) : Block → Block
  | ⟨nodes, loc⟩ => ⟨Node.moveAll ρ nodes, ρ.move loc⟩

/-- A block that may be absent, moved. -/
def Block.move? (ρ : Relocation) : Option Block → Option Block
  | none => none
  | some body => some (body.move ρ)

/-- An alternate that may be absent, moved. -/
def Alternate.move? (ρ : Relocation) : Option Alternate → Option Alternate
  | none => none
  | some alternate => some (alternate.move ρ)

/-- An alternate with each of its locations moved. -/
def Alternate.move (ρ : Relocation) : Alternate → Alternate
  | .elseIf test consequent alternate loc =>
      .elseIf test (consequent.move ρ) (Alternate.move? ρ alternate) (ρ.move loc)
  | .otherwise body => .otherwise (body.move ρ)

end

instance : Movable Node := ⟨Node.move⟩

instance : Movable Block := ⟨Block.move⟩

instance : Movable Alternate := ⟨Alternate.move⟩

instance : Movable Content := ⟨fun ρ line => ⟨line.selfClosing, ρ.move line.block⟩⟩

instance : Movable Body :=
  ⟨fun ρ b => ⟨ρ.move b.attrs, b.selfClosing, b.textOnly, ρ.move b.block⟩⟩

section Move

variable {α : Type} [Movable α] (ρ : Relocation)

@[simp] theorem move_some (a : α) : ρ.move (some a) = some (ρ.move a) := rfl

@[simp] theorem move_nil : ρ.move ([] : List α) = [] := rfl

@[simp] theorem move_cons (a : α) (as : List α) : ρ.move (a :: as) = ρ.move a :: ρ.move as := rfl

@[simp] theorem move_append (as bs : List α) :
    ρ.move (as ++ bs) = ρ.move as ++ ρ.move bs := List.map_append

theorem move_strings (values : List String) : ρ.move values = values := List.map_id values

@[simp] theorem move_flatten (ass : List (List α)) :
    ρ.move ass.flatten = (ρ.move ass).flatten := List.map_flatten

theorem moveAll_eq (nodes : List Node) : Node.moveAll ρ nodes = ρ.move nodes := by
  induction nodes with
  | nil => rfl
  | cons node nodes ih =>
    rw [Node.moveAll, ih]
    rfl

theorem move?_eq (body : Option Block) : Block.move? ρ body = ρ.move body := by
  cases body <;> rfl

theorem alternate_move?_eq (alternate : Option Alternate) :
    Alternate.move? ρ alternate = ρ.move alternate := by
  cases alternate <;> rfl

@[simp] theorem move_block (nodes : List Node) (loc : Location) :
    ρ.move (⟨nodes, loc⟩ : Block) = ⟨ρ.move nodes, ρ.move loc⟩ := by
  change Block.move ρ ⟨nodes, loc⟩ = _
  rw [Block.move, moveAll_eq]

@[simp] theorem move_nodes (b : Block) : (ρ.move b).nodes = ρ.move b.nodes := by
  rcases b with ⟨nodes, loc⟩
  rw [move_block]

@[simp] theorem move_empty (loc : Location) :
    ρ.move (Block.empty loc) = .empty (ρ.move loc) := move_block ρ [] loc

@[simp] theorem move_getD (body : Option Block) (b : Block) :
    ρ.move (body.getD b) = (ρ.move body).getD (ρ.move b) := by
  cases body <;> rfl

@[simp] theorem move_spliced (node : Node) : ρ.move node.spliced = (ρ.move node).spliced := by
  cases node with
  | block body => exact (move_nodes ρ body).symm
  | _ => rfl

@[simp] theorem move_asBody (node : Node) (loc : Location) :
    ρ.move (node.asBody loc) = (ρ.move node).asBody (ρ.move loc) := by
  cases node with
  | block body => rfl
  | _ => exact move_block ρ _ loc

@[simp] theorem move_callBody (b : Block) : ρ.move (callBody b) = callBody (ρ.move b) := by
  rcases b with ⟨nodes, loc⟩
  rw [move_block]
  cases nodes with
  | nil => rfl
  | cons node nodes => exact congrArg some (move_block ρ (node :: nodes) loc)

@[simp] theorem move_gather (loc : Location) (nodes : List Node) :
    ρ.move (gather loc nodes) = gather (ρ.move loc) (ρ.move nodes) := by
  match nodes with
  | [] => exact congrArg Node.block (move_block ρ [] loc)
  | [node] => rfl
  | first :: second :: nodes =>
    exact congrArg Node.block (move_block ρ (first :: second :: nodes) loc)

theorem move_conditional (test : String) (consequent : Block) (alternate : Option Alternate)
    (loc : Location) :
    ρ.move (Node.conditional test consequent alternate loc) =
      .conditional test (ρ.move consequent) (ρ.move alternate) (ρ.move loc) :=
  congrArg (Node.conditional test (ρ.move consequent) · (ρ.move loc))
    (alternate_move?_eq ρ alternate)

theorem move_elseIf (test : String) (consequent : Block) (alternate : Option Alternate)
    (loc : Location) :
    ρ.move (Alternate.elseIf test consequent alternate loc) =
      .elseIf test (ρ.move consequent) (ρ.move alternate) (ρ.move loc) :=
  congrArg (Alternate.elseIf test (ρ.move consequent) · (ρ.move loc))
    (alternate_move?_eq ρ alternate)

theorem move_each (iteration : Iteration) (body : Block) (alternate : Option Block)
    (loc : Location) :
    ρ.move (Node.each iteration body alternate loc) =
      .each iteration (ρ.move body) (ρ.move alternate) (ρ.move loc) :=
  congrArg (Node.each iteration (ρ.move body) · (ρ.move loc)) (move?_eq ρ alternate)

theorem move_when (expr : String) (body : Option Block) (loc : Location) :
    ρ.move (Node.when expr body loc) = .when expr (ρ.move body) (ρ.move loc) :=
  congrArg (Node.when expr · (ρ.move loc)) (move?_eq ρ body)

theorem move_mixin (name : String) (args : Option String) (isCall : Bool) (attrs : Attributes)
    (body : Option Block) (loc : Location) :
    ρ.move (Node.mixin name args isCall attrs body loc) =
      .mixin name args isCall (ρ.move attrs) (ρ.move body) (ρ.move loc) :=
  congrArg (Node.mixin name args isCall (ρ.move attrs) · (ρ.move loc)) (move?_eq ρ body)

theorem move_include (file : FileRef) (body : Option Block) (loc : Location) :
    ρ.move (Node.include file body loc) = .include (ρ.move file) (ρ.move body) (ρ.move loc) :=
  congrArg (Node.include (ρ.move file) · (ρ.move loc)) (move?_eq ρ body)

theorem move_text (value : String) (isHtml : Bool) (loc : Location) :
    ρ.move (Node.text value isHtml loc) = .text value isHtml (ρ.move loc) := rfl

/-- Lines of HTML stay lines of HTML, and no other node becomes one. -/
theorem exists_of_move_eq_text {node : Node} {value : String} {loc : Location}
    (h : ρ.move node = .text value true loc) :
    ∃ place, node = .text value true place ∧ loc = ρ.move place := by
  cases node with
  | text v isHtml place =>
    obtain ⟨rfl, rfl, rfl⟩ : v = value ∧ isHtml = true ∧ ρ.move place = loc := by
      simpa [move_text] using h
    exact ⟨place, rfl, rfl⟩
  | _ => cases h

/-- **Lines of HTML are joined at the place of the first one,** wherever that is. -/
@[simp] theorem move_joinHtml (nodes : List Node) :
    ρ.move (joinHtml nodes) = joinHtml (ρ.move nodes) := by
  fun_induction joinHtml nodes with
  | case1 => rfl
  | case2 value loc nodes more place rest hjoin ih =>
    rw [hjoin, move_cons, move_text] at ih
    rw [move_cons, move_cons, move_text, move_text, joinHtml, ← ih]
  | case3 value loc nodes hjoin ih =>
    rw [move_cons, move_cons, move_text, joinHtml, ih]
    split
    · rename_i more place rest hmoved
      rw [← ih] at hmoved
      cases hnodes : joinHtml nodes with
      | nil =>
        rw [hnodes] at hmoved
        cases hmoved
      | cons first others =>
        rw [hnodes, move_cons, List.cons.injEq] at hmoved
        obtain ⟨place', rfl, -⟩ := exists_of_move_eq_text ρ hmoved.1
        exact absurd hnodes (hjoin more place' others)
    · rfl
  | case4 node nodes hnode ih =>
    rw [move_cons, move_cons, joinHtml, ih]
    intro value loc hmoved
    obtain ⟨place, rfl, -⟩ := exists_of_move_eq_text ρ hmoved
    exact hnode value place rfl

end Move

section Stay

theorem move_stay_list {α : Type} [Movable α] (h : ∀ a : α, Relocation.stay.move a = a)
    (as : List α) : Relocation.stay.move as = as :=
  (List.map_congr_left fun a _ => h a).trans (List.map_id as)

@[simp] theorem move_stay_location (loc : Location) : Relocation.stay.move loc = loc := rfl

@[simp] theorem move_stay_token (t : Token) : Relocation.stay.move t = t := rfl

@[simp] theorem move_stay_tokens (ts : List Token) : Relocation.stay.move ts = ts :=
  move_stay_list move_stay_token ts

@[simp] theorem move_stay_warnings (ws : List Warning) : Relocation.stay.move ws = ws :=
  move_stay_list (fun _ => rfl) ws

@[simp] theorem move_stay_attributeList (attrs : List Attribute) :
    Relocation.stay.move attrs = attrs := move_stay_list (fun _ => rfl) attrs

@[simp] theorem move_stay_attributes (attrs : Attributes) :
    Relocation.stay.move attrs = attrs := by
  rcases attrs with ⟨listed, spreads⟩
  have hspreads : Relocation.stay.move spreads = spreads := move_stay_list (fun _ => rfl) spreads
  change (⟨Relocation.stay.move listed, Relocation.stay.move spreads⟩ : Attributes) = _
  rw [hspreads, move_stay_attributeList]

@[simp] theorem move_stay_file (file : FileRef) : Relocation.stay.move file = file := rfl

@[simp] theorem move_stay_filter (f : IncludeFilter) : Relocation.stay.move f = f :=
  congrArg (IncludeFilter.mk f.name · f.loc) (move_stay_attributeList f.attrs)

@[simp] theorem move_stay_filters (filters : List IncludeFilter) :
    Relocation.stay.move filters = filters := move_stay_list move_stay_filter filters

mutual

/-- **A tree that stays in place is the tree.** -/
theorem Node.move_stay (node : Node) : node.move .stay = node := by
  cases node <;> simp [Node.move, Block.move_stay, Block.move?_stay, Alternate.move?_stay]

theorem Node.moveAll_stay (nodes : List Node) : Node.moveAll .stay nodes = nodes := by
  cases nodes <;> simp [Node.moveAll, Node.move_stay, Node.moveAll_stay]

theorem Block.move_stay (b : Block) : b.move .stay = b := by
  cases b
  simp [Block.move, Node.moveAll_stay]

theorem Block.move?_stay (body : Option Block) : Block.move? .stay body = body := by
  cases body <;> simp [Block.move?, Block.move_stay]

theorem Alternate.move?_stay (alternate : Option Alternate) :
    Alternate.move? .stay alternate = alternate := by
  cases alternate <;> simp [Alternate.move?, Alternate.move_stay]

theorem Alternate.move_stay (alternate : Alternate) : alternate.move .stay = alternate := by
  cases alternate <;> simp [Alternate.move, Block.move_stay, Alternate.move?_stay]

end

@[simp] theorem move_stay_nodes (nodes : List Node) : Relocation.stay.move nodes = nodes :=
  move_stay_list Node.move_stay nodes

end Stay

section Locations

/-- Where attributes are. -/
def Attribute.locations (attrs : List Attribute) : List Location := attrs.map Attribute.loc

/-- Where attributes and spread expressions are. -/
def Attributes.locations (attrs : Attributes) : List Location :=
  Attribute.locations attrs.listed ++ attrs.spreads.map Spread.loc

/-- Where filters and their attributes are. -/
def IncludeFilter.locations (filters : List IncludeFilter) : List Location :=
  filters.flatMap fun f => f.loc :: Attribute.locations f.attrs

mutual

/-- Where a node is, and all that is in it. -/
def Node.locations : Node → List Location
  | .block body => body.locations
  | .tag _ _ _ _ attrs body loc => loc :: attrs.locations ++ body.locations
  | .interpolatedTag _ _ _ attrs body loc => loc :: attrs.locations ++ body.locations
  | .text _ _ loc => [loc]
  | .code _ _ body loc => loc :: Block.locations? body
  | .conditional _ consequent alternate loc =>
      loc :: consequent.locations ++ Alternate.locations? alternate
  | .while _ body loc => loc :: body.locations
  | .each _ body alternate loc => loc :: body.locations ++ Block.locations? alternate
  | .case _ body loc => loc :: body.locations
  | .when _ body loc => loc :: Block.locations? body
  | .mixin _ _ _ attrs body loc => loc :: attrs.locations ++ Block.locations? body
  | .mixinBlock loc => [loc]
  | .yieldBlock loc => [loc]
  | .namedBlock _ _ body loc => loc :: body.locations
  | .filter _ attrs body loc => loc :: Attribute.locations attrs ++ body.locations
  | .includeFilter f => IncludeFilter.locations [f]
  | .include file body loc => loc :: file.loc :: Block.locations? body
  | .rawInclude file filters loc => loc :: file.loc :: IncludeFilter.locations filters
  | .extends file loc => [loc, file.loc]
  | .comment _ _ loc => [loc]
  | .blockComment _ _ body loc => loc :: body.locations
  | .doctype _ loc => [loc]

/-- Where the nodes of a list are, and all that is in them. -/
def Node.allLocations : List Node → List Location
  | [] => []
  | node :: nodes => node.locations ++ Node.allLocations nodes

/-- Where a block is, and all that is in it. -/
def Block.locations : Block → List Location
  | ⟨nodes, loc⟩ => loc :: Node.allLocations nodes

/-- The locations of a block that may be absent. -/
def Block.locations? : Option Block → List Location
  | none => []
  | some body => body.locations

/-- The locations of an alternate that may be absent. -/
def Alternate.locations? : Option Alternate → List Location
  | none => []
  | some alternate => alternate.locations

/-- Where an alternate is, and all that is in it. -/
def Alternate.locations : Alternate → List Location
  | .elseIf _ consequent alternate loc =>
      loc :: consequent.locations ++ Alternate.locations? alternate
  | .otherwise body => body.locations

end

variable (ρ : Relocation)

@[simp] theorem FileRef.loc_move (file : FileRef) : (ρ.move file).loc = ρ.move file.loc := rfl

@[simp] theorem Attribute.locations_move (attrs : List Attribute) :
    Attribute.locations (ρ.move attrs) = ρ.move (Attribute.locations attrs) := by
  change List.map _ (List.map _ _) = List.map _ (List.map _ _)
  rw [List.map_map, List.map_map]
  rfl

@[simp] theorem Attributes.locations_move (attrs : Attributes) :
    (ρ.move attrs).locations = ρ.move attrs.locations := by
  have hspreads : (ρ.move attrs.spreads).map Spread.loc = ρ.move (attrs.spreads.map Spread.loc) := by
    change List.map _ (List.map _ _) = List.map _ (List.map _ _)
    rw [List.map_map, List.map_map]
    rfl
  rw [Attributes.locations, Attributes.locations, move_append, ← hspreads,
    ← Attribute.locations_move]
  rfl

@[simp] theorem IncludeFilter.locations_move (filters : List IncludeFilter) :
    IncludeFilter.locations (ρ.move filters) = ρ.move (IncludeFilter.locations filters) := by
  induction filters with
  | nil => rfl
  | cons f filters ih =>
    have hcons : ∀ f filters, IncludeFilter.locations (f :: filters) =
      (f.loc :: Attribute.locations f.attrs) ++ IncludeFilter.locations filters :=
        fun _ _ => List.flatMap_cons
    rw [move_cons, hcons, hcons, ih, move_append, move_cons, ← Attribute.locations_move]
    rfl

mutual

/-- **The locations of a tree that is moved are those of the tree, moved.** -/
theorem Node.locations_move (node : Node) :
    (node.move ρ).locations = ρ.move node.locations := by
  have hfilter : ∀ f, IncludeFilter.locations [ρ.move f] = ρ.move (IncludeFilter.locations [f]) :=
    fun f => IncludeFilter.locations_move ρ [f]
  cases node <;> simp [Node.move, Node.locations, Block.locations_move, Block.locations_move?,
    Alternate.locations_move?, hfilter]

theorem Node.allLocations_move (nodes : List Node) :
    Node.allLocations (Node.moveAll ρ nodes) = ρ.move (Node.allLocations nodes) := by
  cases nodes <;> simp [Node.moveAll, Node.allLocations, Node.locations_move,
    Node.allLocations_move]

theorem Block.locations_move (b : Block) : (b.move ρ).locations = ρ.move b.locations := by
  cases b
  simp [Block.move, Block.locations, Node.allLocations_move]

theorem Block.locations_move? (body : Option Block) :
    Block.locations? (Block.move? ρ body) = ρ.move (Block.locations? body) := by
  cases body <;> simp [Block.move?, Block.locations?, Block.locations_move]

theorem Alternate.locations_move? (alternate : Option Alternate) :
    Alternate.locations? (Alternate.move? ρ alternate) =
      ρ.move (Alternate.locations? alternate) := by
  cases alternate <;> simp [Alternate.move?, Alternate.locations?, Alternate.locations_move]

theorem Alternate.locations_move (alternate : Alternate) :
    (alternate.move ρ).locations = ρ.move alternate.locations := by
  cases alternate <;> simp [Alternate.move, Alternate.locations, Block.locations_move,
    Alternate.locations_move?]

end

end Locations
end Pug
