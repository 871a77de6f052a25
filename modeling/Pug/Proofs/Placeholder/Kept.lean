/-
# Which tokens reach the tree

Each token of a derivation is kept on the way to the tree, or it is in what is dropped. The
places that are kept are the places of the tree, in their order, and whatever is put for one
that is dropped, the tree stays the same.
-/

import Pug.Proofs.Headings.Tree
import Pug.Proofs.Placeholder.Tree

namespace Pug

/-- A heading is that of the place of a mixin's block, or of a yield. -/
def Heading.isPlace (h : Heading) : Bool := h.label = .mixinBlock || h.label = .yield

/-- The places of mixins' blocks and the yields of a tree, in preorder. -/
def Block.places (tree : Block) : List Heading := tree.headings.filter Heading.isPlace

/-- Tokens with one mark: whether they are kept. -/
def mark (kept : Bool) (ts : List Token) : List (Token × Bool) := ts.map fun t => (t, kept)

/-- The place in the tree of a token that is kept, if the token is that of one. -/
def keptPlace? (o : Options) : Token × Bool → Option Heading
  | (⟨.mixinBlock, pos⟩, true) => some ⟨.mixinBlock, o.place pos⟩
  | (⟨.yield, pos⟩, true) => some ⟨.yield, o.place pos⟩
  | _ => none

/-- Marked tokens with their places refilled. -/
def refillMarks (f : Nat → Bool) : Nat → List (Token × Bool) → List (Token × Bool)
  | _, [] => []
  | n, (t, kept) :: ms => (t.refill (f n), kept) :: refillMarks f (n + 1) ms

/-- Every token that is kept is the same if it is refilled. -/
def KeptAsIs (f : Nat → Bool) : Nat → List (Token × Bool) → Prop
  | _, [] => True
  | n, (t, kept) :: ms => (kept = true → t.refill (f n) = t) ∧ KeptAsIs f (n + 1) ms

section Marks

variable (o : Options) (f : Nat → Bool) (n : Nat) (ms ms' : List (Token × Bool))

@[simp] theorem mark_cons (kept : Bool) (t : Token) (ts : List Token) :
    mark kept (t :: ts) = (t, kept) :: mark kept ts := rfl

@[simp] theorem length_mark (kept : Bool) (ts : List Token) : (mark kept ts).length = ts.length :=
  List.length_map _

@[simp] theorem map_fst_mark (kept : Bool) (ts : List Token) :
    (mark kept ts).map Prod.fst = ts := by
  rw [mark, List.map_map]
  exact List.map_id ts

@[simp] theorem refillMarks_nil : refillMarks f n [] = [] := rfl

@[simp] theorem refillMarks_cons (t : Token) (kept : Bool) :
    refillMarks f n ((t, kept) :: ms) = (t.refill (f n), kept) :: refillMarks f (n + 1) ms := rfl

@[simp] theorem refillMarks_append :
    refillMarks f n (ms ++ ms') = refillMarks f n ms ++ refillMarks f (n + ms.length) ms' := by
  induction ms generalizing n with
  | nil => rfl
  | cons m ms ih =>
    rcases m with ⟨t, kept⟩
    simp [ih, Nat.add_assoc, Nat.add_comm 1]

@[simp] theorem refillMarks_mark (kept : Bool) (ts : List Token) :
    refillMarks f n (mark kept ts) = mark kept (refill f n ts) := by
  induction ts generalizing n with
  | nil => rfl
  | cons t ts ih => simp [ih]

@[simp] theorem keptAsIs_nil : KeptAsIs f n [] := trivial

@[simp] theorem keptAsIs_cons (t : Token) (kept : Bool) :
    KeptAsIs f n ((t, kept) :: ms) ↔
      (kept = true → t.refill (f n) = t) ∧ KeptAsIs f (n + 1) ms := Iff.rfl

@[simp] theorem keptAsIs_append :
    KeptAsIs f n (ms ++ ms') ↔ KeptAsIs f n ms ∧ KeptAsIs f (n + ms.length) ms' := by
  induction ms generalizing n with
  | nil => simp
  | cons m ms ih =>
    rcases m with ⟨t, kept⟩
    simp [ih, Nat.add_assoc, Nat.add_comm 1, and_assoc]

variable {f n ms}

/-- Tokens that are as they were are marked as they were. -/
theorem refillMarks_eq_self (h : refill f n (ms.map Prod.fst) = ms.map Prod.fst) :
    refillMarks f n ms = ms := by
  induction ms generalizing n with
  | nil => rfl
  | cons m ms ih =>
    rw [List.map_cons, refill_cons, List.cons.injEq] at h
    rw [refillMarks_cons, h.1, ih h.2]

theorem keptAsIs_of_eq (h : refill f n (ms.map Prod.fst) = ms.map Prod.fst) :
    KeptAsIs f n ms := by
  induction ms generalizing n with
  | nil => trivial
  | cons m ms ih =>
    rw [List.map_cons, refill_cons, List.cons.injEq] at h
    exact ⟨fun _ => h.1, ih h.2⟩

variable {ms'} {t u : Token} {kept : Bool}

/-- Where one token is refilled, the others are as they were. -/
theorem refill_split {ts us : List Token} (h : refill f n (ts ++ t :: us) = ts ++ u :: us) :
    refill f n ts = ts ∧ t.refill (f (n + ts.length)) = u ∧
      refill f (n + ts.length + 1) us = us := by
  rw [refill_append, refill_cons] at h
  obtain ⟨hts, hmore⟩ := List.append_inj h (length_refill f n ts)
  exact ⟨hts, List.cons.inj hmore⟩

/-- **One token is refilled and keeps its mark**, and the others are as they were. -/
theorem refillMarks_split (h : refill f n ((ms ++ (t, kept) :: ms').map Prod.fst) =
    (ms ++ (u, kept) :: ms').map Prod.fst) :
    refillMarks f n (ms ++ (t, kept) :: ms') = ms ++ (u, kept) :: ms' := by
  rw [List.map_append, List.map_append] at h
  obtain ⟨hms, hu, hms'⟩ := refill_split h
  rw [List.length_map] at hu hms'
  rw [refillMarks_append, refillMarks_cons, refillMarks_eq_self hms, hu, refillMarks_eq_self hms']

/-- If the token that is refilled is dropped, what is kept is as it was. -/
theorem keptAsIs_split (h : refill f n ((ms ++ (t, false) :: ms').map Prod.fst) =
    (ms ++ (u, false) :: ms').map Prod.fst) : KeptAsIs f n (ms ++ (t, false) :: ms') := by
  rw [List.map_append, List.map_append] at h
  obtain ⟨hms, -, hms'⟩ := refill_split h
  rw [List.length_map] at hms'
  exact (keptAsIs_append f n _ _).2 ⟨keptAsIs_of_eq hms, nofun, keptAsIs_of_eq hms'⟩

variable {o}

@[simp] theorem keptPlace?_dropped (t : Token) : keptPlace? o (t, false) = none := by
  simp [keptPlace?]

theorem keptPlace?_still {t : Token} (h : t.terminal ∉ shifters) (kept : Bool) :
    keptPlace? o (t, kept) = none := by
  rcases t with ⟨l, pos⟩
  cases l <;> first | rfl | simp [Token.terminal, Lexeme.terminal] at h

@[simp] theorem keptPlace?_lexeme {l : Lexeme} (h : l.terminal ∉ [.mixinBlock, .yield])
    (pos : Position) (kept : Bool) : keptPlace? o (⟨l, pos⟩, kept) = none := by
  cases l <;> first | rfl | simp [Lexeme.terminal] at h

@[simp] theorem filterMap_keptPlace?_dropped (ts : List Token) :
    (mark false ts).filterMap (keptPlace? o) = [] := by
  simp [mark]

/-- Among still tokens there are no places. -/
@[simp] theorem Still.filterMap_keptPlace? {ts : List Token} (h : Still ts) (kept : Bool) :
    (mark kept ts).filterMap (keptPlace? o) = [] := by
  simp only [mark, List.filterMap_map, List.filterMap_eq_nil_iff]
  exact fun t ht => keptPlace?_still (h t ht) kept

@[simp] theorem Plain.keptPlace?_token (p : Plain) (kept : Bool) :
    keptPlace? o (p.token, kept) = none := keptPlace?_still p.still kept

@[simp] theorem Shorthand.keptPlace?_token (s : Shorthand) (kept : Bool) :
    keptPlace? o (s.token, kept) = none := keptPlace?_still s.still kept

@[simp] theorem Plain.filter_isPlace_headings (p : Plain) :
    (p.headings o).filter Heading.isPlace = [] := by
  cases p <;> rfl

end Marks

namespace Derivation

/-- The tokens of a derivation, each with whether it is kept: what stands behind the dot on the
line of an element is dropped, and so are the comments between the branches of a case, and the
block under an include that is put in as it is. -/
def marked (o : Options) : {s : Symbol} → Derivation s → List (Token × Bool)
  | _, .nil => []
  | _, .newline pos rest => (⟨.newline, pos⟩, true) :: rest.marked o
  | _, .item e rest => e.marked o ++ rest.marked o
  | _, .block indent items outdent =>
      (⟨.indent, indent⟩, true) :: (items.marked o ++ [(⟨.outdent, outdent⟩, true)])
  | _, .noBlock => []
  | _, .someBlock b => b.marked o
  | _, .noRegion => []
  | _, .someRegion start parts stop =>
      (⟨.startPipelessText, start⟩, true) ::
        (parts.marked o ++ [(⟨.endPipelessText, stop⟩, true)])
  | _, .endParts => []
  | _, .lineBreak _ pos rest => (⟨.newline, pos⟩, true) :: rest.marked o
  | _, .part f rest => f.marked o ++ rest.marked o
  | _, .plain p => [(p.token, true)]
  | _, .interpolated start e stop =>
      (⟨.startInterpolation, start⟩, true) ::
        (e.marked o ++ [(⟨.endInterpolation, stop⟩, true)])
  | _, .endHtml => []
  | _, .htmlNewline pos rest => (⟨.newline, pos⟩, true) :: rest.marked o
  | _, .htmlLine value pos rest => (⟨.textHtml value, pos⟩, true) :: rest.marked o
  | _, .htmlBlock b rest => b.marked o ++ rest.marked o
  | _, .noContent => []
  | _, .lineRun first rest => (first.token, true) :: rest.marked o
  | _, .lineCode c pos => [(⟨.code c, pos⟩, true)]
  | _, .colon pos e => (⟨.colon, pos⟩, true) :: e.marked o
  | _, .slash pos => [(⟨.slash, pos⟩, true)]
  | _, .nesting content newlines nested =>
      content.marked o ++ (mark true (newlineTokens newlines) ++ nested.marked o)
  | _, .textOnly pos content newlines region =>
      (⟨.dot, pos⟩, true) :: (mark false content.tokens ++
        (mark true (newlineTokens newlines) ++ region.marked o))
  | _, .expandColon pos e => (⟨.colon, pos⟩, true) :: e.marked o
  | _, .expandBlock b => b.marked o
  | _, .endBranches => []
  | _, .branchNewline pos rest => (⟨.newline, pos⟩, true) :: rest.marked o
  | _, .branchComment value buffered pos rest =>
      (⟨.comment value buffered, pos⟩, false) :: rest.marked o
  | _, .fallthrough expr pos rest => (⟨.when expr, pos⟩, true) :: rest.marked o
  | _, .when expr pos body rest =>
      (⟨.when expr, pos⟩, true) :: (body.marked o ++ rest.marked o)
  | _, .default pos body rest => (⟨.default, pos⟩, true) :: (body.marked o ++ rest.marked o)
  | _, .endAlternates => []
  | _, .elseIf newlines test pos nested rest =>
      mark true (newlineTokens newlines) ++
        (⟨.elseIf test, pos⟩, true) :: (nested.marked o ++ rest.marked o)
  | _, .otherwise newlines pos nested =>
      mark true (newlineTokens newlines) ++ (⟨.else, pos⟩, true) :: nested.marked o
  | _, .filterText name pos group value place =>
      (⟨.filter name, pos⟩, true) ::
        (mark true (Group.tokens? group) ++ [(⟨.text value, place⟩, true)])
  | _, .filterNested name pos group inner =>
      (⟨.filter name, pos⟩, true) :: (mark true (Group.tokens? group) ++ inner.marked o)
  | _, .filterRegion name pos group region =>
      (⟨.filter name, pos⟩, true) :: (mark true (Group.tokens? group) ++ region.marked o)
  | _, .tag name pos head body =>
      (⟨.tag name, pos⟩, true) :: (mark true (head.flatMap HeadItem.tokens) ++ body.marked o)
  | _, .interpolatedTag expr pos head body =>
      (⟨.interpolation expr, pos⟩, true) ::
        (mark true (head.flatMap HeadItem.tokens) ++ body.marked o)
  | _, .shorthand first head body =>
      (first.token, true) :: (mark true (head.flatMap HeadItem.tokens) ++ body.marked o)
  | _, .call name args pos head body =>
      (⟨.call name args, pos⟩, true) ::
        (mark true (head.flatMap HeadItem.tokens) ++ body.marked o)
  | _, .mixin name args pos nested => (⟨.mixin name args, pos⟩, true) :: nested.marked o
  | _, .mixinBlock pos => [(⟨.mixinBlock, pos⟩, true)]
  | _, .yield pos => [(⟨.yield, pos⟩, true)]
  | _, .namedBlock name mode pos nested => (⟨.block name mode, pos⟩, true) :: nested.marked o
  | _, .doctype value pos => [(⟨.doctype value, pos⟩, true)]
  | _, .caseOf expr pos indent branches outdent =>
      (⟨.case expr, pos⟩, true) :: (⟨.indent, indent⟩, true) ::
        (branches.marked o ++ [(⟨.outdent, outdent⟩, true)])
  | _, .parent pos path place => [(⟨.extends, pos⟩, true), (⟨.path path, place⟩, true)]
  | _, .inclusion pos filters path place nested =>
      (⟨.include, pos⟩, true) :: (mark true (filters.flatMap FilterToken.tokens) ++
        (⟨.path path, place⟩, true) ::
          if o.target (Text.trim path) = .raw then mark false nested.tokens
          else nested.marked o)
  | _, .filter f => f.marked o
  | _, .comment value buffered pos region =>
      (⟨.comment value buffered, pos⟩, true) :: region.marked o
  | _, .dot pos region => (⟨.dot, pos⟩, true) :: region.marked o
  | _, .run first rest => first.marked o ++ rest.marked o
  | _, .html value pos rest => (⟨.textHtml value, pos⟩, true) :: rest.marked o
  | _, .each iteration pos body => (⟨.each iteration, pos⟩, true) :: body.marked o
  | _, .eachElse iteration pos body place alternate =>
      (⟨.each iteration, pos⟩, true) ::
        (body.marked o ++ (⟨.else, place⟩, true) :: alternate.marked o)
  | _, .whileLoop test pos nested => (⟨.while test, pos⟩, true) :: nested.marked o
  | _, .conditional test pos nested rest =>
      (⟨.if test, pos⟩, true) :: (nested.marked o ++ rest.marked o)
  | _, .code c pos nested => (⟨.code c, pos⟩, true) :: nested.marked o
  | _, .blockCode pos region => (⟨.blockCode, pos⟩, true) :: mark true (CodeRegion.tokens? region)

attribute [local simp] marked

variable (o : Options)

@[simp] theorem map_fst_marked {s : Symbol} (d : Derivation s) :
    (d.marked o).map Prod.fst = d.tokens := by
  induction d with
  | inclusion pos filters path place nested ih =>
    simp only [marked, tokens]
    split <;> simp [ih]
  | _ => simp [tokens, *]

@[simp] theorem length_marked {s : Symbol} (d : Derivation s) :
    (d.marked o).length = d.tokens.length := by
  rw [← d.map_fst_marked o, List.length_map]

/-- **The places that are kept are those of the tree**, in their order. -/
theorem filter_isPlace_headings {s : Symbol} (d : Derivation s) :
    (d.headings o false).filter Heading.isPlace = (d.marked o).filterMap (keptPlace? o) := by
  induction d with
  | inclusion pos filters path place nested ih =>
    simp only [headings, marked]
    split <;> simp_all [Heading.isPlace, Lexeme.terminal]
  | mixinBlock pos | yield pos => rfl
  | _ =>
    simp [headings, Heading.isPlace, Lexeme.terminal, *]

/-- **What is dropped does not depend on the places.** -/
theorem marked_refill (f : Nat → Bool) {s : Symbol} (d : Derivation s) :
    ∀ n, (d.refill f n).marked o = refillMarks f n (d.marked o) := by
  induction d with
  | mixinBlock pos | yield pos =>
    intro n
    cases h : f n <;> simp [refill, Token.refill, h]
  | inclusion pos filters path place nested ih =>
    intro n
    simp only [refill, marked]
    split <;> simp [ih, Lexeme.terminal]
  | _ =>
    intro n
    simp [refill, Lexeme.terminal, *]

theorem selfClosing_refill {o : Options} (f : Nat → Bool) (n : Nat) {closable : Bool}
    (content : Derivation (.content closable)) (loc : Location) :
    ((content.refill f n).meaning o loc).selfClosing = (content.meaning o loc).selfClosing := by
  cases content <;> rfl

/-- **A place that is dropped can be refilled without a change of the tree.** -/
theorem meaning_refill {o : Options} {f : Nat → Bool} {s : Symbol} (d : Derivation s) :
    ∀ n, KeptAsIs f n (d.marked o) → (d.refill f n).meaning o = d.meaning o := by
  induction d with
  | mixinBlock pos | yield pos =>
    intro n h
    cases hf : f n <;> simp_all [refill, meaning, Token.refill]
  | inclusion pos filters path place nested ih =>
    intro n h
    by_cases htarget : o.target (Text.trim path) = .raw <;>
      simp_all [refill, meaning]
  | textOnly pos content newlines region _ ih =>
    -- Of what stands behind the dot, nothing but a slash is seen later.
    intro n h
    simp only [marked, keptAsIs_cons, keptAsIs_append, length_mark, length_newlineTokens] at h
    simp only [refill, meaning, ih _ h.2.2.2, selfClosing_refill]
  | _ =>
    intro n h
    simp only [marked, keptAsIs_cons, keptAsIs_append, length_marked, length_mark,
      length_newlineTokens] at h
    simp only [refill, meaning, tokens_refill, Layout.keeps_refill, fragmentStart_refill, *]

/-- **The places of the tree of a derivation** are those of its tokens that are kept. -/
theorem places_meaning (o : Options) (d : Derivation .items) :
    Block.places ⟨d.meaning o, ⟨.whole, o.filename⟩⟩ = (d.marked o).filterMap (keptPlace? o) := by
  rw [← filter_isPlace_headings, ← d.headingsBelow_meaning o ⟨.whole, o.filename⟩ .empty]
  rfl

end Derivation
end Pug
