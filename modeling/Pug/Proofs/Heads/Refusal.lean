/-
# Heads that repeat a name

In the tokens of a head each shorthand and each attribute has a name. A reading of a head keeps
the attributes read so far, and goes on as long as they are fresh: the first token that
repeats a name is the one at which it is refused, whatever comes behind that token. This is shown
for the attributes of one group and, with the same invariant, for the items of a head.
-/

import Pug.Proofs.Reading.Failure
import Pug.Proofs.Reading.Attributes

namespace Pug

open Grammar Reader

namespace Token

/-- The name of a token in a head. -/
def headName? (t : Token) : Option String :=
  match t.lexeme with
  | .idName _ => some "id"
  | .className _ => some "class"
  | .attribute name _ _ => some name
  | _ => none

/-- The attribute that a token of a head gives. -/
def attribute? (o : Options) (t : Token) : Option Attribute :=
  match t.lexeme with
  | .idName value => some ⟨"id", value, false, o.place t.pos⟩
  | .className value => some ⟨"class", value, false, o.place t.pos⟩
  | .attribute name value escaped => some ⟨name, value, escaped, o.place t.pos⟩
  | _ => none

/-- The spread that a token of a head gives. -/
def spread? (o : Options) (t : Token) : Option Spread :=
  match t.lexeme with
  | .andAttributes expr => some ⟨expr, o.place t.pos⟩
  | _ => none

theorem map_name_attribute? (o : Options) (t : Token) :
    (t.attribute? o).map Attribute.name = t.headName? := by
  rcases t with ⟨l, pos⟩
  cases l <;> rfl

end Token

/-- No name but `class` is that of two tokens. -/
def Unrepeated (ts : List Token) : Prop :=
  ((ts.filterMap Token.headName?).filter (· ≠ "class")).Nodup

instance (ts : List Token) : Decidable (Unrepeated ts) := List.nodupDecidable _

theorem map_name_filterMap (o : Options) (ts : List Token) :
    (ts.filterMap (Token.attribute? o)).map Attribute.name = ts.filterMap Token.headName? := by
  rw [List.map_filterMap]
  exact congrArg (ts.filterMap ·) (funext (Token.map_name_attribute? o))

/-- **Tokens repeat no name exactly when their attributes are fresh.** -/
theorem fresh_attribute?_iff (o : Options) (ts : List Token) :
    Fresh (ts.filterMap (Token.attribute? o)) ↔ Unrepeated ts := by
  rw [Fresh, Unrepeated, map_name_filterMap]

section Entries

variable (o : Options)

theorem filterMap_attributeTokens (start stop : Position) (as : List AttributeToken) :
    (attributeTokens as).filterMap (Token.attribute? o) = Group.listed o ⟨start, as, stop⟩ := by
  induction as with
  | nil => rfl
  | cons a as ih => exact congrArg (_ :: ·) ih

/-- **The attributes of a group are those that its tokens give.** -/
theorem Group.filterMap_tokens (g : Group) :
    g.tokens.filterMap (Token.attribute? o) = g.listed o := by
  rcases g with ⟨start, as, stop⟩
  change ((_ :: (attributeTokens as ++ [_])).filterMap (Token.attribute? o)) = _
  rw [List.filterMap_cons_none (by rfl), List.filterMap_append,
    filterMap_attributeTokens o start stop as]
  exact List.append_nil _

/-- No token of a group gives a spread. -/
theorem Group.filterMap_spread?_tokens (g : Group) :
    g.tokens.filterMap (Token.spread? o) = [] := by
  rw [List.filterMap_eq_nil_iff]
  intro t ht
  simp only [tokens, List.mem_cons, List.mem_append, List.mem_map, List.not_mem_nil, or_false]
    at ht
  rcases ht with rfl | ⟨a, -, rfl⟩ | rfl <;> rfl

theorem HeadItem.filterMap_tokens (item : HeadItem) :
    item.tokens.filterMap (Token.attribute? o) = item.listed o := by
  cases item with
  | shorthand s => cases s <;> rfl
  | andAttributes expr pos => rfl
  | group g => exact g.filterMap_tokens o

theorem HeadItem.filterMap_spread?_tokens (item : HeadItem) :
    item.tokens.filterMap (Token.spread? o) = item.spreads o := by
  cases item with
  | shorthand s => cases s <;> rfl
  | andAttributes expr pos => rfl
  | group g => exact g.filterMap_spread?_tokens o

/-- **The attributes and spreads of a head are those that its tokens give,** each in its order. -/
theorem HeadItem.attributes_eq (head : List HeadItem) :
    attributes o head = ⟨(head.flatMap tokens).filterMap (Token.attribute? o),
      (head.flatMap tokens).filterMap (Token.spread? o)⟩ := by
  rw [attributes, List.filterMap_flatMap, List.filterMap_flatMap]
  simp only [filterMap_tokens, filterMap_spread?_tokens]

/-- **A head is distinct exactly when its tokens repeat no name.** -/
theorem HeadItem.distinct_iff (head : List HeadItem) :
    Distinct head ↔ Unrepeated (head.flatMap tokens) := by
  rw [← fresh_attributes .default, attributes_eq]
  exact fresh_attribute?_iff .default _

end Entries

namespace Reader

variable {α β σ : Type} {o : Options} {attrs : List Attribute} {m : Reader α} {k : α → Reader β}
  {ts us ws : List Token} {t : Token} {a : Attribute} {events : List Event}

/-- Behind the attributes `attrs`, `m` goes past the tokens `us`, whose names are new, and is
refused at `t`, which repeats a name. -/
structure RefusedAt (o : Options) (attrs : List Attribute) (m : Reader α) (us : List Token)
    (t : Token) (a : Attribute) : Prop where
  gives : t.attribute? o = some a
  fresh : Fresh (attrs ++ us.filterMap (Token.attribute? o))
  repeated : repeats (attrs ++ us.filterMap (Token.attribute? o)) a.name = true
  fails : ∀ rest, ∃ events,
    m.Fails o (us ++ t :: rest) ⟨repetition a.name, o.place t.pos⟩ events

/-- Behind the attributes `attrs`, `m` is refused at the first one of the tokens `ts` that repeats a
name. -/
def Refuses (o : Options) (attrs : List Attribute) (m : Reader α) (ts : List Token) : Prop :=
  ∃ us t vs a, ts = us ++ t :: vs ∧ RefusedAt o attrs m us t a

namespace Refuses

/-- A reader is refused at the first token. -/
theorem here (hgives : t.attribute? o = some a) (hfresh : Fresh attrs)
    (hrepeated : repeats attrs a.name = true)
    (hfails : ∀ rest, m.Fails o (t :: rest) ⟨repetition a.name, o.place t.pos⟩ events)
    (ts : List Token) : Refuses o attrs m (t :: ts) := by
  have hnil : attrs ++ [].filterMap (Token.attribute? o) = attrs := List.append_nil attrs
  exact ⟨[], t, ts, a, rfl, hgives, hnil.symm ▸ hfresh, hnil.symm ▸ hrepeated,
    fun rest => ⟨events, hfails rest⟩⟩

/-- A reader is refused where another one is, if it fails where that one fails. -/
theorem lift {m' : Reader β} (h : Refuses o attrs m ts)
    (hm : ∀ {us e events}, m.Fails o us e events → ∃ events', m'.Fails o us e events') :
    Refuses o attrs m' ts := by
  obtain ⟨us, t, vs, a, rfl, h⟩ := h
  refine ⟨us, t, vs, a, rfl, h.gives, h.fresh, h.repeated, fun rest => ?_⟩
  obtain ⟨events, hfails⟩ := h.fails rest
  exact hm hfails

theorem bind (h : Refuses o attrs m ts) : Refuses o attrs (m >>= k) ts :=
  h.lift fun hfails => ⟨_, hfails.bind⟩

theorem locate_bind {pos : Position} {k : Location → Reader β}
    (h : Refuses o attrs (k (o.place pos)) ts) : Refuses o attrs (locate pos >>= k) ts :=
  h.lift fun hfails => ⟨_, hfails.locate_bind⟩

theorem emitIf_bind {condition : Bool} {event : Event} {k : Unit → Reader β}
    (h : Refuses o attrs (k ()) ts) : Refuses o attrs (emitIf condition event >>= k) ts :=
  h.lift fun hfails => ⟨_, hfails.emitIf_bind⟩

theorem append (h : Refuses o attrs m ts) (more : List Token) :
    Refuses o attrs m (ts ++ more) := by
  obtain ⟨us, t, vs, a, rfl, h⟩ := h
  exact ⟨us, t, vs ++ more, a, List.append_assoc us _ more, h⟩

/-- **A sequence is refused where its second reader is,** behind the attributes of what the first
one takes. -/
theorem behind {s : α} (hm : ∀ rest, m.Takes o ws rest s events)
    (h : Refuses o (attrs ++ ws.filterMap (Token.attribute? o)) (k s) ts) :
    Refuses o attrs (m >>= k) (ws ++ ts) := by
  obtain ⟨us, t, vs, a, rfl, h⟩ := h
  have hattrs : attrs ++ (ws ++ us).filterMap (Token.attribute? o) =
      attrs ++ ws.filterMap (Token.attribute? o) ++ us.filterMap (Token.attribute? o) := by
    rw [List.filterMap_append, List.append_assoc]
  refine ⟨ws ++ us, t, vs, a, (List.append_assoc ws us _).symm, h.gives, ?_, ?_,
    fun rest => ?_⟩
  · rw [hattrs]
    exact h.fresh
  · rw [hattrs]
    exact h.repeated
  · obtain ⟨events, hfails⟩ := h.fails rest
    rw [List.append_assoc]
    exact ⟨_, .behind (hm (us ++ t :: rest)) hfails⟩

/-- The current token is the first one. -/
theorem peek_bind {k : Token → Reader β} (h : Refuses o attrs (k t) (t :: ts)) :
    Refuses o attrs (peek >>= k) (t :: ts) := by
  obtain ⟨us, t', vs, a, hts, h⟩ := h
  refine ⟨us, t', vs, a, hts, h.gives, h.fresh, h.repeated, fun rest => ?_⟩
  obtain ⟨events, hfails⟩ := h.fails rest
  cases us with
  | nil =>
    obtain ⟨rfl, -⟩ := List.cons.inj hts
    exact ⟨events, hfails.peek_bind⟩
  | cons u us =>
    obtain ⟨rfl, -⟩ := List.cons.inj hts
    exact ⟨events, hfails.peek_bind⟩

section Iterate

variable {step : σ → Reader (Option σ)} {state next : σ} {rounds : Nat}

/-- A loop is refused in a round. -/
theorem iterate_here (hr : 0 < rounds) (h : Refuses o attrs (step state) ts) :
    Refuses o attrs (iterate step rounds state) ts := by
  obtain ⟨rounds, rfl⟩ := Nat.exists_eq_succ_of_ne_zero (Nat.pos_iff_ne_zero.1 hr)
  exact h.bind

/-- A loop is refused behind a round. -/
theorem iterate_behind (hr : 0 < rounds)
    (hstep : ∀ rest, (step state).Takes o ws rest (some next) events)
    (h : Refuses o (attrs ++ ws.filterMap (Token.attribute? o))
      (iterate step (rounds - 1) next) ts) :
    Refuses o attrs (iterate step rounds state) (ws ++ ts) := by
  obtain ⟨rounds, rfl⟩ := Nat.exists_eq_succ_of_ne_zero (Nat.pos_iff_ne_zero.1 hr)
  exact .behind hstep h

end Iterate
end Refuses
end Reader

namespace Grammar

variable {o : Options} {rounds more : Nat} {attrs : List Attribute} {ts : List Token}

theorem repeats_of_not_fresh {a : Attribute} (hf : Fresh attrs) (h : ¬ Fresh (attrs ++ [a])) :
    repeats attrs a.name = true := by
  rwa [fresh_append_singleton hf, Bool.not_eq_false] at h

theorem fails_addDistinct {a : Attribute} (h : repeats attrs a.name = true) :
    (addDistinct attrs a).Fails o ts ⟨repetition a.name, o.place a.loc.toPosition⟩ [] := by
  intro finish
  simp [addDistinct, h, Options.place]

theorem fails_groupItem {a : AttributeToken} (h : repeats attrs a.name = true) :
    (groupItem true attrs).Fails o (⟨.attribute a.name a.value a.escaped, a.pos⟩ :: ts)
      ⟨repetition a.name, o.place a.pos⟩ [] := by
  intro finish
  simp [groupItem, addDistinct, h, Options.place]

/-- **A group is refused at its first attribute that repeats a name,** be it one of the group or one
in front of it. -/
theorem refuses_groupItems (start stop : Position) (as : List AttributeToken)
    (hr : as.length ≤ rounds) (hf : Fresh attrs)
    (h : ¬ Fresh (attrs ++ Group.listed o ⟨start, as, stop⟩)) :
    Refuses o attrs (iterate (groupItem true) rounds attrs) (attributeTokens as) := by
  induction as generalizing rounds attrs with
  | nil => exact absurd ((List.append_nil attrs).symm ▸ hf) h
  | cons a as ih =>
    rw [attributeTokens_cons]
    have hlisted : attrs ++ Group.listed o ⟨start, a :: as, stop⟩ =
        (attrs ++ [⟨a.name, a.value, a.escaped, o.place a.pos⟩]) ++
          Group.listed o ⟨start, as, stop⟩ := by
      simp [Group.listed]
    rw [hlisted] at h
    have hpos : 0 < rounds := Nat.lt_of_lt_of_le (Nat.succ_pos _) hr
    by_cases hfresh : Fresh (attrs ++ [⟨a.name, a.value, a.escaped, o.place a.pos⟩])
    · have hrest := ih (Nat.le_sub_one_of_lt hr) hfresh h
      exact .iterate_behind hpos (fun rest => takes_groupItem rest true attrs a fun _ => hfresh)
        hrest
    · have hrepeated := repeats_of_not_fresh hf hfresh
      exact .iterate_here hpos
        (.here (by rfl) hf hrepeated (fun rest => fails_groupItem hrepeated) _)

theorem refuses_group {g : Group} (hr : g.tokens.length ≤ rounds) (hf : Fresh attrs)
    (h : ¬ Fresh (attrs ++ g.listed o)) : Refuses o attrs (group rounds true attrs) g.tokens := by
  rcases g with ⟨start, as, stop⟩
  have hlen : as.length ≤ rounds := by
    simp only [Group.tokens, List.length_cons, List.length_append, List.length_map] at hr
    omega
  have hstart : ∀ rest, (expect .startAttributes).Takes o [⟨.startAttributes, start⟩] rest
      ⟨.startAttributes, start⟩ [] := fun rest finish => rfl
  have hitems := refuses_groupItems start stop as hlen hf h
  exact .behind hstart ((List.append_nil attrs).symm ▸ (hitems.bind.append _))

/-- **A head is refused in the item that repeats a name.** -/
theorem refuses_headItem {item : HeadItem} (hr : item.tokens.length ≤ rounds) {head : Head}
    (hf : Fresh head.listed) (h : ¬ Fresh (head.listed ++ item.listed o)) :
    Refuses o head.listed (headItem rounds head) item.tokens := by
  cases item with
  | shorthand s =>
    cases s with
    | idName value pos =>
      have hrepeated := repeats_of_not_fresh hf h
      exact .here (by rfl) hf hrepeated
        (fun rest => .peek_bind (.locate_bind (.skip_bind (fails_addDistinct hrepeated).bind))) []
    | className value pos =>
      have hrepeated := repeats_of_not_fresh hf h
      exact .here (by rfl) hf hrepeated
        (fun rest => .peek_bind (.locate_bind (.skip_bind (fails_addDistinct hrepeated).bind))) []
  | andAttributes expr pos => exact absurd ((List.append_nil head.listed).symm ▸ hf) h
  | group g =>
    exact .peek_bind (.locate_bind (.emitIf_bind (refuses_group hr hf h).bind))

/-- **A head is refused at the first token that repeats a name,** be it one of the same item or one
in front of it. -/
theorem refuses_iterate_headItem (items : List HeadItem)
    (hr : (items.flatMap HeadItem.tokens).length ≤ rounds)
    (hm : (items.flatMap HeadItem.tokens).length ≤ more) {head : Head} (hf : Fresh head.listed)
    (h : ¬ Fresh (head.listed ++ items.flatMap (HeadItem.listed o))) :
    Refuses o head.listed (iterate (headItem more) rounds head)
      (items.flatMap HeadItem.tokens) := by
  induction items generalizing rounds head with
  | nil => exact absurd ((List.append_nil head.listed).symm ▸ hf) h
  | cons item items ih =>
    rw [List.flatMap_cons, List.length_append] at hr hm
    rw [List.flatMap_cons, ← List.append_assoc] at h
    rw [List.flatMap_cons]
    have hpos : 0 < item.tokens.length := by
      cases item <;> simp [HeadItem.tokens, Group.tokens]
    by_cases hfresh : Fresh (head.listed ++ item.listed o)
    · refine .iterate_behind (by omega) (fun rest => takes_headItem item (by omega) head hfresh) ?_
      have hrest : Refuses o (head.add o item).listed
          (iterate (headItem more) (rounds - 1) (head.add o item))
          (items.flatMap HeadItem.tokens) := ih (by omega) (by omega) hfresh h
      rwa [item.filterMap_tokens]
    · exact .append (.iterate_here (by omega) (refuses_headItem (by omega) hf hfresh)) _

/-- **The attributes of an opener are refused** if their names are not distinct. -/
theorem refuses_attributes {head : List HeadItem} (hd : ¬ HeadItem.Distinct head)
    (hr : (head.flatMap HeadItem.tokens).length ≤ rounds) :
    Refuses o [] (attributes rounds) (head.flatMap HeadItem.tokens) := by
  have hf : ¬ Fresh (Head.empty.listed ++ head.flatMap (HeadItem.listed o)) := fun h =>
    hd ((HeadItem.fresh_attributes o head).1 h)
  have hempty : Fresh Head.empty.listed := List.nodup_nil
  exact (refuses_iterate_headItem head hr hr hempty hf).bind

end Grammar
end Pug
