/-
# What heads and groups of attributes take

The attributes read so far are kept in a list, and a name that is refused is one
that the list has. A list is `Fresh` if no name but `class` occurs in it twice, and
a head is done exactly when the list of all its attributes is fresh, which is to say
that the head is `HeadItem.Distinct`. The token behind the attributes of a group is
put back and taken again, so that a group leaves nothing put back.
-/

import Pug.Grammar.Attributes
import Pug.Proofs.Reading.Basic

namespace Pug

open Grammar Reader

/-- No name but `class` occurs twice in a list of attributes. -/
def Fresh (attrs : List Attribute) : Prop :=
  ((attrs.map Attribute.name).filter (· ≠ "class")).Nodup

theorem Fresh.of_append {attrs more : List Attribute} (h : Fresh (attrs ++ more)) :
    Fresh attrs := by
  unfold Fresh at h ⊢
  rw [List.map_append, List.filter_append] at h
  exact (List.nodup_append.1 h).1

/-- **A name is refused exactly when it would occur twice.** -/
theorem fresh_append_singleton {attrs : List Attribute} (h : Fresh attrs) (a : Attribute) :
    Fresh (attrs ++ [a]) ↔ repeats attrs a.name = false := by
  unfold Fresh at h ⊢
  rw [List.map_append, List.filter_append]
  by_cases hc : a.name = "class"
  · simpa [repeats, hc] using h
  · simp only [h, List.nodup_append, List.map_cons, List.map_nil, List.filter_cons, hc, repeats,
      List.any_eq_false, ne_eq, not_false_eq_true, decide_true, if_true, List.filter_nil,
      Bool.true_and, List.mem_filter, List.mem_map, List.mem_singleton, decide_eq_true_eq,
      true_and, List.nodup_cons, List.not_mem_nil, List.nodup_nil, and_self, and_imp, forall_eq,
      forall_exists_index]
    constructor
    · intro hn b hb hba
      exact hn b.name b hb rfl (hba ▸ hc) hba
    · rintro hn _ b hb rfl - hba
      exact hn b hb hba

theorem HeadItem.map_name_listed (o : Options) (item : HeadItem) :
    (item.listed o).map Attribute.name = item.names := by
  cases item with
  | shorthand s => cases s <;> rfl
  | andAttributes expr pos => rfl
  | group g => simp [listed, Group.listed, names]

/-- **The list of a head is fresh exactly when the head is distinct.** -/
theorem HeadItem.fresh_attributes (o : Options) (head : List HeadItem) :
    Fresh (attributes o head).listed ↔ Distinct head := by
  simp [Fresh, attributes, Distinct, List.map_flatMap, map_name_listed]

namespace HeadItem

/-- Whether an item of a head is a group. -/
def isGroup : HeadItem → Bool
  | .group _ => true
  | _ => false

theorem trail_cons (o : Options) (grouped : Bool) (item : HeadItem) (head : List HeadItem) :
    trail o grouped (item :: head) =
      trail o grouped [item] ++ trail o (grouped || item.isGroup) head := by
  cases item <;> simp [trail, isGroup]

end HeadItem

namespace Grammar

/-- The part of a head that is read when one more item is. -/
def Head.add (o : Options) (head : Head) (item : HeadItem) : Head where
  listed := head.listed ++ item.listed o
  spreads := head.spreads ++ item.spreads o
  grouped := head.grouped || item.isGroup

theorem Head.add_listed (o : Options) (head : Head) (item : HeadItem)
    (hs : item.spreads o = []) (hg : item.isGroup = false) :
    head.add o item = { head with listed := head.listed ++ item.listed o } := by
  simp [add, hs, hg]

theorem Head.toAttributes_foldl_add (o : Options) (items : List HeadItem) (head : Head) :
    (items.foldl (add o) head).toAttributes =
      ⟨head.listed ++ items.flatMap (HeadItem.listed o),
        head.spreads ++ items.flatMap (HeadItem.spreads o)⟩ := by
  induction items generalizing head with
  | nil => simp
  | cons item items ih => simp [ih, add]

section Takes

variable {o : Options} {rest : List Token} {rounds : Nat}

theorem run_addDistinct {attrs : List Attribute} {a : Attribute} (h : Fresh (attrs ++ [a]))
    (c : Cursor) : (addDistinct attrs a).run o c = ⟨.done (attrs ++ [a]) c, []⟩ := by
  have hr := (fresh_append_singleton h.of_append a).1 h
  simp [addDistinct, hr]

theorem takes_addDistinct (rest : List Token) {attrs : List Attribute} {a : Attribute}
    (h : Fresh (attrs ++ [a])) :
    (addDistinct attrs a).Takes o [] rest (attrs ++ [a]) [] :=
  fun _ => run_addDistinct h _

/-- The tokens of attributes. -/
def attributeTokens (attrs : List AttributeToken) : List Token :=
  attrs.map fun a => ⟨.attribute a.name a.value a.escaped, a.pos⟩

theorem attributeTokens_cons (a : AttributeToken) (as : List AttributeToken) :
    attributeTokens (a :: as) =
      [⟨.attribute a.name a.value a.escaped, a.pos⟩] ++ attributeTokens as := rfl

/-- **A group takes an attribute** whose name it does not refuse. -/
theorem takes_groupItem (rest : List Token) (distinct : Bool) (attrs : List Attribute)
    (a : AttributeToken) (hf : distinct = true →
      Fresh (attrs ++ [⟨a.name, a.value, a.escaped, o.place a.pos⟩])) :
    (groupItem distinct attrs).Takes o [⟨.attribute a.name a.value a.escaped, a.pos⟩] rest
      (some (attrs ++ [⟨a.name, a.value, a.escaped, o.place a.pos⟩])) [] := by
  intro finish
  cases distinct with
  | false => simp [groupItem, Options.place]
  | true =>
    have hadd := run_addDistinct (o := o) (hf rfl)
    simp only [Options.place] at hadd
    simp [groupItem, hadd, Options.place]

/-- The loop of a group takes its attributes and puts the delimiter back. -/
theorem run_iterate_groupItem (distinct : Bool) (as : List AttributeToken) (stop : Position)
    (hr : as.length < rounds) (attrs : List Attribute)
    (hf : distinct = true → Fresh (attrs ++ Group.listed o ⟨stop, as, stop⟩))
    (finish : Position) :
    (iterate (groupItem distinct) rounds attrs).run o
        (.before finish (attributeTokens as ++ ⟨.endAttributes, stop⟩ :: rest)) =
      ⟨.done (attrs ++ Group.listed o ⟨stop, as, stop⟩)
        ⟨[⟨.endAttributes, stop⟩], rest, finish⟩, [.deferred 1]⟩ := by
  induction as generalizing rounds attrs with
  | nil =>
    obtain ⟨rounds, rfl⟩ := Nat.exists_eq_succ_of_ne_zero (by omega : rounds ≠ 0)
    simp [attributeTokens, iterate, groupItem, Group.listed, Run.after, Cursor.before,
      Cursor.defer, Cursor.peek, Cursor.advance, Cursor.lookahead]
  | cons a as ih =>
    obtain ⟨rounds, rfl⟩ := Nat.exists_eq_succ_of_ne_zero (by omega : rounds ≠ 0)
    have hlisted : attrs ++ Group.listed o ⟨stop, a :: as, stop⟩ =
        (attrs ++ [⟨a.name, a.value, a.escaped, o.place a.pos⟩]) ++
          Group.listed o ⟨stop, as, stop⟩ := by
      simp [Group.listed]
    rw [hlisted] at hf ⊢
    have hrest := ih (by simpa using hr : as.length < rounds) _ hf
    have hitem := takes_groupItem (attributeTokens as ++ ⟨.endAttributes, stop⟩ :: rest) distinct
      attrs a (fun h => (hf h).of_append) finish
    rw [attributeTokens_cons, List.append_assoc]
    simp only [iterate, run_bind]
    rw [hitem, Run.andThen_done, Run.after_nil]
    exact hrest

theorem takes_group (rest : List Token) (distinct : Bool) (g : Group)
    (hr : g.tokens.length ≤ rounds)
    (attrs : List Attribute) (hf : distinct = true → Fresh (attrs ++ g.listed o)) :
    (group rounds distinct attrs).Takes o g.tokens rest (attrs ++ g.listed o) [.deferred 1] := by
  rcases g with ⟨start, as, stop⟩
  have hlen : as.length < rounds := by
    simp only [Group.tokens, List.length_cons, List.length_append, List.length_map,
      List.length_nil] at hr
    omega
  intro finish
  have hstart : (expect .startAttributes).run o
      (.before finish (Group.tokens ⟨start, as, stop⟩ ++ rest)) =
        ⟨.done ⟨.startAttributes, start⟩
          (.before finish (attributeTokens as ++ ⟨.endAttributes, stop⟩ :: rest)), []⟩ := by
    simp only [Group.tokens, List.cons_append, List.append_assoc, List.nil_append, run_expect]
    rfl
  have hstop : (expect .endAttributes).run o ⟨[⟨.endAttributes, stop⟩], rest, finish⟩ =
      ⟨.done ⟨.endAttributes, stop⟩ (.before finish rest), []⟩ := by
    rw [run_expect]
    rfl
  simp only [group, groupTail, run_bind, hstart,
    run_iterate_groupItem distinct as stop hlen attrs hf, hstop, Run.andThen_done, run_pure,
    Run.after_nil]
  rfl

theorem takes_filterAttributes (g : Option Group) (hr : (Group.tokens? g).length ≤ rounds)
    (hnext : g.isNone → (Lookahead.of rest).next ≠ .startAttributes) :
    (filterAttributes rounds).Takes o (Group.tokens? g) rest (Group.listed? o g)
      (Group.trail? g) := by
  cases g with
  | none =>
    refine .overlook_bind ?_ .pure
    exact hnext rfl
  | some g => exact .see_bind (by rfl) (takes_group rest false g hr [] (by simp))

theorem takes_headItem (item : HeadItem) (hr : item.tokens.length ≤ rounds) (head : Head)
    (hf : Fresh (head.listed ++ item.listed o)) :
    (headItem rounds head).Takes o item.tokens rest (some (head.add o item))
      (HeadItem.trail o head.grouped [item]) := by
  cases item with
  | shorthand s =>
    rw [Head.add_listed o head (.shorthand s) rfl rfl]
    cases s with
    | idName value pos =>
      exact .peek_bind (.locate_bind (.skip_bind (takes_addDistinct rest hf).bind_pure))
    | className value pos =>
      exact .peek_bind (.locate_bind (.skip_bind (takes_addDistinct rest hf).bind_pure))
  | andAttributes expr pos =>
    rw [show head.add o (.andAttributes expr pos) =
      { head with spreads := head.spreads ++ [⟨expr, o.place pos⟩] } by
        simp [Head.add, HeadItem.listed, HeadItem.spreads, HeadItem.isGroup]]
    exact .peek_bind (.locate_bind (.skip_bind .pure))
  | group g =>
    rw [show head.add o (.group g) =
      { head with listed := head.listed ++ g.listed o, grouped := true } by
        simp [Head.add, HeadItem.listed, HeadItem.spreads, HeadItem.isGroup]]
    exact .peek_bind (.locate_bind
      (.emitIf_bind (takes_group rest true g hr head.listed fun _ => hf).bind_pure))

theorem takes_headItem_none (hnext : (Lookahead.of rest).next ∉ headStarts) (head : Head) :
    (headItem rounds head).Takes o [] rest none [] := by
  refine .next_bind fun t ht => .locate_bind ?_
  have hstart := Lookahead.terminal_ne ht hnext
  split
  · rename_i h
    exact absurd (congrArg Lexeme.terminal h) (hstart .idName (by decide))
  · rename_i h
    exact absurd (congrArg Lexeme.terminal h) (hstart .className (by decide))
  · rename_i h
    exact absurd (congrArg Lexeme.terminal h) (hstart .andAttributes (by decide))
  · rename_i h
    exact absurd (congrArg Lexeme.terminal h) (hstart .startAttributes (by decide))
  · exact .pure

theorem takes_iterate_headItem {more : Nat} (items : List HeadItem)
    (hr : (items.flatMap HeadItem.tokens).length < rounds)
    (hm : (items.flatMap HeadItem.tokens).length ≤ more) (head : Head)
    (hf : Fresh (head.listed ++ items.flatMap (HeadItem.listed o)))
    (hnext : (Lookahead.of rest).next ∉ headStarts) :
    (iterate (headItem more) rounds head).Takes o (items.flatMap HeadItem.tokens) rest
      (items.foldl (Head.add o) head) (HeadItem.trail o head.grouped items) := by
  induction items generalizing rounds head with
  | nil => exact .iterate_none (by omega) (takes_headItem_none hnext head)
  | cons item items ih =>
    rw [List.flatMap_cons, List.length_append] at hr hm
    rw [List.flatMap_cons, ← List.append_assoc] at hf
    have hpos : 0 < item.tokens.length := by
      cases item <;> simp [HeadItem.tokens, Group.tokens]
    rw [List.flatMap_cons, HeadItem.trail_cons]
    exact .iterate_some (by omega) (takes_headItem item (by omega) head hf.of_append)
      (ih (by omega) (by omega) (head.add o item) hf)

theorem takes_attributes (items : List HeadItem)
    (hr : (items.flatMap HeadItem.tokens).length < rounds) (hd : HeadItem.Distinct items)
    (hnext : (Lookahead.of rest).next ∉ headStarts) :
    (attributes rounds).Takes o (items.flatMap HeadItem.tokens) rest
      (HeadItem.attributes o items) (HeadItem.trail o false items) := by
  have hf : Fresh (Head.empty.listed ++ items.flatMap (HeadItem.listed o)) :=
    (HeadItem.fresh_attributes o items).2 hd
  have h := takes_iterate_headItem items hr (Nat.le_of_lt hr) .empty hf hnext
  have hvalue : (items.foldl (Head.add o) .empty).toAttributes = HeadItem.attributes o items :=
    Head.toAttributes_foldl_add o items .empty
  exact hvalue ▸ h.bind_pure

end Takes

section Ensures

variable {ts : List Token} {rounds : Nat}

theorem ensures_addDistinct (attrs : List Attribute) (a : Attribute) :
    (addDistinct attrs a).Ensures ts fun attrs' rest =>
      rest = ts ∧ attrs' = attrs ++ [a] ∧ (Fresh attrs → Fresh attrs') := by
  unfold addDistinct
  split
  · exact .reject
  · rename_i h
    exact .pure ⟨rfl, rfl, fun hf => (fresh_append_singleton hf a).2 (by simpa using h)⟩

/-- What is no attribute is put back. -/
theorem run_groupItem_none {c : Cursor} (h : c.peek.terminal ≠ .attribute) (o : Options)
    (distinct : Bool) (attrs : List Attribute) :
    (groupItem distinct attrs).run o c =
      ⟨.done none (c.advance.defer c.peek), [.deferred (c.advance.deferred.length + 1)]⟩ := by
  simp only [groupItem, run_bind, run_advance, run_locate, Run.andThen_done]
  split
  · rename_i hl
    exact absurd (congrArg Lexeme.terminal hl) h
  · simp [Run.after]

/-- The delimiter of a group is expected whether or not it was put back. -/
theorem run_groupTail (distinct : Bool) (attrs : List Attribute)
    (h : (Lookahead.of ts).next ≠ .attribute) (finish : Position) :
    (groupTail (rounds + 1) distinct attrs).run o (.before finish ts) =
      ((do
        let _ ← expect .endAttributes
        return attrs).run o (.before finish ts)).after [.deferred 1] := by
  have hpeek : (Cursor.before finish ts).peek.terminal ≠ .attribute := by simpa using h
  have hback : ((Cursor.before finish ts).advance.defer (Cursor.before finish ts).peek).peek =
      (Cursor.before finish ts).peek := by
    cases ts <;> rfl
  have hagain : ((Cursor.before finish ts).advance.defer
      (Cursor.before finish ts).peek).advance = (Cursor.before finish ts).advance := by
    cases ts <;> rfl
  simp only [groupTail, iterate, run_bind, run_groupItem_none hpeek, Run.andThen_done, run_pure,
    Run.andThen_after, run_expect, hback, hagain]
  cases ts <;> simp [Cursor.before, Cursor.advance, Run.after]

theorem ensures_groupItem_attribute (distinct : Bool) (attrs : List Attribute)
    (name value : String) (escaped : Bool) (pos : Position) :
    (groupItem distinct attrs).Ensures (⟨.attribute name value escaped, pos⟩ :: ts)
      fun x rest => rest = ts ∧ ∃ attrs', x = some attrs' ∧
        attrs'.map Attribute.name = attrs.map Attribute.name ++ [name] ∧
        (distinct = true → Fresh attrs → Fresh attrs') := by
  unfold groupItem advance
  rw [bind_assoc]
  refine .peek_bind (fun h => absurd h (List.cons_ne_nil _ _)) fun l pos us hts => ?_
  obtain ⟨⟨rfl, rfl⟩, rfl⟩ : (_ ∧ _) ∧ _ := by simpa using hts
  rw [bind_assoc]
  refine .skip_bind ?_
  rw [pure_bind]
  refine .locate_bind fun loc => ?_
  cases distinct with
  | false => exact .pure ⟨rfl, _, rfl, by simp, by simp⟩
  | true =>
    refine (ensures_addDistinct attrs _).bind fun attrs' rest h => .pure ?_
    rcases h with ⟨rfl, rfl, hf⟩
    exact ⟨rfl, _, rfl, by simp, fun _ => hf⟩

/-- **What a group takes from its attributes on is a list of them and the delimiter,**
which was put back and is taken again. -/
theorem ensures_groupTail (distinct : Bool) (attrs : List Attribute) :
    (groupTail rounds distinct attrs).Ensures ts fun attrs' rest => ∃ as stop,
      ts = attributeTokens as ++ (⟨.endAttributes, stop⟩ : Token) :: rest ∧
      attrs'.map Attribute.name = attrs.map Attribute.name ++ as.map AttributeToken.name ∧
      (distinct = true → Fresh attrs → Fresh attrs') := by
  induction rounds generalizing ts attrs with
  | zero => exact .bind (P := fun _ _ => False) .exhausted fun _ _ h => h.elim
  | succ rounds ih =>
    by_cases h : (Lookahead.of ts).next = .attribute
    · obtain ⟨name, value, escaped, pos, us, rfl⟩ :=
        Lookahead.exists_cons_of_next_attribute h
      simp only [groupTail, iterate, bind_assoc]
      refine (ensures_groupItem_attribute distinct attrs name value escaped pos).bind
        fun x rest hx => ?_
      rcases hx with ⟨rfl, attrs', rfl, hnames, hf⟩
      refine (ih attrs').mono fun attrs'' rest' h => ?_
      rcases h with ⟨as, stop, rfl, hnames', hf'⟩
      refine ⟨⟨name, value, escaped, pos⟩ :: as, stop, rfl, ?_, fun hd hfresh => ?_⟩
      · rw [hnames', hnames]
        simp
      · exact hf' hd (hf hd hfresh)
    · refine .of_after (fun o finish => run_groupTail distinct attrs h finish)
        (.expect_bind (by decide) fun t us hts ht => .pure ?_)
      rcases t with ⟨l, stop⟩
      obtain rfl : l = .endAttributes := Lexeme.eq_of_terminal ht rfl
      exact ⟨[], stop, hts, by simp, fun _ hfresh => hfresh⟩

theorem ensures_group (distinct : Bool) (attrs : List Attribute) :
    (group rounds distinct attrs).Ensures ts fun attrs' rest => ∃ g : Group,
      ts = g.tokens ++ rest ∧
      attrs'.map Attribute.name = attrs.map Attribute.name ++ g.attrs.map AttributeToken.name ∧
      (distinct = true → Fresh attrs → Fresh attrs') := by
  refine .expect_bind (by decide) fun t us hts ht => ?_
  rcases t with ⟨l, start⟩
  obtain rfl : l = .startAttributes := Lexeme.eq_of_terminal ht rfl
  refine (ensures_groupTail distinct attrs).mono fun attrs' rest h => ?_
  rcases h with ⟨as, stop, rfl, hnames, hf⟩
  exact ⟨⟨start, as, stop⟩, by simp [hts, Group.tokens, attributeTokens], hnames, hf⟩

theorem ensures_filterAttributes :
    (filterAttributes rounds).Ensures ts fun _ rest => ∃ g : Option Group,
      ts = Group.tokens? g ++ rest ∧
      (g.isNone → (Lookahead.of rest).next ≠ .startAttributes) := by
  refine .lookingAt_bind ?_
  split
  · refine (ensures_group false []).mono fun attrs rest h => ?_
    rcases h with ⟨g, hts, -, -⟩
    exact ⟨some g, hts, by simp⟩
  · rename_i h
    exact .pure ⟨none, rfl, fun _ => by simpa using h⟩

theorem ensures_headItem (head : Head) :
    (headItem rounds head).Ensures ts fun x rest =>
      match x with
      | none => rest = ts ∧ (Lookahead.of ts).next ∉ headStarts
      | some head' => ∃ item : HeadItem, ts = item.tokens ++ rest ∧
          head'.listed.map Attribute.name = head.listed.map Attribute.name ++ item.names ∧
          (Fresh head.listed → Fresh head'.listed) := by
  refine .peek_bind (fun hts pos => .locate_bind fun loc => ?_) fun l pos us hts =>
    .locate_bind fun loc => ?_
  · exact .pure ⟨hts.symm, by simp [hts, Lookahead.of, Lookahead.finish, headStarts]⟩
  · subst hts
    cases l with
    | idName value =>
      refine .skip_bind ((ensures_addDistinct head.listed _).bind fun attrs rest h => .pure ?_)
      rcases h with ⟨rfl, rfl, hf⟩
      exact ⟨.shorthand (.idName value pos), rfl, by simp [HeadItem.names], hf⟩
    | className value =>
      refine .skip_bind ((ensures_addDistinct head.listed _).bind fun attrs rest h => .pure ?_)
      rcases h with ⟨rfl, rfl, hf⟩
      exact ⟨.shorthand (.className value pos), rfl, by simp [HeadItem.names], hf⟩
    | andAttributes expr =>
      exact .skip_bind (.pure ⟨.andAttributes expr pos, rfl, by simp [HeadItem.names], fun h => h⟩)
    | startAttributes =>
      refine .emitIf_bind ((ensures_group true head.listed).bind fun attrs rest h => .pure ?_)
      rcases h with ⟨g, hts, hnames, hf⟩
      exact ⟨.group g, hts, hnames, hf rfl⟩
    | _ => exact .pure ⟨rfl, by simp [Lookahead.of, headStarts, Token.terminal, Lexeme.terminal]⟩

/-- The tokens from `ts` to `rest` are the items of a head behind which no other item
comes, and `head'` is `head` with their names, of which none was refused. -/
def Head.Grows (head : Head) (ts : List Token) (head' : Head) (rest : List Token) : Prop :=
  ∃ items : List HeadItem, ts = items.flatMap HeadItem.tokens ++ rest ∧
    head'.listed.map Attribute.name =
      head.listed.map Attribute.name ++ items.flatMap HeadItem.names ∧
    (Fresh head.listed → Fresh head'.listed) ∧ (Lookahead.of rest).next ∉ headStarts

theorem ensures_iterate_headItem (more : Nat) (head : Head) :
    (iterate (headItem more) rounds head).Ensures ts (head.Grows ts) := by
  refine .iterate (fun head ts => (ensures_headItem head).mono fun x mid hx => ?_) rounds head ts
  cases x with
  | none =>
    rcases hx with ⟨rfl, hnext⟩
    exact ⟨[], rfl, by simp, fun h => h, hnext⟩
  | some head' =>
    intro head'' rest h
    rcases hx with ⟨item, rfl, hnames, hf⟩
    rcases h with ⟨items, rfl, hnames', hf', hnext⟩
    exact ⟨item :: items, by simp, by simp [hnames, hnames'], fun h => hf' (hf h), hnext⟩

/-- **What the attributes of an element take is a distinct head,** and nothing that
could begin another item of it is left in front. -/
theorem ensures_attributes :
    (attributes rounds).Ensures ts fun _ rest => ∃ items : List HeadItem,
      ts = items.flatMap HeadItem.tokens ++ rest ∧ HeadItem.Distinct items ∧
      (Lookahead.of rest).next ∉ headStarts := by
  refine (ensures_iterate_headItem rounds .empty).bind fun head rest h => .pure ?_
  rcases h with ⟨items, hts, hnames, hf, hnext⟩
  have hfresh : Fresh head.listed := hf (by simp [Head.empty, Attributes.empty, Fresh])
  refine ⟨items, hts, ?_, hnext⟩
  unfold Fresh at hfresh
  rwa [hnames] at hfresh

end Ensures

end Grammar
end Pug
