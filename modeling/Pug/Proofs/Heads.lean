/-
# Heads

The head of an element is its shorthands, its groups of attributes and its spreads, in any order.
A head that repeats no name adds what its tokens give to what is read behind it, and nothing else. A
head that repeats a name is refused at the first token that does, in every template. In both
cases nothing depends on another head: what is read behind a head is read as if it was not
there, and a template is refused for a name in one head only.

The groups of filters go without a check of their names.
-/

import Pug.Proofs.Coupling.Fork
import Pug.Proofs.Heads.Refusal
import Pug.Proofs.Opener

namespace Pug

open Grammar Reader Coupling

section Repetition

/-- Among the tokens `ts`, `t` behind `us` is the first one with a name that a token before it has,
and the name is not `class`. -/
structure FirstRepetition (ts us : List Token) (t : Token) (name : String) : Prop where
  split : ∃ vs, ts = us ++ t :: vs
  before : Unrepeated us
  named : t.headName? = some name
  ne_class : name ≠ "class"
  occurred : name ∈ us.filterMap Token.headName?

variable {ts us us' vs : List Token} {t t' : Token} {name name' : String}

theorem Unrepeated.of_append (h : Unrepeated (us ++ vs)) : Unrepeated us := by
  unfold Unrepeated at h ⊢
  rw [List.filterMap_append, List.filter_append] at h
  exact (List.nodup_append.1 h).1

namespace FirstRepetition

theorem not_unrepeated_concat (h : FirstRepetition ts us t name) : ¬ Unrepeated (us ++ [t]) := by
  intro hun
  have hclass : decide (name ≠ "class") = true := decide_eq_true h.ne_class
  unfold Unrepeated at hun
  rw [List.filterMap_append, List.filter_append, List.filterMap_cons_some h.named] at hun
  exact (List.nodup_append.1 hun).2.2 name (List.mem_filter.2 ⟨h.occurred, hclass⟩) name
    (List.mem_filter.2 ⟨List.mem_cons_self, hclass⟩) rfl

theorem not_unrepeated (h : FirstRepetition ts us t name) : ¬ Unrepeated ts := by
  intro hun
  obtain ⟨vs, rfl⟩ := h.split
  rw [List.append_cons] at hun
  exact h.not_unrepeated_concat hun.of_append

/-- Of two first repetitions the second one is not behind the first one. -/
theorem not_lt (h : FirstRepetition ts us t name) (h' : FirstRepetition ts us' t' name') :
    ¬ us.length < us'.length := by
  intro hlt
  obtain ⟨vs, rfl⟩ := h.split
  obtain ⟨vs', hts⟩ := h'.split
  rw [List.append_cons] at hts
  obtain ⟨ws, hws⟩ : us ++ [t] <+: us' := by
    refine List.prefix_of_prefix_length_le (List.prefix_append _ vs) ?_ ?_
    · rw [hts]
      exact List.prefix_append _ _
    · rw [List.length_append]
      exact hlt
  have hbefore := h'.before
  rw [← hws] at hbefore
  exact h.not_unrepeated_concat hbefore.of_append

/-- **There is one first repetition at most.** -/
theorem unique (h : FirstRepetition ts us t name) (h' : FirstRepetition ts us' t' name') :
    us = us' ∧ t = t' ∧ name = name' := by
  have hlen : us.length = us'.length :=
    Nat.le_antisymm (Nat.not_lt.1 (h'.not_lt h)) (Nat.not_lt.1 (h.not_lt h'))
  obtain ⟨vs, hts⟩ := h.split
  obtain ⟨vs', hts'⟩ := h'.split
  obtain ⟨rfl, htail⟩ := List.append_inj (hts.symm.trans hts') hlen
  obtain ⟨rfl, -⟩ := List.cons.inj htail
  exact ⟨rfl, rfl, Option.some.inj (h.named.symm.trans h'.named)⟩

end FirstRepetition

/-- **A refusal is at a first repetition.** -/
theorem Reader.RefusedAt.firstRepetition {α : Type} {o : Options} {m : Reader α} {a : Attribute}
    (h : RefusedAt o [] m us t a) (vs : List Token) :
    FirstRepetition (us ++ t :: vs) us t a.name := by
  have hnames := map_name_filterMap o us
  have hrepeated := h.repeated
  rw [List.nil_append, repeats, Bool.and_eq_true, List.any_eq_true] at hrepeated
  obtain ⟨hclass, b, hb, hname⟩ := hrepeated
  refine ⟨⟨vs, rfl⟩, (fresh_attribute?_iff o us).1 h.fresh, ?_, of_decide_eq_true hclass, ?_⟩
  · rw [← t.map_name_attribute? o, h.gives]
    rfl
  · rw [← hnames, ← of_decide_eq_true hname]
    exact List.mem_map_of_mem hb

end Repetition

section Elements

variable {o : Options} {inner : Inner} {head : List HeadItem} {rest : List Token}

/-- **A head is gone past, and adds its attributes to the body behind it.** -/
theorem run_body_head (hd : HeadItem.Distinct head)
    (hr : (head.flatMap HeadItem.tokens).length < inner.rounds)
    (hnext : (Lookahead.of rest).next ∉ headStarts) (scope : Scope) (loc : Location)
    (closable : Bool) (finish : Position) :
    (body inner scope loc closable).run o (.before finish (head.flatMap HeadItem.tokens ++ rest)) =
      (((body inner scope loc closable).run o (.before finish rest)).andThen fun b c =>
        ⟨.done { b with attrs := HeadItem.attributes o head } c, []⟩).after
          (HeadItem.trail o false head) := by
  have hhead := takes_attributes (o := o) head hr hd hnext finish
  have hnone : (attributes inner.rounds).run o (.before finish rest) =
      ⟨.done .empty (.before finish rest), []⟩ :=
    takes_attributes [] (Nat.zero_lt_of_lt hr) List.nodup_nil hnext finish
  rw [body, run_bind, run_bind, hhead, hnone, Run.andThen_done, Run.andThen_done, Run.after_nil]
  simp only [run_bind, run_pure, Run.andThen_andThen, Run.andThen_done, Run.after_nil]

/-- **A head that repeats a name refuses its opener** at the first token that does. -/
theorem Opener.fails_expr_head (x : Opener) (pos : Position) (hd : ¬ HeadItem.Distinct head)
    (hr : (head.flatMap HeadItem.tokens).length ≤ inner.rounds) :
    ∃ us t name, FirstRepetition (head.flatMap HeadItem.tokens) us t name ∧
      ∀ scope rest, ∃ events, (expr inner scope).Fails o (⟨x.lexeme, pos⟩ :: (us ++ t :: rest))
        ⟨repetition name, o.place t.pos⟩ events := by
  obtain ⟨us, t, vs, a, htokens, hrefused⟩ := refuses_attributes (o := o) hd hr
  refine ⟨us, t, a.name, htokens ▸ hrefused.firstRepetition vs, fun scope rest => ?_⟩
  obtain ⟨events, hfails⟩ := hrefused.fails rest
  refine ⟨events, fun finish => ?_⟩
  have hbody : (body inner scope (o.place pos) x.closable).Fails o (us ++ t :: rest)
      ⟨repetition a.name, o.place t.pos⟩ events := hfails.bind
  rw [x.run_expr inner scope o pos _ (by rfl), Cursor.advance_before_cons, hbody finish,
    Run.andThen_failed]

/-- **What an opener begins has the attributes of its head,** and the body that is read behind
the head. -/
theorem Opener.run_expr_head (x : Opener) (pos : Position) (hd : HeadItem.Distinct head)
    (hr : (head.flatMap HeadItem.tokens).length < inner.rounds)
    (hnext : (Lookahead.of rest).next ∉ headStarts) (scope : Scope) (finish : Position) :
    (expr inner scope).run o
        (.before finish (⟨x.lexeme, pos⟩ :: (head.flatMap HeadItem.tokens ++ rest))) =
      (((body inner scope (o.place pos) x.closable).run o (.before finish rest)).andThen fun b c =>
        ⟨.done (x.node (o.place pos) { b with attrs := HeadItem.attributes o head }) c, []⟩).after
          (HeadItem.trail o false head) := by
  rw [x.run_expr inner scope o pos _ (by rfl), Cursor.advance_before_cons,
    run_body_head hd hr hnext]
  simp only [Run.andThen_after, Run.andThen_andThen, Run.andThen_done, Run.after_nil]

/-- **A template with a head that repeats a name is refused** at the first token that does,
whatever comes behind the head, if the opener of the head has its place. -/
theorem parse_repeated_head (x : Opener) (pos : Position) (hd : ¬ HeadItem.Distinct head)
    {p more : List Token} {tree : Block} {c : Cursor} (hp : EosFree p)
    (hmore : (parse o (p ++ ⟨x.lexeme, pos⟩ :: more)).outcome = .done tree c)
    (rest : List Token) :
    ∃ us t name, FirstRepetition (head.flatMap HeadItem.tokens) us t name ∧
      (parse o (p ++ ⟨x.lexeme, pos⟩ :: (head.flatMap HeadItem.tokens ++ rest))).outcome =
        .failed ⟨repetition name, o.place t.pos⟩ := by
  have hrounds : (head.flatMap HeadItem.tokens).length ≤
      (Inner.ofDepth (head.flatMap HeadItem.tokens).length).rounds :=
    Nat.le_of_eq (Inner.rounds_ofDepth _).symm
  obtain ⟨us, t, name, hfirst, hfails⟩ := x.fails_expr_head (o := o) pos hd hrounds
  refine ⟨us, t, name, hfirst, ?_⟩
  have hparting : (⟨x.lexeme, pos⟩ : Token).terminal.parting = true := by cases x <;> rfl
  refine failed_of_forked hp hparting hmore fun n scope c hc => ?_
  obtain ⟨vs, htokens⟩ := hfirst.split
  rw [beforeEos_append_of_eosFree (HeadItem.eosFree head), htokens, List.append_assoc,
    List.cons_append] at hc
  obtain ⟨events, hexpr⟩ := hfails scope (vs ++ beforeEos rest)
  have hsound := sound_relocated .stay o
  exact hexpr.outcome (coupled_expr hsound (coupled_ofDepth hsound n _) scope) hc

end Elements

section Filters

variable {o : Options} {g : Group} {rounds : Nat}

/-- **A group of a filter is gone past,** whatever its names are. -/
theorem run_filterAttributes (hr : g.tokens.length ≤ rounds) (rest : List Token)
    (finish : Position) :
    (filterAttributes rounds).run o (.before finish (g.tokens ++ rest)) =
      ⟨.done (g.tokens.filterMap (Token.attribute? o)) (.before finish rest), [.deferred 1]⟩ := by
  rw [g.filterMap_tokens o]
  exact takes_filterAttributes (some g) hr nofun finish

/-- **A filter has the attributes of its group.** -/
theorem run_expr_filter {n : Nat} (hr : g.tokens.length ≤ n + 1) (scope : Scope) (name : String)
    (pos : Position) (rest : List Token) (finish : Position) :
    (expr (.ofDepth (n + 1)) scope).run o
        (.before finish (⟨.filter name, pos⟩ :: (g.tokens ++ rest))) =
      ((filterContent (.ofDepth (n + 1)) scope (filter (.ofDepth (n + 1)) scope n) name
        (o.place pos) (g.tokens.filterMap (Token.attribute? o))).run o (.before finish rest)).after
          [.deferred 1] := by
  have hfilter : (expr (.ofDepth (n + 1)) scope).run o
      (.before finish (⟨.filter name, pos⟩ :: (g.tokens ++ rest))) =
        (filterAttributes (n + 1) >>= filterContent (.ofDepth (n + 1)) scope
          (filter (.ofDepth (n + 1)) scope n) name (o.place pos)).run o
            (.before finish (g.tokens ++ rest)) := rfl
  rw [hfilter, run_bind, run_filterAttributes hr, Run.andThen_done]

/-- **A filter of an include has the attributes of its group.** -/
theorem run_includeFilter (hr : g.tokens.length ≤ rounds) (name : String) (pos : Position)
    (rest : List Token) (finish : Position) :
    (includeFilter rounds).run o (.before finish (⟨.filter name, pos⟩ :: (g.tokens ++ rest))) =
      ⟨.done (some ⟨name, g.tokens.filterMap (Token.attribute? o), o.place pos⟩)
        (.before finish rest), [.deferred 1]⟩ := by
  have hattrs : (filterAttributes rounds).Takes o g.tokens rest
      (g.tokens.filterMap (Token.attribute? o)) [.deferred 1] :=
    fun finish => run_filterAttributes hr rest finish
  exact Takes.peek_bind (.skip_bind (.locate_bind hattrs.bind_pure)) finish

end Filters

/-- **Heads are read exactly, and repeated names are found exactly.**

* Behind an opener, a head that repeats no name is gone past whatever comes behind it: what the
  opener begins has one attribute for each shorthand and each attribute of a group, in their order,
  and one spread for each spread. For the rest it is what is read if there is no head.
* A head that repeats a name has a first token that does. Wherever an opener may stand, the
  template is refused at this token.
* A group of a filter may repeat names, and so may one of a filter of an include. -/
theorem read_head (o : Options) :
    (∀ (x : Opener) (pos : Position) (head : List HeadItem),
      (Unrepeated (head.flatMap HeadItem.tokens) →
        ∀ (n : Nat) (scope : Scope) (rest : List Token) (finish : Position),
          (head.flatMap HeadItem.tokens).length < n → (Lookahead.of rest).next ∉ headStarts →
          (expr (.ofDepth n) scope).run o
              (.before finish (⟨x.lexeme, pos⟩ :: (head.flatMap HeadItem.tokens ++ rest))) =
            (((body (.ofDepth n) scope (o.place pos) x.closable).run o
              (.before finish rest)).andThen fun b c => ⟨.done (x.node (o.place pos) { b with
                attrs := ⟨(head.flatMap HeadItem.tokens).filterMap (Token.attribute? o),
                  (head.flatMap HeadItem.tokens).filterMap (Token.spread? o)⟩ }) c, []⟩).after
              (HeadItem.trail o false head)) ∧
      (¬ Unrepeated (head.flatMap HeadItem.tokens) →
        ∃ us t name, FirstRepetition (head.flatMap HeadItem.tokens) us t name) ∧
      ∀ us t name, FirstRepetition (head.flatMap HeadItem.tokens) us t name →
        ∀ p rest : List Token, EosFree p →
          (∃ more tree c, (parse o (p ++ ⟨x.lexeme, pos⟩ :: more)).outcome = .done tree c) →
          (parse o (p ++ ⟨x.lexeme, pos⟩ :: (head.flatMap HeadItem.tokens ++ rest))).outcome =
            .failed ⟨if name = "id" then .duplicateId else .duplicateAttribute name,
              o.place t.pos⟩) ∧
    ∀ (g : Group) (name : String) (pos : Position) (n : Nat) (rest : List Token)
      (finish : Position), g.tokens.length ≤ n + 1 →
      (∀ scope, (expr (.ofDepth (n + 1)) scope).run o
          (.before finish (⟨.filter name, pos⟩ :: (g.tokens ++ rest))) =
        ((filterContent (.ofDepth (n + 1)) scope (filter (.ofDepth (n + 1)) scope n) name
          (o.place pos) (g.tokens.filterMap (Token.attribute? o))).run o
            (.before finish rest)).after [.deferred 1]) ∧
      (includeFilter (n + 1)).run o
          (.before finish (⟨.filter name, pos⟩ :: (g.tokens ++ rest))) =
        ⟨.done (some ⟨name, g.tokens.filterMap (Token.attribute? o), o.place pos⟩)
          (.before finish rest), [.deferred 1]⟩ := by
  refine ⟨fun x pos head => ⟨?_, ?_, ?_⟩, fun g name pos n rest finish hr => ⟨fun scope => ?_, ?_⟩⟩
  · intro hun n scope rest finish hn hnext
    have hrounds : (head.flatMap HeadItem.tokens).length < (Inner.ofDepth n).rounds := by
      rwa [Inner.rounds_ofDepth]
    rw [← HeadItem.attributes_eq]
    exact x.run_expr_head pos ((HeadItem.distinct_iff head).2 hun) hrounds hnext scope finish
  · intro hrepeated
    have hd : ¬ HeadItem.Distinct head := mt (HeadItem.distinct_iff head).1 hrepeated
    obtain ⟨us, t, vs, a, htokens, hrefused⟩ := refuses_attributes (o := o) hd (Nat.le_refl _)
    exact ⟨us, t, a.name, htokens ▸ hrefused.firstRepetition vs⟩
  · rintro us t name hfirst p rest hp ⟨more, tree, c, hmore⟩
    have hd := mt (HeadItem.distinct_iff head).1 hfirst.not_unrepeated
    obtain ⟨us', t', name', hfirst', hfailed⟩ := parse_repeated_head x pos hd hp hmore rest
    obtain ⟨rfl, rfl, rfl⟩ := hfirst.unique hfirst'
    exact hfailed
  · exact run_expr_filter hr scope name pos rest finish
  · exact run_includeFilter hr name pos rest finish

/-- The head of `p#a.b(class='c' x='d')&attributes(e)` gives four attributes and a spread. In
`p.b(class='c' id='a')#f` the second name `id` is one too many, while the filter
`:f(x='c' x='d')` may have two attributes of one name. -/
theorem read_head_tag :
    (expr (.ofDepth 9) .outermost).run .default (.before ⟨1, 41⟩
        [⟨.tag "p", ⟨1, 1⟩⟩, ⟨.idName "a", ⟨1, 2⟩⟩, ⟨.className "b", ⟨1, 4⟩⟩,
          ⟨.startAttributes, ⟨1, 6⟩⟩, ⟨.attribute "class" "'c'" true, ⟨1, 7⟩⟩,
          ⟨.attribute "x" "'d'" true, ⟨1, 17⟩⟩, ⟨.endAttributes, ⟨1, 22⟩⟩,
          ⟨.andAttributes "e", ⟨1, 23⟩⟩]) =
      ⟨.done (.tag "p" false false false
        ⟨[⟨"id", "a", false, ⟨⟨1, 2⟩, none⟩⟩, ⟨"class", "b", false, ⟨⟨1, 4⟩, none⟩⟩,
          ⟨"class", "'c'", true, ⟨⟨1, 7⟩, none⟩⟩, ⟨"x", "'d'", true, ⟨⟨1, 17⟩, none⟩⟩],
          [⟨"e", ⟨⟨1, 23⟩, none⟩⟩]⟩ ⟨[], ⟨⟨1, 1⟩, none⟩⟩ ⟨⟨1, 1⟩, none⟩) (.before ⟨1, 41⟩ []),
        [.deferred 1]⟩ ∧
    (parse .default ([] ++ [⟨.tag "p", ⟨1, 1⟩⟩, ⟨.className "b", ⟨1, 2⟩⟩,
        ⟨.startAttributes, ⟨1, 4⟩⟩, ⟨.attribute "class" "'c'" true, ⟨1, 5⟩⟩,
        ⟨.attribute "id" "'a'" true, ⟨1, 15⟩⟩, ⟨.endAttributes, ⟨1, 21⟩⟩,
        ⟨.idName "f", ⟨1, 22⟩⟩])).outcome = .failed ⟨.duplicateId, ⟨⟨1, 22⟩, none⟩⟩ ∧
    (includeFilter 4).run .default (.before ⟨1, 17⟩ [⟨.filter "f", ⟨1, 9⟩⟩,
        ⟨.startAttributes, ⟨1, 11⟩⟩, ⟨.attribute "x" "'c'" true, ⟨1, 12⟩⟩,
        ⟨.attribute "x" "'d'" true, ⟨1, 18⟩⟩, ⟨.endAttributes, ⟨1, 23⟩⟩]) =
      ⟨.done (some ⟨"f", [⟨"x", "'c'", true, ⟨⟨1, 12⟩, none⟩⟩,
        ⟨"x", "'d'", true, ⟨⟨1, 18⟩, none⟩⟩], ⟨⟨1, 9⟩, none⟩⟩) (.before ⟨1, 17⟩ []),
        [.deferred 1]⟩ := by
  obtain ⟨hhead, hfilter⟩ := read_head .default
  refine ⟨?_, ?_, ?_⟩
  · exact (hhead (.tag "p") ⟨1, 1⟩ [.shorthand (.idName "a" ⟨1, 2⟩),
      .shorthand (.className "b" ⟨1, 4⟩), .group ⟨⟨1, 6⟩, [⟨"class", "'c'", true, ⟨1, 7⟩⟩,
        ⟨"x", "'d'", true, ⟨1, 17⟩⟩], ⟨1, 22⟩⟩, .andAttributes "e" ⟨1, 23⟩]).1 (by decide) 9
      .outermost [] ⟨1, 41⟩ (by decide) (by decide)
  · exact (hhead (.tag "p") ⟨1, 1⟩ [.shorthand (.className "b" ⟨1, 2⟩),
      .group ⟨⟨1, 4⟩, [⟨"class", "'c'", true, ⟨1, 5⟩⟩, ⟨"id", "'a'", true, ⟨1, 15⟩⟩], ⟨1, 21⟩⟩,
      .shorthand (.idName "f" ⟨1, 22⟩)]).2.2
      [⟨.className "b", ⟨1, 2⟩⟩, ⟨.startAttributes, ⟨1, 4⟩⟩,
        ⟨.attribute "class" "'c'" true, ⟨1, 5⟩⟩, ⟨.attribute "id" "'a'" true, ⟨1, 15⟩⟩,
        ⟨.endAttributes, ⟨1, 21⟩⟩] ⟨.idName "f", ⟨1, 22⟩⟩ "id"
      ⟨⟨[], rfl⟩, by decide, rfl, by decide, by decide⟩ [] [] (by simp) ⟨[], _, _, rfl⟩
  · exact (hfilter ⟨⟨1, 11⟩, [⟨"x", "'c'", true, ⟨1, 12⟩⟩, ⟨"x", "'d'", true, ⟨1, 18⟩⟩], ⟨1, 23⟩⟩
      "f" ⟨1, 9⟩ 3 [] ⟨1, 17⟩ (by decide)).2

end Pug
