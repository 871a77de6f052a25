/-
# What is wrong with a head

A name that is repeated is refused at the token that shows it. Otherwise only a group can
lack tokens, and its delimiter completes it: the names that were read are not repeated.
-/

import Pug.Proofs.Complaint.Basic
import Pug.Proofs.Extension.Element

namespace Pug

open Reader

/-- No name but `class` occurs twice. -/
def FreshNames (names : List String) : Prop := (names.filter (· ≠ "class")).Nodup

namespace Grammar

variable {o : Options} {finish : Position} {rounds : Nat} {ts us : List Token}

/-- A repeated name is refused at its token, which was taken before. -/
theorem settled_addDistinct {β : Type} {Q : β → List Token → Prop} {C : Prop}
    {attrs : List Attribute} {a : Attribute} {t : Token} (ht : t.lexeme ≠ .eos)
    (hpos : a.loc.toPosition = t.pos)
    (hfits : repeats attrs a.name = true → (repetition a.name).Fits none t)
    {k : List Attribute → Reader β}
    (hk : repeats attrs a.name = false → Settles o finish (k (attrs ++ [a])) us Q C) :
    Settled o finish (t :: us) Q C ((addDistinct attrs a >>= k).run o (.before finish us)) := by
  unfold addDistinct
  split
  · rename_i h
    refine .failed ⟨[], t :: us, rfl, eosFree_nil, ?_, hfits h⟩ fun heos => ?_
    · rw [hpos]
      rfl
    · unfold repetition at heos
      split at heos <;> cases heos
  · rename_i h
    rw [pure_bind]
    exact Settled.of_passes (hk (by simpa using h)) (.cons ht)

/-- The attribute `name` fits the complaint that it is repeated. -/
theorem fits_repetition_attribute {attrs : List Attribute} {name value : String} {escaped : Bool}
    {pos : Position} (h : repeats attrs name = true) :
    (repetition name).Fits none ⟨.attribute name value escaped, pos⟩ := by
  unfold repetition
  split
  · rename_i hid
    subst hid
    exact .inr ⟨value, escaped, rfl⟩
  · rename_i hid
    refine ⟨hid, ?_, value, escaped, rfl⟩
    rintro rfl
    simp [repeats] at h

theorem freshNames_of_repeats {attrs : List Attribute} {a : Attribute} {names : List String}
    (h : repeats attrs a.name = false)
    (hnames : Fresh (attrs ++ [a]) → FreshNames ((attrs ++ [a]).map Attribute.name ++ names))
    (hf : Fresh attrs) : FreshNames (attrs.map Attribute.name ++ a.name :: names) := by
  have hfresh := hnames ((fresh_append_singleton hf a).2 h)
  simpa using hfresh

/-- **A group that lacks tokens lacks its delimiter.** The names in it are not repeated. -/
theorem settles_groupTail (distinct : Bool) (attrs : List Attribute) :
    Settles o finish (groupTail rounds distinct attrs) ts (fun _ _ => True)
      (∃ as, ts = attributeTokens as ∧ (distinct = true → Fresh attrs →
        FreshNames (attrs.map Attribute.name ++ as.map AttributeToken.name))) := by
  induction rounds generalizing attrs ts with
  | zero => exact .exhausted
  | succ rounds ih =>
    by_cases hnext : (Lookahead.of ts).next = .attribute
    · obtain ⟨name, value, escaped, pos, us, rfl⟩ :=
        Lookahead.exists_cons_of_next_attribute hnext
      have hmore := @ih us (attrs ++ [⟨name, value, escaped, o.place pos⟩])
      simp only [groupTail, iterate, groupItem, advance, bind_assoc, pure_bind] at hmore ⊢
      refine .peek_bind (fun h => absurd h (List.cons_ne_nil _ _)) fun l place vs hts => ?_
      obtain ⟨⟨rfl, rfl⟩, rfl⟩ : (_ ∧ _) ∧ _ := by simpa using hts
      cases distinct with
      | false =>
        refine Settled.of_passes (hmore.imp ?_) (.cons (by simp))
        rintro ⟨as, rfl, -⟩
        exact ⟨⟨name, value, escaped, pos⟩ :: as, rfl, fun h => absurd h Bool.false_ne_true⟩
      | true =>
        simp only [if_true, bind_assoc, pure_bind]
        refine settled_addDistinct (a := ⟨name, value, escaped, o.place pos⟩) (by simp) rfl
          fits_repetition_attribute fun hrepeats => ?_
        refine hmore.imp ?_
        rintro ⟨as, rfl, hfresh⟩
        exact ⟨⟨name, value, escaped, pos⟩ :: as, rfl, fun _ =>
          freshNames_of_repeats hrepeats (hfresh rfl)⟩
    · unfold Settles
      rw [run_groupTail distinct attrs hnext]
      refine Settled.after (Settles.expect_bind (by decide) (by decide) ?_ fun _ _ _ _ =>
        .pure trivial) _
      rintro rfl
      refine ⟨[], rfl, fun _ hf => ?_⟩
      rw [List.map_nil, List.append_nil]
      exact hf

/-- The tokens of a group whose names may come behind those of `attrs`. -/
def GroupBehind (distinct : Bool) (attrs : List Attribute) (ts : List Token) : Prop :=
  ∃ g : Group, ts = g.tokens ∧ (distinct = true → Fresh attrs →
    FreshNames (attrs.map Attribute.name ++ g.attrs.map AttributeToken.name))

theorem settles_group (distinct : Bool) (attrs : List Attribute) {start : Position} :
    Settles o finish (group rounds distinct attrs) (⟨.startAttributes, start⟩ :: us)
      (fun _ _ => True) (Completable (GroupBehind distinct attrs)
        (⟨.startAttributes, start⟩ :: us)) := by
  refine .expect_cons (by simp) rfl ((settles_groupTail distinct attrs).imp ?_)
  rintro ⟨as, rfl, hfresh⟩
  exact ⟨[⟨.endAttributes, finish⟩], ⟨start, as, finish⟩, rfl, hfresh⟩

/-- Only a group that begins can be incomplete. -/
theorem settles_filterAttributes :
    Settles o finish (filterAttributes rounds) ts (fun _ rest => ∃ g : Option Group,
      ts = Group.tokens? g ++ rest ∧ (g.isNone → (Lookahead.of rest).next ≠ .startAttributes))
      (Completes (fun us => ∃ g : Group, us = g.tokens) ts) := by
  refine .ensuring (.lookingAt_bind ?_) ensures_filterAttributes
  split
  · rename_i h
    obtain ⟨start, us, rfl⟩ := Lookahead.exists_cons_of_next (of_decide_eq_true h) rfl (by decide)
    refine (settles_group false []).imp fun hc => .of_token (by decide) (hc.mono ?_)
    rintro more ⟨g, hg, -⟩
    exact ⟨g, hg⟩
  · exact .pure trivial

/-- The tokens of an item whose names may come behind those of the head that is read. -/
def ItemBehind (head : Head) (ts : List Token) : Prop :=
  ∃ item : HeadItem, ts = item.tokens ∧
    (Fresh head.listed → FreshNames (head.listed.map Attribute.name ++ item.names))

theorem settles_headItem (head : Head) :
    Settles o finish (headItem rounds head) ts (fun _ _ => True)
      (Completes (ItemBehind head) ts) := by
  refine .peek_bind (fun _ => .locate_bind (.pure trivial)) fun l pos us hts => .locate_bind ?_
  subst hts
  cases l with
  | idName value =>
    have hfits : repeats head.listed "id" = true →
        (repetition "id").Fits none ⟨.idName value, pos⟩ := fun _ => .inl ⟨value, rfl⟩
    exact settled_addDistinct (a := ⟨"id", value, false, o.place pos⟩)
      (Q := fun _ _ => True) (k := fun listed => pure (some { head with listed })) (by simp) rfl
      hfits
      fun _ => .pure trivial
  | className value =>
    have hfits : repeats head.listed "class" = true →
        (repetition "class").Fits none ⟨.className value, pos⟩ := fun h => by simp [repeats] at h
    exact settled_addDistinct (a := ⟨"class", value, false, o.place pos⟩)
      (Q := fun _ _ => True) (k := fun listed => pure (some { head with listed })) (by simp) rfl
      hfits
      fun _ => .pure trivial
  | andAttributes expr => exact .skip_bind (by simp) (.pure trivial)
  | startAttributes =>
    refine .emitIf_bind (.bind ((settles_group true head.listed).imp fun hc =>
      .of_token (by decide) (hc.mono ?_)) fun _ _ _ => .pure trivial)
    rintro more ⟨g, hg, hfresh⟩
    exact ⟨.group g, hg, hfresh rfl⟩
  | _ => exact .pure trivial

/-- The tokens of items whose names may come behind those of the head that is read. -/
def ItemsBehind (head : Head) (ts : List Token) : Prop :=
  ∃ items : List HeadItem, ts = items.flatMap HeadItem.tokens ∧
    (Fresh head.listed →
      FreshNames (head.listed.map Attribute.name ++ items.flatMap HeadItem.names))

theorem settles_iterate_headItem (more : Nat) (head : Head) :
    Settles o finish (iterate (headItem more) rounds head) ts (fun _ _ => True)
      (Completes (ItemsBehind head) ts) := by
  refine .iterate (G := fun head ts => Completes (ItemsBehind head) ts) (fun head ts => ?_)
    rounds head ts
  have hitem : Completes (ItemBehind head) ts → Completes (ItemsBehind head) ts := by
    refine fun hc => hc.mono ?_
    rintro more ⟨item, hitem, hfresh⟩
    exact ⟨[item], by simpa using hitem, by simpa using hfresh⟩
  refine ((settles_headItem head).imp hitem).ensuring ((ensures_headItem head).mono ?_)
  rintro x mid h head' rfl hc
  obtain ⟨item, rfl, hnames, hf⟩ := h
  refine hc.append ?_
  rintro vs ⟨items, rfl, hfresh⟩
  refine ⟨item :: items, by simp, fun hhead => ?_⟩
  have hall := hfresh (hf hhead)
  rwa [hnames, List.append_assoc] at hall

/-- The tokens of a head in which no name is repeated. -/
def DistinctHead (ts : List Token) : Prop :=
  ∃ items : List HeadItem, ts = items.flatMap HeadItem.tokens ∧ HeadItem.Distinct items

/-- **A head that lacks tokens can be completed.** -/
theorem settles_attributes :
    Settles o finish (attributes rounds) ts (fun _ rest => ∃ items : List HeadItem,
      ts = items.flatMap HeadItem.tokens ++ rest ∧ HeadItem.Distinct items ∧
      (Lookahead.of rest).next ∉ headStarts) (Completes DistinctHead ts) := by
  refine .ensuring (.bind ((settles_iterate_headItem rounds .empty).imp fun hc => hc.mono ?_)
    fun _ _ _ => .pure trivial) ensures_attributes
  rintro more ⟨items, hitems, hfresh⟩
  exact ⟨items, hitems, hfresh (by simp [Head.empty, Attributes.empty, Fresh])⟩

end Grammar
end Pug
