/-
# Positions are copied

Where the tokens are, and what the file is called, never influences how a template is read: a
template at other places is read to the same tree at these places, or fails with the same error at
its place. So nothing is computed from a position. In particular each location of a tree is the one
of a token: a relocation that moves every position to the one of some token, and these nowhere, moves
the tree nowhere either.
-/

import Pug.Proofs.Coupling.Template

namespace Pug

variable {o : Options}

theorem beforeEos_move (ρ : Relocation) (ts : List Token) :
    beforeEos (ρ.move ts) = ρ.move (beforeEos ts) := List.takeWhile_map

theorem fromEos_move (ρ : Relocation) (ts : List Token) :
    fromEos (ρ.move ts) = ρ.move (fromEos ts) := List.dropWhile_map

/-- The end of the input moves with the last token. -/
theorem finish_move (ρ : Relocation) {ts : List Token} (hts : ts ≠ []) :
    (Cursor.ofList (ρ.move ts)).finish = ρ.pos (Cursor.ofList ts).finish := by
  have hlast : (ρ.move ts).getLast? = ts.getLast?.map ρ.move := List.getLast?_map
  have hsome := List.getLast?_eq_some_getLast hts
  change ((ρ.move ts).getLast?.map Token.pos).getD .first =
    ρ.pos ((ts.getLast?.map Token.pos).getD .first)
  rw [hlast, hsome]
  rfl

/-- The tokens ahead of an input that is moved are those of the input, moved, if there is one. -/
theorem meets_move (ρ : Relocation) {ts : List Token} (hts : ts ≠ []) :
    (Coupling.relocated ρ).Meets 0 (.ofList ts) (.ofList (ρ.move ts)) := by
  refine ⟨beforeEos_move ρ ts, ?_⟩
  change (fromEos (ρ.move ts)).headD (.mk .eos (Cursor.ofList (ρ.move ts)).finish) =
    ρ.move ((fromEos ts).headD (.mk .eos (Cursor.ofList ts).finish))
  rw [fromEos_move, finish_move ρ hts]
  cases fromEos ts with
  | nil => rfl
  | cons t us => rfl

/-- A template without tokens has no nodes, and its root is nowhere but at the whole of the file. -/
theorem verdict_nil (o : Options) :
    (parse o []).verdict? = some (.ok ⟨[], ⟨.whole, o.filename⟩⟩) := rfl

/-- **A template that is moved is read to the tree that is moved,** with the same warnings. -/
theorem exists_verdict_move (ρ : Relocation) (o : Options) (ts : List Token) :
    ∃ verdict, (parse o ts).verdict? = some verdict ∧
      (parse (ρ.options o) (ρ.move ts)).verdict? = some (ρ.verdict verdict) ∧
      (parse (ρ.options o) (ρ.move ts)).warnings = ρ.move (parse o ts).warnings := by
  cases ts with
  | nil => exact ⟨_, verdict_nil o, verdict_nil (ρ.options o), rfl⟩
  | cons t us =>
    have hmeets := meets_move ρ (List.cons_ne_nil t us)
    obtain ⟨verdict, hverdict, hmoved, hwarnings⟩ :=
      (Coupling.sound_relocated ρ o).exists_verdict (fun _ => id) hmeets
    exact ⟨verdict, hverdict, hmoved, hwarnings trivial⟩

theorem loc_of_verdict {ts : List Token} {tree : Block}
    (h : (parse o ts).verdict? = some (.ok tree)) : tree.loc = ⟨.whole, o.filename⟩ := by
  rw [parse_eq] at h
  generalize (Grammar.items _ _ _).run o _ = run at h
  rcases run with ⟨outcome, events⟩
  cases outcome with
  | done nodes rest =>
    cases h
    rfl
  | failed e => cases h
  | exhausted => cases h

/-- The relocation that leaves the tokens of an input in place and takes whatever is elsewhere to
the token `t`. -/
def Relocation.onto (ts : List Token) (t : Token) (filename : Option String) : Relocation where
  pos p := if ∃ u ∈ ts, p = u.pos then p else t.pos
  filename _ := filename

theorem move_onto (ts : List Token) (t : Token) (filename : Option String) :
    (Relocation.onto ts t filename).move ts = ts := by
  refine (List.map_congr_left fun u hu => ?_).trans (List.map_id ts)
  have hpos : (Relocation.onto ts t filename).pos u.pos = u.pos := if_pos ⟨u, hu, rfl⟩
  exact congrArg (Token.mk u.lexeme) hpos

theorem exists_of_onto {ts : List Token} {t : Token} (ht : t ∈ ts) (filename : Option String)
    (p : Position) : ∃ u ∈ ts, (Relocation.onto ts t filename).pos p = u.pos := by
  by_cases h : ∃ u ∈ ts, p = u.pos
  · obtain ⟨u, hu, rfl⟩ := h
    exact ⟨u, hu, if_pos ⟨u, hu, rfl⟩⟩
  · exact ⟨t, ht, if_neg h⟩

/-- **Each location in a tree is the one of a token,** in the file of the template. -/
theorem exists_token_of_mem_locations {ts : List Token} {tree : Block}
    (h : (parse o ts).verdict? = some (.ok tree)) {loc : Location}
    (hloc : loc ∈ Node.allLocations tree.nodes) : ∃ t ∈ ts, loc = o.place t.pos := by
  cases ts with
  | nil =>
    cases h.symm.trans (verdict_nil o)
    cases hloc
  | cons t us =>
    obtain ⟨verdict, hverdict, hmoved, -⟩ :=
      exists_verdict_move (.onto (t :: us) t o.filename) o (t :: us)
    obtain rfl : Except.ok tree = verdict := Option.some.inj (h.symm.trans hverdict)
    -- The tokens stay in place, so the tree does, and each of its places is one of a token.
    rw [move_onto] at hmoved
    have hsame : tree = (Relocation.onto (t :: us) t o.filename).template tree :=
      Except.ok.inj (Option.some.inj (h.symm.trans hmoved))
    have hnodes : tree.nodes = Node.moveAll (.onto (t :: us) t o.filename) tree.nodes :=
      (congrArg Block.nodes hsame).trans (moveAll_eq _ _).symm
    rw [hnodes, Node.allLocations_move] at hloc
    obtain ⟨place, -, rfl⟩ := List.mem_map.1 hloc
    obtain ⟨u, hu, hpos⟩ :=
      exists_of_onto (List.mem_cons_self (a := t) (l := us)) o.filename place.toPosition
    exact ⟨u, hu, congrArg (Location.mk · o.filename) hpos⟩

/-- **Positions and the name of the file never influence a reading.** At other places a template is
read to the same tree there, or fails with the same error there, with the same warnings. And each
location in a tree is the one of a token, but for the root, which is at the whole of the file. -/
theorem parse_relocated (o : Options) (g : Position → Position) (f : Option String)
    (ts : List Token) :
    (∃ verdict, (parse o ts).verdict? = some verdict ∧
      (parse { o with filename := f } (ts.map fun t => ⟨t.lexeme, g t.pos⟩)).verdict? =
        some ((Relocation.mk g fun _ => f).verdict verdict) ∧
      (parse { o with filename := f } (ts.map fun t => ⟨t.lexeme, g t.pos⟩)).warnings =
        (Relocation.mk g fun _ => f).move (parse o ts).warnings) ∧
    ∀ tree, (parse o ts).verdict? = some (.ok tree) →
      tree.loc = ⟨.whole, o.filename⟩ ∧
        ∀ loc ∈ Node.allLocations tree.nodes, ∃ t ∈ ts, loc = o.place t.pos :=
  ⟨exists_verdict_move (.mk g fun _ => f) o ts,
    fun _ h => ⟨loc_of_verdict h, fun _ => exists_token_of_mem_locations h⟩⟩

/-- An element with an attribute, with lines and columns exchanged. -/
theorem parse_relocated_element :
    (parse { Options.default with filename := some "a.pug" }
        [⟨.tag "p", ⟨2, 1⟩⟩, ⟨.idName "x", ⟨3, 1⟩⟩]).verdict? =
      some (.ok ⟨[.tag "p" false false false ⟨[⟨"id", "x", false, ⟨⟨3, 1⟩, some "a.pug"⟩⟩], []⟩
        ⟨[], ⟨⟨2, 1⟩, some "a.pug"⟩⟩ ⟨⟨2, 1⟩, some "a.pug"⟩], ⟨.whole, some "a.pug"⟩⟩) ∧
    ∀ loc ∈ Node.allLocations [.tag "p" false false false
        ⟨[⟨"id", "x", false, ⟨⟨1, 3⟩, none⟩⟩], []⟩ ⟨[], ⟨⟨1, 2⟩, none⟩⟩ ⟨⟨1, 2⟩, none⟩],
      ∃ t ∈ ([⟨.tag "p", ⟨1, 2⟩⟩, ⟨.idName "x", ⟨1, 3⟩⟩] : List Token),
        loc = Options.default.place t.pos := by
  have h := parse_relocated .default (fun p => ⟨p.column, p.line⟩) (some "a.pug")
    [⟨.tag "p", ⟨1, 2⟩⟩, ⟨.idName "x", ⟨1, 3⟩⟩]
  refine ⟨?_, (h.2 ⟨[.tag "p" false false false ⟨[⟨"id", "x", false, ⟨⟨1, 3⟩, none⟩⟩], []⟩
    ⟨[], ⟨⟨1, 2⟩, none⟩⟩ ⟨⟨1, 2⟩, none⟩], ⟨.whole, none⟩⟩ rfl).2⟩
  obtain ⟨verdict, hverdict, hmoved, -⟩ := h.1
  cases hverdict
  exact hmoved

end Pug
