/-
# The warnings that tokens give rise to

A warning is due to one token, and which one it is can be told from the tokens before it and
the one behind it:

| token | site | warning |
| --- | --- | --- |
| `Mixin` without an indent behind it | anywhere | `legacyMixinCall` |
| `StartAttributes` | a head that has a group already | `multipleAttributeGroups` |
| `Path` with an extension of old | an include | `legacyTemplateExtension`, at the include |

The `Site` of a token is what has to be known of the tokens before it: whether they end in the
head of an element, of a call or of an interpolation, or in an include that lacks its path.
-/

import Pug.Proofs.Derivation.Greedy
import Pug.Proofs.Derivation.Meaning
import Pug.Token.Cursor

namespace Pug

/-- What the tokens before a token end in. -/
inductive Site where
  /-- Neither a head nor an include. -/
  | open
  /-- A head, in which a group of attributes was read or not. -/
  | head (grouped : Bool)
  /-- The filters of an include at a position. -/
  | inclusion (pos : Position)
  deriving DecidableEq

namespace Site

/-- The site behind one more token. A shorthand outside of a head begins one, and a filter
belongs to the include that it follows. -/
def next (site : Site) (t : Token) : Site :=
  match t.terminal with
  | .tag | .interpolation | .call => .head false
  | .idName | .className =>
    match site with
    | .head grouped => .head grouped
    | _ => .head false
  | .startAttributes =>
    match site with
    | .head _ => .head true
    | _ => site
  | .andAttributes | .attribute | .endAttributes => site
  | .include => .inclusion t.pos
  | .filter =>
    match site with
    | .inclusion pos => .inclusion pos
    | _ => .open
  | _ => .open

/-- The site behind more tokens. -/
def after (site : Site) (ts : List Token) : Site := ts.foldl next site

@[simp] theorem after_nil (site : Site) : site.after [] = site := rfl

@[simp] theorem after_cons (site : Site) (t : Token) (ts : List Token) :
    site.after (t :: ts) = (site.next t).after ts := rfl

@[simp] theorem after_append (site : Site) (ts us : List Token) :
    site.after (ts ++ us) = (site.after ts).after us :=
  List.foldl_append

end Site

/-- Whether a path ends in a legacy extension and not in the extension. -/
def Options.isLegacy (o : Options) (path : String) : Bool :=
  !Options.hasExtension path o.extension && o.legacyExtensions.any (Options.hasExtension path)

theorem Options.target_eq_legacyTemplate_iff (o : Options) (path : String) :
    o.target path = .legacyTemplate ↔ o.isLegacy path = true := by
  unfold target isLegacy
  cases hasExtension path o.extension <;>
    cases o.legacyExtensions.any (hasExtension path) <;> decide

/-- The warnings that a token in a site gives rise to, if a terminal comes behind it. -/
def notice (o : Options) (site : Site) (t : Token) (behind : Terminal) : List Warning :=
  match t.lexeme, site with
  | .mixin name _, _ =>
    if behind = .indent then [] else [⟨.legacyMixinCall name, o.place t.pos⟩]
  | .startAttributes, .head true => [⟨.multipleAttributeGroups, o.place t.pos⟩]
  | .path path, .inclusion pos =>
    if o.isLegacy (Text.trim path) then
      [⟨.legacyTemplateExtension (Text.trim path) o.extension, o.place pos⟩]
    else []
  | _, _ => []

/-- Warnings are in the file that is read. -/
theorem filename_of_mem_notice {o : Options} {site : Site} {t : Token} {behind : Terminal}
    {w : Warning} (h : w ∈ notice o site t behind) : w.loc.filename = o.filename := by
  unfold notice at h
  split at h
  · split at h
    · cases h
    · rw [List.mem_singleton.1 h]
      rfl
  · rw [List.mem_singleton.1 h]
    rfl
  · split at h
    · rw [List.mem_singleton.1 h]
      rfl
    · cases h
  · cases h

/-- The terminal in front of tokens behind which `stop` comes. -/
def follower (ts : List Token) (stop : Terminal) : Terminal :=
  match ts with
  | [] => stop
  | t :: _ => t.terminal

@[simp] theorem follower_nil (stop : Terminal) : follower [] stop = stop := rfl

@[simp] theorem follower_cons (t : Token) (ts : List Token) (stop : Terminal) :
    follower (t :: ts) stop = t.terminal := rfl

/-- What follows tokens in front of others is what is seen there. -/
theorem follower_of (ts us : List Token) :
    follower ts (Lookahead.of us).next = (Lookahead.of (ts ++ us)).next := by
  cases ts <;> rfl

/-- The warnings that tokens in a site give rise to, in order, if `stop` comes behind them. -/
def notices (o : Options) : Site → List Token → Terminal → List Warning
  | _, [], _ => []
  | site, t :: ts, stop =>
    notice o site t (follower ts stop) ++ notices o (site.next t) ts stop

section Notices

variable {o : Options} {site : Site} {stop : Terminal}

@[simp] theorem notices_nil : notices o site [] stop = [] := rfl

@[simp] theorem notices_cons (t : Token) (ts : List Token) :
    notices o site (t :: ts) stop =
      notice o site t (follower ts stop) ++ notices o (site.next t) ts stop := rfl

/-- **Tokens give rise to their warnings one after the other.** -/
theorem notices_append (ts us : List Token) :
    notices o site (ts ++ us) stop =
      notices o site ts (follower us stop) ++ notices o (site.after ts) us stop := by
  induction ts generalizing site with
  | nil => rfl
  | cons t ts ih =>
    have hfollower : follower (ts ++ us) stop = follower ts (follower us stop) := by
      cases ts <;> rfl
    rw [List.cons_append, notices_cons, notices_cons, ih, hfollower, List.append_assoc,
      Site.after_cons]

end Notices

/-- The warnings that the token `i` of an input gives rise to. -/
def noticeAt (o : Options) (ts : List Token) (i : Nat) : List Warning :=
  notice o (Site.open.after (ts.take i)) ((Cursor.ofList ts).lookahead i)
    ((Cursor.ofList ts).lookahead (i + 1)).terminal

/-- **The warnings of tokens are those of each one of them.** -/
theorem notices_take (o : Options) (ts : List Token) {n : Nat} (hn : n ≤ ts.length) :
    notices o .open (ts.take n) ((Cursor.ofList ts).lookahead n).terminal =
      (List.range n).flatMap (noticeAt o ts) := by
  induction n with
  | zero => rw [List.take_zero, notices_nil, List.range_zero, List.flatMap_nil]
  | succ n ih =>
    have hlt : n < ts.length := hn
    have hhere : (Cursor.ofList ts).lookahead n = ts[n] := by
      rw [Cursor.lookahead_eq, Cursor.toList_ofList, List.getD_eq_getElem?_getD,
        List.getElem?_eq_getElem hlt, Option.getD_some]
    have hlast : ts.take (n + 1) = ts.take n ++ [(Cursor.ofList ts).lookahead n] := by
      rw [hhere, List.take_succ_eq_append_getElem hlt]
    rw [List.range_succ, List.flatMap_append, ← ih (Nat.le_of_lt hlt), List.flatMap_singleton,
      hlast, notices_append, notices_cons, notices_nil, List.append_nil, follower_cons,
      follower_nil]
    rfl

end Pug
