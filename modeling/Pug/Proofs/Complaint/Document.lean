/-
# What is wrong with a template

The complaints of all productions are put together here, and the knot is tied: whatever the
depth, an error is accurate, and what lacks tokens can be completed.
-/

import Pug.Proofs.Complaint.Structure
import Pug.Proofs.Reading.Document

namespace Pug

open Reader

namespace Grammar

variable {o : Options} {finish : Position} {inner : Inner} {scope : Scope} {ts : List Token}

/-- **A production settles all tokens in front of which it begins.** -/
theorem settles_expr (hi : inner.Settles o finish) :
    Settles o finish (Grammar.expr inner scope) ts (fun _ rest => Derives .expr scope ts rest)
      (Completable (Derives .expr scope · []) ts) := by
  refine .ensuring (.peek_bind (fun hts => .locate_bind (.unexpected rfl (by decide)
    List.not_mem_nil fun _ => ?_)) fun l pos us hts => .locate_bind ?_) (ensures_expr hi.sound)
  · subst hts
    exact ⟨[⟨.yield, finish⟩], .yield finish, rfl, trivial, trivial⟩
  subst hts
  have hrun : l.terminal ∈ Layout.line.starts → Settles o finish (textRun inner scope true)
      (⟨l, pos⟩ :: us) (fun _ _ => True)
      (Completable (Derives .expr scope · []) (⟨l, pos⟩ :: us)) := by
    intro hl
    have hcompletable : Completes (Derives (.parts .lines) scope · []) (⟨l, pos⟩ :: us) →
        Completable (Derives .expr scope · []) (⟨l, pos⟩ :: us) :=
      fun hc => hc.completable.mono fun _ => derives_run hl
    have hlines : Settles o finish (textRun inner scope (Layout.lines = .lines)) (⟨l, pos⟩ :: us)
        (fun _ rest => Derives (.parts .lines) scope (⟨l, pos⟩ :: us) rest)
        (Completes (Derives (.parts .lines) scope · []) (⟨l, pos⟩ :: us)) :=
      settles_textRun hi (by decide)
    exact (hlines.imp hcompletable).mono fun _ _ _ => trivial
  generalize hloc : o.place pos = loc
  cases l with
  | tag name => exact .skip_bind (by simp) (settles_element hi name loc)
  | mixin name args => exact .skip_bind (by simp) (settles_mixin hi name args loc)
  | mixinBlock => exact hloc ▸ settled_mixinBlock
  | block name mode => exact .skip_bind (by simp) (settles_namedBlock hi name mode loc)
  | case e => exact .skip_bind (by simp) (settles_caseOf hi e loc)
  | «extends» => exact .skip_bind (by simp) (settles_parent loc)
  | «include» => exact .skip_bind (by simp) (settles_inclusion hi loc)
  | filter name =>
    refine .skip_bind (by simp) ((settles_filter hi inner.rounds name pos loc).imp ?_)
    rintro ⟨more, f, htokens, hg, hl⟩
    exact ⟨more, .filter f, htokens, hg, hl⟩
  | doctype value => exact .skip_bind (by simp) (.pure trivial)
  | comment value buffered => exact .skip_bind (by simp) (settles_comment hi value buffered loc)
  | text value => exact hrun (by simp [Lexeme.terminal, Layout.starts])
  | interpolatedCode c => exact hrun (by simp [Lexeme.terminal, Layout.starts])
  | startInterpolation => exact hrun (by decide)
  | textHtml value => exact .bind (settles_html hi) fun _ _ _ => .pure trivial
  | dot =>
    refine .skip_bind (by simp) (.bind ((settles_verbatimAt hi loc).imp fun hc =>
      hc.completable.cons ?_) fun _ _ _ => .pure trivial)
    rintro vs ⟨region, rfl, hg, hl⟩
    exact ⟨.dot pos region, rfl, hg, hl⟩
  | each iteration => exact .skip_bind (by simp) (settles_eachLoop hi iteration loc)
  | code c => exact settled_codeLine hi c loc
  | blockCode => exact .skip_bind (by simp) (settles_blockCode inner.rounds loc)
  | «if» test => exact .skip_bind (by simp) (settles_conditional hi test loc)
  | «while» test => exact .skip_bind (by simp) (settles_whileLoop hi test loc)
  | call name args => exact .skip_bind (by simp) (settles_call hi name args loc)
  | interpolation e => exact .skip_bind (by simp) (settles_interpolatedElement hi e loc)
  | yield => exact .skip_bind (by simp) (.pure trivial)
  | idName value => exact settles_shorthandElement hi (.idName value pos)
  | className value => exact settles_shorthandElement hi (.className value pos)
  | _ => exact .unexpected_cons (by decide) List.not_mem_nil

/-- **The readers for every depth settle all tokens.** -/
theorem settles_ofDepth (o : Options) (finish : Position) (depth : Nat) :
    (Inner.ofDepth depth).Settles o finish := by
  induction depth with
  | zero => exact ⟨sound_ofDepth 0, fun _ _ => .exhausted, fun _ _ => .exhausted⟩
  | succ depth ih =>
    exact ⟨sound_ofDepth (depth + 1), fun _ _ => settles_expr ih, fun _ _ => settles_block ih⟩

theorem settles_document (depth : Nat) :
    Settles o finish (document (.ofDepth depth)) ts (fun _ _ => True)
      (Completable (Derives .items .outermost · []) ts) := by
  have hitems : Settles o finish (items (.ofDepth depth) .outermost .eos) ts
      (fun _ rest => DerivesUntil .eos .outermost ts rest)
      (Completes (Derives .items .outermost · []) ts) :=
    settles_items (settles_ofDepth o finish depth) (by decide) rfl .rfl
  exact .options_bind (.emit_bind (.bind (hitems.imp Completes.completable)
    fun _ _ _ => .pure trivial))

end Grammar

/-- A reading that fails has an accurate error, and its tokens can be completed if the error is
about the end of the input. -/
theorem settled_of_failed {o : Options} {ts : List Token} {e : ParseError}
    (h : (parse o ts).outcome = .failed e) :
    Accurate o (Cursor.ofList ts).finish ts e ∧
      (e.fault.found? = some .eos → EosFree ts →
        Completable (Derives .items .outermost · []) ts) := by
  have hsettled : Reader.Settled o (Cursor.ofList ts).finish ts (fun _ _ => True)
      (Completable (Derives .items .outermost · []) ts) (parse o ts) :=
    Grammar.settles_document (budget ts)
  generalize parse o ts = run at h hsettled
  cases hsettled with
  | done _ _ => cases h
  | failed haccurate hend =>
    cases h
    exact ⟨haccurate, hend⟩
  | exhausted => cases h

end Pug
