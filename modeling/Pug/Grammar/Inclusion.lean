/-
# Templates made of templates

    include    = Include (Filter [group])* Path [block]
    extends    = Extends Path
    namedBlock = Block [block]

The end of its path decides what an include is. A template may be given a block,
and filters have no effect on it; a file that is put in as it is goes through the
filters, and a block under it is read and thrown away. Paths and the names of
blocks are trimmed.
-/

import Pug.Grammar.Attributes

namespace Pug
namespace Grammar

open Reader

/-- The path at the current token. -/
def fileRef : Reader FileRef := do
  let t ← peek
  match t.lexeme with
  | .path path => do
    skip
    let loc ← locate t.pos
    return ⟨Text.trim path, loc⟩
  | _ => unexpected t [.path]

/-- The next filter of an include. -/
def includeFilter (rounds : Nat) : Reader (Option IncludeFilter) := do
  let t ← peek
  match t.lexeme with
  | .filter name => do
    skip
    let loc ← locate t.pos
    return some ⟨name, ← filterAttributes rounds, loc⟩
  | _ => return none

/-- The include of a template behind its path. -/
def templateInclude (inner : Inner) (scope : Scope) (file : FileRef)
    (filters : List IncludeFilter) (loc : Location) : Reader Node := do
  emitIf (!filters.isEmpty) (.unfiltered file.path filters.length)
  return .include file (← inner.block? scope) loc

/-- The include of a file that is no template, behind its path. -/
def rawInclude (inner : Inner) (scope : Scope) (file : FileRef)
    (filters : List IncludeFilter) (loc : Location) : Reader Node := do
  match ← inner.block? scope with
  | some discarded => do
    emit (.discarded file.path discarded.size)
    return .rawInclude file filters loc
  | none => return .rawInclude file filters loc

/-- An include with some filters behind its path. -/
def behindPath (inner : Inner) (scope : Scope) (loc : Location) (filters : List IncludeFilter)
    (file : FileRef) : Reader Node := do
  let o ← options
  match o.target file.path with
  | .raw => rawInclude inner scope file filters loc
  | .template => templateInclude inner scope file filters loc
  | .legacyTemplate => do
    warn (.legacyTemplateExtension file.path o.extension) loc
    templateInclude inner scope file filters loc

/-- An include behind the token that announces it. -/
def inclusion (inner : Inner) (scope : Scope) (loc : Location) : Reader Node := do
  let filters ← many (includeFilter inner.rounds) inner.rounds
  let file ← fileRef
  behindPath inner scope loc filters file

/-- The parent of a template, behind the token that announces it. -/
def parent (loc : Location) : Reader Node := do
  return .extends (← fileRef) loc

/-- A block with a name, behind the name. -/
def namedBlock (inner : Inner) (scope : Scope) (name : String) (mode : BlockMode)
    (loc : Location) : Reader Node := do
  return .namedBlock (Text.trim name) mode (← inner.blockAt scope loc) loc

end Grammar
end Pug
