import TreeScript.Journal

/-!
# What is shown of a journal

A filter is a list of directives, each a target, maybe a detail, and a level. A
directive speaks of the events whose target begins with its target and which have
its detail. Of the directives that speak of an event the most specific one decides:
the one with the longest target, then one with a detail. Of equally specific ones
the later in the order of details decides, and of equal ones the last. The event is
shown if it is no more detailed than the level of that directive. An event that no
directive speaks of is not shown.

A filter is read from a text of directives with commas between them. A directive
is one of these.

* A level, which speaks of every target.
* A target, which shows all of it.
* `target=level`, where a missing level shows all.
* `target[{detail}]=level`, where the target and the level may be missing.

A text without a comma and an equals sign is a level for this program. What is none of
these is left out.
-/

namespace TreeScript

/-- Sets the level of one target and of those below it. -/
structure Directive where
  /-- The text that the target of an event has to begin with. -/
  target : String
  /-- The detail that an event has to have. -/
  detail? : Option String
  /-- The most detailed level that is shown. -/
  level : Level
deriving DecidableEq, Repr

/-- Says which events are shown. -/
abbrev Filter := List Directive

namespace Directive

/-- The target of everything this program does. -/
def ownTarget : String := "simple_script"

/-- Whether a directive speaks of an event. -/
def speaksOf (directive : Directive) (event : Event) : Bool :=
  directive.target.toList.isPrefixOf event.target.toList &&
    directive.detail?.all event.details.contains

/-! ## Reading -/

/-- The characters a target may begin with. -/
def isTargetStart (c : Char) : Bool := c.isAlphanum || c == '_' || c == ':' || c == '-'

/-- Reads a level, where none means all. -/
def levelOf? (cs : List Char) : Option Level :=
  if cs.isEmpty then some .trace else Level.ofText? (String.ofList cs)

/-- Reads a directive that has neither a level of its own nor a detail. -/
def ofWord (text : String) : Directive :=
  match Level.ofText? text with
  | some level => ⟨"", none, level⟩
  | none => ⟨text, none, .trace⟩

/-- Reads what follows the opening bracket of a detail. -/
def ofDetail? (target : String) (cs : List Char) : Option Directive :=
  match cs with
  | '\x7b' :: cs =>
      let (detail, rest) := cs.span (· != '\x7d')
      if detail.isEmpty || detail.contains '=' then none
      else
        match rest with
        | ['\x7d', ']'] => some ⟨target, some (String.ofList detail), .trace⟩
        | '\x7d' :: ']' :: '=' :: level =>
            (levelOf? level).map (⟨target, some (String.ofList detail), ·⟩)
        | _ => none
  | _ => none

/-- Reads one directive. -/
def ofText? (text : String) : Option Directive :=
  let (target, rest) := text.toList.span fun c => c != '=' && c != '['
  match target, rest with
  | [], '[' :: rest => ofDetail? "" rest
  | [], _ => none
  | c :: target, rest =>
      if isTargetStart c then
        match rest with
        | [] => some (ofWord text)
        | '[' :: rest => ofDetail? (String.ofList (c :: target)) rest
        | _ :: level => (levelOf? level).map (⟨String.ofList (c :: target), none, ·⟩)
      else none

/-! ## Which one decides -/

/-- Whether one detail comes before another. None comes before any. -/
def detailBefore : Option String → Option String → Bool
  | none, none => false
  | none, some _ => true
  | some _, none => false
  | some a, some b => a < b

/-- The directive that decides of two, the second if both are equally specific. -/
def moreSpecific (a b : Directive) : Directive :=
  if b.target.length < a.target.length then a
  else if a.target.length < b.target.length then b
  else if detailBefore b.detail? a.detail? then a
  else b

end Directive

namespace Filter

/-- Reads a filter. -/
def ofText (text : String) : Filter :=
  let cs := text.toList
  let parts :=
    if cs.contains '=' || cs.contains ',' then text.splitOn ","
    else [Directive.ownTarget ++ "=" ++ text]
  parts.filterMap Directive.ofText?

/-- The directive that decides about an event. -/
def deciding? (filter : Filter) (event : Event) : Option Directive :=
  match filter.filter (·.speaksOf event) with
  | [] => none
  | directive :: directives => some (directives.foldl Directive.moreSpecific directive)

/-- Whether an event is shown. -/
def shows (filter : Filter) (event : Event) : Bool :=
  match filter.deciding? event with
  | some directive => event.level.rank ≤ directive.level.rank
  | none => false

/-- The log of a journal. -/
def log (filter : Filter) (journal : List Event) : String :=
  String.join ((journal.filter filter.shows).map Event.logLine)

end Filter

end TreeScript
