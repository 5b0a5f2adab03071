import BoundNames.Logging.Directive

/-!
# Logs

What is written of a run of events is a matter of the filter and of the format of a log.

A filter is a list of directives, written with commas between them. An event is written if the plain
directive that decides about it allows its level: among those that cover it the one with the longest
source, then the one with a field, and of two about the same the last. Where none covers it the
event is not written.

A directive for a span does not touch the span itself but opens what happens within it: there every
event is written up to the highest limit of the directives that the span fits, whatever its source.

The format is chosen by a word, in upper or lower case and with blanks around it.
-/

set_option autoImplicit false
set_option relaxedAutoImplicit false

namespace BoundNames

/-- The directives of a filter in the order in which they are written. -/
structure LogFilter where
  directives : List Directive
deriving DecidableEq

namespace LogFilter

/-- Reads a filter. Without a directive it lets errors through and nothing else. -/
def parse (text : String) : LogFilter :=
  let pieces := Text.pieces ',' text.toList
  match pieces.filterMap Directive.parse? with
  | [] => ⟨[⟨"", none, none, Level.error.rank⟩]⟩
  | directives => ⟨directives⟩

/-- The directives that no later one replaces. -/
def lasting : List Directive → List Directive
  | [] => []
  | d :: rest => if rest.any d.agrees then lasting rest else d :: lasting rest

/-- The plain directive that decides about an event. -/
def deciding? (f : LogFilter) (e : Event) : Option Directive :=
  (f.directives.filter fun d ↦ d.isPlain && d.covers e).foldl (fun best d ↦
    match best with
    | none => some d
    | some b => if b.outranks d then some b else some d) none

/-- Whether the directive that decides about an event allows its level. -/
def allows (f : LogFilter) (e : Event) : Bool :=
  (f.deciding? e).any fun d ↦ e.level.rank ≤ d.limit

/-- The directives about what happens within a span. -/
def about (f : LogFilter) (span : Event) : List Directive :=
  (lasting f.directives).filter fun d ↦ d.isScoped && d.concerns span

/-- The rank up to which all events within a span are written. -/
def within (f : LogFilter) (span : Event) : Nat :=
  ((f.about span).filter fun d ↦ d.fits span).foldl (fun limit d ↦ max limit d.limit) 0

/-- The rank beyond which nothing is looked at: the highest limit, or all ranks if a value has to be
looked at. -/
def reach (f : LogFilter) : Nat :=
  if f.directives.any fun d ↦ d.field.any fun t ↦ t.value ≠ .any then Level.trace.rank
  else f.directives.foldl (fun limit d ↦ max limit d.limit) 0

/-- Whether a span is seen: a directive is about it, or its level is allowed. -/
def sees (f : LogFilter) (span : Event) : Bool :=
  span.level.rank ≤ f.reach && (!(f.about span).isEmpty || f.allows span)

/-- What is seen of a run of events, of which the first are within spans that open the ranks up to
`scope`. -/
def seen (f : LogFilter) (scope : Nat) : List Event → List Event
  | [] => []
  | e :: rest =>
    if e.isSpan then
      if f.sees e then e :: f.seen (f.within e) rest else f.seen (f.within e) rest
    else
      let tail := f.seen (if e.closesSpan then 0 else scope) rest
      if e.level.rank ≤ scope || f.allows e then e :: tail else tail

end LogFilter

/-- The layout of a log: flat lines, an indented tree, or one JSON object for each event. -/
inductive LogFormat where
  | text
  | tree
  | json
deriving DecidableEq

/-- The format that a word names; words that name none mean flat lines. No character beyond ASCII
has a lower-case form among the letters of the two words, so the case of ASCII letters decides. -/
def LogFormat.parse (word : String) : LogFormat :=
  match String.ofList ((Text.trimBlanks word.toList).map Char.toLower) with
  | "tree" => .tree
  | "json" => .json
  | _ => .text

/-- The settings of a log: a filter, the filter that counts if that is not set, and the format. -/
structure LogSettings where
  filter : Option String
  fallback : Option String
  format : Option String

/-- What can be told of a log: how many lines it has, or for a tree whether it holds anything. -/
inductive LogSize where
  | lines (count : Nat)
  | written (anything : Bool)
deriving DecidableEq

/-- What is seen in a log of some events. A log is set up twice, and only if a filter is set; the
second time is an event of its own. -/
def LogSettings.seen (s : LogSettings) (events : List Event) : List Event :=
  match s.filter <|> s.fallback with
  | none => []
  | some text => (LogFilter.parse text).seen 0 (.alreadyInstalled :: events)

/-- The size of the log of some events. A span has no line of its own, but a place in a tree. -/
def LogSettings.size (s : LogSettings) (events : List Event) : LogSize :=
  match LogFormat.parse (s.format.getD "") with
  | .tree => .written !(s.seen events).isEmpty
  | _ => .lines ((s.seen events).countP fun e ↦ !e.isSpan)

end BoundNames
