import ExplicitControl.Diagnostic.Basic
import ExplicitControl.Diagnostic.LineTable

/-!
Diagnostics for a terminal, tersely or at length, perhaps in colours, and with places as lines and columns
where the source text is at hand. A report is made of pieces with a colour each, so that colours change
nothing but the look.
-/

namespace ExplicitControl

structure SourceText where
  path : String
  table : LineTable

namespace SourceText

def ofString (path text : String) : SourceText :=
  ⟨path, LineTable.ofString text⟩

def location (s : SourceText) (span : Span) : String :=
  let place := s.table.lineCol span.start.toNat
  s.path ++ ":" ++ toString place.line ++ ":" ++ toString place.column

def firstLine (cs : List Char) : List Char :=
  let line := cs.takeWhile fun c => c != '\n'
  if line.length < cs.length && line.getLast? == some '\r' then line.dropLast else line

/-- The number of characters to be underlined: those of the span on its first line, and at least one. -/
def underlined (s : SourceText) (span : Span) : Nat :=
  match Text.sliceBytes s.table.source span.start.toNat span.stop.toNat with
  | some cs => max (firstLine cs).length 1
  | none => 1

end SourceText

structure Snippet where
  line : UInt32
  text : List Char
  /-- The number of characters before those underlined. -/
  indent : Nat
  width : Nat
deriving DecidableEq

def SourceText.snippet? (s : SourceText) (span : Span) : Option Snippet :=
  let place := s.table.lineCol span.start.toNat
  (s.table.lineText? place.line.toNat).map fun text =>
    ⟨place.line, text, (place.column.toUInt64 - 1).toNat, s.underlined span⟩

inductive ColorMode where
  /-- When the output is a terminal. -/
  | auto
  | always
  | never
deriving DecidableEq

def ColorMode.useColors (mode : ColorMode) (isTerminal : Bool) : Bool :=
  match mode with
  | auto => isTerminal
  | always => true
  | never => false

inductive Color where
  | error | call | help | bold | secondary
deriving DecidableEq

def Color.code : Color → String
  | error => "\x1b[1;31m"
  | call => "\x1b[1;36m"
  | help => "\x1b[1;32m"
  | bold => "\x1b[1m"
  | secondary => "\x1b[1;34m"

def Color.reset : String := "\x1b[0m"

structure Piece where
  text : String
  color : Option Color
deriving DecidableEq

def Piece.render (colors : Bool) (piece : Piece) : String :=
  match piece.color with
  | some color => if colors then color.code ++ piece.text ++ Color.reset else piece.text
  | none => piece.text

structure ReportStyle where
  colors : Bool
  /-- Tell every place, the source line, every call and every note. -/
  verbose : Bool
  source : Option SourceText

namespace ReportStyle

def plain (text : String) : Piece := ⟨text, none⟩

def colored (color : Color) (text : String) : Piece := ⟨text, some color⟩

/-- A place: by line and column if there is a source, else by bytes. -/
def location (style : ReportStyle) (span : Span) : String :=
  match style.source with
  | some source => source.location span
  | none => span.text

def snippet (style : ReportStyle) (span : Span) : List Piece :=
  match style.source.bind fun source => source.snippet? span with
  | none => []
  | some s =>
    let gutter := toString s.line
    let pad := String.ofList (List.replicate gutter.length ' ')
    [plain (pad ++ " |\n" ++ gutter ++ " | " ++ String.ofList s.text ++ "\n" ++ pad ++ " | " ++
        String.ofList (List.replicate s.indent ' ')),
      colored .error (String.ofList (List.replicate s.width '^')), plain "\n"]

def label (style : ReportStyle) (l : Label) : List Piece :=
  if style.verbose || l.isPrimary then
    [plain ("  " ++ Diagnostic.marker l.isPrimary ++ " " ++ style.location l.span ++ ": "),
      colored (if l.isPrimary then .error else .secondary) l.message, plain "\n"] ++
      (if style.verbose && l.isPrimary then style.snippet l.span else [])
  else []

def trailer (kind : String) (color : Color) (text : String) : List Piece :=
  [plain "  = ", colored color kind, plain (": " ++ text ++ "\n")]

/-- The live calls: each of them, or just their number. -/
def calls (style : ReportStyle) (chain : List CallSite) : List Piece :=
  if style.verbose then
    chain.flatMap fun site =>
      [plain "  = ", colored .call "in",
        plain (" " ++ site.call ++ " at " ++ style.location site.span ++ "\n")]
  else if chain.isEmpty then []
  else
    let plural := if chain.length = 1 then "" else "s"
    trailer "note" .bold
      (toString chain.length ++ " active call" ++ plural ++ ", --verbose lists them")

def pieces (style : ReportStyle) (d : Diagnostic) : List Piece :=
  [colored .error "error", colored .bold ("[" ++ d.code.text ++ "]"),
    plain (": " ++ d.message ++ "\n")] ++
  d.labels.flatMap style.label ++
  style.calls d.callChain ++
  (if style.verbose then d.notes.flatMap (trailer "note" .bold) else []) ++
  d.suggestions.flatMap (trailer "help" .help) ++
  [plain "\n"]

def render (style : ReportStyle) (d : Diagnostic) : String :=
  String.join ((style.pieces d).map (Piece.render style.colors))

def renderAll (style : ReportStyle) (ds : List Diagnostic) : String :=
  String.join (ds.map style.render)

end ReportStyle

end ExplicitControl
