import ExplicitControl.Proofs.LineTables
import ExplicitControl.Proofs.Renderings

/-!
# Snippets

A report at length shows the line in which a span starts, with carets under the span.  A span comes from a tree, and
nothing is known of it: it may be inverted, reach past the end of the text, start or end inside a character, or go over
several lines.  Whatever it is, there is a line to be shown, and carets to be put under it; they start under the line or
right behind it, and end there.  If the span goes from one boundary to another on the same line, they stand under its
characters and under nothing else.  Only at the end of the longest texts, where the place of an offset is lost, is there
no such snippet.
-/

namespace ExplicitControl

open Text

/-! ## 1. What is underlined -/

namespace SourceText

variable {s : SourceText} {span : Span} {before after cs : List Char}

theorem length_firstLine_le (cs : List Char) : (firstLine cs).length ≤ (cs.takeWhile fun c => c != '\n').length := by
  rw [firstLine]
  split
  · rw [List.length_dropLast]
    exact Nat.sub_le _ _
  · exact Nat.le_refl _

/-- A carriage return is part of a line unless a newline follows it. -/
theorem firstLine_of_notMem (h : '\n' ∉ cs) : firstLine cs = cs := by
  have hall : (cs.takeWhile fun c => c != '\n') = cs := by
    simpa using takeWhile_append_of_notMem h []
  simp [firstLine, hall]

def spanned (s : SourceText) (span : Span) : List Char :=
  (sliceBytes s.table.source span.start.toNat span.stop.toNat).getD []

def OnOneLine (s : SourceText) (span : Span) : Prop :=
  IsBoundary s.table.source span.start.toNat ∧ IsBoundary s.table.source span.stop.toNat ∧
    s.table.linesBefore span.start.toNat = s.table.linesBefore span.stop.toNat

instance (s : SourceText) (span : Span) : Decidable (s.OnOneLine span) :=
  inferInstanceAs (Decidable (_ ∧ _))

theorem underlined_eq (s : SourceText) (span : Span) :
    s.underlined span = max (firstLine (s.spanned span)).length 1 := by
  rw [underlined, spanned]
  split
  next cs hcs => rw [hcs, Option.getD_some]
  next hnone => rw [hnone]; rfl

theorem one_le_underlined (s : SourceText) (span : Span) : 1 ≤ s.underlined span := by
  rw [underlined_eq]
  exact Nat.le_max_right _ _

theorem underlined_of_not_isBoundary (h : ¬ IsBoundary s.table.source span.start.toNat) : s.underlined span = 1 := by
  have hslice : sliceBytes s.table.source span.start.toNat span.stop.toNat = none := by
    rw [Option.eq_none_iff_forall_ne_some]
    exact fun mid hmid => h (isBoundary_of_sliceBytes hmid).1
  rw [underlined_eq, spanned, hslice]
  rfl

section

variable (htable : s.table = LineTable.ofChars (before ++ after)) (hstart : byteLength before = span.start.toNat)
include htable hstart

theorem spanned_eq : s.spanned span = (if byteLength before ≤ span.stop.toNat then
    takeBytes (span.stop.toNat - byteLength before) after else none).getD [] := by
  rw [spanned, htable, LineTable.source_ofChars, ← hstart, sliceBytes_append]

theorem spanned_begins : s.spanned span <+: after := by
  rw [spanned_eq htable hstart]
  split
  · cases hmid : takeBytes (span.stop.toNat - byteLength before) after with
    | none => exact List.nil_prefix
    | some mid => exact (begins_of_takeBytes hmid).1
  · exact List.nil_prefix

/-- Nothing is underlined behind the line in which the span starts. -/
theorem underlined_le : s.underlined span ≤ max (after.takeWhile fun c => c != '\n').length 1 := by
  obtain ⟨rest, rfl⟩ := spanned_begins htable hstart
  have hfirst := length_firstLine_le (s.spanned span)
  have hspanned := (List.takeWhile_prefix (l := s.spanned span) fun c => c != '\n').length_le
  rw [underlined_eq, List.takeWhile_append]
  -- Either the span does not leave its line, or the line ends inside of it.
  split
  · rw [List.length_append]
    omega
  · omega

/-- The characters of a span on one line have no newline, and as many bytes as the span. -/
theorem spanned_of_onOneLine (h : s.OnOneLine span) :
    '\n' ∉ s.spanned span ∧ byteLength (s.spanned span) = span.length := by
  obtain ⟨-, ⟨first, hfirst, hbytes⟩, hline⟩ := h
  rw [htable] at hfirst hline
  rw [spanned_eq htable hstart, Span.length]
  by_cases hle : byteLength before ≤ byteLength first
  · obtain ⟨mid, rfl⟩ := begins_of_byteLength_le (List.prefix_append _ _) hfirst hle
    obtain ⟨rest, rfl⟩ := (List.prefix_append_right_inj before).mp hfirst
    have hcount : mid.count '\n' = 0 := by
      rw [← hstart, ← hbytes, LineTable.linesBefore_byteLength, ← List.append_assoc, LineTable.linesBefore_byteLength,
        List.count_append] at hline
      omega
    rw [byteLength_append] at hle hbytes
    rw [if_pos (by omega), ← hbytes, ← hstart, Nat.add_sub_cancel_left, takeBytes_append]
    exact ⟨List.count_eq_zero.mp hcount, rfl⟩
  -- An inverted span has no characters, and its length is zero as well.
  · rw [if_neg (by omega)]
    exact ⟨List.not_mem_nil, show 0 = _ by omega⟩

end

end SourceText

/-! ## 2. How a snippet is written -/

def Snippet.lines (snippet : Snippet) (colors : Bool) : List (List Char) :=
  let gutter := (toString snippet.line.toNat).toList
  let pad := List.replicate gutter.length ' '
  let carets := ReportStyle.colored .error (String.ofList (List.replicate snippet.width '^'))
  [pad ++ [' ', '|'],
    gutter ++ [' ', '|', ' '] ++ snippet.text,
    pad ++ [' ', '|', ' '] ++ List.replicate snippet.indent ' ' ++ (carets.render colors).toList]

theorem Snippet.newline_notMem_lines {snippet : Snippet} (htext : '\n' ∉ snippet.text) (colors : Bool) :
    ∀ line ∈ snippet.lines colors, '\n' ∉ line := by
  have hnumber : '\n' ∉ Nat.toDigits 10 snippet.line.toNat := notMem_toDigits (by decide) _
  cases colors <;> simp [lines, ReportStyle.colored, Piece.render, Color.code, Color.reset, hnumber, htext]

/-- **A snippet is written** as its lines, each with a newline behind it. -/
theorem ReportStyle.splitOn_snippet {style : ReportStyle} {s : SourceText} {span : Span} {snippet : Snippet}
    (hsource : style.source = some s) (hfound : s.snippet? span = some snippet) (htext : '\n' ∉ snippet.text) :
    (Piece.renderAll style.colors (style.snippet span)).toList.splitOn '\n' = snippet.lines style.colors ++ [[]] := by
  -- Lines with newlines between them can be told apart again, since there are no other newlines.
  have hwritten : (Piece.renderAll style.colors (style.snippet span)).toList =
      ['\n'].intercalate (snippet.lines style.colors ++ [[]]) := by
    have hbind : (style.source.bind fun source => source.snippet? span) = some snippet := by
      rw [hsource, Option.bind_some, hfound]
    have hgutter : snippet.line.toNat.repr.length = (Nat.toDigits 10 snippet.line.toNat).length := by
      rw [← String.length_toList, Nat.toList_repr]
    have hnumber : toString snippet.line = snippet.line.toNat.repr := rfl
    rw [ReportStyle.snippet, hbind]
    simp [Piece.renderAll, Snippet.lines, plain, Piece.render, List.intercalate, hgutter, hnumber]
  rw [hwritten]
  refine List.splitOn_intercalate '\n' (fun line hline => ?_) (by simp)
  obtain hline | hline := List.mem_append.mp hline
  · exact Snippet.newline_notMem_lines htext _ line hline
  · simp [List.mem_singleton.mp hline]

/-! ## 3. Snippets of arbitrary spans -/

namespace SourceText

/-- The carets stand under the characters of the span, or under one place if it has none. -/
def Covers (s : SourceText) (span : Span) (snippet : Snippet) : Prop :=
  ∃ left right, snippet.text = left ++ s.spanned span ++ right ∧
    s.table.startOf snippet.line + byteLength left = span.start.toNat ∧ byteLength (s.spanned span) = span.length ∧
    snippet.indent = left.length ∧ snippet.width = max (s.spanned span).length 1

/-- What a snippet of a span owes to its reader. -/
structure Shows (s : SourceText) (span : Span) (snippet : Snippet) : Prop where
  found : s.snippet? span = some snippet
  /-- The line is one of the text. -/
  line : 1 ≤ snippet.line.toNat ∧ snippet.line.toNat ≤ s.table.lineCount
  text : s.table.lineText? snippet.line.toNat = some snippet.text
  /-- The carets start in the column of the span, which counts from one. -/
  place : (s.table.lineCol span.start.toNat).line = snippet.line ∧
    (s.table.lineCol span.start.toNat).column.toNat = snippet.indent + 1
  /-- No sum has wrapped around, and neither has the difference that gives the indentation. -/
  exact : snippet.line.toNat = s.table.linesBefore span.start.toNat + 1 ∧
    snippet.indent = s.table.charsBefore span.start.toNat
  starts : snippet.indent ≤ snippet.text.length
  wide : 1 ≤ snippet.width
  ends : snippet.indent + snippet.width ≤ snippet.text.length + 1
  covers : s.OnOneLine span → s.Covers span snippet
  /-- It is written as its lines, each with a newline behind it. -/
  written : ∀ style : ReportStyle, style.source = some s →
    (Piece.renderAll style.colors (style.snippet span)).toList.splitOn '\n' = snippet.lines style.colors ++ [[]]

variable {s : SourceText} {span : Span} {before after : List Char}

def snippetAt (s : SourceText) (span : Span) (before after : List Char) : Snippet where
  line := s.table.lineOf span.start.toNat
  text := lastLine before ++ after.takeWhile fun c => c != '\n'
  indent := s.table.charsBefore span.start.toNat
  width := s.underlined span

theorem newline_notMem_snippetAt : '\n' ∉ (s.snippetAt span before after).text := fun h => by
  obtain h | h := List.mem_append.mp h
  · exact newline_notMem_lastLine before h
  · simpa using List.mem_takeWhile_imp h

/-- One less, in numbers of 64 bits, is the number before if there is one. -/
theorem toNat_toUInt64_sub_one {column : UInt32} {n : Nat} (h : column.toNat = n + 1) :
    (column.toUInt64 - 1).toNat = n := by
  have hone : (1 : UInt64) ≤ column.toUInt64 := by
    rw [UInt64.le_iff_toNat_le, UInt32.toNat_toUInt64, h]
    exact Nat.le_add_left _ _
  rw [UInt64.toNat_sub_of_le _ _ hone, UInt32.toNat_toUInt64, h]
  rfl

section

variable (htable : s.table = LineTable.ofChars (before ++ after)) (hsize : byteLength (before ++ after) < 4294967296)
  (hplace : ¬ s.table.Overflows span.start.toNat)
include htable hsize hplace

theorem shows_snippetAt (hlines : s.table.linesBefore span.start.toNat = before.count '\n')
    (hchars : s.table.charsBefore span.start.toNat ≤ (lastLine before).length)
    (hends : s.table.charsBefore span.start.toNat + s.underlined span ≤
      (s.snippetAt span before after).text.length + 1)
    (hcovers : s.OnOneLine span → s.Covers span (s.snippetAt span before after)) :
    s.Shows span (s.snippetAt span before after) := by
  obtain ⟨hline, hcolumn⟩ : (s.table.lineCol span.start.toNat).line.toNat = s.table.linesBefore span.start.toNat + 1 ∧
      (s.table.lineCol span.start.toNat).column.toNat = s.table.charsBefore span.start.toNat + 1 := by
    rw [htable] at hplace ⊢
    exact LineTable.toNat_lineCol hsize hplace
  have htext : s.table.lineText? (s.table.lineCol span.start.toNat).line.toNat =
      some (s.snippetAt span before after).text := by
    rw [hline, hlines, Nat.add_comm, htable, LineTable.lineText?_ofChars]
    rfl
  have hfound : s.snippet? span = some (s.snippetAt span before after) := by
    rw [snippet?, htext, Option.map_some, toNat_toUInt64_sub_one hcolumn]
    rfl
  have hcount : s.table.lineCount = before.count '\n' + after.count '\n' + 1 := by
    rw [htable, LineTable.lineCount_ofChars, List.count_append]
  have hnumber : (s.snippetAt span before after).line.toNat = s.table.linesBefore span.start.toNat + 1 := hline
  exact {
    found := hfound
    line := by omega
    text := htext
    place := ⟨rfl, hcolumn⟩
    exact := ⟨hnumber, rfl⟩
    starts := by
      rw [snippetAt, List.length_append]
      exact Nat.le_trans hchars (Nat.le_add_right _ _)
    wide := one_le_underlined s span
    ends := hends
    covers := hcovers
    written := fun _ hstyle => ReportStyle.splitOn_snippet hstyle hfound newline_notMem_snippetAt }

section

variable (hstart : byteLength before = span.start.toNat)
include hstart

omit hplace in
theorem covers_snippetAt (h : s.OnOneLine span) : s.Covers span (s.snippetAt span before after) := by
  obtain ⟨hnewline, hbytes⟩ := spanned_of_onOneLine htable hstart h
  obtain ⟨rest, hrest⟩ := spanned_begins htable hstart
  have htake : (after.takeWhile fun c => c != '\n') = s.spanned span ++ rest.takeWhile fun c => c != '\n' := by
    rw [← hrest, takeWhile_append_of_notMem hnewline]
  refine ⟨lastLine before, rest.takeWhile fun c => c != '\n', ?_, ?_, hbytes, ?_, ?_⟩
  · rw [snippetAt, htake, List.append_assoc]
  · rw [snippetAt, LineTable.lineOf, htable, ← hstart, LineTable.linesBefore_byteLength,
      LineTable.startOf_fromOne hsize, ← byteLength_append, wholeLines_append_lastLine]
  · rw [snippetAt, htable, ← hstart, LineTable.charsBefore_byteLength hsize]
  · rw [snippetAt, underlined_eq, firstLine_of_notMem hnewline]

/-- A span that starts at a boundary has its carets from there on. -/
theorem shows_of_boundary : s.Shows span (s.snippetAt span before after) := by
  have hlines : s.table.linesBefore span.start.toNat = before.count '\n' := by
    rw [htable, ← hstart, LineTable.linesBefore_byteLength]
  have hchars : s.table.charsBefore span.start.toNat = (lastLine before).length := by
    rw [htable, ← hstart, LineTable.charsBefore_byteLength hsize]
  have hwidth := underlined_le htable hstart
  refine shows_snippetAt htable hsize hplace hlines hchars.le ?_ (covers_snippetAt htable hsize hstart)
  rw [hchars, snippetAt, List.length_append]
  omega

end

end

theorem exists_shows (path : String) {cs : List Char} (span : Span) (hsize : byteLength cs < 4294967296)
    (hplace : ¬ (LineTable.ofChars cs).Overflows span.start.toNat) :
    ∃ snippet, (SourceText.mk path (LineTable.ofChars cs)).Shows span snippet := by
  -- Characters are cut out of the text from a boundary on; a span that starts elsewhere has one caret.
  by_cases hstart : IsBoundary cs span.start.toNat
  · obtain ⟨before, ⟨after, rfl⟩, hbytes⟩ := hstart
    exact ⟨_, shows_of_boundary rfl hsize hplace hbytes⟩
  · obtain ⟨before, after, rfl, -, hlines, hchars⟩ := LineTable.exists_place hsize span.start.toNat
    have hwidth : (SourceText.mk path (LineTable.ofChars (before ++ after))).underlined span = 1 :=
      underlined_of_not_isBoundary hstart
    refine ⟨_, shows_snippetAt rfl hsize hplace hlines hchars ?_ fun h => absurd h.1 hstart⟩
    rw [hwidth, snippetAt, List.length_append]
    exact Nat.succ_le_succ (Nat.le_trans hchars (Nat.le_add_right _ _))

/-- A place that is lost is not shown: line and column are below `2 ^ 32`. -/
theorem Shows.not_overflows {snippet : Snippet} (h : s.Shows span snippet) :
    ¬ s.table.Overflows span.start.toNat := fun hover => by
  have hline := UInt32.toNat_lt snippet.line
  have hcolumn := UInt32.toNat_lt (s.table.lineCol span.start.toNat).column
  have hplace := h.place.2
  obtain ⟨hlines, hchars⟩ := h.exact
  obtain hover | hover := hover
  · omega
  · omega

/-- **Snippets.**  If the place where a span starts is not lost, there is a line to be shown, whatever else the span is.
The carets start under it or right behind it, there is at least one, and they end one column behind the last character
at most; if the span goes from one boundary to another on the same line, they stand under its characters.  Nothing is
taken away from a smaller number, and no sum wraps around: lines and columns count from one, every line but the first
starts behind the start of the text, and where lines start are numbers of 32 bits.  A text of less than
`2 ^ 32 - 1` bytes loses no place; where a place is lost, there is no such snippet. -/
theorem snippets_underline_spans (path text : String) (h : text.utf8ByteSize < 4294967296) (span : Span) :
    (∀ start ∈ (ofString path text).table.starts, start < 4294967296) ∧
    (∀ next ∈ (ofString path text).table.starts.tail, 0 < next) ∧
    ((∃ snippet, (ofString path text).Shows span snippet) ↔
      ¬ (ofString path text).table.Overflows span.start.toNat) ∧
    (text.utf8ByteSize < 4294967295 → ¬ (ofString path text).table.Overflows span.start.toNat) := by
  have hbytes : byteLength text.toList < 4294967296 := by rwa [byteLength_toList]
  refine ⟨fun start hstart => ?_, fun next hnext => LineTable.pos_of_mem_startsAfter hnext,
    ⟨fun ⟨_, hshows⟩ => hshows.not_overflows, exists_shows path span hbytes⟩, fun hlt => ?_⟩
  · obtain rfl | hstart := List.mem_cons.mp hstart
    · decide
    · have := LineTable.le_of_mem_startsAfter hstart
      omega
  · rw [← byteLength_toList] at hlt
    exact LineTable.not_overflows_of_lt hbytes hlt

/-- A letter and an umlaut in the second line, with a caret under each. -/
theorem snippets_underline_spans_umlaut :
    "a\nbä + 1".utf8ByteSize < 4294967296 ∧ "a\nbä + 1".utf8ByteSize < 4294967295 ∧
    (ofString "sum.js" "a\nbä + 1").OnOneLine ⟨2, 5⟩ ∧
    (∀ start ∈ (ofString "sum.js" "a\nbä + 1").table.starts, start < 4294967296) ∧
    (∀ next ∈ (ofString "sum.js" "a\nbä + 1").table.starts.tail, 0 < next) ∧
    ∃ snippet, (ofString "sum.js" "a\nbä + 1").Shows ⟨2, 5⟩ snippet ∧
      (ofString "sum.js" "a\nbä + 1").Covers ⟨2, 5⟩ snippet := by
  have hsize : "a\nbä + 1".utf8ByteSize < 4294967296 := by decide
  have hless : "a\nbä + 1".utf8ByteSize < 4294967295 := by decide
  have hline : (ofString "sum.js" "a\nbä + 1").OnOneLine ⟨2, 5⟩ := by decide
  obtain ⟨hsmall, hpos, hshown, hplaces⟩ := snippets_underline_spans "sum.js" "a\nbä + 1" hsize ⟨2, 5⟩
  obtain ⟨snippet, hshows⟩ := hshown.mpr (hplaces hless)
  exact ⟨hsize, hless, hline, hsmall, hpos, snippet, hshows, hshows.covers hline⟩

/-- A text can have so many newlines that no line is shown at its end. -/
theorem last_newline_without_snippet :
    (String.ofList (List.replicate 4294967295 '\n')).utf8ByteSize = 4294967295 ∧
    (ofString "lines.txt" (String.ofList (List.replicate 4294967295 '\n'))).snippet?
      ⟨4294967295, 4294967295⟩ = none := by
  have hplace : (LineTable.ofChars (List.replicate 4294967295 '\n')).lineCol 4294967295 = ⟨0, 1⟩ := by
    rw [LineTable.lineCol_newlines (by decide), LineTable.fromOne_last]
  refine ⟨by rw [← byteLength_ofList, byteLength_replicate _ rfl], ?_⟩
  rw [snippet?, ofString, LineTable.ofString, String.toList_ofList]
  dsimp only
  rw [show (4294967295 : UInt32).toNat = 4294967295 from rfl, hplace]
  rfl

/-- A span that is inverted and starts inside a character: one caret in front of its line. -/
example : (ofString "sum.js" "a\nbä + 1").snippet? ⟨4, 1⟩ = some ⟨2, "bä + 1".toList, 0, 1⟩ := by decide

end SourceText

end ExplicitControl
