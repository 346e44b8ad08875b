import ExplicitControl.Diagnostic.Report
import ExplicitControl.Proofs.Boundaries

/-!
# Renderings of a diagnostic

A diagnostic can be written in plain text, or as a report for a terminal.  Without a source and without colours a
report at length has the lines of the plain text, and a blank one.  Colours change nothing but the look: as long as no
text that is reported has an escape character of its own, a coloured report without its colour sequences is the report
without colours.
-/

namespace ExplicitControl

/-! ## 1. Pieces in a row -/

def Piece.renderAll (colors : Bool) (pieces : List Piece) : String :=
  String.join (pieces.map (Piece.render colors))

namespace Piece

variable {colors : Bool}

theorem renderAll_append (pieces more : List Piece) :
    renderAll colors (pieces ++ more) = renderAll colors pieces ++ renderAll colors more := by
  rw [renderAll, List.map_append, String.join_append]
  rfl

theorem renderAll_flatMap {α : Type} (f : α → List Piece) (xs : List α) :
    renderAll colors (xs.flatMap f) = String.join (xs.map fun x => renderAll colors (f x)) := by
  induction xs with
  | nil => rfl
  | cons x xs ih => rw [List.flatMap_cons, renderAll_append, ih, List.map_cons, String.join_cons]

end Piece

/-! ## 2. Plain text, line by line -/

namespace Diagnostic

def headline (d : Diagnostic) : String :=
  "error[" ++ d.code.text ++ "]: " ++ d.message

def labelLine (label : Label) : String :=
  "  " ++ marker label.isPrimary ++ " " ++ label.span.text ++ ": " ++ label.message

def callLine (site : CallSite) : String :=
  "  = in " ++ site.call ++ " at " ++ site.span.text

def remarkLine (kind text : String) : String :=
  "  = " ++ kind ++ ": " ++ text

def details (d : Diagnostic) : List String :=
  d.labels.map labelLine ++ d.callChain.map callLine ++ d.notes.map (remarkLine "note") ++
    d.suggestions.map (remarkLine "help")

theorem text_eq (d : Diagnostic) : d.text = d.headline ++ String.join (d.details.map ("\n" ++ ·)) := by
  rw [← String.toList_inj]
  simp [text, headline, details, labelLine, callLine, remarkLine, List.flatMap_map]

end Diagnostic

namespace ReportStyle

open Diagnostic

def bare : ReportStyle :=
  ⟨false, true, none⟩

theorem label_bare (l : Label) : Piece.renderAll false (bare.label l) = labelLine l ++ "\n" := by
  rw [← String.toList_inj]
  simp [Piece.renderAll, Piece.render, label, snippet, location, bare, plain, colored, labelLine]

theorem trailer_bare (kind : String) (color : Color) (text : String) :
    Piece.renderAll false (trailer kind color text) = remarkLine kind text ++ "\n" := by
  rw [← String.toList_inj]
  simp [Piece.renderAll, Piece.render, trailer, plain, colored, remarkLine]

theorem calls_bare (chain : List CallSite) :
    Piece.renderAll false (bare.calls chain) = String.join (chain.map fun site => callLine site ++ "\n") := by
  rw [calls, if_pos (show bare.verbose = true from rfl), Piece.renderAll_flatMap]
  refine congrArg String.join (List.map_congr_left fun site _ => ?_)
  rw [← String.toList_inj]
  simp [Piece.renderAll, Piece.render, location, bare, plain, colored, callLine]

/-- A bare report is the lines of the plain text and a blank one. -/
theorem render_bare (d : Diagnostic) :
    bare.render d = d.headline ++ "\n" ++ String.join (d.details.map (· ++ "\n")) ++ "\n" := by
  have hverbose : bare.verbose = true := rfl
  have hhead : Piece.renderAll false [colored .error "error", colored .bold ("[" ++ d.code.text ++ "]"),
      plain (": " ++ d.message ++ "\n")] = d.headline ++ "\n" := by
    rw [← String.toList_inj]
    simp [Piece.renderAll, Piece.render, plain, colored, headline]
  have hlast : Piece.renderAll false [plain "\n"] = "\n" := rfl
  show Piece.renderAll false (bare.pieces d) = _
  rw [pieces, if_pos hverbose]
  simp only [Piece.renderAll_append, hhead, hlast, Piece.renderAll_flatMap, label_bare, trailer_bare, calls_bare]
  simp only [details, List.map_append, List.map_map, Function.comp_def, String.join_append, String.append_assoc]

end ReportStyle

/-- Newlines before all of some lines and one at the end are a newline at the beginning and newlines behind all. -/
theorem join_newlines (lines : List String) :
    String.join (lines.map ("\n" ++ ·)) ++ "\n" = "\n" ++ String.join (lines.map (· ++ "\n")) := by
  induction lines with
  | nil => rfl
  | cons line rest ih => simp only [List.map_cons, String.join_cons, String.append_assoc, ih]

theorem ReportStyle.render_bare_eq_text (d : Diagnostic) : bare.render d = d.text ++ "\n\n" := by
  have hlines := join_newlines d.details
  calc
    bare.render d = d.headline ++ ("\n" ++ String.join (d.details.map (· ++ "\n"))) ++ "\n" := by
      rw [render_bare, ← String.append_assoc]
    _ = d.headline ++ String.join (d.details.map ("\n" ++ ·)) ++ ("\n" ++ "\n") := by
      rw [← hlines]
      simp only [String.append_assoc]
    _ = d.text ++ "\n\n" := by
      rw [Diagnostic.text_eq]
      rfl

/-! ## 3. Taking colours away -/

def isParameter (c : Char) : Bool :=
  c.isDigit || c == ';'

/-- What stands behind the colour sequence with which a text starts. -/
def behindColor? : List Char → Option (List Char)
  | '\x1b' :: '[' :: rest =>
    match rest.dropWhile isParameter with
    | 'm' :: rest => some rest
    | _ => none
  | _ => none

theorem length_behindColor? {cs rest : List Char} (h : behindColor? cs = some rest) : rest.length < cs.length := by
  unfold behindColor? at h
  split at h
  next front =>
    split at h
    next behind hbehind =>
      have hle := (List.dropWhile_sublist isParameter (l := front)).length_le
      obtain rfl := Option.some.inj h
      rw [hbehind] at hle
      simp only [List.length_cons] at hle ⊢
      omega
    next => cases h
  next => cases h

def withoutColors : List Char → List Char
  | [] => []
  | c :: cs =>
    match _h : behindColor? (c :: cs) with
    | some rest => withoutColors rest
    | none => c :: withoutColors cs
termination_by cs => cs.length
decreasing_by
  · exact length_behindColor? _h
  · exact Nat.lt_succ_self _

theorem withoutColors_of_some {cs rest : List Char} (h : behindColor? cs = some rest) :
    withoutColors cs = withoutColors rest := by
  cases cs with
  | nil => cases h
  | cons c cs =>
    rw [withoutColors]
    split
    next heq => rw [Option.some.inj (heq.symm.trans h)]
    next heq => cases heq.symm.trans h

theorem withoutColors_code (color : Color) (rest : List Char) :
    withoutColors (color.code.toList ++ rest) = withoutColors rest :=
  withoutColors_of_some (by cases color <;> rfl)

theorem withoutColors_reset (rest : List Char) : withoutColors (Color.reset.toList ++ rest) = withoutColors rest :=
  withoutColors_of_some rfl

def escape : Char := '\x1b'

theorem behindColor?_cons {c : Char} (h : c ≠ escape) (rest : List Char) : behindColor? (c :: rest) = none := by
  unfold behindColor?
  split
  next heq => exact absurd (List.cons.inj heq).1 h
  next => rfl

/-- Text without an escape character stays as it is. -/
theorem withoutColors_append {text : List Char} (h : escape ∉ text) (rest : List Char) :
    withoutColors (text ++ rest) = text ++ withoutColors rest := by
  induction text with
  | nil => rfl
  | cons c text ih =>
    rw [List.mem_cons, not_or] at h
    obtain ⟨hc, htext⟩ := h
    have hnone := behindColor?_cons (Ne.symm hc) (text ++ rest)
    rw [List.cons_append, List.cons_append, withoutColors]
    split
    next heq => cases hnone.symm.trans heq
    next => rw [ih htext]

def Clean (s : String) : Prop :=
  escape ∉ s.toList

instance (s : String) : Decidable (Clean s) :=
  inferInstanceAs (Decidable (_ ∉ _))

theorem clean_append {s s' : String} : Clean (s ++ s') ↔ Clean s ∧ Clean s' := by
  rw [Clean, String.toList_append, List.mem_append, not_or]
  rfl

theorem clean_ofList {cs : List Char} : Clean (String.ofList cs) ↔ escape ∉ cs := by
  rw [Clean, String.toList_ofList]

theorem clean_replicate {c : Char} (h : c ≠ escape) (n : Nat) : Clean (String.ofList (List.replicate n c)) :=
  clean_ofList.mpr fun hmem => h (List.eq_of_mem_replicate hmem).symm

theorem notMem_toDigits {c : Char} (h : c.isDigit = false) (n : Nat) : c ∉ Nat.toDigits 10 n := fun hmem => by
  have hdigit := Nat.isDigit_of_mem_toDigits (by decide) (by decide) hmem
  exact absurd (h.symm.trans hdigit) (by decide)

theorem clean_number (n : Nat) : Clean (toString n) := fun h => by
  have hdigits : escape ∈ Nat.toDigits 10 n := by rwa [← Nat.toList_repr]
  exact notMem_toDigits (by decide) n hdigits

theorem Span.clean_text (s : Span) : Clean s.text :=
  clean_append.mpr ⟨clean_append.mpr ⟨clean_number _, by decide⟩, clean_number _⟩

def AllClean (pieces : List Piece) : Prop :=
  ∀ piece ∈ pieces, Clean piece.text

/-- **Colours can be taken away** from pieces without escape characters of their own. -/
theorem Piece.withoutColors_renderAll {pieces : List Piece} (h : AllClean pieces) :
    withoutColors (renderAll true pieces).toList = (renderAll false pieces).toList := by
  induction pieces with
  | nil =>
    show withoutColors [] = []
    rw [withoutColors]
  | cons piece pieces ih =>
    obtain ⟨hpiece, hrest⟩ := List.forall_mem_cons.mp h
    have hcons : ∀ colors, (renderAll colors (piece :: pieces)).toList =
        (piece.render colors).toList ++ (renderAll colors pieces).toList := fun colors => by
      rw [renderAll, List.map_cons, String.join_cons, String.toList_append]
      rfl
    rw [hcons, hcons, ← ih hrest]
    obtain ⟨text, _ | color⟩ := piece
    · exact withoutColors_append hpiece _
    · show withoutColors ((color.code ++ text ++ Color.reset).toList ++ _) = text.toList ++ _
      rw [String.toList_append, String.toList_append, List.append_assoc, List.append_assoc, withoutColors_code,
        withoutColors_append hpiece, withoutColors_reset]

namespace AllClean

theorem append {pieces more : List Piece} (h : AllClean pieces) (hmore : AllClean more) : AllClean (pieces ++ more) :=
  List.forall_mem_append.mpr ⟨h, hmore⟩

theorem flatMap {α : Type} {f : α → List Piece} {xs : List α} (h : ∀ x ∈ xs, AllClean (f x)) :
    AllClean (xs.flatMap f) := fun piece hpiece => by
  obtain ⟨x, hx, hmem⟩ := List.mem_flatMap.mp hpiece
  exact h x hx piece hmem

end AllClean

/-! ## 4. What a report is made of -/

structure Diagnostic.IsClean (d : Diagnostic) : Prop where
  message : Clean d.message
  labels : ∀ label ∈ d.labels, Clean label.message
  calls : ∀ site ∈ d.callChain, Clean site.call
  notes : ∀ note ∈ d.notes, Clean note
  suggestions : ∀ suggestion ∈ d.suggestions, Clean suggestion

structure SourceText.IsClean (s : SourceText) : Prop where
  path : Clean s.path
  source : escape ∉ s.table.source

/-- The text of a line is part of the source. -/
theorem LineTable.mem_of_lineText? {t : LineTable} {line : Nat} {text : List Char} (h : t.lineText? line = some text)
    {c : Char} (hc : c ∈ text) : c ∈ t.source := by
  unfold lineText? at h
  split at h
  · cases h
  · split at h
    · cases h
    · exact Text.mem_of_mem_sliceBytes h hc

namespace ReportStyle

theorem clean_code (code : ErrorCode) : Clean code.text := by
  cases code <;> decide

theorem allClean_trailer {kind text : String} (hkind : Clean kind) (htext : Clean text) (color : Color) :
    AllClean (trailer kind color text) := by
  simp +decide [trailer, AllClean, plain, colored, clean_append, hkind, htext]

variable {style : ReportStyle} (h : ∀ s ∈ style.source, s.IsClean)
include h

theorem clean_location (span : Span) : Clean (style.location span) := by
  unfold location
  split
  next s hs =>
    have hcolon : Clean ":" := by decide
    simp only [SourceText.location, clean_append]
    exact ⟨⟨⟨⟨(h s hs).path, hcolon⟩, clean_number _⟩, hcolon⟩, clean_number _⟩
  next => exact span.clean_text

theorem allClean_snippet (span : Span) : AllClean (style.snippet span) := by
  unfold snippet
  split
  next => exact List.forall_mem_nil _
  next snippet hsnippet =>
    obtain ⟨s, hs, hspan⟩ := Option.bind_eq_some_iff.mp hsnippet
    obtain ⟨text, htext, rfl⟩ := Option.map_eq_some_iff.mp hspan
    have hline : Clean (String.ofList text) :=
      clean_ofList.mpr fun hmem => (h s hs).source (LineTable.mem_of_lineText? htext hmem)
    have hblank : ∀ n, Clean (String.ofList (List.replicate n ' ')) := clean_replicate (by decide)
    have hcaret : ∀ n, Clean (String.ofList (List.replicate n '^')) := clean_replicate (by decide)
    have hnumber : ∀ n : UInt32, Clean (toString n) := fun n => clean_number n.toNat
    simp +decide only [AllClean, List.forall_mem_cons, plain, colored, clean_append, hnumber, hline, hblank, hcaret,
      and_true]

theorem allClean_label {l : Label} (hl : Clean l.message) : AllClean (style.label l) := by
  have hmarker : Clean (Diagnostic.marker l.isPrimary) := by cases l.isPrimary <;> decide
  unfold label
  split
  · refine AllClean.append ?_ ?_
    · simp +decide [AllClean, plain, colored, clean_append, hmarker, clean_location h, hl]
    · split
      · exact allClean_snippet h _
      · exact List.forall_mem_nil _
  · exact List.forall_mem_nil _

theorem allClean_calls {chain : List CallSite} (hchain : ∀ site ∈ chain, Clean site.call) :
    AllClean (style.calls chain) := by
  unfold calls
  split
  · refine AllClean.flatMap fun site hsite => ?_
    simp +decide [AllClean, plain, colored, clean_append, hchain site hsite, clean_location h]
  · split
    · exact List.forall_mem_nil _
    · refine allClean_trailer (by decide) ?_ _
      have hplural : Clean (if chain.length = 1 then "" else "s") := by split <;> decide
      simp +decide only [clean_append, clean_number, hplural, true_and]

theorem allClean_pieces {d : Diagnostic} (hd : d.IsClean) : AllClean (style.pieces d) := by
  have hhead : AllClean [colored .error "error", colored .bold ("[" ++ d.code.text ++ "]"),
      plain (": " ++ d.message ++ "\n")] := by
    simp +decide [AllClean, plain, colored, clean_append, clean_code, hd.message]
  have hlabels : AllClean (d.labels.flatMap style.label) :=
    AllClean.flatMap fun l hl => allClean_label h (hd.labels l hl)
  have hnotes : AllClean (if style.verbose then d.notes.flatMap (trailer "note" .bold) else []) := by
    split
    · exact AllClean.flatMap fun note hnote => allClean_trailer (by decide) (hd.notes note hnote) _
    · exact List.forall_mem_nil _
  have hsuggestions : AllClean (d.suggestions.flatMap (trailer "help" .help)) :=
    AllClean.flatMap fun s hs => allClean_trailer (by decide) (hd.suggestions s hs) _
  have hlast : AllClean [plain "\n"] := List.forall_mem_singleton.mpr (by decide)
  exact ((((hhead.append hlabels).append (allClean_calls h hd.calls)).append hnotes).append hsuggestions).append hlast

end ReportStyle

/-- **All renderings agree.**  At length, without a source and without colours, a report is the plain text with two
newlines behind it.  Whatever the style and the source, as long as there is no escape character in the texts that are
told, a report in colours is the report without colours once its colour sequences are taken away. -/
theorem renderings_agree :
    (∀ d : Diagnostic, ReportStyle.bare.render d = d.text ++ "\n\n") ∧
    ∀ (d : Diagnostic) (verbose : Bool) (source : Option SourceText), d.IsClean → (∀ s ∈ source, s.IsClean) →
      withoutColors ((ReportStyle.mk true verbose source).render d).toList =
        ((ReportStyle.mk false verbose source).render d).toList := by
  refine ⟨ReportStyle.render_bare_eq_text, fun d verbose source hd hsource => ?_⟩
  have hclean : AllClean ((ReportStyle.mk true verbose source).pieces d) := ReportStyle.allClean_pieces hsource hd
  exact Piece.withoutColors_renderAll hclean

/-- A failure with everything that a report can tell. -/
def Diagnostic.ofMixedSum : Diagnostic where
  code := .e7102
  message := "expected number on the right of `+`, found string \"a\""
  labels := [⟨⟨11, 18⟩, "this is string \"a\"", true⟩, ⟨⟨0, 10⟩, "declared here", false⟩]
  callChain := [⟨"f(1)", ⟨0, 4⟩⟩]
  notes := ["the left side is a number"]
  suggestions := ["run with `--native` to use host coercions instead of checks"]

def SourceText.ofMixedSum : SourceText :=
  .ofString "sum.js" "let a = 1;\na + \"a\";"

theorem renderings_agree_mixedSum :
    Diagnostic.ofMixedSum.IsClean ∧ (∀ s ∈ some SourceText.ofMixedSum, s.IsClean) ∧
      withoutColors ((ReportStyle.mk true true (some .ofMixedSum)).render .ofMixedSum).toList =
        ((ReportStyle.mk false true (some .ofMixedSum)).render .ofMixedSum).toList := by
  have hd : Diagnostic.ofMixedSum.IsClean := by constructor <;> decide
  have hsource : ∀ s ∈ some SourceText.ofMixedSum, s.IsClean := by
    rintro _ ⟨⟩
    constructor <;> decide
  exact ⟨hd, hsource, renderings_agree.2 .ofMixedSum true _ hd hsource⟩

end ExplicitControl
